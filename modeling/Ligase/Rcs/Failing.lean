import Ligase.Rcs.Rows

/-!
# Friendship handling when the database fails

The handlers of a member event, with the calls of the database that fail. A handler writes at most
twice, and some errors come after a write.

* **`failed_keeps_table_iff`**: when the table is the same after an error.
-/

namespace Ligase.Rcs

open Lib Auth Proc Store Option List

namespace Failing

/-! ## The handlers -/

/-- The calls of the database, each made at most once. -/
inductive DbCall where
  | getByParties
  | delete
  | getInvited
  | update
  | getRow
  deriving DecidableEq

section
variable (fails : DbCall → Bool) (p : Processor)

def attempt (c : DbCall) : Handler Unit := if fails c then .fail .unavailable else pure ()

/-- A transition that is not ignored makes one call, when the remark has been read. -/
def trigger (st : St) (op sender stateKey : String) (isCreator : Bool) (f : RCSFriendship)
    (ev : Event) : Handler Unit :=
  match transitions.find? fun t => t.start = st ∧ t.event = op with
  | none => .fail .noTransition
  | some t =>
    if t.action = .ignore then pure ()
    else do
      let _ ← .require .crash (remark stateKey ev)
      attempt fails .update
      Rcs.trigger st op sender stateKey isCreator f ev

variable (ev : Event)

def rejoin (stateKey : String) (f : RCSFriendship) : Handler (List Event) := do
  let e₁ ← p.buildEvent 0 ev.sender ev.roomID ev.sender "invite"
  let e₂ ← p.buildEvent 1 ev.sender ev.roomID ev.sender "join"
  let invites ← inviteIfLeft p ev stateKey (stateOf f stateKey)
  let newStateKeySt := if stateOf f stateKey = .leave then .invite else stateOf f stateKey
  let states := if ev.sender = f.fcID then (St.join, newStateKeySt) else (newStateKeySt, St.join)
  attempt fails .update
  update (friendship f.id f.roomID f.fcID f.toFcID states.1 states.2 f.fcIDRemark f.toFcIDRemark
    f.fcIDOnceJoined f.toFcIDOnceJoined ev.eventID)
  return e₁ :: e₂ :: invites

def handleNormalMembership : Handler (List Event) :=
  match ev.stateKey with
  | none => .fail .noStateKey
  | some stateKey => do
    let op ← membership ev
    attempt fails .getRow
    match ← .query (Store.getFriendshipByRoomID · ev.roomID) with
    | none => if op = "leave" ∧ !p.isLocal ev.sender then return [ev] else .fail .notFound
    | some f =>
      if p.isLocal ev.sender ∧ stateOf f ev.sender = .leave ∧ op = "invite" ∧ ev.sender ≠ stateKey
      then rejoin fails p ev stateKey f
      else
        trigger fails (stateOf f stateKey) op ev.sender stateKey (stateKey = f.fcID) f ev
        return [ev]

def handleFedInvite (stateKey : String) : Handler (List Event) := do
  attempt fails .getByParties
  match ← .query (Store.getFriendshipByFcIDAndToFcID · stateKey ev.sender) with
  | some f₂ =>
    if f₂.roomID ≠ ev.roomID then
      if ev.roomID < f₂.roomID then
        attempt fails .delete
        delete f₂.roomID
        attempt fails .getInvited
        let f₁ ← .require .notFound (← .query (Store.getFriendshipByRoomID · ev.roomID))
        let r ← .require .crash (remark stateKey ev)
        attempt fails .update
        update (friendship (getID ev.sender stateKey) ev.roomID ev.sender stateKey f₁.fcIDState
          .join f₁.fcIDRemark r true true ev.eventID)
        let e₁ ← p.buildEvent 0 stateKey f₂.roomID stateKey "leave"
        let e₂ ← p.buildEvent 1 stateKey ev.roomID stateKey "join"
        return [e₁, e₂]
      else
        attempt fails .delete
        delete ev.roomID
        let e ← p.buildEvent 0 stateKey ev.roomID stateKey "leave"
        return [e]
    else handleNormalMembership fails p ev
  | none => handleNormalMembership fails p ev

/-- The row of the room that the sender joins when their invite meets another one. -/
def joinedOther (f₂ : RCSFriendship) (remark : String) (ev : Event) : RCSFriendship :=
  friendship f₂.id f₂.roomID f₂.fcID f₂.toFcID f₂.fcIDState .join f₂.fcIDRemark remark
    f₂.fcIDOnceJoined true ev.eventID

def joinedOwn (f₁ : RCSFriendship) (ev : Event) : RCSFriendship :=
  if ev.sender = f₁.fcID then
    friendship f₁.id f₁.roomID f₁.fcID f₁.toFcID .join f₁.toFcIDState f₁.fcIDRemark
      f₁.toFcIDRemark true f₁.toFcIDOnceJoined ev.eventID
  else
    friendship f₁.id f₁.roomID f₁.fcID f₁.toFcID f₁.fcIDState .join f₁.fcIDRemark
      f₁.toFcIDRemark f₁.fcIDOnceJoined true ev.eventID

def handleLocalInvite (stateKey : String) : Handler (List Event) := do
  attempt fails .getByParties
  let f₂ ← .query (Store.getFriendshipByFcIDAndToFcID · stateKey ev.sender)
  match f₂.filter fun f₂ => f₂.roomID ≠ ev.roomID with
  | some f₂ =>
    attempt fails .delete
    delete ev.roomID
    let e₁ ← p.buildEvent 0 ev.sender ev.roomID ev.sender "leave"
    let r ← .require .crash (getUsername f₂.toFcID)
    attempt fails .update
    update (joinedOther f₂ r ev)
    let e₂ ← p.buildEvent 1 ev.sender f₂.roomID ev.sender "join"
    return [e₁, e₂]
  | none =>
    attempt fails .getInvited
    let f₁ ← .require .notFound (← .query (Store.getFriendshipByRoomID · ev.roomID))
    if stateOf f₁ ev.sender = .invite then
      attempt fails .update
      update (joinedOwn f₁ ev)
      let e ← p.buildEvent 0 ev.sender ev.roomID ev.sender "join"
      return [e]
    else handleNormalMembership fails p ev

def handleInvite : Handler (List Event) :=
  match ev.stateKey with
  | none => .fail .noStateKey
  | some stateKey =>
    if p.isLocal ev.sender then handleLocalInvite fails p ev stateKey
    else handleFedInvite fails p ev stateKey

def handleMembership : Handler (List Event) := do
  let m ← membership ev
  if m = "invite" then handleInvite fails p ev else handleNormalMembership fails p ev

end

/-! ## Without failures -/

section
variable {p : Processor} {ev : Event} {stateKey : String}

theorem attempt_never {α : Type} {c : DbCall} {x : Handler α} :
    (attempt (fun _ => false) c >>= fun _ => x) = x := rfl

theorem trigger_eq {s : St} {op sender : String} {isCreator : Bool} {f : RCSFriendship} :
    trigger (fun _ => false) s op sender stateKey isCreator f ev =
      Rcs.trigger s op sender stateKey isCreator f ev := by
  unfold trigger
  split
  · rename_i ht
    rw [Rcs.trigger, ht]
  · rename_i t ht
    have hcrash : remark stateKey ev = none → t.action ≠ .ignore →
        Rcs.trigger s op sender stateKey isCreator f ev = .fail .crash := by
      intro hr ha
      rw [Rcs.trigger, ht]
      dsimp only
      split
      · exact absurd ‹_› ha
      all_goals
        show (.require .crash (remark stateKey ev) >>= _ : Handler Unit) = _
        rw [hr]
        rfl
    split_ifs with hact
    · rw [Rcs.trigger, ht]
      simp only [hact]
    · cases hr : remark stateKey ev with
      | none => exact (hcrash hr hact).symm
      | some r => rfl

theorem rejoin_eq {f : RCSFriendship} :
    rejoin (fun _ => false) p ev stateKey f = Rcs.rejoin p ev stateKey f := rfl

theorem handleNormalMembership_eq :
    handleNormalMembership (fun _ => false) p ev = Rcs.handleNormalMembership p ev := by
  unfold handleNormalMembership
  simp only [attempt_never, trigger_eq, rejoin_eq]
  rfl

theorem handleFedInvite_eq :
    handleFedInvite (fun _ => false) p ev stateKey = Rcs.handleFedInvite p ev stateKey := by
  unfold handleFedInvite
  simp only [attempt_never, handleNormalMembership_eq]
  rfl

theorem handleLocalInvite_eq :
    handleLocalInvite (fun _ => false) p ev stateKey = Rcs.handleLocalInvite p ev stateKey := by
  unfold handleLocalInvite Rcs.handleLocalInvite
  simp only [attempt_never, handleNormalMembership_eq]
  refine bind_congr fun o => ?_
  cases o.filter fun f₂ => f₂.roomID ≠ ev.roomID with
  | some f₂ => rfl
  | none =>
    refine bind_congr fun o => bind_congr fun f₁ => ?_
    unfold stateOf joinedOwn
    split_ifs <;> rfl

theorem handleMembership_eq :
    handleMembership (fun _ => false) p ev = Rcs.handleMembership p ev := by
  unfold handleMembership handleInvite
  simp only [handleNormalMembership_eq, handleLocalInvite_eq, handleFedInvite_eq]
  rfl

end

/-! ## Calls that change the table before they can fail -/

section
variable (fails : DbCall → Bool) (p : Processor) (st : Store) (ev : Event) (stateKey : String)

/-- Of two rooms one is deleted: the own one, or the other one if it has a row. -/
def FedInterrupted : Prop :=
  fails .getByParties = false ∧ fails .delete = false ∧
    ∃ f₂, st.getFriendshipByFcIDAndToFcID stateKey ev.sender = some f₂ ∧ f₂.roomID ≠ ev.roomID ∧
      (ev.roomID < f₂.roomID ∨ (st.getFriendshipByRoomID ev.roomID).isSome = true)

def Written (f f' : RCSFriendship) : Prop :=
  fails .update = false ∧ (st.updateFriendshipByRoomID f').isSome = true ∧ f' ≠ f

/-- Of two rooms the own one is deleted, or the join of the other one is written; or that of the
own. -/
def LocalInterrupted : Prop :=
  fails .getByParties = false ∧
    match (st.getFriendshipByFcIDAndToFcID stateKey ev.sender).filter
      fun f₂ => f₂.roomID ≠ ev.roomID with
    | some f₂ => fails .delete = false ∧
      ((st.getFriendshipByRoomID ev.roomID).isSome = true ∨
        (∃ e₁, p.buildEvent 0 ev.sender ev.roomID ev.sender "leave" st = (.ok e₁, st)) ∧
          ∃ r, getUsername f₂.toFcID = some r ∧ Written fails st f₂ (joinedOther f₂ r ev))
    | none => fails .getInvited = false ∧
      ∃ f₁, st.getFriendshipByRoomID ev.roomID = some f₁ ∧ stateOf f₁ ev.sender = .invite ∧
        Written fails st f₁ (joinedOwn f₁ ev)

/-- **The calls that change the table before they can fail**, all of them invites. -/
def Interrupted : Prop :=
  ∃ stateKey, IsMember ev ev.roomID ev.sender stateKey "invite" ∧
    if p.isLocal ev.sender then LocalInterrupted fails p st ev stateKey
    else FedInterrupted fails st ev stateKey

end

/-! ## Errors -/

section
variable {fails : DbCall → Bool} {p : Processor} {st st' : Store} {ev : Event} {err : RcsError}
  {stateKey op : String} {f f' : RCSFriendship} {c : DbCall}

theorem reads_attempt : Reads (attempt fails c) := by
  unfold attempt
  split_ifs
  · exact reads_fail
  · exact reads_pure

theorem attempt_bind_error {α : Type} {x : Handler α}
    (h : (attempt fails c >>= fun _ => x) st = (.error err, st')) :
    (fails c = true ∧ st' = st) ∨ fails c = false ∧ x st = (.error err, st') := by
  unfold attempt at h
  split_ifs at h with hc
  · cases h
    exact .inl ⟨hc, rfl⟩
  · exact .inr ⟨Bool.eq_false_iff.mpr hc, h⟩

theorem failsClean_trigger {s : St} {sender : String} {isCreator : Bool} :
    FailsClean (trigger fails s op sender stateKey isCreator f ev) := by
  have hop : ∀ {id once next}, FailsClean (operation id once next stateKey isCreator f ev) := by
    intro id once next
    refine reads_require.bind_failsClean fun r => ?_
    split_ifs
    all_goals exact failsClean_commit
  have htrigger : FailsClean (Rcs.trigger s op sender stateKey isCreator f ev) := by
    unfold Rcs.trigger
    split
    · exact reads_fail.failsClean
    · split
      · exact reads_pure.failsClean
      · exact hop
      · exact hop
      · exact hop
  unfold trigger
  split
  · exact reads_fail.failsClean
  · split_ifs
    · exact reads_pure.failsClean
    · exact reads_require.bind_failsClean fun _ => reads_attempt.bind_failsClean fun _ => htrigger

theorem failsClean_handleNormalMembership : FailsClean (handleNormalMembership fails p ev) := by
  unfold handleNormalMembership
  split
  · exact reads_fail.failsClean
  · refine reads_membership.bind_failsClean fun op => reads_attempt.bind_failsClean fun _ =>
      reads_query.bind_failsClean fun o => ?_
    cases o with
    | none =>
      dsimp only
      split_ifs
      · exact reads_pure.failsClean
      · exact reads_fail.failsClean
    | some f =>
      dsimp only
      split_ifs
      · unfold rejoin
        refine reads_require.bind_failsClean fun _ => reads_require.bind_failsClean fun _ =>
          reads_inviteIfLeft.bind_failsClean fun _ => reads_attempt.bind_failsClean fun _ => ?_
        exact failsClean_commit.bind_pure
      · exact failsClean_trigger.bind_pure

def Gone (roomID : String) (st : Store) : Prop := st.getFriendshipByRoomID roomID = none

theorem Gone.update {roomID : String} (h : Gone roomID st)
    (hu : st.updateFriendshipByRoomID f = some st') : Gone roomID st' := by
  rw [Gone, get_update hu, h]
  split_ifs <;> rfl

theorem store_ext (h : st'.rows = st.rows) : st' = st := by
  cases st
  cases st'
  cases h
  rfl

theorem delete_eq_self {roomID : String} :
    st.deleteFriendshipByRoomID roomID = st ↔ st.getFriendshipByRoomID roomID = none := by
  constructor
  · intro h
    rw [← h, get_delete, if_pos rfl]
  · intro h
    refine store_ext (filter_eq_self.mpr fun f hf => decide_eq_true fun hr => ?_)
    rw [getFriendshipByRoomID_eq_some.mpr ⟨hf, hr⟩] at h
    cases h

theorem update_eq_self (hf : st.getFriendshipByRoomID f'.roomID = some f)
    (h : st.updateFriendshipByRoomID f' = some st') : st' = st ↔ f' = f := by
  constructor
  · rintro rfl
    have hrow := get_update h f'.roomID
    rw [if_pos rfl, hf] at hrow
    exact (some.inj hrow).symm
  · rintro rfl
    unfold updateFriendshipByRoomID at h
    split_ifs at h
    cases h
    refine store_ext ((map_congr_left fun g hg => ?_).trans (map_id _))
    split_ifs with hr
    · exact some.inj (hf.symm.trans (getFriendshipByRoomID_eq_some.mpr ⟨hg, hr⟩))
    · rfl

theorem fedInvite_error (h : handleFedInvite fails p ev stateKey st = (.error err, st')) :
    st' = st ↔ ¬ FedInterrupted fails st ev stateKey := by
  have hclean : handleNormalMembership fails p ev st = (.error err, st') → st' = st :=
    failsClean_handleNormalMembership _ _ _
  unfold FedInterrupted
  rcases attempt_bind_error h with ⟨hfails, rfl⟩ | ⟨hparties, h⟩
  · simp [hfails]
  rw [query_bind_apply] at h
  cases hf₂ : st.getFriendshipByFcIDAndToFcID stateKey ev.sender with
  | none =>
    rw [hf₂] at h
    simp [hclean h]
  | some f₂ =>
    obtain ⟨hrow₂, -⟩ := getFriendshipByFcIDAndToFcID_eq_some hf₂
    rw [hf₂] at h
    dsimp only at h
    split_ifs at h with hne hlt
    · rcases attempt_bind_error h with ⟨hfails, rfl⟩ | ⟨hdelete, h⟩
      · simp [hfails]
      obtain ⟨hno, -⟩ | ⟨s₁, hs₁, h⟩ := commit_bind_error h
      · cases hno
      have hgone : Gone f₂.roomID st' := by
        have h₁ : Gone f₂.roomID s₁ := by
          rw [← some.inj hs₁, Gone, get_delete, if_pos rfl]
        rw [show st' = _ from congrArg Prod.snd h.symm]
        refine reads_attempt.ensures_bind h₁ fun _ => ?_
        rw [ensures_query_bind]
        refine reads_require.ensures_bind h₁ fun f₁ => reads_require.ensures_bind h₁ fun r => ?_
        refine reads_attempt.ensures_bind h₁ fun _ => ?_
        refine ensures_commit_bind.mpr ⟨fun _ => h₁, fun s₂ hs₂ => ?_⟩
        have h₂ := h₁.update hs₂
        exact reads_require.ensures_bind h₂ fun _ => reads_require.ensures_bind h₂ fun _ => h₂
      refine iff_of_false ?_ (not_not.mpr ⟨hparties, hdelete, f₂, rfl, hne, .inl hlt⟩)
      rintro rfl
      rw [Gone, hrow₂] at hgone
      cases hgone
    · rcases attempt_bind_error h with ⟨hfails, rfl⟩ | ⟨hdelete, h⟩
      · simp [hfails]
      obtain ⟨hno, -⟩ | ⟨s₁, hs₁, h⟩ := commit_bind_error h
      · cases hno
      obtain ⟨-, rfl⟩ | ⟨e, -, h⟩ := require_bind_error h
      · obtain rfl := some.inj hs₁
        rw [delete_eq_self, ← not_isSome_iff_eq_none, not_iff_not]
        refine ⟨fun hrow => ⟨hparties, hdelete, f₂, rfl, hne, .inr hrow⟩, ?_⟩
        rintro ⟨-, -, g, hg, -, hor⟩
        exact hor.resolve_left (some.inj hg ▸ hlt)
      · cases h
    · simp [hclean h, hne]

theorem written_error {i : Nat} {sender roomID key m : String} {g : Event → List Event}
    (hf : st.getFriendshipByRoomID f'.roomID = some f) (h : (do
      attempt fails .update
      update f'
      let e ← p.buildEvent i sender roomID key m
      return g e : Handler (List Event)) st = (.error err, st')) :
    st' = st ↔ ¬ Written fails st f f' := by
  unfold Written
  rcases attempt_bind_error h with ⟨hfails, rfl⟩ | ⟨hupdate, h⟩
  · simp [hfails]
  obtain ⟨hnone, rfl⟩ | ⟨s₁, hs₁, h⟩ := commit_bind_error h
  · simp [hnone]
  obtain ⟨-, rfl⟩ | ⟨e, -, h⟩ := require_bind_error h
  · rw [update_eq_self hf hs₁, hs₁]
    simp [hupdate]
  · cases h

theorem localInvite_error (h : handleLocalInvite fails p ev stateKey st = (.error err, st')) :
    st' = st ↔ ¬ LocalInterrupted fails p st ev stateKey := by
  have hclean : handleNormalMembership fails p ev st = (.error err, st') → st' = st :=
    failsClean_handleNormalMembership _ _ _
  unfold LocalInterrupted
  rcases attempt_bind_error h with ⟨hfails, rfl⟩ | ⟨hparties, h⟩
  · simp [hfails]
  rw [query_bind_apply] at h
  cases hf₂ : (st.getFriendshipByFcIDAndToFcID stateKey ev.sender).filter
      fun f₂ => f₂.roomID ≠ ev.roomID with
  | some f₂ =>
    rw [hf₂] at h
    dsimp only at h ⊢
    obtain ⟨hrow₂, hne⟩ := filter_eq_some_iff.mp hf₂
    obtain ⟨hrow₂, -⟩ := getFriendshipByFcIDAndToFcID_eq_some hrow₂
    rcases attempt_bind_error h with ⟨hfails, rfl⟩ | ⟨hdelete, h⟩
    · simp [hfails]
    obtain ⟨hno, -⟩ | ⟨s₁, hs₁, h⟩ := commit_bind_error h
    · cases hno
    obtain rfl := some.inj hs₁
    by_cases hrow : (st.getFriendshipByRoomID ev.roomID).isSome = true
    · have hgone : Gone ev.roomID st' := by
        have h₁ : Gone ev.roomID (st.deleteFriendshipByRoomID ev.roomID) := by
          rw [Gone, get_delete, if_pos rfl]
        rw [show st' = _ from congrArg Prod.snd h.symm]
        refine reads_require.ensures_bind h₁ fun e₁ => reads_require.ensures_bind h₁ fun r => ?_
        refine reads_attempt.ensures_bind h₁ fun _ => ?_
        refine ensures_commit_bind.mpr ⟨fun _ => h₁, fun s₂ hs₂ => ?_⟩
        have h₂ := h₁.update hs₂
        exact reads_require.ensures_bind h₂ fun _ => h₂
      refine iff_of_false ?_ (not_not.mpr ⟨hparties, hdelete, .inl hrow⟩)
      rintro rfl
      rw [hgone] at hrow
      cases hrow
    · rw [delete_eq_self.mpr (not_isSome_iff_eq_none.mp hrow)] at h
      simp only [hparties, hdelete, hrow, true_and]
      rcases bind_error_iff.mp h with hbuild | ⟨e₁, s₁, hbuild, hrest⟩
      · obtain rfl := reads_require.eq hbuild
        simp [hbuild]
      obtain rfl := reads_require.eq hbuild
      obtain ⟨hnone, rfl⟩ | ⟨r, hr, hwrite⟩ := require_bind_error hrest
      · simp [hnone]
      · have hrow' : s₁.getFriendshipByRoomID (joinedOther f₂ r ev).roomID = some f₂ := hrow₂
        rw [written_error hrow' hwrite]
        simp [hbuild, hr]
  | none =>
    rw [hf₂] at h
    dsimp only at h ⊢
    rcases attempt_bind_error h with ⟨hfails, rfl⟩ | ⟨hget, h⟩
    · simp [hfails]
    rw [query_bind_apply] at h
    obtain ⟨hnone, rfl⟩ | ⟨f₁, hf₁, h⟩ := require_bind_error h
    · simp [hnone]
    have hroom : (joinedOwn f₁ ev).roomID = ev.roomID := by
      rw [← (getFriendshipByRoomID_eq_some.mp hf₁).2, joinedOwn]
      split_ifs <;> rfl
    split_ifs at h with hinvite
    · rw [written_error (hroom ▸ hf₁) h]
      simp [hparties, hget, hf₁, hinvite]
    · rw [hclean h]
      simp [hf₁, hinvite]

/-- **Friendship handling that fails**: after an error the table is the same if and only if the
event is no invite that changes it before it can fail. -/
theorem failed_keeps_table_iff (h : handleMembership fails p ev st = (.error err, st')) :
    st' = st ↔ ¬ Interrupted fails p st ev := by
  unfold Interrupted
  rcases bind_error_iff.mp h with hm | ⟨op, s₁, hm, hin⟩
  · refine iff_of_true (reads_membership.eq hm) ?_
    rintro ⟨stateKey, hev, -⟩
    rw [membership_of_isMember hev] at hm
    cases hm
  obtain rfl := reads_membership.eq hm
  split_ifs at hin with hop
  · subst hop
    unfold handleInvite at hin
    cases hk : ev.stateKey with
    | none =>
      rw [hk] at hin
      cases hin
      refine iff_of_true rfl ?_
      rintro ⟨stateKey, hev, -⟩
      rw [hev.stateKey] at hk
      cases hk
    | some stateKey =>
      rw [hk] at hin
      have hiff : st' = s₁ ↔ ¬ if p.isLocal ev.sender then LocalInterrupted fails p s₁ ev stateKey
          else FedInterrupted fails s₁ ev stateKey := by
        dsimp only at hin
        split_ifs at hin ⊢
        · exact localInvite_error hin
        · exact fedInvite_error hin
      rw [hiff, not_iff_not]
      refine ⟨fun hi => ⟨stateKey, isMember_of_membership hm hk, hi⟩, ?_⟩
      rintro ⟨key, hev, hi⟩
      rwa [some.inj (hk.symm.trans hev.stateKey)]
  · refine iff_of_true (failsClean_handleNormalMembership _ _ _ hin) ?_
    rintro ⟨stateKey, hev, -⟩
    rw [membership_of_isMember hev] at hm
    cases hm
    exact hop rfl

def victorJoined : List Call :=
  [.create (createEv "$1:x" "!b:x" "@v:x"),
    .membership serverX (memberEv "$2:x" "!b:x" "@v:x" "@v:x" "join")]

def ursulaInvited : Event := memberEv "$3:x" "!b:x" "@v:x" "@u:y" "invite"

theorem failed_keeps_table_invite :
    ∃ st', handleMembership (· == .update) serverX ursulaInvited (tableAfter victorJoined) =
      (.error .unavailable, st') ∧ st' = tableAfter victorJoined := by
  have h : handleMembership (· == .update) serverX ursulaInvited (tableAfter victorJoined) =
      (.error .unavailable, _) := rfl
  refine ⟨_, h, (failed_keeps_table_iff h).mpr ?_⟩
  rintro ⟨stateKey, hev, hlocal⟩
  obtain rfl : "@u:y" = stateKey := some.inj hev.stateKey
  rw [if_pos (by decide)] at hlocal
  obtain ⟨-, -, f₁, hf₁, hinvite, -⟩ := hlocal
  obtain rfl := some.inj hf₁
  exact absurd hinvite (by decide)

/-- Victor has invited Ursula to one room and is invited to another, which has a smaller id and no
row: a room is given up for one that is not there. -/
theorem room_lost_on_error :
    let calls := victorJoined ++ [.membership serverX ursulaInvited]
    run Call.step .empty calls = some (tableAfter calls) ∧
      ∃ st', handleMembership (fun _ => false) serverX
          (memberEv "$4:y" "!a:y" "@u:y" "@v:x" "invite") (tableAfter calls) =
            (.error .notFound, st') ∧
        (tableAfter calls).getFriendshipByRoomID "!b:x" ≠ none ∧
        st'.getFriendshipByRoomID "!b:x" = none := by
  refine ⟨rfl, _, rfl, ?_, ?_⟩
  all_goals decide

end

end Failing

end Ligase.Rcs

import Ligase.Rcs.Parties

/-!
# What the handlers write

The effect of a handled event on the row of a room.

* `Writes`: the row of one room is written, the others are the same.
* `IsMember`: the member events, also those that a handler builds.
* `writes_create`, `writes_normal`: the events of a room that are no invites.
-/

namespace Ligase.Rcs

open Lib Auth Proc Store Option

/-! ## What the handlers do to a row -/

structure View where
  fcID : String
  toFcID : String
  fcIDState : St
  toFcIDState : St
  deriving DecidableEq

def RCSFriendship.view (f : RCSFriendship) : View := ⟨f.fcID, f.toFcID, f.fcIDState, f.toFcIDState⟩

def Store.view (st : Store) (roomID : String) : Option View :=
  (st.getFriendshipByRoomID roomID).map RCSFriendship.view

structure Writes (st st' : Store) (roomID : String) (v : Option View) : Prop where
  row : st'.view roomID = v
  others : ∀ roomID' ≠ roomID, st'.getFriendshipByRoomID roomID' = st.getFriendshipByRoomID roomID'

structure IsMember (ev : Event) (roomID sender stateKey membership : String) : Prop where
  type : ev.type = MRoomMember
  roomID : ev.roomID = roomID
  sender : ev.sender = sender
  stateKey : ev.stateKey = some stateKey
  content : ∃ c, newMemberContentFromEvent ev = .ok c ∧ c.membership = membership

variable {st st' : Store} {p : Processor} {ev : Event} {evs : List Event} {f : RCSFriendship}
  {roomID sender stateKey op : String}

theorem writes_update {v : View} (h : st.updateFriendshipByRoomID f = some st')
    (hrow : (st.getFriendshipByRoomID f.roomID).isSome = true) (hv : f.view = v) :
    Writes st st' f.roomID (some v) := by
  obtain ⟨g, hg⟩ := isSome_iff_exists.mp hrow
  refine ⟨?_, fun r hr => ?_⟩
  · rw [view, get_update h, if_pos rfl, hg]
    exact congrArg some hv
  · rw [get_update h, if_neg hr.symm]

theorem writes_delete : Writes st (st.deleteFriendshipByRoomID roomID) roomID none := by
  refine ⟨?_, fun r hr => ?_⟩
  · rw [view, get_delete, if_pos rfl]
    rfl
  · rw [get_delete, if_neg hr.symm]

theorem writes_refl (h : st.getFriendshipByRoomID roomID = none) : Writes st st roomID none :=
  ⟨by rw [view, h]; rfl, fun _ _ => rfl⟩

theorem writes_create (ht : ev.type = MRoomCreate) (h : handleEvent p ev st = (.ok evs, st')) :
    evs = [ev] ∧ Writes st st' ev.roomID (some ⟨ev.sender, "", .init, .init⟩) := by
  rw [handleEvent, if_pos ht] at h
  obtain ⟨st₁, hins, hret⟩ := commit_bind_eq_ok.mp h
  obtain ⟨rfl, rfl⟩ := pure_eq_ok.mp hret
  refine ⟨rfl, ?_, fun r hr => ?_⟩
  · rw [view, get_insert hins, if_pos rfl]
    rfl
  · rw [get_insert hins, if_neg hr.symm]

theorem membership_bind_eq_ok {x : String → Handler (List Event)}
    (hev : IsMember ev roomID sender stateKey op) (h : (membership ev >>= x) st = (.ok evs, st')) :
    x op st = (.ok evs, st') := by
  obtain ⟨c, hc, rfl⟩ := hev.content
  unfold membership at h
  rw [if_neg (not_not.mpr hev.type), hc] at h
  exact h

theorem membership_of_isMember (hev : IsMember ev roomID sender stateKey op) :
    membership ev st = (.ok op, st) := by
  obtain ⟨c, hc, rfl⟩ := hev.content
  unfold membership
  rw [if_neg (not_not.mpr hev.type), hc]
  rfl

theorem isMember_of_membership (h : membership ev st = (.ok op, st'))
    (hk : ev.stateKey = some stateKey) : IsMember ev ev.roomID ev.sender stateKey op := by
  obtain ⟨ht, hc⟩ := membership_eq_ok h
  exact ⟨ht, rfl, rfl, hk, hc⟩

theorem IsMember.op_eq {roomID' sender' stateKey' op' : String}
    (h : IsMember ev roomID sender stateKey op) (h' : IsMember ev roomID' sender' stateKey' op') :
    op = op' := by
  obtain ⟨c, hc, rfl⟩ := h.content
  obtain ⟨c', hc', rfl⟩ := h'.content
  rw [Except.ok.inj (hc.symm.trans hc')]

theorem writes_trigger {s : St} {t : Transition} (hf : st.getFriendshipByRoomID f.roomID = some f)
    (ht : (transitions.find? fun t => t.start = s ∧ t.event = op) = some t)
    (ha : t.action ≠ .ignore)
    (h : trigger s op sender stateKey (stateKey = f.fcID) f ev st = (.ok (), st')) :
    Writes st st' f.roomID (some
      (if stateKey = f.fcID then ⟨f.fcID, f.toFcID, t.next, f.toFcIDState⟩
        else ⟨f.fcID, stateKey, f.fcIDState, t.next⟩)) := by
  have hsome : (st.getFriendshipByRoomID f.roomID).isSome = true := by rw [hf]; rfl
  have hop : ∀ id once, operation id once t.next stateKey (stateKey = f.fcID) f ev st =
      (.ok (), st') → Writes st st' f.roomID (some
        (if stateKey = f.fcID then ⟨f.fcID, f.toFcID, t.next, f.toFcIDState⟩
          else ⟨f.fcID, stateKey, f.fcIDState, t.next⟩)) := by
    intro id once h
    obtain ⟨r, -, h⟩ := require_bind_eq_ok.mp h
    by_cases hc : stateKey = f.fcID
    · simp only [hc, decide_true, if_true] at h ⊢
      have hup := commit_eq_ok.mp h
      have hw := writes_update hup hsome rfl
      exact hw
    · simp only [hc, decide_false, Bool.false_eq_true, if_false] at h ⊢
      have hup := commit_eq_ok.mp h
      have hw := writes_update hup hsome rfl
      exact hw
  unfold trigger at h
  rw [ht] at h
  cases hact : t.action with
  | ignore => exact absurd hact ha
  | default | join | invite =>
    simp only [hact] at h
    exact hop _ _ h

theorem exists_of_view {v : View} (h : st.view roomID = some v) :
    ∃ f, st.getFriendshipByRoomID roomID = some f ∧ f.roomID = roomID ∧ f.view = v := by
  obtain ⟨f, hf, hv⟩ := map_eq_some_iff.mp h
  exact ⟨f, hf, (getFriendshipByRoomID_eq_some.mp hf).2, hv⟩

def View.stateOf (v : View) (user : String) : St :=
  if user = v.fcID then v.fcIDState else v.toFcIDState

theorem writes_normal {v : View} {t : Transition} (hev : IsMember ev roomID sender stateKey op)
    (hv : st.view roomID = some v) (hop : ¬ (v.stateOf sender = .leave ∧ op = "invite"))
    (ht : (transitions.find? fun t => t.start = v.stateOf stateKey ∧ t.event = op) = some t)
    (ha : t.action ≠ .ignore) (h : handleNormalMembership p ev st = (.ok evs, st')) :
    evs = [ev] ∧ Writes st st' roomID (some
      (if stateKey = v.fcID then ⟨v.fcID, v.toFcID, t.next, v.toFcIDState⟩
        else ⟨v.fcID, stateKey, v.fcIDState, t.next⟩)) := by
  obtain ⟨f, hf, rfl, rfl⟩ := exists_of_view hv
  unfold handleNormalMembership at h
  rw [hev.stateKey] at h
  have h := membership_bind_eq_ok hev h
  rw [query_bind_eq_ok, hev.roomID, hf] at h
  dsimp only at h
  rw [if_neg fun hc => hop ⟨hev.sender ▸ hc.2.1, hc.2.2.1⟩] at h
  obtain ⟨_, st₁, htr, hret⟩ := bind_eq_ok.mp h
  obtain ⟨rfl, rfl⟩ := pure_eq_ok.mp hret
  exact ⟨rfl, writes_trigger hf ht ha htr⟩

theorem leave_without_row (hev : IsMember ev roomID sender stateKey "leave")
    (hnone : st.getFriendshipByRoomID roomID = none)
    (h : handleNormalMembership p ev st = (.ok evs, st')) : evs = [ev] ∧ st' = st := by
  unfold handleNormalMembership at h
  rw [hev.stateKey] at h
  have h := membership_bind_eq_ok hev h
  rw [query_bind_eq_ok, hev.roomID, hnone] at h
  split_ifs at h
  · obtain ⟨rfl, rfl⟩ := pure_eq_ok.mp h
    exact ⟨rfl, rfl⟩
  · exact absurd h fail_ne_ok

theorem handleEvent_member (hev : IsMember ev roomID sender stateKey op) (hop : op ≠ "invite")
    (h : handleEvent p ev st = (.ok evs, st')) :
    handleNormalMembership p ev st = (.ok evs, st') := by
  have hc : ev.type ≠ MRoomCreate := by rw [hev.type]; decide
  rw [handleEvent, if_neg hc, if_pos hev.type] at h
  have h := membership_bind_eq_ok hev h
  rwa [if_neg hop] at h

theorem handleEvent_invite (hev : IsMember ev roomID sender stateKey "invite")
    (h : handleEvent p ev st = (.ok evs, st')) :
    (if p.isLocal sender then handleLocalInvite p ev stateKey
      else handleFedInvite p ev stateKey) st = (.ok evs, st') := by
  have hc : ev.type ≠ MRoomCreate := by rw [hev.type]; decide
  rw [handleEvent, if_neg hc, if_pos hev.type] at h
  have h := membership_bind_eq_ok hev h
  rw [if_pos rfl, handleInvite, hev.stateKey, hev.sender] at h
  exact h

theorem buildEvent_bind_eq_ok {i : Nat} {m : String} {x : Event → Handler (List Event)}
    (h : (p.buildEvent i sender roomID stateKey m >>= x) st = (.ok evs, st')) :
    ∃ e, IsMember e roomID sender stateKey m ∧ x e st = (.ok evs, st') := by
  obtain ⟨e, he, h⟩ := require_bind_eq_ok.mp h
  refine ⟨e, ?_, h⟩
  unfold Client.buildEvent at he
  dsimp only at he
  split_ifs at he
  obtain rfl := some.inj he
  exact ⟨rfl, rfl, rfl, rfl, ⟨m, none⟩, rfl, rfl⟩

def tableAfter (calls : List Call) : Store := (run Call.step .empty calls).getD .empty

end Ligase.Rcs

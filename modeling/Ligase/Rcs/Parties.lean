import Mathlib.Data.Sym.Sym2
import Ligase.Rcs.Friendship

/-!
# The parties of a direct room

A row with two parties is to keep them until it is deleted.

* **`rewrites_handleMembership`**: the rows that a member event writes.
* **`parties_kept`**: so it does in every run whose calls are about the parties of the room.
-/

namespace Ligase.Rcs

open Lib Auth Proc Store Option List

variable {st st' : Store} {f g : RCSFriendship} {p : Processor} {ev : Event} {stateKey : String}

/-! ## What a member event writes -/

def textOf (ev : Event) : Option String :=
  match newMemberContentFromEvent ev with
  | .ok c => some c.membership
  | .error _ => none

def St.invitedBack (s : St) : St := if s = .leave then .invite else s

/-- The row of another room that the target of an invite has with its sender. -/
def Store.glare (st : Store) (ev : Event) (stateKey : String) : Option RCSFriendship :=
  (st.getFriendshipByFcIDAndToFcID stateKey ev.sender).filter fun f₂ => f₂.roomID ≠ ev.roomID

/-- The sender is a user of this server who has left and invites the other party. -/
def Rejoins (p : Processor) (ev : Event) (stateKey op : String) (f : RCSFriendship) : Prop :=
  p.isLocal ev.sender = true ∧ stateOf f ev.sender = .leave ∧ op = "invite" ∧ ev.sender ≠ stateKey

/-- The id that a transition gives a row: an invite of somebody else gives it that of the two. -/
def Transition.rowID (t : Transition) (sender stateKey : String) (f : RCSFriendship) : String :=
  if t.action = .invite ∧ sender ≠ stateKey then getID sender stateKey else f.id

/-- **The rows that a member event writes**: with the transition of the state key; for a sender who
has left and comes back; for a party who joins because of an invite; and, when an invite of another
server meets one of this server, with the sender as the first party. -/
inductive RowWrite (p : Processor) (ev : Event) (st : Store) : RCSFriendship → Prop where
  | first (f : RCSFriendship) (t : Transition) (r : String)
      (hrow : st.getFriendshipByRoomID ev.roomID = some f) (hkey : ev.stateKey = some f.fcID)
      (ht : t ∈ transitions) (hop : textOf ev = some t.event) (ha : t.action ≠ .ignore) :
      RowWrite p ev st (friendship (t.rowID ev.sender f.fcID f) f.roomID f.fcID f.toFcID t.next
        f.toFcIDState r f.toFcIDRemark (t.action = .join || f.fcIDOnceJoined) f.toFcIDOnceJoined
        ev.eventID)
  | second (f : RCSFriendship) (t : Transition) (stateKey r : String)
      (hrow : st.getFriendshipByRoomID ev.roomID = some f) (hkey : ev.stateKey = some stateKey)
      (hne : stateKey ≠ f.fcID) (ht : t ∈ transitions) (hop : textOf ev = some t.event)
      (ha : t.action ≠ .ignore) :
      RowWrite p ev st (friendship (t.rowID ev.sender stateKey f) f.roomID f.fcID stateKey
        f.fcIDState t.next f.fcIDRemark r f.fcIDOnceJoined (t.action = .join || f.toFcIDOnceJoined)
        ev.eventID)
  | rejoined (f : RCSFriendship) (stateKey : String) (s : St × St)
      (hrow : st.getFriendshipByRoomID ev.roomID = some f) (hkey : ev.stateKey = some stateKey)
      (hop : textOf ev = some "invite") (hsender : Rejoins p ev stateKey "invite" f)
      (hglare : st.glare ev stateKey = none)
      (hs : s = if ev.sender = f.fcID then (.join, (stateOf f stateKey).invitedBack)
        else ((stateOf f stateKey).invitedBack, .join)) :
      RowWrite p ev st (friendship f.id f.roomID f.fcID f.toFcID s.1 s.2 f.fcIDRemark f.toFcIDRemark
        f.fcIDOnceJoined f.toFcIDOnceJoined ev.eventID)
  | firstJoins (f : RCSFriendship) (hrow : st.getFriendshipByRoomID f.roomID = some f) :
      RowWrite p ev st (friendship f.id f.roomID f.fcID f.toFcID .join f.toFcIDState f.fcIDRemark
        f.toFcIDRemark true f.toFcIDOnceJoined ev.eventID)
  | secondJoins (f : RCSFriendship) (r : String)
      (hrow : st.getFriendshipByRoomID f.roomID = some f) :
      RowWrite p ev st (friendship f.id f.roomID f.fcID f.toFcID f.fcIDState .join f.fcIDRemark r
        f.fcIDOnceJoined true ev.eventID)
  | swapped (f₁ f₂ : RCSFriendship) (stateKey r : String)
      (hremote : p.isLocal ev.sender = false) (hkey : ev.stateKey = some stateKey)
      (hparties : st.getFriendshipByFcIDAndToFcID stateKey ev.sender = some f₂)
      (hlt : ev.roomID < f₂.roomID) :
      RowWrite p ev st (friendship (getID ev.sender stateKey) ev.roomID ev.sender stateKey
        f₁.fcIDState .join f₁.fcIDRemark r true true ev.eventID)

/-- Every row has been there before, or is one that the event writes; unique ids stay unique. -/
structure Rewrites (p : Processor) (ev : Event) (st st' : Store) : Prop where
  rows : ∀ f' ∈ st'.rows, f' ∈ st.rows ∨ RowWrite p ev st f'
  ids : st.IDsUnique → st'.IDsUnique

theorem Rewrites.refl (p : Processor) (ev : Event) (st : Store) : Rewrites p ev st st :=
  ⟨fun _ hf => .inl hf, id⟩

theorem Rewrites.delete (roomID : String) : Rewrites p ev st (st.deleteFriendshipByRoomID roomID) :=
  ⟨fun _ hf => .inl (mem_delete.mp hf).1, idsUnique_delete⟩

theorem Rewrites.update {st₁ : Store} (hc : Rewrites p ev st st₁)
    (h : st₁.updateFriendshipByRoomID f = some st') (hf : RowWrite p ev st f) :
    Rewrites p ev st st' := by
  refine ⟨fun g hg => ?_, fun hu => idsUnique_update h (hc.ids hu)⟩
  rcases (mem_update h).mp hg with ⟨rfl, -⟩ | ⟨hg, -⟩
  · exact .inr hf
  · exact hc.rows g hg

theorem reads_membership : Reads (membership ev) := by
  intro s
  unfold Rcs.membership
  split_ifs
  · rfl
  · cases newMemberContentFromEvent ev <;> rfl

theorem membership_eq_ok {op : String} (h : membership ev st = (.ok op, st')) :
    ev.type = MRoomMember ∧ ∃ c, newMemberContentFromEvent ev = .ok c ∧ c.membership = op := by
  unfold Rcs.membership at h
  split_ifs at h with ht
  · exact absurd h fail_ne_ok
  · cases hc : newMemberContentFromEvent ev with
    | ok c =>
      rw [hc] at h
      exact ⟨not_not.mp ht, c, rfl, (pure_eq_ok.mp h).1⟩
    | error e =>
      rw [hc] at h
      exact absurd h fail_ne_ok

theorem textOf_of_membership {op : String} (h : membership ev st = (.ok op, st')) :
    textOf ev = some op := by
  obtain ⟨-, c, hc, rfl⟩ := membership_eq_ok h
  rw [textOf, hc]

theorem reads_inviteIfLeft {s : St} : Reads (inviteIfLeft p ev stateKey s) := by
  intro st
  unfold inviteIfLeft
  split_ifs
  · show Ensures _ st (fun t => t = st)
    exact reads_require.ensures_bind rfl fun _ => rfl
  · rfl

theorem Rewrites.operation {t : Transition} {id : String} {once : Bool → Bool}
    (hf : st.getFriendshipByRoomID ev.roomID = some f) (hk : ev.stateKey = some stateKey)
    (ht : t ∈ transitions) (hop : textOf ev = some t.event) (ha : t.action ≠ .ignore)
    (hid : id = t.rowID ev.sender stateKey f) (honce : once = fun b => t.action = .join || b) :
    Ensures (operation id once t.next stateKey (stateKey = f.fcID) f ev) st (Rewrites p ev st) := by
  have hrefl : Rewrites p ev st st := .refl p ev st
  subst hid honce
  refine reads_require.ensures_bind hrefl fun r => ?_
  split_ifs with hc
  · obtain rfl : stateKey = f.fcID := by simpa using hc
    exact ensures_commit.mpr ⟨fun _ => hrefl,
      fun _ h => hrefl.update h (.first f t r hf hk ht hop ha)⟩
  · have hne : stateKey ≠ f.fcID := by simpa using hc
    exact ensures_commit.mpr ⟨fun _ => hrefl,
      fun _ h => hrefl.update h (.second f t stateKey r hf hk hne ht hop ha)⟩

theorem Rewrites.trigger {s : St} {op : String}
    (hf : st.getFriendshipByRoomID ev.roomID = some f) (hk : ev.stateKey = some stateKey)
    (hop : textOf ev = some op) :
    Ensures (trigger s op ev.sender stateKey (stateKey = f.fcID) f ev) st (Rewrites p ev st) := by
  unfold Rcs.trigger
  split
  · exact .refl p ev st
  · rename_i t ht
    have hmem := mem_of_find?_eq_some ht
    obtain ⟨-, rfl⟩ : t.start = s ∧ t.event = op := by simpa using find?_some ht
    split
    · exact .refl p ev st
    all_goals
      rename_i ha
      exact Rewrites.operation hf hk hmem hop (by simp [ha]) (by simp [Transition.rowID, ha])
        (by simp [ha])

theorem Rewrites.normal
    (hglare : textOf ev = some "invite" → ∀ stateKey, ev.stateKey = some stateKey →
      st.glare ev stateKey = none) :
    Ensures (handleNormalMembership p ev) st (Rewrites p ev st) := by
  have hrefl : Rewrites p ev st st := .refl p ev st
  unfold handleNormalMembership
  split
  · exact hrefl
  rename_i stateKey hk
  refine reads_membership.ensures_bind_of_ok hrefl fun op hm => ?_
  have hop := textOf_of_membership hm
  rw [ensures_query_bind]
  split
  · split_ifs <;> exact hrefl
  rename_i f hf
  split_ifs with hsender
  · obtain rfl : op = "invite" := hsender.2.2.1
    refine reads_require.ensures_bind hrefl fun e₁ => reads_require.ensures_bind hrefl fun e₂ => ?_
    refine reads_inviteIfLeft.ensures_bind hrefl fun invites => ?_
    exact ensures_commit_bind.mpr ⟨fun _ => hrefl, fun _ h =>
      hrefl.update h (.rejoined f stateKey _ hf hk hop hsender (hglare hop stateKey hk) rfl)⟩
  · exact ensures_bind_pure.mpr (Rewrites.trigger hf hk hop)

theorem Rewrites.joins {f' : RCSFriendship} {sender roomID target : String} {i : Nat}
    (hf : RowWrite p ev st f') : Ensures (do
      Rcs.update f'
      let e ← p.buildEvent i sender roomID target "join"
      return [e]) st (Rewrites p ev st) := by
  have hrefl : Rewrites p ev st st := .refl p ev st
  refine ensures_commit_bind.mpr ⟨fun _ => hrefl, fun st₁ h₁ => ?_⟩
  have hc := hrefl.update h₁ hf
  exact reads_require.ensures_bind hc fun e => hc

theorem Rewrites.localInvite (hk : ev.stateKey = some stateKey) :
    Ensures (handleLocalInvite p ev stateKey) st (Rewrites p ev st) := by
  have hrefl : Rewrites p ev st st := .refl p ev st
  unfold handleLocalInvite
  rw [ensures_query_bind]
  split
  · rename_i f₂ hf₂
    obtain ⟨hf₂, -⟩ := filter_eq_some_iff.mp hf₂
    obtain ⟨hf₂, -, -⟩ := getFriendshipByFcIDAndToFcID_eq_some hf₂
    refine ensures_commit_bind.mpr ⟨nofun, fun st₁ h₁ => ?_⟩
    have hc : Rewrites p ev st st₁ := some.inj h₁ ▸ Rewrites.delete ev.roomID
    refine reads_require.ensures_bind hc fun e₁ => reads_require.ensures_bind hc fun r => ?_
    refine ensures_commit_bind.mpr ⟨fun _ => hc, fun st₂ h₂ => ?_⟩
    have hc₂ := hc.update h₂ (.secondJoins f₂ r hf₂)
    exact reads_require.ensures_bind hc₂ fun e₂ => hc₂
  · rename_i hnone
    have hglare : textOf ev = some "invite" → ∀ stateKey, ev.stateKey = some stateKey →
        st.glare ev stateKey = none := by
      intro _ stateKey' hk'
      obtain rfl := some.inj (hk.symm.trans hk')
      exact hnone
    refine ensures_require_bind.mpr ⟨fun _ => hrefl, fun f₁ hf₁ => ?_⟩
    have hrow : st.getFriendshipByRoomID f₁.roomID = some f₁ := by
      rwa [(getFriendshipByRoomID_eq_some.mp hf₁).2]
    split_ifs
    · exact Rewrites.joins (.firstJoins f₁ hrow)
    · exact Rewrites.normal hglare
    · exact Rewrites.joins (.secondJoins f₁ _ hrow)
    · exact Rewrites.normal hglare

theorem Rewrites.fedInvite (hremote : p.isLocal ev.sender = false)
    (hk : ev.stateKey = some stateKey) :
    Ensures (handleFedInvite p ev stateKey) st (Rewrites p ev st) := by
  have hnormal : st.glare ev stateKey = none →
      Ensures (handleNormalMembership p ev) st (Rewrites p ev st) := by
    intro hnone
    refine Rewrites.normal fun _ stateKey' hk' => ?_
    obtain rfl := some.inj (hk.symm.trans hk')
    exact hnone
  unfold handleFedInvite
  rw [ensures_query_bind]
  split
  · rename_i f₂ hf₂
    split_ifs with hne hlt
    · refine ensures_commit_bind.mpr ⟨nofun, fun st₁ h₁ => ?_⟩
      have hc : Rewrites p ev st st₁ := some.inj h₁ ▸ Rewrites.delete f₂.roomID
      refine reads_require.ensures_bind hc fun f₁ => reads_require.ensures_bind hc fun r => ?_
      refine ensures_commit_bind.mpr ⟨fun _ => hc, fun st₂ h₂ => ?_⟩
      have hc₂ := hc.update h₂ (.swapped f₁ f₂ stateKey r hremote hk hf₂ hlt)
      exact reads_require.ensures_bind hc₂ fun e₁ => reads_require.ensures_bind hc₂ fun e₂ => hc₂
    · refine ensures_commit_bind.mpr ⟨nofun, fun st₁ h₁ => ?_⟩
      have hc : Rewrites p ev st st₁ := some.inj h₁ ▸ Rewrites.delete ev.roomID
      exact reads_require.ensures_bind hc fun e => hc
    · refine hnormal ?_
      rw [Store.glare, hf₂, filter_some, if_neg (by simpa using hne)]
  · rename_i hnone
    refine hnormal ?_
    rw [Store.glare, hnone]
    rfl

theorem rewrites_handleMembership (p : Processor) (ev : Event) (st : Store) :
    Rewrites p ev st (handleMembership p ev st).2 := by
  refine reads_membership.ensures_bind_of_ok (.refl p ev st) fun m hm => ?_
  split_ifs with hinvite
  · unfold handleInvite
    split
    · exact .refl p ev st
    · rename_i stateKey hk
      split_ifs with hl
      · exact Rewrites.localInvite hk
      · exact Rewrites.fedInvite (Bool.eq_false_iff.mpr hl) hk
  · refine Rewrites.normal fun hop => ?_
    exact absurd (some.inj ((textOf_of_membership hm).symm.trans hop)) hinvite

/-! ## The parties that it writes -/

/-- **The parties of the rows that a member event may write**: those that it had; in the room of the
event the state key as the other party; and, when an invite of another server meets one of this
server, the sender as the first party. -/
inductive MayWrite (p : Processor) (ev : Event) (st : Store) (f' : RCSFriendship) : Prop where
  | same (f : RCSFriendship) (hrow : st.getFriendshipByRoomID f'.roomID = some f)
      (hfc : f'.fcID = f.fcID) (hto : f'.toFcID = f.toFcID)
  | entered (f : RCSFriendship) (hroom : f'.roomID = ev.roomID)
      (hrow : st.getFriendshipByRoomID ev.roomID = some f) (hkey : ev.stateKey = some f'.toFcID)
      (hne : f'.toFcID ≠ f.fcID) (hfc : f'.fcID = f.fcID)
  | swapped (f₂ : RCSFriendship) (hroom : f'.roomID = ev.roomID)
      (hremote : p.isLocal ev.sender = false) (hkey : ev.stateKey = some f'.toFcID)
      (hparties : st.getFriendshipByFcIDAndToFcID f'.toFcID ev.sender = some f₂)
      (hlt : ev.roomID < f₂.roomID) (hfc : f'.fcID = ev.sender)

/-- Every row has been there before, or is one that the event may write. -/
def Changes (p : Processor) (ev : Event) (st st' : Store) : Prop :=
  ∀ f' ∈ st'.rows, f' ∈ st.rows ∨ MayWrite p ev st f'

theorem RowWrite.mayWrite (h : RowWrite p ev st f) : MayWrite p ev st f := by
  -- a row of the room of the event is also found under its own room id
  have hroom : ∀ {g : RCSFriendship}, st.getFriendshipByRoomID ev.roomID = some g →
      st.getFriendshipByRoomID g.roomID = some g := fun hg => by
    rwa [(getFriendshipByRoomID_eq_some.mp hg).2]
  cases h with
  | first g t r hrow | rejoined g stateKey s hrow => exact .same g (hroom hrow) rfl rfl
  | second g t stateKey r hrow hkey hne =>
    exact .entered g (getFriendshipByRoomID_eq_some.mp hrow).2 hrow hkey hne rfl
  | firstJoins g hrow => exact .same g hrow rfl rfl
  | secondJoins g r hrow => exact .same g hrow rfl rfl
  | swapped f₁ f₂ stateKey r hremote hkey hparties hlt =>
    exact .swapped f₂ rfl hremote hkey hparties hlt rfl

theorem changes_handleMembership (p : Processor) (ev : Event) (st : Store) :
    Changes p ev st (handleMembership p ev st).2 := fun f' hf' =>
  ((rewrites_handleMembership p ev st).rows f' hf').imp_right RowWrite.mayWrite

/-! ## Rows that keep their parties -/

def parties (f : RCSFriendship) : Sym2 String := s(f.fcID, f.toFcID)

def SameParties (f f' : RCSFriendship) : Prop := parties f' = parties f ∧ f'.toFcID ≠ ""

def Keeps (st st' : Store) : Prop :=
  ∀ roomID f f', st.getFriendshipByRoomID roomID = some f → f.toFcID ≠ "" →
    st'.getFriendshipByRoomID roomID = some f' → SameParties f f'

theorem Keeps.refl (st : Store) : Keeps st st := by
  intro roomID f f' h hne h'
  obtain rfl := some.inj (h'.symm.trans h)
  exact ⟨rfl, hne⟩

theorem keeps_insert (h : st.insertFriendship f = some st') : Keeps st st' := by
  intro roomID g g' hg hne hg'
  rw [get_insert h] at hg'
  split_ifs at hg' with hr
  · obtain ⟨hmem, hroom⟩ := getFriendshipByRoomID_eq_some.mp hg
    exact absurd (hroom.trans hr.symm) ((mem_insert h).1 g hmem)
  · exact Keeps.refl st roomID g g' hg hne hg'

/-! ## Runs -/

/-- Calls of the processor, with any numbers for the events they build; and the rows may come in
another order. -/
inductive Call where
  | create (ev : Event)
  | membership (p : Processor) (ev : Event)
  | reorder (rows : List RCSFriendship)

/-- The table after a call, failed or not. -/
def Call.step (st : Store) : Call → Option Store
  | .create ev => some (handleCreate ev st).2
  | .membership p ev => some (handleMembership p ev st).2
  | .reorder rows =>
    if h : rows.Perm st.rows then some ⟨rows, (h.map _).nodup_iff.mpr st.nodup⟩ else none

theorem perm_of_reorder {st st' : Store} {rows : List RCSFriendship}
    (h : Call.step st (.reorder rows) = some st') : st'.rows.Perm st.rows := by
  simp only [Call.step] at h
  split_ifs at h with hperm
  exact some.inj h ▸ hperm

/-- If the room has two parties, the state key is one of them, and where it is an invite by a user
of another server for whom a room with a larger id is given up, it is between them. -/
def Call.Proper (st : Store) : Call → Prop
  | .membership p ev => ∀ f stateKey, st.getFriendshipByRoomID ev.roomID = some f →
      ev.stateKey = some stateKey → f.toFcID ≠ "" →
      (stateKey = f.fcID ∨ stateKey = f.toFcID) ∧
        ∀ f₂, p.isLocal ev.sender = false →
          st.getFriendshipByFcIDAndToFcID stateKey ev.sender = some f₂ → ev.roomID < f₂.roomID →
          s(ev.sender, stateKey) = parties f ∧ stateKey ≠ ""
  | _ => True

theorem Keeps.handleMembership (h : Call.Proper st (.membership p ev)) :
    Keeps st (handleMembership p ev st).2 := by
  intro roomID f f' hf hne hf'
  obtain ⟨hmem, rfl⟩ := getFriendshipByRoomID_eq_some.mp hf'
  rcases changes_handleMembership p ev st f' hmem with hold | hnew
  · exact Keeps.refl st f'.roomID f f' hf hne (getFriendshipByRoomID_eq_some.mpr ⟨hold, rfl⟩)
  cases hnew with
  | same g hg hfc hto =>
    obtain rfl := some.inj (hg.symm.trans hf)
    exact ⟨by rw [parties, parties, hfc, hto], hto ▸ hne⟩
  | entered g hroom hg hkey hne' hfc =>
    obtain rfl := some.inj (hg.symm.trans (hroom ▸ hf))
    have hto := (h g f'.toFcID hg hkey hne).1.resolve_left hne'
    exact ⟨by rw [parties, parties, hfc, hto], hto ▸ hne⟩
  | swapped f₂ hroom hremote hkey hparties hlt hfc =>
    obtain ⟨hsame, hto⟩ := (h f f'.toFcID (hroom ▸ hf) hkey hne).2 f₂ hremote hparties hlt
    exact ⟨by rw [parties, hfc, hsame], hto⟩

theorem Keeps.step {call : Call} (hp : call.Proper st) (h : Call.step st call = some st') :
    Keeps st st' := by
  cases call with
  | create ev =>
    obtain rfl := some.inj h
    show Ensures (handleCreate ev) st (Keeps st)
    exact ensures_commit_bind.mpr ⟨fun _ => .refl st, fun _ h => keeps_insert h⟩
  | membership p ev =>
    obtain rfl := some.inj h
    exact Keeps.handleMembership hp
  | reorder rows =>
    intro roomID f f' hf hne hf'
    refine Keeps.refl st roomID f f' hf hne ?_
    rw [getFriendshipByRoomID_eq_some] at hf' ⊢
    exact ⟨(perm_of_reorder h).mem_iff.mp hf'.1, hf'.2⟩

/-- **A direct room keeps its parties.** In every run whose calls are all proper, a row with two
parties has the same ones as long as it is there. -/
theorem parties_kept {calls : List Call} {roomID : String} {f' : RCSFriendship}
    (hf : st.getFriendshipByRoomID roomID = some f) (hne : f.toFcID ≠ "")
    (hm : RunMeets Call.step
      (fun st call => call.Proper st ∧ (st.getFriendshipByRoomID roomID).isSome = true) st calls)
    (h : run Call.step st calls = some st') (hf' : st'.getFriendshipByRoomID roomID = some f') :
    parties f' = parties f := by
  have hinv : ∀ g, st'.getFriendshipByRoomID roomID = some g → SameParties f g := by
    refine run_invariant
      (I := fun s => ∀ g, s.getFriendshipByRoomID roomID = some g → SameParties f g) ?_ ?_ hm h
    · intro s call t hs hc ht g hg
      obtain ⟨g₀, hg₀⟩ := isSome_iff_exists.mp hc.2
      obtain ⟨hsame, hne₀⟩ := hs g₀ hg₀
      obtain ⟨hsame', hne'⟩ := Keeps.step hc.1 ht roomID g₀ g hg₀ hne₀ hg
      exact ⟨hsame'.trans hsame, hne'⟩
    · intro g hg
      obtain rfl := some.inj (hg.symm.trans hf)
      exact ⟨rfl, hne⟩
  exact (hinv f' hf').1

/-! ## A third party -/

def memberEv (id roomID sender target membership : String) : Event :=
  ⟨id, roomID, sender, MRoomMember, some target, .obj [("membership", .string membership)], 0, "",
    ""⟩

def createEv (id roomID sender : String) : Event :=
  ⟨id, roomID, sender, MRoomCreate, some "", .obj [("is_direct", .bool true)], 0, "", ""⟩

def serverX : Processor := ⟨["x"], fun _ => 0⟩

def bobInvited : List Call :=
  [.create (createEv "$1:x" "!r:x" "@a:x"),
    .membership serverX (memberEv "$2:x" "!r:x" "@a:x" "@a:x" "join"),
    .membership serverX (memberEv "$3:x" "!r:x" "@a:x" "@b:x" "invite")]

def invitedRow : RCSFriendship :=
  ⟨"@a:x@b:x", "!r:x", "@a:x", "@b:x", .join, .invite, false, false, "a", "b", true, false, "x",
    "x", "$3:x"⟩
def joinedRow (user name : String) : RCSFriendship :=
  ⟨"@a:x@b:x", "!r:x", "@a:x", user, .join, .join, false, false, "a", name, true, true, "x", "x",
    "$4:x"⟩

def invitedStore : Store := ⟨[invitedRow], nodup_singleton _⟩
def joinedStore (user name : String) : Store := ⟨[joinedRow user name], nodup_singleton _⟩

def selfJoin (user : String) : Event := memberEv "$4:x" "!r:x" user user "join"

theorem parties_kept_bob :
    run Call.step .empty bobInvited = some invitedStore ∧
      run Call.step invitedStore [.membership serverX (selfJoin "@b:x")] =
        some (joinedStore "@b:x" "b") ∧
      parties (joinedRow "@b:x" "b") = parties invitedRow := by
  have hrow : invitedStore.getFriendshipByRoomID "!r:x" = some invitedRow := rfl
  have hproper : Call.Proper invitedStore (.membership serverX (selfJoin "@b:x")) := by
    intro f stateKey hf hk _
    obtain rfl := some.inj (hf.symm.trans hrow)
    obtain rfl := some.inj hk
    exact ⟨.inr rfl, fun f₂ hl => absurd hl (by decide)⟩
  have hrun : run Call.step invitedStore [.membership serverX (selfJoin "@b:x")] =
      some (joinedStore "@b:x" "b") := rfl
  have hm : RunMeets Call.step (fun st call => call.Proper st ∧
      (st.getFriendshipByRoomID "!r:x").isSome = true) invitedStore
      [.membership serverX (selfJoin "@b:x")] := ⟨⟨hproper, rfl⟩, trivial⟩
  exact ⟨rfl, hrun, parties_kept hrow (by decide) hm hrun rfl⟩

/-- Alice has invited Bob; the join of Carol is accepted and the row is now one of Alice and Carol.
-/
theorem third_party_enters :
    run Call.step .empty bobInvited = some invitedStore ∧
      invitedStore.getFriendshipByRoomID "!r:x" = some invitedRow ∧ invitedRow.toFcID = "@b:x" ∧
      handleMembership serverX (selfJoin "@c:x") invitedStore =
        (.ok [selfJoin "@c:x"], joinedStore "@c:x" "c") ∧
      (joinedStore "@c:x" "c").getFriendshipByRoomID "!r:x" = some (joinedRow "@c:x" "c") ∧
      parties (joinedRow "@c:x" "c") ≠ parties invitedRow := by
  refine ⟨rfl, rfl, rfl, rfl, rfl, ?_⟩
  decide

end Ligase.Rcs

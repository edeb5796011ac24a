import Ligase.Rcs.Outcomes

/-!
# Rows and the events that are announced

The states in a row are to be those of the events that come back.

* **`announced_iff`**: after which calls between the parties they are.
-/

namespace Ligase.Rcs

open Lib Auth Proc Store List Option

/-! ## Parties that differ -/

def RCSFriendship.Separate (f : RCSFriendship) : Prop := f.fcID = f.toFcID → f.fcID = ""

theorem RCSFriendship.Separate.ne {f : RCSFriendship} (h : f.Separate) (hto : f.toFcID ≠ "") :
    f.fcID ≠ f.toFcID := fun he => hto (he ▸ h he)

def Separate (st : Store) : Prop := ∀ f ∈ st.rows, f.Separate

section
variable {st st' : Store} {f : RCSFriendship} {p : Processor} {ev : Event}

theorem Separate.get (hs : Separate st) {roomID : String}
    (h : st.getFriendshipByRoomID roomID = some f) : f.Separate :=
  hs f (getFriendshipByRoomID_eq_some.mp h).1

theorem Separate.mayWrite (hs : Separate st) (h : MayWrite p ev st f) : f.Separate := by
  intro he
  cases h with
  | same g hg hfc hto => rw [hfc, hs.get hg (hfc.symm.trans (he.trans hto))]
  | entered g _ _ _ hne hfc => exact absurd (he.symm.trans hfc) hne
  | swapped f₂ _ _ _ hparties _ hfc =>
    -- the row that is given up has the same parties, the other way round
    obtain ⟨hrow₂, hfc₂, hto₂⟩ := getFriendshipByFcIDAndToFcID_eq_some hparties
    have hsame : f₂.fcID = f₂.toFcID := by rw [hfc₂, hto₂, ← he, hfc]
    rw [he, ← hfc₂, hs.get hrow₂ hsame]

theorem Separate.step {call : Call} (hs : Separate st) (h : Call.step st call = some st') :
    Separate st' := by
  cases call with
  | create ev =>
    obtain rfl := some.inj h
    refine ensures_commit_bind.mpr ⟨fun _ => hs, fun s₁ h₁ g hg => ?_⟩
    rcases (mem_insert h₁).2 g |>.mp hg with rfl | hg
    · exact fun he => he
    · exact hs g hg
  | membership p ev =>
    obtain rfl := some.inj h
    intro g hg
    exact (changes_handleMembership p ev st g hg).elim (hs g) hs.mayWrite
  | reorder rows => exact fun g hg => hs g ((perm_of_reorder h).mem_iff.mp hg)

theorem separate_of_run {calls : List Call} (h : run Call.step .empty calls = some st) :
    Separate st :=
  run_preserves (fun hs h => hs.step h) (fun _ hf => absurd hf not_mem_nil) h

end

/-! ## The last event of a user -/

def lastFor (evs : List Event) (roomID user : String) : Option Event :=
  (evs.filter fun e => e.roomID = roomID ∧ e.stateKey = some user).getLast?

theorem lastFor_cons (e : Event) (evs : List Event) (roomID user : String) :
    lastFor (e :: evs) roomID user = (lastFor evs roomID user).or
      (if e.roomID = roomID ∧ e.stateKey = some user then some e else none) := by
  unfold lastFor
  rw [filter_cons]
  by_cases h : e.roomID = roomID ∧ e.stateKey = some user
  · rw [if_pos (decide_eq_true h), if_pos h, getLast?_cons]
    cases getLast? _ <;> rfl
  · rw [if_neg (by simpa using h), if_neg h, or_none]

def View.states (v : View) : List (String × St) :=
  [(v.fcID, v.fcIDState), (v.toFcID, v.toFcIDState)]

/-- A participant of the room has the state of the last event, or that of before if there is
none. -/
def StateAnnounced (st : Store) (evs : List Event) (roomID user : String) (s : St) : Prop :=
  match lastFor evs roomID user with
  | some e => textOf e = some s.text
  | none => ∃ v, st.view roomID = some v ∧ (user, s) ∈ v.states

def RoomAnnounced (st st' : Store) (evs : List Event) (roomID : String) : Prop :=
  ∀ v, st'.view roomID = some v → ∀ user s, (user, s) ∈ v.states → user ≠ "" →
    StateAnnounced st evs roomID user s

def Announced (st st' : Store) (evs : List Event) : Prop :=
  ∀ roomID, RoomAnnounced st st' evs roomID

/-- The row is one between the sender and the state key, of which the second may be to come. -/
structure Between (f : RCSFriendship) (sender stateKey : String) : Prop where
  sender_ne : sender ≠ ""
  stateKey_ne : stateKey ≠ ""
  parties : ((sender = f.fcID ∨ sender = f.toFcID) ∧ (stateKey = f.fcID ∨ stateKey = f.toFcID)) ∨
    (f.toFcID = "" ∧ (sender = f.fcID ∨ stateKey = f.fcID ∨ sender = stateKey))

section
variable {p : Processor} {ev e : Event} {stateKey op roomID user room key sender m : String}
  {st st' st₁ : Store} {evs : List Event} {f f₁ f₂ : RCSFriendship} {v : View} {s : St}

theorem IsMember.lastFor_cons (h : IsMember e room sender key m) :
    lastFor (e :: evs) roomID user = (lastFor evs roomID user).or
      (if room = roomID ∧ key = user then some e else none) := by
  simp only [Rcs.lastFor_cons, h.roomID, h.stateKey, some.injEq]

theorem lastFor_nil : lastFor [] roomID user = none := rfl

theorem IsMember.announced_self (h : IsMember e roomID sender user m) (hm : m = s.text)
    (hrest : lastFor evs roomID user = none) : StateAnnounced st (e :: evs) roomID user s := by
  rw [StateAnnounced, h.lastFor_cons, hrest, if_pos ⟨rfl, rfl⟩]
  exact hm ▸ h.textOf

theorem IsMember.announced_cons (h : IsMember e room sender key m)
    (hne : ¬ (room = roomID ∧ key = user)) :
    StateAnnounced st (e :: evs) roomID user s ↔ StateAnnounced st evs roomID user s := by
  rw [StateAnnounced, StateAnnounced, h.lastFor_cons, if_neg hne, or_none]

theorem IsMember.announced_overtaken {e' : Event} (h : IsMember e roomID sender user m) :
    StateAnnounced st (e' :: e :: evs) roomID user s ↔
      StateAnnounced st (e :: evs) roomID user s := by
  rw [StateAnnounced, StateAnnounced, Rcs.lastFor_cons, h.lastFor_cons, if_pos ⟨rfl, rfl⟩]
  cases lastFor evs roomID user <;> rfl

theorem announced_nil (hrow : st.getFriendshipByRoomID roomID = some f)
    (hs : (user, s) ∈ f.view.states) : StateAnnounced st [] roomID user s :=
  ⟨f.view, by rw [view, hrow]; rfl, hs⟩

theorem IsMember.announced_same (h : IsMember e room sender key m)
    (hne : ¬ (room = roomID ∧ key = user)) (hrow : st.getFriendshipByRoomID roomID = some f)
    (hs : (user, s) ∈ f.view.states) : StateAnnounced st [e] roomID user s :=
  (h.announced_cons hne).mpr (announced_nil hrow hs)

/-! ## Rooms -/

theorem roomAnnounced_gone (h : st'.view roomID = none) : RoomAnnounced st st' evs roomID :=
  fun v hv => absurd (h.symm.trans hv) (by simp)

theorem roomAnnounced_same (h : st'.getFriendshipByRoomID roomID = st.getFriendshipByRoomID roomID)
    (hevs : ∀ e ∈ evs, e.roomID ≠ roomID) : RoomAnnounced st st' evs roomID := by
  intro v hv user s hs _
  have hnone : lastFor evs roomID user = none := by
    rw [lastFor, filter_eq_nil_iff.mpr, getLast?_nil]
    intro e he hc
    exact hevs e he (of_decide_eq_true hc).1
  rw [StateAnnounced, hnone]
  exact ⟨v, by rwa [view, ← h], hs⟩

theorem roomAnnounced_row {a b : String} {s t : St} (h : st'.view roomID = some ⟨a, b, s, t⟩) :
    RoomAnnounced st st' evs roomID ↔ (a ≠ "" → StateAnnounced st evs roomID a s) ∧
      (b ≠ "" → StateAnnounced st evs roomID b t) := by
  refine ⟨fun hr => ⟨hr _ h _ _ mem_cons_self, hr _ h _ _ (by simp [View.states])⟩, ?_⟩
  rintro ⟨hfc, hto⟩ w hw user s hs hne
  obtain rfl := some.inj (h.symm.trans hw)
  rw [View.states, mem_cons, mem_singleton, Prod.mk.injEq, Prod.mk.injEq] at hs
  rcases hs with ⟨rfl, rfl⟩ | ⟨rfl, rfl⟩
  · exact hfc hne
  · exact hto hne

theorem mem_states_fcID : (f.fcID, f.fcIDState) ∈ f.view.states := mem_cons_self

theorem mem_states_toFcID : (f.toFcID, f.toFcIDState) ∈ f.view.states :=
  mem_cons_of_mem _ mem_cons_self

theorem announced_of_writes {w : Option View} (hst : Writes st st' roomID w)
    (hevs : ∀ e ∈ evs, e.roomID = roomID) (hroom : RoomAnnounced st st' evs roomID) :
    Announced st st' evs := by
  intro roomID'
  by_cases hr : roomID' = roomID
  · exact hr ▸ hroom
  · exact roomAnnounced_same (hst.others roomID' hr) fun e he h => hr (h.symm.trans (hevs e he))

/-! ## The outcomes -/

theorem announced_unchanged (hev : IsMember ev ev.roomID ev.sender stateKey op)
    (hsep : Separate st) (h : ∀ f, st.getFriendshipByRoomID ev.roomID = some f →
      op = (stateOf f stateKey).text) : Announced st st [ev] := by
  have hw : Writes st st ev.roomID (st.view ev.roomID) := ⟨rfl, fun _ _ => rfl⟩
  refine announced_of_writes hw (by simp) ?_
  cases hrow : st.getFriendshipByRoomID ev.roomID with
  | none => exact roomAnnounced_gone (by rw [view, hrow]; rfl)
  | some f =>
    have hop := h f hrow
    rw [roomAnnounced_row (show st.view ev.roomID = some f.view by rw [view, hrow]; rfl)]
    constructor <;> intro hne
    · by_cases hk : stateKey = f.fcID
      · rw [stateOf, if_pos hk] at hop
        exact (hk ▸ hev).announced_self hop lastFor_nil
      · exact hev.announced_same (fun hc => hk hc.2) hrow mem_states_fcID
    · by_cases hk : stateKey = f.toFcID
      · have hne' : stateKey ≠ f.fcID := fun hc => (hsep.get hrow).ne hne (hc.symm.trans hk)
        rw [stateOf, if_neg hne'] at hop
        exact (hk ▸ hev).announced_self hop lastFor_nil
      · exact hev.announced_same (fun hc => hk hc.2) hrow mem_states_toFcID

theorem announced_moved (hev : IsMember ev ev.roomID ev.sender stateKey op)
    (hsep : f.Separate) (hrow : st.getFriendshipByRoomID ev.roomID = some f) (hop : op = s.text)
    (hst : Writes st st' ev.roomID (some (f.view.set stateKey s))) : Announced st st' [ev] := by
  refine announced_of_writes hst (by simp) ?_
  have hview := hst.row
  rw [View.set] at hview
  by_cases hk : stateKey = f.fcID
  · rw [if_pos (show stateKey = f.view.fcID from hk)] at hview
    rw [roomAnnounced_row hview]
    refine ⟨fun _ => (hk ▸ hev).announced_self hop lastFor_nil, fun hne => ?_⟩
    exact hev.announced_same (fun hc => hsep.ne hne (hk.symm.trans hc.2)) hrow mem_states_toFcID
  · rw [if_neg (show stateKey ≠ f.view.fcID from hk)] at hview
    rw [roomAnnounced_row hview]
    refine ⟨fun _ => ?_, fun _ => hev.announced_self hop lastFor_nil⟩
    exact hev.announced_same (fun hc => hk hc.2) hrow mem_states_fcID

section
variable (h : Between f sender stateKey)
include h

theorem Between.stateKey_toFcID (hne : sender ≠ stateKey) (hs : sender = f.fcID)
    (hto : f.toFcID ≠ "") : stateKey = f.toFcID := by
  rcases h.parties with ⟨-, hk⟩ | ⟨hto', -⟩
  · exact hk.resolve_left fun hk => hne (hs.trans hk.symm)
  · exact absurd hto' hto

theorem Between.stateKey_fcID (hne : sender ≠ stateKey) (hs : sender ≠ f.fcID) :
    stateKey = f.fcID := by
  rcases h.parties with ⟨hs', hk⟩ | ⟨-, h'⟩
  · exact hk.resolve_right fun hk => hne ((hs'.resolve_left hs).trans hk.symm)
  · exact (h'.resolve_left hs).resolve_right hne

theorem Between.sender_toFcID (hs : sender ≠ f.fcID) (hto : f.toFcID ≠ "") :
    sender = f.toFcID := by
  rcases h.parties with ⟨hs', -⟩ | ⟨hto', -⟩
  · exact hs'.resolve_left hs
  · exact absurd hto' hto

end

section
variable {e₁ e₂ : Event} {invites : List Event}

section
variable (h : InvitedBack ev stateKey s invites) (hne : ev.sender ≠ stateKey)
include h hne

theorem InvitedBack.announced_sender (h₂ : IsMember e₂ ev.roomID ev.sender ev.sender "join") :
    StateAnnounced st (e₁ :: e₂ :: invites) ev.roomID ev.sender .join := by
  rw [h₂.announced_overtaken]
  refine h₂.announced_self rfl ?_
  rw [lastFor, filter_eq_nil_iff.mpr, getLast?_nil]
  intro e he hc
  exact hne (some.inj ((of_decide_eq_true hc).2.symm.trans (h.member he).stateKey))

theorem InvitedBack.announced_other (h₁ : IsMember e₁ ev.roomID ev.sender ev.sender "invite")
    (h₂ : IsMember e₂ ev.roomID ev.sender ev.sender "join")
    (hrow : st.getFriendshipByRoomID ev.roomID = some f) (hs : (stateKey, s) ∈ f.view.states) :
    StateAnnounced st (e₁ :: e₂ :: invites) ev.roomID stateKey s.invitedBack := by
  rw [h₁.announced_cons fun hc => hne hc.2, h₂.announced_cons fun hc => hne hc.2]
  unfold InvitedBack at h
  unfold St.invitedBack
  split_ifs at h ⊢
  · obtain ⟨e₃, rfl, h₃⟩ := h
    exact h₃.announced_self rfl lastFor_nil
  · exact h ▸ announced_nil hrow hs

end

theorem announced_rejoined (hrow : st.getFriendshipByRoomID ev.roomID = some f)
    (hb : Between f ev.sender stateKey) (hne : ev.sender ≠ stateKey)
    (h₁ : IsMember e₁ ev.roomID ev.sender ev.sender "invite")
    (h₂ : IsMember e₂ ev.roomID ev.sender ev.sender "join")
    (hinvites : InvitedBack ev stateKey (stateOf f stateKey) invites) (hst : Writes st st' ev.roomID
      (some (f.view.setStates ev.sender .join (stateOf f stateKey).invitedBack))) :
    Announced st st' (e₁ :: e₂ :: invites) := by
  have hown : StateAnnounced st (e₁ :: e₂ :: invites) ev.roomID ev.sender .join :=
    hinvites.announced_sender hne h₂
  have hother := hinvites.announced_other hne h₁ h₂ hrow
  refine announced_of_writes hst ?_ ?_
  · intro e he
    rcases mem_cons.mp he with rfl | he
    · exact h₁.roomID
    · rcases mem_cons.mp he with rfl | he
      · exact h₂.roomID
      · exact (hinvites.member he).roomID
  have hview := hst.row
  rw [View.setStates] at hview
  by_cases hc : ev.sender = f.fcID
  · rw [if_pos (show ev.sender = f.view.fcID from hc)] at hview
    rw [roomAnnounced_row hview]
    refine ⟨fun _ => (hc ▸ hown : StateAnnounced _ _ _ f.fcID _), fun hto => ?_⟩
    have hk : f.toFcID = stateKey := (hb.stateKey_toFcID hne hc hto).symm
    rw [show f.view.toFcID = stateKey from hk]
    refine hother ?_
    rw [stateOf, if_neg fun hk => hne (hc.trans hk.symm), ← hk]
    exact mem_states_toFcID
  · rw [if_neg (show ev.sender ≠ f.view.fcID from hc)] at hview
    rw [roomAnnounced_row hview]
    have hk : f.fcID = stateKey := (hb.stateKey_fcID hne hc).symm
    refine ⟨fun _ => ?_, fun hto => ?_⟩
    · rw [show f.view.fcID = stateKey from hk]
      refine hother ?_
      rw [stateOf, if_pos hk.symm, ← hk]
      exact mem_states_fcID
    · rw [show f.view.toFcID = ev.sender from (hb.sender_toFcID hc hto).symm]
      exact hown

end

theorem announced_normal (hev : IsMember ev ev.roomID ev.sender stateKey op) (hsep : Separate st)
    (hb : ∀ f, st.getFriendshipByRoomID ev.roomID = some f → Between f ev.sender stateKey)
    (h : NormalOutcome p ev stateKey op st st' evs) : Announced st st' evs := by
  cases h with
  | noRow hrow _ hevs hst =>
    subst hevs hst
    exact announced_unchanged hev hsep fun f hf => absurd (hrow.symm.trans hf) (by simp)
  | ignored f hrow _ hop hevs hst =>
    subst hevs hst
    exact announced_unchanged hev hsep fun g hg => some.inj (hrow.symm.trans hg) ▸ hop
  | moved f s hrow _ hop hevs hst =>
    subst hevs
    exact announced_moved hev (hsep.get hrow) hrow hop hst
  | rejoined f e₁ e₂ invites hrow hsender h₁ h₂ hinvites hevs hst =>
    subst hevs
    exact announced_rejoined hrow (hb f hrow) hsender.2.2.2 h₁ h₂ hinvites hst

theorem announced_joinedOwn (hsep : f.Separate)
    (hrow : st.getFriendshipByRoomID ev.roomID = some f) (hb : Between f ev.sender stateKey)
    (he : IsMember e ev.roomID ev.sender ev.sender "join")
    (hst : Writes st st' ev.roomID (some (if ev.sender = f.fcID
      then { f.view with fcIDState := .join } else { f.view with toFcIDState := .join }))) :
    Announced st st' [e] := by
  refine announced_of_writes hst (by simpa using he.roomID) ?_
  have hown : StateAnnounced st [e] ev.roomID ev.sender .join := he.announced_self rfl lastFor_nil
  have hview := hst.row
  by_cases hc : ev.sender = f.fcID
  · rw [if_pos hc] at hview
    rw [roomAnnounced_row hview]
    refine ⟨fun _ => (hc ▸ hown : StateAnnounced _ _ _ f.fcID _), fun hne => ?_⟩
    exact he.announced_same (fun h => hsep.ne hne (hc.symm.trans h.2)) hrow mem_states_toFcID
  · rw [if_neg hc] at hview
    rw [roomAnnounced_row hview]
    refine ⟨fun _ => ?_, fun hto => ?_⟩
    · exact he.announced_same (fun h => hc h.2) hrow mem_states_fcID
    · rw [show f.view.toFcID = ev.sender from (hb.sender_toFcID hc hto).symm]
      exact hown

theorem announced_of_writes_writes {w : Option View} {room' : String}
    (hst₁ : Writes st st₁ room none) (hst : Writes st₁ st' room' w)
    (hevs : ∀ e ∈ evs, e.roomID = room ∨ e.roomID = room') :
    Announced st st' evs ↔ RoomAnnounced st st' evs room' := by
  refine ⟨fun h => h room', fun h roomID => ?_⟩
  by_cases hr' : roomID = room'
  · exact hr' ▸ h
  by_cases hr : roomID = room
  · refine roomAnnounced_gone ?_
    rw [view, hst.others roomID hr', hr]
    exact hst₁.row
  · have hsame := (hst.others roomID hr').trans (hst₁.others roomID hr)
    refine roomAnnounced_same hsame fun e he h => ?_
    rcases hevs e he with h' | h'
    · exact hr (h.symm.trans h')
    · exact hr' (h.symm.trans h')

theorem announced_joinedOther {e₁ e₂ : Event} (hsep : Separate st)
    (hglare : st.glare ev stateKey = some f₂)
    (h₁ : IsMember e₁ ev.roomID ev.sender ev.sender "leave")
    (h₂ : IsMember e₂ f₂.roomID ev.sender ev.sender "join") (hst₁ : Writes st st₁ ev.roomID none)
    (hst : Writes st₁ st' f₂.roomID (some { f₂.view with toFcIDState := .join })) :
    Announced st st' [e₁, e₂] := by
  obtain ⟨hrow, -, hto, hne⟩ := glare_eq_some hglare
  rw [announced_of_writes_writes hst₁ hst (by simp [h₁.roomID, h₂.roomID]),
    roomAnnounced_row hst.row]
  have hother : ∀ {user s}, StateAnnounced st [e₁, e₂] f₂.roomID user s ↔
      StateAnnounced st [e₂] f₂.roomID user s := h₁.announced_cons fun hc => hne hc.1.symm
  rw [hother, hother]
  refine ⟨fun hfc => ?_, fun _ => ?_⟩
  · refine h₂.announced_same (fun hc => ?_) hrow mem_states_fcID
    exact hfc (hsep.get hrow (hc.2.symm.trans hto.symm))
  · exact (hto ▸ h₂ : IsMember e₂ f₂.roomID ev.sender f₂.toFcID "join").announced_self rfl
      lastFor_nil

/-- The one branch in which the state of a party is taken over from the other one. -/
theorem announced_keptOther {e₁ e₂ : Event} (hsep : Separate st)
    (hb : Between f₁ ev.sender stateKey) (hglare : st.glare ev stateKey = some f₂)
    (hrow : st.getFriendshipByRoomID ev.roomID = some f₁)
    (h₁ : IsMember e₁ f₂.roomID stateKey stateKey "leave")
    (h₂ : IsMember e₂ ev.roomID stateKey stateKey "join") (hst₁ : Writes st st₁ f₂.roomID none)
    (hst : Writes st₁ st' ev.roomID (some ⟨ev.sender, stateKey, f₁.fcIDState, .join⟩)) :
    Announced st st' [e₁, e₂] ↔ (ev.sender, f₁.fcIDState) ∈ f₁.view.states := by
  obtain ⟨hrow₂, hfc, hto, hne⟩ := glare_eq_some hglare
  have hkey : stateKey ≠ ev.sender := fun h =>
    hb.stateKey_ne (hfc ▸ hsep.get hrow₂ (hfc.trans (h.trans hto.symm)))
  rw [announced_of_writes_writes hst₁ hst (by simp [h₁.roomID, h₂.roomID]),
    roomAnnounced_row hst.row]
  have hother : ∀ {user s}, StateAnnounced st [e₁, e₂] ev.roomID user s ↔
      StateAnnounced st [e₂] ev.roomID user s := h₁.announced_cons fun hc => hne hc.1
  rw [hother, hother, and_iff_left fun _ => h₂.announced_self rfl lastFor_nil]
  rw [h₂.announced_cons fun hc => hkey hc.2]
  constructor
  · intro h
    obtain ⟨v, hv, hmem⟩ := h hb.sender_ne
    rw [view, hrow] at hv
    exact some.inj hv ▸ hmem
  · exact fun h _ => announced_nil hrow h

/-- Where an invite of another server meets one of this server and its room is kept, the sender is
the first party of the room, or both parties have the same state. -/
def SenderKept (p : Processor) (ev : Event) (stateKey : String) (st : Store) : Prop :=
  IsMember ev ev.roomID ev.sender stateKey "invite" → p.isLocal ev.sender = false →
    ∀ f₁ f₂, st.getFriendshipByRoomID ev.roomID = some f₁ → st.glare ev stateKey = some f₂ →
      ev.roomID < f₂.roomID →
        ev.sender = f₁.fcID ∨ (ev.sender = f₁.toFcID ∧ f₁.toFcIDState = f₁.fcIDState)

/-- **The rows record what was announced, exactly if the sender is kept.** -/
theorem announced_iff {calls : List Call} (hr : run Call.step .empty calls = some st)
    (hk : ev.stateKey = some stateKey)
    (hb : ∀ f, st.getFriendshipByRoomID ev.roomID = some f → Between f ev.sender stateKey)
    (h : handleMembership p ev st = (.ok evs, st')) :
    Announced st st' evs ↔ SenderKept p ev stateKey st := by
  have hsep : Separate st := separate_of_run hr
  obtain ⟨op, hev, hout⟩ := handleMembership_outcome hk h
  -- all branches but one announce what they write, and do not meet what the condition is about
  have hall : Announced st st' evs → (op = "invite" → p.isLocal ev.sender = false →
      ∀ f₂, st.glare ev stateKey = some f₂ → ¬ ev.roomID < f₂.roomID) →
      (Announced st st' evs ↔ SenderKept p ev stateKey st) := by
    intro ha hnot
    refine ⟨fun _ hinv hl f₁ f₂ _ hf₂ hlt => ?_, fun _ => ha⟩
    exact absurd hlt (hnot (hev.op_eq hinv) hl f₂ hf₂)
  have hlocal' : p.isLocal ev.sender = true → op = "invite" → p.isLocal ev.sender = false →
      ∀ f₂, st.glare ev stateKey = some f₂ → ¬ ev.roomID < f₂.roomID :=
    fun ht _ hf => absurd (ht.symm.trans hf) (by decide)
  cases hout with
  | normal hn hglare _ =>
    refine hall (announced_normal hev hsep hb hn) fun hop _ f₂ hf₂ => ?_
    exact absurd ((hglare hop).symm.trans hf₂) (by simp)
  | joinedOther f₂ st₁ e₁ e₂ _ hlocal hglare h₁ h₂ hevs hst₁ hst =>
    subst hevs
    exact hall (announced_joinedOther hsep hglare h₁ h₂ hst₁ hst) (hlocal' hlocal)
  | joinedOwn f e _ hlocal _ hrow _ he hevs hst =>
    subst hevs
    exact hall (announced_joinedOwn (hsep.get hrow) hrow (hb f hrow) he hst) (hlocal' hlocal)
  | keptOwn f₂ e _ _ hglare hlt he hevs hst =>
    subst hevs
    refine hall (announced_of_writes hst ?_ (roomAnnounced_gone hst.row)) fun _ _ g hg => ?_
    · simpa using he.roomID
    · rwa [← some.inj (hglare.symm.trans hg)]
  | keptOther f₁ f₂ st₁ e₁ e₂ hop hlocal hglare hlt hrow h₁ h₂ hevs hst₁ hst =>
    subst hevs hop
    rw [announced_keptOther hsep (hb f₁ hrow) hglare hrow h₁ h₂ hst₁ hst]
    simp only [View.states, RCSFriendship.view, mem_cons, Prod.mk.injEq, and_true,
      not_mem_nil, or_false]
    constructor
    · intro hs _ _ g₁ g₂ hg₁ _ _
      obtain rfl := some.inj (hrow.symm.trans hg₁)
      exact hs.imp_right fun hs => ⟨hs.1, hs.2.symm⟩
    · intro hs
      exact (hs hev hlocal f₁ f₂ hrow hglare hlt).imp_right fun hs => ⟨hs.1, hs.2.symm⟩

end

theorem announced_bob :
    Announced invitedStore (joinedStore "@b:x" "b") [selfJoin "@b:x"] := by
  have hr : run Call.step .empty bobInvited = some invitedStore := rfl
  have h : handleMembership serverX (selfJoin "@b:x") invitedStore =
      (.ok [selfJoin "@b:x"], joinedStore "@b:x" "b") := rfl
  refine (announced_iff hr rfl ?_ h).mpr fun _ hl => absurd hl (by decide)
  intro f hf
  obtain rfl : invitedRow = f := some.inj hf
  exact ⟨by decide, by decide, .inl ⟨.inr rfl, .inr rfl⟩⟩

/-! ## A state that is taken over -/

/-- Victor of the server `x` makes a direct room that Ursula of another server enters, and leaves
it; then Victor makes another one and invites Ursula. -/
def victorLeft : List Call :=
  [.create (createEv "$1:x" "!a:x" "@v:x"),
    .membership serverX (memberEv "$2:x" "!a:x" "@v:x" "@v:x" "join"),
    .membership serverX (memberEv "$3:y" "!a:x" "@u:y" "@u:y" "join"),
    .membership serverX (memberEv "$4:x" "!a:x" "@v:x" "@v:x" "leave"),
    .create (createEv "$5:x" "!b:x" "@v:x"),
    .membership serverX (memberEv "$6:x" "!b:x" "@v:x" "@v:x" "join"),
    .membership serverX (memberEv "$7:x" "!b:x" "@v:x" "@u:y" "invite")]

/-- Ursula, who has joined the first room, invites Victor back. -/
def victorInvited : Event := memberEv "$8:y" "!a:x" "@u:y" "@v:x" "invite"

/-- Ursula is recorded as having left the room, as Victor had, and no event says so. -/
theorem sender_recorded_as_left :
    run Call.step .empty victorLeft = some (tableAfter victorLeft) ∧
      (∀ f, (tableAfter victorLeft).getFriendshipByRoomID "!a:x" = some f →
        Between f "@u:y" "@v:x") ∧
      (tableAfter victorLeft).view "!a:x" = some ⟨"@v:x", "@u:y", .leave, .join⟩ ∧
      ∃ st' evs, handleMembership serverX victorInvited (tableAfter victorLeft) = (.ok evs, st') ∧
        evs.map (fun e => (e.roomID, e.stateKey, textOf e)) =
          [("!b:x", some "@v:x", some "leave"), ("!a:x", some "@v:x", some "join")] ∧
        st'.view "!a:x" = some ⟨"@u:y", "@v:x", .leave, .join⟩ ∧
        ¬ Announced (tableAfter victorLeft) st' evs := by
  have hview : (tableAfter victorLeft).view "!a:x" = some ⟨"@v:x", "@u:y", .leave, .join⟩ := rfl
  refine ⟨rfl, ?_, hview, _, _, rfl, by decide +kernel, rfl, fun h => ?_⟩
  · intro f hf
    obtain rfl := some.inj hf
    exact ⟨by decide, by decide, .inl ⟨.inr rfl, .inl rfl⟩⟩
  · obtain ⟨v, hv, hs⟩ := h "!a:x" _ rfl "@u:y" .leave mem_cons_self (by decide)
    obtain rfl := some.inj (hview.symm.trans hv)
    exact absurd hs (by decide)

end Ligase.Rcs

import Ligase.Lib.Newest
import Ligase.Room.AllState

/-!
# Events of other servers

Events of other servers may come in any order. The state takes one that is not older than the event
in its slot, so the slot should end with the newest one.

* **`slot_converges_iff`**: when the slot ends with the newest event in every order.
-/

namespace Ligase.Room

open Lib Auth RoomServerState List Option

/-! ## Slots -/

inductive Slot where
  | setting (s : Setting)
  | member (user : String)
  | thirdInvite (stateKey : String)

def RoomServerState.slot (rs : RoomServerState) : Slot → Option Event
  | .setting s => rs.setting s
  | .member user => rs.member user
  | .thirdInvite stateKey => rs.thirdInvite stateKey

def slotOf (ev : Event) : Option Slot :=
  if ev.type = MRoomMember then ev.stateKey.map .member
  else if ev.type = MRoomThirdPartyInvite then ev.stateKey.map .thirdInvite
  else (settingOf ev.type).map .setting

def Remote (localDomains : List String) (ev : Event) : Prop :=
  ∃ q, cut ':' ev.sender = some q ∧ q.2 ∉ localDomains

/-- A ban that finds its target in the leave map takes them out of it. -/
def Slot.drops (sl : Slot) (c ev : Event) : Prop :=
  match sl with
  | .member _ => membershipOf ev.content = "ban" ∧ mapOf (membershipOf c.content) = some .leave
  | _ => False

instance (sl : Slot) : DecidableRel sl.drops := fun _ _ =>
  match sl with
  | .member _ => inferInstanceAs (Decidable (_ ∧ _))
  | .setting _ => .isFalse id
  | .thirdInvite _ => .isFalse id

/-- Events of users without a domain are not taken. -/
def Slot.Open : Slot → Prop
  | .member user => (cut ':' user).isSome = true
  | _ => True

def Slot.offer (sl : Slot) : Option Event → Event → Option Event :=
  Newest.offer Event.originServerTS (fun c ev => c.eventID = ev.eventID) sl.drops

variable {rs rs' : RoomServerState} {localDomains : List String} {recover : Bool} {ev : Event}
  {sl : Slot}

/-! ## One event -/

section
variable (h : slotOf ev = some sl)
include h

theorem slotOf_eq_some :
    (∃ user, sl = .member user ∧ ev.type = MRoomMember ∧ ev.stateKey = some user) ∨
      (∃ k, sl = .thirdInvite k ∧ ev.type = MRoomThirdPartyInvite ∧ ev.stateKey = some k) ∨
      ∃ s, sl = .setting s ∧ ev.type = s.type := by
  unfold slotOf at h
  split_ifs at h with hm ht
  · obtain ⟨user, hk, rfl⟩ := map_eq_some_iff.mp h
    exact .inl ⟨user, rfl, hm, hk⟩
  · obtain ⟨k, hk, rfl⟩ := map_eq_some_iff.mp h
    exact .inr (.inl ⟨k, rfl, ht, hk⟩)
  · obtain ⟨s, hs, rfl⟩ := map_eq_some_iff.mp h
    exact .inr (.inr ⟨s, rfl, eq_type_of_settingOf hs⟩)

theorem getPreEvent_slot : rs.getPreEvent ev = (rs.slot sl, true) := by
  unfold getPreEvent
  rcases slotOf_eq_some h with ⟨user, rfl, ht, hk⟩ | ⟨k, rfl, ht, hk⟩ | ⟨s, rfl, ht⟩
  · rw [ht, hk]
    rfl
  · rw [ht, hk]
    rfl
  · rw [ht]
    cases s <;> rfl

theorem not_needsStateKey : ¬ (needsStateKey ev.type = true ∧ ev.stateKey = none) := by
  rintro ⟨hn, hk⟩
  rcases slotOf_eq_some h with ⟨user, -, -, hk'⟩ | ⟨k, -, -, hk'⟩ | ⟨s, -, ht⟩
  · exact some_ne_none _ (hk'.symm.trans hk)
  · exact some_ne_none _ (hk'.symm.trans hk)
  · rw [ht] at hn
    cases s <;> exact absurd hn (by decide)

variable (rs localDomains recover) in
theorem exists_onEvent : ∃ rs', rs.onEvent localDomains recover ev = some rs' := by
  unfold RoomServerState.onEvent
  rw [if_neg (not_needsStateKey h)]
  dsimp only
  split
  · exact ⟨_, rfl⟩
  · split_ifs <;> exact ⟨_, rfl⟩

end

section
variable (hrs : Filed rs) (hmap : rs.Mapped)
include hrs hmap

theorem leave_isSome_iff (user : String) : (rs.leave user).isSome = true ↔
      ∃ c, rs.member user = some c ∧ mapOf (membershipOf c.content) = some .leave := by
  constructor
  · intro h
    obtain ⟨c, hc⟩ := isSome_iff_exists.mp h
    have hne : ∀ m' ≠ MemberMap.leave, rs.map m' user = none := by
      intro m' hm'
      rw [← not_isSome_iff_eq_none]
      exact fun hs => hm' (hmap.one user m' .leave hs h)
    exact ⟨c, member_eq_of_map (m := .leave) hc hne, hrs.mapOf_eq (m := .leave) hc⟩
  · rintro ⟨c, hc, hm⟩
    rcases or_eq_some_iff.mp hc with hj | ⟨-, hc⟩
    · cases (hrs.mapOf_eq (m := .join) hj).symm.trans hm
    · rcases or_eq_some_iff.mp hc with hl | ⟨-, hi⟩
      · rw [hl]
        rfl
      · cases (hrs.mapOf_eq (m := .invite) hi).symm.trans hm

theorem member_onMemberEv {user : String} (hopen : (Slot.member user).Open)
    (hm : mapOf (membershipOf ev.content) ≠ none) : (rs.onMemberEv ev user).member user =
      if ∃ c, rs.member user = some c ∧ (Slot.member user).drops c ev then none else some ev := by
  obtain ⟨q, hc⟩ := isSome_iff_exists.mp hopen
  obtain ⟨m, hm⟩ := ne_none_iff_exists'.mp hm
  have hdrops : (∃ c, rs.member user = some c ∧ (Slot.member user).drops c ev) ↔
      membershipOf ev.content = "ban" ∧ (rs.leave user).isSome = true := by
    rw [leave_isSome_iff hrs hmap]
    exact ⟨fun ⟨c, hc, hb, hl⟩ => ⟨hb, c, hc, hl⟩, fun ⟨hb, c, hc, hl⟩ => ⟨c, hc, hb, hl⟩⟩
  by_cases hd : membershipOf ev.content = "ban" ∧ (rs.leave user).isSome = true
  · rw [if_pos (hdrops.mpr hd)]
    have hnone : ∀ m', (rs.onMemberEv ev user).map m' user = none := fun m' => by
      rw [map_onMemberEv hmap hc, if_neg fun h => h.2 hd]
    unfold member
    rw [show (rs.onMemberEv ev user).join user = none from hnone .join,
      show (rs.onMemberEv ev user).leave user = none from hnone .leave,
      show (rs.onMemberEv ev user).invite user = none from hnone .invite]
    rfl
  · rw [if_neg fun h => hd (hdrops.mp h)]
    have hin : (rs.onMemberEv ev user).map m user = some ev := by
      rw [map_onMemberEv hmap hc, if_pos ⟨hm, hd⟩]
    refine member_eq_of_map hin fun m' hne => ?_
    rw [map_onMemberEv hmap hc, hm, if_neg fun h => hne (some.inj h.1).symm]

theorem slot_onEventUpdate (h : slotOf ev = some sl)
    (hm : ∀ user, sl = .member user → mapOf (membershipOf ev.content) ≠ none) :
    (sl.Open → (rs.onEventUpdate ev (ev.stateKey.getD "")).slot sl =
      if ∃ c, rs.slot sl = some c ∧ sl.drops c ev then none else some ev) ∧
      (¬ sl.Open → (rs.onEventUpdate ev (ev.stateKey.getD "")).slot sl = rs.slot sl) := by
  rcases slotOf_eq_some h with ⟨user, rfl, ht, hk⟩ | ⟨k, rfl, ht, hk⟩ | ⟨s, rfl, ht⟩
  · rw [hk, getD_some, onEventUpdate_member ht]
    refine ⟨fun hopen => member_onMemberEv hrs hmap hopen (hm user rfl), fun hopen => ?_⟩
    have hc : cut ':' user = none := not_isSome_iff_eq_none.mp hopen
    simp only [onMemberEv, hc]
  · rw [hk, getD_some]
    refine ⟨fun _ => ?_, fun hopen => absurd trivial hopen⟩
    rw [if_neg (by rintro ⟨_, _, hd⟩; exact hd)]
    exact (held_onEventUpdate_thirdInvite ht k (.thirdInvite k)).trans (if_pos rfl)
  · refine ⟨fun _ => ?_, fun hopen => absurd trivial hopen⟩
    rw [if_neg (by rintro ⟨_, _, hd⟩; exact hd), onEventUpdate_setting ht]
    exact (held_setSetting s (.setting s)).trans (if_pos rfl)

end

theorem applies_remote (hr : Remote localDomains ev) (h : slotOf ev = some sl) :
    rs.applies localDomains ev = checkUpdate false ev (rs.slot sl) true := by
  obtain ⟨q, hq, hout⟩ := hr
  unfold applies
  rw [hq, getPreEvent_slot h]
  simp only [hout, decide_false]

variable (recover) in
/-- **A slot is a register** for the events of other servers. -/
theorem slot_onEvent (hrs : Filed rs) (hmap : rs.Mapped) (hr : Remote localDomains ev)
    (h : slotOf ev = some sl)
    (hm : ∀ user, sl = .member user → mapOf (membershipOf ev.content) ≠ none) :
    ∃ rs', rs.onEvent localDomains recover ev = some rs' ∧
      (sl.Open → rs'.slot sl = sl.offer (rs.slot sl) ev) ∧
      (¬ sl.Open → rs'.slot sl = rs.slot sl) := by
  obtain ⟨rs', hrs'⟩ := exists_onEvent rs localDomains recover h
  have hslot : ∀ ext : RoomStateExt, ({ rs with ext } : RoomServerState).slot sl = rs.slot sl := by
    intro ext
    cases sl with
    | setting s => cases s <;> rfl
    | member user => rfl
    | thirdInvite k => rfl
  refine ⟨rs', hrs', ?_⟩
  have happ : rs.applies localDomains ev = checkUpdate false ev (rs.slot sl) true :=
    applies_remote hr h
  rcases onEvent_eq_some hrs' with ⟨hno, ext, rfl⟩ | ⟨hyes, ext, rfl⟩
  · rw [hslot]
    refine ⟨fun _ => ?_, fun _ => rfl⟩
    rw [happ] at hno
    cases hcur : rs.slot sl with
    | none =>
      rw [hcur] at hno
      cases hno
    | some c =>
      rw [hcur] at hno
      refine (if_neg fun hc => ?_).symm
      simp only [checkUpdate, Bool.false_eq_true, if_false, Bool.true_and, Bool.and_eq_false_iff,
        decide_eq_false_iff_not, not_not] at hno
      exact hno.elim (absurd hc.1) hc.2
  · have hext : Mapped { rs with ext } := hmap.of_same fun _ => ⟨rfl, rfl, rfl⟩
    obtain ⟨hopen, hclosed⟩ := slot_onEventUpdate (hrs.ext ext) hext h hm
    rw [hslot ext] at hopen hclosed
    refine ⟨fun ho => (hopen ho).trans ?_, hclosed⟩
    rw [happ] at hyes
    cases hcur : rs.slot sl with
    | none => exact if_neg fun ⟨_, hc, _⟩ => nomatch hc
    | some c =>
      rw [hcur] at hyes
      simp only [checkUpdate, Bool.false_eq_true, if_false, Bool.true_and, Bool.and_eq_true,
        decide_eq_true_eq] at hyes
      refine Eq.trans ?_ (if_pos hyes).symm
      simp only [some.injEq, exists_eq_left']

/-! ## Runs -/

/-- Events of other servers with this slot; a member event has one of the memberships that the state
takes. -/
structure Slot.Takes (sl : Slot) (localDomains : List String) (ev : Event) : Prop where
  remote : Remote localDomains ev
  slot : slotOf ev = some sl
  membership : ∀ user, sl = .member user →
    membershipOf ev.content ∈ ["join", "invite", "leave", "ban"]

theorem mapOf_ne_none {membership : String}
    (h : membership ∈ ["join", "invite", "leave", "ban"]) : mapOf membership ≠ none := by
  simp only [mem_cons, not_mem_nil, or_false] at h
  rcases h with rfl | rfl | rfl | rfl <;> decide

theorem mapOf_eq_leave {membership : String} :
    mapOf membership = some .leave ↔ membership ∈ ["leave", "ban"] := by
  unfold mapOf
  split_ifs with hj hi hl <;> simp_all

theorem slot_run {l : List Event} (hrs : Filed rs) (hmap : rs.Mapped)
    (hl : ∀ ev ∈ l, sl.Takes localDomains ev) :
    ∃ rs', run (fun rs ev => rs.onEvent localDomains recover ev) rs l = some rs' ∧
      (sl.Open → rs'.slot sl = l.foldl sl.offer (rs.slot sl)) ∧
      (¬ sl.Open → rs'.slot sl = rs.slot sl) := by
  induction l generalizing rs with
  | nil => exact ⟨rs, rfl, fun _ => rfl, fun _ => rfl⟩
  | cons ev l ih =>
    have hev := hl ev mem_cons_self
    obtain ⟨rs₁, h₁, hopen₁, hclosed₁⟩ := slot_onEvent recover hrs hmap hev.remote hev.slot
      fun user hu => mapOf_ne_none (hev.membership user hu)
    obtain ⟨rs₂, h₂, hopen₂, hclosed₂⟩ := ih (hrs.onEvent h₁) (hmap.onEvent h₁)
      fun e he => hl e (mem_cons_of_mem ev he)
    refine ⟨rs₂, run_cons_eq_some.mpr ⟨rs₁, h₁, h₂⟩, fun ho => ?_, fun ho => ?_⟩
    · rw [hopen₂ ho, hopen₁ ho]
      rfl
    · rw [hclosed₂ ho, hclosed₁ ho]

section
variable {evs : List Event} {m : Event} (h : Reachable localDomains rs)
  (hevs : ∀ ev ∈ evs, sl.Takes localDomains ev)
include h hevs

theorem slot_converges_iff_offers (hempty : rs.slot sl = none) :
    (∀ l : List Event, l.Perm evs → ∃ rs',
      run (fun rs ev => rs.onEvent localDomains recover ev) rs l = some rs' ∧
        rs'.slot sl = some m) ↔
      sl.Open ∧ ∀ l : List Event, l.Perm evs → l.foldl sl.offer none = some m := by
  have hrun : ∀ l : List Event, l.Perm evs → ∃ rs',
      run (fun rs ev => rs.onEvent localDomains recover ev) rs l = some rs' ∧
        (sl.Open → rs'.slot sl = l.foldl sl.offer none) ∧ (¬ sl.Open → rs'.slot sl = none) := by
    intro l hperm
    rw [← hempty]
    exact slot_run (filed_of_reachable h) (mapped_of_reachable h) fun ev hev =>
      hevs ev (hperm.mem_iff.mp hev)
  constructor
  · intro hconv
    have hopen : sl.Open := by
      by_contra hno
      obtain ⟨rs', hr, hs⟩ := hconv evs (.refl evs)
      obtain ⟨rs₂, hr₂, -, hclosed⟩ := hrun evs (.refl evs)
      obtain rfl := some.inj (hr.symm.trans hr₂)
      cases (hclosed hno).symm.trans hs
    refine ⟨hopen, fun l hperm => ?_⟩
    obtain ⟨rs', hr, hs⟩ := hconv l hperm
    obtain ⟨rs₂, hr₂, hfold, -⟩ := hrun l hperm
    obtain rfl := some.inj (hr.symm.trans hr₂)
    exact (hfold hopen).symm.trans hs
  · rintro ⟨hopen, hfold⟩ l hperm
    obtain ⟨rs', hr, hs, -⟩ := hrun l hperm
    exact ⟨rs', hr, (hs hopen).trans (hfold l hperm)⟩

/-- **Events of other servers converge.** An empty slot ends with the newest of them in every order,
if and only if no other of them has its id and, for a member slot, the user id has a domain and the
newest one is not a ban beside a leave or another ban. -/
theorem slot_converges_iff (hts : (evs.map Event.originServerTS).Nodup)
    (hempty : rs.slot sl = none) (hm : m ∈ evs)
    (hmax : ∀ ev ∈ evs, ev.originServerTS ≤ m.originServerTS) :
    (∀ l : List Event, l.Perm evs → ∃ rs',
      run (fun rs ev => rs.onEvent localDomains recover ev) rs l = some rs' ∧
        rs'.slot sl = some m) ↔
      (∀ ev ∈ evs, ev ≠ m → ev.eventID ≠ m.eventID) ∧
        ∀ user, sl = .member user → (cut ':' user).isSome = true ∧
          ¬ (membershipOf m.content = "ban" ∧
            ∃ ev ∈ evs, ev ≠ m ∧ membershipOf ev.content ∈ ["leave", "ban"]) := by
  rw [slot_converges_iff_offers h hevs hempty,
    show (∀ l : List Event, l.Perm evs → l.foldl sl.offer none = some m) ↔ _ from
    Newest.foldl_offer_eq_iff hts hm hmax]
  constructor
  · rintro ⟨hopen, hno⟩
    refine ⟨fun ev hev hne => (hno ev hev hne).1, ?_⟩
    rintro user rfl
    refine ⟨hopen, ?_⟩
    rintro ⟨hban, ev, hev, hne, hl⟩
    exact (hno ev hev hne).2 ⟨hban, mapOf_eq_leave.mpr hl⟩
  · rintro ⟨hid, hmember⟩
    cases sl with
    | setting s | thirdInvite k => exact ⟨trivial, fun ev hev hne => ⟨hid ev hev hne, id⟩⟩
    | member user =>
      obtain ⟨hopen, hban⟩ := hmember user rfl
      refine ⟨hopen, fun ev hev hne => ⟨hid ev hev hne, fun hd => hban ?_⟩⟩
      exact ⟨hd.1, ev, hev, hne, mapOf_eq_leave.mp hd.2⟩

end

def fromBob (id : String) (type key : String) (content : List (String × String)) (ts : Int) :
    Event :=
  { event id "@b:y" type key content with originServerTS := ts }

def bobNames : List Event :=
  [fromBob "$5" "m.room.name" "" [("name", "one")] 1,
    fromBob "$6" "m.room.name" "" [("name", "two")] 2]

theorem slot_converges_name : Reachable ["x"] room₀ ∧ ∀ l : List Event, l.Perm bobNames → ∃ rs',
    run (fun rs ev => rs.onEvent ["x"] false ev) room₀ l = some rs' ∧
      rs'.slot (.setting .name) = some (fromBob "$6" "m.room.name" "" [("name", "two")] 2) := by
  have h : Reachable ["x"] room₀ := reachable_of_run aliceRoom rfl
  have hevs : ∀ ev ∈ bobNames, (Slot.setting .name).Takes ["x"] ev := by
    intro ev hev
    simp only [bobNames, mem_cons, not_mem_nil, or_false] at hev
    rcases hev with rfl | rfl <;> exact ⟨⟨_, rfl, by decide⟩, rfl, nofun⟩
  refine ⟨h, (slot_converges_iff h hevs (by decide) rfl (by simp [bobNames]) ?_).mpr ⟨?_, nofun⟩⟩
  · intro ev hev
    simp only [bobNames, mem_cons, not_mem_nil, or_false] at hev
    rcases hev with rfl | rfl <;> decide
  · intro ev hev hne
    simp only [bobNames, mem_cons, not_mem_nil, or_false] at hev
    rcases hev with rfl | rfl
    · decide
    · exact absurd rfl hne

def bobLeaves : Event := fromBob "$5" MRoomMember "@b:y" [("membership", "leave")] 1
def bobBanned : Event := fromBob "$6" MRoomMember "@b:y" [("membership", "ban")] 2

/-- In the order of their time stamps, the two events leave Bob's slot empty; in the other order it
has the ban. -/
theorem ban_after_leave_lost :
    Reachable ["x"] room₀ ∧ room₀.slot (.member "@b:y") = none ∧
      (∀ ev ∈ [bobLeaves, bobBanned], (Slot.member "@b:y").Takes ["x"] ev) ∧
      ([bobLeaves, bobBanned].map Event.originServerTS).Nodup ∧
      (∃ rs', run (fun rs ev => rs.onEvent ["x"] false ev) room₀ [bobLeaves, bobBanned] = some rs' ∧
        rs'.slot (.member "@b:y") = none) ∧
      ∃ rs', run (fun rs ev => rs.onEvent ["x"] false ev) room₀ [bobBanned, bobLeaves] = some rs' ∧
        rs'.slot (.member "@b:y") = some bobBanned := by
  refine ⟨reachable_of_run aliceRoom rfl, rfl, fun ev hev => ?_, by decide, ⟨_, rfl, rfl⟩,
    ⟨_, rfl, rfl⟩⟩
  simp only [mem_cons, not_mem_nil, or_false] at hev
  rcases hev with rfl | rfl
  all_goals exact ⟨⟨_, rfl, by decide⟩, rfl, fun _ _ => by decide⟩

end Ligase.Room

import Ligase.Room.Converge
import Ligase.Room.Timed

/-!
# Events entered again

Events of different slots are entered one after another, ordered by their numbers, in a state that
has none of the slots.

* `onEvent_fresh`: one event that replaces nothing.
* `replay`: what the events leave at each place and in each time line.
* `bounds_replay`: each time line ends with the newest event of its domain.
-/

namespace Ligase.Room

open Lib Auth RoomServerState List Option

variable {eventNID : Event → Int} {localDomains : List String} {rs rs' : RoomServerState}
  {t : TimedState} {ev e : Event} {p q : Place} {sl : Slot}

/-! ## One event of a replay -/

def Place.slot : Place → Slot
  | .setting s => .setting s
  | .member _ user => .member user
  | .thirdInvite k => .thirdInvite k

theorem slot_eq_none : rs.slot sl = none ↔ ∀ p : Place, p.slot = sl → rs.held p = none := by
  cases sl with
  | setting s =>
    refine ⟨fun h p hp => ?_, fun h => h (.setting s) rfl⟩
    cases p <;> cases hp
    exact h
  | member user =>
    refine ⟨fun h p hp => ?_, fun h => ?_⟩
    · cases p with
      | member m u =>
        cases hp
        obtain ⟨hj, h⟩ := or_eq_none_iff.mp h
        obtain ⟨hl, hi⟩ := or_eq_none_iff.mp h
        cases m with
        | join => exact hj
        | leave => exact hl
        | invite => exact hi
      | setting s => cases hp
      | thirdInvite k => cases hp
    · have hmap : ∀ m, rs.map m user = none := fun m => h (.member m user) rfl
      exact or_eq_none_iff.mpr ⟨hmap .join, or_eq_none_iff.mpr ⟨hmap .leave, hmap .invite⟩⟩
  | thirdInvite k =>
    refine ⟨fun h p hp => ?_, fun h => h (.thirdInvite k) rfl⟩
    cases p <;> cases hp
    exact h

theorem slotOf_of_placeOf (h : placeOf ev = some p) : slotOf ev = some p.slot := by
  unfold placeOf at h
  unfold slotOf
  split_ifs at h ⊢ with hm ht
  · obtain ⟨u, hk, hu⟩ := bind_eq_some_iff.mp h
    obtain ⟨m, -, rfl⟩ := map_eq_some_iff.mp hu
    rw [hk]
    rfl
  · obtain ⟨k, hk, rfl⟩ := map_eq_some_iff.mp h
    rw [hk]
    rfl
  · obtain ⟨s, hs, rfl⟩ := map_eq_some_iff.mp h
    rw [hs]
    rfl

/-- Joins, leaves and bans use up the invite by address with the same key. -/
def usesUp (ev : Event) : Place → Bool
  | .thirdInvite k => placeOf ev = some (.member .join k) || placeOf ev = some (.member .leave k)
  | _ => false

def effect (q : Place) (cur : Option Event) (ev : Event) : Option Event :=
  if placeOf ev = some q then some ev else if usesUp ev q then none else cur

theorem effect_eq (hp : placeOf ev = some p) (hm : ∀ m user, p ≠ .member m user)
    (cur : Option Event) : effect q cur ev = if q = p then some ev else cur := by
  have hu : usesUp ev q = false := by
    cases q with
    | thirdInvite k =>
      rw [usesUp, hp]
      simp_all
    | setting s => rfl
    | member m user => rfl
  unfold effect
  rw [hp, hu]
  exact if_congr ⟨fun h => (some.inj h).symm, fun h => h ▸ rfl⟩ rfl rfl

theorem applies_of_fresh (hp : placeOf ev = some p) (hs : (cut ':' ev.sender).isSome = true)
    (hfresh : rs.slot p.slot = none) : rs.applies localDomains ev = true := by
  obtain ⟨q, hq⟩ := isSome_iff_exists.mp hs
  unfold applies
  rw [hq, getPreEvent_slot (slotOf_of_placeOf hp), hfresh]
  simp [checkUpdate]

theorem held_onMemberEv_fresh (hmap : rs.Mapped) {m : MemberMap} {user : String}
    (hp : placeOf ev = some (.member m user)) (hc : (cut ':' user).isSome = true)
    (hfresh : rs.slot (.member user) = none) (q : Place) :
    (rs.onMemberEv ev user).held q = effect q (rs.held q) ev := by
  obtain ⟨-, -, hm⟩ := placeOf_eq_member hp
  unfold effect
  rw [hp]
  cases q with
  | setting s => exact setting_onMemberEv user s
  | thirdInvite k =>
    show (rs.onMemberEv ev user).thirdInvite k = _
    rw [thirdInvite_onMemberEv, hm]
    simp only [usesUp, hp, some.injEq, Place.member.injEq, reduceCtorEq, if_false, hc,
      true_and, Bool.or_eq_true, decide_eq_true_eq]
    refine if_congr ⟨?_, ?_⟩ rfl rfl
    · rintro ⟨rfl, h | h⟩
      · exact .inl ⟨h, rfl⟩
      · exact .inr ⟨h, rfl⟩
    · rintro (⟨h, rfl⟩ | ⟨h, rfl⟩)
      · exact ⟨rfl, .inl h⟩
      · exact ⟨rfl, .inr h⟩
  | member m' u =>
    show (rs.onMemberEv ev user).map m' u = _
    by_cases hu : u = user
    · subst hu
      obtain ⟨c, hc⟩ := isSome_iff_exists.mp hc
      have hnone : ∀ m, rs.map m u = none := fun m => slot_eq_none.mp hfresh (.member m u) rfl
      have hleave : rs.leave u = none := hnone .leave
      rw [map_onMemberEv hmap hc, hm, hleave]
      simp [usesUp, held, hnone]
    · rw [(sameMember_onMemberEv hu).map, if_neg fun h => hu (by cases h; rfl)]
      rfl

theorem held_onEventUpdate_fresh (hmap : rs.Mapped) (hp : placeOf ev = some p)
    (hopen : p.slot.Open) (hfresh : rs.slot p.slot = none) (q : Place) :
    (rs.onEventUpdate ev (ev.stateKey.getD "")).held q = effect q (rs.held q) ev := by
  have hslot := slotOf_of_placeOf hp
  cases p with
  | member m user =>
    obtain ⟨ht, hk, -⟩ := placeOf_eq_member hp
    rw [onEventUpdate_member ht, hk]
    exact held_onMemberEv_fresh hmap hp hopen hfresh q
  | thirdInvite k =>
    obtain ⟨ht, hk⟩ : ev.type = MRoomThirdPartyInvite ∧ ev.stateKey = some k := by
      rcases slotOf_eq_some hslot with ⟨_, h, -⟩ | ⟨_, h, hty⟩ | ⟨_, h, -⟩ <;> cases h
      exact hty
    rw [hk, getD_some, held_onEventUpdate_thirdInvite ht, effect_eq hp nofun]
  | setting s =>
    have ht : ev.type = s.type := by
      rcases slotOf_eq_some hslot with ⟨_, h, -⟩ | ⟨_, h, -⟩ | ⟨_, h, hty⟩ <;> cases h
      exact hty
    rw [onEventUpdate_setting ht, held_setSetting, effect_eq hp nofun]

theorem onEvent_fresh (hmap : rs.Mapped) (hp : placeOf ev = some p)
    (hs : (cut ':' ev.sender).isSome = true) (hopen : p.slot.Open)
    (hfresh : rs.slot p.slot = none) :
    ∃ rs', rs.onEvent localDomains true ev = some rs' ∧
      ∀ q, rs'.held q = effect q (rs.held q) ev := by
  obtain ⟨rs', hrs'⟩ := exists_onEvent rs localDomains true (slotOf_of_placeOf hp)
  refine ⟨rs', hrs', fun q => ?_⟩
  rcases onEvent_eq_some hrs' with ⟨hno, -⟩ | ⟨-, ext, rfl⟩
  · cases hno.symm.trans (applies_of_fresh hp hs hfresh)
  · have hnone := slot_eq_none.mpr fun p' hp' => (held_ext ext p').trans (slot_eq_none.mp hfresh p'
      hp')
    have hext : Mapped { rs with ext } := hmap.of_same fun _ => ⟨rfl, rfl, rfl⟩
    exact (held_onEventUpdate_fresh hext hp hopen hnone q).trans
      (congrArg (effect q · ev) (held_ext ext q))

/-! ## Replays -/

structure Ready (rs : RoomServerState) (ev : Event) (p : Place) : Prop where
  place : placeOf ev = some p
  sender : (cut ':' ev.sender).isSome = true
  target : p.slot.Open
  fresh : rs.slot p.slot = none

theorem Ready.onEvent (hev : Ready rs ev p) (h : ∀ q, rs'.held q = effect q (rs.held q) e)
    (hne : ∀ q, placeOf e = some q → q.slot ≠ p.slot) : Ready rs' ev p where
  place := hev.place
  sender := hev.sender
  target := hev.target
  fresh := by
    refine slot_eq_none.mpr fun q hq => ?_
    rw [h, effect, if_neg fun he => hne q he hq, slot_eq_none.mp hev.fresh q hq, ite_self]

variable {L : List Event}

theorem replay (hmap : t.rs.Mapped) (hready : ∀ ev ∈ L, ∃ p, Ready t.rs ev p)
    (hslots : L.Pairwise fun a b => slotOf a ≠ slotOf b) :
    ∃ t', run (fun t ev => t.onEvent eventNID localDomains true ev) t L = some t' ∧
      (∀ q, t'.rs.held q = L.foldl (effect q) (t.rs.held q)) ∧
      t'.domainTl = L.foldl (DomainTl.entered eventNID) t.domainTl := by
  induction L generalizing t with
  | nil => exact ⟨t, rfl, fun _ => rfl, rfl⟩
  | cons ev L ih =>
    obtain ⟨hne, hslots⟩ := pairwise_cons.mp hslots
    obtain ⟨p, hev⟩ := hready ev mem_cons_self
    obtain ⟨rs₁, hrs₁, hheld⟩ := onEvent_fresh hmap hev.place hev.sender hev.target hev.fresh
    have happ : t.rs.applies localDomains ev = true :=
      applies_of_fresh hev.place hev.sender hev.fresh
    have hstep : t.onEvent eventNID localDomains true ev =
        some ⟨rs₁, t.domainTl.entered eventNID ev⟩ := by
      rw [TimedState.onEvent, hrs₁, happ]
      rfl
    obtain ⟨t', hrun, hfold, htl⟩ := @ih ⟨rs₁, t.domainTl.entered eventNID ev⟩
      (hmap.onEvent hrs₁) (fun e he => by
        obtain ⟨p', he'⟩ := hready e (mem_cons_of_mem ev he)
        refine ⟨p', he'.onEvent hheld fun q hq hslot => hne e he ?_⟩
        rw [slotOf_of_placeOf hq, slotOf_of_placeOf he'.place, hslot]) hslots
    refine ⟨t', run_cons_eq_some.mpr ⟨_, hstep, hrun⟩, fun q => ?_, htl⟩
    rw [hfold]
    exact congrArg (fun o => L.foldl (effect q) o) (hheld q)

/-! ### Places after a replay -/

theorem foldl_effect_of_untouched (h : ∀ ev ∈ L, placeOf ev ≠ some q ∧ usesUp ev q = false)
    (cur : Option Event) : L.foldl (effect q) cur = cur := by
  induction L with
  | nil => rfl
  | cons ev L ih =>
    obtain ⟨hp, hu⟩ := h ev mem_cons_self
    rw [foldl_cons, effect, if_neg hp, hu]
    exact ih fun e he => h e (mem_cons_of_mem ev he)

theorem foldl_effect_none (h : ∀ ev ∈ L, placeOf ev ≠ some q) : L.foldl (effect q) none = none := by
  induction L with
  | nil => rfl
  | cons ev L ih =>
    rw [foldl_cons, effect, if_neg (h ev mem_cons_self), ite_self]
    exact ih fun e he => h e (mem_cons_of_mem ev he)

theorem foldl_effect_last {l₁ l₂ : List Event}
    (h : ∀ ev ∈ l₂, placeOf ev ≠ some q ∧ usesUp ev q = false) (cur : Option Event) :
    (l₁ ++ e :: l₂).foldl (effect q) cur = effect q (l₁.foldl (effect q) cur) e := by
  rw [foldl_append, foldl_cons, foldl_effect_of_untouched h]

/-! ### Time lines after a replay -/

theorem upper_add {f : Feeds} {n : Int} (hle : f.lower ≤ f.upper)
    (hn : f.lower ≠ 0 → f.upper ≤ n) : (f.add n).lower ≤ n ∧ (f.add n).upper = n := by
  unfold Feeds.add
  split_ifs with h₁ h₂ h₃
  · exact ⟨Int.le_refl n, rfl⟩
  · omega
  · exact ⟨by have := hn h₁; simp only; omega, rfl⟩
  · omega

section
variable (eventNID : Event → Int)

def sent (P : Event → Prop) (d : String) : Set Int :=
  {n | ∃ e, P e ∧ senderDomain e = some d ∧ eventNID e = n}

/-- The time line of a domain ends with the newest of the events; one made for a target only is
empty. -/
def Ends (P : Event → Prop) (d : String) (n : Int) : Prop :=
  IsGreatest (sent eventNID P d) n ∨
    n = 0 ∧ sent eventNID P d = ∅ ∧ ∃ e, P e ∧ targetDomain e = some d

/-- What a replay makes of a time line. -/
def Bounds (P : Event → Prop) (d : String) : Option Feeds → Prop
  | some f =>
    IsGreatest (sent eventNID P d) f.upper ∧ f.lower ≤ f.upper ∨
      f = .empty ∧ sent eventNID P d = ∅ ∧ ∃ e, P e ∧ targetDomain e = some d
  | none => sent eventNID P d = ∅ ∧ ¬ ∃ e, P e ∧ targetDomain e = some d

end

theorem Ends.unique {P : Event → Prop} {d : String} {m n : Int} (hm : Ends eventNID P d m)
    (hn : Ends eventNID P d n) : m = n := by
  rcases hm with hm | ⟨rfl, hm, -⟩ <;> rcases hn with hn | ⟨rfl, hn, -⟩
  · exact hm.unique hn
  · exact absurd (hn ▸ hm.1) (Set.notMem_empty m)
  · exact absurd (hm ▸ hn.1) (Set.notMem_empty n)
  · rfl

theorem Bounds.ends_iff {P : Event → Prop} {d : String} {o : Option Feeds}
    (h : Bounds eventNID P d o) (n : Int) : o.map Feeds.upper = some n ↔ Ends eventNID P d n := by
  cases o with
  | none =>
    refine ⟨nofun, ?_⟩
    rintro (hn | ⟨-, -, ht⟩)
    · exact absurd (h.1 ▸ hn.1) (Set.notMem_empty n)
    · exact absurd ht h.2
  | some f =>
    have hf : Ends eventNID P d f.upper := by
      rcases h with ⟨hmax, -⟩ | ⟨rfl, hno, ht⟩
      · exact .inl hmax
      · exact .inr ⟨rfl, hno, ht⟩
    refine ⟨fun h => some.inj h ▸ hf, fun hn => congrArg some (hf.unique hn)⟩

theorem sent_concat (d : String) :
    sent eventNID (· ∈ L ++ [ev]) d =
      if senderDomain ev = some d then insert (eventNID ev) (sent eventNID (· ∈ L) d)
      else sent eventNID (· ∈ L) d := by
  ext n
  split_ifs with h
  · simp only [sent, Set.mem_ofPred_eq, mem_append, mem_singleton, Set.mem_insert_iff]
    grind
  · simp only [sent, Set.mem_ofPred_eq, mem_append, mem_singleton]
    grind

theorem bounds_replay (hs : ∀ e ∈ L, (senderDomain e).isSome = true)
    (hsorted : L.Pairwise fun a b => eventNID a ≤ eventNID b) (d : String) :
    Bounds eventNID (· ∈ L) d (L.foldl (DomainTl.entered eventNID) (fun _ => none) d) := by
  induction L using reverseRecOn with
  | nil => exact ⟨by simp [sent], by simp⟩
  | append_singleton L ev ih =>
    obtain ⟨hsorted, -, hle⟩ := pairwise_append.mp hsorted
    have ih := ih (fun e he => hs e (mem_append_left _ he)) hsorted
    rw [foldl_append, foldl_cons, foldl_nil,
      entered_apply (hs ev (mem_append_right _ mem_cons_self))]
    generalize L.foldl (DomainTl.entered eventNID) (fun _ => none) = tl at ih ⊢
    have htarget : (∃ e, e ∈ L ++ [ev] ∧ targetDomain e = some d) ↔
        (∃ e, e ∈ L ∧ targetDomain e = some d) ∨ targetDomain ev = some d := by
      grind
    by_cases hd : senderDomain ev = some d
    · have hbelow : ∀ n ∈ sent eventNID (· ∈ L) d, n ≤ eventNID ev := by
        rintro n ⟨e, he, -, rfl⟩
        exact hle e he ev mem_cons_self
      obtain ⟨hlower, hupper⟩ : ((tl.getDomainTL d).add (eventNID ev)).lower ≤ eventNID ev ∧
          ((tl.getDomainTL d).add (eventNID ev)).upper = eventNID ev := by
        unfold DomainTl.getDomainTL
        cases htl : tl d with
        | none => exact ⟨Int.le_refl _, rfl⟩
        | some f =>
          rw [htl] at ih
          rcases ih with ⟨hmax, hf⟩ | ⟨rfl, -⟩
          · exact upper_add hf fun _ => hbelow _ hmax.1
          · exact ⟨Int.le_refl _, rfl⟩
      rw [if_pos hd]
      refine .inl ⟨?_, hlower.trans hupper.ge⟩
      rw [hupper, sent_concat, if_pos hd]
      exact ⟨Set.mem_insert _ _, fun n hn => hn.elim (fun h => h.le) (hbelow n)⟩
    · rw [if_neg hd]
      by_cases ht : targetDomain ev = some d
      · rw [if_pos ht]
        unfold DomainTl.getDomainTL
        cases htl : tl d with
        | none =>
          rw [htl] at ih
          refine .inr ⟨rfl, ?_, htarget.mpr (.inr ht)⟩
          rw [sent_concat, if_neg hd, ih.1]
        | some f =>
          rw [htl] at ih
          rcases ih with ⟨hmax, hf⟩ | ⟨hf, hno, -⟩
          · exact .inl ⟨by rwa [sent_concat, if_neg hd], hf⟩
          · exact .inr ⟨hf, by rwa [sent_concat, if_neg hd], htarget.mpr (.inr ht)⟩
      · rw [if_neg ht]
        unfold Bounds at ih ⊢
        simpa only [sent_concat, if_neg hd, htarget, ht, or_false] using ih

end Ligase.Room

import Ligase.Sync.Backfill

/-!
# Insertions into ranges

An insertion leaves the ranges as they are but for one place: a range there gets an end or is cut in
two, or a new one is put there.

* **`placed_insertIntoRanges`**, `ids_insertIntoRanges`: the pointers stay, and at most one is new.
-/

namespace Ligase.Sync

open PointerState List Option

/-! ## The places that are found -/

def Slot.Holds (v : Slot) (isRef : Bool) (ts : Int) : Prop :=
  v.isRef = isRef ∧ v.start ≤ ts ∧ (ts < v.stop ∨ v.stop = -1)

section
variable {rs : PointerState} {ranges : List Slot} {v w : Slot} {i : Nat} {ts : Int} {isRef : Bool}
  {new : Option Nat}

theorem eq_of_getElem?_eq_some (h : ranges[i]? = some v) :
    ranges = ranges.take i ++ v :: ranges.drop (i + 1) := by
  obtain ⟨hi, rfl⟩ := List.getElem?_eq_some_iff.mp h
  rw [← drop_eq_getElem_cons hi, take_append_drop]

theorem findRangeIdx_spec (h : findRangeIdx ranges ts isRef = some (v, i)) :
    ranges[i]? = some v ∧ v.Holds isRef ts := by
  refine ⟨mem_zipIdx_iff_getElem?.mp (mem_of_find?_eq_some h), ?_⟩
  have hp := find?_some h
  simp only [Bool.and_eq_true, Bool.or_eq_true, decide_eq_true_eq] at hp
  exact ⟨hp.1.1, hp.1.2, hp.2⟩

theorem not_holds_of_findRangeIdx (h : findRangeIdx ranges ts isRef = none) :
    ∀ w ∈ ranges, ¬w.Holds isRef ts := by
  intro w hw hin
  obtain ⟨i, hi⟩ := mem_iff_getElem?.mp hw
  have hp := find?_eq_none.mp h (w, i) (mem_zipIdx_iff_getElem?.mpr hi)
  simp only [Bool.and_eq_true, Bool.or_eq_true, decide_eq_true_eq] at hp
  exact hp ⟨⟨hin.1, hin.2.1⟩, hin.2.2⟩

section
variable {α : Type*} {f : Option α → α → Option α} {p : α → Prop} {q : Prop} {k : α → Int}

/-- A loop that keeps the best element so far finds the best one; `q` is what its comparison rests
on. -/
theorem foldl_search (hf : ∀ cur x, (∀ c ∈ cur, p c) →
      p x ∧ f cur x = some x ∧ (q → ∀ c ∈ cur, k x ≤ k c) ∨
        f cur x = cur ∧ (p x → ∃ c ∈ cur, q → k c ≤ k x)) (l : List α) (cur : Option α)
    (hcur : ∀ c ∈ cur, p c) : (l.foldl f cur = cur ∨ ∃ y ∈ l, p y ∧ l.foldl f cur = some y) ∧
      ∀ x, x ∈ cur ∨ x ∈ l ∧ p x → ∃ y ∈ l.foldl f cur, q → k y ≤ k x := by
  induction l generalizing cur with
  | nil =>
    refine ⟨.inl rfl, fun x hx => ?_⟩
    exact ⟨x, hx.resolve_right fun h => not_mem_nil h.1, fun _ => Int.le_refl _⟩
  | cons a l ih =>
    rw [foldl_cons]
    rcases hf cur a hcur with ⟨hpa, he, hbetter⟩ | ⟨he, hworse⟩
    · obtain ⟨hfound, hbest⟩ := ih (some a) (by simpa using hpa)
      rw [he]
      refine ⟨.inr ?_, ?_⟩
      · rcases hfound with h | ⟨y, hy, h⟩
        · exact ⟨a, mem_cons_self, hpa, h⟩
        · exact ⟨y, mem_cons_of_mem _ hy, h⟩
      · rintro x (hx | ⟨hx, hpx⟩)
        · obtain ⟨y, hy, hle⟩ := hbest a (.inl rfl)
          exact ⟨y, hy, fun hq => Int.le_trans (hle hq) (hbetter hq x hx)⟩
        · rcases mem_cons.mp hx with rfl | hx
          · exact hbest x (.inl rfl)
          · exact hbest x (.inr ⟨hx, hpx⟩)
    · obtain ⟨hfound, hbest⟩ := ih cur hcur
      rw [he]
      refine ⟨hfound.imp id fun ⟨y, hy, h⟩ => ⟨y, mem_cons_of_mem _ hy, h⟩, ?_⟩
      rintro x (hx | ⟨hx, hpx⟩)
      · exact hbest x (.inl hx)
      · rcases mem_cons.mp hx with rfl | hx
        · obtain ⟨c, hc, hle⟩ := hworse hpx
          obtain ⟨y, hy, hle'⟩ := hbest c (.inl hc)
          exact ⟨y, hy, fun hq => Int.le_trans (hle' hq) (hle hq)⟩
        · exact hbest x (.inr ⟨hx, hpx⟩)

end

theorem zipIdx_search {f : Option (Slot × Nat) → Slot × Nat → Option (Slot × Nat)} {p : Slot → Prop}
    {q : Prop} {k : Slot → Int} (hf : ∀ cur x, (∀ c ∈ cur, p c.1) →
      p x.1 ∧ f cur x = some x ∧ (q → ∀ c ∈ cur, k x.1 ≤ k c.1) ∨
        f cur x = cur ∧ (p x.1 → ∃ c ∈ cur, q → k c.1 ≤ k x.1)) :
    (∀ v i, ranges.zipIdx.foldl f none = some (v, i) → ranges[i]? = some v ∧ p v ∧
      (q → ∀ w ∈ ranges, p w → k v ≤ k w)) ∧
    (ranges.zipIdx.foldl f none = none → ∀ w ∈ ranges, ¬ p w) := by
  obtain ⟨hfound, hbest⟩ := foldl_search hf ranges.zipIdx none nofun
  have hmem : ∀ {w}, w ∈ ranges → ∃ i, (w, i) ∈ ranges.zipIdx := fun hw =>
    (mem_iff_getElem?.mp hw).imp fun _ => mem_zipIdx_iff_getElem?.mpr
  refine ⟨fun v i h => ?_, fun h w hw hp => ?_⟩
  · rw [h] at hfound hbest
    obtain ⟨y, hy, hp, he⟩ := hfound.resolve_left nofun
    obtain rfl := some.inj he
    refine ⟨mem_zipIdx_iff_getElem?.mp hy, hp, fun hq w hw hpw => ?_⟩
    obtain ⟨j, hj⟩ := hmem hw
    obtain ⟨y, hy, hle⟩ := hbest (w, j) (.inr ⟨hj, hpw⟩)
    obtain rfl := some.inj hy
    exact hle hq
  · obtain ⟨j, hj⟩ := hmem hw
    obtain ⟨y, hy, -⟩ := hbest (w, j) (.inr ⟨hj, hp⟩)
    exact absurd (h ▸ hy) (not_mem_none _)

theorem minStartIdx_spec :
    (∀ v i, minStartIdx ranges ts = some (v, i) → ranges[i]? = some v ∧ ts ≤ v.start ∧
      (0 ≤ ts → ∀ w ∈ ranges, ts ≤ w.start → v.start ≤ w.start)) ∧
    (minStartIdx ranges ts = none → ∀ w ∈ ranges, ¬ ts ≤ w.start) := by
  refine zipIdx_search fun cur x hcur => ?_
  unfold minStartStep
  dsimp only
  split_ifs with h
  · refine .inl ⟨h.1, rfl, fun hts c hc => ?_⟩
    have hle := hcur c hc
    obtain rfl := mem_def.mp hc
    simp only [map_some, getD_some] at h
    omega
  · refine .inr ⟨rfl, fun hx => ?_⟩
    cases cur with
    | none => exact absurd ⟨hx, .inr rfl⟩ h
    | some c =>
      simp only [map_some, getD_some] at h
      exact ⟨c, rfl, fun _ => by omega⟩

theorem maxStopIdx_spec : (∀ v i, maxStopIdx ranges ts = some (v, i) → ranges[i]? = some v ∧
      (v.stop ≠ -1 ∧ v.stop < ts) ∧
      (True → ∀ w ∈ ranges, w.stop ≠ -1 ∧ w.stop < ts → -v.stop ≤ -w.stop)) ∧
    (maxStopIdx ranges ts = none → ∀ w ∈ ranges, ¬ (w.stop ≠ -1 ∧ w.stop < ts)) := by
  refine zipIdx_search fun cur x hcur => ?_
  unfold maxStopStep
  dsimp only
  split_ifs with h
  · refine .inl ⟨⟨h.1, h.2.1⟩, rfl, fun _ c hc => ?_⟩
    have hne := hcur c hc
    obtain rfl := mem_def.mp hc
    simp only [map_some, getD_some] at h
    omega
  · refine .inr ⟨rfl, fun hx => ?_⟩
    cases cur with
    | none => exact absurd ⟨hx.1, hx.2, .inr rfl⟩ h
    | some c =>
      simp only [map_some, getD_some] at h
      exact ⟨c, rfl, fun _ => by omega⟩

end

/-! ## What an insertion does -/

section
variable (rs : PointerState) (ranges : List Slot) (new : Option Nat) (ts : Int)

/-- The start of a range is set, a range is cut, a range is put before the next one or at the end.
-/
inductive Opened : Inserted → Prop
  | start {before after : List Slot} {v : Slot} (heq : ranges = before ++ v :: after)
      (hin : v.Holds new.isSome ts) (hmask : v.cell.pairMask = .stop) :
      Opened ⟨before ++ ⟨v.id, ⟨⟨ts, v.stop⟩, .both⟩⟩ :: after, false, false⟩
  | cut {before after : List Slot} {v : Slot} {mask : PairMask}
      (heq : ranges = before ++ v :: after) (hin : v.Holds new.isSome ts)
      (hmask : mask = if v.cell.pairMask = .start then PairMask.start else .both) :
      Opened ⟨before ++ ⟨v.id, ⟨⟨v.start, ts - 1⟩, .start⟩⟩ :: ⟨new, ⟨⟨ts, v.stop⟩, mask⟩⟩ :: after,
        after.isEmpty && mask = .start, true⟩
  | upTo {before after : List Slot} {v : Slot} (heq : ranges = before ++ v :: after)
      (hout : ∀ w ∈ ranges, ¬w.Holds new.isSome ts) (hle : ts ≤ v.start)
      (hleast : 0 ≤ ts → ∀ w ∈ ranges, ts ≤ w.start → v.start ≤ w.start) :
      Opened ⟨before ++ ⟨new, ⟨⟨ts, v.start - 1⟩, .start⟩⟩ :: v :: after, false, true⟩
  | last (hout : ∀ w ∈ ranges, ¬w.Holds new.isSome ts)
      (hlast : 0 ≤ ts → ∀ w ∈ ranges, w.start < ts) :
      Opened ⟨ranges ++ [⟨new,
        if new.isSome ∧ rs.historyVisibility = "joined" ∧ ts < rs.historyVisibilityPos then
          ⟨⟨ts, rs.historyVisibilityPos⟩, .both⟩
        else ⟨⟨ts, -1⟩, .start⟩⟩], true, true⟩

theorem insertOpen_spec : Opened rs ranges new ts (rs.insertOpen ranges new ts) := by
  unfold insertOpen
  cases hf : findRangeIdx ranges ts new.isSome with
  | some found =>
    obtain ⟨v, i⟩ := found
    obtain ⟨hi, hin⟩ := findRangeIdx_spec hf
    have heq := eq_of_getElem?_eq_some hi
    by_cases hm : v.cell.pairMask = .stop
    · simp only [hm, if_true, append_assoc, singleton_append]
      exact .start heq hin hm
    · simp only [hm, if_false, append_assoc, cons_append, nil_append]
      exact .cut heq hin rfl
  | none =>
    have hout := not_holds_of_findRangeIdx hf
    cases hm : minStartIdx ranges ts with
    | some found =>
      obtain ⟨v, i⟩ := found
      obtain ⟨hi, hle, hleast⟩ := minStartIdx_spec.1 v i hm
      have heq := eq_of_getElem?_eq_some hi
      have hdrop : ranges.drop i = v :: ranges.drop (i + 1) := by
        obtain ⟨hlt, rfl⟩ := List.getElem?_eq_some_iff.mp hi
        exact drop_eq_getElem_cons hlt
      simp only [hdrop, append_assoc, singleton_append]
      exact .upTo heq hout hle hleast
    | none => exact .last hout fun _ w hw => Int.not_le.mp (minStartIdx_spec.2 hm w hw)

end

section
variable {rs : PointerState} {ranges : List Slot} {v : Slot} {ts : Int} {new : Option Nat}
  {ins : Inserted}

/-! ## Pointers -/

/-- The ranges are changed in one place: at most one range, that holds the position, is written, and
the pointers stay but for a new one if the flag is set. -/
structure Placed (ranges : List Slot) (new : Option Nat) (ts : Int) (ins : Inserted)
    (before old mid after : List Slot) : Prop where
  eq : ranges = before ++ old ++ after
  ranges_eq : ins.ranges = before ++ mid ++ after
  holds : ∀ v ∈ old, v.Holds new.isSome ts
  ids : mid.map Slot.id = old.map Slot.id ∨ ins.isAppend = true ∧
    (mid.map Slot.id = old.map Slot.id ++ [new] ∨ mid.map Slot.id = new :: old.map Slot.id)

theorem Opened.placed (h : Opened rs ranges new ts ins) :
    ∃ before old mid after, Placed ranges new ts ins before old mid after := by
  cases h with
  | @start before after v heq hin =>
    exact ⟨before, [v], [_], after, heq.trans (append_cons ..), append_cons ..,
      forall_mem_singleton.mpr hin, .inl rfl⟩
  | @cut before after v mask heq hin =>
    exact ⟨before, [v], [_, _], after, heq.trans (append_cons ..),
      (append_assoc before [_, _] after).symm, forall_mem_singleton.mpr hin,
      .inr ⟨rfl, .inl rfl⟩⟩
  | @upTo before after v heq =>
    exact ⟨before, [], [_], v :: after, by rw [heq, append_nil], append_cons ..,
      forall_mem_nil _, .inr ⟨rfl, .inl rfl⟩⟩
  | last =>
    exact ⟨ranges, [], [_], [], by simp, (append_nil _).symm, forall_mem_nil _,
      .inr ⟨rfl, .inl rfl⟩⟩

theorem placed_insertClose : ∃ before old mid after,
    Placed ranges new ts (rs.insertClose ranges new ts) before old mid after := by
  unfold insertClose
  cases hf : findRangeIdx ranges ts new.isSome with
  | some found =>
    obtain ⟨v, i⟩ := found
    obtain ⟨hi, hin⟩ := findRangeIdx_spec hf
    have heq := (eq_of_getElem?_eq_some hi).trans (append_cons ..)
    dsimp only
    by_cases hm : v.cell.pairMask = .start
    · rw [if_pos hm]
      exact ⟨_, [v], [_], _, heq, rfl, forall_mem_singleton.mpr hin, .inl rfl⟩
    · rw [if_neg hm]
      exact ⟨_, [v], [_, _], _, heq, rfl, forall_mem_singleton.mpr hin, .inr ⟨rfl, .inr rfl⟩⟩
  | none =>
    exact ⟨_, [], [_], _, by rw [append_nil, take_append_drop], rfl, forall_mem_nil _,
      .inr ⟨rfl, .inl rfl⟩⟩

theorem placed_insertIntoRanges (rs : PointerState) (ranges : List Slot) (new : Option Nat)
    (ts : Int) (openClose : OpenClose) : ∃ before old mid after,
      Placed ranges new ts (rs.insertIntoRanges ranges new ts openClose) before old mid after := by
  cases openClose with
  | neither => exact ⟨ranges, [], [], [], by simp, by simp [insertIntoRanges], by simp, .inl rfl⟩
  | opens => exact (insertOpen_spec rs ranges new ts).placed
  | closes => exact placed_insertClose

theorem ids_insertIntoRanges (rs : PointerState) (ranges : List Slot) (new : Option Nat) (ts : Int)
    (openClose : OpenClose) :
    ((rs.insertIntoRanges ranges new ts openClose).ranges.map Slot.id).Perm (ranges.map Slot.id) ∨
      (rs.insertIntoRanges ranges new ts openClose).isAppend = true ∧
        ((rs.insertIntoRanges ranges new ts openClose).ranges.map Slot.id).Perm
          (new :: ranges.map Slot.id) := by
  obtain ⟨before, old, mid, after, hp⟩ := placed_insertIntoRanges rs ranges new ts openClose
  have hold : ranges.map Slot.id = before.map Slot.id ++ old.map Slot.id ++ after.map Slot.id := by
    rw [hp.eq, map_append, map_append]
  rw [hp.ranges_eq, map_append, map_append, hold]
  rcases hp.ids with he | ⟨happend, he | he⟩
  · exact .inl (by rw [he])
  · refine .inr ⟨happend, ?_⟩
    rw [he, ← append_assoc, append_assoc _ [new]]
    exact perm_middle
  · refine .inr ⟨happend, ?_⟩
    rw [he, append_assoc, append_assoc]
    exact perm_middle

theorem id_mem_insertIntoRanges (rs : PointerState) (new : Option Nat) (ts : Int)
    (openClose : OpenClose) {id : Option Nat} (h : id ∈ ranges.map Slot.id) :
    id ∈ (rs.insertIntoRanges ranges new ts openClose).ranges.map Slot.id := by
  rcases ids_insertIntoRanges rs ranges new ts openClose with hp | ⟨-, hp⟩
  · exact hp.mem_iff.mpr h
  · exact hp.mem_iff.mpr (mem_cons_of_mem _ h)

theorem Slot.Holds.id_eq_none (h : v.Holds false ts) : v.id = none :=
  isNone_iff_eq_none.mp (isSome_eq_false_iff.mp h.1)

/-- A member event writes no shared range of the view: the pointers to them say everything. -/
theorem mem_of_shared {openClose : OpenClose} {id : Nat}
    (hv : v ∈ (rs.insertIntoRanges ranges none ts openClose).ranges) (hid : v.id = some id) :
    v ∈ ranges := by
  obtain ⟨before, old, mid, after, hp⟩ := placed_insertIntoRanges rs ranges none ts openClose
  rw [hp.ranges_eq] at hv
  rw [hp.eq]
  rcases mem_append.mp hv with hv | hv
  · rcases mem_append.mp hv with hv | hv
    · exact mem_append_left _ (mem_append_left _ hv)
    · exfalso
      have hold : some id ∉ old.map Slot.id := by
        intro hmem
        obtain ⟨u, hu, he⟩ := mem_map.mp hmem
        exact absurd ((hp.holds u hu).id_eq_none.symm.trans he) (by simp)
      have hmid := mem_map.mpr ⟨v, hv, hid⟩
      rcases hp.ids with he | ⟨-, he | he⟩
      · exact hold (he ▸ hmid)
      · rcases mem_append.mp (he ▸ hmid) with hmid | hmid
        · exact hold hmid
        · exact absurd (mem_singleton.mp hmid) (by simp)
      · rcases mem_cons.mp (he ▸ hmid) with hmid | hmid
        · exact absurd hmid (by simp)
        · exact hold hmid
  · exact mem_append_right _ hv

end

end Ligase.Sync

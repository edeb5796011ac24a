import Ligase.Sync.Ranges

/-!
# Ranges in canonical form

A list of ranges is canonical if its ranges are in order, do not meet and are not empty; only the
last one may be open.

* **`canonical_insertIntoRanges_iff`**: when an insertion keeps the form.
-/

namespace Ligase.Sync

open PointerState List Slot Option

def Slot.Contains (v : Slot) (pos : Int) : Prop := v.start ≤ pos ∧ (pos ≤ v.stop ∨ v.stop = -1)

def Slot.Before (v w : Slot) : Prop := v.stop ≠ -1 ∧ v.stop < w.start

structure Canonical (ranges : List Slot) : Prop where
  ordered : ranges.Pairwise Slot.Before
  formed : ∀ v ∈ ranges, v.stop = -1 ∨ v.start ≤ v.stop

section
variable {rs : PointerState} {ranges before after : List Slot} {v w : Slot} {ts pos : Int}
  {new : Option Nat} {isRef : Bool} {ins : Inserted}

theorem Canonical.insert (h : Canonical (before ++ after)) (hv : v.stop = -1 ∨ v.start ≤ v.stop)
    (hb : ∀ x ∈ before, x.Before v) (ha : ∀ y ∈ after, v.Before y) :
    Canonical (before ++ v :: after) := by
  obtain ⟨hb', ha', hba⟩ := pairwise_append.mp h.ordered
  refine ⟨pairwise_append.mpr ⟨hb', pairwise_cons.mpr ⟨ha, ha'⟩, fun x hx y hy => ?_⟩,
    fun x hx => ?_⟩
  · rcases mem_cons.mp hy with rfl | hy
    · exact hb x hx
    · exact hba x hx y hy
  · rcases mem_append.mp hx with hx | hx
    · exact h.formed x (mem_append_left _ hx)
    · rcases mem_cons.mp hx with rfl | hx
      · exact hv
      · exact h.formed x (mem_append_right _ hx)

theorem Canonical.around (h : Canonical (before ++ v :: after)) :
    Canonical (before ++ after) ∧ (v.stop = -1 ∨ v.start ≤ v.stop) ∧
      (∀ x ∈ before, x.Before v) ∧ ∀ y ∈ after, v.Before y := by
  obtain ⟨-, hv, hb⟩ := pairwise_append.mp h.ordered
  refine ⟨⟨h.ordered.sublist ?_, fun x hx => h.formed x ?_⟩, h.formed v (by simp),
    fun x hx => hb x hx v mem_cons_self, (pairwise_cons.mp hv).1⟩
  · exact (sublist_cons_self v after).append_left before
  · rcases mem_append.mp hx with hx | hx <;> simp [hx]

theorem Canonical.eq_of_contains (h : Canonical ranges) (hv : v ∈ ranges) (hw : w ∈ ranges)
    (hvp : v.Contains pos) (hwp : w.Contains pos) : v = w := by
  obtain ⟨before, after, rfl⟩ := append_of_mem hv
  obtain ⟨-, -, hb, ha⟩ := h.around
  unfold Slot.Before Slot.Contains at *
  rcases mem_append.mp hw with hw | hw
  · have := hb w hw
    omega
  · rcases mem_cons.mp hw with rfl | hw
    · rfl
    · have := ha w hw
      omega

theorem Canonical.findRangeIdx_iff (h : Canonical ranges) (hw : w ∈ ranges)
    (hwp : w.Contains pos) : (∃ i, findRangeIdx ranges pos isRef = some (w, i)) ↔
      w.isRef = isRef ∧ (pos < w.stop ∨ w.stop = -1) := by
  constructor
  · rintro ⟨i, hi⟩
    obtain ⟨-, hkind, -, hend⟩ := findRangeIdx_spec hi
    exact ⟨hkind, hend⟩
  · rintro ⟨hkind, hend⟩
    cases hf : findRangeIdx ranges pos isRef with
    | none => exact absurd ⟨hkind, hwp.1, hend⟩ (not_holds_of_findRangeIdx hf w hw)
    | some found =>
      obtain ⟨v, i⟩ := found
      obtain ⟨hi, -, hstart, hstop⟩ := findRangeIdx_spec hf
      have hv : v.Contains pos := ⟨hstart, hstop.imp_left Int.le_of_lt⟩
      exact ⟨i, by rw [h.eq_of_contains (mem_of_getElem? hi) hw hv hwp]⟩

def Slot.Ended (v : Slot) (ts : Int) : Prop := v.stop ≠ -1 ∧ v.stop < ts

/-- In a range of its kind an opening event is not at 0, whose predecessor is the mark of an open
end, nor at the start, unless the range waits for one. Or it is in no range; then the next range is
the one that it is put before, if that does not start at 0 and an only range starts at -1, the mark
of nothing found. -/
def Opens (ranges : List Slot) (kind : Bool) (ts : Int) : Prop :=
  (∃ v ∈ ranges, v.Holds kind ts ∧ (v.cell.pairMask = .stop ∨ ts ≠ 0 ∧ v.start < ts)) ∨
    (∀ v ∈ ranges, ¬ v.Contains ts) ∧ ∀ v ∈ ranges.find? (ts < ·.start),
      v.start ≠ 0 ∧ (v.start = -1 → ∀ w ∈ ranges, w.start ≤ -1)

/-- In a range of its kind a closing event is after the start, or it is at 0 and leaves the last
range open. Or it is in none of its kind, and there is a place for a range up to it, after those
that have ended or the creation. -/
def Closes (ranges : List Slot) (createPos : Int) (kind : Bool) (ts : Int) : Prop :=
  (∃ v ∈ ranges, v.Holds kind ts ∧ if ts = 0 then
      v.cell.pairMask = .start ∧ ∀ w ∈ ranges, w.start ≤ v.start else v.start < ts) ∨
    (∀ v ∈ ranges, ¬ v.Holds kind ts) ∧ if ts = 0 then ∀ v ∈ ranges, v.Ended 0
      else (∀ v ∈ ranges, v.Ended ts ∧ v.stop + 1 ≠ ts ∨ ts ≤ v.start) ∧
        (createPos < ts ∨ ∃ v ∈ ranges, v.Ended ts)

def Fits (rs : PointerState) (ranges : List Slot) (new : Option Nat) (ts : Int) :
    OpenClose → Prop
  | .neither => True
  | .opens => Opens ranges new.isSome ts
  | .closes => Closes ranges rs.createPos new.isSome ts

theorem Slot.Holds.contains {kind : Bool} (h : v.Holds kind ts) : v.Contains ts :=
  ⟨h.2.1, h.2.2.imp_left Int.le_of_lt⟩

theorem Canonical.insert_iff (h : Canonical (before ++ after)) :
    Canonical (before ++ v :: after) ↔ (v.stop = -1 ∨ v.start ≤ v.stop) ∧
      (∀ x ∈ before, x.Before v) ∧ ∀ y ∈ after, v.Before y :=
  ⟨fun hc => hc.around.2, fun hv => h.insert hv.1 hv.2.1 hv.2.2⟩

theorem Canonical.start_lt (h : Canonical (before ++ v :: after)) (hw : w ∈ after) :
    v.start < w.start := by
  obtain ⟨-, hv, -, ha⟩ := h.around
  have := ha w hw
  unfold Slot.Before at this
  omega

/-! ## In a range -/

theorem Canonical.exists_holds {kind : Bool} {P : Slot → Prop} (h : Canonical ranges)
    (hmem : v ∈ ranges) (hv : v.Holds kind ts) : (∃ w ∈ ranges, w.Holds kind ts ∧ P w) ↔ P v := by
  refine ⟨fun ⟨w, hw, hold, hp⟩ => ?_, fun hp => ⟨v, hmem, hv, hp⟩⟩
  rwa [h.eq_of_contains hmem hw hv.contains hold.contains]

section
variable {id id' : Option Nat} {mask mask' : PairMask} {kind : Bool}
  (h : Canonical (before ++ v :: after)) (hv : v.Holds kind ts)
include h hv

theorem Canonical.from :
    Canonical (before ++ ⟨id, ⟨⟨ts, v.stop⟩, mask⟩⟩ :: after) := by
  obtain ⟨hrest, -, hb, ha⟩ := h.around
  obtain ⟨-, hstart, hend⟩ := hv
  refine hrest.insert (hend.symm.imp_right Int.le_of_lt) (fun x hx => ?_) ha
  exact ⟨(hb x hx).1, Int.lt_of_lt_of_le (hb x hx).2 hstart⟩

theorem Canonical.upTo_iff :
    Canonical (before ++ ⟨id, ⟨⟨v.start, ts - 1⟩, mask⟩⟩ :: after) ↔
      if ts = 0 then after = [] else v.start < ts := by
  obtain ⟨hrest, -, hb, ha⟩ := h.around
  obtain ⟨-, -, hend⟩ := hv
  rw [hrest.insert_iff]
  unfold Slot.Before at ha ⊢
  simp only [start, stop] at *
  split_ifs with h0
  · refine ⟨fun hc => eq_nil_iff_forall_not_mem.mpr fun y hy => ?_, ?_⟩
    · have := hc.2.2 y hy
      omega
    · rintro rfl
      exact ⟨by omega, hb, nofun⟩
  · refine ⟨fun hc => by omega, fun hlt => ⟨by omega, hb, fun y hy => ?_⟩⟩
    have := ha y hy
    omega

theorem Canonical.cut_iff :
    Canonical (before ++ ⟨id, ⟨⟨v.start, ts - 1⟩, mask⟩⟩ :: ⟨id', ⟨⟨ts, v.stop⟩, mask'⟩⟩ ::
      after) ↔ ts ≠ 0 ∧ v.start < ts := by
  obtain ⟨-, -, hb, ha⟩ := h.around
  rw [(h.from hv).insert_iff, forall_mem_cons]
  obtain ⟨-, -, hend⟩ := hv
  unfold Slot.Before at ha ⊢
  simp only [start, stop] at *
  refine ⟨fun hc => by omega, fun hc => ⟨by omega, hb, by omega, fun y hy => ?_⟩⟩
  have := ha y hy
  omega

end

/-! ## Outside of all ranges -/

theorem foldl_minStartStep {c : Slot × Nat} {l : List (Slot × Nat)} (hc : c.1.start ≠ -1)
    (hl : ∀ x ∈ l, c.1.start ≤ x.1.start) : l.foldl (minStartStep ts) (some c) = some c := by
  induction l with
  | nil => rfl
  | cons x l ih =>
    have hx := hl x mem_cons_self
    rw [foldl_cons, minStartStep, if_neg]
    · exact ih fun y hy => hl y (mem_cons_of_mem _ hy)
    · simp only [map_some, getD_some]
      omega

/-- The first range from the position on is found, or the second if the first starts at -1. -/
theorem minStartIdx_append (hbefore : ∀ x ∈ before, x.start < ts) (hle : ts ≤ v.start)
    (hafter : ∀ y ∈ after, v.start < y.start) (hsorted : after.Pairwise (·.start < ·.start)) :
    minStartIdx (before ++ v :: after) ts = match after with
      | w :: _ => if v.start = -1 then some (w, before.length + 1) else some (v, before.length)
      | [] => some (v, before.length) := by
  have hskip : ∀ l : List (Slot × Nat), (∀ x ∈ l, x.1.start < ts) →
      l.foldl (minStartStep ts) none = none := by
    intro l hl
    induction l with
    | nil => rfl
    | cons x l ih =>
      have hx := hl x mem_cons_self
      rw [foldl_cons, minStartStep, if_neg (by omega)]
      exact ih fun y hy => hl y (mem_cons_of_mem _ hy)
  have hzip : ∀ {l : List Slot} {k : Nat} {x : Slot × Nat}, x ∈ l.zipIdx k → x.1 ∈ l :=
    fun hx => fst_mem_of_mem_zipIdx hx
  rw [minStartIdx, zipIdx_append, foldl_append, hskip _ fun x hx => hbefore _ (hzip hx),
    Nat.zero_add, zipIdx_cons, foldl_cons, minStartStep, if_pos ⟨hle, .inr rfl⟩]
  cases after with
  | nil => rfl
  | cons w after =>
    have hw := hafter w mem_cons_self
    dsimp only
    split_ifs with hv
    · rw [zipIdx_cons, foldl_cons, minStartStep, if_pos ⟨by dsimp only; omega, .inr hv⟩]
      refine foldl_minStartStep (by dsimp only; omega) fun y hy => ?_
      exact Int.le_of_lt ((pairwise_cons.mp hsorted).1 _ (hzip hy))
    · exact foldl_minStartStep hv fun y hy => Int.le_of_lt (hafter _ (hzip hy))

theorem Canonical.split_start (h : Canonical ranges) (ts : Int) : ∃ before after,
    ranges = before ++ after ∧ (∀ x ∈ before, x.start < ts) ∧ ∀ y ∈ after, ts ≤ y.start := by
  induction ranges with
  | nil => exact ⟨[], [], rfl, nofun, nofun⟩
  | cons v ranges ih =>
    have hcons : Canonical ([] ++ v :: ranges) := h
    by_cases hv : v.start < ts
    · obtain ⟨before, after, rfl, hb, ha⟩ := ih hcons.around.1
      exact ⟨v :: before, after, rfl, forall_mem_cons.mpr ⟨hv, hb⟩, ha⟩
    · refine ⟨[], v :: ranges, rfl, nofun, forall_mem_cons.mpr ⟨by omega, fun y hy => ?_⟩⟩
      have := hcons.start_lt hy
      omega

theorem Canonical.pairwise_start (h : Canonical ranges) :
    ranges.Pairwise (·.start < ·.start) := by
  refine h.ordered.imp_of_mem fun {v w} hv _ hvw => ?_
  have := h.formed v hv
  unfold Slot.Before at hvw
  omega

theorem Canonical.last_iff (h : Canonical (before ++ v :: after)) :
    (∀ w ∈ before ++ v :: after, w.start ≤ v.start) ↔ after = [] := by
  have hb : ∀ x ∈ before, x.start < v.start := fun x hx =>
    (pairwise_append.mp h.pairwise_start).2.2 x hx v mem_cons_self
  refine ⟨fun hall => eq_nil_iff_forall_not_mem.mpr fun y hy => ?_, fun hnil w hw => ?_⟩
  · exact absurd (hall y (by simp [hy])) (Int.not_le.mpr (h.start_lt hy))
  · rw [hnil] at hw
    rcases mem_append.mp hw with hw | hw
    · exact Int.le_of_lt (hb w hw)
    · exact Int.le_of_eq (congrArg Slot.start (mem_singleton.mp hw))

theorem Canonical.before_iff {id : Option Nat} {mask : PairMask} {i : Nat}
    (h : Canonical (before ++ v :: after)) (hr : ranges = before ++ v :: after)
    (hi : i = before.length) :
    Canonical (ranges.take i ++ [⟨id, ⟨⟨ts, v.start - 1⟩, mask⟩⟩] ++ ranges.drop i) ↔
      (v.start ≠ 0 ∧ ts < v.start) ∧ ∀ x ∈ before, x.stop < ts := by
  obtain ⟨-, -, hb, -⟩ := h.around
  rw [hr, hi, take_left, drop_left, append_assoc, singleton_append, h.insert_iff, forall_mem_cons]
  have hlt := fun y hy => h.start_lt (w := y) hy
  unfold Slot.Before at hb ⊢
  simp only [start, stop] at *
  refine ⟨fun ⟨hform, hx, hv, _⟩ => ⟨by omega, fun x hx' => (hx x hx').2⟩, fun ⟨hv, hx⟩ =>
    ⟨by omega, fun x hx' => ⟨(hb x hx').1, hx x hx'⟩, by omega, fun y hy => ?_⟩⟩
  have := hlt y hy
  omega

theorem Canonical.after_iff {id : Option Nat} {mask : PairMask} {start : Int}
    (h : Canonical (before ++ after)) (hb : ∀ x ∈ before, x.stop ≠ -1 ∧ x.stop < start) :
    Canonical (before ++ ⟨id, ⟨⟨start, ts - 1⟩, mask⟩⟩ :: after) ↔
      (ts = 0 ∨ start < ts) ∧ ∀ y ∈ after, ts ≠ 0 ∧ ts ≤ y.start := by
  rw [h.insert_iff]
  unfold Slot.Before
  simp only [Slot.start, Slot.stop] at *
  refine ⟨fun ⟨hform, _, hy⟩ => ⟨by omega, fun y hy' => ?_⟩, fun ⟨hform, hy⟩ =>
    ⟨by omega, hb, fun y hy' => ?_⟩⟩
  all_goals
    have := hy y hy'
    omega

theorem Canonical.gap_iff (h : Canonical (before ++ v :: after))
    (hb : ∀ x ∈ before, x.start < ts) (hle : ts ≤ v.start) :
    ((∀ w ∈ before ++ v :: after, ¬ w.Contains ts) ∧
      ∀ w ∈ (before ++ v :: after).find? (ts < ·.start),
        w.start ≠ 0 ∧ (w.start = -1 → ∀ u ∈ before ++ v :: after, u.start ≤ -1)) ↔
    ((v.start ≠ 0 ∧ ts < v.start) ∧ ∀ x ∈ before, x.stop < ts) ∧ (v.start = -1 → after = []) := by
  obtain ⟨-, hform, hbv, -⟩ := h.around
  have hlt := fun y hy => h.start_lt (w := y) hy
  have hfind : ts < v.start → (before ++ v :: after).find? (ts < ·.start) = some v := by
    intro hts
    have hnone : before.find? (ts < ·.start) = none :=
      find?_eq_none.mpr fun x hx => by simpa using Int.le_of_lt (hb x hx)
    rw [find?_append, hnone, none_or, find?_cons_of_pos (by simpa using hts)]
  have hgap : (∀ w ∈ before ++ v :: after, ¬ w.Contains ts) ↔
      ts < v.start ∧ ∀ x ∈ before, x.stop < ts := by
    unfold Slot.Contains
    simp only [forall_mem_append, forall_mem_cons]
    refine ⟨fun ⟨hx, hv, _⟩ => ⟨by omega, fun x hx' => ?_⟩, fun ⟨hv, hx⟩ =>
      ⟨fun x hx' => ?_, by omega, fun y hy => ?_⟩⟩
    · have := hx x hx'
      have := hb x hx'
      omega
    · have := hx x hx'
      have := (hbv x hx').1
      omega
    · have := hlt y hy
      omega
  rw [hgap]
  constructor
  · rintro ⟨⟨hts, hx⟩, hv⟩
    obtain ⟨h0, hneg⟩ := hv v (hfind hts)
    exact ⟨⟨⟨h0, hts⟩, hx⟩, fun h1 => h.last_iff.mp (h1 ▸ hneg h1)⟩
  · rintro ⟨⟨⟨h0, hts⟩, hx⟩, hneg⟩
    refine ⟨⟨hts, hx⟩, fun w hw => ?_⟩
    obtain rfl := some.inj ((hfind hts).symm.trans hw)
    exact ⟨h0, fun h1 => h1 ▸ h.last_iff.mpr (hneg h1)⟩

theorem Canonical.insertOpen_iff (h : Canonical ranges) :
    Canonical (rs.insertOpen ranges new ts).ranges ↔ Opens ranges new.isSome ts := by
  unfold insertOpen
  cases hf : findRangeIdx ranges ts new.isSome with
  | some found =>
    obtain ⟨v, i⟩ := found
    obtain ⟨hi, hv⟩ := findRangeIdx_spec hf
    have hc := eq_of_getElem?_eq_some hi ▸ h
    have hopens : Opens ranges new.isSome ts ↔
        v.cell.pairMask = .stop ∨ ts ≠ 0 ∧ v.start < ts := by
      rw [Opens, or_iff_left fun hn => hn.1 v (mem_of_getElem? hi) hv.contains]
      exact h.exists_holds (mem_of_getElem? hi) hv
    rw [hopens]
    dsimp only
    by_cases hm : v.cell.pairMask = .stop
    · rw [if_pos hm, append_assoc]
      exact iff_of_true (hc.from hv) (.inl hm)
    · rw [if_neg hm, append_assoc, or_iff_right hm]
      exact hc.cut_iff hv
  | none =>
    have hout := not_holds_of_findRangeIdx hf
    rw [Opens, or_iff_right fun ⟨v, hv, hold, _⟩ => hout v hv hold]
    obtain ⟨before, after, rfl, hb, ha⟩ := h.split_start ts
    cases after with
    | nil =>
      rw [append_nil] at h hout ⊢
      cases hmin : minStartIdx before ts with
      | some found =>
        obtain ⟨hi, hle, -⟩ := minStartIdx_spec.1 found.1 found.2 hmin
        exact absurd (hb _ (mem_of_getElem? hi)) (Int.not_lt.mpr hle)
      | none =>
        rw [((append_nil before).symm ▸ h : Canonical (before ++ [])).insert_iff]
        unfold Slot.Before Slot.Contains
        have hnone : before.find? (ts < ·.start) = none :=
          find?_eq_none.mpr fun x hx => by simpa using Int.le_of_lt (hb x hx)
        rw [hnone]
        refine ⟨fun hc => ⟨fun x hx => ?_, nofun⟩, fun hc => ⟨?_, fun x hx => ?_, nofun⟩⟩
        · have := hc.2.1 x hx
          split_ifs at this <;> simp only [start, stop] at * <;> omega
        · split_ifs with hjoined
          · exact .inr (Int.le_of_lt hjoined.2.2)
          · exact .inl rfl
        · have := hc.1 x hx
          have := hb x hx
          split_ifs <;> simp only [start, stop] at * <;> omega
    | cons v after =>
      obtain ⟨hle, ha⟩ := forall_mem_cons.mp ha
      have hlt := fun y hy => h.start_lt (w := y) hy
      have hsorted := (pairwise_append.mp h.pairwise_start).2.1
      rw [minStartIdx_append hb hle hlt (pairwise_cons.mp hsorted).2, h.gap_iff hb hle]
      cases after with
      | nil => exact (h.before_iff rfl rfl).trans (and_iff_left fun _ => rfl).symm
      | cons w after =>
        dsimp only
        by_cases hv : v.start = -1
        · have hsplit : before ++ v :: w :: after = before ++ [v] ++ w :: after := by simp
          obtain ⟨-, hform, -, ha⟩ := h.around
          have hvw := ha w mem_cons_self
          rw [if_pos hv]
          refine ((hsplit ▸ h).before_iff hsplit (by simp)).trans ?_
          refine iff_of_false (fun hc => ?_) fun hc => (nomatch hc.2 hv)
          have := hc.2 v (by simp)
          unfold Slot.Before at hvw
          omega
        · rw [if_neg hv]
          exact (h.before_iff rfl rfl).trans (and_iff_left fun hneg => absurd hneg hv).symm

theorem Canonical.place_iff {start : Int} (h : Canonical (before ++ after)) (createPos : Int)
    (hb : ∀ x ∈ before, x.Ended ts) (ha : ∀ y ∈ after, ¬ y.Ended ts)
    (hstart : before = [] ∧ start = createPos ∨
      ∃ v ∈ before, start = v.stop + 1 ∧ ∀ x ∈ before, x.stop ≤ v.stop) :
    (if ts = 0 then ∀ v ∈ before ++ after, v.Ended 0
      else (∀ v ∈ before ++ after, v.Ended ts ∧ v.stop + 1 ≠ ts ∨ ts ≤ v.start) ∧
        (createPos < ts ∨ ∃ v ∈ before ++ after, v.Ended ts)) ↔
      (ts = 0 ∨ start < ts) ∧ ∀ y ∈ after, ts ≠ 0 ∧ ts ≤ y.start := by
  split_ifs with h0
  · subst h0
    refine ⟨fun hall => ⟨.inl rfl, fun y hy => ?_⟩, fun ⟨_, hy⟩ v hv => ?_⟩
    · exact absurd (hall y (mem_append_right _ hy)) (ha y hy)
    · rcases mem_append.mp hv with hv | hv
      · exact hb v hv
      · exact absurd rfl (hy v hv).1
  · rw [or_iff_right h0]
    constructor
    · rintro ⟨hall, hfirst⟩
      refine ⟨?_, fun y hy => ⟨h0, (hall y (mem_append_right _ hy)).resolve_left fun he =>
        ha y hy he.1⟩⟩
      rcases hstart with ⟨rfl, rfl⟩ | ⟨v, hv, rfl, -⟩
      · exact hfirst.resolve_right fun ⟨v, hv, he⟩ => ha v hv he
      · have he := hb v hv
        have hform := h.formed v (mem_append_left _ hv)
        have := hall v (mem_append_left _ hv)
        unfold Slot.Ended at he this
        omega
    · rintro ⟨hlt, hy⟩
      refine ⟨fun v hv => ?_, ?_⟩
      · rcases mem_append.mp hv with hv | hv
        · rcases hstart with ⟨rfl, -⟩ | ⟨u, hu, rfl, hmax⟩
          · cases hv
          · have := hmax v hv
            exact .inl ⟨hb v hv, by omega⟩
        · exact .inr (hy v hv).2
      · rcases hstart with ⟨-, rfl⟩ | ⟨u, hu, -⟩
        · exact .inl hlt
        · exact .inr ⟨u, mem_append_left _ hu, hb u hu⟩

theorem Canonical.insertClose_iff (h : Canonical ranges) :
    Canonical (rs.insertClose ranges new ts).ranges ↔
      Closes ranges rs.createPos new.isSome ts := by
  unfold insertClose
  cases hf : findRangeIdx ranges ts new.isSome with
  | some found =>
    obtain ⟨v, i⟩ := found
    obtain ⟨hi, hv⟩ := findRangeIdx_spec hf
    have heq := eq_of_getElem?_eq_some hi
    have hc := heq ▸ h
    have hlast : (∀ w ∈ ranges, w.start ≤ v.start) ↔ ranges.drop (i + 1) = [] := by
      conv_lhs => rw [heq]
      exact hc.last_iff
    have hcloses : Closes ranges rs.createPos new.isSome ts ↔ if ts = 0 then
        v.cell.pairMask = .start ∧ ranges.drop (i + 1) = [] else v.start < ts := by
      rw [Closes, or_iff_left fun hn => hn.1 v (mem_of_getElem? hi) hv, ← hlast]
      exact h.exists_holds (P := fun v => if ts = 0 then v.cell.pairMask = .start ∧
        ∀ w ∈ ranges, w.start ≤ v.start else v.start < ts) (mem_of_getElem? hi) hv
    rw [hcloses]
    dsimp only
    by_cases hm : v.cell.pairMask = .start
    · rw [if_pos hm, append_assoc]
      refine (hc.upTo_iff hv).trans ?_
      simp only [hm, true_and]
    · rw [if_neg hm, append_assoc]
      refine (hc.cut_iff hv).trans ?_
      split_ifs with h0
      · exact iff_of_false (fun hn => hn.1 h0) fun hn => hm hn.1
      · exact and_iff_right h0
  | none =>
    have hout := not_holds_of_findRangeIdx hf
    rw [Closes, or_iff_right fun ⟨v, hv, hold, _⟩ => hout v hv hold, and_iff_right hout]
    cases hmax : maxStopIdx ranges ts with
    | none =>
      have hnone := maxStopIdx_spec.2 hmax
      have hnil : Canonical ([] ++ ranges) := h
      exact (hnil.after_iff nofun).trans (hnil.place_iff _ nofun hnone (.inl ⟨rfl, rfl⟩)).symm
    | some found =>
      obtain ⟨v, i⟩ := found
      obtain ⟨hi, hstop, hlargest⟩ := maxStopIdx_spec.1 v i hmax
      have heq := eq_of_getElem?_eq_some hi
      obtain ⟨-, hform, hb, ha⟩ := (heq ▸ h : Canonical (ranges.take i ++ v :: _)).around
      have htake : ranges.take (i + 1) = ranges.take i ++ [v] := by
        obtain ⟨hlt, rfl⟩ := List.getElem?_eq_some_iff.mp hi
        rw [← take_concat_get hlt, concat_eq_append]
      have hall : Canonical (ranges.take (i + 1) ++ ranges.drop (i + 1)) :=
        (take_append_drop ..).symm ▸ h
      have hle : ∀ x ∈ ranges.take (i + 1), x.stop ≠ -1 ∧ x.stop ≤ v.stop := by
        rw [htake, forall_mem_append, forall_mem_singleton]
        refine ⟨fun x hx => ?_, hstop.1, Int.le_refl _⟩
        have := hb x hx
        unfold Slot.Before at this
        omega
      have hopen : ∀ y ∈ ranges.drop (i + 1), ¬ y.Ended ts := by
        intro y hy hyes
        have hle := hlargest trivial y (mem_of_mem_drop hy) hyes
        have hvy := ha y hy
        have hform := h.formed y (mem_of_mem_drop hy)
        unfold Slot.Before at hvy
        unfold Slot.Ended at hyes
        omega
      have hended : ∀ x ∈ ranges.take (i + 1), x.Ended ts :=
        fun x hx => ⟨(hle x hx).1, Int.lt_of_le_of_lt (hle x hx).2 hstop.2⟩
      have hplace := hall.place_iff rs.createPos hended hopen
        (.inr ⟨v, by simp [htake], rfl, fun x hx => (hle x hx).2⟩)
      rw [take_append_drop] at hplace
      simp only [map_some, getD_some, append_assoc]
      exact (hall.after_iff fun x hx => ⟨(hle x hx).1, Int.lt_add_one_of_le (hle x hx).2⟩).trans
        hplace.symm

/-- **An insertion keeps the canonical form** exactly if it fits, and then a search finds the range
that has a position exactly if it is of the kind and the position is not its end. -/
theorem canonical_insertIntoRanges_iff {openClose : OpenClose} (h : Canonical ranges) :
    (Canonical (rs.insertIntoRanges ranges new ts openClose).ranges ↔
      Fits rs ranges new ts openClose) ∧
    (Fits rs ranges new ts openClose →
      ∀ w ∈ (rs.insertIntoRanges ranges new ts openClose).ranges, ∀ pos isRef, w.Contains pos →
        ((∃ i, findRangeIdx (rs.insertIntoRanges ranges new ts openClose).ranges pos isRef =
            some (w, i)) ↔ w.isRef = isRef ∧ (pos < w.stop ∨ w.stop = -1))) := by
  have hc : Canonical (rs.insertIntoRanges ranges new ts openClose).ranges ↔
      Fits rs ranges new ts openClose := by
    cases openClose with
    | neither => exact iff_of_true h trivial
    | opens => exact h.insertOpen_iff
    | closes => exact h.insertClose_iff
  exact ⟨hc, fun hf w hw pos isRef hwp => (hc.mpr hf).findRangeIdx_iff hw hwp⟩

end

def closedSlot (start stop : Int) : Slot := ⟨none, ⟨⟨start, stop⟩, .start⟩⟩

theorem canonical_closedSlot {start stop : Int} (h : start ≤ stop) :
    Canonical [closedSlot start stop] :=
  ⟨pairwise_singleton .., forall_mem_singleton.mpr (.inr h)⟩

theorem canonical_insertIntoRanges_leave :
    Canonical (newRoomState.insertIntoRanges [closedSlot 1 10] none 5 .closes).ranges := by
  have hfits : Fits newRoomState [closedSlot 1 10] none 5 .closes :=
    .inl ⟨closedSlot 1 10, mem_singleton_self _, ⟨rfl, by decide, by decide⟩, by decide⟩
  exact (canonical_insertIntoRanges_iff (canonical_closedSlot (by decide))).1.mpr hfits

/-- A leave at the position of the join makes a range that ends before it starts; the end of a range
is not found. -/
theorem leave_at_start : Canonical [closedSlot 5 10] ∧
    ¬Canonical (newRoomState.insertIntoRanges [closedSlot 5 10] none 5 .closes).ranges ∧
    (closedSlot 5 10).Contains 10 ∧ findRangeIdx [closedSlot 5 10] 10 false = none := by
  refine ⟨canonical_closedSlot (by decide), fun h => ?_, ⟨by decide, by decide⟩, by decide⟩
  exact absurd (h.formed ⟨none, ⟨⟨5, 4⟩, .both⟩⟩ (by decide)) (by decide)

end Ligase.Sync

import Mathlib.Algebra.BigOperators.Intervals
import Mathlib.Data.Nat.ModEq
import Mathlib.Order.Bounds.Basic

/-!
# Time lines

A limited time line is a ring of its newest entries, which keeps the bounds of their offsets. While
the offsets come in order the bounds are at its ends; otherwise the ring is sorted, where it is,
when the entry of a bound is dropped. An unlimited one grows.

* **`addAll_exact`**: the entries, what was dropped and the bounds after any additions.
-/

namespace Ligase.Stream.Ring

class Feed (α : Type) where
  getOffset : α → Int

structure TimeLines (α : Type) where
  size : Nat
  offset : Nat
  limit : Bool
  lower : Int
  upper : Int
  data : Nat → Option α
  ofo : Bool

variable {α : Type}

open Ring.Feed Finset Function Option

variable {x : Int} {added : List α}

namespace TimeLines

section
variable (tl : TimeLines α)

def newEvTimeLines (size : Nat) (limit : Bool) : TimeLines α :=
  ⟨size, 0, limit, 0, 0, fun _ => none, false⟩

def getFeed (i : Nat) : Option α := tl.data (i % tl.size)

def getRange : Nat × Nat :=
  if tl.offset < tl.size then (0, tl.offset) else (tl.offset - tl.size, tl.offset)

def retained : Multiset α := ∑ i ∈ Ico tl.getRange.1 tl.getRange.2, ↑(tl.getFeed i).toList

def forRange : List α :=
  (List.range' tl.getRange.1 (tl.getRange.2 - tl.getRange.1)).filterMap tl.getFeed

end

variable {tl tl' : TimeLines α} {base : Nat}

theorem mod_inj {n a b : Nat} (ha : base ≤ a ∧ a < base + n) (hb : base ≤ b ∧ b < base + n) :
    a % n = b % n ↔ a = b := by
  refine ⟨fun h => ?_, fun h => by rw [h]⟩
  obtain ⟨a, rfl⟩ := Nat.exists_eq_add_of_le ha.1
  obtain ⟨b, rfl⟩ := Nat.exists_eq_add_of_le hb.1
  have h' := Nat.ModEq.add_left_cancel' base h
  rw [Nat.ModEq, Nat.mod_eq_of_lt (by omega), Nat.mod_eq_of_lt (by omega)] at h'
  rw [h']

/-- The entries are the same, in another order of the positions from `base` on. -/
structure Reorders (base : Nat) (tl tl' : TimeLines α) : Prop where
  frame : ∃ data, tl' = { tl with data }
  perm : ∃ σ : Nat ≃ Nat, (∀ i, i ∈ Ico base (base + tl.size) ↔ σ i ∈ Ico base (base + tl.size)) ∧
    ∀ i ∈ Ico base (base + tl.size), tl'.getFeed i = tl.getFeed (σ i)

theorem Reorders.refl : Reorders base tl tl :=
  ⟨⟨_, rfl⟩, .refl _, fun _ => Iff.rfl, fun _ _ => rfl⟩

theorem Reorders.trans {tl'' : TimeLines α} (h : Reorders base tl tl')
    (h' : Reorders base tl' tl'') : Reorders base tl tl'' := by
  obtain ⟨⟨data, rfl⟩, σ, hσ, hget⟩ := h
  obtain ⟨⟨data', rfl⟩, τ, hτ, hget'⟩ := h'
  refine ⟨⟨data', rfl⟩, τ.trans σ, fun i => (hτ i).trans (hσ _), fun i hi => ?_⟩
  rw [hget' i hi, hget _ ((hτ i).mp hi)]
  rfl

theorem Reorders.size_eq (h : Reorders base tl tl') : tl'.size = tl.size := by
  obtain ⟨⟨data, rfl⟩, -⟩ := h
  rfl

theorem retained_eq : tl.retained =
    ∑ i ∈ Ico (tl.offset - tl.size) tl.offset, ↑(tl.getFeed i).toList := by
  unfold retained getRange
  split_ifs with hlt
  · rw [Nat.sub_eq_zero_of_le hlt.le]
  · rfl

theorem mem_retained {f : α} : f ∈ tl.retained ↔
    ∃ i, (tl.offset - tl.size ≤ i ∧ i < tl.offset) ∧ tl.getFeed i = some f := by
  simp only [retained_eq, Multiset.mem_sum, mem_Ico, Multiset.mem_coe, Option.mem_toList]

theorem mem_forRange {f : α} : f ∈ tl.forRange ↔ f ∈ tl.retained := by
  have hle : tl.getRange.1 ≤ tl.getRange.2 := by
    unfold getRange
    split_ifs <;> omega
  simp only [forRange, retained, Multiset.mem_sum, mem_Ico, Multiset.mem_coe, Option.mem_toList,
    List.mem_filterMap, List.mem_range'_1, Nat.add_sub_cancel' hle]

def Filled (tl : TimeLines α) : Prop :=
  ∀ i, tl.offset - tl.size ≤ i → i < tl.offset → (tl.getFeed i).isSome

structure Keeps (tl tl' : TimeLines α) : Prop where
  size : tl'.size = tl.size
  limit : tl'.limit = tl.limit
  offset : tl'.offset = tl.offset
  retained : tl'.retained = tl.retained
  filled : Filled tl → Filled tl'
  free : (∀ i, tl.offset ≤ i → i < tl.size → tl.data i = none) →
    ∀ i, tl'.offset ≤ i → i < tl'.size → tl'.data i = none

theorem Keeps.trans {tl'' : TimeLines α} (h : Keeps tl tl') (h' : Keeps tl' tl'') :
    Keeps tl tl'' :=
  ⟨h'.size.trans h.size, h'.limit.trans h.limit, h'.offset.trans h.offset,
    h'.retained.trans h.retained, h'.filled ∘ h.filled, h'.free ∘ h.free⟩

theorem Reorders.keeps (hle : tl.size ≤ tl.offset) (h : Reorders (tl.offset - tl.size) tl tl') :
    Keeps tl tl' := by
  obtain ⟨⟨data, rfl⟩, σ, hσ, hget⟩ := h
  rw [Nat.sub_add_cancel hle] at hσ hget
  refine ⟨rfl, rfl, rfl, ?_, fun hf i hi hlt => ?_, fun _ i hi hlt =>
    absurd (hle.trans hi) (not_le.mpr hlt)⟩
  · rw [retained_eq, retained_eq]
    exact sum_equiv σ hσ fun i hi => by rw [hget i hi]
  · rw [hget i (mem_Ico.mpr ⟨hi, hlt⟩)]
    have hi' := mem_Ico.mp ((hσ i).mp (mem_Ico.mpr ⟨hi, hlt⟩))
    exact hf _ hi'.1 hi'.2

def stored (tl : TimeLines α) (feed : α) : TimeLines α :=
  { tl with data := update tl.data (tl.offset % tl.size) (some feed),
            offset := tl.offset + 1 }

theorem getFeed_stored_self {feed : α} : (tl.stored feed).getFeed tl.offset = some feed :=
  update_self ..

/-- The bounds with a new entry, before they are looked up again. -/
def widen (tl : TimeLines α) (offset : Int) : TimeLines α :=
  if offset < tl.lower then { tl with lower := offset }
  else if offset > tl.upper then { tl with upper := offset }
  else tl

theorem keeps_widen : Keeps tl (tl.widen x) := by
  unfold widen
  split_ifs <;> exact ⟨rfl, rfl, rfl, rfl, id, id⟩

def setBounds (tl : TimeLines α) (lower upper : Int) (ofo : Bool) : TimeLines α :=
  { tl with lower, upper, ofo }

theorem widen_eq (h : tl.lower ≤ tl.upper) :
    tl.widen x = tl.setBounds (min tl.lower x) (max tl.upper x) tl.ofo := by
  unfold widen setBounds
  split_ifs with h₁ h₂
  · rw [min_eq_right h₁.le, max_eq_left (h₁.le.trans h)]
  · rw [min_eq_left (not_lt.mp h₁), max_eq_right h₂.le]
  · rw [min_eq_left (not_lt.mp h₁), max_eq_left (not_lt.mp h₂)]

variable [Feed α]

section
variable (tl : TimeLines α)

def offsetAt (i : Nat) : Int := ((tl.getFeed i).map getOffset).getD 0

/-- Two neighbours are put in order; positions are counted from `base`. -/
def compareSwap (base : Nat) (tl : TimeLines α) (j : Nat) : TimeLines α :=
  if tl.offsetAt (base + j) > tl.offsetAt (base + j + 1) then
    { tl with data := update (update tl.data ((base + j) % tl.size)
        (tl.getFeed (base + j + 1))) ((base + j + 1) % tl.size) (tl.getFeed (base + j)) }
  else tl

def pass (base : Nat) (tl : TimeLines α) (i : Nat) : TimeLines α :=
  (List.range (tl.size - 1 - i)).foldl (compareSwap base) tl

def bubble (base : Nat) : TimeLines α := (List.range (tl.size - 1)).foldl (pass base) tl

def recalc : TimeLines α :=
  if tl.limit = false ∨ tl.offset ≤ tl.size then tl
  else
    let tl := if tl.ofo then tl.bubble (tl.offset - tl.size) else tl
    { tl with lower := tl.offsetAt (tl.offset - tl.size), upper := tl.offsetAt (tl.offset - 1) }

def checkOutOfOrder : TimeLines α :=
  if tl.limit = false ∨ tl.offset ≤ 1 then tl
  else
    match tl.getFeed (tl.offset - 1), tl.getFeed (tl.offset - 2) with
    | some cur, some pre =>
      if tl.ofo = false ∧ getOffset cur < getOffset pre then { tl with ofo := true } else tl
    | _, _ => tl

/-- The loop of `Expanse`, which is left once the size is above the offset. -/
def doubled (offset : Nat) : Nat → Nat → Option Nat
  | 0, _ => none
  | fuel + 1, oldsize =>
    if oldsize * 2 > offset then some (oldsize * 2) else doubled offset fuel (oldsize * 2)

def expanse : Option Nat :=
  if tl.offset ≥ tl.size then doubled tl.offset (tl.offset + 1) tl.size else some tl.size

/-- The entry is stored; it takes the place of one if the ring is full. -/
def put (feed : α) : Option (TimeLines α × Option α) :=
  if tl.limit then
    some ({ tl with data := update tl.data (tl.offset % tl.size) (some feed),
                    offset := tl.offset + 1 }, tl.getFeed tl.offset)
  else if tl.offset < tl.size then
    some ({ tl with data := update tl.data tl.offset (some feed),
                    offset := tl.offset + 1 }, none)
  else
    tl.expanse.map fun newsize =>
      ({ tl with data := update (fun i => if i < tl.size then tl.data i else none)
                    tl.offset (some feed),
                 size := newsize, offset := tl.offset + 1 }, none)

def bound (feed : α) (remove : Option α) : TimeLines α :=
  if tl.lower = 0 then { tl with lower := getOffset feed, upper := getOffset feed }
  else
    let tl := (tl.widen (getOffset feed)).checkOutOfOrder
    match remove with
    | some old => if getOffset old = tl.lower ∨ getOffset old = tl.upper then tl.recalc else tl
    | none => tl

/-- The new time line and the entry that was dropped; `none` is for a loop that does not end. -/
def add (feed : α) : Option (TimeLines α × Option α) :=
  (tl.put feed).map fun (tl, remove) => (tl.bound feed remove, remove)

def addAll (tl : TimeLines α) (removed : List α) : List α → Option (TimeLines α × List α)
  | [] => some (tl, removed)
  | feed :: feeds =>
    (tl.add feed).bind fun (tl, remove) => addAll tl (removed ++ remove.toList) feeds

end

/-! ## Sorting the ring -/

def Top (base : Nat) (tl : TimeLines α) (b : Nat) : Prop :=
  ∀ a, base ≤ a → a < b → tl.offsetAt a ≤ tl.offsetAt b

theorem compareSwap_spec (tl : TimeLines α) (base : Nat) {j : Nat} (hj : j + 1 < tl.size) :
    Reorders base tl (tl.compareSwap base j) ∧
    (Top base tl (base + j) → Top base (tl.compareSwap base j) (base + j + 1)) ∧
    ∀ b, base + j + 1 < b → b < base + tl.size →
      Top base tl b → Top base (tl.compareSwap base j) b := by
  unfold compareSwap
  split_ifs with hgt
  · generalize hs : { tl with
        data := update (update tl.data ((base + j) % tl.size)
          (tl.getFeed (base + j + 1))) ((base + j + 1) % tl.size) (tl.getFeed (base + j)) } = tl'
    have hget : ∀ i, base ≤ i → i < base + tl.size →
        tl'.getFeed i = tl.getFeed (Equiv.swap (base + j) (base + j + 1) i) := by
      intro i hi hlt
      simp only [← hs, getFeed, update_apply, Equiv.swap_apply_def,
        mod_inj ⟨hi, hlt⟩ (show base ≤ base + j + 1 ∧ _ by omega),
        mod_inj ⟨hi, hlt⟩ (show base ≤ base + j ∧ _ by omega)]
      split_ifs <;> first | rfl | omega
    have hoff : ∀ i, base ≤ i → i < base + tl.size →
        tl'.offsetAt i = tl.offsetAt (Equiv.swap (base + j) (base + j + 1) i) :=
      fun i hi hlt => by rw [offsetAt, offsetAt, hget i hi hlt]
    refine ⟨⟨⟨_, hs.symm⟩, .swap (base + j) (base + j + 1), fun i => ?_, fun i hi => ?_⟩,
      fun h a ha hlt => ?_, fun b hb hb' h a ha hlt => ?_⟩
    · rw [mem_Ico, mem_Ico, Equiv.swap_apply_def]
      split_ifs <;> omega
    · rw [mem_Ico] at hi
      exact hget i hi.1 hi.2
    · rw [hoff a ha (by omega), hoff _ (by omega) (by omega), Equiv.swap_apply_right]
      rcases (show a = base + j ∨ a < base + j by omega) with rfl | hlt'
      · rw [Equiv.swap_apply_left]
        exact hgt.le
      · rw [Equiv.swap_apply_of_ne_of_ne (by omega) (by omega)]
        exact h a ha hlt'
    · rw [hoff a ha (by omega), hoff b (by omega) hb',
        Equiv.swap_apply_of_ne_of_ne (x := b) (by omega) (by omega)]
      refine h _ ?_ ?_ <;> rw [Equiv.swap_apply_def] <;> split_ifs <;> omega
  · refine ⟨.refl, fun h a ha hlt => ?_, fun _ _ _ h => h⟩
    rcases (show a = base + j ∨ a < base + j by omega) with rfl | hlt'
    · exact not_lt.mp hgt
    · exact (h a ha hlt').trans (not_lt.mp hgt)

theorem foldl_compareSwap_spec (tl : TimeLines α) (base : Nat) {m : Nat} (hm : m < tl.size) :
    Reorders base tl ((List.range m).foldl (compareSwap base) tl) ∧
    Top base ((List.range m).foldl (compareSwap base) tl) (base + m) ∧
    ∀ b, base + m < b → b < base + tl.size →
      Top base tl b → Top base ((List.range m).foldl (compareSwap base) tl) b := by
  induction m with
  | zero => exact ⟨.refl, fun a ha hlt => by omega, fun _ _ _ h => h⟩
  | succ m ih =>
    obtain ⟨hre, htop, hkeep⟩ := ih (by omega)
    have hsize := hre.size_eq
    obtain ⟨hre', htop', hkeep'⟩ := compareSwap_spec
      ((List.range m).foldl (compareSwap base) tl) base (j := m) (by omega)
    rw [List.range_succ, List.foldl_append, List.foldl_cons, List.foldl_nil]
    exact ⟨hre.trans hre', htop' htop, fun b hb hlt h =>
      hkeep' b hb (by omega) (hkeep b (by omega) hlt h)⟩

theorem foldl_pass_spec (tl : TimeLines α) (base : Nat) {m : Nat} (hm : m < tl.size) :
    Reorders base tl ((List.range m).foldl (pass base) tl) ∧
    ∀ b, base + (tl.size - m) ≤ b → b < base + tl.size →
      Top base ((List.range m).foldl (pass base) tl) b := by
  induction m with
  | zero => exact ⟨.refl, fun b hb hlt => by omega⟩
  | succ m ih =>
    obtain ⟨hre, htop⟩ := ih (by omega)
    have hsize := hre.size_eq
    obtain ⟨hre', htop', hkeep⟩ := foldl_compareSwap_spec
      ((List.range m).foldl (pass base) tl) base (m := tl.size - 1 - m) (by omega)
    rw [List.range_succ, List.foldl_append, List.foldl_cons, List.foldl_nil, pass, hsize]
    refine ⟨hre.trans hre', fun b hb hlt => ?_⟩
    rcases (show b = base + (tl.size - 1 - m) ∨ base + (tl.size - 1 - m) < b by omega) with
      rfl | hlt'
    · exact htop'
    · exact hkeep b hlt' (by omega) (htop b (by omega) hlt)

def Sorted (tl : TimeLines α) : Prop :=
  ∀ a b, tl.offset - tl.size ≤ a → a < b → b < tl.offset → tl.offsetAt a ≤ tl.offsetAt b

theorem bubble_sorts (hn : 1 ≤ tl.size) (hle : tl.size ≤ tl.offset) :
    Reorders (tl.offset - tl.size) tl (tl.bubble (tl.offset - tl.size)) ∧
      Sorted (tl.bubble (tl.offset - tl.size)) := by
  obtain ⟨hre, htop⟩ := foldl_pass_spec tl (tl.offset - tl.size) (m := tl.size - 1) (by omega)
  refine ⟨hre, fun a b ha hab hb => ?_⟩
  obtain ⟨data, hd⟩ := hre.frame
  have hoff : (tl.bubble (tl.offset - tl.size)).offset = tl.offset := by rw [bubble, hd]
  have hsize : (tl.bubble (tl.offset - tl.size)).size = tl.size := hre.size_eq
  rw [hoff, hsize] at ha
  exact htop b (by omega) (by omega) a ha hab

/-! ## One more entry -/

def offsets (tl : TimeLines α) : Set Int := {x | ∃ f ∈ tl.retained, getOffset f = x}

def Exact (tl : TimeLines α) : Prop := IsLeast tl.offsets tl.lower ∧ IsGreatest tl.offsets tl.upper

theorem offsetAt_mem (hf : Filled tl) {i : Nat} (hi : tl.offset - tl.size ≤ i)
    (hlt : i < tl.offset) : tl.offsetAt i ∈ tl.offsets := by
  obtain ⟨f, hget⟩ := isSome_iff_exists.mp (hf i hi hlt)
  refine ⟨f, mem_retained.mpr ⟨i, ⟨hi, hlt⟩, hget⟩, ?_⟩
  rw [offsetAt, hget]
  rfl

theorem mem_offsets (h : x ∈ tl.offsets) :
    ∃ i, tl.offset - tl.size ≤ i ∧ i < tl.offset ∧ tl.offsetAt i = x := by
  obtain ⟨f, hf, rfl⟩ := h
  obtain ⟨i, ⟨hi, hlt⟩, hget⟩ := mem_retained.mp hf
  refine ⟨i, hi, hlt, ?_⟩
  rw [offsetAt, hget]
  rfl

theorem Sorted.ends (h : Sorted tl) (hf : Filled tl) (hn : 1 ≤ tl.size) (ho : 1 ≤ tl.offset) :
    IsLeast tl.offsets (tl.offsetAt (tl.offset - tl.size)) ∧
      IsGreatest tl.offsets (tl.offsetAt (tl.offset - 1)) := by
  refine ⟨⟨offsetAt_mem hf le_rfl (by omega), fun x hx => ?_⟩,
    offsetAt_mem hf (by omega) (by omega), fun x hx => ?_⟩
  · obtain ⟨i, hi, hlt, rfl⟩ := mem_offsets hx
    rcases hi.eq_or_lt with rfl | hi'
    · exact le_rfl
    · exact h _ _ le_rfl hi' hlt
  · obtain ⟨i, hi, hlt, rfl⟩ := mem_offsets hx
    rcases (show i = tl.offset - 1 ∨ i < tl.offset - 1 by omega) with rfl | hlt'
    · exact le_rfl
    · exact h _ _ hi hlt' (by omega)

def Settled (tl tl' : TimeLines α) : Prop :=
  Keeps tl tl' ∧ Exact tl' ∧ (tl'.ofo = false → Sorted tl')

theorem keeps_recalc (hn : 1 ≤ tl.size) : Keeps tl tl.recalc := by
  unfold recalc
  split_ifs with hsmall ho
  · exact ⟨rfl, rfl, rfl, rfl, id, id⟩
  · have hk := (bubble_sorts hn (not_le.mp (not_or.mp hsmall).2).le).1.keeps
      (not_le.mp (not_or.mp hsmall).2).le
    exact ⟨hk.1, hk.2, hk.3, hk.4, hk.5, hk.6⟩
  · exact ⟨rfl, rfl, rfl, rfl, id, id⟩

theorem keeps_checkOutOfOrder : Keeps tl tl.checkOutOfOrder := by
  unfold checkOutOfOrder
  split_ifs
  · exact ⟨rfl, rfl, rfl, rfl, id, id⟩
  · split
    · split_ifs <;> exact ⟨rfl, rfl, rfl, rfl, id, id⟩
    · exact ⟨rfl, rfl, rfl, rfl, id, id⟩

theorem keeps_bound (hn : 1 ≤ tl.size) (feed : α) (remove : Option α) :
    Keeps tl (tl.bound feed remove) := by
  have hwiden : Keeps tl (tl.widen (getOffset feed)) := keeps_widen
  have hk := hwiden.trans keeps_checkOutOfOrder
  unfold bound
  split_ifs
  · exact ⟨rfl, rfl, rfl, rfl, id, id⟩
  cases remove with
  | none => exact hk
  | some old =>
    dsimp only
    split_ifs
    · exact hk.trans (keeps_recalc (hk.size ▸ hn))
    · exact hk

theorem recalc_spec (tl : TimeLines α) (hl : tl.limit = true) (hn : 1 ≤ tl.size)
    (hlt : tl.size < tl.offset) (hf : Filled tl) (hs : tl.ofo = false → Sorted tl) :
    Settled tl tl.recalc := by
  rw [recalc, if_neg (by simp [hl]; omega)]
  split_ifs with ho
  · obtain ⟨hre, hsort⟩ := bubble_sorts hn hlt.le
    have hk := hre.keeps hlt.le
    refine ⟨⟨hk.1, hk.2, hk.3, hk.4, hk.5, hk.6⟩, hsort.ends (hk.5 hf) ?_ ?_, fun _ => hsort⟩
    · rw [hk.size]
      exact hn
    · rw [hk.offset]
      omega
  · have hsort := hs (by simpa using ho)
    exact ⟨⟨rfl, rfl, rfl, rfl, id, id⟩, hsort.ends hf hn (by omega), fun _ => hsort⟩

theorem checkOutOfOrder_spec (tl : TimeLines α) (hl : tl.limit = true) (hf : Filled tl)
    (ho : 2 ≤ tl.offset) :
    ∃ ofo, tl.checkOutOfOrder = tl.setBounds tl.lower tl.upper ofo ∧ (ofo = false → tl.ofo = false ∧
      (2 ≤ tl.size → tl.offsetAt (tl.offset - 2) ≤ tl.offsetAt (tl.offset - 1))) := by
  rw [checkOutOfOrder, if_neg (by simp [hl]; omega)]
  split
  · rename_i cur pre hcur hpre
    split_ifs with h
    · exact ⟨true, rfl, nofun⟩
    · refine ⟨tl.ofo, rfl, fun hfalse => ⟨hfalse, fun _ => ?_⟩⟩
      rw [offsetAt, offsetAt, hcur, hpre]
      exact not_lt.mp fun hlt => h ⟨hfalse, hlt⟩
  · rename_i hnone
    refine ⟨tl.ofo, rfl, fun hfalse => ⟨hfalse, fun h2 => ?_⟩⟩
    obtain ⟨cur, hcur⟩ := isSome_iff_exists.mp (hf (tl.offset - 1) (by omega) (by omega))
    obtain ⟨pre, hpre⟩ := isSome_iff_exists.mp (hf (tl.offset - 2) (by omega) (by omega))
    exact absurd hpre (hnone cur pre hcur)

/-- A limited time line of size `n`, without an entry where none was stored. -/
structure Ready (n : Nat) (tl : TimeLines α) : Prop where
  size : tl.size = n
  limit : tl.limit = true
  free : ∀ i, tl.offset ≤ i → i < tl.size → tl.data i = none

structure Window (n : Nat) (tl : TimeLines α) (added removed : List α) : Prop
    extends Ready n tl where
  offset : tl.offset = added.length
  filled : Filled tl
  perm : (added : Multiset α) = tl.retained + removed
  dropped : removed.length = added.length - n
  exact : if added = [] then tl.lower = 0 else Exact tl
  sorted : tl.ofo = false → Sorted tl

section
variable {n : Nat} (feed : α) (h : Ready n tl)

omit [Feed α]
include h

theorem Ready.getFeed_stored {i : Nat} (hi : tl.offset + 1 - n ≤ i) (hlt : i < tl.offset) :
    (tl.stored feed).getFeed i = tl.getFeed i := by
  have hne : i % tl.size ≠ tl.offset % tl.size := by
    have hs := h.size
    rw [Ne, mod_inj ⟨hi, by omega⟩ ⟨by omega, by omega⟩]
    exact hlt.ne
  exact update_of_ne hne ..

theorem Ready.getFeed_offset : tl.getFeed tl.offset =
    if tl.offset < n then none else tl.getFeed (tl.offset - n) := by
  have hs := h.size
  unfold getFeed
  split_ifs with hlt
  · rw [Nat.mod_eq_of_lt (by omega)]
    exact h.free _ le_rfl (by omega)
  · rw [hs, ← Nat.mod_eq_sub_mod (by omega)]

theorem Ready.retained_stored (hn : 1 ≤ n) :
    (tl.stored feed).retained + ↑(tl.getFeed tl.offset).toList = tl.retained + {feed} := by
  have hs := h.size
  have hrest : (tl.stored feed).retained =
      ∑ i ∈ Ico (tl.offset + 1 - n) tl.offset, ↑(tl.getFeed i).toList + {feed} := by
    rw [retained_eq, show (tl.stored feed).offset = tl.offset + 1 from rfl,
      show (tl.stored feed).size = n from hs, sum_Ico_succ_top (by omega),
      getFeed_stored_self]
    congr 1
    refine sum_congr rfl fun i hi => ?_
    rw [h.getFeed_stored feed (mem_Ico.mp hi).1 (mem_Ico.mp hi).2]
  rw [hrest, retained_eq, hs, h.getFeed_offset]
  split_ifs with hlt
  · rw [Nat.sub_eq_zero_of_le hlt, Nat.sub_eq_zero_of_le hlt.le]
    exact add_zero _
  · rw [sum_eq_sum_Ico_succ_bot (a := tl.offset - n) (by omega),
      show tl.offset - n + 1 = tl.offset + 1 - n by omega]
    rw [add_comm, ← add_assoc]

theorem Ready.mem_stored (hn : 1 ≤ n) : feed ∈ (tl.stored feed).retained := by
  refine mem_retained.mpr ⟨tl.offset, ⟨?_, Nat.lt_succ_self _⟩, getFeed_stored_self⟩
  change tl.offset + 1 - tl.size ≤ tl.offset
  have hs := h.size
  omega

theorem Ready.free_stored (i : Nat) (hi : (tl.stored feed).offset ≤ i)
    (hlt : i < (tl.stored feed).size) : (tl.stored feed).data i = none := by
  change tl.offset + 1 ≤ i at hi
  change i < tl.size at hlt
  exact (update_of_ne (by rw [Nat.mod_eq_of_lt (by omega)]; omega) ..).trans
    (h.free i (by omega) hlt)

end

theorem add_eq (hl : tl.limit = true) (feed : α) : tl.add feed =
    some ((tl.stored feed).bound feed (tl.getFeed tl.offset), tl.getFeed tl.offset) := by
  rw [add, put, if_pos hl]
  rfl

/-- An addition to a ring: the new entry comes in, and only the one at its place goes. -/
theorem Ready.add {n : Nat} (h : Ready n tl) (hn : 1 ≤ n) {feed : α} {remove : Option α}
    (hadd : tl.add feed = some (tl', remove)) :
    Ready n tl' ∧ remove = (if tl.offset < n then none else tl.getFeed (tl.offset - n)) ∧
      tl'.retained + ↑remove.toList = tl.retained + {feed} ∧ feed ∈ tl'.retained := by
  rw [add_eq h.limit] at hadd
  cases hadd
  have hsize : 1 ≤ (tl.stored feed).size := h.size.symm ▸ hn
  have hk := keeps_bound hsize feed (tl.getFeed tl.offset)
  exact ⟨⟨hk.size.trans h.size, hk.limit.trans h.limit, hk.free (h.free_stored feed)⟩,
    h.getFeed_offset, hk.retained.symm ▸ h.retained_stored feed hn,
    hk.retained.symm ▸ h.mem_stored feed hn⟩

section
variable {n : Nat} {added removed : List α} (feed : α) (h : Window n tl added removed)

include h

theorem Window.filled_stored : Filled (tl.stored feed) := by
  intro i hi hlt
  rcases (show i = tl.offset ∨ i < tl.offset from (Nat.lt_succ_iff_lt_or_eq.mp hlt).symm) with
    rfl | hlt'
  · rw [getFeed_stored_self]
    rfl
  · have hi' : tl.offset + 1 - n ≤ i := h.size ▸ hi
    rw [h.getFeed_stored feed hi' hlt']
    exact h.filled i (by rw [h.size]; omega) hlt'

theorem Window.sorted_stored (hs : Sorted tl) (hlast : 2 ≤ n → 1 ≤ tl.offset →
      (tl.stored feed).offsetAt (tl.offset - 1) ≤ (tl.stored feed).offsetAt tl.offset) :
    Sorted (tl.stored feed) := by
  intro a b ha hab hb
  have ha' : tl.offset + 1 - n ≤ a := h.size ▸ ha
  have hold : ∀ i, tl.offset + 1 - n ≤ i → i < tl.offset →
      (tl.stored feed).offsetAt i = tl.offsetAt i := fun i hi hlt => by
    rw [offsetAt, offsetAt, h.getFeed_stored feed hi hlt]
  have hle : ∀ b, a < b → b < tl.offset →
      (tl.stored feed).offsetAt a ≤ (tl.stored feed).offsetAt b := fun b hab hlt => by
    rw [hold a ha' (by omega), hold b (by omega) hlt]
    exact hs a b (by rw [h.size]; omega) hab hlt
  rcases (Nat.lt_succ_iff_lt_or_eq.mp hb) with hlt | rfl
  · exact hle b hab hlt
  · rcases (show a = tl.offset - 1 ∨ a < tl.offset - 1 by omega) with rfl | hlt
    · exact hlast (by omega) (by omega)
    · exact (hle _ hlt (by omega)).trans (hlast (by omega) (by omega))

theorem Window.check_spec (he : Exact tl) (hpos : 1 ≤ tl.offset) :
    ∃ ofo, ((tl.stored feed).widen (getOffset feed)).checkOutOfOrder = (tl.stored feed).setBounds
        (min tl.lower (getOffset feed)) (max tl.upper (getOffset feed)) ofo ∧
      (ofo = false → Sorted (tl.stored feed)) := by
  rw [widen_eq (show (tl.stored feed).lower ≤ (tl.stored feed).upper from he.1.2 he.2.1)]
  obtain ⟨ofo, hcheck, hofo⟩ := checkOutOfOrder_spec ((tl.stored feed).setBounds
    (min tl.lower (getOffset feed)) (max tl.upper (getOffset feed)) tl.ofo) h.limit
    (h.filled_stored feed) (Nat.succ_le_succ hpos)
  exact ⟨ofo, hcheck, fun hfalse => h.sorted_stored feed (h.sorted (hofo hfalse).1) fun h2 _ =>
    (hofo hfalse).2 (h2.trans h.size.ge)⟩

end

open List

section
variable {n : Nat} {added removed : List α} (feed : α) (h : Window n tl added removed)
  (hn : 1 ≤ n)
include h hn

theorem Window.offsets_stored :
    (x ∈ (tl.stored feed).offsets → x ∈ tl.offsets ∨ x = getOffset feed) ∧
    (x ∈ tl.offsets → x ∈ (tl.stored feed).offsets ∨
      ∃ old, tl.getFeed tl.offset = some old ∧ getOffset old = x) := by
  have hsum := h.retained_stored feed hn
  constructor
  · rintro ⟨f, hf, rfl⟩
    have hmem := hsum ▸ Multiset.mem_add.mpr (.inl hf)
    rcases Multiset.mem_add.mp hmem with hmem | hmem
    · exact .inl ⟨f, hmem, rfl⟩
    · exact .inr (congrArg _ (Multiset.mem_singleton.mp hmem))
  · rintro ⟨f, hf, rfl⟩
    have hmem := hsum ▸ Multiset.mem_add.mpr (.inl hf)
    rcases Multiset.mem_add.mp hmem with hmem | hmem
    · exact .inl ⟨f, hmem, rfl⟩
    · exact .inr ⟨f, Option.mem_toList.mp hmem, rfl⟩

theorem Window.offset_mem_stored : getOffset feed ∈ (tl.stored feed).offsets :=
  ⟨feed, h.mem_stored feed hn, rfl⟩

theorem Window.exact_widen (he : Exact tl) (hkeep : ∀ old, tl.getFeed tl.offset = some old →
      ¬(getOffset old = min tl.lower (getOffset feed) ∨
        getOffset old = max tl.upper (getOffset feed))) :
    IsLeast (tl.stored feed).offsets (min tl.lower (getOffset feed)) ∧
      IsGreatest (tl.stored feed).offsets (max tl.upper (getOffset feed)) := by
  have hnew := h.offset_mem_stored feed hn
  have hold : ∀ x ∈ tl.offsets, (x = min tl.lower (getOffset feed) ∨
      x = max tl.upper (getOffset feed)) → x ∈ (tl.stored feed).offsets := by
    intro x hx hor
    rcases (h.offsets_stored feed hn).2 hx with hmem | ⟨old, hget, rfl⟩
    · exact hmem
    · exact absurd hor (hkeep old hget)
  refine ⟨⟨?_, fun x hx => ?_⟩, ?_, fun x hx => ?_⟩
  · rcases min_choice tl.lower (getOffset feed) with hmin | hmin
    · rw [hmin]
      exact hold _ he.1.1 (.inl hmin.symm)
    · rw [hmin]
      exact hnew
  · rcases (h.offsets_stored feed hn).1 hx with hmem | rfl
    · exact (Int.min_le_left ..).trans (he.1.2 hmem)
    · exact min_le_right ..
  · rcases max_choice tl.upper (getOffset feed) with hmax | hmax
    · rw [hmax]
      exact hold _ he.2.1 (.inr hmax.symm)
    · rw [hmax]
      exact hnew
  · rcases (h.offsets_stored feed hn).1 hx with hmem | rfl
    · exact (he.2.2 hmem).trans (le_max_left ..)
    · exact le_max_right ..

theorem Window.settled_first (hnil : added = []) : Settled (tl.stored feed)
    { tl.stored feed with lower := getOffset feed, upper := getOffset feed } := by
  have h0 : tl.offset = 0 := by rw [h.offset, hnil, length_nil]
  have hall : ∀ x ∈ (tl.stored feed).offsets, x = getOffset feed := by
    intro x hx
    obtain ⟨i, -, hlt, rfl⟩ := mem_offsets hx
    have hi : i = tl.offset := by
      change i < tl.offset + 1 at hlt
      omega
    rw [hi, offsetAt, getFeed_stored_self]
    rfl
  have hnew := h.offset_mem_stored feed hn
  refine ⟨⟨rfl, rfl, rfl, rfl, id, id⟩, ⟨⟨hnew, fun x hx => (hall x hx).ge⟩, hnew,
    fun x hx => (hall x hx).le⟩, fun _ a b _ hab hb => ?_⟩
  change b < tl.offset + 1 at hb
  omega

theorem Window.bound_spec (h0 : ∀ f ∈ added, getOffset f ≠ 0) :
    Settled (tl.stored feed) ((tl.stored feed).bound feed (tl.getFeed tl.offset)) := by
  have hex := h.exact
  split_ifs at hex with hnil
  · rw [bound, if_pos (show (tl.stored feed).lower = 0 from hex)]
    exact h.settled_first feed hn hnil
  · have hlow : (tl.stored feed).lower ≠ 0 := by
      obtain ⟨f, hf, hx⟩ := hex.1.1
      change tl.lower ≠ 0
      rw [← hx]
      exact h0 f (Multiset.mem_coe.mp (h.perm ▸ Multiset.mem_add.mpr (.inl hf)))
    obtain ⟨ofo, hcheck, hsort⟩ := h.check_spec feed hex
      (h.offset ▸ length_pos_iff.mpr hnil)
    simp only [bound, if_neg hlow, hcheck]
    split
    · rename_i old hold
      split_ifs with hor
      · -- the dropped entry had a bound, so the ring is full
        rw [h.getFeed_offset] at hold
        have hfull : ¬tl.offset < n := fun hlt => by simp [hlt] at hold
        obtain ⟨hk, hrest⟩ := recalc_spec ((tl.stored feed).setBounds
          (min tl.lower (getOffset feed)) (max tl.upper (getOffset feed)) ofo) h.limit
          (hn.trans h.size.ge) (Nat.lt_succ_of_le (h.size.le.trans (not_lt.mp hfull)))
          (h.filled_stored feed) hsort
        exact ⟨⟨hk.1, hk.2, hk.3, hk.4, hk.5, hk.6⟩, hrest⟩
      · refine ⟨⟨rfl, rfl, rfl, rfl, id, id⟩, h.exact_widen feed hn hex fun old' hold' => ?_, hsort⟩
        cases hold.symm.trans hold'
        exact hor
    · rename_i hnone
      exact ⟨⟨rfl, rfl, rfl, rfl, id, id⟩,
        h.exact_widen feed hn hex fun old hold => absurd hold (hnone ▸ nofun), hsort⟩

theorem Window.add_spec (h0 : ∀ f ∈ added, getOffset f ≠ 0) : ∃ tl' remove,
    tl.add feed = some (tl', remove) ∧
      Window n tl' (added ++ [feed]) (removed ++ remove.toList) := by
  obtain ⟨hk, hex, hsort⟩ := h.bound_spec feed hn h0
  have hsize := h.size
  have hoff := h.offset
  refine ⟨_, tl.getFeed tl.offset, add_eq h.limit feed, (h.toReady.add hn (add_eq h.limit feed)).1,
    ?_, hk.filled (h.filled_stored feed), ?_, ?_, ?_, hsort⟩
  · rw [hk.offset, length_append]
    exact congrArg (· + 1) hoff
  · rw [hk.retained, ← Multiset.coe_add, ← Multiset.coe_add, h.perm, Multiset.coe_singleton,
      add_right_comm, ← h.retained_stored feed hn, add_right_comm, add_assoc]
  · have hd := h.dropped
    rw [h.getFeed_offset, length_append, length_append, length_singleton]
    split_ifs with hlt
    · rw [toList_none, length_nil]
      omega
    · obtain ⟨f, hf⟩ := isSome_iff_exists.mp
        (h.filled (tl.offset - n) (by omega) (by omega))
      rw [hf, toList_some, length_singleton]
      omega
  · rw [if_neg (append_ne_nil_of_right_ne_nil _ (cons_ne_nil _ _))]
    exact hex

end

theorem Window.addAll {n : Nat} {removed : List α} (h : Window n tl added removed) (hn : 1 ≤ n)
    (fs : List α) (h0 : ∀ f ∈ added ++ fs, getOffset f ≠ 0) : ∃ tl' removed',
      addAll tl removed fs = some (tl', removed') ∧ Window n tl' (added ++ fs) removed' := by
  induction fs generalizing tl added removed with
  | nil => exact ⟨tl, removed, rfl, (append_nil added).symm ▸ h⟩
  | cons feed fs ih =>
    obtain ⟨tl', remove, hadd, hwin⟩ := h.add_spec feed hn fun f hf =>
      h0 f (mem_append_left _ hf)
    rw [addAll, hadd, bind_some]
    rw [append_cons] at h0 ⊢
    exact ih hwin h0

omit [Feed α] in
theorem newEvTimeLines_ready (n : Nat) : Ready (α := α) n (newEvTimeLines n true) :=
  ⟨rfl, rfl, fun _ _ _ => rfl⟩

theorem newEvTimeLines_window (n : Nat) : Window (α := α) n (newEvTimeLines n true) [] [] :=
  ⟨newEvTimeLines_ready n, rfl, fun i _ hlt => absurd hlt (Nat.not_lt_zero i),
    by simp [retained_eq, newEvTimeLines], (Nat.zero_sub n).symm, rfl,
    fun _ _ b _ _ hb => absurd hb (Nat.not_lt_zero b)⟩

/-! ## Growing -/

theorem doubled_spec {offset fuel oldsize : Nat} (h : offset < 2 ^ fuel * oldsize)
    (hlt : oldsize ≤ offset) : ∃ newsize, doubled offset fuel oldsize = some newsize ∧
      offset < newsize := by
  induction fuel generalizing oldsize with
  | zero => omega
  | succ fuel ih =>
    unfold doubled
    split_ifs with hgt
    · exact ⟨_, rfl, hgt⟩
    · exact ih (by rw [← mul_assoc, mul_right_comm, ← pow_succ]; exact h) (not_lt.mp hgt)

structure Grown (tl : TimeLines α) (added : List α) : Prop where
  limit : tl.limit = false
  offset : tl.offset = added.length
  size : 1 ≤ tl.size
  le : added.length ≤ tl.size
  data : ∀ i < added.length, tl.data i = added[i]?

theorem bound_unlimited (tl : TimeLines α) (h : tl.limit = false) (feed : α) :
    ∃ lower upper, tl.bound feed none = tl.setBounds lower upper tl.ofo := by
  unfold bound
  split_ifs
  · exact ⟨_, _, rfl⟩
  · obtain ⟨lower, upper, hw⟩ : ∃ lower upper,
        tl.widen (getOffset feed) = tl.setBounds lower upper tl.ofo := by
      unfold widen
      split_ifs <;> exact ⟨_, _, rfl⟩
    exact ⟨lower, upper, by rw [hw, checkOutOfOrder, if_pos (.inl h)]⟩

omit [Feed α] in
theorem Grown.stored (h : Grown tl added) (feed : α) {size : Nat} {data : Nat → Option α}
    (hlt : added.length < size) (hdata : ∀ i < added.length, data i = tl.data i) :
    Grown { tl with size, data := update data tl.offset (some feed),
                    offset := tl.offset + 1 } (added ++ [feed]) := by
  have hoff := h.offset
  refine ⟨h.limit, ?_, Nat.one_le_of_lt hlt, ?_, fun i hi => ?_⟩
  · rw [length_append, ← hoff, length_singleton]
  · rw [length_append]
    exact hlt
  · rw [length_append, length_singleton] at hi
    rcases Nat.lt_succ_iff_lt_or_eq.mp hi with hi | rfl
    · rw [getElem?_append_left hi, ← h.data i hi, ← hdata i hi]
      exact update_of_ne (hoff ▸ hi.ne) ..
    · rw [getElem?_concat_length, hoff]
      exact update_self ..

theorem Grown.add_spec (h : Grown tl added) (feed : α) :
    ∃ tl', tl.add feed = some (tl', none) ∧ Grown tl' (added ++ [feed]) := by
  obtain ⟨tl', hput, hg⟩ : ∃ tl', tl.put feed = some (tl', none) ∧ Grown tl' (added ++ [feed]) := by
    rw [put, if_neg (by simp [h.limit])]
    split_ifs with hlt
    · exact ⟨_, rfl, h.stored feed (h.offset ▸ hlt) fun _ _ => rfl⟩
    · have hfuel : tl.offset < 2 ^ (tl.offset + 1) * tl.size :=
        ((Nat.lt_succ_self _).trans Nat.lt_two_pow_self).trans_le (Nat.le_mul_of_pos_right _ h.size)
      obtain ⟨newsize, hnew, hlt'⟩ := doubled_spec hfuel (not_lt.mp hlt)
      rw [expanse, if_pos (not_lt.mp hlt), hnew]
      exact ⟨_, rfl, h.stored feed (h.offset ▸ hlt') fun i hi => if_pos (hi.trans_le h.le)⟩
  obtain ⟨lower, upper, hb⟩ := bound_unlimited tl' hg.limit feed
  refine ⟨tl'.setBounds lower upper tl'.ofo, ?_, hg.1, hg.2, hg.3, hg.4, hg.5⟩
  rw [add, hput, map_some, ← hb]

theorem Grown.addAll (h : Grown tl added) (fs : List α) :
    ∃ tl', addAll tl [] fs = some (tl', []) ∧ Grown tl' (added ++ fs) := by
  induction fs generalizing tl added with
  | nil => exact ⟨tl, rfl, (append_nil added).symm ▸ h⟩
  | cons feed fs ih =>
    obtain ⟨tl', hadd, hgrown⟩ := h.add_spec feed
    rw [addAll, hadd, bind_some, append_cons]
    exact ih hgrown

/-- **A limited time line has exactly its newest entries**, every other one was returned when it was
dropped, and its bounds are those of its entries, in whatever order the offsets came. An unlimited
one has all entries in order. -/
theorem addAll_exact (size : Nat) (hsize : 1 ≤ size) (fs : List α) :
    ((∀ f ∈ fs, getOffset f ≠ 0) → ∃ tl removed,
      addAll (newEvTimeLines size true) [] fs = some (tl, removed) ∧
      Multiset.card tl.retained = min fs.length size ∧
      (fs : Multiset α) = tl.retained + removed ∧
      (fs ≠ [] → IsLeast {x | ∃ f ∈ tl.retained, getOffset f = x} tl.lower ∧
        IsGreatest {x | ∃ f ∈ tl.retained, getOffset f = x} tl.upper)) ∧
    ∃ tl, addAll (newEvTimeLines size false) [] fs = some (tl, []) ∧
      tl.getRange = (0, fs.length) ∧ ∀ i < fs.length, tl.getFeed i = fs[i]? := by
  constructor
  · intro h0
    obtain ⟨tl, removed, hrun, h⟩ := (newEvTimeLines_window size).addAll hsize fs h0
    rw [nil_append] at h
    refine ⟨tl, removed, hrun, ?_, h.perm, fun hne => ?_⟩
    · have hcard := congrArg Multiset.card h.perm
      have hdropped := h.dropped
      rw [Multiset.coe_card, Multiset.card_add, Multiset.coe_card] at hcard
      omega
    · have hex := h.exact
      rwa [if_neg hne] at hex
  · have hnew : Grown (newEvTimeLines (α := α) size false) [] :=
      ⟨rfl, rfl, hsize, Nat.zero_le _, nofun⟩
    obtain ⟨tl, hrun, h⟩ := hnew.addAll fs
    rw [nil_append] at h
    have hle := h.le
    have hoff := h.offset
    refine ⟨tl, hrun, ?_, fun i hi => ?_⟩
    · unfold getRange
      split_ifs with hlt
      · rw [h.offset]
      · rw [Nat.sub_eq_zero_of_le (by omega), h.offset]
    · rw [getFeed, Nat.mod_eq_of_lt (hi.trans_le hle), h.data i hi]

/-- Entries that are their offsets. -/
instance : Feed Int := ⟨id⟩

theorem addAll_exact_two : ∃ tl removed,
    addAll (newEvTimeLines (α := Int) 2 true) [] [3, 1, 2, 2] = some (tl, removed) ∧
    Multiset.card tl.retained = 2 ∧ (([3, 1, 2, 2] : List Int) : Multiset Int) =
      tl.retained + removed := by
  obtain ⟨tl, removed, hrun, hcard, hsum, -⟩ :=
    (addAll_exact (α := Int) 2 (by decide) [3, 1, 2, 2]).1 (by decide)
  exact ⟨tl, removed, hrun, hcard, hsum⟩

end TimeLines

end Ligase.Stream.Ring

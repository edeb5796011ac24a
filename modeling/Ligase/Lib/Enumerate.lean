import Mathlib.Data.List.Sort
import Mathlib.Data.Set.Finite.Basic

/-!
# Orders that a program leaves open

A loop over the entries of a map visits them in any order, and a sort that is not stable may put
elements with the same key in any order.

* `Range`: an order of the entries of a map; `Range.nonempty`: a finite map has one.
* `SortBy`: a sort by a key; `SortBy.exists_eq`: every sorted arrangement is the result of one;
  `SortBy.exists_last`: one that puts an element after its equals.
* `SortLess`: a sort by a comparison.
-/

namespace Ligase.Lib

open List

variable {κ α : Type*}

/-! ## Entries of a map -/

/-- An order in which the entries of a map are visited: every key that has an entry, once. -/
structure Range (m : κ → Option α) where
  keys : List κ
  nodup : keys.Nodup
  mem_keys : ∀ k, k ∈ keys ↔ (m k).isSome = true

namespace Range

variable {m : κ → Option α}

def values (r : Range m) : List α := r.keys.filterMap m

theorem mem_values {r : Range m} {a : α} : a ∈ r.values ↔ ∃ k, m k = some a := by
  rw [values, mem_filterMap]
  constructor
  · rintro ⟨k, -, h⟩
    exact ⟨k, h⟩
  · rintro ⟨k, h⟩
    exact ⟨k, (r.mem_keys k).mpr (by rw [h]; rfl), h⟩

theorem nonempty (h : {k | (m k).isSome = true}.Finite) : Nonempty (Range m) :=
  ⟨⟨h.toFinset.toList, h.toFinset.nodup_toList, fun k => by simp⟩⟩

end Range

/-! ## Sorting -/

/-- A sort by a key: the result is a sorted rearrangement. -/
structure SortBy (key : α → Int) where
  sort : List α → List α
  perm : ∀ l, (sort l).Perm l
  sorted : ∀ l, (sort l).Pairwise fun a b => key a ≤ key b

namespace SortBy

variable (key : α → Int)

def insertion : SortBy key where
  sort := List.insertionSort fun a b => key a ≤ key b
  perm := perm_insertionSort _
  sorted := fun l =>
    have : Std.Total fun a b : α => key a ≤ key b := ⟨fun a b => le_total (key a) (key b)⟩
    have : IsTrans α fun a b => key a ≤ key b := ⟨fun _ _ _ => le_trans⟩
    pairwise_insertionSort _ l

variable {key}

open Classical in
theorem exists_eq {l l' : List α} (hperm : l'.Perm l)
    (hsorted : l'.Pairwise fun a b => key a ≤ key b) : ∃ S : SortBy key, S.sort l = l' := by
  refine ⟨⟨fun x => if x = l then l' else (insertion key).sort x, fun x => ?_, fun x => ?_⟩,
    if_pos rfl⟩
  · split_ifs with h
    · exact h ▸ hperm
    · exact (insertion key).perm x
  · split_ifs
    · exact hsorted
    · exact (insertion key).sorted x

open Classical in
theorem exists_last {l : List α} {a : α} (ha : a ∈ l) :
    ∃ S : SortBy key, ∃ l₁ l₂, S.sort l = l₁ ++ a :: l₂ ∧
      ∀ b ∈ l, b ≠ a → key b ≤ key a → b ∈ l₁ := by
  obtain ⟨x, hx⟩ : ∃ x, x = (insertion key).sort (l.erase a) := ⟨_, rfl⟩
  have hperm : x.Perm (l.erase a) := hx ▸ (insertion key).perm _
  have hsorted := hx ▸ (insertion key).sorted _
  have hsplit : (x.filter (key · ≤ key a) ++ a :: x.filter (fun b => ¬ key b ≤ key a)).Perm l := by
    refine perm_middle.trans (((List.Perm.cons a ?_).trans (.cons a hperm)).trans
      (perm_cons_erase ha).symm)
    simpa only [decide_not] using filter_append_perm (fun b => decide (key b ≤ key a)) x
  refine ⟨_, _, _, (exists_eq hsplit ?_).choose_spec, fun b hb hne hle => ?_⟩
  · refine pairwise_append.mpr ⟨hsorted.filter _, pairwise_cons.mpr ⟨fun b hb => ?_,
      hsorted.filter _⟩, fun b hb c hc => ?_⟩
    · have := (mem_filter.mp hb).2
      simp only [decide_eq_true_eq] at this
      omega
    · have hb := (mem_filter.mp hb).2
      simp only [decide_eq_true_eq] at hb
      rcases mem_cons.mp hc with rfl | hc
      · exact hb
      · have hc := (mem_filter.mp hc).2
        simp only [decide_eq_true_eq] at hc
        omega
  · refine mem_filter.mpr ⟨?_, by simpa using hle⟩
    exact hperm.mem_iff.mpr ((mem_erase_of_ne hne).mpr hb)

end SortBy

/-- A sort by a comparison: no element of the result comes after one that it is less than. -/
structure SortLess (less : α → α → Bool) where
  sort : List α → List α
  perm : ∀ l, (sort l).Perm l
  sorted : ∀ l, (sort l).Pairwise fun a b => less b a = false

end Ligase.Lib

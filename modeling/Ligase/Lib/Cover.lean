import Mathlib.Data.List.Basic
import Mathlib.Tactic.Common

/-!
# Extending a list by what it does not cover

`extend covers items new` goes through `new` and appends each element that no element collected so
far covers.

* `extend_eq_append`: what is appended is new and not covered by the old elements.
* **`exists_covers_extend`**: everything new is covered in the end.
* `extend_eq_self`: nothing is appended if everything new is covered.
* `extend_map`: a map that keeps covering keeps what is appended.
-/

namespace Ligase.Lib

open List

variable {α : Type*} (covers : α → α → Bool)

def extend (items new : List α) : List α :=
  new.foldl (fun items x => if items.any (covers · x) then items else items ++ [x]) items

variable {covers} {items new : List α} {x : α}

theorem extend_cons : extend covers items (x :: new) =
    extend covers (if items.any (covers · x) then items else items ++ [x]) new := rfl

theorem extend_eq_append (covers : α → α → Bool) (items new : List α) :
    ∃ added, extend covers items new = items ++ added ∧
      ∀ x ∈ added, x ∈ new ∧ ∀ c ∈ items, covers c x = false := by
  induction new generalizing items with
  | nil => exact ⟨[], (append_nil _).symm, nofun⟩
  | cons x new ih =>
    rw [extend_cons]
    by_cases h : items.any (covers · x) = true
    · rw [if_pos h]
      obtain ⟨added, he, ha⟩ := ih items
      exact ⟨added, he, fun y hy => ⟨mem_cons_of_mem _ (ha y hy).1, (ha y hy).2⟩⟩
    · rw [if_neg h]
      obtain ⟨added, he, ha⟩ := ih (items ++ [x])
      refine ⟨x :: added, by rw [he, append_assoc, singleton_append], ?_⟩
      intro y hy
      rcases mem_cons.mp hy with rfl | hy
      · refine ⟨mem_cons_self, fun c hc => ?_⟩
        rw [Bool.not_eq_true, any_eq_false] at h
        exact Bool.eq_false_iff.mpr (h c hc)
      · exact ⟨mem_cons_of_mem _ (ha y hy).1, fun c hc => (ha y hy).2 c (mem_append_left _ hc)⟩

theorem subset_extend : items ⊆ extend covers items new := by
  obtain ⟨added, he, -⟩ := extend_eq_append covers items new
  rw [he]
  exact subset_append_left items added

theorem exists_covers_extend (hrefl : ∀ x, covers x x = true) (hx : x ∈ new) :
    ∃ c ∈ extend covers items new, covers c x = true := by
  induction new generalizing items with
  | nil => cases hx
  | cons y new ih =>
    rw [extend_cons]
    rcases mem_cons.mp hx with rfl | hx
    · by_cases h : items.any (covers · x) = true
      · rw [if_pos h]
        obtain ⟨c, hc, hcov⟩ := any_eq_true.mp h
        exact ⟨c, subset_extend hc, hcov⟩
      · rw [if_neg h]
        have hmem : x ∈ items ++ [x] := mem_append_right _ (mem_singleton_self x)
        exact ⟨x, subset_extend hmem, hrefl x⟩
    · exact ih hx

theorem extend_eq_self (h : ∀ x ∈ new, ∃ c ∈ items, covers c x = true) :
    extend covers items new = items := by
  induction new with
  | nil => rfl
  | cons x new ih =>
    rw [extend_cons, if_pos (any_eq_true.mpr (h x mem_cons_self))]
    exact ih fun y hy => h y (mem_cons_of_mem _ hy)

theorem extend_map {β : Type*} {f : α → β} {covers' : β → β → Bool} (P : α → Prop)
    (h : ∀ a, P a → ∀ b, P b → covers' (f a) (f b) = covers a b) (hi : ∀ a ∈ items, P a)
    (hn : ∀ a ∈ new, P a) :
    extend covers' (items.map f) (new.map f) = (extend covers items new).map f := by
  induction new generalizing items with
  | nil => rfl
  | cons x new ih =>
    have hx : P x := hn x mem_cons_self
    have hn' : ∀ a ∈ new, P a := fun a ha => hn a (mem_cons_of_mem _ ha)
    have hany : (items.map f).any (covers' · (f x)) = items.any (covers · x) := by
      rw [any_map, Bool.eq_iff_iff, any_eq_true, any_eq_true]
      refine exists_congr fun a => and_congr_right fun ha => ?_
      rw [Function.comp_apply, h a (hi a ha) x hx]
    rw [map_cons, extend_cons, extend_cons, hany]
    by_cases hc : items.any (covers · x) = true
    · rw [if_pos hc, if_pos hc]
      exact ih hi hn'
    · rw [if_neg hc, if_neg hc, ← map_singleton, ← map_append]
      refine ih (fun a ha => ?_) hn'
      rcases mem_append.mp ha with ha | ha
      · exact hi a ha
      · exact mem_singleton.mp ha ▸ hx

end Ligase.Lib

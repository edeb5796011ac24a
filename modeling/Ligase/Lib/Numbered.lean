import Mathlib.Tactic.Common

/-!
# Numbered lists

The elements of a list bear consecutive numbers. Parts of such a list are numbered again, an element
is known by its number, and the elements from a number on are the list without its first elements.

* `Numbered.take`, `Numbered.drop`, `Numbered.concat`: parts and longer lists.
* `Numbered.filter_le`: the elements from a number on.
* `Numbered.mem_of_between`: a numbered part has all elements between its ends.
-/

namespace Ligase.Lib

open List

variable {α : Type} {f : α → Int} {c d : Int} {l m : List α} {x y : α}

/-- The elements are numbered from `c` on. -/
def Numbered (f : α → Int) (c : Int) (l : List α) : Prop :=
  ∀ (k : Nat) (x : α), l[k]? = some x → f x = c + k

namespace Numbered

theorem nil : Numbered f c [] := fun _ _ h => (nomatch h)

section
variable (h : Numbered f c l)
include h

theorem take (n : Nat) : Numbered f c (l.take n) := by
  intro k x hx
  rw [getElem?_take] at hx
  split_ifs at hx
  exact h k x hx

theorem drop (n : Nat) : Numbered f (c + n) (l.drop n) := by
  intro k x hx
  rw [getElem?_drop] at hx
  have := h (n + k) x hx
  omega

theorem concat (hx : f x = c + l.length) : Numbered f c (l ++ [x]) := by
  intro k y hy
  rw [getElem?_append] at hy
  split_ifs at hy with hk
  · exact h k y hy
  · obtain ⟨hlt, rfl⟩ := List.getElem?_eq_some_iff.mp hy
    have : k - l.length = 0 := by simpa using hlt
    rw [getElem_singleton, hx]
    omega

theorem bounds (hx : x ∈ l) : c ≤ f x ∧ f x < c + l.length := by
  obtain ⟨k, hk⟩ := mem_iff_getElem?.mp hx
  have hlt := (List.getElem?_eq_some_iff.mp hk).1
  have := h k x hk
  omega

theorem eq_of_mem (hx : x ∈ l) (hy : y ∈ l) (hxy : f x = f y) : x = y := by
  obtain ⟨k, hk⟩ := mem_iff_getElem?.mp hx
  obtain ⟨j, hj⟩ := mem_iff_getElem?.mp hy
  have hkj : k = j := by
    have h₁ := h k x hk
    have h₂ := h j y hj
    omega
  rw [hkj, hj] at hk
  exact (Option.some.inj hk).symm

theorem head? (hx : l.head? = some x) : f x = c := by
  rw [head?_eq_getElem?] at hx
  have := h 0 x hx
  omega

theorem getLast? (hx : l.getLast? = some x) : f x + 1 = c + l.length := by
  rw [getLast?_eq_getElem?] at hx
  have hlt := (List.getElem?_eq_some_iff.mp hx).1
  have := h _ x hx
  omega

theorem filter_le (hcd : c ≤ d) : l.filter (fun x => d ≤ f x) = l.drop (d - c).toNat := by
  induction l generalizing c with
  | nil => simp
  | cons x l ih =>
    have hx : f x = c := h.head? rfl
    by_cases hd : d ≤ f x
    · have h0 : (d - c).toNat = 0 := by omega
      rw [h0, drop_zero, filter_eq_self]
      intro y hy
      have := (h.bounds hy).1
      simp only [decide_eq_true_eq]
      omega
    · have hsucc : (d - c).toNat = (d - (c + 1)).toNat + 1 := by omega
      rw [filter_cons_of_neg (by simpa using hd), hsucc, drop_succ_cons]
      exact ih (h.drop 1) (by omega)

end

theorem mem_of_between (hl : Numbered f c l) (hm : Numbered f d m) (hsub : m ⊆ l) (hx : x ∈ l)
    (hd : d ≤ f x) (hlt : f x < d + m.length) : x ∈ m := by
  have hk : (f x - d).toNat < m.length := by omega
  have hmem := getElem_mem hk
  have hf := hm _ _ (getElem?_eq_getElem hk)
  have heq : x = m[(f x - d).toNat] := hl.eq_of_mem hx (hsub hmem) (by omega)
  rw [heq]
  exact hmem

end Numbered

end Ligase.Lib

import Mathlib.Tactic.Common

/-!
# Reading page by page

A client that reads page by page asks with a cursor and gets an answer, and with it the next cursor
or the sign that there is no more.

* `asked`, `answers`, `drained`: the cursors asked with, the answers, and whether the reading came
  to its end, in a number of requests.
* **`drains_iff`**: the reading is complete exactly when no bad cursor is asked with.
-/

namespace Ligase.Lib

open List

section
variable {κ ρ α : Type*} (fetch : κ → Option (ρ × Option κ))

def asked : Nat → κ → List κ
  | 0, _ => []
  | n + 1, k =>
    k :: match fetch k with
      | some (_, some k') => asked n k'
      | _ => []

def answers : Nat → κ → List ρ
  | 0, _ => []
  | n + 1, k =>
    match fetch k with
    | some (r, some k') => r :: answers n k'
    | some (r, none) => [r]
    | none => []

def drained : Nat → κ → Bool
  | 0, _ => false
  | n + 1, k =>
    match fetch k with
    | some (_, some k') => drained n k'
    | some (_, none) => true
    | none => false

/-- The reading from `k` comes to its end, and its answers have the items. -/
def Drains (items : ρ → List α) (k : κ) (all : List α) : Prop :=
  ∃ n, drained fetch n k = true ∧ (answers fetch n k).flatMap items = all

variable {fetch} {items : ρ → List α} {k k' : κ} {r : ρ} {all : List α}

theorem drains_of_last (h : fetch k = some (r, none)) :
    Drains fetch items k all ↔ items r = all := by
  constructor
  · rintro ⟨n, hn, hall⟩
    cases n with
    | zero => cases hn
    | succ n => simpa [answers, h] using hall
  · intro hall
    exact ⟨1, by simp [drained, h], by simpa [answers, h] using hall⟩

theorem drains_of_next (h : fetch k = some (r, some k')) :
    Drains fetch items k (items r ++ all) ↔ Drains fetch items k' all := by
  constructor
  · rintro ⟨n, hn, hall⟩
    cases n with
    | zero => cases hn
    | succ n =>
      simp only [drained, h] at hn
      simp only [answers, h, flatMap_cons] at hall
      exact ⟨n, hn, append_cancel_left hall⟩
  · rintro ⟨n, hn, hall⟩
    refine ⟨n + 1, by simpa only [drained, h] using hn, ?_⟩
    simp only [answers, h, flatMap_cons, hall]

theorem forall_asked_of_last {Good : κ → Prop} (h : fetch k = some (r, none)) :
    (∀ n, ∀ x ∈ asked fetch n k, Good x) ↔ Good k := by
  constructor
  · intro hgood
    exact hgood 1 k mem_cons_self
  · intro hk n x hx
    cases n with
    | zero => cases hx
    | succ n =>
      simp only [asked, h, mem_singleton] at hx
      exact hx ▸ hk

theorem forall_asked_of_next {Good : κ → Prop} (h : fetch k = some (r, some k')) :
    (∀ n, ∀ x ∈ asked fetch n k, Good x) ↔ Good k ∧ ∀ n, ∀ x ∈ asked fetch n k', Good x := by
  constructor
  · intro hgood
    refine ⟨hgood 1 k mem_cons_self, fun n x hx => hgood (n + 1) x ?_⟩
    simp only [asked, h, mem_cons]
    exact .inr hx
  · rintro ⟨hk, hgood⟩ n x hx
    cases n with
    | zero => cases hx
    | succ n =>
      simp only [asked, h, mem_cons] at hx
      rcases hx with rfl | hx
      · exact hk
      · exact hgood n x hx

/-- **Completeness of reading.** `left` is what is left at a cursor, `measure` gets smaller with
every request. -/
theorem drains_iff (left : κ → List α) (Inv Good : κ → Prop) (measure : κ → Nat)
    (hgood : ∀ k, Inv k → Good k → (∃ r, fetch k = some (r, none) ∧ items r = left k) ∨
      ∃ r k', fetch k = some (r, some k') ∧ Inv k' ∧ measure k' < measure k ∧
        items r ++ left k' = left k)
    (hbad : ∀ k, Inv k → ¬ Good k → ∃ r, fetch k = some (r, none) ∧ items r ≠ left k) (hk : Inv k) :
    Drains fetch items k (left k) ↔ ∀ n, ∀ x ∈ asked fetch n k, Good x := by
  induction hm : measure k using Nat.strongRecOn generalizing k with
  | _ m ih =>
    by_cases hg : Good k
    · rcases hgood k hk hg with ⟨r, hf, hr⟩ | ⟨r, k', hf, hk', hlt, hr⟩
      · rw [drains_of_last hf, forall_asked_of_last hf]
        exact iff_of_true hr hg
      · rw [← hr, drains_of_next hf, forall_asked_of_next hf, ih _ (hm ▸ hlt) hk' rfl]
        exact (and_iff_right hg).symm
    · rcases hbad k hk hg with ⟨r, hf, hr⟩
      rw [drains_of_last hf, forall_asked_of_last hf]
      exact iff_of_false hr hg

end

end Ligase.Lib

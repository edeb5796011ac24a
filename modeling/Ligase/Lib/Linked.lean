import Mathlib.Data.List.Basic
import Mathlib.Logic.Relation

/-!
# Logs whose entries refer to earlier ones

A log grows at its end, and each entry stands in some relation to those before it.

* `Linked.concat`: a new entry that does keeps the log so.
* **`Linked.reaches`**: if each entry but the first refers to an earlier one, the references lead to
  the first.
-/

namespace Ligase.Lib

open List

variable {α : Type*} {P : List α → α → Prop} {l : List α} {a : α}

/-- Each entry has the property `P` after the entries before it. -/
def Linked (P : List α → α → Prop) (l : List α) : Prop :=
  ∀ before e after, l = before ++ e :: after → P before e

theorem linked_nil : Linked P [] := by
  intro before e after h
  simp at h

theorem Linked.concat (h : Linked P l) (ha : P l a) : Linked P (l ++ [a]) := by
  intro before e after he
  rcases eq_nil_or_concat after with rfl | ⟨after', b, rfl⟩
  · obtain ⟨rfl, hb⟩ := append_inj' he rfl
    cases hb
    exact ha
  · rw [concat_eq_append, ← cons_append, ← append_assoc] at he
    exact h before e after' (append_inj' he rfl).1

/-- **The references lead to the first entry.** The induction is on the number of entries before. -/
theorem Linked.reaches {R : α → α → Prop} {e : α}
    (h : Linked (fun before e => ∃ e' ∈ a :: before, R e e') l) (he : e ∈ a :: l) :
    Relation.ReflTransGen R e a := by
  rcases mem_cons.mp he with rfl | he
  · exact .refl
  obtain ⟨before, after, hl⟩ := append_of_mem he
  induction hn : before.length using Nat.strongRecOn generalizing before e after with
  | _ n ih =>
    obtain ⟨e', he', hr⟩ := h before e after hl
    refine .head hr ?_
    rcases mem_cons.mp he' with rfl | he'
    · exact .refl
    · obtain ⟨before', after', hb⟩ := append_of_mem he'
      have hmem : e' ∈ l := hl ▸ mem_append_left _ he'
      refine ih before'.length ?_ (mem_cons_of_mem _ hmem) hmem before'
        (after' ++ e :: after) ?_ rfl
      · rw [← hn, hb, length_append, length_cons]
        omega
      · rw [hl, hb, append_assoc]
        rfl

end Ligase.Lib

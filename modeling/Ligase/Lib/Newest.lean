import Mathlib.Data.List.Perm.Basic
import Mathlib.Data.List.Nodup
import Mathlib.Tactic.Common

/-!
# A register that keeps the newest value

A register is offered values one after another and takes one that is not older than what it has. It
may refuse a value it takes for the same one, and it may drop what it has without taking the new
value.

* `foldl_offer_eq_iff`: when the newest value is kept whatever the order.
-/

namespace Ligase.Lib.Newest

open List Option

variable {α : Type*} (key : α → Int) (same drops : α → α → Prop) [DecidableRel same]
  [DecidableRel drops]

def offer : Option α → α → Option α
  | none, a => some a
  | some c, a =>
    if key c ≤ key a ∧ ¬ same c a then if drops c a then none else some a else some c

variable {key same drops} {cur : Option α} {l : List α} {a m : α}

theorem offer_eq_some (h : offer key same drops cur a = some m) : cur = some m ∨ a = m := by
  cases cur with
  | none => exact .inr (some.inj h)
  | some c =>
    simp only [offer] at h
    split_ifs at h
    · exact .inr (some.inj h)
    · exact .inl h

theorem foldl_offer_eq_some (h : l.foldl (offer key same drops) cur = some m) :
    cur = some m ∨ m ∈ l := by
  induction l generalizing cur with
  | nil => exact .inl h
  | cons a l ih =>
    rcases ih h with h | h
    · exact (offer_eq_some h).imp_right fun he : a = m => he ▸ mem_cons_self
    · exact .inr (mem_cons_of_mem a h)

theorem foldl_offer_of_lt (h : ∀ a ∈ l, key a < key m) :
    l.foldl (offer key same drops) (some m) = some m := by
  induction l with
  | nil => rfl
  | cons a l ih =>
    have ha : ¬ key m ≤ key a := Int.not_le.mpr (h a mem_cons_self)
    rw [foldl_cons, offer, if_neg fun hc => ha hc.1]
    exact ih fun b hb => h b (mem_cons_of_mem a hb)

theorem exists_perm_cons (h : a ∈ l) : ∃ l', l.Perm (a :: l') := by
  obtain ⟨s, t, rfl⟩ := append_of_mem h
  exact ⟨s ++ t, perm_middle⟩

/-- **The newest value wins in every order**, if and only if no other value makes the register
refuse it or drop. -/
theorem foldl_offer_eq_iff (hkey : (l.map key).Nodup) (hm : m ∈ l) (hmax : ∀ a ∈ l, key a ≤ key m) :
    (∀ l' : List α, l'.Perm l → l'.foldl (offer key same drops) none = some m) ↔
      ∀ a ∈ l, a ≠ m → ¬ same a m ∧ ¬ drops a m := by
  have hlt : ∀ a ∈ l, a ≠ m → key a < key m := fun a ha hne =>
    Int.lt_iff_le_and_ne.mpr ⟨hmax a ha, fun he => hne (inj_on_of_nodup_map hkey ha hm he)⟩
  constructor
  · intro h a ha hne
    -- `a` comes first and `m` next
    obtain ⟨l₁, h₁⟩ : ∃ l₁, l.Perm (a :: m :: l₁) := by
      obtain ⟨l₀, h₀⟩ := exists_perm_cons ha
      have hm₀ : m ∈ l₀ := (mem_cons.mp (h₀.mem_iff.mp hm)).resolve_left hne.symm
      obtain ⟨l₁, h₁⟩ := exists_perm_cons hm₀
      exact ⟨l₁, h₀.trans (h₁.cons a)⟩
    have hnd : m ∉ l₁ := by
      have hl := h₁.nodup_iff.mp (List.Nodup.of_map key hkey)
      exact (nodup_cons.mp (nodup_cons.mp hl).2).1
    have hfold : l₁.foldl (offer key same drops) (offer key same drops (some a) m) = some m :=
      h _ h₁.symm
    by_contra hc
    -- after the two of them the register does not have `m`, and it never comes again
    have hne' : offer key same drops (some a) m ≠ some m := by
      rw [offer]
      intro h'
      split_ifs at h' with h₂ h₃
      · exact hc ⟨h₂.2, h₃⟩
      · exact hne (some.inj h')
    exact (foldl_offer_eq_some hfold).elim hne' hnd
  · intro h l' hperm
    obtain ⟨l₁, l₂, rfl⟩ := append_of_mem (hperm.mem_iff.mpr hm)
    have hnd := hperm.nodup_iff.mpr (List.Nodup.of_map key hkey)
    have hout : m ∉ l₁ ∧ m ∉ l₂ := by
      rw [nodup_middle, nodup_cons, mem_append] at hnd
      exact not_or.mp hnd.1
    have htake : offer key same drops (l₁.foldl (offer key same drops) none) m = some m := by
      cases hcur : l₁.foldl (offer key same drops) none with
      | none => rfl
      | some c =>
        have hc : c ∈ l₁ := (foldl_offer_eq_some hcur).resolve_left nofun
        have hne : c ≠ m := fun he => hout.1 (he ▸ hc)
        have hcl : c ∈ l := hperm.mem_iff.mp (mem_append_left _ hc)
        obtain ⟨hsame, hdrops⟩ := h c hcl hne
        rw [offer, if_pos ⟨hmax c hcl, hsame⟩, if_neg hdrops]
    rw [foldl_append, foldl_cons, htake]
    refine foldl_offer_of_lt fun b hb => hlt b ?_ fun he => hout.2 (he ▸ hb)
    exact hperm.mem_iff.mp (mem_append_right _ (mem_cons_of_mem m hb))

end Ligase.Lib.Newest

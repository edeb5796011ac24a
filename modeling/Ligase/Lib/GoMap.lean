import Ligase.Lib.Json

/-!
# Maps that may be nil

Reading and deleting from a nil map is fine, an assignment to it is a panic.

* `GoMap`: a map with texts as keys.
* `setAll_of_ne_nil`: assignments to a map that has been made do not panic.
* `lookup_foldl_setKey`, `foldl_setKey_spec`: a map after some assignments.
-/

namespace Ligase.Lib

open List

inductive GoMap (α : Type) where
  | nil
  | entries (l : List (String × α))

namespace GoMap

variable {α : Type}

def toList : GoMap α → List (String × α)
  | nil => []
  | entries l => l

def make : GoMap α := entries []

def get? (m : GoMap α) (key : String) : Option α := m.toList.lookup key

def set (m : GoMap α) (key : String) (a : α) : Option (GoMap α) :=
  match m with
  | nil => none
  | entries l => some (entries (Json.setKey key a l))

def delete (m : GoMap α) (key : String) : GoMap α :=
  match m with
  | nil => nil
  | entries l => entries (l.filter fun p => p.1 ≠ key)

def mapValues (f : α → α) : GoMap α → GoMap α
  | nil => nil
  | entries l => entries (l.map fun p => (p.1, f p.2))

def setAll (m : GoMap α) (l : List (String × α)) : Option (GoMap α) :=
  l.foldlM (fun m p => m.set p.1 p.2) m

theorem setAll_entries (l kvs : List (String × α)) :
    ∃ l', (entries l).setAll kvs = some (entries l') := by
  induction kvs generalizing l with
  | nil => exact ⟨l, rfl⟩
  | cons p kvs ih => exact ih (Json.setKey p.1 p.2 l)

theorem setAll_of_ne_nil {m : GoMap α} (h : m ≠ nil) (kvs : List (String × α)) :
    ∃ m', m.setAll kvs = some m' ∧ m' ≠ nil := by
  cases m with
  | nil => exact absurd rfl h
  | entries l =>
    obtain ⟨l', hl'⟩ := setAll_entries l kvs
    exact ⟨_, hl', by simp⟩

theorem toList_mapValues (f : α → α) (m : GoMap α) :
    (m.mapValues f).toList = m.toList.map fun p => (p.1, f p.2) := by
  cases m <;> rfl

end GoMap

/-! ## Assignments, one after the other -/

section
variable {β : Type} {k : String} {b : β} {l map : List (String × β)}

theorem lookup_setKey (key : String) (b : β) (map : List (String × β)) :
    (Json.setKey key b map).lookup k = if k = key then some b else map.lookup k := by
  unfold Json.setKey
  rw [lookup_cons]
  by_cases h : k = key
  · rw [if_pos h, beq_iff_eq.mpr h]
  · rw [if_neg h, beq_eq_false_iff_ne.mpr h]
    dsimp only
    induction map with
    | nil => rfl
    | cons p map ih =>
      by_cases hp : p.1 = key
      · rw [filter_cons_of_neg (by simpa using hp), ih, lookup_cons,
          beq_eq_false_iff_ne.mpr fun he => h (he.trans hp)]
      · rw [filter_cons_of_pos (by simpa using hp), lookup_cons, lookup_cons, ih]

theorem lookup_foldl_setKey (h : ∀ p ∈ l, p.1 = k → p.2 = b) :
    (l.foldl (fun o p => Json.setKey p.1 p.2 o) map).lookup k =
      if k ∈ l.map Prod.fst then some b else map.lookup k := by
  induction l generalizing map with
  | nil => rfl
  | cons p l ih =>
    rw [foldl_cons, ih fun q hq => h q (mem_cons_of_mem _ hq), lookup_setKey, map_cons]
    by_cases hl : k ∈ l.map Prod.fst
    · rw [if_pos hl, if_pos (mem_cons_of_mem _ hl)]
    · by_cases hp : k = p.1
      · rw [if_neg hl, if_pos hp, if_pos (by simp [hp]), h p mem_cons_self hp.symm]
      · rw [if_neg hl, if_neg hp, if_neg (by simpa [hp] using hl)]

theorem foldl_setKey_spec (key : β → String) (values : List β) :
    ((values.foldl (fun o v => Json.setKey (key v) v o) []).map Prod.fst).Nodup ∧
      ∀ p ∈ values.foldl (fun o v => Json.setKey (key v) v o) [], p.1 = key p.2 ∧ p.2 ∈ values := by
  suffices h : ∀ map : List (String × β), (map.map Prod.fst).Nodup → (∀ p ∈ map, p.1 = key p.2) →
      ((values.foldl (fun o v => Json.setKey (key v) v o) map).map Prod.fst).Nodup ∧
        ∀ p ∈ values.foldl (fun o v => Json.setKey (key v) v o) map,
          p.1 = key p.2 ∧ (p ∈ map ∨ p.2 ∈ values) by
    obtain ⟨hnodup, hmem⟩ := h [] nodup_nil (by simp)
    exact ⟨hnodup, fun p hp => ⟨(hmem p hp).1, (hmem p hp).2.resolve_left not_mem_nil⟩⟩
  induction values with
  | nil => exact fun map hnodup hkey => ⟨hnodup, fun p hp => ⟨hkey p hp, .inl hp⟩⟩
  | cons v values ih =>
    intro map hnodup hkey
    have hsub : ∀ p ∈ Json.setKey (key v) v map, p = (key v, v) ∨ p ∈ map := fun p hp =>
      (mem_cons.mp hp).imp_right fun h => (mem_filter.mp h).1
    have hnodup' : ((Json.setKey (key v) v map).map Prod.fst).Nodup := by
      refine nodup_cons.mpr ⟨fun hm => ?_, hnodup.sublist (filter_sublist.map _)⟩
      obtain ⟨p, hp, he⟩ := mem_map.mp hm
      simpa [he] using (mem_filter.mp hp).2
    have hkey' : ∀ p ∈ Json.setKey (key v) v map, p.1 = key p.2 := by
      intro p hp
      rcases hsub p hp with rfl | hp
      · rfl
      · exact hkey p hp
    obtain ⟨hn, hm⟩ := ih _ hnodup' hkey'
    refine ⟨hn, fun p hp => ⟨(hm p hp).1, ?_⟩⟩
    rcases (hm p hp).2 with hold | hnew
    · rcases hsub p hold with rfl | hold
      · exact .inr mem_cons_self
      · exact .inl hold
    · exact .inr (mem_cons_of_mem _ hnew)

end

end Ligase.Lib

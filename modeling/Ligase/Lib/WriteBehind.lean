import Mathlib.Data.List.Basic
import Mathlib.Tactic.Common

/-!
# Write-behind buffers

Items are added to a buffer in memory and written to a store later, by a flush. The buffer keeps
some of the items and drops others; a note says that there is something to be flushed. A flush takes
the note away and tries to write what it finds in the buffer, and each write may fail. An item that
was read does not have to be written any more.

An item is the number under which it was added.

* `push`, `discard`, `read`, `flush`: the operations.
* `Sound`: what is marked as written is in the store or was read, and what is still to be written
  has a note, unless a write has failed and nothing was added since.
* `Saved`: what has been dropped is in the store, was read, or was superseded by a later item.
* **`Sound.mem_attempted`**: what a flush tries to write.
-/

namespace Ligase.Lib

open Option List

structure Entry (δ : Type) where
  data : δ
  written : Bool
  read : Bool

def Entry.due {δ : Type} (e : Entry δ) : Bool := !e.written && !e.read

structure Buffer (δ : Type) where
  /-- every item that was ever added -/
  entries : List (Entry δ)
  /-- the items in memory -/
  held : List Nat
  noted : Bool
  /-- what the store has taken -/
  store : List δ
  /-- a write has failed and nothing was added since -/
  failed : Bool

namespace Buffer

variable {δ : Type}

def init (store : List δ) : Buffer δ := ⟨[], [], false, store, false⟩

variable (b : Buffer δ)

/-- Add an item, loaded from the store or not; `held` are then the items in memory. -/
def push (held : List Nat) (d : δ) (loaded : Bool) : Buffer δ where
  entries := b.entries ++ [⟨d, loaded, false⟩]
  held := held
  noted := b.noted || !loaded
  store := b.store
  failed := b.failed && loaded

def discard : Buffer δ := { b with held := [] }

def read (i : Nat) : Buffer δ :=
  { b with entries := b.entries.modify i fun e => { e with read := true } }

def due (i : Nat) : Bool := (b.entries[i]?.map Entry.due).getD false

def attempted : List Nat := if b.noted then b.held.filter b.due else []

/-- An entry after a flush in which the writes of `fails` fail. -/
def flushed (fails : Nat → Bool) (i : Nat) (e : Entry δ) : Entry δ :=
  if i ∈ b.held ∧ (e.read = true ∨ fails i = false) then { e with written := true } else e

def flush (fails : Nat → Bool) : Buffer δ :=
  if b.noted then
    { b with
      entries := b.entries.mapIdx (b.flushed fails)
      noted := false
      store := b.store ++ (b.attempted.filter fun i => !fails i).filterMap
        fun i => b.entries[i]?.map Entry.data
      failed := b.attempted.any fails }
  else b

/-! ## What is marked and what is noted -/

structure Sound : Prop where
  written : ∀ (i : Nat) (e : Entry δ), b.entries[i]? = some e → e.written = true →
    e.read = true ∨ e.data ∈ b.store
  noted : ∀ i ∈ b.held, b.due i = true → b.noted = true ∨ b.failed = true

/-- What is not in memory is in the store, was read, or was superseded by a later item. -/
def Saved (supersedes : δ → δ → Prop) : Prop :=
  ∀ (i : Nat) (e : Entry δ), b.entries[i]? = some e →
    i ∈ b.held ∨ e.read = true ∨ e.data ∈ b.store ∨
    ∃ j, i < j ∧ ∃ e' : Entry δ, b.entries[j]? = some e' ∧ supersedes e'.data e.data

/-- What is dropped need not be written, or is superseded by `d`. -/
def MayDrop (supersedes : δ → δ → Prop) (held : List Nat) (d : δ) : Prop :=
  ∀ i ∈ b.held, i ∉ held → ∀ e ∈ b.entries[i]?, e.due = false ∨ supersedes d e.data

variable {b} {held : List Nat} {d : δ} {loaded : Bool} {supersedes : δ → δ → Prop}

variable {i : Nat} {e : Entry δ}

theorem due_eq (h : b.entries[i]? = some e) : b.due i = e.due := by
  simp [due, h]

theorem exists_of_due (h : b.due i = true) : ∃ e, b.entries[i]? = some e ∧ e.due = true := by
  unfold due at h
  cases he : b.entries[i]? with
  | none => simp [he] at h
  | some e => exact ⟨e, rfl, by simpa [he] using h⟩

theorem entries_push (h : (b.push held d loaded).entries[i]? = some e) :
    b.entries[i]? = some e ∨ i = b.entries.length ∧ e = ⟨d, loaded, false⟩ := by
  have h' : (b.entries ++ [⟨d, loaded, false⟩])[i]? = some e := h
  rcases Nat.lt_trichotomy i b.entries.length with hlt | heq | hgt
  · rw [getElem?_append_left hlt] at h'
    exact .inl h'
  · subst heq
    refine .inr ⟨rfl, ?_⟩
    simpa [eq_comm] using h'
  · obtain ⟨hlen, -⟩ := List.getElem?_eq_some_iff.mp h'
    simp at hlen
    omega

theorem entries_push_of_some (h : b.entries[i]? = some e) :
    (b.push held d loaded).entries[i]? = some e := by
  obtain ⟨hlt, -⟩ := List.getElem?_eq_some_iff.mp h
  show (b.entries ++ [_])[i]? = some e
  rw [getElem?_append_left hlt, h]

theorem entries_push_length :
    (b.push held d loaded).entries[b.entries.length]? = some ⟨d, loaded, false⟩ := by
  show (b.entries ++ [_])[b.entries.length]? = _
  simp

theorem Sound.push (h : Sound b) (hheld : held ⊆ b.entries.length :: b.held)
    (hloaded : loaded = true → d ∈ b.store) : Sound (b.push held d loaded) where
  written := by
    intro i e he hw
    rcases entries_push he with he | ⟨-, rfl⟩
    · exact h.written i e he hw
    · exact .inr (hloaded hw)
  noted := by
    intro i hi hdue
    obtain ⟨e, he, hedue⟩ := exists_of_due hdue
    show (b.noted || !loaded) = true ∨ (b.failed && loaded) = true
    cases loaded with
    | false => exact .inl (by simp)
    | true =>
      rcases entries_push he with he | ⟨-, rfl⟩
      · obtain ⟨hlt, -⟩ := List.getElem?_eq_some_iff.mp he
        have hi' : i ∈ b.held := by
          rcases mem_cons.mp (hheld hi) with rfl | hi'
          · exact absurd hlt (Nat.lt_irrefl _)
          · exact hi'
        have := h.noted i hi' (by rw [due_eq he, hedue])
        simpa using this
      · simp [Entry.due] at hedue

theorem Sound.of_not_due (h : Sound b) (he : b.entries[i]? = some e)
    (hdue : e.due = false) : e.read = true ∨ e.data ∈ b.store := by
  cases hr : e.read with
  | true => exact .inl rfl
  | false =>
    have hw : e.written = true := by simpa [Entry.due, hr] using hdue
    rcases h.written i e he hw with hr' | hstore
    · exact (nomatch hr.symm.trans hr')
    · exact .inr hstore

theorem Saved.push (hs : Saved b supersedes) (h : Sound b)
    (hnew : b.entries.length ∈ held) (hdrop : b.MayDrop supersedes held d) :
    Saved (b.push held d loaded) supersedes := by
  intro i e he
  rcases entries_push he with he | ⟨rfl, -⟩
  · by_cases hi : i ∈ held
    · exact .inl hi
    rcases hs i e he with hheld | hread | hstore | ⟨j, hij, e', hj, hsup⟩
    · rcases hdrop i hheld hi e he with hdue | hsup
      · exact .inr ((h.of_not_due he hdue).imp_right .inl)
      · obtain ⟨hlt, -⟩ := List.getElem?_eq_some_iff.mp he
        exact .inr (.inr (.inr ⟨b.entries.length, hlt, _, entries_push_length, hsup⟩))
    · exact .inr (.inl hread)
    · exact .inr (.inr (.inl hstore))
    · exact .inr (.inr (.inr ⟨j, hij, e', entries_push_of_some hj, hsup⟩))
  · exact .inl hnew

theorem Sound.discard (h : Sound b) : Sound b.discard :=
  ⟨h.written, fun _ hi => absurd hi not_mem_nil⟩

theorem Saved.discard (hs : Saved b supersedes) (h : Sound b)
    (hdue : ∀ i ∈ b.held, b.due i = false) : Saved b.discard supersedes := by
  intro i e he
  rcases hs i e he with hheld | hrest
  · have hnot : e.due = false := (due_eq (b := b) he).symm.trans (hdue i hheld)
    exact .inr ((h.of_not_due he hnot).imp_right .inl)
  · exact .inr hrest

theorem entries_read {j : Nat} (h : (b.read j).entries[i]? = some e) :
    ∃ e', b.entries[i]? = some e' ∧ e.data = e'.data ∧ e.written = e'.written ∧
      (e'.read = true → e.read = true) := by
  have h' : (b.entries.modify j fun e => { e with read := true })[i]? = some e := h
  rw [getElem?_modify] at h'
  obtain ⟨e', he', rfl⟩ := map_eq_some_iff.mp h'
  refine ⟨e', he', ?_⟩
  split_ifs
  · exact ⟨rfl, rfl, fun _ => rfl⟩
  · exact ⟨rfl, rfl, id⟩

theorem entries_read_of_some {j : Nat} (h : b.entries[i]? = some e) :
    ∃ e', (b.read j).entries[i]? = some e' ∧ e'.data = e.data := by
  have h' : (b.read j).entries[i]? = some (if j = i then { e with read := true } else e) := by
    show (b.entries.modify j _)[i]? = _
    rw [getElem?_modify, h]
    rfl
  refine ⟨_, h', ?_⟩
  split_ifs <;> rfl

theorem Sound.read (h : Sound b) (j : Nat) : Sound (b.read j) where
  written := by
    intro i e he hw
    obtain ⟨e', he', hdata, hwritten, hread⟩ := entries_read he
    rcases h.written i e' he' (hwritten ▸ hw) with hr | hstore
    · exact .inl (hread hr)
    · exact .inr (hdata ▸ hstore)
  noted := by
    intro i hi hdue
    obtain ⟨e, he, hedue⟩ := exists_of_due hdue
    obtain ⟨e', he', -, hwritten, hread⟩ := entries_read he
    have hdue' : e'.due = true := by
      cases hr : e'.read with
      | true => simp [Entry.due, hread hr] at hedue
      | false =>
        have hw : e.written = false := by
          have := Bool.and_eq_true_iff.mp hedue
          simpa using this.1
        simp [Entry.due, hr, ← hwritten, hw]
    exact h.noted i hi (by rw [due_eq he', hdue'])

theorem Saved.read (hs : Saved b supersedes) (j : Nat) : Saved (b.read j) supersedes := by
  intro i e he
  obtain ⟨e', he', hdata, -, hread⟩ := entries_read he
  rcases hs i e' he' with hheld | hr | hstore | ⟨k, hik, e'', hk, hsup⟩
  · exact .inl hheld
  · exact .inr (.inl (hread hr))
  · exact .inr (.inr (.inl (hdata ▸ hstore)))
  · obtain ⟨f, hf, hfdata⟩ := entries_read_of_some (j := j) hk
    exact .inr (.inr (.inr ⟨k, hik, f, hf, by rw [hfdata, hdata]; exact hsup⟩))

/-! ## Flushes -/

variable {fails : Nat → Bool}

theorem mem_attempted : i ∈ b.attempted ↔ b.noted = true ∧ i ∈ b.held ∧ b.due i = true := by
  unfold attempted
  split_ifs with h
  · simp [h]
  · simp [h]

/-- **A flush tries everything that is still to be written.** -/
theorem Sound.mem_attempted (h : Sound b) (hfailed : b.failed = false)
    (hi : i ∈ b.held) (hdue : b.due i = true) : i ∈ b.attempted := by
  rcases h.noted i hi hdue with hnoted | hf
  · exact Buffer.mem_attempted.mpr ⟨hnoted, hi, hdue⟩
  · exact (nomatch hfailed.symm.trans hf)

theorem entries_flush (h : (b.flush fails).entries[i]? = some e) :
    ∃ e', b.entries[i]? = some e' ∧ e.data = e'.data ∧ e.read = e'.read := by
  unfold flush at h
  split_ifs at h
  · rw [getElem?_mapIdx] at h
    obtain ⟨e', he', rfl⟩ := map_eq_some_iff.mp h
    refine ⟨e', he', ?_⟩
    unfold flushed
    split_ifs <;> exact ⟨rfl, rfl⟩
  · exact ⟨e, h, rfl, rfl⟩

theorem entries_flush_of_some (h : b.entries[i]? = some e) :
    ∃ e', (b.flush fails).entries[i]? = some e' ∧ e'.data = e.data := by
  unfold flush
  split_ifs
  · refine ⟨b.flushed fails i e, ?_, ?_⟩
    · rw [getElem?_mapIdx, h]
      rfl
    · unfold flushed
      split_ifs <;> rfl
  · exact ⟨e, h, rfl⟩

theorem store_subset_flush : b.store ⊆ (b.flush fails).store := by
  unfold flush
  split_ifs
  · exact subset_append_left _ _
  · exact List.Subset.refl _

theorem held_flush : (b.flush fails).held = b.held := by
  unfold flush
  split_ifs <;> rfl

theorem Sound.flush (h : Sound b) : Sound (b.flush fails) := by
  unfold Buffer.flush
  split_ifs with hnoted
  · refine ⟨fun i e he hw => ?_, fun i hi hdue => ?_⟩
    · rw [getElem?_mapIdx] at he
      obtain ⟨e', he', rfl⟩ := map_eq_some_iff.mp he
      unfold flushed at hw ⊢
      by_cases hcond : i ∈ b.held ∧ (e'.read = true ∨ fails i = false)
      · rw [if_pos hcond] at hw ⊢
        cases hr : e'.read with
        | true => exact .inl rfl
        | false =>
          have hok : fails i = false := by simpa [hr] using hcond.2
          cases hwr : e'.written with
          | true =>
            rcases h.written i e' he' hwr with hr' | hstore
            · exact (nomatch hr.symm.trans hr')
            · exact .inr (mem_append_left _ hstore)
          | false =>
            -- the item is tried, and its write succeeds
            have hdue : b.due i = true := by simp [due_eq he', Entry.due, hr, hwr]
            have hmem : i ∈ b.attempted.filter fun i => !fails i :=
              mem_filter.mpr ⟨Buffer.mem_attempted.mpr ⟨hnoted, hcond.1, hdue⟩, by simp [hok]⟩
            exact .inr (mem_append_right _ (mem_filterMap.mpr ⟨i, hmem, by simp [he']⟩))
      · rw [if_neg hcond] at hw ⊢
        exact (h.written i e' he' hw).imp_right (mem_append_left _)
    · obtain ⟨e, he, hedue⟩ := exists_of_due hdue
      rw [getElem?_mapIdx] at he
      obtain ⟨e', he', rfl⟩ := map_eq_some_iff.mp he
      unfold flushed at hedue
      by_cases hcond : i ∈ b.held ∧ (e'.read = true ∨ fails i = false)
      · rw [if_pos hcond] at hedue
        simp [Entry.due] at hedue
      · rw [if_neg hcond] at hedue
        have hfail : fails i = true := by
          by_contra hne
          exact hcond ⟨hi, .inr (by simpa using hne)⟩
        have hmem : i ∈ b.attempted :=
          Buffer.mem_attempted.mpr ⟨hnoted, hi, by rw [due_eq he', hedue]⟩
        exact .inr (any_eq_true.mpr ⟨i, hmem, hfail⟩)
  · exact h

theorem Saved.flush (hs : Saved b supersedes) : Saved (b.flush fails) supersedes := by
  intro i e he
  obtain ⟨e', he', hdata, hread⟩ := entries_flush he
  rw [held_flush]
  rcases hs i e' he' with hheld | hr | hstore | ⟨k, hik, e'', hk, hsup⟩
  · exact .inl hheld
  · exact .inr (.inl (hread.trans hr))
  · exact .inr (.inr (.inl (store_subset_flush (hdata ▸ hstore))))
  · obtain ⟨f, hf, hfdata⟩ := entries_flush_of_some hk
    exact .inr (.inr (.inr ⟨k, hik, f, hf, by rw [hfdata, hdata]; exact hsup⟩))

end Buffer

end Ligase.Lib

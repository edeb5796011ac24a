import Ligase.Lib.Run

/-!
# The latest receipt of a user

`UserReceiptRepo` keeps the latest receipt of a user in a room. A receipt is added in memory and
written by the next flush; the history is loaded from the database when the receipt is first asked
for. Adding a receipt does not say that nothing needs to be loaded any more, so that a load may put
an older receipt in its place, as one that is already written.

* **`newest_receipt`**: the runs in which the receipt added last is the latest one.
-/

namespace Ligase.Receipt.Latest

open Lib

structure Row where
  evtOffset : Int
  content : String
  deriving DecidableEq

structure UserReceipt where
  row : Row
  written : Bool

/-- A load has found that nothing is ready or loading; it has noted that it loads; it has read the
row; it has put the receipt in memory. -/
inductive Load where
  | idle
  | asked
  | marked
  | fetched (row : Row)
  | kept

/-- Where the flush stands: it has taken the note of an update; it writes a row. -/
inductive Flush where
  | idle
  | cleared
  | writing (row : Row)

structure State where
  receipt : Option UserReceipt
  updated : Bool
  ready : Bool
  loading : Bool
  db : Option Row
  load : Nat → Load
  flush : Flush
  /-- the receipt that was added last -/
  added : Option Row
  /-- has a flush begun since then? -/
  begun : Bool

def State.init (db : Option Row) : State where
  receipt := none
  updated := false
  ready := false
  loading := false
  db := db
  load := fun _ => .idle
  flush := .idle
  added := none
  begun := false

inductive Act where
  | add (row : Row)
  | ask (i : Nat)
  | mark (i : Nat)
  | fetch (i : Nat)
  | keep (i : Nat)
  | finish (i : Nat)
  | clear
  | pick
  | write

namespace State

variable (s : State)

/-- What `GetLatestOffset` returns after it has waited for a load. -/
def getLatestOffset : Int := (s.receipt.map fun x => x.row.evtOffset).getD 0

def addUserReceipt (row : Row) : State :=
  { s with receipt := some ⟨row, false⟩, updated := true, added := some row, begun := false }

def setLoad (i : Nat) (l : Load) : State := { s with load := Function.update s.load i l }

/-- A flush begins: the receipt is visited only if it has been updated. -/
def clear : State :=
  if s.updated then { s with updated := false, flush := .cleared, begun := true }
  else { s with begun := true }

/-- A receipt that is not written is marked as written before it is. -/
def pick : State :=
  match s.receipt with
  | some ⟨row, false⟩ => { s with receipt := some ⟨row, true⟩, flush := .writing row }
  | _ => { s with flush := .idle }

end State

/-- One section. A row that is not there is read as an empty receipt at offset 0. -/
def step (s : State) : Act → Option State
  | .add row => some (s.addUserReceipt row)
  | .ask i =>
    match s.load i with
    | .idle => some (if s.ready || s.loading then s else s.setLoad i .asked)
    | _ => none
  | .mark i =>
    match s.load i with
    | .asked => some ({ s with loading := true }.setLoad i .marked)
    | _ => none
  | .fetch i =>
    match s.load i with
    | .marked => some (s.setLoad i (.fetched (s.db.getD ⟨0, ""⟩)))
    | _ => none
  | .keep i =>
    match s.load i with
    | .fetched row => some ({ s with receipt := some ⟨row, true⟩ }.setLoad i .kept)
    | _ => none
  | .finish i =>
    match s.load i with
    | .kept => some ({ s with ready := true, loading := false }.setLoad i .idle)
    | _ => none
  | .clear =>
    match s.flush with
    | .idle => some s.clear
    | _ => none
  | .pick =>
    match s.flush with
    | .cleared => some s.pick
    | _ => none
  | .write =>
    match s.flush with
    | .writing row => some { s with db := some row, flush := .idle }
    | _ => none

/-- A load puts a receipt in memory only before any is added, or one that was added last and is
written. -/
def Spares (s : State) : Act → Prop
  | .keep i =>
    match s.load i with
    | .fetched row =>
      s.added = none ∨ s.added = some row ∧ s.receipt.map UserReceipt.written = some true
    | _ => True
  | _ => True

instance (s : State) (a : Act) : Decidable (Spares s a) := by
  unfold Spares
  split
  · split <;> infer_instance
  · infer_instance

structure OnItsWay (s : State) (r : Row) (x : UserReceipt) : Prop where
  row : x.row = r
  unwritten : x.written = false → s.updated = true ∧ s.begun = false ∨ s.flush = .cleared
  written : x.written = true → s.flush = .writing r ∨ s.db = some r ∧ ∀ y, s.flush ≠ .writing y

def Newest (s : State) : Prop :=
  ∀ r, s.added = some r → ∃ x, s.receipt = some x ∧ OnItsWay s r x

section
variable {s t : State} {r : Row} {x : UserReceipt}

section
variable (h : Newest s)
include h

theorem Newest.same (hreceipt : t.receipt = s.receipt) (hupdated : t.updated = s.updated)
    (hdb : t.db = s.db) (hflush : t.flush = s.flush) (hadded : t.added = s.added)
    (hbegun : t.begun = s.begun) : Newest t := by
  intro r hr
  rw [hadded] at hr
  obtain ⟨x, hx, hway⟩ := h r hr
  refine ⟨x, hreceipt.trans hx, hway.row, ?_, ?_⟩
  · rw [hupdated, hbegun, hflush]
    exact hway.unwritten
  · rw [hflush, hdb]
    exact hway.written

theorem Newest.keep {i : Nat} {row : Row} (hi : s.load i = .fetched row) (hc : Spares s (.keep i)) :
    Newest ({ s with receipt := some ⟨row, true⟩ }.setLoad i .kept) := by
  simp only [Spares, hi] at hc
  intro r hr
  have hr' : s.added = some r := hr
  rcases hc with hnone | ⟨hrow, hwritten⟩
  · rw [hnone] at hr'
    cases hr'
  · obtain rfl : row = r := Option.some.inj (hrow.symm.trans hr')
    obtain ⟨x, hx, hway⟩ := h row hrow
    have hxw : x.written = true := by simpa [hx] using hwritten
    exact ⟨_, rfl, rfl, nofun, fun _ => hway.written hxw⟩

theorem Newest.clear (hidle : s.flush = .idle) : Newest s.clear := by
  intro r hr
  unfold State.clear at hr ⊢
  split_ifs at hr ⊢ with hup
  · obtain ⟨x, hx, hway⟩ := h r hr
    refine ⟨x, hx, hway.row, fun _ => .inr rfl, fun hw => .inr ⟨?_, fun _ => nofun⟩⟩
    rcases hway.written hw with hwriting | hdb
    · exact (nomatch hidle.symm.trans hwriting)
    · exact hdb.1
  · obtain ⟨x, hx, hway⟩ := h r hr
    refine ⟨x, hx, hway.row, fun hw => ?_, hway.written⟩
    rcases hway.unwritten hw with ⟨hup', -⟩ | hcleared
    · exact absurd hup' hup
    · exact .inr hcleared

theorem Newest.pick (hcleared : s.flush = .cleared) : Newest s.pick := by
  intro r hr
  unfold State.pick at hr ⊢
  split at hr
  · rename_i row hrow
    obtain ⟨x, hx, hway⟩ := h r hr
    rw [hrow] at hx
    cases hx
    refine ⟨_, rfl, hway.row, nofun, fun _ => .inl ?_⟩
    rw [← hway.row]
  · rename_i hnot
    obtain ⟨x, hx, hway⟩ := h r hr
    cases hw : x.written with
    | false =>
      refine absurd ?_ (hnot x.row)
      rw [hx, ← hw]
    | true =>
      refine ⟨x, hx, hway.row, fun hf => (nomatch hw.symm.trans hf), fun _ => .inr ⟨?_, nofun⟩⟩
      rcases hway.written hw with hwriting | hdb
      · exact (nomatch hcleared.symm.trans hwriting)
      · exact hdb.1

theorem Newest.write {row : Row} (hwriting : s.flush = .writing row) :
    Newest { s with db := some row, flush := .idle } := by
  intro r hr
  obtain ⟨x, hx, hway⟩ := h r hr
  refine ⟨x, hx, hway.row, fun hw => ?_, fun hw => .inr ⟨?_, nofun⟩⟩
  · rcases hway.unwritten hw with hup | hcleared
    · exact .inl hup
    · exact (nomatch hwriting.symm.trans hcleared)
  · rcases hway.written hw with hw' | hdb
    · cases hwriting.symm.trans hw'
      rfl
    · exact absurd hwriting (hdb.2 row)

theorem Newest.step {a : Act} (hc : Spares s a) (ht : step s a = some t) : Newest t := by
  cases a with
  | add row =>
    cases ht
    intro r hr
    cases hr
    exact ⟨_, rfl, rfl, fun _ => .inl ⟨rfl, rfl⟩, nofun⟩
  | ask i =>
    simp only [Latest.step] at ht
    split at ht
    · cases ht
      split_ifs
      · exact h
      · exact h.same rfl rfl rfl rfl rfl rfl
    · cases ht
  | mark i | fetch i | finish i =>
    simp only [Latest.step] at ht
    split at ht
    · cases ht
      exact h.same rfl rfl rfl rfl rfl rfl
    · cases ht
  | keep i =>
    simp only [Latest.step] at ht
    split at ht
    · rename_i hi
      cases ht
      exact h.keep hi hc
    · cases ht
  | clear =>
    simp only [Latest.step] at ht
    split at ht
    · rename_i hidle
      cases ht
      exact h.clear hidle
    · cases ht
  | pick =>
    simp only [Latest.step] at ht
    split at ht
    · rename_i hcleared
      cases ht
      exact h.pick hcleared
    · cases ht
  | write =>
    simp only [Latest.step] at ht
    split at ht
    · rename_i hwriting
      cases ht
      exact h.write hwriting
    · cases ht

end

/-- **The newest receipt wins**, in memory at once, and in the database when a flush that began
after it has ended. -/
theorem newest_receipt {db : Option Row} {as : List Act}
    (hm : RunMeets Latest.step Spares (.init db) as)
    (hr : run Latest.step (.init db) as = some s) (hadded : s.added = some r) :
    s.getLatestOffset = r.evtOffset ∧
      (s.begun = true → s.flush = .idle → s.db = some r) := by
  have hinit : Newest (.init db) := by
    intro r hr
    cases hr
  have hnewest : Newest s := run_invariant (fun hu hc ht => hu.step hc ht) hinit hm hr
  obtain ⟨x, hx, hway⟩ := hnewest r hadded
  refine ⟨by simp [State.getLatestOffset, hx, hway.row], fun hbegun hidle => ?_⟩
  cases hw : x.written with
  | false =>
    rcases hway.unwritten hw with ⟨-, hnot⟩ | hcleared
    · exact (nomatch hbegun.symm.trans hnot)
    · exact (nomatch hidle.symm.trans hcleared)
  | true =>
    rcases hway.written hw with hwriting | hdb
    · exact (nomatch hidle.symm.trans hwriting)
    · exact hdb.1

end

/-! ## A load after a receipt -/

def loads (i : Nat) : List Act := [.ask i, .mark i, .fetch i, .keep i, .finish i]

def flushes : List Act := [.clear, .pick, .write]

theorem newest_receipt_loaded :
    ∃ s, run step (.init (some ⟨5, "old"⟩)) (loads 0 ++ [.add ⟨10, "new"⟩] ++ flushes) = some s ∧
      s.getLatestOffset = 10 ∧ s.db = some ⟨10, "new"⟩ := by
  have hm : RunMeets step Spares (.init (some ⟨5, "old"⟩))
      (loads 0 ++ [.add ⟨10, "new"⟩] ++ flushes) := by decide
  obtain ⟨hoffset, hdb⟩ := newest_receipt hm rfl rfl
  exact ⟨_, rfl, hoffset, hdb rfl rfl⟩

/-- The receipt is added before the history is loaded: the load puts the old receipt in its place,
and the flush finds nothing to write. -/
theorem receipt_overwritten :
    ∃ s, run step (.init (some ⟨5, "old"⟩))
        ([.add ⟨10, "new"⟩] ++ loads 0 ++ [.clear, .pick]) = some s ∧
      s.added = some ⟨10, "new"⟩ ∧ s.getLatestOffset = 5 ∧ s.begun = true ∧ s.flush = .idle ∧
      s.db = some ⟨5, "old"⟩ :=
  ⟨_, rfl, rfl, rfl, rfl, rfl, rfl⟩

end Ligase.Receipt.Latest

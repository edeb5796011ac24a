import Ligase.Lib.Text

/-!
# Sync tokens

A token has six positions. Each of them is read from the token of a request, and while the request
is processed a position for the next token is found.

* **`init_build_recv`**: the positions that are written are those read back.
-/

namespace Ligase.Aggregate

open Lib List

/-- A position as it is received, and as it is after the request. -/
structure Mark where
  recv : Int
  process : Int

def Mark.both (i : Int) : Mark := ⟨i, i⟩

structure OffsetMarks where
  utl : Mark
  acc : Mark
  recp : Mark
  pre : Mark
  kc : Mark
  std : Mark

namespace OffsetMarks

def reset (val : Int) : OffsetMarks :=
  ⟨.both val, .both val, .both val, .both val, .both val, .both val⟩

def setMark (oms : OffsetMarks) (name : List Char) (i : Mark) : Option OffsetMarks :=
  match name with
  | ['u', 't', 'l'] => some { oms with utl := i }
  | ['a', 'c', 'c'] => some { oms with acc := i }
  | ['r', 'e', 'c'] => some { oms with recp := i }
  | ['p', 'r', 'e'] => some { oms with pre := i }
  | ['k', 'c'] => some { oms with kc := i }
  | ['s', 't', 'd'] => some { oms with std := i }
  | _ => none

/-- One part of a token. The name of a mark without a number is a panic. -/
def initPart (oms : OffsetMarks) (val : List Char) : Option OffsetMarks :=
  match val.splitOn ':' with
  | name :: n :: _ =>
    some ((oms.setMark name (.both ((atoi (String.ofList n)).getD 0))).getD oms)
  | [name] => if (oms.setMark name (.both 0)).isSome then none else some oms
  | [] => some oms

def init (input : String) : Option OffsetMarks :=
  let offsets := input.toList.splitOn '_'
  if offsets.length = 1 then some (reset (if input = "" then 0 else (atoi input).getD 0))
  else offsets.foldlM initPart (reset 0)

def build (oms : OffsetMarks) : String :=
  "utl:" ++ itoa oms.utl.process ++ "_acc:" ++ itoa oms.acc.process ++ "_rec:" ++
    itoa oms.recp.process ++ "_pre:" ++ itoa oms.pre.process ++ "_kc:" ++
    itoa oms.kc.process ++ "_std:" ++ itoa oms.std.process

end OffsetMarks

/-! ## Reading back -/

def part (name : List Char) (z : Int) : List Char := name ++ ':' :: (itoa z).toList

open OffsetMarks

theorem notMem_part {sep : Char} {name : List Char} (hn : sep ∉ name) (hs : sep ≠ ':')
    (hm : sep ≠ '-') (hd : sep.isDigit = false) (z : Int) : sep ∉ part name z := by
  intro h
  rcases mem_append.mp h with h | h
  · exact hn h
  · rcases mem_cons.mp h with h | h
    · exact hs h
    · rcases mem_toList_itoa h with h | h
      · exact hm h
      · rw [hd] at h
        cases h

theorem splitOn_part {name : List Char} (hn : ':' ∉ name) (z : Int) :
    (part name z).splitOn ':' = [name, (itoa z).toList] := by
  have hz : ':' ∉ (itoa z).toList := by
    intro h
    rcases mem_toList_itoa h with h | h
    · cases h
    · cases h
  have h : ([':'].intercalate [name, (itoa z).toList]).splitOn ':' = _ :=
    splitOn_intercalate ':' (by simp [hn, hz]) (by simp)
  simpa [part, intercalate] using h

variable (oms : OffsetMarks)

def OffsetMarks.named : List (List Char × Mark) :=
  [(['u', 't', 'l'], oms.utl), (['a', 'c', 'c'], oms.acc), (['r', 'e', 'c'], oms.recp),
    (['p', 'r', 'e'], oms.pre), (['k', 'c'], oms.kc), (['s', 't', 'd'], oms.std)]

theorem toList_build : oms.build.toList =
    ['_'].intercalate (oms.named.map fun p => part p.1 p.2.process) := by
  unfold build
  repeat rw [String.toList_append]
  simp only [named, part, map_cons, map_nil, intercalate,
    intersperse, flatten_cons, flatten_nil, append_assoc, cons_append,
    nil_append, append_nil]
  rfl

theorem splitOn_build :
    oms.build.toList.splitOn '_' = oms.named.map fun p => part p.1 p.2.process := by
  have hname : ∀ p ∈ oms.named, '_' ∉ p.1 := by
    simp [named]
  rw [toList_build]
  refine splitOn_intercalate '_' ?_ (by simp [named])
  intro l hl
  obtain ⟨p, hp, rfl⟩ := mem_map.mp hl
  exact notMem_part (hname p hp) (by decide) (by decide) (by decide) p.2.process

/-- What a position is read back as; a number that is too large is read as 0. -/
def readBack (m : Mark) : Mark := .both ((atoi (itoa m.process)).getD 0)

theorem initPart_part {name : List Char} (hn : ':' ∉ name) (oms : OffsetMarks) (m : Mark) :
    oms.initPart (part name m.process) = some ((oms.setMark name (readBack m)).getD oms) := by
  rw [initPart, splitOn_part hn]
  simp only [String.ofList_toList, readBack]

theorem foldlM_initPart {l : List (List Char × Mark)} (hl : ∀ p ∈ l, ':' ∉ p.1)
    (oms : OffsetMarks) : (l.map fun p => part p.1 p.2.process).foldlM initPart oms =
      some (l.foldl (fun oms p => (oms.setMark p.1 (readBack p.2)).getD oms) oms) := by
  induction l generalizing oms with
  | nil => rfl
  | cons p l ih =>
    rw [map_cons, foldlM_cons, initPart_part (hl p mem_cons_self)]
    exact ih (fun q hq => hl q (mem_cons_of_mem _ hq)) _

theorem init_build : init oms.build = some ⟨readBack oms.utl, readBack oms.acc, readBack oms.recp,
      readBack oms.pre, readBack oms.kc, readBack oms.std⟩ := by
  have hname : ∀ p ∈ oms.named, ':' ∉ p.1 := by
    simp [named]
  rw [init, splitOn_build]
  exact foldlM_initPart hname _

theorem readBack_eq {m : Mark} (h : minInt64 ≤ m.process ∧ m.process ≤ maxInt64) :
    readBack m = .both m.process := by
  rw [readBack, atoi_itoa h]
  rfl

/-- **The positions of a request are those the next one receives.** -/
theorem init_build_recv {oms : OffsetMarks}
    (h : ∀ p ∈ oms.named, minInt64 ≤ p.2.process ∧ p.2.process ≤ maxInt64) :
    ∃ oms', OffsetMarks.init oms.build = some oms' ∧ oms'.utl.recv = oms.utl.process ∧
      oms'.acc.recv = oms.acc.process ∧ oms'.recp.recv = oms.recp.process ∧
      oms'.pre.recv = oms.pre.process ∧ oms'.kc.recv = oms.kc.process ∧
      oms'.std.recv = oms.std.process := by
  have hread : ∀ p ∈ oms.named, (readBack p.2).recv = p.2.process := fun p hp => by
    rw [readBack_eq (h p hp), Mark.both]
  simp only [OffsetMarks.named, forall_mem_cons] at hread
  obtain ⟨hutl, hacc, hrecp, hpre, hkc, hstd, -⟩ := hread
  exact ⟨_, init_build oms, hutl, hacc, hrecp, hpre, hkc, hstd⟩

theorem init_build_recv_extremes :
    ∃ oms', OffsetMarks.init (OffsetMarks.build ⟨⟨0, minInt64⟩, ⟨0, -1⟩, ⟨0, 0⟩, ⟨0, 7⟩,
        ⟨0, maxInt64⟩, ⟨3, -42⟩⟩) = some oms' ∧
      oms'.utl.recv = minInt64 ∧ oms'.acc.recv = -1 ∧ oms'.recp.recv = 0 ∧ oms'.pre.recv = 7 ∧
      oms'.kc.recv = maxInt64 ∧ oms'.std.recv = -42 :=
  init_build_recv (by decide)

end Ligase.Aggregate

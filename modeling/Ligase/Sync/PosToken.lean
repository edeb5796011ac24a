import Ligase.Aggregate.Marks
import Ligase.Sync.Messages

/-!
# Tokens that clients send

The tokens of a request are any texts a client sends. Both readers cut a token at its underscores,
each part at its colons, and take the second piece of a part whose first piece is a name they know.
A number that cannot be read is passed over; a part that has no second piece is not.

* **`tokens_read_iff`**: on which tokens the two readers return.
-/

namespace Ligase.Sync

open Lib Aggregate List

namespace ReqGetRoomMessages

/-- One part of a token; a position or a time without a number is a panic. -/
def parsePart (token : Int × Int) (val : List Char) : Option (Int × Int) :=
  match val.splitOn ':' with
  | ['p'] :: items =>
    items.head?.map fun n => ((atoi (String.ofList n)).getD token.1, token.2)
  | ['t'] :: items =>
    items.head?.map fun n => (token.1, (atoi (String.ofList n)).getD token.2)
  | _ => some token

/-- The position and the time of a token, or a panic. -/
def parsePosToken (s : String) (token : Int × Int) : Option (Int × Int) :=
  let offsets := s.toList.splitOn '_'
  if offsets.length > 1 then offsets.foldlM parsePart token else some token

theorem parsePart_eq {val : List Char} {token t : Int × Int} (h : parsePart token val = some t) :
    parseTokenPart val token = t := by
  unfold parsePart at h
  unfold parseTokenPart
  split at h
  pick_goal 3
  · rename_i hp ht
    obtain rfl : token = t := by simpa using h
    split
    · rename_i hitems
      exact absurd hitems (hp _)
    · rename_i hitems
      exact absurd hitems (ht _)
    · rfl
  all_goals
    rename_i items hitems
    cases items with
    | nil => cases h
    | cons n items => simpa [hitems] using h

theorem foldlM_parsePart_eq {offsets : List (List Char)} {token t : Int × Int}
    (h : offsets.foldlM parsePart token = some t) :
    offsets.foldl (fun token val => parseTokenPart val token) token = t := by
  induction offsets generalizing token with
  | nil => simpa using h
  | cons val offsets ih =>
    obtain ⟨token', hval, hrest⟩ := Option.bind_eq_some_iff.mp h
    rw [foldl_cons, parsePart_eq hval]
    exact ih hrest

theorem parsePosToken_eq {s : String} {token t : Int × Int} (h : parsePosToken s token = some t) :
    Sync.parsePosToken s token = t := by
  simp only [parsePosToken] at h
  simp only [Sync.parsePosToken]
  split_ifs at h ⊢
  · exact foldlM_parsePart_eq h
  · simpa using h

end ReqGetRoomMessages

/-! ## Bare names -/

/-- No part of a token is one of the names without a number. A token without an underscore has no
parts. -/
def NoBareName (names : List String) (s : String) : Prop :=
  '_' ∈ s.toList → ∀ part ∈ s.toList.splitOn '_', String.ofList part ∉ names

instance (names : List String) (s : String) : Decidable (NoBareName names s) :=
  inferInstanceAs (Decidable (_ → _))

def syncNames : List String := ["utl", "acc", "rec", "pre", "kc", "std"]

def pageNames : List String := ["p", "t"]

theorem ofList_mem_iff {cs : List Char} {names : List String} :
    String.ofList cs ∈ names ↔ cs ∈ names.map String.toList := by
  rw [mem_map]
  constructor
  · intro h
    exact ⟨_, h, String.toList_ofList⟩
  · rintro ⟨name, hname, rfl⟩
    rwa [String.ofList_toList]

theorem ofList_notMem_of_colon {names : List String} (hnames : ∀ name ∈ names, ':' ∉ name.toList)
    {val : List Char} (hval : ':' ∈ val) : String.ofList val ∉ names := by
  intro h
  exact hnames _ h (by rwa [String.toList_ofList])

theorem isSome_setMark_iff (oms : OffsetMarks) (name : List Char) (m : Mark) :
    (oms.setMark name m).isSome ↔ String.ofList name ∈ syncNames := by
  rw [ofList_mem_iff, show syncNames.map String.toList = [['u', 't', 'l'], ['a', 'c', 'c'],
    ['r', 'e', 'c'], ['p', 'r', 'e'], ['k', 'c'], ['s', 't', 'd']] from rfl]
  unfold OffsetMarks.setMark
  split <;> simp_all

theorem isSome_initPart_iff (oms : OffsetMarks) (val : List Char) :
    (oms.initPart val).isSome ↔ String.ofList val ∉ syncNames := by
  unfold OffsetMarks.initPart
  by_cases hval : ':' ∈ val
  · obtain ⟨name, n, items, hsplit⟩ := splitOn_of_mem hval
    simpa [hsplit] using ofList_notMem_of_colon (by decide) hval
  · rw [splitOn_of_notMem hval]
    simp only [isSome_setMark_iff]
    split_ifs with h <;> simp [h]

theorem isSome_parsePart_iff (token : Int × Int) (val : List Char) :
    (ReqGetRoomMessages.parsePart token val).isSome ↔ String.ofList val ∉ pageNames := by
  unfold ReqGetRoomMessages.parsePart
  by_cases hval : ':' ∈ val
  · obtain ⟨name, n, items, hsplit⟩ := splitOn_of_mem hval
    have hbare : String.ofList val ∉ pageNames := ofList_notMem_of_colon (by decide) hval
    simp only [hsplit, hbare, not_false_eq_true, iff_true]
    split
    · rename_i hitems
      rw [← (cons.inj hitems).2]
      rfl
    · rename_i hitems
      rw [← (cons.inj hitems).2]
      rfl
    · rfl
  · rw [splitOn_of_notMem hval, ofList_mem_iff,
      show pageNames.map String.toList = [['p'], ['t']] from rfl]
    split <;> simp_all

/-! ## The two readers -/

theorem one_lt_length_splitOn_iff {sep : Char} {cs : List Char} :
    1 < (cs.splitOn sep).length ↔ sep ∈ cs := by
  by_cases h : sep ∈ cs
  · obtain ⟨first, second, parts, hsplit⟩ := splitOn_of_mem h
    simp [hsplit, h]
  · simp [splitOn_of_notMem h, h]

theorem isSome_init_iff (input : String) :
    (OffsetMarks.init input).isSome ↔ NoBareName syncNames input := by
  simp only [OffsetMarks.init, NoBareName]
  by_cases h : '_' ∈ input.toList
  · have hlen := one_lt_length_splitOn_iff.mpr h
    rw [if_neg (by omega), isSome_foldlM_iff isSome_initPart_iff]
    simp [h]
  · rw [splitOn_of_notMem h]
    simp [h]

theorem isSome_parsePosToken_iff (s : String) (token : Int × Int) :
    (ReqGetRoomMessages.parsePosToken s token).isSome ↔ NoBareName pageNames s := by
  simp only [ReqGetRoomMessages.parsePosToken, NoBareName]
  by_cases h : '_' ∈ s.toList
  · rw [if_pos (one_lt_length_splitOn_iff.mpr h), isSome_foldlM_iff isSome_parsePart_iff]
    simp [h]
  · rw [splitOn_of_notMem h]
    simp [h]

/-- **A token is read unless a part of it is a bare name.** -/
theorem tokens_read_iff (input s : String) (token : Int × Int) :
    ((OffsetMarks.init input).isSome ↔ NoBareName syncNames input) ∧
      ((ReqGetRoomMessages.parsePosToken s token).isSome ↔ NoBareName pageNames s) :=
  ⟨isSome_init_iff input, isSome_parsePosToken_iff s token⟩

/-- A name and a number, cut at the underscore and not at a colon. -/
theorem bare_names_panic :
    OffsetMarks.init "utl_1" = none ∧ ReqGetRoomMessages.parsePosToken "p_1" (0, 0) = none := by
  decide

end Ligase.Sync

import Mathlib.Data.List.Infix

/-!
# Text

The string functions of the Go standard library that the modelled code calls, by recursion over the
characters.

* `atoi_itoa`, `itoa_injective`: numbers are read back.
* `isSome_foldlM_iff`: a text is read part by part.
* `replaceAll_flatMap`: replacing in a text that is made of words.
-/

namespace Ligase.Lib

open List

def contains (s sub : String) : Bool := s.toList.tails.any sub.toList.isPrefixOf

/-- The parts around the first `sep`, as `strings.SplitN(s, sep, 2)` gives them. -/
def cut (sep : Char) (s : String) : Option (String × String) :=
  let cs := s.toList
  if sep ∈ cs then
    some (String.ofList (cs.takeWhile (· ≠ sep)), String.ofList ((cs.dropWhile (· ≠ sep)).drop 1))
  else none

/-- `common.DomainFromID`: what is after the first colon of an identifier, if it has one. -/
def domainFromID (id : String) : String := ((cut ':' id).map Prod.snd).getD ""

/-- The types of `common.IsStateEv` and `common.IsStateClientEv`. -/
def stateTypes : List String :=
  ["m.room.create", "m.room.member", "m.room.power_levels", "m.room.join_rules",
    "m.room.history_visibility", "m.room.visibility", "m.room.name", "m.room.topic",
    "m.room.pinned_events", "m.room.desc", "m.room.aliases", "m.room.canonical_alias",
    "m.room.avatar", "m.room.encryption", "m.room.third_party_invite", "m.room.guest_access"]

def beforeLast (sep : Char) (s : String) : Option String :=
  let cs := s.toList
  if sep ∈ cs then some (String.ofList ((cs.reverse.dropWhile (· ≠ sep)).drop 1).reverse) else none

def cutPrefix (start s : String) : Option String :=
  if start.toList.isPrefixOf s.toList then some (String.ofList (s.toList.drop start.toList.length))
  else none

def minInt64 : Int := -9223372036854775808

def maxInt64 : Int := 9223372036854775807

def int64 (z : Int) : Int := z.bmod 18446744073709551616

def IsInt64 (z : Int) : Prop := minInt64 ≤ z ∧ z ≤ maxInt64

variable {z : Int}

theorem int64_eq_self (h : IsInt64 z) : int64 z = z := by
  obtain ⟨hlow, hhigh⟩ := h
  unfold minInt64 at hlow
  unfold maxInt64 at hhigh
  exact Int.bmod_eq_of_le (by omega) (by omega)

theorem int64_of_nonneg (h0 : 0 ≤ z) (h : z ≤ maxInt64 - minInt64) :
    int64 z = if z ≤ maxInt64 then z else z - 18446744073709551616 := by
  unfold minInt64 maxInt64 at h
  unfold int64 maxInt64
  rw [Int.bmod_def, Int.emod_eq_of_lt h0 (by omega)]
  split_ifs <;> omega

/-- An optional sign and decimal digits. -/
def decimal (s : String) : Option Int :=
  let (neg, digits) := match s.toList with
    | '-' :: cs => (true, cs)
    | '+' :: cs => (false, cs)
    | cs => (false, cs)
  if digits.isEmpty || !digits.all Char.isDigit then none
  else
    let n := Nat.ofDigitChars 10 digits 0
    some (if neg then -n else n)

/-- `strconv.Atoi`: a decimal number in the range of a 64-bit integer. -/
def atoi (s : String) : Option Int :=
  (decimal s).bind fun z => if minInt64 ≤ z ∧ z ≤ maxInt64 then some z else none

/-- The number that `strconv.Atoi` returns beside its error: the nearest one that is in range. -/
def atoiNearest (s : String) : Int :=
  ((decimal s).map fun z => max minInt64 (min z maxInt64)).getD 0

def itoa (z : Int) : String :=
  String.ofList
    (if z < 0 then '-' :: Nat.toDigits 10 z.natAbs else Nat.toDigits 10 z.natAbs)

variable {c : Char}

theorem mem_toList_itoa (h : c ∈ (itoa z).toList) : c = '-' ∨ c.isDigit = true := by
  have hdigit : c ∈ Nat.toDigits 10 z.natAbs → c.isDigit = true :=
    fun h => Nat.isDigit_of_mem_toDigits (by decide) (by decide) h
  rw [itoa, String.toList_ofList] at h
  split_ifs at h
  · exact (mem_cons.mp h).imp id hdigit
  · exact .inr (hdigit h)

theorem atoi_itoa (h : minInt64 ≤ z ∧ z ≤ maxInt64) : atoi (itoa z) = some z := by
  have hdigits : ∀ n, (Nat.toDigits 10 n).all Char.isDigit = true := fun n =>
    all_eq_true.mpr fun c hc => Nat.isDigit_of_mem_toDigits (by decide) (by decide) hc
  have hne : ∀ n, (Nat.toDigits 10 n).isEmpty = false := fun n => by
    simp [isEmpty_eq_false_iff, Nat.toDigits_ne_nil]
  have hread : ∀ n, Nat.ofDigitChars 10 (Nat.toDigits 10 n) 0 = n := fun n =>
    Nat.ofDigitChars_toDigits (by decide) (by decide)
  unfold atoi decimal itoa
  rw [String.toList_ofList]
  by_cases hz : z < 0
  · simp only [if_pos hz, hdigits, hne, hread]
    rw [show -((z.natAbs : Nat) : Int) = z by omega]
    simpa using h
  · -- the first character is a digit, so no sign is read
    have hsign : ∀ cs : List Char, cs.all Char.isDigit = true → (match cs with
          | '-' :: cs => (true, cs)
          | '+' :: cs => (false, cs)
          | cs => (false, cs)) = (false, cs) := by
      intro cs hcs
      split
      · exact absurd (all_eq_true.mp hcs '-' mem_cons_self) (by decide)
      · exact absurd (all_eq_true.mp hcs '+' mem_cons_self) (by decide)
      · rfl
    simp only [if_neg hz, hsign _ (hdigits _), hdigits, hne, hread]
    rw [show ((z.natAbs : Nat) : Int) = z by omega]
    simpa using h

theorem itoa_injective : Function.Injective itoa := by
  have hread : ∀ n, Nat.ofDigitChars 10 (Nat.toDigits 10 n) 0 = n := fun n =>
    Nat.ofDigitChars_toDigits (by decide) (by decide)
  have hsign : ∀ n, '-' ∉ Nat.toDigits 10 n := fun n h =>
    absurd (Nat.isDigit_of_mem_toDigits (by decide) (by decide) h) (by decide)
  intro a b h
  have h := congrArg String.toList h
  simp only [itoa, String.toList_ofList] at h
  have hdigits : ∀ {m n : Nat}, Nat.toDigits 10 m = Nat.toDigits 10 n → m = n := by
    intro m n h
    rw [← hread m, h, hread n]
  split_ifs at h with ha hb hb
  · have := hdigits (cons.inj h).2
    omega
  · exact absurd (h ▸ mem_cons_self) (hsign _)
  · exact absurd (h ▸ mem_cons_self) (hsign _)
  · have := hdigits h
    omega

theorem append_colon_itoa_inj {s t : String} {a b : Int}
    (h : s ++ ":" ++ itoa a = t ++ ":" ++ itoa b) : s = t ∧ a = b := by
  have hcolon : ∀ z, ':' ∉ (itoa z).toList.reverse := by
    intro z hz
    rcases mem_toList_itoa (mem_reverse.mp hz) with h | h
    all_goals exact absurd h (by decide)
  have htake : ∀ z (l : List Char),
      ((itoa z).toList.reverse ++ ':' :: l).takeWhile (· ≠ ':') = (itoa z).toList.reverse := by
    intro z l
    have hpos : ∀ c ∈ (itoa z).toList.reverse, decide (c ≠ ':') = true := by
      intro c hc
      exact decide_eq_true fun (h : c = ':') => hcolon z (h ▸ hc)
    rw [takeWhile_append_of_pos hpos]
    simp
  have h := congrArg (fun s => s.toList.reverse) h
  simp only [String.toList_append, reverse_append, append_assoc] at h
  have hn := congrArg (takeWhile (· ≠ ':')) h
  rw [show ":".toList.reverse = [':'] from rfl, singleton_append, htake,
    singleton_append, htake] at hn
  rw [hn] at h
  have hrest := append_cancel_left (append_cancel_left h)
  exact ⟨String.toList_inj.mp (reverse_inj.mp hrest),
    itoa_injective (String.toList_inj.mp (reverse_inj.mp hn))⟩

/-! ## Parts of a text -/

variable {sep : Char} {cs : List Char}

theorem splitOn_of_notMem (h : sep ∉ cs) : cs.splitOn sep = [cs] := by
  refine splitOnP_eq_singleton fun c hc => ?_
  rw [beq_eq_false_iff_ne]
  rintro rfl
  exact h hc

theorem splitOn_append_cons (h : sep ∉ cs) (rest : List Char) :
    (cs ++ sep :: rest).splitOn sep = cs :: rest.splitOn sep := by
  have hcs : ∀ c ∈ cs, (c == sep) = false := by
    intro c hc
    rw [beq_eq_false_iff_ne]
    rintro rfl
    exact h hc
  exact splitOnP_append_cons_of_forall_mem hcs sep (beq_self_eq_true sep) rest

theorem splitOn_of_mem (h : sep ∈ cs) :
    ∃ first second parts, cs.splitOn sep = first :: second :: parts := by
  obtain ⟨first, rest, rfl, hfirst⟩ := eq_append_cons_of_mem h
  obtain ⟨second, parts, hrest⟩ := exists_cons_of_ne_nil (splitOnP_ne_nil (· == sep) rest)
  exact ⟨first, second, parts, by rw [splitOn_append_cons hfirst, splitOn, hrest]⟩

/-- Parts that are read one after the other are all read if reading fails at none of them. -/
theorem isSome_foldlM_iff {α β : Type*} {read : α → β → Option α} {P : β → Prop}
    (hP : ∀ a b, (read a b).isSome ↔ P b) (a : α) (parts : List β) :
    (parts.foldlM read a).isSome ↔ ∀ b ∈ parts, P b := by
  induction parts generalizing a with
  | nil => simp
  | cons b parts ih =>
    rw [foldlM_cons, forall_mem_cons, ← hP a b]
    cases read a b with
    | none => simp
    | some a' => simpa using ih a'

/-! ## Replacing -/

/-- The text after its first `n` characters, with each `old` replaced. -/
def replaceFrom (old new : List Char) : Nat → List Char → List Char
  | _, [] => []
  | 0, c :: cs =>
    if old.isPrefixOf (c :: cs) then new ++ replaceFrom old new (old.length - 1) cs
    else c :: replaceFrom old new 0 cs
  | n + 1, _ :: cs => replaceFrom old new n cs

def replaceAll (old new cs : List Char) : List Char := replaceFrom old new 0 cs

variable {a x : Char}

section
variable {old new : List Char}

theorem replaceAll_cons (h : ¬ old <+: c :: cs) :
    replaceAll old new (c :: cs) = c :: replaceAll old new cs := by
  rw [replaceAll, replaceFrom, if_neg (by rwa [ isPrefixOf_iff_prefix])]
  rfl

theorem replaceFrom_append (w cs : List Char) :
    replaceFrom old new w.length (w ++ cs) = replaceAll old new cs := by
  induction w with
  | nil => rfl
  | cons c w ih => exact ih

theorem replaceAll_append (h : old ≠ []) (cs : List Char) :
    replaceAll old new (old ++ cs) = new ++ replaceAll old new cs := by
  cases old with
  | nil => exact absurd rfl h
  | cons c w =>
    have hold : (c :: w).isPrefixOf (c :: (w ++ cs)) = true :=
      isPrefixOf_iff_prefix.mpr ⟨cs, rfl⟩
    rw [cons_append, replaceAll, replaceFrom, if_pos hold, length_cons,
      Nat.add_sub_cancel, replaceFrom_append]

theorem not_begins_pair {w : List Char} (hw : ¬ [a, x] <:+: c :: w) (hcs : cs.head? ≠ some x) :
    ¬ [a, x] <+: c :: (w ++ cs) := by
  rw [cons_prefix_cons]
  rintro ⟨rfl, hx⟩
  cases w with
  | nil =>
    obtain ⟨v, rfl⟩ := hx
    exact hcs rfl
  | cons d w =>
    obtain ⟨rfl, -⟩ := cons_prefix_cons.mp hx
    exact hw ⟨[], w, rfl⟩

theorem replaceAll_word {w : List Char} (hw : ¬ [a, x] <:+: w) (hcs : cs.head? ≠ some x) :
    replaceAll [a, x] new (w ++ cs) = w ++ replaceAll [a, x] new cs := by
  induction w with
  | nil => rfl
  | cons c w ih =>
    rw [cons_append, replaceAll_cons (not_begins_pair hw hcs),
      ih fun h => hw (h.trans (suffix_cons c w).isInfix)]
    rfl

/-- In a text made of words that begin with other characters than `x`, the words that are the pair
are replaced. -/
theorem replaceAll_flatMap {f : Char → List Char} (hx : f x = [a, x])
    (hf : ∀ c, c ≠ x → ¬ [a, x] <:+: f c) (hne : ∀ c, f c ≠ []) (hhead : ∀ c, (f c).head? ≠ some x)
    (cs : List Char) :
    replaceAll [a, x] new (cs.flatMap f) = cs.flatMap fun c => if c = x then new else f c := by
  induction cs with
  | nil => rfl
  | cons c cs ih =>
    rw [flatMap_cons, flatMap_cons, ← ih]
    split_ifs with h
    · rw [h, hx, replaceAll_append (by simp)]
    · refine replaceAll_word (hf c h) ?_
      cases cs with
      | nil => simp
      | cons d cs =>
        rw [flatMap_cons, head?_append_of_ne_nil _ (hne d)]
        exact hhead d

end

end Ligase.Lib

import Ligase.Lib.Regex
import Mathlib.Tactic.Common

/-!
# The text of a regular expression

`Regex.compile` reads an expression as the Go package `regexp/syntax` does with its Perl flags: the
characters are cut into tokens, and a stack of open groups puts the tokens together. What the
package knows and is not read here ends in `Error.unsupported`.

* `lex_quoteChar`: a quoted character is read as itself.
* `lex_class`: a bracketed class is read as its ranges, or has a range whose ends are reversed.
* `compile_whole`, `compile_delimited`: expressions between `^` and `$` and between non-word
  characters.
-/

namespace Ligase.Lib

open List

namespace Regex

inductive Error where
  | missingBracket
  | invalidCharRange
  | missingParen
  | unexpectedParen
  | missingRepeatArgument
  | invalidRepeatOp
  | invalidEscape
  | trailingBackslash
  | unsupported
deriving DecidableEq

inductive Token where
  | atom (r : Regex)
  | star
  | quest
  | openGroup
  | closeGroup
  | bar
deriving DecidableEq

/-! ## Escapes -/

def metaChars : List Char :=
  ['\\', '.', '+', '*', '?', '(', ')', '|', '[', ']', '\x7b', '\x7d', '^', '$']

def isMeta (c : Char) : Bool := c ∈ metaChars

def quoteChar (c : Char) : List Char := if isMeta c then ['\\', c] else [c]

def quoteMeta (cs : List Char) : List Char := cs.flatMap quoteChar

def maxRune : Char := Char.ofNat 0x10FFFF

def perlClass : Char → Option (List (Char × Char))
  | 'd' => some [('0', '9')]
  | 'D' => some [('\x00', '/'), (':', maxRune)]
  | 's' => some [('\t', '\n'), ('\x0c', '\r'), (' ', ' ')]
  | 'S' => some [('\x00', '\x08'), ('\x0b', '\x0b'), ('\x0e', '\x1f'), ('!', maxRune)]
  | 'w' => some [('0', '9'), ('A', 'Z'), ('_', '_'), ('a', 'z')]
  | 'W' => some [('\x00', '/'), (':', '@'), ('[', '^'), ('`', '`'), ('\x7b', maxRune)]
  | _ => none

def unescape (c : Char) : Except Error Char :=
  if c.toNat < 128 ∧ c.isAlphanum = false then .ok c
  else match c with
    | 'a' => .ok '\x07'
    | 'f' => .ok '\x0c'
    | 'n' => .ok '\n'
    | 'r' => .ok '\r'
    | 't' => .ok '\t'
    | 'v' => .ok '\x0b'
    | _ => if c ∈ "01234567xpPAzbBCQ".toList then .error .unsupported else .error .invalidEscape

/-! ## Bracketed classes -/

inductive Item where
  /-- Nothing; the bracket has just been opened. -/
  | start
  /-- Nothing; a closing bracket would be the first item. -/
  | first
  | none
  /-- An opening bracket without a backslash. -/
  | bracket
  | lo (c : Char)
  /-- A character and a dash. -/
  | dash (c : Char)
deriving DecidableEq

structure ClassState where
  neg : Bool
  ranges : List (Char × Char)
  item : Item

def Item.pending : Item → List (Char × Char)
  | bracket => [('[', '[')]
  | lo c => [(c, c)]
  | _ => []

/-- One more character of a class, not an end or a dash of a range. -/
def ClassState.push (k : ClassState) (c : Char) (plain : Bool) : Except Error ClassState :=
  match k.item with
  | .dash lo =>
    if c < lo then .error .invalidCharRange
    else .ok { k with ranges := k.ranges ++ [(lo, c)], item := .none }
  | i => .ok { k with
      ranges := k.ranges ++ i.pending
      item := if plain && c == '[' then .bracket else .lo c }

def ClassState.close (k : ClassState) : Token :=
  .atom (.set ⟨k.neg, k.ranges ++ match k.item with
    | .dash lo => [(lo, lo), ('-', '-')]
    | i => i.pending⟩)

/-- A character without a backslash; a class may end with it. -/
def ClassState.plain (k : ClassState) (c : Char) : Except Error (Token ⊕ ClassState) :=
  match k.item, c with
  | .start, '^' => .ok (.inr { k with neg := true, item := .first })
  | .start, _ => (k.push c true).map .inr
  | .first, _ => (k.push c true).map .inr
  | _, ']' => .ok (.inl k.close)
  | .bracket, ':' => .error .unsupported
  | .bracket, '-' => .ok (.inr { k with item := .dash '[' })
  | .lo a, '-' => .ok (.inr { k with item := .dash a })
  | _, _ => (k.push c true).map .inr

def ClassState.escaped (k : ClassState) (c : Char) : Except Error ClassState :=
  match perlClass c, k.item with
  | some _, .dash _ => .error .invalidEscape
  | some rs, i => .ok { k with ranges := k.ranges ++ i.pending ++ rs, item := .none }
  | none, _ => unescape c >>= fun c => k.push c false

/-! ## Tokens -/

/-- Where in the text of an expression a character stands. -/
inductive Mode where
  | top
  | escape
  | cls (k : ClassState)
  | clsEscape (k : ClassState)

/-- A character outside of classes, not a backslash or an opening bracket. -/
def topToken : Char → Except Error Token
  | '.' => .ok (.atom any)
  | '^' => .ok (.atom beginText)
  | '$' => .ok (.atom endText)
  | '*' => .ok .star
  | '?' => .ok .quest
  | '(' => .ok .openGroup
  | ')' => .ok .closeGroup
  | '|' => .ok .bar
  | '+' => .error .unsupported
  | '\x7b' => .error .unsupported
  | c => .ok (.atom (char c))

def escapeToken (c : Char) : Except Error Token :=
  match perlClass c with
  | some rs => .ok (.atom (set ⟨false, rs⟩))
  | none => (unescape c).map fun c => .atom (char c)

def lex : Mode → List Char → Except Error (List Token)
  | .top, [] => .ok []
  | .escape, [] => .error .trailingBackslash
  | .cls _, [] => .error .missingBracket
  | .clsEscape _, [] => .error .trailingBackslash
  | .top, c :: cs =>
    if c = '\\' then lex .escape cs
    else if c = '[' then lex (.cls ⟨false, [], .start⟩) cs
    else topToken c >>= fun t => (lex .top cs).map (t :: ·)
  | .escape, c :: cs => escapeToken c >>= fun t => (lex .top cs).map (t :: ·)
  | .cls k, c :: cs =>
    if c = '\\' then lex (.clsEscape k) cs
    else k.plain c >>= fun
      | .inl t => (lex .top cs).map (t :: ·)
      | .inr k => lex (.cls k) cs
  | .clsEscape k, c :: cs => k.escaped c >>= fun k => lex (.cls k) cs

/-! ## The tree -/

/-- The alternatives of an open group, the last of them not yet complete. -/
structure Frame where
  alternatives : List Regex
  sequence : List Regex

def Frame.regex (f : Frame) : Regex := alts (f.alternatives ++ [seqs f.sequence])

structure Tree where
  frame : Frame
  stack : List (Nat × Frame)
  groups : Nat

def Frame.push (f : Frame) (r : Regex) : Frame := { f with sequence := f.sequence ++ [r] }

/-- Put the last expression of a sequence in a repetition. -/
def Frame.repeatLast (f : Frame) : Except Error Frame :=
  match f.sequence.getLast? with
  | none => .error .missingRepeatArgument
  | some (.star _ _) => .error .invalidRepeatOp
  | some r => .ok { f with sequence := f.sequence.dropLast ++ [.star false r] }

def Frame.lazyLast (f : Frame) : Except Error Frame :=
  match f.sequence.getLast? with
  | some (.star false r) => .ok { f with sequence := f.sequence.dropLast ++ [.star true r] }
  | some (.star true _) => .error .invalidRepeatOp
  | _ => .error .unsupported

def Tree.add (t : Tree) : Token → Except Error Tree
  | .atom r => .ok { t with frame := t.frame.push r }
  | .star => t.frame.repeatLast.map fun f => { t with frame := f }
  | .quest => t.frame.lazyLast.map fun f => { t with frame := f }
  | .openGroup => .ok
    { frame := ⟨[], []⟩
      stack := (t.groups + 1, t.frame) :: t.stack
      groups := t.groups + 1 }
  | .closeGroup =>
    match t.stack with
    | [] => .error .unexpectedParen
    | (n, f) :: stack => .ok { t with frame := f.push (.group n t.frame.regex), stack := stack }
  | .bar => .ok { t with frame := ⟨t.frame.alternatives ++ [seqs t.frame.sequence], []⟩ }

def Tree.finish (t : Tree) : Except Error Regex :=
  if t.stack.isEmpty then .ok t.frame.regex else .error .missingParen

def parse (ts : List Token) : Except Error Regex :=
  ts.foldlM Tree.add ⟨⟨[], []⟩, [], 0⟩ >>= Tree.finish

def compile (text : List Char) : Except Error Regex := lex .top text >>= parse

example : compile "a|(b.)*?".toList = .ok (alts [seqs [char 'a'],
    seqs [star true (group 1 (alts [seqs [char 'b', any]]))]]) := by decide

example : compile "[^a-c\\]-]".toList =
    .ok (seqs [set ⟨true, [('a', 'c'), (']', ']'), ('-', '-')]⟩]) := by decide

/-! ## Quoted characters -/

variable {c a : Char}

open ClassState

theorem escapeToken_of_isMeta (h : isMeta c = true) : escapeToken c = .ok (.atom (char c)) := by
  have hall : metaChars.all (fun c => escapeToken c = .ok (.atom (char c))) = true := by decide
  exact of_decide_eq_true (all_eq_true.mp hall c (of_decide_eq_true h))

theorem topToken_of_not_isMeta (h : isMeta c = false) : topToken c = .ok (.atom (char c)) := by
  unfold topToken
  split
  all_goals first
    | rfl
    | exact absurd h (by decide)

theorem lex_quoteChar (c : Char) (rest : List Char) :
    lex .top (quoteChar c ++ rest) = (lex .top rest).map (Token.atom (char c) :: ·) := by
  unfold quoteChar
  split_ifs with h
  · show escapeToken c >>= (fun t => (lex .top rest).map (t :: ·)) = _
    rw [escapeToken_of_isMeta h]
    rfl
  · have hbackslash : c ≠ '\\' := by
      rintro rfl
      exact h (by decide)
    have hbracket : c ≠ '[' := by
      rintro rfl
      exact h (by decide)
    rw [singleton_append, lex, if_neg hbackslash, if_neg hbracket,
      topToken_of_not_isMeta (by simpa using h)]
    rfl

/-! ## Classes -/

structure Sym where
  char : Char
  escaped : Bool

def Sym.text (x : Sym) : List Char := if x.escaped then ['\\', x.char] else [x.char]

def Sym.isDash (x : Sym) : Bool := !x.escaped && x.char == '-'

variable {k : ClassState} {x : Sym} {neg : Bool} {rs : List (Char × Char)} {xs : List Sym}

/-- The symbol stands for its character. -/
def Sym.Stands (x : Sym) : Prop :=
  if x.escaped then perlClass x.char = none ∧ unescape x.char = .ok x.char
  else x.char ≠ '\\' ∧ x.char ≠ '[' ∧ x.char ≠ ']'

/-- The ranges of a class: a dash between two symbols makes a range of them. -/
def ranges : List Sym → List (Char × Char)
  | [] => []
  | x :: y :: z :: xs =>
    if y.isDash then (x.char, z.char) :: ranges xs else (x.char, x.char) :: ranges (y :: z :: xs)
  | x :: xs => (x.char, x.char) :: ranges xs

/-- No range has its ends reversed. -/
def Ascending (rs : List (Char × Char)) : Prop := ∀ r ∈ rs, r.1 ≤ r.2

instance (rs : List (Char × Char)) : Decidable (Ascending rs) :=
  inferInstanceAs (Decidable (∀ r ∈ rs, r.1 ≤ r.2))

/-- The class is not waiting for a mark, and `x` is not one. -/
def ClassState.Takes (k : ClassState) (x : Sym) : Prop :=
  k.item ≠ .bracket ∧ (x.escaped = false → (k.item = .start → x.char ≠ '^') ∧
    ∀ a, k.item = .lo a → x.char ≠ '-')

theorem ClassState.push_plain (hc : c ≠ '[') : k.push c true = k.push c false := by
  simp [push, hc]

theorem ClassState.plain_eq_push (hopen : c ≠ '[') (hclose : c ≠ ']')
    (hk : k.Takes ⟨c, false⟩) : k.plain c = (k.push c false).map .inr := by
  obtain ⟨hbracket, hk⟩ := hk
  obtain ⟨hstart, hlo⟩ := hk rfl
  rw [← push_plain hopen]
  unfold plain
  split
  · exact absurd rfl (hstart ‹_›)
  · rfl
  · rfl
  · exact absurd rfl hclose
  · exact absurd ‹_› hbracket
  · exact absurd ‹_› hbracket
  · exact absurd rfl (hlo _ ‹_›)
  · rfl

theorem lex_cls_sym (hx : x.Stands) (hk : k.Takes x) (rest : List Char) :
    lex (.cls k) (x.text ++ rest) = k.push x.char false >>= fun k => lex (.cls k) rest := by
  obtain ⟨c, escaped⟩ := x
  cases escaped with
  | true =>
    obtain ⟨hperl, hc⟩ : perlClass c = none ∧ unescape c = .ok c := hx
    show k.escaped c >>= (fun k => lex (.cls k) rest) = _
    unfold escaped
    rw [hperl, hc]
    rfl
  | false =>
    obtain ⟨hbackslash, hopen, hclose⟩ : c ≠ '\\' ∧ c ≠ '[' ∧ c ≠ ']' := hx
    show lex (.cls k) (c :: rest) = _
    rw [lex, if_neg hbackslash, plain_eq_push hopen hclose hk]
    cases k.push c false <;> rfl

theorem lex_cls_lo {i : Item} (hx : x.Stands)
    (hi : i = .start ∧ x ≠ ⟨'^', false⟩ ∨ i = .none) (rest : List Char) :
    lex (.cls ⟨neg, rs, i⟩) (x.text ++ rest) = lex (.cls ⟨neg, rs, .lo x.char⟩) rest := by
  have hk : (⟨neg, rs, i⟩ : ClassState).Takes x := by
    obtain ⟨c, escaped⟩ := x
    rcases hi with ⟨rfl, hx⟩ | rfl
    · refine ⟨by simp, ?_⟩
      rintro rfl
      exact ⟨fun _ hc => hx (by rw [show c = '^' from hc]), by simp⟩
    · exact ⟨by simp, by simp⟩
  rw [lex_cls_sym hx hk]
  rcases hi with ⟨rfl, -⟩ | rfl
  all_goals simp [push, Item.pending, bind, Except.bind]

theorem lex_cls_dash (hx : x.isDash = true) (rest : List Char) :
    lex (.cls ⟨neg, rs, .lo a⟩) (x.text ++ rest) = lex (.cls ⟨neg, rs, .dash a⟩) rest := by
  obtain ⟨c, escaped⟩ := x
  obtain ⟨rfl, rfl⟩ : escaped = false ∧ c = '-' := by simpa [Sym.isDash] using hx
  rfl

theorem lex_cls_next
    (hxs : ∀ x ∈ xs, x.Stands) (hdash : ∀ x ∈ xs.head?, x.isDash = false) (rest : List Char) :
    lex (.cls ⟨neg, rs, .lo a⟩) (xs.flatMap Sym.text ++ ']' :: rest) =
      lex (.cls ⟨neg, rs ++ [(a, a)], .none⟩) (xs.flatMap Sym.text ++ ']' :: rest) := by
  cases xs with
  | nil =>
    show (lex .top rest).map _ = (lex .top rest).map _
    simp [close, Item.pending]
  | cons x xs =>
    have hx := hxs x mem_cons_self
    have hk : (⟨neg, rs, .lo a⟩ : ClassState).Takes x := by
      refine ⟨by simp, fun hesc => ⟨by simp, fun _ _ hc => ?_⟩⟩
      simp [Sym.isDash, hesc, hc] at hdash
    rw [flatMap_cons, append_assoc, lex_cls_sym hx hk, lex_cls_lo hx (.inr rfl)]
    simp [push, Item.pending, bind, Except.bind]

theorem lex_cls_range (hx : x.Stands) (rest : List Char) :
    lex (.cls ⟨neg, rs, .dash a⟩) (x.text ++ rest) =
      if a ≤ x.char then lex (.cls ⟨neg, rs ++ [(a, x.char)], .none⟩) rest
      else .error .invalidCharRange := by
  rw [lex_cls_sym hx ⟨by simp, by simp⟩]
  by_cases h : a ≤ x.char
  · simp [push, h, Char.not_lt.mpr h, bind, Except.bind]
  · simp [push, h, Char.not_le.mp h, bind, Except.bind]

theorem ascending_cons {b : Char} : Ascending ((a, b) :: rs) ↔ a ≤ b ∧ Ascending rs :=
  forall_mem_cons

theorem lex_cls_ranges (hxs : ∀ x ∈ xs, x.Stands) (neg : Bool)
    (rs : List (Char × Char)) (rest : List Char) :
    lex (.cls ⟨neg, rs, .none⟩) (xs.flatMap Sym.text ++ ']' :: rest) =
      if Ascending (ranges xs) then
        (lex .top rest).map (Token.atom (set ⟨neg, rs ++ ranges xs⟩) :: ·)
      else .error .invalidCharRange := by
  fun_induction ranges xs generalizing rs with
  | case1 => rfl
  | case2 x y z xs hy ih =>
    simp only [forall_mem_cons] at hxs
    obtain ⟨hx, -, hz, hxs⟩ := hxs
    simp only [flatMap_cons, append_assoc]
    rw [lex_cls_lo hx (.inr rfl), lex_cls_dash hy, lex_cls_range hz, ih hxs]
    simp only [ascending_cons, ite_and, append_assoc, singleton_append]
  | case3 x y z xs hy ih =>
    obtain ⟨hx, hxs⟩ := forall_mem_cons.mp hxs
    rw [flatMap_cons, append_assoc, lex_cls_lo hx (.inr rfl),
      lex_cls_next hxs (by simpa using hy), ih hxs]
    simp only [ascending_cons, Char.le_refl, true_and, append_assoc, singleton_append]
  | case4 x xs hlen ih =>
    obtain ⟨hx, hxs⟩ := forall_mem_cons.mp hxs
    rw [flatMap_cons, append_assoc, lex_cls_lo hx (.inr rfl)]
    by_cases hdash : ∀ y ∈ xs.head?, y.isDash = false
    · rw [lex_cls_next hxs hdash, ih hxs]
      simp only [ascending_cons, Char.le_refl, true_and, append_assoc, singleton_append]
    · -- a dash at the end of the class is a character
      obtain ⟨y, rfl, hy⟩ : ∃ y, xs = [y] ∧ y.isDash = true := by
        match xs, hlen with
        | [], _ => simp at hdash
        | [y], _ => exact ⟨y, rfl, by simpa using hdash⟩
        | y :: z :: xs, hlen => exact absurd rfl (hlen y z xs)
      rw [flatMap_cons, append_assoc, lex_cls_dash hy]
      obtain ⟨-, hc⟩ : y.escaped = false ∧ y.char = '-' := by simpa [Sym.isDash] using hy
      rw [if_pos (by simp [ranges, Ascending]), ranges, ranges, hc]
      · rfl
      · simp

theorem lex_class (hxs : ∀ x ∈ xs, x.Stands) (hne : xs ≠ [])
    (hfirst : xs.head? ≠ some ⟨'^', false⟩) (rest : List Char) :
    lex .top ('[' :: (xs.flatMap Sym.text ++ ']' :: rest)) =
      if Ascending (ranges xs) then
        (lex .top rest).map (Token.atom (set ⟨false, ranges xs⟩) :: ·)
      else .error .invalidCharRange := by
  cases xs with
  | nil => exact absurd rfl hne
  | cons x xs =>
    have hread := lex_cls_ranges hxs false [] rest
    have hx := hxs x mem_cons_self
    rw [flatMap_cons, append_assoc] at hread ⊢
    rw [lex_cls_lo hx (.inr rfl)] at hread
    show lex (.cls ⟨false, [], .start⟩) _ = _
    rw [lex_cls_lo hx (.inl ⟨rfl, fun h => hfirst (congrArg some h)⟩), hread]
    rfl

/-! ## Texts that add to a sequence -/

/-- The text is read as `rs`, after and before any other text. -/
def Reads (text : List Char) (rs : List Regex) : Prop :=
  ∃ ts : List Token, (∀ rest, lex .top (text ++ rest) = (lex .top rest).map (ts ++ ·)) ∧
    ∀ t : Tree, ts.foldlM Tree.add t = .ok { t with
      frame := { t.frame with sequence := t.frame.sequence ++ rs } }

variable {text : List Char}

theorem reads_atom {r : Regex}
    (h : ∀ rest, lex .top (text ++ rest) = (lex .top rest).map (Token.atom r :: ·)) :
    Reads text [r] :=
  ⟨[.atom r], h, fun _ => rfl⟩

theorem reads_nil : Reads [] [] := by
  refine ⟨[], fun rest => ?_, fun t => ?_⟩
  · cases h : lex .top rest <;> simp [h, Except.map]
  · simp [pure, Except.pure]

theorem Reads.append {text' : List Char} {rs rs' : List Regex} (h : Reads text rs)
    (h' : Reads text' rs') : Reads (text ++ text') (rs ++ rs') := by
  obtain ⟨ts, hlex, hadd⟩ := h
  obtain ⟨ts', hlex', hadd'⟩ := h'
  refine ⟨ts ++ ts', fun rest => ?_, fun t => ?_⟩
  · rw [append_assoc, hlex, hlex']
    cases lex .top rest <;> simp [Except.map]
  · rw [foldlM_append, hadd]
    show ts'.foldlM Tree.add _ = _
    rw [hadd', append_assoc]

theorem reads_flatMap {α : Type} {l : List α} {text : α → List Char} {r : α → Regex}
    (h : ∀ a ∈ l, Reads (text a) [r a]) : Reads (l.flatMap text) (l.map r) := by
  induction l with
  | nil => exact reads_nil
  | cons a l ih =>
    exact (h a mem_cons_self).append (ih fun b hb => h b (mem_cons_of_mem _ hb))

theorem reads_quoteChar (c : Char) : Reads (quoteChar c) [char c] := reads_atom (lex_quoteChar c)

theorem reads_any : Reads ".".toList [any] := reads_atom fun _ => rfl

theorem reads_lazy : Reads ".*?".toList [star true any] := by
  refine ⟨[.atom any, .star, .quest], fun rest => ?_, fun t => ?_⟩
  · show (lex .top rest |>.map _ |>.map _ |>.map _) = _
    cases lex .top rest <;> rfl
  · simp [Frame.push, Frame.repeatLast, Frame.lazyLast, Tree.add, bind, Except.bind, Except.map,
      pure, Except.pure]

theorem reads_class (hxs : ∀ x ∈ xs, x.Stands) (hne : xs ≠ [])
    (hfirst : xs.head? ≠ some ⟨'^', false⟩) (hasc : Ascending (ranges xs)) :
    Reads ('[' :: (xs.flatMap Sym.text ++ [']'])) [set ⟨false, ranges xs⟩] := by
  refine reads_atom fun rest => ?_
  rw [cons_append, append_assoc, singleton_append, lex_class hxs hne hfirst,
    if_pos hasc]

theorem reads_beginText : Reads "^".toList [beginText] := reads_atom fun _ => rfl

theorem reads_endText : Reads "$".toList [endText] := reads_atom fun _ => rfl

def nonWord : CharSet := ⟨false, (perlClass 'W').getD []⟩

theorem compile_of_reads {rs : List Regex} (h : Reads text rs) : compile text = .ok (seqs rs) := by
  obtain ⟨ts, hlex, hadd⟩ := h
  have hlex := hlex []
  rw [append_nil] at hlex
  rw [compile, hlex]
  show parse (ts ++ []) = _
  rw [append_nil, parse, hadd]
  rfl

theorem compile_whole {rs : List Regex} (h : Reads text rs) :
    compile ('^' :: text ++ ['$']) = .ok (seqs (beginText :: rs ++ [endText])) :=
  compile_of_reads ((reads_beginText.append h).append reads_endText)

theorem lex_opening (rest : List Char) : lex .top ("(^|\\W)".toList ++ rest) = (lex .top rest).map
      ([.openGroup, .atom beginText, .bar, .atom (set nonWord), .closeGroup] ++ ·) := by
  show (lex .top rest |>.map _ |>.map _ |>.map _ |>.map _ |>.map _) = _
  cases lex .top rest <;> rfl

theorem compile_delimited {rs : List Regex} (h : Reads text rs) :
    compile ("(^|\\W)".toList ++ text ++ "(\\W|$)".toList) =
      .ok (seqs (group 1 (alts [seqs [beginText], seqs [set nonWord]]) :: rs ++
        [group 2 (alts [seqs [set nonWord], seqs [endText]])])) := by
  obtain ⟨ts, hlex, hadd⟩ := h
  have hclose : lex .top "(\\W|$)".toList =
    .ok [.openGroup, .atom (set nonWord), .bar, .atom endText, .closeGroup] := by decide
  rw [compile, append_assoc, lex_opening, hlex, hclose]
  show parse (_ ++ (ts ++ _)) = _
  show (ts ++ _).foldlM Tree.add _ >>= Tree.finish = _
  rw [foldlM_append, hadd]
  rfl

theorem compile_error {e : Error} (h : lex .top text = .error e) :
    compile ('^' :: text) = .error e ∧ compile ("(^|\\W)".toList ++ text) = .error e := by
  constructor
  · show (lex .top text).map _ >>= parse = _
    rw [h]
    rfl
  · rw [compile, lex_opening, h]
    rfl

/-! ## Words -/

def isWord (c : Char) : Bool :=
  '0' ≤ c ∧ c ≤ '9' ∨ 'A' ≤ c ∧ c ≤ 'Z' ∨ 'a' ≤ c ∧ c ≤ 'z' ∨ c = '_'

theorem nonWord_has (c : Char) : nonWord.has c = !isWord c := by
  have hmax : c.toNat ≤ 0x10FFFF := by
    have hvalid : c.toNat < 0xd800 ∨ 0xdfff < c.toNat ∧ c.toNat < 0x110000 := c.valid
    omega
  have hle : ∀ d : Char, c ≤ d ↔ c.toNat ≤ d.toNat := fun d => Iff.rfl
  have hge : ∀ d : Char, d ≤ c ↔ d.toNat ≤ c.toNat := fun d => Iff.rfl
  have heq : c = '_' ↔ c.toNat = 95 := by
    rw [Char.ext_iff, ← UInt32.toNat_inj]
    rfl
  have hset : nonWord.has c = true ↔ c.toNat ≤ 47 ∨ 58 ≤ c.toNat ∧ c.toNat ≤ 64 ∨
      91 ≤ c.toNat ∧ c.toNat ≤ 94 ∨ 96 ≤ c.toNat ∧ c.toNat ≤ 96 ∨
      123 ≤ c.toNat ∧ c.toNat ≤ 0x10FFFF := by
    simp [nonWord, perlClass, CharSet.has, hle, hge, maxRune]
  have hword : isWord c = true ↔ 48 ≤ c.toNat ∧ c.toNat ≤ 57 ∨ 65 ≤ c.toNat ∧ c.toNat ≤ 90 ∨
      97 ≤ c.toNat ∧ c.toNat ≤ 122 ∨ c.toNat = 95 := by
    simp [isWord, hle, hge, heq]
  rw [Bool.eq_iff_iff, hset, Bool.not_eq_true', Bool.eq_false_iff, ne_eq, hword]
  omega

end Regex

end Ligase.Lib

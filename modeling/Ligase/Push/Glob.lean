import Ligase.Lib.RegexSyntax

/-!
# The patterns of push rules

`globalMatch` makes a regular expression out of a pattern by quoting it, undoing the quotes of `*`
and `?`, and replacing the whole by a class if it has brackets; the text of the expression is
written over the pattern.

* **`globalMatch_returns_iff`**: when the expression compiles.
-/

namespace Ligase.Push

open Lib Regex List Option

def delimit (wordBoundary : Bool) (text : List Char) : List Char :=
  if wordBoundary then r"(^|\W)".toList ++ text ++ r"(\W|$)".toList else '^' :: text ++ ['$']

def rewrite (global : List Char) (wordBoundary : Bool) : Except Regex.Error (List Char) := do
  let globalRegex ← compile r"\\\[(\\\!|)(.*)\\\]".toList
  let isGlobal ← compile r"[\?\*\[\]]".toList
  if isGlobal.isMatch global then
    let text := quoteMeta global
    let text := replaceAll r"\*".toList ".*?".toList text
    let text := replaceAll r"\?".toList ".".toList text
    match globalRegex.submatch text with
    | some s =>
      let neg := if s 1 = [] then [] else ['^']
      let cls := replaceAll r"\\\-".toList "-".toList (s 2)
      return delimit wordBoundary ('[' :: neg ++ cls ++ [']'])
    | none => return delimit wordBoundary text
  else return delimit wordBoundary (quoteMeta global)

/-- `globalMatch`, with what it leaves in `global`; an error is a panic of `MustCompile`. -/
def globalMatch (global req : List Char) (wordBoundary : Bool) :
    Except Regex.Error Bool × List Char :=
  match rewrite global wordBoundary with
  | .error e => (.error e, global)
  | .ok text => ((compile text).map fun reg => reg.isMatch req, text)

/-! ## The text without regular expressions -/

def expandChar (c : Char) : List Char :=
  if c = '?' then ".".toList else if c = '*' then ".*?".toList else quoteChar c

/-- What stands between here and the last closing bracket of the line. -/
def upToLast : List Char → Option (List Char)
  | [] => none
  | c :: cs =>
    if c = '\n' then none
    else match upToLast cs with
      | some content => some (c :: content)
      | none => if c = ']' then some [] else none

/-- What stands between the first opening bracket with a closing one on its line, and the last
closing one. -/
def bracketed : List Char → Option (List Char)
  | [] => none
  | c :: cs => (if c = '[' then upToLast cs else none) <|> bracketed cs

def classText (content : List Char) : List Char :=
  replaceAll r"\\\-".toList "-".toList (content.flatMap expandChar)

def body (global : List Char) : List Char :=
  match bracketed global with
  | some content => '[' :: classText content ++ [']']
  | none => global.flatMap expandChar

variable {c x : Char} {cs global : List Char} {s : Place}

theorem quoteChar_cases (c : Char) :
    isMeta c = true ∧ quoteChar c = ['\\', c] ∨ isMeta c = false ∧ quoteChar c = [c] := by
  unfold quoteChar
  cases isMeta c <;> simp

theorem expandChar_cases (c : Char) :
    c = '?' ∧ expandChar c = ['.'] ∨ c = '*' ∧ expandChar c = ['.', '*', '?'] ∨
      isMeta c = true ∧ c ≠ '?' ∧ c ≠ '*' ∧ expandChar c = ['\\', c] ∨
      isMeta c = false ∧ expandChar c = [c] := by
  by_cases hq : c = '?'
  · exact .inl ⟨hq, if_pos hq⟩
  by_cases hs : c = '*'
  · exact .inr (.inl ⟨hs, by rw [expandChar, if_neg hq, if_pos hs]; rfl⟩)
  · have hexpand : expandChar c = quoteChar c := by rw [expandChar, if_neg hq, if_neg hs]
    rw [hexpand]
    rcases quoteChar_cases c with ⟨hc, h⟩ | h
    · exact .inr (.inr (.inl ⟨hc, hq, hs, h⟩))
    · exact .inr (.inr (.inr h))

theorem isMeta_ne {d : Char} (hc : isMeta c = false) (hd : isMeta d = true) : c ≠ d := by
  rintro rfl
  rw [hc] at hd
  cases hd

theorem not_pair_single {a : Char} : ¬ [a, x] <:+: [c] := fun h => by
  simpa using h.length_le

theorem not_pair_pair {a : Char} (hc : c ≠ x) : ¬ [a, x] <:+: [a, c] := fun h => by
  have := h.eq_of_length rfl
  simp [hc.symm] at this

theorem not_pair_lazy : ¬ ['\\', x] <:+: ['.', '*', '?'] := fun h => by
  simpa using h.subset mem_cons_self

theorem replaceAll_quoteMeta (cs : List Char) :
    replaceAll r"\?".toList ".".toList (replaceAll r"\*".toList ".*?".toList (quoteMeta cs)) =
      cs.flatMap expandChar := by
  show replaceAll ['\\', '?'] ".".toList (replaceAll ['\\', '*'] ".*?".toList (quoteMeta cs)) = _
  have hstar : replaceAll ['\\', '*'] ".*?".toList (quoteMeta cs) =
      cs.flatMap fun c => if c = '*' then ".*?".toList else quoteChar c := by
    refine replaceAll_flatMap (by decide) (fun c hc => ?_) (fun c => ?_) (fun c => ?_) cs
    · rcases quoteChar_cases c with ⟨-, h⟩ | ⟨-, h⟩
      · exact h ▸ not_pair_pair hc
      · exact h ▸ not_pair_single
    · rcases quoteChar_cases c with ⟨-, h⟩ | ⟨-, h⟩ <;> simp [h]
    · rcases quoteChar_cases c with ⟨-, h⟩ | ⟨hc, h⟩
      · simp [h]
      · simpa [h] using isMeta_ne hc (by decide)
  rw [hstar]
  refine replaceAll_flatMap (by decide) (fun c hc => ?_) (fun c => ?_) (fun c => ?_) cs
  · split_ifs
    · exact not_pair_lazy
    · rcases quoteChar_cases c with ⟨-, h⟩ | ⟨-, h⟩
      · exact h ▸ not_pair_pair hc
      · exact h ▸ not_pair_single
  · split_ifs
    · simp
    · rcases quoteChar_cases c with ⟨-, h⟩ | ⟨-, h⟩ <;> simp [h]
  · split_ifs
    · simp
    · rcases quoteChar_cases c with ⟨-, h⟩ | ⟨hc, h⟩
      · simp [h]
      · simpa [h] using isMeta_ne hc (by decide)

theorem head?_expand (hx : isMeta x = true) (hbackslash : x ≠ '\\') (hdot : x ≠ '.')
    (cs : List Char) : (cs.flatMap expandChar).head? ≠ some x := by
  cases cs with
  | nil => simp
  | cons c cs =>
    rcases expandChar_cases c with ⟨-, h⟩ | ⟨-, h⟩ | ⟨-, -, -, h⟩ | ⟨hc, h⟩
    · simpa [h] using hdot.symm
    · simpa [h] using hdot.symm
    · simpa [h] using hbackslash.symm
    · simpa [h] using isMeta_ne hc hx

theorem not_pair_expandChar (hc : c ≠ x) : ¬ ['\\', x] <:+: expandChar c := by
  rcases expandChar_cases c with ⟨-, h⟩ | ⟨-, h⟩ | ⟨-, -, -, h⟩ | ⟨-, h⟩
  · exact h ▸ not_pair_single
  · exact h ▸ not_pair_lazy
  · exact h ▸ not_pair_pair hc
  · exact h ▸ not_pair_single

/-! ## What the expressions find -/

def findBrackets : Regex :=
  seqs [char '\\', char '[', group 1 (alts [seqs [char '\\', char '!'], seqs []]),
    group 2 (alts [seqs [star false any]]), char '\\', char ']']

theorem compile_globalRegex : compile r"\\\[(\\\!|)(.*)\\\]".toList = .ok findBrackets := by decide

def marks : List Char := ['?', '*', '[', ']']

theorem compile_isGlobal :
    compile r"[\?\*\[\]]".toList = .ok (seqs [set ⟨false, marks.map fun c => (c, c)⟩]) := by decide

theorem isGlobal_iff :
    isMatch (seqs [set ⟨false, marks.map fun c => (c, c)⟩]) cs = true ↔ ∃ c ∈ cs, c ∈ marks := by
  have hhas : ∀ c, CharSet.has ⟨false, marks.map fun c => (c, c)⟩ c = true ↔ c ∈ marks := by
    intro c
    simp only [CharSet.has, Bool.false_bne, List.any_map, List.any_eq_true, Function.comp_apply,
      Bool.and_eq_true, decide_eq_true_eq]
    constructor
    · rintro ⟨d, hd, hdc, hcd⟩
      exact Char.le_antisymm hcd hdc ▸ hd
    · exact fun hc => ⟨c, hc, Char.le_refl c, Char.le_refl c⟩
  rw [isMatch_iff, places_seqs_singleton]
  simp only [places, mem_step, hhas]
  constructor
  · rintro ⟨u, v, rfl, t, c, w, hv, hc, -⟩
    obtain rfl : v = c :: w := hv
    exact ⟨c, by simp, hc⟩
  · rintro ⟨c, hcs, hc⟩
    obtain ⟨u, w, rfl⟩ := append_of_mem hcs
    exact ⟨u, c :: w, rfl, _, c, w, rfl, hc, rfl⟩

/-- The end of the brackets, if it is at `t` and they have been opened at `s`. -/
def closing (s t : Place) : Option Place :=
  (places (seqs [char '\\', char ']']) { t with groups := (2, between s t) :: t.groups }).head?

theorem closing_of_not {t : Place} (h : ¬ ['\\', ']'] <+: t.rest) : closing s t = none := by
  have hrun : places (seqs [char '\\', char ']'])
      { t with groups := (2, between s t) :: t.groups } = [] := places_seqs_pair_of_not h
  rw [closing, hrun]
  rfl

theorem head?_places_content (s : Place) :
    (places (seqs [group 2 (alts [seqs [star false any]]), char '\\', char ']']) s).head? =
      (places (star false any) s).findSome? (closing s) := by
  have hgroup : places (group 2 (alts [seqs [star false any]])) s =
      (places (star false any) s).map fun t =>
        { t with groups := (2, between s t) :: t.groups } := by
    rw [← places_seqs_singleton (star false any)]
    rfl
  rw [seqs, places, head?_flatMap, hgroup, findSome?_map]
  rfl

theorem findSome?_star_cons (hc : c ≠ '\n') {b : Bool}
    {g : List (Nat × List Char)} {f : Place → Option Place} :
    (places (star false any) ⟨b, c :: cs, g⟩).findSome? f =
      ((places (star false any) ⟨false, cs, g⟩).findSome? f <|> f ⟨b, c :: cs, g⟩) := by
  rw [places_star_cons (p := (· != '\n')) (fun _ => rfl) (by simpa using hc), findSome?_append]
  simp

theorem findSome?_star_word {w : List Char} (hline : '\n' ∉ w)
    (hw : ¬ ['\\', ']'] <:+: w) (hcs : cs.head? ≠ some ']') (b : Bool)
    (g : List (Nat × List Char)) : (places (star false any) ⟨b, w ++ cs, g⟩).findSome? (closing s) =
      (places (star false any) ⟨b && w.isEmpty, cs, g⟩).findSome? (closing s) := by
  induction w generalizing b with
  | nil => simp
  | cons c w ih =>
    obtain ⟨hc, hline⟩ := not_or.mp (mt mem_cons.mpr hline)
    rw [cons_append, findSome?_star_cons (Ne.symm hc), closing_of_not (not_begins_pair hw hcs),
      ih hline fun h => hw (h.trans (suffix_cons c w).isInfix)]
    simp

theorem newline_notMem_expandChar (hc : c ≠ '\n') : '\n' ∉ expandChar c := by
  rcases expandChar_cases c with ⟨-, h⟩ | ⟨-, h⟩ | ⟨-, -, -, h⟩ | ⟨-, h⟩ <;> simp [h, hc.symm]

theorem closing_here {done : List Char} (hs : s.rest = done ++ '\\' :: ']' :: cs)
    (b : Bool) (g : List (Nat × List Char)) :
    closing s ⟨b, '\\' :: ']' :: cs, g⟩ = some ⟨false, cs, (2, done) :: g⟩ := by
  have hbetween : between s ⟨b, '\\' :: ']' :: cs, g⟩ = done := by
    rw [between, hs]
    simp
  rw [closing, hbetween, places_seqs_char, if_pos rfl, places_seqs_char, if_pos rfl]
  rfl

theorem groups_content (cs done : List Char)
    (hs : s.rest = done ++ cs.flatMap expandChar) (b : Bool) (g : List (Nat × List Char)) :
    ((places (star false any) ⟨b, cs.flatMap expandChar, g⟩).findSome? (closing s)).map
        Place.groups =
      (upToLast cs).map fun content => (2, done ++ content.flatMap expandChar) :: g := by
  have hhead : ∀ cs : List Char, (cs.flatMap expandChar).head? ≠ some ']' :=
    head?_expand (by decide) (by decide) (by decide)
  induction cs generalizing done b with
  | nil =>
    rfl
  | cons c cs ih =>
    rw [flatMap_cons] at hs ⊢
    rw [upToLast]
    by_cases hc : c = '\n'
    · -- the line ends here
      subst hc
      rw [if_pos rfl, show expandChar '\n' ++ cs.flatMap expandChar = '\n' :: cs.flatMap expandChar
        from rfl, places_star_of_not (p := (· != '\n')) (fun _ => rfl) (by simp)]
      rfl
    have ih := ih (done ++ expandChar c) (hs.trans (append_assoc ..).symm)
    rw [if_neg hc]
    by_cases hclose : c = ']'
    · -- a later bracket of the line goes before this one
      subst hclose
      have hhere : closing s ⟨b, '\\' :: ']' :: cs.flatMap expandChar, g⟩ =
          some ⟨false, cs.flatMap expandChar, (2, done) :: g⟩ := closing_here hs b g
      rw [show expandChar ']' ++ cs.flatMap expandChar = '\\' :: ([']'] ++ cs.flatMap expandChar)
        from rfl, findSome?_star_cons (by decide),
        findSome?_star_word (by decide) not_pair_single (hhead cs), singleton_append,
        hhere, orElse_eq_orElse, orElse_eq_or, map_or, ih]
      cases upToLast cs with
      | none => simp
      | some content => simp
    · rw [findSome?_star_word (newline_notMem_expandChar hc) (not_pair_expandChar hclose)
        (hhead cs), ih]
      cases upToLast cs with
      | none => simp [hclose]
      | some content => simp

theorem places_negation (h : ¬ ['\\', '!'] <+: s.rest) :
    places (group 1 (alts [seqs [char '\\', char '!'], seqs []])) s =
      [{ s with groups := (1, []) :: s.groups }] := by
  show (places (seqs [char '\\', char '!']) s ++ [s]).map _ = _
  rw [places_seqs_pair_of_not h]
  simp [between]

theorem not_prefix_plain (hx : isMeta x = false) (cs : List Char) :
    ¬ ['\\', x] <+: cs.flatMap expandChar := by
  cases cs with
  | nil => simp
  | cons c cs =>
    rw [flatMap_cons]
    rcases expandChar_cases c with ⟨-, h⟩ | ⟨-, h⟩ | ⟨hc, -, -, h⟩ | ⟨hc, h⟩
    · simp [h, cons_prefix_cons]
    · simp [h, cons_prefix_cons]
    · rw [h]
      simp only [cons_append, nil_append, cons_prefix_cons, true_and]
      rintro ⟨rfl, -⟩
      rw [hc] at hx
      cases hx
    · rw [h, singleton_append, cons_prefix_cons]
      rintro ⟨rfl, -⟩
      exact absurd hc (by decide)

theorem groups_findBrackets (cs : List Char) (b : Bool) :
    (search findBrackets b (cs.flatMap expandChar)).map Place.groups =
      (bracketed cs).map fun content => [(2, content.flatMap expandChar), (1, [])] := by
  have hhead : ∀ cs : List Char, (cs.flatMap expandChar).head? ≠ some '[' :=
    head?_expand (by decide) (by decide) (by decide)
  induction cs generalizing b with
  | nil => rfl
  | cons c cs ih =>
    rw [flatMap_cons, bracketed]
    by_cases hc : c = '['
    · subst hc
      have hopen : (places findBrackets ⟨b, '\\' :: '[' :: cs.flatMap expandChar, []⟩).head? =
          (places (star false any) ⟨false, cs.flatMap expandChar, [(1, [])]⟩).findSome?
            (closing ⟨false, cs.flatMap expandChar, [(1, [])]⟩) := by
        have hneg := places_negation (s := ⟨false, cs.flatMap expandChar, []⟩)
          (not_prefix_plain (by decide) cs)
        rw [findBrackets, places_seqs_char, if_pos rfl, places_seqs_char, if_pos rfl,
          places_seqs_cons, hneg, flatMap_singleton, head?_places_content]
      have hskip : search findBrackets false ('[' :: cs.flatMap expandChar) =
          search findBrackets false (cs.flatMap expandChar) :=
        search_word (w := ['[']) not_pair_single (hhead cs) false
      show (search findBrackets b ('\\' :: '[' :: cs.flatMap expandChar)).map Place.groups = _
      have hcontent := groups_content (s := ⟨false, cs.flatMap expandChar, [(1, [])]⟩) cs [] rfl
        false [(1, [])]
      rw [search, hopen, hskip, if_pos rfl, orElse_eq_orElse, orElse_eq_or,
        orElse_eq_orElse, orElse_eq_or, map_or, map_or, ih, hcontent]
      rfl
    · rw [findBrackets, search_word (not_pair_expandChar hc) (hhead cs), ← findBrackets, ih,
        if_neg hc]
      simp

/-! ## The text of a pattern -/

theorem bracketed_eq_none_of_notMem (h : '[' ∉ cs) : bracketed cs = none := by
  induction cs with
  | nil => rfl
  | cons c cs ih =>
    obtain ⟨hc, h⟩ := not_or.mp (mt mem_cons.mpr h)
    rw [bracketed, if_neg (Ne.symm hc), ih h]
    rfl

theorem body_of_no_marks (h : ¬ ∃ c ∈ cs, c ∈ marks) : body cs = quoteMeta cs := by
  have hmarks : ∀ c ∈ cs, c ≠ '?' ∧ c ≠ '*' ∧ c ≠ '[' := by
    intro c hc
    refine ⟨?_, ?_, ?_⟩
    all_goals
      rintro rfl
      exact h ⟨_, hc, by decide⟩
  rw [body, bracketed_eq_none_of_notMem fun hmem => (hmarks _ hmem).2.2 rfl]
  refine flatMap_congr fun c hc => ?_
  rw [expandChar, if_neg (hmarks c hc).1, if_neg (hmarks c hc).2.1]

theorem rewrite_eq (cs : List Char) (wordBoundary : Bool) :
    rewrite cs wordBoundary = .ok (delimit wordBoundary (body cs)) := by
  unfold rewrite
  rw [compile_globalRegex, compile_isGlobal]
  simp only [bind, Except.bind, pure, Except.pure]
  split_ifs with h
  · rw [replaceAll_quoteMeta]
    have hgroups := groups_findBrackets cs true
    unfold submatch body
    cases hb : bracketed cs with
    | none =>
      rw [hb, map_none, map_eq_none_iff] at hgroups
      rw [hgroups]
      rfl
    | some content =>
      rw [hb, map_some, map_eq_some_iff] at hgroups
      obtain ⟨t, ht, hg⟩ := hgroups
      have hneg : t.group 1 = [] := by
        rw [Place.group, hg]
        rfl
      have hcontent : t.group 2 = content.flatMap expandChar := by
        rw [Place.group, hg]
        rfl
      rw [ht]
      simp only [map_some]
      rw [hneg, hcontent]
      rfl
  · rw [body_of_no_marks fun hm => h (isGlobal_iff.mpr hm)]

theorem globalMatch_eq (global req : List Char) (wordBoundary : Bool) :
    globalMatch global req wordBoundary =
      ((compile (delimit wordBoundary (body global))).map fun reg => reg.isMatch req,
        delimit wordBoundary (body global)) := by
  rw [globalMatch, rewrite_eq]

/-! ## The class of a pattern -/

def charSymbols (c : Char) : List Sym :=
  if c = '?' then [⟨'.', false⟩]
  else if c = '*' then [⟨'.', false⟩, ⟨'*', false⟩, ⟨'?', false⟩]
  else [⟨c, isMeta c⟩]

/-- What stands between brackets as the expression has it. A dash after two backslashes loses them.
-/
def symbols : List Char → List Sym
  | '\\' :: '\\' :: '-' :: cs => ⟨'-', true⟩ :: symbols cs
  | c :: cs => charSymbols c ++ symbols cs
  | [] => []

theorem text_charSymbols (c : Char) : (charSymbols c).flatMap Sym.text = expandChar c := by
  unfold charSymbols expandChar quoteChar
  split_ifs with h₁ h₂ h₃
  · rfl
  · rfl
  · simp [Sym.text, h₃]
  · simp [Sym.text, h₃]

theorem stands_charSymbols (c : Char) : ∀ x ∈ charSymbols c, x.Stands := by
  unfold charSymbols
  split_ifs
  · simp [Sym.Stands]
  · simp [Sym.Stands]
  · rw [forall_mem_singleton, Sym.Stands]
    cases hc : isMeta c with
    | true =>
      have hall : metaChars.all (fun c => perlClass c = none ∧ unescape c = .ok c) = true := by
        decide
      exact of_decide_eq_true (all_eq_true.mp hall c (of_decide_eq_true hc))
    | false =>
      exact ⟨isMeta_ne hc (by decide), isMeta_ne hc (by decide), isMeta_ne hc (by decide)⟩

theorem stands_symbols (cs : List Char) : ∀ x ∈ symbols cs, x.Stands := by
  fun_induction symbols cs with
  | case1 cs ih => exact forall_mem_cons.mpr ⟨⟨by decide, by decide⟩, ih⟩
  | case2 c cs _ ih => exact forall_mem_append.mpr ⟨stands_charSymbols c, ih⟩
  | case3 => simp

theorem head?_symbols (cs : List Char) : (symbols cs).head? ≠ some ⟨'^', false⟩ := by
  fun_cases symbols cs with
  | case1 cs => simp
  | case2 c cs _ =>
    unfold charSymbols
    split_ifs
    · simp
    · simp
    · simp only [cons_append, head?_cons, ne_eq, some.injEq, Sym.mk.injEq, not_and]
      rintro rfl
      decide
  | case3 => simp

theorem symbols_ne_nil (h : cs ≠ []) : symbols cs ≠ [] := by
  fun_cases symbols cs with
  | case1 cs => simp
  | case2 c cs _ =>
    unfold charSymbols
    split_ifs <;> simp
  | case3 => exact absurd rfl h

theorem prefix_dash (h : ['-'] <+: cs.flatMap expandChar) : ∃ cs', cs = '-' :: cs' := by
  cases cs with
  | nil => simp at h
  | cons c cs =>
    rw [flatMap_cons] at h
    rcases expandChar_cases c with ⟨-, hc⟩ | ⟨-, hc⟩ | ⟨-, -, -, hc⟩ | ⟨-, hc⟩
    · simp [hc, cons_prefix_cons] at h
    · simp [hc, cons_prefix_cons] at h
    · simp [hc, cons_prefix_cons] at h
    · rw [hc, singleton_append, cons_prefix_cons] at h
      exact ⟨cs, by rw [h.1]⟩

theorem prefix_backslash_dash
    (h : ['\\', '\\', '-'] <+: cs.flatMap expandChar) : ∃ cs', cs = '\\' :: '-' :: cs' := by
  cases cs with
  | nil => simp at h
  | cons c cs =>
    rw [flatMap_cons] at h
    rcases expandChar_cases c with ⟨-, hc⟩ | ⟨-, hc⟩ | ⟨-, -, -, hc⟩ | ⟨hmeta, hc⟩
    · simp [hc, cons_prefix_cons] at h
    · simp [hc, cons_prefix_cons] at h
    · simp only [hc, cons_append, nil_append, cons_prefix_cons, true_and] at h
      obtain ⟨rfl, h⟩ := h
      obtain ⟨cs', rfl⟩ := prefix_dash h
      exact ⟨cs', rfl⟩
    · rw [hc, singleton_append, cons_prefix_cons] at h
      exact absurd h.1.symm (isMeta_ne hmeta (by decide))

theorem classText_eq (cs : List Char) : classText cs = (symbols cs).flatMap Sym.text := by
  show replaceAll ['\\', '\\', '\\', '-'] ['-'] (cs.flatMap expandChar) = _
  fun_induction symbols cs with
  | case1 cs ih =>
    show replaceAll _ _ ('\\' :: (['\\', '\\', '\\', '-'] ++ cs.flatMap expandChar)) = _
    rw [replaceAll_cons (by simp [cons_prefix_cons]), replaceAll_append (by simp), ih]
    rfl
  | case2 c cs hc ih =>
    rw [flatMap_cons, flatMap_append, text_charSymbols, ← ih]
    have hplain : ∀ {d : Char} {ds : List Char}, d ≠ '\\' →
        replaceAll ['\\', '\\', '\\', '-'] ['-'] (d :: ds) =
          d :: replaceAll ['\\', '\\', '\\', '-'] ['-'] ds := by
      intro d ds hd
      exact replaceAll_cons fun h => hd (cons_prefix_cons.mp h).1.symm
    rcases expandChar_cases c with ⟨-, h⟩ | ⟨-, h⟩ | ⟨-, -, -, h⟩ | ⟨hmeta, h⟩
    · rw [h]
      exact hplain (by decide)
    · rw [h]
      simp only [cons_append, nil_append]
      rw [hplain (by decide), hplain (by decide), hplain (by decide)]
    · rw [h]
      simp only [cons_append, nil_append]
      by_cases hb : c = '\\'
      · subst hb
        rw [replaceAll_cons, replaceAll_cons]
        · intro hp
          obtain ⟨cs', rfl⟩ := prefix_backslash_dash (cons_prefix_cons.mp hp).2
          exact hc cs' rfl rfl
        · intro hp
          simp only [cons_prefix_cons, true_and] at hp
          exact not_prefix_plain (by decide) cs hp
      · rw [replaceAll_cons, hplain hb]
        intro hp
        simp only [cons_prefix_cons, true_and] at hp
        exact hb hp.1.symm
    · rw [h]
      exact hplain (isMeta_ne hmeta (by decide))
  | case3 => rfl

/-! ## Compiling a pattern -/

def charRegex (c : Char) : Regex :=
  if c = '?' then any else if c = '*' then star true any else char c

theorem reads_expandChar (c : Char) : Reads (expandChar c) [charRegex c] := by
  unfold expandChar charRegex
  split_ifs
  · exact reads_any
  · exact reads_lazy
  · exact reads_quoteChar c

def enclose (wordBoundary : Bool) (rs : List Regex) : Regex :=
  if wordBoundary then
    seqs (group 1 (alts [seqs [beginText], seqs [set nonWord]]) :: rs ++
      [group 2 (alts [seqs [set nonWord], seqs [endText]])])
  else seqs (beginText :: rs ++ [endText])

theorem compile_delimit {wordBoundary : Bool} {text : List Char} {rs : List Regex}
    (h : Reads text rs) : compile (delimit wordBoundary text) = .ok (enclose wordBoundary rs) := by
  cases wordBoundary with
  | true => exact compile_delimited h
  | false => exact compile_whole h

theorem compile_delimit_error {wordBoundary : Bool} {text : List Char} {e : Regex.Error}
    (h : ∀ rest, lex .top (text ++ rest) = .error e) :
    compile (delimit wordBoundary text) = .error e := by
  cases wordBoundary with
  | true =>
    show compile (_ ++ text ++ _) = _
    exact (compile_error (h _)).2
  | false => exact (compile_error (h ['$'])).1

def ReadsAsClass (content : List Char) : Prop :=
  content ≠ [] ∧ Ascending (ranges (symbols content))

instance (content : List Char) : Decidable (ReadsAsClass content) :=
  inferInstanceAs (Decidable (_ ∧ _))

theorem reads_body_class {content : List Char} (hb : bracketed global = some content)
    (h : ReadsAsClass content) : Reads (body global) [set ⟨false, ranges (symbols content)⟩] := by
  rw [body, hb]
  show Reads ('[' :: (classText content ++ [']'])) _
  rw [classText_eq]
  exact reads_class (stands_symbols content) (symbols_ne_nil h.1) (head?_symbols content) h.2

theorem reads_body_plain (hb : bracketed global = none) :
    Reads (body global) (global.map charRegex) := by
  rw [body, hb]
  exact reads_flatMap fun c _ => reads_expandChar c

theorem compile_body_error {content : List Char} (hb : bracketed global = some content)
    (h : ¬ ReadsAsClass content) (wordBoundary : Bool) :
    ∃ e, compile (delimit wordBoundary (body global)) = .error e := by
  rw [body, hb]
  show ∃ e, compile (delimit wordBoundary ('[' :: classText content ++ [']'])) = .error e
  by_cases hne : content = []
  · subst hne
    cases wordBoundary with
    | true | false => exact ⟨.missingBracket, by decide⟩
  · have hrange : ¬ Ascending (ranges (symbols content)) := fun hasc => h ⟨hne, hasc⟩
    refine ⟨.invalidCharRange, compile_delimit_error fun rest => ?_⟩
    show lex .top ('[' :: (classText content ++ [']'] ++ rest)) = _
    rw [append_assoc, classText_eq, singleton_append,
      lex_class (stands_symbols content) (symbols_ne_nil hne) (head?_symbols content),
      if_neg hrange]

/-- **The expression for a pattern compiles** if and only if what stands in brackets, if anything
does, is not empty and has no range whose ends are reversed. -/
theorem globalMatch_returns_iff (pattern req : List Char) (wordBoundary : Bool) :
    (∃ found, (globalMatch pattern req wordBoundary).1 = .ok found) ↔
      ∀ content ∈ bracketed pattern, ReadsAsClass content := by
  rw [globalMatch_eq]
  cases hb : bracketed pattern with
  | none =>
    rw [compile_delimit (reads_body_plain hb)]
    simp [Except.map]
  | some content =>
    by_cases h : ReadsAsClass content
    · rw [compile_delimit (reads_body_class hb h)]
      simp [Except.map, h]
    · obtain ⟨e, he⟩ := compile_body_error hb h wordBoundary
      rw [he]
      simp [Except.map, h]

/-- An empty pair of brackets and a reversed range. -/
theorem brackets_panic :
    (globalMatch "[]".toList "hello".toList true).1 = .error .missingBracket ∧
      (globalMatch "[z-a]".toList "hello".toList true).1 = .error .invalidCharRange := by
  decide

end Ligase.Push

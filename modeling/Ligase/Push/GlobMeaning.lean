import Ligase.Push.Glob

/-!
# What patterns of push rules mean

A pattern is read as a glob: `*` is any text, `?` any character, a class in brackets one character
of it or, after `!`, not of it, and every other character is itself. `globalMatch` does not always
find what the glob finds: a class takes the place of the whole pattern, `!` is read as one of the
characters of the class, and `*` and `?` in a class are written out as outside of it.

* **`glob_meaning_iff`**: when `globalMatch` finds what the glob finds.
-/

namespace Ligase.Push

open Lib Regex List

/-! ## Globs -/

def negated (content : List Char) : Bool := content.head? == some '!'

def classItems (content : List Char) : List Char :=
  if negated content then content.tail else content

def globSet (content : List Char) : CharSet :=
  ⟨negated content, ranges ((classItems content).map fun c => ⟨c, false⟩)⟩

structure GlobClass where
  content : List Char
  no_open : '[' ∉ content
  no_close : ']' ∉ content
  nonempty : classItems content ≠ []
  ascending : Ascending (globSet content).ranges

inductive Piece where
  | star
  | one
  | lit (c : Char) (h : c ∉ marks)
  | cls (k : GlobClass)

namespace Piece

def text : Piece → List Char
  | star => ['*']
  | one => ['?']
  | lit c _ => [c]
  | cls k => '[' :: k.content ++ [']']

def isStar : Piece → Bool
  | star => true
  | _ => false

def has : Piece → Char → Bool
  | star, _ => false
  | one, _ => true
  | lit d _, c => c == d
  | cls k, c => (globSet k.content).has c

end Piece

def globText (ps : List Piece) : List Char := ps.flatMap Piece.text

def globMatches : List Piece → List Char → Bool
  | [], u => u.isEmpty
  | .star :: ps, u => u.tails.any (globMatches ps)
  | _ :: _, [] => false
  | p :: ps, c :: u => p.has c && globMatches ps u

variable {ps : List Piece} {u global content w cs : List Char} {p : Piece} {k : GlobClass}

theorem globMatches_star :
    globMatches (.star :: ps) u = true ↔ ∃ v w, u = v ++ w ∧ globMatches ps w = true := by
  rw [globMatches, any_eq_true]
  simp only [mem_tails]
  constructor
  · rintro ⟨w, ⟨v, rfl⟩, hw⟩
    exact ⟨v, w, rfl, hw⟩
  · rintro ⟨v, w, rfl, hw⟩
    exact ⟨w, ⟨v, rfl⟩, hw⟩

theorem globMatches_cons (hp : p.isStar = false) : globMatches (p :: ps) u = true ↔
      ∃ c w, u = c :: w ∧ p.has c = true ∧ globMatches ps w = true := by
  cases u with
  | nil | cons c u => cases p <;> simp [globMatches, Piece.isStar] at hp ⊢

/-- A word of `L` is found: the whole text, or a part between characters that are not of a word. -/
def Finds (wordBoundary : Bool) (L : List Char → Prop) (text : List Char) : Prop :=
  if wordBoundary then Delimited (fun c => isWord c = false) L text else L text

/-! ## What the expression finds -/

theorem isMatch_enclose {wordBoundary : Bool} {rs : List Regex} {L : List Char → Prop}
    (h : Means (seqs rs) L) {text : List Char} :
    isMatch (enclose wordBoundary rs) text = true ↔ Finds wordBoundary L text := by
  cases wordBoundary with
  | true =>
    refine (isMatch_seqs_delimited h).trans ?_
    have hword : (fun c => nonWord.has c = true) = fun c => isWord c = false := by
      funext c
      rw [nonWord_has, Bool.not_eq_true']
    rw [hword]
    rfl
  | false => exact isMatch_seqs_whole h

theorem finds_congr {wordBoundary : Bool} {L L' : List Char → Prop} {text : List Char}
    (htext : '\n' ∉ text) (h : ∀ u, '\n' ∉ u → (L u ↔ L' u)) :
    Finds wordBoundary L text ↔ Finds wordBoundary L' text := by
  cases wordBoundary with
  | true =>
    show Delimited _ L text ↔ Delimited _ L' text
    refine exists_congr fun before => exists_congr fun word => exists_congr fun after => ?_
    refine and_congr_right fun heq => and_congr_left fun _ => h word fun hmem => htext ?_
    rw [heq]
    simp [hmem]
  | false => exact h text htext

def charLang (c : Char) (u : List Char) : Prop :=
  if c = '?' then ∃ d, u = [d] ∧ d ≠ '\n' else if c = '*' then '\n' ∉ u else u = [c]

theorem means_charRegex (c : Char) : Means (charRegex c) (charLang c) := by
  unfold charRegex charLang
  split_ifs
  · refine (means_of_step (p := (· != '\n')) fun _ => rfl).congr fun u => ?_
    simp
  · refine (means_star (p := (· != '\n')) fun _ => rfl).congr fun u => ?_
    simp only [bne_iff_ne, ne_eq]
    exact ⟨fun h hmem => h _ hmem rfl, fun h d hd hdn => h (hdn ▸ hd)⟩
  · refine (means_of_step (p := (· == c)) fun _ => rfl).congr fun u => ?_
    simp

theorem globalMatch_plain (hb : bracketed global = none) (req : List Char)
    (wordBoundary : Bool) :
    ∃ found, (globalMatch global req wordBoundary).1 = .ok found ∧
      (found = true ↔ Finds wordBoundary (Concat (global.map charLang)) req) := by
  refine ⟨isMatch (enclose wordBoundary (global.map charRegex)) req, ?_, ?_⟩
  · rw [globalMatch_eq, compile_delimit (reads_body_plain hb)]
    rfl
  · exact isMatch_enclose (means_seqs fun c _ => means_charRegex c)

theorem globalMatch_class (hb : bracketed global = some content)
    (h : ReadsAsClass content) (req : List Char) (wordBoundary : Bool) :
    ∃ found, (globalMatch global req wordBoundary).1 = .ok found ∧
      (found = true ↔ Finds wordBoundary
        (fun u => ∃ c, u = [c] ∧ CharSet.has ⟨false, ranges (symbols content)⟩ c = true) req) := by
  refine ⟨isMatch (enclose wordBoundary [set ⟨false, ranges (symbols content)⟩]) req, ?_, ?_⟩
  · rw [globalMatch_eq, compile_delimit (reads_body_class hb h)]
    rfl
  · refine isMatch_enclose fun s t => ?_
    rw [places_seqs_singleton]
    exact means_of_step (fun _ => rfl) s t

theorem globalMatch_panics (hb : bracketed global = some content)
    (h : ¬ ReadsAsClass content) (req : List Char) (wordBoundary : Bool) (found : Bool) :
    (globalMatch global req wordBoundary).1 ≠ .ok found := by
  obtain ⟨e, he⟩ := compile_body_error hb h wordBoundary
  rw [globalMatch_eq, he]
  simp [Except.map]

/-! ## The brackets of a glob -/

theorem bracketed_append (h : '[' ∉ w) : bracketed (w ++ cs) = bracketed cs := by
  induction w with
  | nil => rfl
  | cons c w ih =>
    obtain ⟨hc, h⟩ := not_or.mp (mt mem_cons.mpr h)
    rw [cons_append, bracketed, if_neg (Ne.symm hc), ih h]
    rfl

theorem newline_notMem_upToLast (h : upToLast cs = some content) : '\n' ∉ content := by
  fun_induction upToLast cs generalizing content with
  | case1 => cases h
  | case2 => cases h
  | case3 c cs hc content' hup ih =>
    cases h
    exact mt mem_cons.mp (not_or.mpr ⟨Ne.symm hc, ih hup⟩)
  | case4 =>
    cases h
    simp
  | case5 => cases h

theorem newline_notMem_bracketed (h : bracketed cs = some content) : '\n' ∉ content := by
  induction cs with
  | nil => cases h
  | cons c cs ih =>
    rw [bracketed, Option.orElse_eq_orElse, Option.orElse_eq_or, Option.or_eq_some_iff] at h
    rcases h with h | ⟨-, h⟩
    · split_ifs at h
      exact newline_notMem_upToLast h
    · exact ih h

theorem upToLast_newline (hclose : ']' ∉ w) (hline : '\n' ∈ w) : upToLast (w ++ cs) = none := by
  induction w with
  | nil => simp at hline
  | cons c w ih =>
    obtain ⟨hc, hclose⟩ := not_or.mp (mt mem_cons.mpr hclose)
    rw [cons_append, upToLast]
    by_cases hn : c = '\n'
    · rw [if_pos hn]
    · have hline : '\n' ∈ w := (mem_cons.mp hline).resolve_left (Ne.symm hn)
      rw [if_neg hn, ih hclose hline]
      exact if_neg (Ne.symm hc)

theorem upToLast_line (hline : '\n' ∉ w) (cs : List Char) :
    ∃ content, upToLast (w ++ ']' :: cs) = some content := by
  induction w with
  | nil =>
    rw [nil_append, upToLast, if_neg (by decide)]
    cases upToLast cs with
    | none => exact ⟨[], rfl⟩
    | some content => exact ⟨']' :: content, rfl⟩
  | cons c w ih =>
    obtain ⟨hc, hline⟩ := not_or.mp (mt mem_cons.mpr hline)
    obtain ⟨content, h⟩ := ih hline
    exact ⟨c :: content, by rw [cons_append, upToLast, if_neg (Ne.symm hc), h]⟩

theorem upToLast_last (hline : '\n' ∉ w) : upToLast (w ++ [']']) = some w := by
  induction w with
  | nil => rfl
  | cons c w ih =>
    obtain ⟨hc, hline⟩ := not_or.mp (mt mem_cons.mpr hline)
    rw [cons_append, upToLast, if_neg (Ne.symm hc), ih hline]

theorem bracketed_class (hline : '\n' ∈ k.content) :
    bracketed (Piece.text (.cls k) ++ cs) = bracketed cs := by
  show bracketed ('[' :: (k.content ++ [']'] ++ cs)) = _
  rw [append_assoc, bracketed, if_pos rfl, upToLast_newline k.no_close hline,
    bracketed_append k.no_open]
  rfl

theorem bracketed_globText_eq_none
    (h : ∀ k, .cls k ∈ ps → '\n' ∈ k.content) : bracketed (globText ps) = none := by
  induction ps with
  | nil => rfl
  | cons p ps ih =>
    have ih := ih fun k hk => h k (mem_cons_of_mem _ hk)
    rw [globText, flatMap_cons, ← globText]
    cases p with
    | star => exact ih
    | one => exact ih
    | lit c hc =>
      rw [bracketed_append, ih]
      rintro hmem
      obtain rfl : '[' = c := mem_singleton.mp hmem
      exact hc (by decide)
    | cls k => rw [bracketed_class (h k mem_cons_self), ih]

theorem exists_bracketed {v : List Char} (hline : '\n' ∉ w) :
    ∃ content, bracketed (u ++ '[' :: (w ++ ']' :: v)) = some content := by
  induction u with
  | nil =>
    obtain ⟨content, h⟩ := upToLast_line hline v
    exact ⟨content, by rw [nil_append, bracketed, if_pos rfl, h]; rfl⟩
  | cons c u ih =>
    obtain ⟨content, h⟩ := ih
    rw [cons_append, bracketed, h]
    cases (if c = '[' then upToLast (u ++ '[' :: (w ++ ']' :: v)) else none) with
    | none => exact ⟨content, rfl⟩
    | some content' => exact ⟨content', rfl⟩

theorem exists_bracketed_globText (hk : .cls k ∈ ps)
    (hline : '\n' ∉ k.content) : ∃ content, bracketed (globText ps) = some content := by
  obtain ⟨ps₁, ps₂, rfl⟩ := append_of_mem hk
  have htext : globText (ps₁ ++ .cls k :: ps₂) =
      globText ps₁ ++ '[' :: (k.content ++ ']' :: globText ps₂) := by
    simp [globText, Piece.text]
  rw [htext]
  exact exists_bracketed hline

theorem bracketed_globText_singleton (hline : '\n' ∉ k.content) :
    bracketed (globText [.cls k]) = some k.content := by
  have htext : globText [.cls k] = '[' :: (k.content ++ [']']) := by simp [globText, Piece.text]
  rw [htext, bracketed, if_pos rfl, upToLast_last hline]
  rfl

/-! ## Texts that a glob matches -/

theorem length_of_globMatches (h : ∀ p ∈ ps, p.isStar = false)
    (hu : globMatches ps u = true) : u.length = ps.length := by
  induction ps generalizing u with
  | nil => exact congrArg length (isEmpty_iff.mp hu)
  | cons p ps ih =>
    obtain ⟨hp, h⟩ := forall_mem_cons.mp h
    obtain ⟨c, w, rfl, -, hw⟩ := (globMatches_cons hp).mp hu
    rw [length_cons, length_cons, ih h hw]

theorem exists_longer (hp : p ∈ ps) (hstar : p.isStar = true) (hu : globMatches ps u = true)
    (hline : '\n' ∉ u) :
    ∃ v, globMatches ps v = true ∧ '\n' ∉ v ∧ v.length = u.length + 1 := by
  induction ps generalizing u with
  | nil => simp at hp
  | cons q ps ih =>
    by_cases hq : q.isStar = true
    · obtain rfl : q = .star := by cases q <;> simp [Piece.isStar] at hq ⊢
      obtain ⟨v, w, rfl, hw⟩ := globMatches_star.mp hu
      refine ⟨'a' :: (v ++ w), globMatches_star.mpr ⟨'a' :: v, w, rfl, hw⟩, ?_, rfl⟩
      simpa using hline
    · have hq : q.isStar = false := by simpa using hq
      obtain ⟨c, w, rfl, hc, hw⟩ := (globMatches_cons hq).mp hu
      have hp : p ∈ ps := by
        refine (mem_cons.mp hp).resolve_left ?_
        rintro rfl
        rw [hq] at hstar
        cases hstar
      obtain ⟨hcline, hline⟩ := not_or.mp (mt mem_cons.mpr hline)
      obtain ⟨v, hv, hvline, hlen⟩ := ih hp hw hline
      refine ⟨c :: v, (globMatches_cons hq).mpr ⟨c, v, rfl, hc, hv⟩, ?_, by simp [hlen]⟩
      exact mt mem_cons.mp (not_or.mpr ⟨hcline, hvline⟩)

theorem exists_globMatches (h : ∀ p ∈ ps, p.isStar = false → ∃ c, c ≠ '\n' ∧ p.has c = true) :
    ∃ u, '\n' ∉ u ∧ globMatches ps u = true := by
  induction ps with
  | nil => exact ⟨[], by simp, rfl⟩
  | cons p ps ih =>
    obtain ⟨hp, h⟩ := forall_mem_cons.mp h
    obtain ⟨u, hline, hu⟩ := ih h
    by_cases hstar : p.isStar = true
    · obtain rfl : p = .star := by cases p <;> simp [Piece.isStar] at hstar ⊢
      exact ⟨u, hline, globMatches_star.mpr ⟨[], u, rfl, hu⟩⟩
    · have hstar : p.isStar = false := by simpa using hstar
      obtain ⟨c, hc, hpc⟩ := hp hstar
      refine ⟨c :: u, ?_, (globMatches_cons hstar).mpr ⟨c, u, rfl, hpc, hu⟩⟩
      exact mt mem_cons.mp (not_or.mpr ⟨Ne.symm hc, hline⟩)

theorem not_globMatches_of_piece (hp : p ∈ ps)
    (hstar : p.isStar = false) (h : ∀ c, c ≠ '\n' → p.has c = false)
    (hline : '\n' ∉ u) : ¬ globMatches ps u = true := by
  induction ps generalizing u with
  | nil => simp at hp
  | cons q ps ih =>
    intro hu
    by_cases hq : q.isStar = true
    · have hps : p ∈ ps := by
        refine (mem_cons.mp hp).resolve_left ?_
        rintro rfl
        rw [hstar] at hq
        cases hq
      obtain rfl : q = .star := by cases q <;> simp [Piece.isStar] at hq ⊢
      obtain ⟨v, w, rfl, hw⟩ := globMatches_star.mp hu
      exact ih hps (fun hmem => hline (mem_append_right v hmem)) hw
    · obtain ⟨c, w, rfl, hc, hw⟩ := (globMatches_cons (by simpa using hq)).mp hu
      obtain ⟨hcline, hline⟩ := not_or.mp (mt mem_cons.mpr hline)
      rcases mem_cons.mp hp with rfl | hp
      · rw [h c (Ne.symm hcline)] at hc
        cases hc
      · exact ih hp hline hw

/-! ## Globs without classes -/

theorem concat_globText (h : ∀ k, .cls k ∉ ps) (hline : '\n' ∉ u) :
    Concat ((globText ps).map charLang) u ↔ globMatches ps u = true := by
  induction ps generalizing u with
  | nil => exact isEmpty_iff.symm
  | cons p ps ih =>
    have ih : ∀ {w}, '\n' ∉ w → (Concat ((globText ps).map charLang) w ↔ _) :=
      ih fun k hk => h k (mem_cons_of_mem _ hk)
    have hright : ∀ {v w : List Char}, u = v ++ w → '\n' ∉ w := by
      rintro v w rfl hmem
      exact hline (mem_append_right v hmem)
    have hleft : ∀ {v w : List Char}, u = v ++ w → '\n' ∉ v := by
      rintro v w rfl hmem
      exact hline (mem_append_left w hmem)
    cases p with
    | star =>
      rw [globMatches_star]
      show (∃ v w, u = v ++ w ∧ '\n' ∉ v ∧ Concat ((globText ps).map charLang) w) ↔ _
      refine exists_congr fun v => exists_congr fun w => and_congr_right fun hu => ?_
      rw [ih (hright hu), and_iff_right (hleft hu)]
    | one =>
      rw [globMatches_cons rfl]
      constructor
      · rintro ⟨_, w, hu, ⟨d, rfl, -⟩, hw⟩
        exact ⟨d, w, hu, rfl, (ih (hright hu)).mp hw⟩
      · rintro ⟨d, w, hu, -, hw⟩
        refine ⟨[d], w, hu, ⟨d, rfl, ?_⟩, (ih (hright (v := [d]) hu)).mpr hw⟩
        rintro rfl
        exact hline (hu ▸ mem_cons_self)
    | lit c hc =>
      have hlang : ∀ v, charLang c v ↔ v = [c] := by
        intro v
        unfold charLang
        rw [if_neg fun h => hc (by rw [h]; decide), if_neg fun h => hc (by rw [h]; decide)]
      rw [globMatches_cons rfl]
      constructor
      · rintro ⟨v, w, hu, hv, hw⟩
        obtain rfl := (hlang v).mp hv
        exact ⟨c, w, hu, by simp [Piece.has], (ih (hright hu)).mp hw⟩
      · rintro ⟨d, w, hu, hd, hw⟩
        obtain rfl : d = c := by simpa [Piece.has] using hd
        exact ⟨[d], w, hu, (hlang _).mpr rfl, (ih (hright (v := [d]) hu)).mpr hw⟩
    | cls k => exact absurd mem_cons_self (h k)

theorem newline_mem_of_concat (h : '\n' ∈ cs) (hu : Concat (cs.map charLang) u) : '\n' ∈ u := by
  induction cs generalizing u with
  | nil => simp at h
  | cons c cs ih =>
    obtain ⟨v, w, rfl, hv, hw⟩ := hu
    rcases mem_cons.mp h with rfl | h
    · obtain rfl : v = ['\n'] := hv
      simp
    · exact mem_append_right v (ih h hw)

/-! ## When the meanings agree -/

/-- `globalMatch` finds in each line what the glob finds. -/
def FindsGlob (ps : List Piece) : Prop :=
  ∀ (subject : List Char) (wordBoundary : Bool), '\n' ∉ subject →
    ∃ found, (globalMatch (globText ps) subject wordBoundary).1 = .ok found ∧
      (found = true ↔ Finds wordBoundary (fun u => globMatches ps u = true) subject)

/-- The glob has no class; or no line can match it, and each class has a line break; or it is one
class, and the expression has its characters. -/
def Agrees (ps : List Piece) : Prop :=
  (∀ k, .cls k ∉ ps) ∨
  ((∀ k, .cls k ∈ ps → '\n' ∈ k.content) ∧
    ∃ p ∈ ps, p.isStar = false ∧ ∀ c, c ≠ '\n' → p.has c = false) ∨
  ∃ k, ps = [.cls k] ∧ '\n' ∉ k.content ∧ ReadsAsClass k.content ∧
    ∀ c, c ≠ '\n' → CharSet.has ⟨false, ranges (symbols k.content)⟩ c = (globSet k.content).has c

theorem findsGlob_of_no_class (h : ∀ k, .cls k ∉ ps) : FindsGlob ps := by
  intro subject wordBoundary hline
  have hb := bracketed_globText_eq_none fun k hk => absurd hk (h k)
  obtain ⟨found, hok, hfound⟩ := globalMatch_plain hb subject wordBoundary
  exact ⟨found, hok, hfound.trans (finds_congr hline fun u hu => concat_globText h hu)⟩

theorem globalMatch_newline (hk : .cls k ∈ ps)
    (h : ∀ k, .cls k ∈ ps → '\n' ∈ k.content) {subject : List Char} (hline : '\n' ∉ subject)
    (wordBoundary : Bool) :
    ∃ found, (globalMatch (globText ps) subject wordBoundary).1 = .ok found ∧
      (found = true ↔ Finds wordBoundary (fun _ => False) subject) := by
  obtain ⟨found, hok, hfound⟩ :=
    globalMatch_plain (bracketed_globText_eq_none h) subject wordBoundary
  refine ⟨found, hok, hfound.trans (finds_congr hline fun u hu => iff_false_intro fun hL => ?_)⟩
  refine hu (newline_mem_of_concat (mem_flatMap.mpr ⟨.cls k, hk, ?_⟩) hL)
  simp [Piece.text, h k hk]

theorem findsGlob_of_agrees (h : Agrees ps) : FindsGlob ps := by
  rcases h with h | ⟨hnewline, p, hp, hstar, hhas⟩ | ⟨k, rfl, hk, hreads, hhas⟩
  · exact findsGlob_of_no_class h
  · by_cases hclass : ∀ k, .cls k ∉ ps
    · exact findsGlob_of_no_class hclass
    · obtain ⟨k, hk⟩ := not_forall_not.mp hclass
      intro subject wordBoundary hline
      obtain ⟨found, hok, hfound⟩ := globalMatch_newline hk hnewline hline wordBoundary
      refine ⟨found, hok, hfound.trans (finds_congr hline fun u hu => ?_)⟩
      exact iff_of_false id (not_globMatches_of_piece hp hstar hhas hu)
  · intro subject wordBoundary hline
    obtain ⟨found, hok, hfound⟩ :=
      globalMatch_class (bracketed_globText_singleton hk) hreads subject wordBoundary
    refine ⟨found, hok, hfound.trans (finds_congr hline fun u hu => ?_)⟩
    rw [globMatches_cons rfl]
    constructor
    · rintro ⟨c, rfl, hc⟩
      refine ⟨c, [], rfl, ?_, rfl⟩
      rw [hhas c (by rintro rfl; simp at hu)] at hc
      exact hc
    · rintro ⟨c, w, rfl, hc, hw⟩
      obtain rfl : w = [] := isEmpty_iff.mp hw
      refine ⟨c, rfl, ?_⟩
      rw [hhas c (by rintro rfl; simp at hu)]
      exact hc

theorem char_symbols_ne (h : '\n' ∉ cs) : ∀ x ∈ symbols cs, x.char ≠ '\n' := by
  fun_induction symbols cs with
  | case1 cs ih =>
    simp only [mem_cons, not_or] at h
    exact forall_mem_cons.mpr ⟨by decide, ih h.2.2.2⟩
  | case2 c cs _ ih =>
    simp only [mem_cons, not_or] at h
    refine forall_mem_append.mpr ⟨?_, ih h.2⟩
    unfold charSymbols
    split_ifs
    · simp
    · simp
    · simpa using Ne.symm h.1
  | case3 => simp

theorem exists_mem_ranges (x : Sym) (xs : List Sym) : ∃ b, (x.char, b) ∈ ranges (x :: xs) := by
  match xs with
  | [] => exact ⟨x.char, mem_cons_self⟩
  | [y] => exact ⟨x.char, mem_cons_self⟩
  | y :: z :: xs =>
    rw [Regex.ranges]
    split_ifs
    · exact ⟨z.char, mem_cons_self⟩
    · exact ⟨x.char, mem_cons_self⟩

theorem exists_symbols_has (h : ReadsAsClass content) (hline : '\n' ∉ content) :
    ∃ c, c ≠ '\n' ∧ CharSet.has ⟨false, ranges (symbols content)⟩ c = true := by
  obtain ⟨x, xs, hx⟩ := exists_cons_of_ne_nil (symbols_ne_nil h.1)
  obtain ⟨b, hb⟩ := exists_mem_ranges x xs
  rw [← hx] at hb
  refine ⟨x.char, char_symbols_ne hline x (hx ▸ mem_cons_self), ?_⟩
  simp only [CharSet.has, Bool.false_bne, any_eq_true, Bool.and_eq_true, decide_eq_true_eq]
  exact ⟨_, hb, Char.le_refl _, h.2 _ hb⟩

theorem iff_of_returns {r : Except Regex.Error Bool} {A B : Prop}
    (hA : ∃ found, r = .ok found ∧ (found = true ↔ A))
    (hB : ∃ found, r = .ok found ∧ (found = true ↔ B)) : A ↔ B := by
  obtain ⟨found, hok, hfound⟩ := hA
  obtain ⟨found', hok', hfound'⟩ := hB
  obtain rfl : found = found' := by
    rw [hok] at hok'
    exact Except.ok.inj hok'
  exact hfound.symm.trans hfound'

theorem exists_piece_of_newline (h : FindsGlob ps)
    (hk : .cls k ∈ ps) (hnewline : ∀ k, .cls k ∈ ps → '\n' ∈ k.content) :
    ∃ p ∈ ps, p.isStar = false ∧ ∀ c, c ≠ '\n' → p.has c = false := by
  by_contra hnone
  have hall : ∀ p ∈ ps, p.isStar = false → ∃ c, c ≠ '\n' ∧ p.has c = true := by
    intro p hp hstar
    by_contra hc
    refine hnone ⟨p, hp, hstar, fun c hn => ?_⟩
    rw [Bool.eq_false_iff]
    exact fun hhas => hc ⟨c, hn, hhas⟩
  obtain ⟨u, hline, hu⟩ := exists_globMatches hall
  exact (iff_of_returns (h u false hline) (globalMatch_newline hk hnewline hline false)).mp hu

theorem eq_singleton_of_matches {S : CharSet}
    (hone : ∀ u, '\n' ∉ u → (globMatches ps u = true ↔ ∃ c, u = [c] ∧ S.has c = true)) {c : Char}
    (hc : c ≠ '\n') (hhas : S.has c = true) : ∃ p, ps = [p] ∧ p.isStar = false := by
  have hline : '\n' ∉ [c] := by simpa using Ne.symm hc
  have hmatch := (hone [c] hline).mpr ⟨c, rfl, hhas⟩
  have hstar : ∀ p ∈ ps, p.isStar = false := by
    intro p hp
    by_contra hstar
    obtain ⟨v, hv, hvline, hlen⟩ := exists_longer hp (by simpa using hstar) hmatch hline
    obtain ⟨d, rfl, -⟩ := (hone v hvline).mp hv
    simp at hlen
  obtain ⟨p, rfl⟩ := length_eq_one_iff.mp (length_of_globMatches hstar hmatch).symm
  exact ⟨p, rfl, hstar p mem_cons_self⟩

theorem has_eq_of_matches (hp : p.isStar = false) {S : CharSet} {c : Char}
    (h : globMatches [p] [c] = true ↔ ∃ d, [c] = [d] ∧ S.has d = true) : S.has c = p.has c := by
  rw [globMatches_cons hp] at h
  rw [Bool.eq_iff_iff]
  constructor
  · intro hS
    obtain ⟨d, w, hdw, hhas, -⟩ := h.mpr ⟨c, rfl, hS⟩
    obtain ⟨rfl, -⟩ := cons.inj hdw
    exact hhas
  · intro hhas
    obtain ⟨d, hdw, hS⟩ := h.mp ⟨c, [], rfl, hhas, rfl⟩
    obtain ⟨rfl, -⟩ := cons.inj hdw
    exact hS

theorem agrees_of_findsGlob (h : FindsGlob ps) : Agrees ps := by
  by_cases hclass : ∀ k, .cls k ∉ ps
  · exact .inl hclass
  by_cases hnewline : ∀ k, .cls k ∈ ps → '\n' ∈ k.content
  · obtain ⟨k, hk⟩ := not_forall_not.mp hclass
    exact .inr (.inl ⟨hnewline, exists_piece_of_newline h hk hnewline⟩)
  · obtain ⟨k, hk⟩ := not_forall.mp hnewline
    obtain ⟨hk, hline⟩ := Classical.not_imp.mp hk
    obtain ⟨content, hb⟩ := exists_bracketed_globText hk hline
    have hreads : ReadsAsClass content := by
      by_contra hreads
      obtain ⟨found, hok, -⟩ := h [] false (by simp)
      exact globalMatch_panics hb hreads [] false found hok
    -- without word boundaries exactly the characters of the class are found
    have hone : ∀ u, '\n' ∉ u → (globMatches ps u = true ↔
        ∃ c, u = [c] ∧ CharSet.has ⟨false, ranges (symbols content)⟩ c = true) := fun u hu =>
      iff_of_returns (h u false hu) (globalMatch_class hb hreads u false)
    obtain ⟨c, hc, hhas⟩ := exists_symbols_has hreads (newline_notMem_bracketed hb)
    obtain ⟨p, rfl, hstar⟩ := eq_singleton_of_matches hone hc hhas
    obtain rfl : .cls k = p := mem_singleton.mp hk
    obtain rfl : k.content = content := by
      rw [bracketed_globText_singleton hline] at hb
      exact Option.some.inj hb
    refine .inr (.inr ⟨k, rfl, hline, hreads, fun d hd => ?_⟩)
    exact has_eq_of_matches hstar (hone [d] (by simpa using Ne.symm hd))

/-- **A pattern finds what its glob finds** if and only if it is made of no class, or it cannot
match a line and each class has a line break, or it is one class whose characters are those of the
expression. -/
theorem glob_meaning_iff (ps : List Piece) : FindsGlob ps ↔ Agrees ps :=
  ⟨agrees_of_findsGlob, findsGlob_of_agrees⟩

def notAbc : GlobClass := ⟨"!abc".toList, by decide, by decide, by decide, by decide⟩

def abc : GlobClass := ⟨"abc".toList, by decide, by decide, by decide, by decide⟩

/-- `[!abc]` finds `a`, and `x[abc]` does not find `xa`. -/
theorem classes_differ :
    (globText [.cls notAbc] = "[!abc]".toList ∧
      (globalMatch (globText [.cls notAbc]) ['a'] false).1 = .ok true ∧
      globMatches [.cls notAbc] ['a'] = false) ∧
    globText [.lit 'x' (by decide), .cls abc] = "x[abc]".toList ∧
      (globalMatch (globText [.lit 'x' (by decide), .cls abc]) ['x', 'a'] false).1 = .ok false ∧
      globMatches [.lit 'x' (by decide), .cls abc] ['x', 'a'] = true := by
  decide

end Ligase.Push

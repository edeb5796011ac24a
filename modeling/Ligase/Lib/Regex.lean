import Ligase.Lib.Text

/-!
# Regular expressions

Matching as the Go package `regexp` does it: leftmost, and among the matches that begin there the
one that a search in the order of the expression finds first. `Regex.places` lists where the search
can get to, in its order.

* `Means`: an expression without anchors and groups takes the words of a language, at any place.
* `isMatch_seqs_whole`, `isMatch_seqs_delimited`: an expression between `^` and `$`, or between
  two characters that are not part of a word.
-/

namespace Ligase.Lib

open List Option

structure CharSet where
  neg : Bool
  ranges : List (Char × Char)
deriving DecidableEq

def CharSet.has (s : CharSet) (c : Char) : Bool :=
  s.neg != s.ranges.any fun r => r.1 ≤ c && c ≤ r.2

inductive Regex where
  | empty
  | char (c : Char)
  | any
  | set (s : CharSet)
  | beginText
  | endText
  | seq (r₁ r₂ : Regex)
  | alt (r₁ r₂ : Regex)
  /-- The shortest repetition is tried first if it is `lazy`. -/
  | star (lazy : Bool) (r : Regex)
  | group (n : Nat) (r : Regex)
deriving DecidableEq

namespace Regex

/-- A place in a text: whether it is the beginning, what follows, and what the groups have taken. -/
structure Place where
  atBegin : Bool
  rest : List Char
  groups : List (Nat × List Char)

def Place.move (s : Place) (u v : List Char) : Place :=
  { s with atBegin := s.atBegin && u.isEmpty, rest := v }

variable {p : Char → Bool} {s t : Place} {r₁ r₂ r : Regex} {a : Char} {rs : List Regex}
  {cs text : List Char} {L : List Char → Prop} {lazy : Bool} {n : Nat}

@[simp]
theorem Place.move_rest (s : Place) (u v : List Char) : (s.move u v).rest = v := rfl

theorem Place.move_nil (s : Place) : s.move [] s.rest = s := by
  simp [move]

theorem Place.move_move (s : Place) (u v u' v' : List Char) :
    (s.move u v).move u' v' = s.move (u ++ u') v' := by
  cases u <;> simp [move]

def step (p : Char → Bool) (s : Place) : List Place :=
  match s.rest with
  | [] => []
  | c :: cs => if p c then [s.move [c] cs] else []

/-- The places after at most `n` rounds of `f`, each of which takes something. -/
def rounds (lazy : Bool) (f : Place → List Place) : Nat → Place → List Place
  | 0, s => [s]
  | n + 1, s =>
    let more := ((f s).filter fun t => t.rest.length < s.rest.length).flatMap (rounds lazy f n)
    if lazy then s :: more else more ++ [s]

def between (s t : Place) : List Char := s.rest.take (s.rest.length - t.rest.length)

/-- The places after a match that begins at `s`, in the order in which they are tried. -/
def places : Regex → Place → List Place
  | empty, s => [s]
  | char c, s => step (· == c) s
  | any, s => step (· != '\n') s
  | set cs, s => step cs.has s
  | beginText, s => if s.atBegin then [s] else []
  | endText, s => if s.rest.isEmpty then [s] else []
  | seq r₁ r₂, s => (places r₁ s).flatMap (places r₂)
  | alt r₁ r₂, s => places r₁ s ++ places r₂ s
  | star lazy r, s => rounds lazy (places r) s.rest.length s
  | group n r, s => (places r s).map fun t => { t with groups := (n, between s t) :: t.groups }

/-- The end of the first match in a text that begins with `cs`. -/
def search (r : Regex) : Bool → List Char → Option Place
  | atBegin, [] => (places r ⟨atBegin, [], []⟩).head?
  | atBegin, c :: cs => (places r ⟨atBegin, c :: cs, []⟩).head? <|> search r false cs

def isMatch (r : Regex) (text : List Char) : Bool := (search r true text).isSome

/-- What group `n` has taken; a group that took no part has taken nothing. -/
def Place.group (s : Place) (n : Nat) : List Char := (s.groups.lookup n).getD []

def submatch (r : Regex) (text : List Char) : Option (Nat → List Char) :=
  (search r true text).map Place.group

def seqs : List Regex → Regex
  | [] => empty
  | r :: rs => seq r (seqs rs)

def alts : List Regex → Regex
  | [] => empty
  | [r] => r
  | r :: rs => alt r (alts rs)

theorem mem_step : t ∈ step p s ↔ ∃ c cs, s.rest = c :: cs ∧ p c = true ∧ t = s.move [c] cs := by
  unfold step
  cases hs : s.rest with
  | nil => simp
  | cons c cs =>
    by_cases hp : p c = true
    · simp [hp]
    · simp [hp]

theorem mem_places_seq : t ∈ places (seq r₁ r₂) s ↔ ∃ u ∈ places r₁ s, t ∈ places r₂ u := by
  rw [places, mem_flatMap]

theorem mem_places_alt : t ∈ places (alt r₁ r₂) s ↔ t ∈ places r₁ s ∨ t ∈ places r₂ s := by
  rw [places, mem_append]

theorem places_seqs_cons (r : Regex) (rs : List Regex) (s : Place) :
    places (seqs (r :: rs)) s = (places r s).flatMap (places (seqs rs)) := rfl

theorem places_seqs_char {c : Char} {b : Bool} {g : List (Nat × List Char)} :
    places (seqs (char a :: rs)) ⟨b, c :: cs, g⟩ =
      if c = a then places (seqs rs) ⟨false, cs, g⟩ else [] := by
  by_cases h : c = a <;> simp [seqs, places, step, h, Place.move]

theorem places_seqs_pair_of_not {x : Char}
    (h : ¬ [a, x] <+: s.rest) : places (seqs (char a :: char x :: rs)) s = [] := by
  obtain ⟨b, cs, g⟩ := s
  match cs, h with
  | [], _ => rfl
  | [c], _ =>
    rw [places_seqs_char]
    split_ifs <;> rfl
  | c :: d :: cs, h =>
    rw [places_seqs_char, places_seqs_char]
    split_ifs with hc hd
    · exact absurd ⟨cs, by rw [hc, hd]; rfl⟩ h
    · rfl
    · rfl

/-! ## Where a match begins -/

theorem isSome_head?_iff {α : Type} {l : List α} : l.head?.isSome ↔ ∃ a, a ∈ l := by
  cases l <;> simp

theorem search_isSome_iff {b : Bool} : (search r b cs).isSome ↔
      ∃ u v, cs = u ++ v ∧ ∃ t, t ∈ places r ⟨b && u.isEmpty, v, []⟩ := by
  induction cs generalizing b with
  | nil =>
    rw [search, isSome_head?_iff]
    constructor
    · rintro ⟨t, ht⟩
      exact ⟨[], [], rfl, t, by simpa using ht⟩
    · rintro ⟨u, v, huv, t, ht⟩
      obtain ⟨rfl, rfl⟩ := append_eq_nil_iff.mp huv.symm
      exact ⟨t, by simpa using ht⟩
  | cons c cs ih =>
    rw [search, orElse_eq_orElse, orElse_eq_or, isSome_or,
      Bool.or_eq_true, ih, isSome_head?_iff]
    constructor
    · rintro (⟨t, ht⟩ | ⟨u, v, rfl, t, ht⟩)
      · exact ⟨[], c :: cs, rfl, t, by simpa using ht⟩
      · exact ⟨c :: u, v, rfl, t, by simpa using ht⟩
    · rintro ⟨u, v, huv, t, ht⟩
      cases u with
      | nil =>
        obtain rfl : c :: cs = v := huv
        exact .inl ⟨t, by simpa using ht⟩
      | cons d u =>
        obtain ⟨rfl, rfl⟩ := cons.inj huv
        exact .inr ⟨u, v, rfl, t, by simpa using ht⟩

theorem search_word {x : Char} {w : List Char} (hw : ¬ [a, x] <:+: w)
    (hcs : cs.head? ≠ some x) (b : Bool) :
    search (seqs (char a :: char x :: rs)) b (w ++ cs) =
      search (seqs (char a :: char x :: rs)) (b && w.isEmpty) cs := by
  induction w generalizing b with
  | nil => simp
  | cons c w ih =>
    rw [cons_append, search, places_seqs_pair_of_not (not_begins_pair hw hcs),
      ih fun h => hw (h.trans (suffix_cons c w).isInfix)]
    simp

theorem isMatch_iff :
    isMatch r text = true ↔ ∃ u v, text = u ++ v ∧ ∃ t, t ∈ places r ⟨u.isEmpty, v, []⟩ := by
  unfold isMatch
  rw [search_isSome_iff]
  simp only [Bool.true_and]

/-! ## The words that an expression takes -/

/-- The expression takes the words of `L`, wherever it is tried. -/
def Means (r : Regex) (L : List Char → Prop) : Prop :=
  ∀ s t, t ∈ places r s ↔ ∃ u v, s.rest = u ++ v ∧ L u ∧ t = s.move u v

theorem means_of_step (h : ∀ s, places r s = step p s) :
    Means r fun u => ∃ c, u = [c] ∧ p c = true := by
  intro s t
  rw [h, mem_step]
  constructor
  · rintro ⟨c, cs, hs, hp, rfl⟩
    exact ⟨[c], cs, hs, ⟨c, rfl, hp⟩, rfl⟩
  · rintro ⟨_, cs, hs, ⟨c, rfl, hp⟩, rfl⟩
    exact ⟨c, cs, hs, hp, rfl⟩

theorem means_empty : Means empty fun u => u = [] := by
  intro s t
  rw [places, mem_singleton]
  constructor
  · rintro rfl
    exact ⟨[], t.rest, rfl, rfl, t.move_nil.symm⟩
  · rintro ⟨_, v, hs, rfl, rfl⟩
    obtain rfl : s.rest = v := hs
    exact s.move_nil

theorem Means.seq {L₁ L₂ : List Char → Prop} (h₁ : Means r₁ L₁)
    (h₂ : Means r₂ L₂) : Means (seq r₁ r₂) fun u => ∃ u₁ u₂, u = u₁ ++ u₂ ∧ L₁ u₁ ∧ L₂ u₂ := by
  intro s t
  rw [mem_places_seq]
  constructor
  · rintro ⟨m, hm, ht⟩
    obtain ⟨u₁, v₁, hs, hu₁, rfl⟩ := (h₁ s m).mp hm
    obtain ⟨u₂, v₂, hv, hu₂, rfl⟩ := (h₂ _ t).mp ht
    obtain rfl : v₁ = u₂ ++ v₂ := hv
    exact ⟨u₁ ++ u₂, v₂, by rw [hs, append_assoc], ⟨u₁, u₂, rfl, hu₁, hu₂⟩, s.move_move u₁ _ u₂ v₂⟩
  · rintro ⟨_, v, hs, ⟨u₁, u₂, rfl, hu₁, hu₂⟩, rfl⟩
    refine ⟨s.move u₁ (u₂ ++ v), (h₁ s _).mpr ⟨u₁, u₂ ++ v, ?_, hu₁, rfl⟩, ?_⟩
    · rw [hs, append_assoc]
    · exact (h₂ _ _).mpr ⟨u₂, v, rfl, hu₂, (s.move_move u₁ _ u₂ v).symm⟩

theorem Means.congr {L' : List Char → Prop} (h : Means r L) (hL : ∀ u, L u ↔ L' u) :
    Means r L' := by
  intro s t
  rw [h s t]
  exact exists_congr fun u => exists_congr fun v => by rw [hL u]

section
variable (hr : ∀ s, places r s = step p s)
include hr

theorem mem_rounds_succ : t ∈ rounds lazy (places r) (n + 1) s ↔
      t = s ∨ ∃ m ∈ step p s, t ∈ rounds lazy (places r) n m := by
  have hstep : ∀ m ∈ step p s, m.rest.length < s.rest.length := by
    intro m hm
    obtain ⟨c, cs, hs, -, rfl⟩ := mem_step.mp hm
    simp [hs]
  have hfilter : ((places r s).filter fun m => m.rest.length < s.rest.length) = step p s := by
    rw [hr, filter_eq_self]
    exact fun m hm => decide_eq_true (hstep m hm)
  rw [rounds, hfilter]
  cases lazy with
  | true => simp
  | false => simp [or_comm]

theorem mem_rounds_iff (hn : s.rest.length ≤ n) : t ∈ rounds lazy (places r) n s ↔
      ∃ u v, s.rest = u ++ v ∧ (∀ c ∈ u, p c = true) ∧ t = s.move u v := by
  induction n generalizing s with
  | zero =>
    have hs : s.rest = [] := eq_nil_of_length_eq_zero (by omega)
    rw [rounds, mem_singleton]
    constructor
    · rintro rfl
      exact ⟨[], t.rest, rfl, by simp, t.move_nil.symm⟩
    · rintro ⟨u, v, huv, -, rfl⟩
      obtain ⟨rfl, rfl⟩ := append_eq_nil_iff.mp (huv.symm.trans hs)
      simpa [hs] using s.move_nil
  | succ n ih =>
    rw [mem_rounds_succ hr]
    constructor
    · rintro (rfl | ⟨m, hm, ht⟩)
      · exact ⟨[], t.rest, rfl, by simp, t.move_nil.symm⟩
      · obtain ⟨c, cs, hs, hp, rfl⟩ := mem_step.mp hm
        have hlen : cs.length ≤ n := by
          rw [hs, length_cons] at hn
          omega
        obtain ⟨u, v, hu, hall, rfl⟩ := (ih hlen).mp ht
        obtain rfl : cs = u ++ v := hu
        exact ⟨c :: u, v, hs, forall_mem_cons.mpr ⟨hp, hall⟩, s.move_move [c] _ u v⟩
    · rintro ⟨u, v, hs, hall, rfl⟩
      cases u with
      | nil =>
        obtain rfl : s.rest = v := hs
        exact .inl s.move_nil
      | cons c u =>
        obtain ⟨hp, hall⟩ := forall_mem_cons.mp hall
        refine .inr ⟨s.move [c] (u ++ v), mem_step.mpr ⟨c, u ++ v, hs, hp, rfl⟩, ?_⟩
        have hlen : (u ++ v).length ≤ n := by
          rw [hs, cons_append, length_cons] at hn
          omega
        exact (ih hlen).mpr ⟨u, v, rfl, hall, (s.move_move [c] _ u v).symm⟩

theorem means_star : Means (star lazy r) fun u => ∀ c ∈ u, p c = true := fun s t => by
  exact mem_rounds_iff hr le_rfl

theorem places_star_cons {c : Char} (hc : p c = true) (b : Bool) (cs : List Char)
    (g : List (Nat × List Char)) :
    places (star false r) ⟨b, c :: cs, g⟩ =
      places (star false r) ⟨false, cs, g⟩ ++ [⟨b, c :: cs, g⟩] := by
  simp [places, rounds, hr, step, hc, Place.move]

theorem places_star_of_not (hs : ∀ c ∈ s.rest.head?, p c = false) :
    places (star false r) s = [s] := by
  have hstep : step p s = [] := by
    unfold step
    cases hrest : s.rest with
    | nil => rfl
    | cons c cs => simp [hs c (by simp [hrest])]
  rw [places]
  cases s.rest.length with
  | zero => rfl
  | succ n => simp [rounds, hr, hstep]

end

/-- The words of some languages, one after the other. -/
def Concat : List (List Char → Prop) → List Char → Prop
  | [], u => u = []
  | L :: Ls, u => ∃ u₁ u₂, u = u₁ ++ u₂ ∧ L u₁ ∧ Concat Ls u₂

theorem means_seqs {α : Type} {l : List α} {r : α → Regex} {L : α → List Char → Prop}
    (h : ∀ a ∈ l, Means (r a) (L a)) : Means (seqs (l.map r)) (Concat (l.map L)) := by
  induction l with
  | nil => exact means_empty
  | cons a l ih =>
    exact (h a mem_cons_self).seq (ih fun b hb => h b (mem_cons_of_mem _ hb))

theorem mem_places_seqs_append {rs' : List Regex} :
    t ∈ places (seqs (rs ++ rs')) s ↔ ∃ u ∈ places (seqs rs) s, t ∈ places (seqs rs') u := by
  induction rs generalizing s with
  | nil => simp [seqs, places]
  | cons r rs ih =>
    simp only [cons_append, seqs, mem_places_seq, ih]
    constructor
    · rintro ⟨u, hu, m, hm, ht⟩
      exact ⟨m, ⟨u, hu, hm⟩, ht⟩
    · rintro ⟨m, ⟨u, hu, hm⟩, ht⟩
      exact ⟨u, hu, m, hm, ht⟩

/-! ## Ends of the text and of words -/

theorem mem_places_beginText : t ∈ places beginText s ↔ s.atBegin = true ∧ t = s := by
  rw [places]
  split_ifs with h <;> simp [h]

theorem mem_places_endText : t ∈ places endText s ↔ s.rest = [] ∧ t = s := by
  rw [places]
  split_ifs with h
  · simp [isEmpty_iff.mp h]
  · simp [mt List.isEmpty_iff.mpr h]

theorem isMatch_seqs_whole (h : Means (seqs rs) L) :
    isMatch (seqs (beginText :: rs ++ [endText])) text = true ↔ L text := by
  rw [isMatch_iff]
  simp only [cons_append, seqs, mem_places_seq, mem_places_seqs_append, mem_places_beginText,
    mem_places_endText]
  constructor
  · rintro ⟨u, v, rfl, t, _, ⟨hu, rfl⟩, m, hm, _, ⟨hend, rfl⟩, -⟩
    obtain rfl : u = [] := isEmpty_iff.mp hu
    obtain ⟨w, v', hv, hw, rfl⟩ := (h _ _).mp hm
    obtain rfl : v' = [] := hend
    obtain rfl : v = w ++ [] := hv
    simpa using hw
  · intro hL
    refine ⟨[], text, rfl, _, _, ⟨rfl, rfl⟩, (⟨true, text, []⟩ : Place).move text [], ?_,
      _, ⟨rfl, rfl⟩, mem_singleton_self _⟩
    exact (h _ _).mpr ⟨text, [], (append_nil text).symm, hL, rfl⟩

theorem places_seqs_singleton (r : Regex) : places (seqs [r]) = places r := by
  funext s
  exact flatMap_singleton' _

theorem between_move {u v : List Char} (h : s.rest = u ++ v) : between s (s.move u v) = u := by
  rw [between, Place.move_rest, h, length_append, Nat.add_sub_cancel, take_left]

theorem mem_places_group {P : List Char → List Char → Prop}
    (h : ∀ t, t ∈ places r s ↔ ∃ u v, s.rest = u ++ v ∧ P u v ∧ t = s.move u v) :
    t ∈ places (group n r) s ↔ ∃ u v, s.rest = u ++ v ∧ P u v ∧
      t = { s.move u v with groups := (n, u) :: s.groups } := by
  rw [places, List.mem_map]
  constructor
  · rintro ⟨m, hm, rfl⟩
    obtain ⟨u, v, hs, hP, rfl⟩ := (h m).mp hm
    exact ⟨u, v, hs, hP, by rw [between_move hs]; rfl⟩
  · rintro ⟨u, v, hs, hP, rfl⟩
    exact ⟨s.move u v, (h _).mpr ⟨u, v, hs, hP, rfl⟩, by rw [between_move hs]; rfl⟩

theorem mem_places_opening {cs : CharSet} :
    t ∈ places (alts [seqs [beginText], seqs [set cs]]) s ↔ ∃ u v, s.rest = u ++ v ∧
      (u = [] ∧ s.atBegin = true ∨ ∃ c, u = [c] ∧ cs.has c = true) ∧ t = s.move u v := by
  simp only [alts, mem_places_alt, places_seqs_singleton, mem_places_beginText]
  rw [places, mem_step]
  constructor
  · rintro (⟨hs, rfl⟩ | ⟨c, v, hs, hc, rfl⟩)
    · exact ⟨[], t.rest, rfl, .inl ⟨rfl, hs⟩, t.move_nil.symm⟩
    · exact ⟨[c], v, hs, .inr ⟨c, rfl, hc⟩, rfl⟩
  · rintro ⟨u, v, hs, ⟨rfl, hb⟩ | ⟨c, rfl, hc⟩, rfl⟩
    · obtain rfl : s.rest = v := hs
      exact .inl ⟨hb, s.move_nil⟩
    · exact .inr ⟨c, v, hs, hc, rfl⟩

theorem mem_places_closing {cs : CharSet} :
    t ∈ places (alts [seqs [set cs], seqs [endText]]) s ↔ ∃ u v, s.rest = u ++ v ∧
      (u = [] ∧ v = [] ∨ ∃ c, u = [c] ∧ cs.has c = true) ∧ t = s.move u v := by
  simp only [alts, mem_places_alt, places_seqs_singleton, mem_places_endText]
  rw [places, mem_step]
  constructor
  · rintro (⟨c, v, hs, hc, rfl⟩ | ⟨hs, rfl⟩)
    · exact ⟨[c], v, hs, .inr ⟨c, rfl, hc⟩, rfl⟩
    · exact ⟨[], t.rest, rfl, .inl ⟨rfl, hs⟩, t.move_nil.symm⟩
  · rintro ⟨u, v, hs, ⟨rfl, rfl⟩ | ⟨c, rfl, hc⟩, rfl⟩
    · exact .inr ⟨hs, by simpa [hs] using s.move_nil⟩
    · exact .inl ⟨c, v, hs, hc, rfl⟩

/-- A word of `L` in the text, with `p` of the characters next to it. -/
def Delimited (p : Char → Prop) (L : List Char → Prop) (text : List Char) : Prop :=
  ∃ before word after, text = before ++ word ++ after ∧ L word ∧
    (∀ c ∈ before.getLast?, p c) ∧ ∀ c ∈ after.head?, p c

theorem exists_opening {p : Char → Prop} {u : List Char} (h : ∀ c ∈ u.getLast?, p c) :
    ∃ w x, u = w ++ x ∧ (x = [] ∧ w.isEmpty = true ∨ ∃ c, x = [c] ∧ p c) := by
  rcases eq_nil_or_concat u with rfl | ⟨w, c, rfl⟩
  · exact ⟨[], [], rfl, .inl ⟨rfl, rfl⟩⟩
  · exact ⟨w, [c], concat_eq_append, .inr ⟨c, rfl, h c (by simp)⟩⟩

theorem exists_closing {p : Char → Prop} {v : List Char} (h : ∀ c ∈ v.head?, p c) :
    ∃ y w, v = y ++ w ∧ (y = [] ∧ w = [] ∨ ∃ c, y = [c] ∧ p c) := by
  cases v with
  | nil => exact ⟨[], [], rfl, .inl ⟨rfl, rfl⟩⟩
  | cons c w => exact ⟨[c], w, rfl, .inr ⟨c, rfl, h c (by simp)⟩⟩

theorem isMatch_seqs_delimited (h : Means (seqs rs) L) {cs : CharSet} {m : Nat} :
    isMatch (seqs (group n (alts [seqs [beginText], seqs [set cs]]) :: rs ++
        [group m (alts [seqs [set cs], seqs [endText]])])) text = true ↔
      Delimited (fun c => cs.has c = true) L text := by
  rw [isMatch_iff]
  constructor
  · rintro ⟨u, v, rfl, t, ht⟩
    obtain ⟨s₁, hs₁, ht⟩ := mem_places_seq.mp ht
    obtain ⟨s₂, hs₂, ht⟩ := mem_places_seqs_append.mp ht
    rw [places_seqs_singleton] at ht
    obtain ⟨x, v₁, hv, hx, rfl⟩ := (mem_places_group fun _ => mem_places_opening).mp hs₁
    obtain ⟨word, v₂, hv₁, hword, rfl⟩ := (h _ _).mp hs₂
    obtain ⟨y, v₃, hv₂, hy, rfl⟩ := (mem_places_group fun _ => mem_places_closing).mp ht
    obtain rfl : v = x ++ v₁ := hv
    obtain rfl : v₁ = word ++ v₂ := hv₁
    obtain rfl : v₂ = y ++ v₃ := hv₂
    refine ⟨u ++ x, word, y ++ v₃, by simp, hword, ?_, ?_⟩
    · rcases hx with ⟨rfl, hu⟩ | ⟨c, rfl, hc⟩
      · obtain rfl : u = [] := isEmpty_iff.mp hu
        simp
      · simpa using hc
    · rcases hy with ⟨rfl, rfl⟩ | ⟨c, rfl, hc⟩
      · simp
      · simpa using hc
  · rintro ⟨u, word, v, rfl, hword, hu, hv⟩
    -- the search begins at the last character before the word
    obtain ⟨w, x, rfl, hx⟩ := exists_opening hu
    obtain ⟨y, v', rfl, hy⟩ := exists_closing hv
    refine ⟨w, x ++ (word ++ (y ++ v')), by simp, ?_⟩
    let s : Place := ⟨w.isEmpty, x ++ (word ++ (y ++ v')), []⟩
    let s₁ : Place := { s.move x (word ++ (y ++ v')) with groups := [(n, x)] }
    let s₂ : Place := s₁.move word (y ++ v')
    have hs₁ : s₁ ∈ places (group n (alts [seqs [beginText], seqs [set cs]])) s :=
      (mem_places_group fun _ => mem_places_opening).mpr ⟨x, word ++ (y ++ v'), rfl, hx, rfl⟩
    have hs₂ := (h s₁ s₂).mpr ⟨word, y ++ v', rfl, hword, rfl⟩
    have hclose := (mem_places_group (n := m) (s := s₂) fun _ => mem_places_closing).mpr
      ⟨y, v', rfl, hy, rfl⟩
    rw [← places_seqs_singleton] at hclose
    exact ⟨_, mem_places_seq.mpr ⟨s₁, hs₁, mem_places_seqs_append.mpr ⟨s₂, hs₂, hclose⟩⟩⟩

end Regex

end Ligase.Lib

import Ligase.Lib.Cursor
import Ligase.Sync.Messages

/-!
# Reading a room backwards

A client that starts at the newest event and follows the tokens backwards.

* **`Source.Readable.page_spec`**: a page takes its events off what is shown up to its start, and
  what is left is what is shown up to its end.
* **`pages_complete_iff`**: when the pages of a room without backfilled events have every event that
  is shown, newest first and once. The limit is doubled for the table.
-/

namespace Ligase.Sync

open Lib List MessagesRequest Option

variable {r : StreamEvent}

namespace Source

variable (src : Source)

/-! ## What is stored up to a position -/

def stored : List StreamEvent := src.db.room src.roomID

def desc (p : Int) : List StreamEvent := (src.stored.filter (·.offset ≤ p)).reverse

def shownUpTo (p : Int) : List ClientEvent :=
  ((src.desc p).filter fun r => src.viewer.shows r.ev).map (·.ev)

variable {src} {p q : Int} {A R : List StreamEvent} {e : StreamEvent}

theorem mem_desc : r ∈ src.desc p ↔ r ∈ src.stored ∧ r.offset ≤ p := by
  simp [desc]

theorem pairwise_desc (src : Source) (p : Int) :
    (src.desc p).Pairwise fun a b => b.offset < a.offset :=
  pairwise_reverse.mpr ((src.db.ordered_room src.roomID).sublist filter_sublist)

theorem desc_eq_filter (h : q ≤ p) : src.desc q = (src.desc p).filter (·.offset ≤ q) := by
  unfold desc
  rw [filter_reverse, List.filter_filter]
  congr 1
  refine filter_congr fun r _ => ?_
  by_cases hr : r.offset ≤ q
  · simp [hr, show r.offset ≤ p by omega]
  · simp [hr]

theorem desc_of_append (h : src.desc p = A ++ R) (hq : q ≤ p) (hA : ∀ a ∈ A, q < a.offset)
    (hR : ∀ r ∈ R, r.offset ≤ q) : src.desc q = R := by
  have hnil : A.filter (·.offset ≤ q) = [] := by
    rw [filter_eq_nil_iff]
    intro a ha
    have := hA a ha
    simpa using this
  have hself : R.filter (·.offset ≤ q) = R := by
    rw [filter_eq_self]
    intro r hr
    simpa using hR r hr
  rw [desc_eq_filter hq, h, filter_append, hnil, hself, nil_append]

section
variable (h : src.desc p = A ++ e :: R)
include h

theorem desc_pred : src.desc (e.offset - 1) = R ∧ (∀ a ∈ A, e.offset < a.offset) ∧
    e ∈ src.stored ∧ e.offset ≤ p := by
  have hp := pairwise_desc src p
  rw [h, pairwise_append, pairwise_cons] at hp
  have he : e ∈ src.desc p := by rw [h]; simp
  have hA : ∀ a ∈ A, e.offset < a.offset := fun a ha => hp.2.2 a ha e mem_cons_self
  refine ⟨?_, hA, mem_desc.mp he⟩
  have hmem := (mem_desc.mp he).2
  refine desc_of_append (A := A ++ [e]) (by rw [h]; simp) (by omega) ?_ ?_
  · intro a ha
    rcases mem_append.mp ha with ha | ha
    · have := hA a ha
      omega
    · rw [mem_singleton.mp ha]
      omega
  · intro r hr
    have := hp.2.1.1 r hr
    omega

theorem desc_at : src.desc e.offset = e :: R := by
  rcases desc_pred h with ⟨-, hA, -, hle⟩
  refine desc_of_append h hle hA fun r hr => ?_
  have hp := pairwise_desc src p
  rw [h, pairwise_append, pairwise_cons] at hp
  rcases mem_cons.mp hr with rfl | hr
  · exact Int.le_refl _
  · exact Int.le_of_lt (hp.2.1.1 r hr)

theorem shownUpTo_pred :
    ((A ++ [e]).filter fun r => src.viewer.shows r.ev).map (·.ev) ++ src.shownUpTo (e.offset - 1) =
      src.shownUpTo p := by
  unfold shownUpTo
  rw [(desc_pred h).1, h, ← map_append, ← filter_append]
  simp

end

/-! ## A page from the table -/

theorem selectLoop_spec {rows : List StreamEvent} {found : Found} (hp : 0 ≤ p)
    (hle : ∀ r ∈ rows, r.offset ≤ p) (hown : ∀ r ∈ rows, r.ev.eventOffset = r.offset)
    (hlimit : 0 < found.limit) :
    ((rows.filter fun r => src.viewer.shows r.ev) = [] ∧
      src.selectLoop .b p 0 rows found = found) ∨
    ∃ A e B, rows = A ++ e :: B ∧
      (src.selectLoop .b p 0 rows found).events =
        found.events ++ ((A ++ [e]).filter fun r => src.viewer.shows r.ev).map (·.ev) ∧
      (src.selectLoop .b p 0 rows found).endPos = e.offset := by
  induction rows generalizing found with
  | nil => exact .inl ⟨rfl, rfl⟩
  | cons r rows ih =>
    have hacc : Dir.accepts .b p r.offset = true := by
      have := hle r mem_cons_self
      simp [Dir.accepts, hp, this]
    have ih := fun found => @ih found (fun r hr => hle r (mem_cons_of_mem _ hr))
      fun r hr => hown r (mem_cons_of_mem _ hr)
    unfold selectLoop
    rw [hacc, Bool.true_and]
    cases hs : src.viewer.shows r.ev with
    | false =>
      rcases ih found hlimit with ⟨hnil, hout⟩ | ⟨A, e, B, rfl, hev, hend⟩
      · refine .inl ⟨?_, hout⟩
        rw [filter_cons_of_neg (by simp [hs]), hnil]
      · refine .inr ⟨r :: A, e, B, rfl, ?_, hend⟩
        rw [cons_append, filter_cons_of_neg (by simp [hs])]
        exact hev
    | true =>
      have hfilter : ∀ A : List StreamEvent,
          ((r :: A).filter fun r => src.viewer.shows r.ev) =
            r :: A.filter fun r => src.viewer.shows r.ev := fun A => by
        rw [filter_cons_of_pos (by simpa using hs)]
      -- the row ends the page, or the rest of the rows may end it later
      have hhere := hown r mem_cons_self
      simp only [if_true, if_pos hlimit, true_and, gt_iff_lt, Int.lt_irrefl, false_and, if_false]
      by_cases hlast : found.limit - 1 ≤ 0
      · rw [if_pos hlast]
        refine .inr ⟨[], r, rows, rfl, ?_, hhere⟩
        rw [nil_append, hfilter []]
        rfl
      · rw [if_neg hlast]
        rcases ih ⟨found.events ++ [r.ev], found.limit - 1, r.ev.eventOffset,
          r.ev.originServerTS⟩ (by dsimp only; omega) with ⟨hnil, hout⟩ | ⟨A, e, B, rfl, hev, hend⟩
        · refine .inr ⟨[], r, rows, rfl, ?_, ?_⟩
          · rw [hout, nil_append, hfilter []]
            rfl
          · rw [hout]
            exact hhere
        · refine .inr ⟨r :: A, e, B, rfl, ?_, hend⟩
          rw [hev, cons_append, hfilter, map_cons, append_assoc,
            singleton_append]

/-- Twice as many rows as are asked for are still a number of 64 bits. -/
def IsLimit (limit : Int) : Prop := 0 < limit ∧ limit < 4611686018427387904

theorem selectFromDB_spec {limit : Int} (hp : 0 ≤ p) (hlimit : IsLimit limit)
    (hown : ∀ r ∈ src.stored, r.ev.eventOffset = r.offset) :
    ∃ db, src.selectFromDB .b p 0 limit = some db ∧
      ((src.desc p = [] ∧ db.events = [] ∧ db.endPos = 0) ∨
        ∃ e ∈ src.stored, e.offset ≤ p ∧ db.endPos = e.offset ∧
          db.events ++ src.shownUpTo (e.offset - 1) = src.shownUpTo p) := by
  have hsplit : src.desc p = (src.desc p).take (limit * 2).toNat ++
      (src.desc p).drop (limit * 2).toNat := (take_append_drop _ _).symm
  have hselect : src.db.selectEventsByDir src.roomID .b p (limit * 2) =
      some ((src.desc p).take (limit * 2).toNat) := by
    obtain ⟨hpos, hlt⟩ := hlimit
    rw [Table.selectEventsByDir, if_neg (by omega)]
    rfl
  have hint : int64 (limit * 2) = limit * 2 := by
    obtain ⟨hpos, hlt⟩ := hlimit
    exact int64_eq_self (by unfold IsInt64 minInt64 maxInt64; omega)
  have hmem : ∀ r ∈ (src.desc p).take (limit * 2).toNat, r ∈ src.stored ∧ r.offset ≤ p :=
    fun r hr => mem_desc.mp (mem_of_mem_take hr)
  unfold selectFromDB
  simp only [gt_iff_lt, hlimit.1, if_true, hint, hselect, map_some]
  refine ⟨_, rfl, ?_⟩
  generalize hrows : (src.desc p).take (limit * 2).toNat = rows at hsplit hmem ⊢
  have hloop := @selectLoop_spec src p rows ⟨[], limit, (endOf rows).1, (endOf rows).2⟩ hp
    (fun r hr => (hmem r hr).2) (fun r hr => hown r (hmem r hr).1) hlimit.1
  rcases hloop with ⟨hnil, hout⟩ | ⟨A, e, B, heq, hev, hend⟩
  · rw [hout]
    rcases eq_nil_or_concat' rows with rfl | ⟨A, e, rfl⟩
    · -- no rows at all
      refine .inl ⟨?_, rfl, rfl⟩
      rcases take_eq_nil_iff.mp hrows with hzero | hdesc
      · have hpos := hlimit.1
        omega
      · exact hdesc
    · -- none of the rows is shown, and the page ends with the last of them
      rw [append_assoc, singleton_append] at hsplit
      refine .inr ⟨e, (desc_pred hsplit).2.2.1, (desc_pred hsplit).2.2.2, ?_, ?_⟩
      · simp [endOf]
      · rw [← shownUpTo_pred hsplit, hnil]
        rfl
  · rw [heq, append_assoc, cons_append] at hsplit
    refine .inr ⟨e, (desc_pred hsplit).2.2.1, (desc_pred hsplit).2.2.2, hend, ?_⟩
    rw [hev, nil_append]
    exact shownUpTo_pred hsplit

/-! ## A page from the ring -/

def outputs (src : Source) (r : StreamEvent) : Bool :=
  src.viewer.shows r.ev && src.roomMinStream < r.offset

def endAt (src : Source) (e : StreamEvent) : Int :=
  if e.offset = src.roomMinStream then e.offset else e.offset - 1

theorem outputs_of_lt (h : src.roomMinStream < e.offset) :
    src.outputs e = src.viewer.shows e.ev := by
  simp [outputs, h]

theorem shownUpTo_endAt (h : src.desc p = A ++ e :: R) (hge : src.roomMinStream ≤ e.offset) :
    ((A ++ [e]).filter src.outputs).map (·.ev) ++ src.shownUpTo (src.endAt e) =
      src.shownUpTo p := by
  have hA : A.filter src.outputs = A.filter fun r => src.viewer.shows r.ev := by
    refine filter_congr fun a ha => outputs_of_lt ?_
    have := (desc_pred h).2.1 a ha
    omega
  by_cases heq : e.offset = src.roomMinStream
  · -- the entry itself is left to the table
    have hout : [e].filter src.outputs = [] := by simp [outputs, heq]
    rw [filter_append, hA, hout, endAt, if_pos heq, shownUpTo, shownUpTo, desc_at h, h,
      append_nil, ← map_append, ← filter_append]
  · have hout : [e].filter src.outputs = [e].filter fun r => src.viewer.shows r.ev := by
      refine filter_congr fun r hr => ?_
      rw [mem_singleton.mp hr]
      exact outputs_of_lt (by omega)
    rw [filter_append, hA, hout, endAt, if_neg heq, ← filter_append]
    exact shownUpTo_pred h

theorem visitCache_spec {t : Int} {stream : StreamEvent} {feeds : List StreamEvent} {found : Found}
    (h : Fresh found.events (stream :: feeds)) :
    Fresh (src.visitCache .b t 0 stream found).events feeds ∧
    (src.visitCache .b t 0 stream found).events =
      found.events ++ (if src.outputs stream then [stream.ev] else []) ∧
    (src.visitCache .b t 0 stream found).limit =
      found.limit - (if src.outputs stream then 1 else 0) ∧
    (src.visitCache .b t 0 stream found).endPos = src.endAt stream := by
  have hrec := h.recorded_eq_false
  have hend : (src.visitCache .b t 0 stream found).endPos = src.endAt stream := by
    simp [visitCache, endAt, step]
  cases ho : src.outputs stream with
  | true =>
    have ho' : (src.viewer.shows stream.ev && decide (src.roomMinStream < stream.offset)) = true :=
      ho
    have hev : (src.visitCache .b t 0 stream found).events = found.events ++ [stream.ev] := by
      simp only [visitCache, ho', if_true, record, hrec]
      rfl
    refine ⟨hev ▸ h.tail.2, hev, ?_, hend⟩
    simp only [visitCache, ho', hrec]
    rfl
  | false =>
    have ho' : (src.viewer.shows stream.ev && decide (src.roomMinStream < stream.offset)) = false :=
      ho
    have hev : (src.visitCache .b t 0 stream found).events = found.events := by
      simp only [visitCache, ho']
      rfl
    refine ⟨hev ▸ h.tail.1, by simpa using hev, ?_, hend⟩
    simp [visitCache, ho']

/-- Of the entries at or before the position, the loop visits `A` and leaves `B`; it ends with the
limit used up, or with some of it left for the table. -/
structure Visited (src : Source) (p : Int) (feeds : List StreamEvent) (found : Found)
    (out : Found × Bool) (A B : List StreamEvent) : Prop where
  split : feeds.filter (·.offset ≤ p) = A ++ B
  min_le : ∀ a ∈ A, src.roomMinStream ≤ a.offset
  events : out.1.events = found.events ++ (A.filter src.outputs).map (·.ev)
  endPos : out.1.endPos = (A.getLast?.map src.endAt).getD found.endPos
  limit_le : out.1.limit ≤ found.limit
  ended : out.2 = true ∧ out.1.limit = 0 ∧ A ≠ [] ∨ out.2 = false ∧ 0 < out.1.limit

section
variable {t : Int} {stream : StreamEvent} {feeds B : List StreamEvent} {found : Found}
  {out : Found × Bool}

theorem Visited.cons (hfresh : Fresh found.events (stream :: feeds))
    (hcheck : src.checkOffset .b p stream.offset = true)
    (h : src.Visited p feeds (src.visitCache .b t 0 stream found) out A B) :
    src.Visited p (stream :: feeds) found out (stream :: A) B := by
  have hc : stream.offset ≤ p ∧ src.roomMinStream ≤ stream.offset := by
    simpa [checkOffset] using hcheck
  have hvisit := @visitCache_spec src t stream feeds found hfresh
  have hle := h.limit_le
  rw [hvisit.2.2.1] at hle
  refine ⟨?_, ?_, ?_, ?_, by split_ifs at hle <;> omega,
    h.ended.imp (fun he => ⟨he.1, he.2.1, cons_ne_nil _ _⟩) id⟩
  · rw [filter_cons_of_pos (by simpa using hc.1), h.split]
    rfl
  · simpa [hc.2] using h.min_le
  · rw [h.events, hvisit.2.1]
    cases hs : src.outputs stream <;> simp [hs]
  · rw [h.endPos, hvisit.2.2.2]
    cases A with
    | nil => rfl
    | cons a A =>
      rfl

/-- An entry that is after the position, or older than what the server holds without a gap, as are
those that follow. -/
theorem Visited.skip (hdesc : ∀ e ∈ feeds, e.offset < stream.offset)
    (hcheck : ¬ src.checkOffset .b p stream.offset = true) (h : src.Visited p feeds found out A B) :
    ∃ B', src.Visited p (stream :: feeds) found out A B' := by
  by_cases hle : stream.offset ≤ p
  · have hmin : stream.offset < src.roomMinStream := by
      simp only [checkOffset, hle, decide_true, Bool.true_and, decide_eq_true_eq] at hcheck
      omega
    have hnil : A = [] := by
      rw [eq_nil_iff_forall_not_mem]
      intro a ha
      have hmem : a ∈ feeds := mem_of_mem_filter (h.split ▸ mem_append_left B ha)
      have h1 := hdesc a hmem
      have h2 := h.min_le a ha
      omega
    subst hnil
    refine ⟨stream :: B, ?_, h.min_le, h.events, h.endPos, h.limit_le, h.ended⟩
    rw [filter_cons_of_pos (by simpa using hle), h.split]
    rfl
  · refine ⟨B, ?_, h.min_le, h.events, h.endPos, h.limit_le, h.ended⟩
    rw [filter_cons_of_neg (by simpa using hle), h.split]

end

theorem cacheLoop_visited {t : Int} {feeds : List StreamEvent} {found : Found}
    (hdesc : feeds.Pairwise fun a b => b.offset < a.offset) (hfresh : Fresh found.events feeds)
    (hlimit : 0 < found.limit) :
    ∃ A B, src.Visited p feeds found (src.cacheLoop .b p t 0 feeds found) A B := by
  induction feeds generalizing found with
  | nil => exact ⟨[], [], rfl, by simp, by simp [cacheLoop], rfl, Int.le_refl _, .inr ⟨rfl, hlimit⟩⟩
  | cons stream feeds ih =>
    rw [pairwise_cons] at hdesc
    have hvisit := @visitCache_spec src t stream feeds found hfresh
    unfold cacheLoop
    by_cases hcheck : src.checkOffset .b p stream.offset = true
    · simp only [hcheck, if_true, ne_eq, not_true, false_and, if_false, true_and]
      by_cases hzero : (src.visitCache .b t 0 stream found).limit = 0
      · -- the limit is used up with this entry
        rw [if_pos hzero]
        have hc : stream.offset ≤ p ∧ src.roomMinStream ≤ stream.offset := by
          simpa [checkOffset] using hcheck
        refine ⟨[stream], feeds.filter (·.offset ≤ p), ?_, by simpa using hc.2, ?_, hvisit.2.2.2,
          by dsimp only; omega, .inl ⟨rfl, hzero, cons_ne_nil _ _⟩⟩
        · rw [filter_cons_of_pos (by simpa using hc.1)]
          rfl
        · rw [hvisit.2.1]
          cases hs : src.outputs stream <;> simp [hs]
      · rw [if_neg hzero]
        have hpos : 0 < (src.visitCache .b t 0 stream found).limit := by
          rw [hvisit.2.2.1] at hzero ⊢
          split_ifs at hzero ⊢ <;> omega
        rcases ih hdesc.2 hvisit.1 hpos with ⟨A, B, h⟩
        exact ⟨stream :: A, B, h.cons hfresh hcheck⟩
    · simp only [hcheck, if_false, Bool.false_eq_true]
      rcases ih hdesc.2 hfresh.tail.1 hlimit with ⟨A, B, h⟩
      exact ⟨A, h.skip hdesc.1 hcheck⟩

/-! ## A page -/

/-- A room without backfilled events: the ring is the end of what is stored, the create event comes
first, and every event is stored under its own offset, which is not one of the two that a page's end
cannot be told from. -/
structure Readable (src : Source) (c : StreamEvent) : Prop where
  recent : src.tl.Recent src.stored
  createEv : src.createEv = some c
  first : src.stored.head? = some c
  isCreate : c.ev.type = "m.room.create"
  own : ∀ r ∈ src.stored, r.ev.eventOffset = r.offset
  ids : ∀ r ∈ src.stored, 2 < r.offset

section
variable {c : StreamEvent} {t limit : Int} (h : src.Readable c)
include h

theorem Readable.mem : c ∈ src.stored := mem_of_head? h.first

theorem Readable.le (hr : r ∈ src.stored) : c.offset ≤ r.offset := by
  have hord : Ordered src.stored := src.db.ordered_room src.roomID
  rcases head?_eq_some_iff.mp h.first with ⟨rest, hrest⟩
  rw [hrest] at hr hord
  rcases mem_cons.mp hr with rfl | hr
  · exact Int.le_refl _
  · exact Int.le_of_lt ((pairwise_cons.mp hord).1 r hr)

theorem Readable.data_subset (hr : r ∈ src.tl.data) : r ∈ src.stored :=
  h.recent.suffix.subset hr

theorem Readable.shows : src.viewer.shows c.ev = true := by
  have hstate : c.ev.isStateClientEv = true := by
    rw [ClientEvent.isStateClientEv, h.isCreate]
    decide
  simp [Viewer.shows, Viewer.expired, hstate]

theorem Readable.desc_pred_eq_nil : src.desc (c.offset - 1) = [] := by
  rw [eq_nil_iff_forall_not_mem]
  intro r hr
  have h1 := mem_desc.mp hr
  have h2 := h.le h1.1
  omega

theorem Readable.cache_spec (hlimit : IsLimit limit) (hmin : src.roomMinStream < p)
    (out : Found × Bool)
    (hout : src.cacheLoop .b p t 0 src.tl.data.reverse ⟨[], limit, 0, 0⟩ = out) :
    (out.2 = true ∧ out.1.limit = 0 ∨ out.2 = false ∧ IsLimit out.1.limit) ∧
    (out.1.endPos = 0 ∧ out.1.events = [] ∧ out.2 = false ∨
      ∃ e ∈ src.tl.data, src.roomMinStream ≤ e.offset ∧ out.1.endPos = src.endAt e ∧
        src.endAt e < p ∧ out.1.events ++ src.shownUpTo (src.endAt e) = src.shownUpTo p) := by
  have hord : Ordered src.stored := src.db.ordered_room src.roomID
  have hspec := @cacheLoop_visited src p t src.tl.data.reverse ⟨[], limit, 0, 0⟩
    (h.recent.desc hord) (h.recent.fresh (src.db.unique_room src.roomID)) hlimit.1
  rw [hout] at hspec
  rcases hspec with ⟨A, B, hAB, hA, hev, hend, hle, hdone⟩
  refine ⟨hdone.imp (fun hd => ⟨hd.1, hd.2.1⟩) fun hd => ⟨hd.1, hd.2, hle.trans_lt hlimit.2⟩, ?_⟩
  rcases eq_nil_or_concat' A with rfl | ⟨A, e, rfl⟩
  · exact .inl ⟨hend, hev, (hdone.resolve_left fun hd => hd.2.2 rfl).1⟩
  · right
    -- the entries of the ring come first among what is stored, newest first
    rcases h.recent.suffix with ⟨older, holder⟩
    have hsplit : src.desc p = A ++ e :: (B ++ older.reverse.filter (·.offset ≤ p)) := by
      rw [desc, ← holder, ← filter_reverse, reverse_append, filter_append, hAB]
      simp
    have hle := (desc_pred hsplit).2.2.2
    have hmem : e ∈ src.tl.data := by
      have : e ∈ src.tl.data.reverse.filter (·.offset ≤ p) := by rw [hAB]; simp
      exact mem_reverse.mp (mem_of_mem_filter this)
    have hge : src.roomMinStream ≤ e.offset := hA e (by simp)
    refine ⟨e, hmem, hge, by simpa using hend, ?_, ?_⟩
    · unfold endAt
      split_ifs <;> omega
    · rw [hev]
      exact shownUpTo_endAt hsplit hge

/-- A page from `p` that was found: its events are taken off what is shown, and it ends further
back, not before the creation of the room. -/
def Page (src : Source) (c : StreamEvent) (p : Int) (found : Found) : Prop :=
  found.events ++ src.shownUpTo found.endPos = src.shownUpTo p ∧ found.endPos < p ∧
    c.offset - 1 ≤ found.endPos

theorem Readable.resetEnd_eq {found : Found} (hend : c.offset - 1 ≤ found.endPos) :
    src.resetEnd .b t found = found := by
  have hc := h.ids c h.mem
  rw [resetEnd, if_neg (by omega)]

theorem Readable.reaches {e : StreamEvent} (he : e ∈ src.tl.data)
    (hge : src.roomMinStream ≤ e.offset) (hlt : src.endAt e < c.offset) :
    max (src.tl.lower - 1) src.roomMinStream = c.offset - 1 := by
  have hle := h.recent.lower_le (src.db.ordered_room src.roomID) he
  have hlow : c.offset ≤ src.tl.lower := by
    rcases TimeLines.firstOffset_mem (ne_nil_of_mem he) with ⟨f, hf, hfirst⟩
    rw [h.recent.lower, ← hfirst]
    exact h.le (h.data_subset hf)
  unfold endAt at hlt
  split_ifs at hlt <;> omega

theorem Readable.complete_page {found : Found} (hlimit : IsLimit found.limit) (hp : c.offset < p)
    {d : Int} (hd : d = p ∨ ∃ e ∈ src.tl.data, src.roomMinStream ≤ e.offset ∧ d = src.endAt e)
    (hdp : d ≤ p) (hshown : found.events ++ src.shownUpTo d = src.shownUpTo p) :
    ∃ db, src.selectFromDB .b d 0 found.limit = some db ∧
      src.Page c p (src.resetEnd .b t
        { db with events := found.events ++ db.events, endPos := step .b db.endPos }) := by
  have hc := h.ids c h.mem
  have hd0 : 0 ≤ d := by
    rcases hd with rfl | ⟨e, he, -, rfl⟩
    · omega
    · have := h.ids e (h.data_subset he)
      unfold endAt
      split_ifs <;> omega
  rcases selectFromDB_spec hd0 hlimit h.own with
    ⟨db, hdb, ⟨hnil, hev, hend⟩ | ⟨e, he, hle, hend, hev⟩⟩
  · -- nothing is stored up to `d`, so the ring reaches back to the creation of the room
    have hcd : d < c.offset := by
      by_contra hlt
      have hmem : c ∈ src.desc d := mem_desc.mpr ⟨h.mem, by omega⟩
      rw [hnil] at hmem
      cases hmem
    rcases hd with rfl | ⟨e, he, hge, rfl⟩
    · omega
    have hendPos := h.reaches he hge hcd
    refine ⟨db, hdb, ?_⟩
    rw [resetEnd, if_pos (by simp [hend, step])]
    refine ⟨?_, ?_, ?_⟩
    · rw [hendPos, hev, shownUpTo, h.desc_pred_eq_nil, ← hshown, shownUpTo, hnil]
      simp
    all_goals
      dsimp only
      omega
  · have hce := h.le he
    refine ⟨db, hdb, ?_⟩
    have hstep : step .b db.endPos = e.offset - 1 := by rw [hend]; rfl
    rw [h.resetEnd_eq (by dsimp only; omega)]
    refine ⟨?_, ?_, ?_⟩
    · rw [hstep, append_assoc, hev, hshown]
    all_goals
      dsimp only
      omega

theorem Readable.pageFromCache_spec (hlimit : IsLimit limit) (hp : c.offset < p)
    (hmin : src.roomMinStream < p) :
    ∃ found, src.pageFromCache .b p t 0 limit = some found ∧ src.Page c p found := by
  have hspec := fun out hout => h.cache_spec (t := t) hlimit hmin out hout
  unfold pageFromCache
  dsimp only
  generalize src.cacheLoop .b p t 0 src.tl.data.reverse ⟨[], limit, 0, 0⟩ = out at hspec ⊢
  rcases hspec out rfl with ⟨hdone, hcache⟩
  rcases hdone with ⟨hall, hzero⟩ | ⟨hall, hpos⟩
  · -- the limit is reached in the ring
    rw [if_neg (by rw [hall, hzero]; simp)]
    rcases hcache with ⟨-, -, hnot⟩ | ⟨e, he, hge, hend, hlt, hshown⟩
    · rw [hall] at hnot
      cases hnot
    have hce := h.le (h.data_subset he)
    have hce' : c.offset - 1 ≤ src.endAt e := by
      unfold endAt
      split_ifs <;> omega
    refine ⟨_, rfl, ?_⟩
    rw [h.resetEnd_eq (by omega)]
    exact ⟨by rw [hend]; exact hshown, by omega, by omega⟩
  · rw [if_pos (.inr hall)]
    rcases hcache with ⟨hend, hev, -⟩ | ⟨e, he, hge, hend, hlt, hshown⟩
    · rw [if_pos hend]
      rcases h.complete_page (t := t) hpos hp (.inl rfl) (Int.le_refl p) (by rw [hev]; rfl) with
        ⟨db, hdb, hpage⟩
      exact ⟨_, by rw [hdb]; rfl, hpage⟩
    · have hne : out.1.endPos ≠ 0 := by
        have := h.ids e (h.data_subset he)
        rw [hend, endAt]
        split_ifs <;> omega
      rw [if_neg hne, hend]
      rcases h.complete_page (t := t) hpos hp (.inr ⟨e, he, hge, rfl⟩) (by omega) hshown with
        ⟨db, hdb, hpage⟩
      exact ⟨_, by rw [hdb]; rfl, hpage⟩

theorem Readable.page_spec (hlimit : IsLimit limit) (hp : c.offset < p) :
    ∃ found, src.page .b p t 0 limit = some found ∧ src.Page c p found := by
  have hc := h.ids c h.mem
  have hbefore : src.beforeCreation p = false := by
    simp only [beforeCreation, h.createEv, any_some, Bool.and_eq_false_iff,
      decide_eq_false_iff_not]
    omega
  unfold page
  rw [if_neg (by simp), if_neg (by simp [hbefore])]
  split_ifs with hdb
  · rcases @selectFromDB_spec src p limit (by omega) hlimit h.own with
      ⟨db, hdb, ⟨hnil, -, -⟩ | ⟨e, he, hle, hend, hev⟩⟩
    · have hmem : c ∈ src.desc p := mem_desc.mpr ⟨h.mem, by omega⟩
      rw [hnil] at hmem
      cases hmem
    · have hce := h.le he
      have hstep : step .b db.endPos = e.offset - 1 := by rw [hend]; rfl
      refine ⟨_, by rw [hdb]; rfl, ?_, ?_, ?_⟩
      · dsimp only
        rw [hstep, hev]
      all_goals
        dsimp only
        omega
  · exact h.pageFromCache_spec hlimit hp (by omega)

theorem Readable.page_of_le (hp : p ≤ c.offset) (hge : c.offset - 1 ≤ p) :
    src.page .b p t 0 limit = some ⟨[], limit, p, t⟩ := by
  have hc := h.ids c h.mem
  have hbefore : src.beforeCreation p = true := by
    simp only [beforeCreation, h.createEv, any_some, Bool.and_eq_true, decide_eq_true_eq]
    omega
  unfold page
  rw [if_neg (by simp), if_pos ⟨hbefore, rfl⟩]

theorem Readable.shownUpTo_create : src.shownUpTo c.offset ≠ [] := by
  have hmem : c.ev ∈ src.shownUpTo c.offset := by
    refine mem_map.mpr ⟨c, mem_filter.mpr ⟨?_, h.shows⟩, rfl⟩
    exact mem_desc.mpr ⟨h.mem, Int.le_refl _⟩
  exact ne_nil_of_mem hmem

end

end Source

/-! ## Following the tokens -/

/-- The first request of a client that reads a room backwards. -/
def MessagesRequest.backwards (roomID limit : String) (filterLimit : Option Int) :
    MessagesRequest where
  roomID := roomID
  fromStr := ""
  toStr := ""
  dir := .b
  limit := limit
  filterLimit := filterLimit
  types := []
  notTypes := []

/-- The answer to a request and the request that follows. A page that ends where it starts says that
the start of the room is reached. -/
def Server.nextPage (s : Server) (user : String) (req : MessagesRequest) :
    Option (MessageEventResp × Option MessagesRequest) :=
  match s.roomMessages user req with
  | .ok resp =>
    some (resp, if resp.start = resp.stop then none else some { req with fromStr := resp.stop })
  | .error _ _ => none

variable {req : MessagesRequest}

theorem Server.nextPage_eq {s : Server} {user : String} {resp : MessageEventResp}
    (h : s.roomMessages user req = .ok resp) : s.nextPage user req =
      some (resp, if resp.start = resp.stop then none
        else some { req with fromStr := resp.stop }) := by
  rw [nextPage, h]

/-- A room that a user may read, with a recent ring. Live events are stored under their offsets,
backfilled ones under the negated offset. -/
structure InRoom (s : Server) (user roomID : String) (room : Room) (tl : TimeLines)
    (c : StreamEvent) : Prop where
  related : s.isRelatedRequest roomID = true
  streams : s.hasStateStreams roomID = true
  room_eq : s.roomState roomID = some room
  history_eq : s.history roomID = some tl
  member : ¬ (room.rs.members.join user = none ∧ room.rs.members.leave user = none)
  recent : tl.Recent (s.db.live roomID)
  data_ne : tl.data ≠ []
  createEv : room.getState "m.room.create" "" = some c
  first : (s.db.live roomID).head? = some c
  isCreate : c.ev.type = "m.room.create"
  offsets : ∀ r ∈ s.db.room roomID, r.ev.eventOffset = r.offset.natAbs
  int64 : ∀ r ∈ s.db.room roomID, r.offset ≤ maxInt64

def Server.shown (s : Server) (v : Viewer) (roomID : String) : List ClientEvent :=
  ((s.db.room roomID).filter fun r => v.shows r.ev).reverse.map (·.ev)

theorem pageLimit_pos (h : req.toStr = "") : 0 < req.pageLimit := by
  have hto : req.toPos = 0 := by simp [toPos, h]
  unfold pageLimit
  rw [if_neg (by omega)]
  split
  · split_ifs <;> omega
  · split_ifs <;> omega

theorem start_token {tl : TimeLines} {q ts : Int} (h : minInt64 ≤ q ∧ q ≤ maxInt64) :
    (start { req with fromStr := buildPreBatch q ts } tl).1 = q := by
  exact parsePosToken_buildPreBatch h ts _

theorem buildPreBatch_ne {p q : Int} (hp : minInt64 ≤ p ∧ p ≤ maxInt64)
    (hq : minInt64 ≤ q ∧ q ≤ maxInt64) (h : q ≠ p) (ts ts' : Int) :
    buildPreBatch p ts ≠ buildPreBatch q ts' := by
  intro heq
  have h1 := parsePosToken_buildPreBatch hp ts (0, 0)
  rw [heq, parsePosToken_buildPreBatch hq] at h1
  exact h h1

section
variable {s : Server} {user roomID : String} {room : Room} {tl : TimeLines} {c : StreamEvent}

/-- A request of a client that reads the room backwards, from the creation of the room on. -/
structure Reading (roomID : String) (tl : TimeLines) (c : StreamEvent) (req : MessagesRequest) :
    Prop where
  roomID_eq : req.roomID = roomID
  toStr_eq : req.toStr = ""
  dir_eq : req.dir = .b
  types_eq : req.types = []
  notTypes_eq : req.notTypes = []
  ge : c.offset - 1 ≤ (req.start tl).1
  le : (req.start tl).1 ≤ maxInt64
  limit_lt : req.pageLimit < 4611686018427387904

theorem InRoom.roomMessages_eq (h : InRoom s user roomID room tl c) (hreq : Reading roomID tl c req)
    {found : Found}
    (hpage : (s.source room tl user roomID).page .b (req.start tl).1 (req.start tl).2 0
      req.pageLimit = some found) :
    s.roomMessages user req = .ok
      { start := buildPreBatch (req.start tl).1 (req.start tl).2
        stop := buildPreBatch found.endPos found.endTs
        chunk := found.events } := by
  have hto : req.toPos = 0 := by simp [toPos, hreq.toStr_eq]
  have hchunk : (if s.useMessageFilter = true then
      filterEventTypes found.events req.types req.notTypes else found.events) = found.events := by
    rw [hreq.types_eq, hreq.notTypes_eq]
    simp [filterEventTypes]
  unfold Server.roomMessages
  simp only [hreq.roomID_eq, h.related, h.streams, h.room_eq, h.member, h.history_eq, hreq.dir_eq,
    hto, hpage, hchunk, if_false, Bool.true_eq_false]

variable (h : InRoom s user roomID room tl c) (hids : ∀ r ∈ s.db.room roomID, 2 < r.offset)
include h hids

theorem InRoom.readable : (s.source room tl user roomID).Readable c := by
  have hlive : s.db.live roomID = s.db.room roomID := by
    refine filter_eq_self.mpr fun r hr => ?_
    have := hids r hr
    simp only [decide_eq_true_eq]
    omega
  have hrecent := h.recent
  have hfirst := h.first
  rw [hlive] at hrecent hfirst
  refine ⟨hrecent, h.createEv, hfirst, h.isCreate, ?_, hids⟩
  · intro r hr
    have h1 := hids r hr
    have h2 := h.offsets r hr
    omega

theorem InRoom.backwards {limit : String} {filterLimit : Option Int}
    (hlimit : (MessagesRequest.backwards roomID limit filterLimit).pageLimit <
      4611686018427387904) : Reading roomID tl c (.backwards roomID limit filterLimit) ∧
      (s.source room tl user roomID).shownUpTo
        ((MessagesRequest.backwards roomID limit filterLimit).start tl).1 =
          s.shown (s.viewer room user) roomID := by
  have hr := h.readable hids
  have hlast := List.getLast?_eq_some_getLast h.data_ne
  have hmem := hr.data_subset (getLast_mem h.data_ne)
  have hstart : ((MessagesRequest.backwards roomID limit filterLimit).start tl).1 =
      (tl.data.getLast h.data_ne).offset := by
    simp [MessagesRequest.start, MessagesRequest.backwards, hlast]
  have hge := hr.le hmem
  have hlt := h.int64 _ hmem
  refine ⟨⟨rfl, rfl, rfl, rfl, rfl, by omega, by omega, hlimit⟩, ?_⟩
  -- nothing is stored after the newest event of the ring
  have hall : (s.db.room roomID).filter (·.offset ≤ (tl.data.getLast h.data_ne).offset) =
      s.db.room roomID := by
    refine filter_eq_self.mpr fun r hrow => ?_
    exact decide_eq_true (hr.recent.le_last (s.db.ordered_room roomID) h.data_ne hrow)
  rw [hstart, Source.shownUpTo, Source.desc, filter_reverse]
  show ((((s.db.room roomID).filter _).filter _).reverse).map _ = _
  rw [hall]
  rfl

theorem InRoom.nextPage_spec (hreq : Reading roomID tl c req) (hne : (req.start tl).1 ≠ c.offset) :
    (∃ resp, s.nextPage user req = some (resp, none) ∧
      resp.chunk = (s.source room tl user roomID).shownUpTo (req.start tl).1) ∨
    ∃ resp req', s.nextPage user req = some (resp, some req') ∧ Reading roomID tl c req' ∧
      (req'.start tl).1 < (req.start tl).1 ∧
      resp.chunk ++ (s.source room tl user roomID).shownUpTo (req'.start tl).1 =
        (s.source room tl user roomID).shownUpTo (req.start tl).1 := by
  have hr := h.readable hids
  have hc := hr.ids c hr.mem
  have hge := hreq.ge
  have hle := hreq.le
  have hmin : minInt64 < 0 := by decide
  by_cases hlast : (req.start tl).1 ≤ c.offset
  · left
    have hpos : (req.start tl).1 = c.offset - 1 := by omega
    have hmsg := h.roomMessages_eq hreq (hr.page_of_le hlast hge)
    refine ⟨_, (Server.nextPage_eq hmsg).trans (by rw [if_pos rfl]), ?_⟩
    rw [hpos, Source.shownUpTo, hr.desc_pred_eq_nil]
    rfl
  · right
    rcases hr.page_spec (t := (req.start tl).2) ⟨pageLimit_pos hreq.toStr_eq, hreq.limit_lt⟩
      (Int.not_le.mp hlast) with ⟨found, hpage, hshown, hless, hback⟩
    have hmsg := h.roomMessages_eq hreq hpage
    have hrange : minInt64 ≤ found.endPos ∧ found.endPos ≤ maxInt64 := by omega
    have hnext : (start
        { req with fromStr := buildPreBatch found.endPos found.endTs } tl).1 = found.endPos :=
      start_token hrange
    have hne := buildPreBatch_ne
      (show minInt64 ≤ (req.start tl).1 ∧ (req.start tl).1 ≤ maxInt64 by omega) hrange (by omega)
      (req.start tl).2 found.endTs
    refine ⟨_, _, (Server.nextPage_eq hmsg).trans (by rw [if_neg hne]), ?_, ?_, ?_⟩
    · exact ⟨hreq.roomID_eq, hreq.toStr_eq, hreq.dir_eq, hreq.types_eq, hreq.notTypes_eq,
        by rw [hnext]; omega, by rw [hnext]; omega, hreq.limit_lt⟩
    · rw [hnext]
      exact hless
    · rw [hnext]
      exact hshown

theorem InRoom.nextPage_of_eq (hreq : Reading roomID tl c req) (heq : (req.start tl).1 = c.offset) :
    ∃ resp, s.nextPage user req = some (resp, none) ∧
      resp.chunk ≠ (s.source room tl user roomID).shownUpTo (req.start tl).1 := by
  have hr := h.readable hids
  have hmsg := h.roomMessages_eq hreq (hr.page_of_le (Int.le_of_eq heq) hreq.ge)
  refine ⟨_, (Server.nextPage_eq hmsg).trans (by rw [if_pos rfl]), ?_⟩
  rw [heq]
  exact hr.shownUpTo_create.symm

/-- **Reading backwards is complete** in a room without backfilled events, exactly when no page
starts at the position of the create event, if twice the limit is a number of 64 bits. -/
theorem pages_complete_iff (limit : String) (filterLimit : Option Int)
    (hlimit : (MessagesRequest.backwards roomID limit filterLimit).pageLimit <
      4611686018427387904) :
    Drains (s.nextPage user) MessageEventResp.chunk (.backwards roomID limit filterLimit)
        (s.shown (s.viewer room user) roomID) ↔
      ∀ n, ∀ req ∈ asked (s.nextPage user) n (.backwards roomID limit filterLimit),
        (req.start tl).1 ≠ c.offset := by
  rcases h.backwards hids hlimit with ⟨hfirst, hall⟩
  rw [← hall]
  refine drains_iff (fun req => (s.source room tl user roomID).shownUpTo (req.start tl).1)
    (Reading roomID tl c) (fun req => (req.start tl).1 ≠ c.offset)
    (fun req => ((req.start tl).1 - (c.offset - 1)).toNat) ?_ ?_ hfirst
  · intro req hreq hne
    rcases h.nextPage_spec hids hreq hne with hlast | ⟨resp, req', hnext, hreq', hlt, hshown⟩
    · exact .inl hlast
    · refine .inr ⟨resp, req', hnext, hreq', ?_, hshown⟩
      have h2 := hreq'.ge
      omega
  · intro req hreq hgood
    exact h.nextPage_of_eq hids hreq (not_not.mp hgood)

end

/-! ## A backfilled event

A room with a create event at 10 and a join at 12, and the same room with a topic that was
backfilled with the offset 20. The page that ends with the topic is followed by one that starts at
19, and everything comes a second time.
-/

def liveRows : List StreamEvent :=
  [⟨10, ⟨"$create", "!r:x", "m.room.create", some "", .null, 10, 10⟩⟩,
   ⟨12, ⟨"$join", "!r:x", "m.room.member", some "@u:x", .null, 12, 12⟩⟩]

def topic : StreamEvent := ⟨-20, ⟨"$topic", "!r:x", "m.room.topic", some "", .null, 5, 20⟩⟩

def liveTable : Table :=
  .ofRows liveRows (by unfold Ordered; decide) (by decide)

def backfilledTable : Table :=
  .ofRows (topic :: liveRows) (by unfold Ordered; decide) (by decide)

def readRoom : Room :=
  .joinedBy 10 "@u:x" 12 fun type _ =>
    if type = "m.room.create" then liveRows.head? else none

def readServer (db : Table) : Server := .ofTable db readRoom

theorem inRoom_live : InRoom (readServer liveTable) "@u:x" "!r:x" readRoom
    (loadHistory liveTable "!r:x")
    ⟨10, ⟨"$create", "!r:x", "m.room.create", some "", .null, 10, 10⟩⟩ where
  related := rfl
  streams := rfl
  room_eq := rfl
  history_eq := rfl
  member := fun h => nomatch h.1
  recent := loadHistory_recent liveTable "!r:x"
  data_ne := ne_nil_of_length_pos (by decide)
  createEv := rfl
  first := rfl
  isCreate := rfl
  offsets := by decide
  int64 := by decide

theorem pages_complete_iff_live :
    Drains ((readServer liveTable).nextPage "@u:x") MessageEventResp.chunk
      (.backwards "!r:x" "50" none)
      ((readServer liveTable).shown ((readServer liveTable).viewer readRoom "@u:x") "!r:x") := by
  refine (pages_complete_iff inRoom_live (by decide) "50" none (by decide)).mpr ?_
  rw [forall_asked_of_next rfl, forall_asked_of_last rfl]
  decide

theorem pages_repeat_backfilled :
    ¬ Drains ((readServer backfilledTable).nextPage "@u:x") MessageEventResp.chunk
      (.backwards "!r:x" "50" none)
      ((readServer backfilledTable).shown ((readServer backfilledTable).viewer readRoom "@u:x")
        "!r:x") := by
  rintro ⟨n, hdrained, hall⟩
  match n with
  | 0 => cases hdrained
  | 1 => cases hdrained
  | n + 2 =>
    -- the second page has the three events again and is the last one
    have hlen : 6 = 3 := congrArg List.length hall
    cases hlen

end Ligase.Sync

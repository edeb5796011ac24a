import Ligase.Sync.Context
import Ligase.Sync.Pagination

/-!
# The start token of a context

A client that has the context of an event goes on reading backwards from the token `start` of the
answer. What the context comes past without an output is lost to it.

* **`Source.Retains.getMessages_splits`**: where the search for the events before ends.
* **`start_skips_nothing_iff`**: when the token skips nothing that the user sees.
-/

namespace Ligase.Sync

open Lib List Option

namespace Source

variable {src : Source} {p : Int} {stream : StreamEvent} {feeds : List StreamEvent} {found : Found}

/-! ## The ring -/

variable {e : StreamEvent} {t limit : Int} {rows : List StreamEvent}

theorem visitBackward_eq (h : Fresh found.events (stream :: feeds))
    (hmin : src.roomMinStream < stream.offset) :
    (src.visitBackward stream found).events =
        found.events ++ (if src.viewer.contextual stream.ev then [stream.ev] else []) ∧
      (src.visitBackward stream found).limit =
        if src.viewer.contextual stream.ev then found.limit - 1 else found.limit := by
  cases hc : src.viewer.contextual stream.ev <;> unfold Viewer.contextual at hc <;>
    simp [visitBackward, record, h.recorded_eq_false, hmin, hc]

theorem visitBackward_min (hmin : stream.offset = src.roomMinStream) :
    (src.visitBackward stream found).events = found.events ∧
      (src.visitBackward stream found).limit = found.limit := by
  simp [visitBackward, hmin]

/-- The entries that are gone through, newest first, until the limit is used up; only what is output
counts. -/
def gone (src : Source) : Int → List StreamEvent → List StreamEvent
  | _, [] => []
  | limit, e :: feeds =>
    let limit := if src.viewer.contextual e.ev then limit - 1 else limit
    e :: if limit = 0 then [] else gone src limit feeds

/-- The entries of the ring that can be output before a position. -/
def inReach (src : Source) (p : Int) (e : StreamEvent) : Bool :=
  e.offset ≤ p ∧ src.roomMinStream < e.offset

theorem gone_subset : src.gone limit feeds ⊆ feeds := by
  induction feeds generalizing limit with
  | nil => exact List.Subset.refl _
  | cons stream feeds ih =>
    unfold gone
    refine cons_subset_cons _ ?_
    split_ifs
    · exact nil_subset _
    · exact ih
    · exact nil_subset _
    · exact ih

/-- The entries gone through are after the end, the others that could be output are not. -/
structure Scanned (src : Source) (p : Int) (feeds : List StreamEvent) (found out : Found)
    (gone : List StreamEvent) : Prop where
  events : out.events = found.events ++ (gone.filter (src.viewer.contextual ·.ev)).map (·.ev)
  ends : out.endPos = found.endPos ∨
    ∃ last ∈ feeds, src.roomMinStream ≤ last.offset ∧ out.endPos = src.endAt last
  above : ∀ e ∈ gone, out.endPos < e.offset
  below : ∀ e ∈ feeds, src.inReach p e = true → e ∉ gone → e.offset ≤ out.endPos

theorem endAt_le (src : Source) (e : StreamEvent) : src.endAt e ≤ e.offset := by
  unfold endAt
  split_ifs <;> omega

theorem inReach_iff : src.inReach p e = true ↔ e.offset ≤ p ∧ src.roomMinStream < e.offset :=
  decide_eq_true_iff

section
variable {out : Found} {g : List StreamEvent} (hlt : ∀ e ∈ feeds, e.offset < stream.offset)
include hlt

theorem Scanned.stop :
    src.Scanned p feeds (src.visitBackward stream found) (src.visitBackward stream found) [] := by
  refine ⟨by simp, .inl rfl, by simp, fun e he hr _ => ?_⟩
  have hmin := (inReach_iff.mp hr).2
  have := hlt e he
  change e.offset ≤ src.endAt stream
  rw [endAt, if_neg (by omega)]
  omega

theorem Scanned.cons (hfresh : Fresh found.events (stream :: feeds))
    (hreach : src.inReach p stream = true)
    (h : src.Scanned p feeds (src.visitBackward stream found) out g) :
    src.Scanned p (stream :: feeds) found out (stream :: g) := by
  obtain ⟨hevents, hends, habove, hbelow⟩ := h
  obtain ⟨hle, hmin⟩ := inReach_iff.mp hreach
  have hend : src.endAt stream = stream.offset - 1 := if_neg (by omega)
  refine ⟨?_, .inr ?_, ?_, ?_⟩
  · rw [hevents, (visitBackward_eq hfresh hmin).1, append_assoc, filter_cons]
    split_ifs <;> rfl
  · rcases hends with hends | ⟨last, hlast, hlast'⟩
    · exact ⟨stream, mem_cons_self, by omega, hends⟩
    · exact ⟨last, mem_cons_of_mem _ hlast, hlast'⟩
  · intro e he
    rcases mem_cons.mp he with rfl | he
    · rcases hends with hends | ⟨last, hlast, -, hends⟩
      · rw [hends]
        change src.endAt e < e.offset
        omega
      · have := src.endAt_le last
        have := hlt last hlast
        omega
    · exact habove e he
  · intro e he hr hnot
    rcases mem_cons.mp he with rfl | he
    · exact absurd mem_cons_self hnot
    · exact hbelow e he hr fun hmem => hnot (mem_cons_of_mem _ hmem)

omit hlt in
theorem Scanned.skip {found' : Found} (hreach : src.inReach p stream = false)
    (h : src.Scanned p feeds found' out g) (hevents : found'.events = found.events)
    (hend : found'.endPos = found.endPos ∨
      src.roomMinStream ≤ stream.offset ∧ found'.endPos = src.endAt stream) :
    src.Scanned p (stream :: feeds) found out g := by
  refine ⟨hevents ▸ h.events, ?_, h.above, ?_⟩
  · rcases h.ends with hends | ⟨last, hlast, hlast'⟩
    · exact hend.imp hends.trans fun hend => ⟨stream, mem_cons_self, hend.1, hends.trans hend.2⟩
    · exact .inr ⟨last, mem_cons_of_mem _ hlast, hlast'⟩
  · intro e he hr
    rcases mem_cons.mp he with rfl | he
    · rw [hreach] at hr
      cases hr
    · exact h.below e he hr

end

theorem backward_scanned (hdesc : feeds.Pairwise fun a b => b.offset < a.offset)
    (hfresh : Fresh found.events feeds) :
    src.Scanned p feeds found (src.backward p feeds found)
      (src.gone found.limit (feeds.filter (src.inReach p))) := by
  induction feeds generalizing found with
  | nil => exact ⟨by simp [gone, backward], .inl rfl, by simp [gone], by simp⟩
  | cons stream feeds ih =>
    obtain ⟨hlt, hdesc⟩ := pairwise_cons.mp hdesc
    cases hreach : src.inReach p stream with
    | true =>
      obtain ⟨hle, hmin⟩ := inReach_iff.mp hreach
      obtain ⟨hevents, hlimit⟩ := visitBackward_eq hfresh hmin
      have hfresh' : Fresh (src.visitBackward stream found).events feeds := by
        rw [hevents]
        split_ifs
        · exact hfresh.tail.2
        · rw [append_nil]
          exact hfresh.tail.1
      have hnext := ih hdesc hfresh'
      rw [filter_cons_of_pos hreach, gone, backward, if_pos ⟨hle, Int.le_of_lt hmin⟩]
      dsimp only
      rw [← hlimit]
      split_ifs
      · exact Scanned.cons hlt hfresh hreach (Scanned.stop hlt)
      · exact Scanned.cons hlt hfresh hreach hnext
    | false =>
      rw [filter_cons_of_neg (by simp [hreach]), backward]
      by_cases hvisit : stream.offset ≤ p ∧ src.roomMinStream ≤ stream.offset
      · -- at the minimum, with nothing before it that could be output
        have hmin : stream.offset = src.roomMinStream := by
          have hnot := mt inReach_iff.mpr (Bool.eq_false_iff.mp hreach)
          omega
        obtain ⟨hevents, hlimit⟩ : (src.visitBackward stream found).events = found.events ∧ _ :=
          visitBackward_min hmin
        have hfresh' : Fresh (src.visitBackward stream found).events feeds :=
          hevents ▸ hfresh.tail.1
        have hnext := ih hdesc hfresh'
        have hnil : feeds.filter (src.inReach p) = [] := filter_eq_nil_iff.mpr fun e he hr => by
          have := (inReach_iff.mp hr).2
          have := hlt e he
          omega
        rw [if_pos hvisit]
        rw [hnil, gone] at hnext ⊢
        dsimp only
        split_ifs
        · exact Scanned.skip hreach (Scanned.stop hlt) hevents (.inr ⟨hvisit.2, rfl⟩)
        · exact Scanned.skip hreach hnext hevents (.inr ⟨hvisit.2, rfl⟩)
      · rw [if_neg hvisit]
        exact Scanned.skip hreach (ih hdesc hfresh.tail.1) rfl (.inl rfl)

/-- The ring holds the end of the live events, and is empty only if there are none. -/
structure Retains (src : Source) : Prop where
  recent : src.tl.Recent (src.db.live src.roomID)
  nonempty : src.tl.data = [] → ∀ e ∈ src.stored, e.offset < 0

theorem Retains.pos (h : src.Retains) (he : e ∈ src.tl.data) : 0 < e.offset :=
  (Table.mem_live.mp (h.recent.suffix.subset he)).2

theorem Retains.mem_data (h : src.Retains) (he : e ∈ src.stored)
    (hle : src.tl.lower ≤ e.offset) : e ∈ src.tl.data := by
  have hne : src.tl.data ≠ [] := by
    intro hnil
    have hneg := h.nonempty hnil e he
    rw [h.recent.lower, hnil] at hle
    exact absurd hle (by simpa [TimeLines.firstOffset] using hneg)
  obtain ⟨d, hd, hfirst⟩ := TimeLines.firstOffset_mem hne
  rw [h.recent.lower, ← hfirst] at hle
  have hpos := h.pos hd
  refine (h.recent.mem_or_before (src.db.ordered_live src.roomID)
    (Table.mem_live.mpr ⟨he, by omega⟩)).resolve_right fun hbefore => ?_
  have := hbefore d hd
  omega

theorem Retains.lower_pos (h : src.Retains) (he : e ∈ src.tl.data) :
    0 < src.tl.lower ∧ src.tl.lower ≤ e.offset := by
  obtain ⟨d, hd, hfirst⟩ := TimeLines.firstOffset_mem (ne_nil_of_mem he)
  refine ⟨?_, h.recent.lower_le (src.db.ordered_live src.roomID) he⟩
  rw [h.recent.lower, ← hfirst]
  exact h.pos hd

/-- A search before a position that went through some of the events: they are after its end, the
others are not. -/
structure Splits (src : Source) (p : Int) (gone : List StreamEvent) (found : Found) : Prop where
  events : found.events = (gone.filter (src.viewer.contextual ·.ev)).map (·.ev)
  above : ∀ e ∈ gone, e ∈ src.stored ∧ e.offset ≤ p ∧ found.endPos < e.offset
  below : ∀ e ∈ src.stored, e.offset ≤ p → e ∉ gone → e.offset ≤ found.endPos

theorem Retains.getFromCache_splits (h : src.Retains) :
    src.Splits p (src.gone limit (src.tl.data.reverse.filter (src.inReach p)))
      (src.getFromCache .b p t limit) := by
  obtain ⟨hevents, hends, habove, hbelow⟩ : src.Scanned p src.tl.data.reverse ⟨[], limit, 0, 0⟩ _
      (src.gone limit (src.tl.data.reverse.filter (src.inReach p))) :=
    backward_scanned (h.recent.desc (src.db.ordered_live src.roomID))
      (h.recent.fresh (src.db.unique_live src.roomID))
  have hmem : ∀ e ∈ src.gone limit (src.tl.data.reverse.filter (src.inReach p)),
      e ∈ src.tl.data ∧ e.offset ≤ p ∧ src.roomMinStream < e.offset := fun e he =>
    have he := mem_filter.mp (gone_subset he)
    ⟨mem_reverse.mp he.1, inReach_iff.mp he.2⟩
  have hstored : ∀ e ∈ src.tl.data, e ∈ src.stored := fun e he =>
    (Table.mem_live.mp (h.recent.suffix.subset he)).1
  -- what is in the ring and could be output is before the end once it was not gone through
  have hring : ∀ e ∈ src.stored, e.offset ≤ p →
      e ∉ src.gone limit (src.tl.data.reverse.filter (src.inReach p)) →
      src.tl.lower ≤ e.offset → src.roomMinStream < e.offset →
      e.offset ≤ (src.backward p src.tl.data.reverse ⟨[], limit, 0, 0⟩).endPos :=
    fun e he hle hnot hlow hmin => hbelow e (mem_reverse.mpr (h.mem_data he hlow))
      (inReach_iff.mpr ⟨hle, hmin⟩) hnot
  simp only [getFromCache]
  split_ifs with hzero
  · refine ⟨hevents, fun e he => ?_, fun e he hle hnot => ?_⟩
    · obtain ⟨hdata, hle, hmin⟩ := hmem e he
      have := (h.lower_pos hdata).2
      exact ⟨hstored e hdata, hle, by dsimp only; omega⟩
    · by_contra hlt
      dsimp only at hlt
      have hlow : src.tl.lower ≤ e.offset := by omega
      have := hring e he hle hnot hlow (by omega)
      have := h.pos (h.mem_data he hlow)
      omega
  · refine ⟨hevents, fun e he => ?_, fun e he hle hnot => ?_⟩
    · obtain ⟨hdata, hle, -⟩ := hmem e he
      exact ⟨hstored e hdata, hle, habove e he⟩
    · obtain ⟨last, hlast, hmin, hend⟩ := hends.resolve_left hzero
      by_contra hlt
      have hlow := (h.lower_pos (mem_reverse.mp hlast)).2
      have hge : src.tl.lower ≤ e.offset ∧ src.roomMinStream < e.offset := by
        rw [hend, endAt] at hlt
        split_ifs at hlt <;> omega
      exact hlt (hring e he hle hnot hge.1 hge.2)

/-! ## The table -/

/-- The rows of the table before a position. -/
def rowsBefore (src : Source) (p limit : Int) : List StreamEvent := (src.desc p).take limit.toNat

theorem mem_rowsBefore (h : e ∈ src.rowsBefore p limit) : e ∈ src.stored ∧ e.offset ≤ p :=
  mem_desc.mp (mem_of_mem_take h)

theorem selectEventsByDir_of_getFromDB (h : src.getFromDB .b p t limit = some found) :
    src.db.selectEventsByDir src.roomID .b p limit = some (src.rowsBefore p limit) := by
  unfold getFromDB Table.selectEventsByDir at h
  split_ifs at h with hneg
  exact if_neg hneg

section
variable (hne : src.rowsBefore p limit ≠ [])
include hne

theorem le_of_mem_rowsBefore (he : e ∈ src.rowsBefore p limit) :
    (endOf (src.rowsBefore p limit)).1 ≤ e.offset := by
  have hdesc : (src.rowsBefore p limit).Pairwise fun a b => b.offset < a.offset :=
    (pairwise_desc src p).sublist (take_sublist _ _)
  rw [endOf, getLast?_eq_some_getLast hne]
  dsimp only
  rw [← dropLast_append_getLast hne] at hdesc he
  rcases mem_append.mp he with he | he
  · exact Int.le_of_lt ((pairwise_append.mp hdesc).2.2 e he _ (by simp))
  · rw [mem_singleton.mp he]

theorem lt_of_notMem_rowsBefore (he : e ∈ src.stored) (hle : e.offset ≤ p)
    (hout : e ∉ src.rowsBefore p limit) : e.offset < (endOf (src.rowsBefore p limit)).1 := by
  have hsplit := take_append_drop limit.toNat (src.desc p)
  have hmem : e ∈ src.desc p := mem_desc.mpr ⟨he, hle⟩
  have hdesc := pairwise_desc src p
  rw [← hsplit] at hmem hdesc
  rw [endOf, getLast?_eq_some_getLast hne]
  exact (pairwise_append.mp hdesc).2.2 _ (getLast_mem hne) e
    ((mem_append.mp hmem).resolve_left hout)

theorem getFromDB_of_ne_nil (h : src.getFromDB .b p t limit = some found) :
    found.events = ((src.rowsBefore p limit).filter (src.viewer.contextual ·.ev)).map (·.ev) ∧
      found.endPos = match src.createEv with
        | some createEv =>
          if found.events.isEmpty ∧ (endOf (src.rowsBefore p limit)).1 ≠ 0 then createEv.offset
          else (endOf (src.rowsBefore p limit)).1 - 1
        | none => (endOf (src.rowsBefore p limit)).1 - 1 := by
  have hevents : ((src.rowsBefore p limit).filter fun r => Dir.b.accepts p r.offset &&
      src.viewer.inContext r.ev && !src.viewer.expired r.ev) =
      (src.rowsBefore p limit).filter (src.viewer.contextual ·.ev) := by
    refine filter_congr fun r hr => ?_
    have hle := (mem_rowsBefore hr).2
    have hacc : Dir.b.accepts p r.offset = true := by
      simp only [Dir.accepts, hle, decide_true, Bool.and_true, Bool.or_true, Bool.or_eq_true,
        decide_eq_true_eq]
      omega
    rw [hacc, Bool.true_and, Viewer.contextual]
  simp only [getFromDB, selectEventsByDir_of_getFromDB h, hevents] at h
  obtain rfl := some.inj h
  refine ⟨rfl, ?_⟩
  cases src.createEv <;> rfl

end

/-- The page before a position comes from the table, has nothing to output, and from its end the
token leads to the creation of the room. -/
structure Jumps (src : Source) (p limit : Int) (createEv : StreamEvent) : Prop where
  created : src.createEv = some createEv
  after : src.beforeCreation p = false
  table : p < src.tl.lower ∨ p ≤ src.roomMinStream
  nonempty : src.rowsBefore p limit ≠ []
  last : (endOf (src.rowsBefore p limit)).1 ≠ 0
  nothing : ∀ r ∈ src.rowsBefore p limit, src.viewer.contextual r.ev = false

theorem getFromDB_splits (h : src.getFromDB .b p t limit = some found)
    (hno : ∀ createEv, src.createEv = some createEv → (endOf (src.rowsBefore p limit)).1 ≠ 0 →
      src.rowsBefore p limit ≠ [] → found.events ≠ []) :
    src.Splits p (src.rowsBefore p limit) found := by
  by_cases hne : src.rowsBefore p limit = []
  · have hfound : ⟨[], limit, p, t⟩ = found := by
      rw [getFromDB, selectEventsByDir_of_getFromDB h, hne] at h
      exact some.inj h
    rw [hne, ← hfound]
    exact ⟨rfl, by simp, fun e _ hle _ => hle⟩
  · obtain ⟨hevents, hend⟩ := getFromDB_of_ne_nil hne h
    have hend' : found.endPos = (endOf (src.rowsBefore p limit)).1 - 1 := by
      rw [hend]
      cases hcreate : src.createEv with
      | none => rfl
      | some createEv =>
        refine if_neg fun hjump => ?_
        exact hno createEv hcreate hjump.2 hne (isEmpty_iff.mp hjump.1)
    refine ⟨hevents, fun e he => ?_, fun e he hle hnot => ?_⟩
    · have := le_of_mem_rowsBefore hne he
      exact ⟨(mem_rowsBefore he).1, (mem_rowsBefore he).2, by omega⟩
    · have := lt_of_notMem_rowsBefore hne he hle hnot
      omega

/-- The events that the search before a position goes through. -/
def passed (src : Source) (p limit : Int) : List StreamEvent :=
  if src.beforeCreation p then []
  else if p < src.tl.lower ∨ p ≤ src.roomMinStream then src.rowsBefore p limit
  else src.gone limit (src.tl.data.reverse.filter (src.inReach p))

/-- **Where the search for the events before ends**: at the creation of the room, or right before
the events that it went through. -/
theorem Retains.getMessages_splits (h : src.Retains)
    (hfound : src.getMessages .b p t limit = some found) :
    (∃ createEv, src.Jumps p limit createEv ∧ found.endPos = createEv.offset ∧ found.events = []) ∨
      (∀ createEv, ¬ src.Jumps p limit createEv) ∧ src.Splits p (src.passed p limit) found := by
  rw [getMessages, if_neg (by simp)] at hfound
  unfold passed
  cases hafter : src.beforeCreation p with
  | true =>
    rw [if_pos ⟨hafter, rfl⟩] at hfound
    obtain rfl := some.inj hfound
    refine .inr ⟨fun createEv hj => ?_, rfl, by simp, fun e _ hle _ => hle⟩
    have := hj.after
    rw [hafter] at this
    cases this
  | false =>
    rw [if_neg (by simp [hafter])] at hfound
    rw [if_neg (by simp)]
    split_ifs at hfound ⊢ with htable
    · by_cases hj : ∃ createEv, src.Jumps p limit createEv
      · obtain ⟨createEv, hj⟩ := hj
        obtain ⟨hevents, hend⟩ := getFromDB_of_ne_nil hj.nonempty hfound
        have hnil : found.events = [] := by
          rw [hevents, map_eq_nil_iff, filter_eq_nil_iff]
          simpa using hj.nothing
        refine .inl ⟨createEv, hj, ?_, hnil⟩
        rw [hend, hj.created]
        exact if_pos ⟨by rw [hnil]; rfl, hj.last⟩
      · refine .inr ⟨fun createEv hj' => hj ⟨createEv, hj'⟩, getFromDB_splits hfound ?_⟩
        intro createEv hcreate hlast hne hnil
        rw [(getFromDB_of_ne_nil hne hfound).1, map_eq_nil_iff, filter_eq_nil_iff] at hnil
        exact hj ⟨createEv, hcreate, hafter, htable, hne, hlast, by simpa using hnil⟩
    · obtain rfl := some.inj hfound
      exact .inr ⟨fun createEv hj => htable hj.table, h.getFromCache_splits⟩

end Source

/-! ## The answer -/

theorem buildPreBatch_inj {p q t t' : Int} (h : buildPreBatch p t = buildPreBatch q t') :
    p = q := by
  have hsplit := congrArg (fun s : String => s.toList.splitOn '_') h
  simp only [splitOn_buildPreBatch, cons.injEq, true_and] at hsplit
  exact itoa_injective (String.toList_inj.mp hsplit.1)

theorem Server.around_before {s : Server} {src : Source} {base : StreamEvent} {limit : Int}
    {resp : ContextEventResp} (h : s.around src base limit = .ok resp) :
    ∃ before, src.getMessages .b (base.offset - 1) base.ev.originServerTS (limit.tdiv 2) =
        some before ∧ resp.evsBefore = before.events ∧
      resp.start = buildPreBatch before.endPos before.endTs := by
  unfold around at h
  dsimp only at h
  split at h
  · cases h
  · rename_i before hb
    split at h
    · cases h
    · cases h
      exact ⟨before, hb, rfl, rfl⟩

/-- What is older than the base event, is seen by `sees` and is not in the answer is at or before
the position of the start token. -/
def SkipsNothing (db : Table) (roomID : String) (sees : ClientEvent → Bool) (base : StreamEvent)
    (resp : ContextEventResp) : Prop :=
  ∃ pos ts, resp.start = buildPreBatch pos ts ∧ ∀ e ∈ db.room roomID, e.offset < base.offset →
    sees e.ev = true → e.ev ∉ resp.evsBefore → e.offset ≤ pos

/-- All that is seen by `sees` among the events gone through is output; where the token leads to the
creation of the room, nothing that is seen is after it. -/
structure Source.LosesNone (src : Source) (sees : ClientEvent → Bool) (p limit : Int) : Prop where
  passed : (∀ createEv, ¬ src.Jumps p limit createEv) → ∀ e ∈ src.passed p limit,
    sees e.ev = true → src.viewer.contextual e.ev = true
  jumps : ∀ createEv, src.Jumps p limit createEv → ∀ e ∈ src.stored, e.offset ≤ p →
    sees e.ev = true → e.offset ≤ createEv.offset

theorem skipsNothing_iff {s : Server} {src : Source} {base : StreamEvent} {limit : Int}
    {resp : ContextEventResp} (h : src.Retains) (haround : s.around src base limit = .ok resp)
    (sees : ClientEvent → Bool) :
    SkipsNothing src.db src.roomID sees base resp ↔
      src.LosesNone sees (base.offset - 1) (limit.tdiv 2) := by
  obtain ⟨before, hbefore, hevs, hstart⟩ := Server.around_before haround
  -- the token has one position, the end of the search
  have hskips : SkipsNothing src.db src.roomID sees base resp ↔ ∀ e ∈ src.stored,
      e.offset ≤ base.offset - 1 → sees e.ev = true → e.ev ∉ before.events →
      e.offset ≤ before.endPos := by
    constructor
    · rintro ⟨pos, ts, hpos, hall⟩ e he hle hs hout
      rw [buildPreBatch_inj (hstart.symm.trans hpos)]
      exact hall e he (by omega) hs (hevs ▸ hout)
    · intro hall
      exact ⟨_, _, hstart, fun e he hlt hs hout => hall e he (by omega) hs (hevs ▸ hout)⟩
  rw [hskips]
  rcases h.getMessages_splits hbefore with ⟨createEv, hj, hend, hnil⟩ | ⟨hno, hsplits⟩
  · rw [hnil, hend]
    constructor
    · intro hall
      refine ⟨fun hno => absurd hj (hno createEv), fun createEv' hj' e he hle hs => ?_⟩
      obtain rfl := some.inj (hj.created.symm.trans hj'.created)
      exact hall e he hle hs not_mem_nil
    · exact fun hloses e he hle hs _ => hloses.jumps createEv hj e he hle hs
  · rw [hsplits.events]
    constructor
    · refine fun hall => ⟨fun _ e he hs => ?_, fun createEv hj => absurd hj (hno createEv)⟩
      obtain ⟨hstored, hle, hlt⟩ := hsplits.above e he
      by_contra hc
      refine absurd (hall e hstored hle hs fun hmem => ?_) (by omega)
      obtain ⟨e', he', heq⟩ := mem_map.mp hmem
      exact hc (heq ▸ (mem_filter.mp he').2)
    · intro hloses e he hle hs hout
      refine hsplits.below e he hle fun hmem => hout ?_
      exact mem_map_of_mem (mem_filter.mpr ⟨hmem, hloses.passed hno e hmem hs⟩)

/-- **What the start token skips.** Of the events gone through those are skipped that the user sees
and the context does not output; if there is nothing to output in a page of the table, all is
skipped that is after the creation of the room. -/
theorem start_skips_nothing_iff (s : Server) (user : String) (req : ContextRequest) {room : Room}
    {tl : TimeLines} {base : StreamEvent} {resp : ContextEventResp}
    (hroom : s.roomState req.roomID = some room) (htl : s.history req.roomID = some tl)
    (hbase : (s.db.streamEvents req.eventID).head? = some base)
    (h : (s.source room tl user req.roomID).Retains)
    (hresp : s.eventContext user req = .ok resp) :
    SkipsNothing s.db req.roomID (fun ev => (s.viewer room user).visible ev.originServerTS) base
        resp ↔
      (s.source room tl user req.roomID).LosesNone
        (fun ev => (s.viewer room user).visible ev.originServerTS) (base.offset - 1)
        (req.limit.tdiv 2) := by
  obtain ⟨room', base', tl', hroom', hbase', htl', haround⟩ := Server.eventContext_eq_ok hresp
  obtain rfl := some.inj (hroom.symm.trans hroom')
  obtain rfl := some.inj (hbase.symm.trans hbase')
  obtain rfl := some.inj (htl.symm.trans htl')
  exact skipsNothing_iff h haround _

/-! ## A page with nothing to output

The room has a create event, the join of a user, a message, an extension event and another message,
at which the server's records of the room begin without a gap. The context of the last message is
read from the table; with the limit 2 its page has the extension event only.
-/

def hello : StreamEvent := ⟨3, ⟨"$hello", "!r:x", "m.room.message", none, .null, 3, 3⟩⟩

def lastMessage : StreamEvent := ⟨5, ⟨"$last", "!r:x", "m.room.message", none, .null, 5, 5⟩⟩

def gapRows : List StreamEvent :=
  [⟨1, ⟨"$create", "!r:x", "m.room.create", some "", .null, 1, 1⟩⟩,
   ⟨2, ⟨"$join", "!r:x", "m.room.member", some "@u:x", .null, 2, 2⟩⟩,
   hello,
   ⟨4, ⟨"$ext", "!r:x", "m.room._ext.enter", none, .null, 4, 4⟩⟩,
   lastMessage]

def gapTable : Table :=
  .ofRows gapRows (by unfold Ordered; decide) (by decide)

def gapServer : Server :=
  { server₀ with
    db := gapTable
    history := fun roomID => some (loadHistory gapTable roomID)
    roomMinStream := fun _ => 5 }

def gapSource : Source := gapServer.source room₀ (loadHistory gapTable "!r:x") "@u:x" "!r:x"

theorem retains_gap : gapSource.Retains where
  recent := loadHistory_recent gapTable "!r:x"
  nonempty := fun h => absurd h (by decide +kernel)

theorem start_skips_nothing_join :
    ∃ resp, gapServer.eventContext "@u:x" ⟨"!r:x", "$hello", 2⟩ = .ok resp ∧
      SkipsNothing gapTable "!r:x"
        (fun ev => (gapServer.viewer room₀ "@u:x").visible ev.originServerTS) hello resp := by
  refine ⟨_, rfl, (start_skips_nothing_iff gapServer "@u:x" ⟨"!r:x", "$hello", 2⟩ rfl rfl rfl
    retains_gap rfl).mpr ⟨?_, ?_⟩⟩
  · intro _
    decide +kernel
  · intro createEv hj
    exact absurd hj.nothing (by decide +kernel)

/-- With the limit 2 the token leads to the creation of the room, past the first message. -/
theorem start_skips_message :
    ∃ resp, gapServer.eventContext "@u:x" ⟨"!r:x", "$last", 2⟩ = .ok resp ∧
      hello ∈ gapTable.room "!r:x" ∧ hello.offset < lastMessage.offset ∧
      (room₀.rs.checkEventVisibility "@u:x" hello.ev.originServerTS).1 = true ∧
      resp.evsBefore = [] ∧ resp.start = buildPreBatch 1 4 ∧
      ¬ SkipsNothing gapTable "!r:x"
        (fun ev => (gapServer.viewer room₀ "@u:x").visible ev.originServerTS) lastMessage
        resp := by
  have hmem : hello ∈ gapTable.room "!r:x" :=
    mem_filter.mpr ⟨by simp [gapTable, Table.ofRows, gapRows], rfl⟩
  refine ⟨_, rfl, hmem, by decide, by decide +kernel, rfl, rfl, ?_⟩
  rintro ⟨pos, ts, hpos, hall⟩
  have hle := hall hello hmem (by decide) (by decide +kernel) (by rintro ⟨⟩)
  rw [← buildPreBatch_inj hpos] at hle
  exact absurd hle (by decide)

end Ligase.Sync

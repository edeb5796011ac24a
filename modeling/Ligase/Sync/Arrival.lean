import Mathlib.Data.List.Induction
import Mathlib.Data.List.Perm.Basic
import Mathlib.Data.List.Sort
import Ligase.Sync.Ranges

/-!
# The order in which events arrive

The same events, backfilled in some order and processed live in the order of their positions.

* **`backfill_eq_live`**: for which events everybody sees the same.
-/

namespace Ligase.Sync

open Lib PointerState List Function

structure Timed where
  ev : StateEvent
  pos : Int
  offset : Int
  deriving DecidableEq

def PointerState.receive (backfill : Bool) (rs : PointerState) (e : Timed) : PointerState :=
  rs.onEvent e.ev e.pos e.offset backfill

def arrived (createPos : Int) (backfill : Bool) (evs : List Timed) : PointerState :=
  evs.foldl (PointerState.receive backfill) (.created createPos)

theorem arrived_concat (createPos : Int) (backfill : Bool) (evs : List Timed) (e : Timed) :
    arrived createPos backfill (evs ++ [e]) =
      (arrived createPos backfill evs).receive backfill e := by
  rw [arrived, foldl_append]
  rfl

section
variable {rs : PointerState} {evs sorted : List Timed} {e : Timed} {value user w : String}
  {pos offset createPos : Int} {backfill : Bool}

/-! ## Changes of the history visibility in their order -/

theorem historyVisibilityPos_onHistoryVisibility (h : rs.historyVisibilityPos < pos) :
    (rs.onHistoryVisibility value pos).historyVisibilityPos ≤ pos := by
  unfold onHistoryVisibility
  split_ifs <;> first | exact Int.le_refl _ | exact Int.le_of_lt h

theorem receive_in_order (hv : e.ev = .historyVisibility value)
    (h : backfill = false ∨ rs.historyVisibilityPos < e.pos) :
    rs.receive backfill e = rs.onHistoryVisibility value e.pos := by
  rw [receive, hv]
  exact if_pos (by simpa using h)

theorem receive_late (hv : e.ev = .historyVisibility value)
    (h : ¬(backfill = false ∨ rs.historyVisibilityPos < e.pos)) :
    rs.receive backfill e = rs.insertHistoryVisibility value e.pos := by
  rw [receive, hv]
  exact if_neg (by simpa using h)

theorem arrived_in_order (hhv : ∀ e ∈ evs, ∃ value, e.ev = .historyVisibility value)
    (horder : evs.Pairwise (·.pos < ·.pos)) (hpos : ∀ e ∈ evs, rs.historyVisibilityPos < e.pos) :
    evs.foldl (receive true) rs = evs.foldl (receive false) rs := by
  induction evs generalizing rs with
  | nil => rfl
  | cons e evs ih =>
    obtain ⟨value, hv⟩ := hhv e mem_cons_self
    have hlt := hpos e mem_cons_self
    rw [foldl_cons, foldl_cons, receive_in_order hv (.inr hlt), receive_in_order hv (.inl rfl)]
    rw [pairwise_cons] at horder
    refine ih (fun e' he' => hhv e' (mem_cons_of_mem _ he')) horder.2 fun e' he' => ?_
    exact Int.lt_of_le_of_lt (historyVisibilityPos_onHistoryVisibility hlt) (horder.1 e' he')

/-! ## One change of the shared history -/

def Timed.isChange (e : Timed) : Bool :=
  e.ev = .historyVisibility "shared" || e.ev = .historyVisibility "joined"

/-- At most one of the events opens or closes the shared history, and none is after it if it
closes. -/
structure OneChange (evs : List Timed) : Prop where
  one : (evs.filter Timed.isChange).length ≤ 1
  newest : ∀ e ∈ evs, e.ev = .historyVisibility "joined" → ∀ e' ∈ evs, e'.pos ≤ e.pos

def opened (evs : List Timed) : List RangeItem :=
  evs.filterMap fun e => if e.ev = .historyVisibility "shared" then some ⟨e.pos, -1⟩ else none

theorem opened_concat (evs : List Timed) (e : Timed) : opened (evs ++ [e]) =
    opened evs ++ if e.ev = .historyVisibility "shared" then [⟨e.pos, -1⟩] else [] := by
  unfold opened
  split_ifs with h <;> simp [h]

theorem OneChange.left (h : OneChange (evs ++ [e])) : OneChange evs := by
  refine ⟨?_, fun e₁ h₁ hj e₂ h₂ =>
    h.newest e₁ (mem_append_left _ h₁) hj e₂ (mem_append_left _ h₂)⟩
  have hone := h.one
  rw [filter_append, length_append] at hone
  omega

theorem OneChange.not_isChange (h : OneChange (evs ++ [e])) (he : e.isChange = true) :
    ∀ e' ∈ evs, e'.isChange = false := by
  have hone := h.one
  rw [filter_append, length_append, filter_cons_of_pos he, length_cons] at hone
  have hnil : evs.filter Timed.isChange = [] := length_eq_zero_iff.mp (by omega)
  intro e' he'
  exact Bool.eq_false_iff.mpr (filter_eq_nil_iff.mp hnil e' he')

theorem opened_eq_nil (h : ∀ e ∈ evs, e.isChange = false) : opened evs = [] := by
  refine filterMap_eq_nil_iff.mpr fun e he => if_neg fun hs => ?_
  have := h e he
  simp [Timed.isChange, hs] at this

theorem OneChange.length_opened (h : OneChange evs) : (opened evs).length ≤ 1 := by
  have hfilter : opened evs = opened (evs.filter Timed.isChange) := by
    unfold opened
    rw [filterMap_filter]
    congr 1
    funext e
    by_cases hs : e.ev = .historyVisibility "shared" <;> simp [Timed.isChange, hs]
  rw [hfilter]
  exact Nat.le_trans (length_filterMap_le _ _) h.one

structure Unviewed (rs : PointerState) : Prop where
  view : ∀ user, rs.userMemberView user = none
  ok : ∀ user, rs.userMemberViewOk user = false

theorem Unviewed.check (h : Unviewed rs) (user : String) (pos : Int) :
    (rs.checkEventVisibility user pos).1 =
      (extend RangeItem.covers [] rs.ranges).any (·.has pos) := by
  have hitems : rs.items user = [] := by rw [items, h.view user]; rfl
  have hranges : rs.ranges = (rs.visiableTl.map Ref.shared).map rs.item := by
    rw [map_map]
    rfl
  have hext : extend RangeItem.covers (([] : List Ref).map rs.item)
      ((rs.visiableTl.map Ref.shared).map rs.item) = (rs.addHistory []).map rs.item :=
    extend_map (fun _ => True) (fun _ _ _ _ => rfl) (fun _ _ => trivial) fun _ _ => trivial
  rw [map_nil] at hext
  rw [check_eq, h.ok, hitems, hranges, hext, any_map]
  rfl

/-- The room after events that change the shared history at most once. -/
structure Counted (evs : List Timed) (rs : PointerState) : Prop where
  unviewed : Unviewed rs
  ranges : rs.ranges = opened evs
  value : rs.historyVisibility = "" ∨ ∃ e ∈ evs, e.ev = .historyVisibility rs.historyVisibility
  pos : rs.historyVisibilityPos = 0 ∨ ∃ e ∈ evs, e.pos = rs.historyVisibilityPos

theorem Counted.tl_eq_nil (h : Counted evs rs) (ho : opened evs = []) : rs.visiableTl = [] :=
  map_eq_nil_iff.mp (h.ranges.trans ho)

theorem Counted.value_ne (h : Counted evs rs) (hno : ∀ e ∈ evs, e.isChange = false) :
    rs.historyVisibility ≠ "shared" ∧ rs.historyVisibility ≠ "joined" := by
  rcases h.value with hv | ⟨e, he, hv⟩
  · rw [hv]
    decide
  · have hc := hno e he
    rw [Timed.isChange, Bool.or_eq_false_iff, decide_eq_false_iff_not, decide_eq_false_iff_not,
      hv] at hc
    exact ⟨fun hs => hc.1 (congrArg _ hs), fun hj => hc.2 (congrArg _ hj)⟩

theorem Counted.created : Counted [] (created createPos) :=
  ⟨⟨fun _ => rfl, fun _ => rfl⟩, rfl, .inl rfl, .inl rfl⟩

theorem Counted.next (h : Counted evs rs) {rs' : PointerState}
    (hv : e.ev = .historyVisibility value) (hunviewed : Unviewed rs')
    (hranges : rs'.ranges = opened (evs ++ [e]))
    (hset : (rs'.historyVisibility = value ∧ rs'.historyVisibilityPos = e.pos) ∨
      (rs'.historyVisibility = rs.historyVisibility ∧
        rs'.historyVisibilityPos = rs.historyVisibilityPos)) : Counted (evs ++ [e]) rs' := by
  have hmem : e ∈ evs ++ [e] := mem_append_right _ (mem_singleton_self e)
  refine ⟨hunviewed, hranges, ?_, ?_⟩
  · rcases hset with ⟨hval, -⟩ | ⟨hval, -⟩
    · exact .inr ⟨e, hmem, hval ▸ hv⟩
    · rw [hval]
      exact h.value.imp_right fun ⟨e', he', hv'⟩ => ⟨e', mem_append_left _ he', hv'⟩
  · rcases hset with ⟨-, hp⟩ | ⟨-, hp⟩
    · exact .inr ⟨e, hmem, hp.symm⟩
    · rw [hp]
      exact h.pos.imp_right fun ⟨e', he', hp'⟩ => ⟨e', mem_append_left _ he', hp'⟩

theorem onHistoryVisibility_of_ne (h : rs.historyVisibility ≠ value) :
    rs.onHistoryVisibility value pos = { (if value = "shared" then rs.openShared pos
      else if value = "joined" then rs.closeShared pos else rs) with
        historyVisibility := value, historyVisibilityPos := pos } := if_pos h

theorem isChange_of_shared (h : e.ev = .historyVisibility "shared") : e.isChange = true := by
  simp [Timed.isChange, h]

theorem isChange_of_joined (h : e.ev = .historyVisibility "joined") : e.isChange = true := by
  simp [Timed.isChange, h]

theorem opened_concat_of_ne (hv : e.ev = .historyVisibility value) (hs : value ≠ "shared") :
    opened (evs ++ [e]) = opened evs := by
  rw [opened_concat, if_neg fun h => hs (StateEvent.historyVisibility.inj (hv.symm.trans h)),
    append_nil]

theorem opened_concat_shared (ho : OneChange (evs ++ [e]))
    (hv : e.ev = .historyVisibility "shared") :
    opened evs = [] ∧ opened (evs ++ [e]) = [⟨e.pos, -1⟩] := by
  have hnil := opened_eq_nil (ho.not_isChange (isChange_of_shared hv))
  exact ⟨hnil, by rw [opened_concat, if_pos hv, hnil, nil_append]⟩

theorem Counted.in_order (h : Counted evs rs) (ho : OneChange (evs ++ [e]))
    (hv : e.ev = .historyVisibility value) :
    Counted (evs ++ [e]) (rs.onHistoryVisibility value e.pos) := by
  by_cases hs : value = "shared"
  · subst hs
    have hne := (h.value_ne (ho.not_isChange (isChange_of_shared hv))).1
    obtain ⟨hnil, hopen⟩ := opened_concat_shared ho hv
    have htl := h.tl_eq_nil hnil
    rw [onHistoryVisibility_of_ne hne, if_pos rfl]
    refine h.next hv ⟨h.unviewed.view, h.unviewed.ok⟩ ?_ (.inl ⟨rfl, rfl⟩)
    rw [hopen, PointerState.ranges, PointerState.openShared, htl]
    simp
  · by_cases he : rs.historyVisibility = value
    · rw [show rs.onHistoryVisibility value e.pos = rs from if_neg (not_not.mpr he)]
      exact h.next hv h.unviewed (h.ranges.trans (opened_concat_of_ne hv hs).symm) (.inr ⟨rfl, rfl⟩)
    · have hsame : (if value = "shared" then rs.openShared e.pos
          else if value = "joined" then rs.closeShared e.pos else rs) = rs := by
        rw [if_neg hs]
        by_cases hj : value = "joined"
        · have hnil := opened_eq_nil (ho.not_isChange (isChange_of_joined (hj ▸ hv)))
          rw [if_pos hj, closeShared, h.tl_eq_nil hnil]
          rfl
        · rw [if_neg hj]
      rw [onHistoryVisibility_of_ne he, hsame]
      exact h.next hv ⟨h.unviewed.view, h.unviewed.ok⟩
        (h.ranges.trans (opened_concat_of_ne hv hs).symm) (.inl ⟨rfl, rfl⟩)

theorem cellAfter_slots (rs : PointerState) (ids : List Nat) :
    rs.cellAfter (ids.map fun id => rs.slot (.shared id)) = rs.cells := by
  funext id
  unfold cellAfter
  cases hf : (ids.map fun id => rs.slot (.shared id)).find? fun v => v.id = some id with
  | none => rfl
  | some v =>
    obtain ⟨id', -, rfl⟩ := mem_map.mp (mem_of_find?_eq_some hf)
    have hid : id' = id := by simpa [slot] using find?_some hf
    rw [hid]
    rfl

theorem insertHistoryVisibility_neither (hs : value ≠ "shared") (hj : value ≠ "joined") :
    rs.insertHistoryVisibility value pos = rs := by
  have hn : OpenClose.ofHistoryVisibility value = .neither := by
    rw [OpenClose.ofHistoryVisibility, if_neg hs, if_neg hj]
  have hids : (rs.visiableTl.map fun id => rs.slot (.shared id)).filterMap Slot.id =
      rs.visiableTl := by
    rw [filterMap_map]
    exact filterMap_some
  unfold insertHistoryVisibility
  rw [hn]
  dsimp only [insertIntoRanges]
  rw [cellAfter_slots, hids]
  rfl

theorem insertOpen_nil (hj : rs.historyVisibility ≠ "joined") (new : Option Nat) :
    rs.insertOpen [] new pos = ⟨[⟨new, ⟨⟨pos, -1⟩, .start⟩⟩], true, true⟩ := by
  simp [insertOpen, findRangeIdx, minStartIdx, hj]

theorem Counted.late (h : Counted evs rs) (ho : OneChange (evs ++ [e]))
    (hv : e.ev = .historyVisibility value) (hj : value ≠ "joined") :
    Counted (evs ++ [e]) (rs.insertHistoryVisibility value e.pos) := by
  by_cases hs : value = "shared"
  · subst hs
    have hne := (h.value_ne (ho.not_isChange (isChange_of_shared hv))).2
    obtain ⟨hnil, hopen⟩ := opened_concat_shared ho hv
    have htl := h.tl_eq_nil hnil
    have hins : rs.insertIntoRanges (rs.visiableTl.map fun id => rs.slot (.shared id))
        (some rs.next) e.pos (.ofHistoryVisibility "shared") =
          ⟨[⟨some rs.next, ⟨⟨e.pos, -1⟩, .start⟩⟩], true, true⟩ := by
      rw [htl]
      exact insertOpen_nil hne _
    unfold PointerState.insertHistoryVisibility
    dsimp only
    rw [hins]
    refine h.next hv ⟨h.unviewed.view, fun _ => rfl⟩ ?_ (.inl ⟨?_, rfl⟩)
    · rw [hopen]
      simp [PointerState.ranges, PointerState.cellAfter]
    · simp [OpenClose.ofHistoryVisibility]
  · rw [insertHistoryVisibility_neither hs hj]
    exact h.next hv h.unviewed (h.ranges.trans (opened_concat_of_ne hv hs).symm) (.inr ⟨rfl, rfl⟩)

theorem Counted.receive (h : Counted evs rs) (ho : OneChange (evs ++ [e]))
    (hhv : ∃ value, e.ev = .historyVisibility value) (hpos : 0 < e.pos)
    (hne : ∀ e' ∈ evs, e'.pos ≠ e.pos) : Counted (evs ++ [e]) (rs.receive backfill e) := by
  obtain ⟨value, hv⟩ := hhv
  by_cases hlive : backfill = false ∨ rs.historyVisibilityPos < e.pos
  · rw [receive_in_order hv hlive]
    exact h.in_order ho hv
  · rw [receive_late hv hlive]
    refine h.late ho hv fun hj => hlive (.inr ?_)
    -- nothing is after the end of the shared history
    rcases h.pos with hp | ⟨e', he', hp⟩
    · omega
    · have hle := ho.newest e (mem_append_right _ (mem_singleton_self e)) (hj ▸ hv) e'
        (mem_append_left _ he')
      have := hne e' he'
      omega

theorem counted_arrived (hhv : ∀ e ∈ evs, ∃ value, e.ev = .historyVisibility value)
    (hpos : ∀ e ∈ evs, 0 < e.pos) (hd : evs.Pairwise (·.pos ≠ ·.pos)) (ho : OneChange evs) :
    Counted evs (arrived createPos backfill evs) := by
  induction evs using reverseRecOn with
  | nil => exact Counted.created
  | append_singleton evs e ih =>
    rw [pairwise_append] at hd
    have hmem : e ∈ evs ++ [e] := mem_append_right _ (mem_singleton_self e)
    rw [arrived_concat]
    refine (ih (fun e' he' => hhv e' (mem_append_left _ he'))
      (fun e' he' => hpos e' (mem_append_left _ he')) hd.1 ho.left).receive ho (hhv e hmem)
        (hpos e hmem) fun e' he' => hd.2.2 e' he' e (mem_singleton_self e)

/-! ## Joins of one user -/

/-- The ranges of a view are the creation of the room and everything from `since` on. -/
structure Covers (createPos since : Int) (view : List Slot) : Prop where
  own : ∀ v ∈ view, v.id = none
  mask : ∀ v ∈ view, v.cell.pairMask ≠ .stop
  start : ∀ v ∈ view, v.cell.item = ⟨createPos, createPos⟩ ∨ since ≤ v.start
  least : ∃ v ∈ view, v.start = since
  has : ∀ p, (∃ v ∈ view, v.cell.item.has p = true) ↔ p = createPos ∨ since ≤ p

theorem has_iff {item : RangeItem} {p : Int} :
    item.has p = true ↔ item.start ≤ p ∧ (item.stop = -1 ∨ p ≤ item.stop) := by
  simp only [RangeItem.has, ge_iff_le, Bool.or_eq_true, Bool.and_eq_true, decide_eq_true_eq]
  tauto

section
variable {since ts : Int} {view : List Slot} {ins : Inserted} {v : Slot}

variable {before after : List Slot} {mask : PairMask}

section
variable (h : Covers createPos since view)
include h

theorem Covers.since_le_of_holds (hc : 0 ≤ createPos) (hts : createPos < ts) (hv : v ∈ view)
    (hin : v.Holds false ts) : since ≤ v.start := by
  rcases h.start v hv with he | hle
  · have hstop : v.stop = createPos := congrArg RangeItem.stop he
    rcases hin.2.2 with hlt | hopen <;> omega
  · exact hle

theorem Covers.since_le_of_le (hts : createPos < ts) (hv : v ∈ view) (hle : ts ≤ v.start) :
    since ≤ v.start := by
  rcases h.start v hv with he | hle'
  · have hstart : v.start = createPos := congrArg RangeItem.start he
    omega
  · exact hle'

theorem Covers.replace {old mid view' : List Slot} {since' : Int}
    (hview : view = before ++ old ++ after) (hview' : view' = before ++ mid ++ after)
    (hle : since' ≤ since)
    (hmid : ∀ v ∈ mid, v.id = none ∧ v.cell.pairMask ≠ .stop ∧ since' ≤ v.start)
    (hleast : (∃ v ∈ mid, v.start = since') ∨ since' = since ∧ ∀ v ∈ old, v.start ≠ since)
    (hold : ∀ v ∈ old, ∀ p, v.cell.item.has p = true → ∃ v' ∈ mid, v'.cell.item.has p = true)
    (hgap : ∀ p, since' ≤ p → since ≤ p ∨ ∃ v ∈ mid, v.cell.item.has p = true) :
    Covers createPos since' view' := by
  subst hview hview'
  have hin : ∀ v, v ∈ before ++ mid ++ after ↔ (v ∈ before ∨ v ∈ after) ∨ v ∈ mid := by
    intro v
    simp only [mem_append]
    tauto
  have hout : ∀ v, v ∈ before ++ old ++ after ↔ (v ∈ before ∨ v ∈ after) ∨ v ∈ old := by
    intro v
    simp only [mem_append]
    tauto
  have hkeep : ∀ p, (∃ v ∈ before ++ old ++ after, v.cell.item.has p = true) →
      ∃ v ∈ before ++ mid ++ after, v.cell.item.has p = true := by
    rintro p ⟨v, hv, hp⟩
    rcases (hout v).mp hv with hv | hv
    · exact ⟨v, (hin v).mpr (.inl hv), hp⟩
    · obtain ⟨v', hv', hp'⟩ := hold v hv p hp
      exact ⟨v', (hin v').mpr (.inr hv'), hp'⟩
  refine ⟨fun v hv => ?_, fun v hv => ?_, fun v hv => ?_, ?_, fun p => ⟨?_, ?_⟩⟩
  · rcases (hin v).mp hv with hv | hv
    · exact h.own v ((hout v).mpr (.inl hv))
    · exact (hmid v hv).1
  · rcases (hin v).mp hv with hv | hv
    · exact h.mask v ((hout v).mpr (.inl hv))
    · exact (hmid v hv).2.1
  · rcases (hin v).mp hv with hv | hv
    · exact (h.start v ((hout v).mpr (.inl hv))).imp_right (Int.le_trans hle)
    · exact .inr (hmid v hv).2.2
  · rcases hleast with ⟨v, hv, he⟩ | ⟨rfl, hne⟩
    · exact ⟨v, (hin v).mpr (.inr hv), he⟩
    · obtain ⟨v, hv, he⟩ := h.least
      rcases (hout v).mp hv with hv | hv
      · exact ⟨v, (hin v).mpr (.inl hv), he⟩
      · exact absurd he (hne v hv)
  · rintro ⟨v, hv, hp⟩
    rcases (hin v).mp hv with hv | hv
    · exact ((h.has p).mp ⟨v, (hout v).mpr (.inl hv), hp⟩).imp_right (Int.le_trans hle)
    · exact .inr (Int.le_trans (hmid v hv).2.2 (has_iff.mp hp).1)
  · rintro (hp | hp)
    · exact hkeep p ((h.has p).mpr (.inl hp))
    · rcases hgap p hp with hp | ⟨v, hv, hp⟩
      · exact hkeep p ((h.has p).mpr (.inr hp))
      · exact ⟨v, (hin v).mpr (.inr hv), hp⟩

theorem Covers.concat (hle : since ≤ ts) (hm : mask ≠ .stop) :
    Covers createPos since (view ++ [⟨none, ⟨⟨ts, -1⟩, mask⟩⟩]) := by
  have hview : view = view ++ [] ++ [] := by rw [append_nil, append_nil]
  refine h.replace hview (append_nil _).symm (Int.le_refl _) ?_
    (.inr ⟨rfl, forall_mem_nil _⟩) (forall_mem_nil _) fun p hp => .inl hp
  exact forall_mem_singleton.mpr ⟨rfl, hm, hle⟩

theorem Covers.cut (hview : view = before ++ v :: after) (hle : since ≤ v.start)
    (hin : v.Holds false ts) (hm : mask ≠ .stop) : Covers createPos since
      (before ++ ⟨v.id, ⟨⟨v.start, ts - 1⟩, .start⟩⟩ :: ⟨none, ⟨⟨ts, v.stop⟩, mask⟩⟩ :: after) := by
  have hid : v.id = none := h.own v (hview ▸ mem_append_right _ mem_cons_self)
  obtain ⟨-, hstart, hstop⟩ := hin
  refine h.replace (hview.trans (append_cons ..)) (append_assoc before [_, _] after).symm
    (Int.le_refl _) ?_ ?_ ?_ fun p hp => .inl hp
  · rw [forall_mem_cons, forall_mem_singleton]
    exact ⟨⟨hid, by simp, hle⟩, rfl, hm, Int.le_trans hle hstart⟩
  · by_cases he : v.start = since
    · exact .inl ⟨_, mem_cons_self, he⟩
    · exact .inr ⟨rfl, forall_mem_singleton.mpr he⟩
  · rw [forall_mem_singleton]
    intro p hp
    rw [has_iff] at hp
    by_cases hlt : p < ts
    · exact ⟨_, mem_cons_self, has_iff.mpr ⟨hp.1, .inr (by dsimp only; omega)⟩⟩
    · refine ⟨_, mem_cons_of_mem _ (mem_singleton_self _), has_iff.mpr ⟨?_, hp.2⟩⟩
      exact Int.not_lt.mp hlt

theorem Covers.upTo (hview : view = before ++ v :: after)
    (hleast : ts < since → v.start = since) :
    Covers createPos (min since ts)
      (before ++ ⟨none, ⟨⟨ts, v.start - 1⟩, .start⟩⟩ :: v :: after) := by
  have hview' : view = before ++ [] ++ v :: after := by rw [hview, append_nil]
  refine h.replace hview' (append_cons ..) (min_le_left _ _) ?_ ?_ (forall_mem_nil _) fun p hp => ?_
  · exact forall_mem_singleton.mpr ⟨rfl, by simp, min_le_right _ _⟩
  · by_cases hlt : ts < since
    · exact .inl ⟨_, mem_singleton_self _, (min_eq_right (Int.le_of_lt hlt)).symm⟩
    · exact .inr ⟨min_eq_left (Int.not_lt.mp hlt), forall_mem_nil _⟩
  · by_cases hge : since ≤ p
    · exact .inl hge
    · refine .inr ⟨_, mem_singleton_self _, has_iff.mpr ?_⟩
      exact ⟨by dsimp only; omega, .inr (by dsimp only; omega)⟩

theorem Covers.opened (hc : 0 ≤ createPos) (hts : createPos < ts)
    (ho : Opened rs view none ts ins) :
    Covers createPos (min since ts) ins.ranges := by
  cases ho with
  | start heq hin hmask =>
    exact absurd hmask (h.mask _ (heq ▸ mem_append_right _ mem_cons_self))
  | cut heq hin hmask =>
    have hle := h.since_le_of_holds hc hts (heq ▸ mem_append_right _ mem_cons_self) hin
    rw [min_eq_left (Int.le_trans hle hin.2.1)]
    refine h.cut heq hle hin ?_
    rw [hmask]
    split_ifs <;> simp
  | upTo heq hout hle hleast =>
    have hsince := h.since_le_of_le hts (heq ▸ mem_append_right _ mem_cons_self) hle
    refine h.upTo heq fun hlt => ?_
    obtain ⟨w, hw, he⟩ := h.least
    have := hleast (by omega) w hw (by omega)
    omega
  | last hout hlast =>
    obtain ⟨w, hw, he⟩ := h.least
    have := hlast (by omega) w hw
    rw [min_eq_left (by omega)]
    exact h.concat (by omega) (by simp)

end

theorem covers_first (hc : 0 ≤ createPos) (hm : mask ≠ .stop) : Covers createPos ts
      [⟨none, ⟨⟨createPos, createPos⟩, .none⟩⟩, ⟨none, ⟨⟨ts, -1⟩, mask⟩⟩] := by
  refine ⟨by simp, by simp [hm], by simp [Slot.start],
    ⟨_, mem_cons_of_mem _ (mem_singleton_self _), rfl⟩, fun p => ?_⟩
  simp only [mem_cons, not_mem_nil, or_false, exists_eq_or_imp, exists_eq_left, has_iff,
    true_or, and_true]
  omega

structure Quiet (createPos : Int) (user : String) (rs : PointerState) : Prop where
  value : rs.historyVisibility = ""
  tl : rs.visiableTl = []
  ok : ∀ u, rs.userMemberViewOk u = false
  others : ∀ u ≠ user, rs.userMemberView u = none
  create : rs.createPos = createPos

structure JoinedSince (createPos since : Int) (user : String) (rs : PointerState) : Prop
    extends Quiet createPos user rs where
  cur : ∃ cur, rs.curMemberState user = some cur ∧ since ≤ cur
  view : ∃ view, rs.userMemberView user = some (view.map Slot.ref) ∧ Covers createPos since view

theorem quiet_created : Quiet createPos user (.created createPos) :=
  ⟨rfl, rfl, fun _ => rfl, fun _ _ => rfl, rfl⟩

theorem addHistory_of_nil (h : rs.visiableTl = []) (items : List Ref) :
    rs.addHistory items = items := by
  rw [addHistory, h]
  rfl

theorem item_ref (hv : v.id = none) : rs.item v.ref = v.cell.item := by
  rw [Slot.ref, hv]
  rfl

theorem slot_ref (hv : v.id = none) : rs.slot v.ref = v := by
  obtain ⟨id, cell⟩ := v
  obtain rfl : id = none := hv
  rfl

theorem JoinedSince.check (h : JoinedSince createPos since user rs) (u : String) (p : Int) :
    (rs.checkEventVisibility u p).1 = true ↔ u = user ∧ (p = createPos ∨ since ≤ p) := by
  rw [check_eq, h.ok u, if_neg (by simp), addHistory_of_nil h.tl, items]
  by_cases hu : u = user
  · obtain ⟨view, hv, hcov⟩ := h.view
    rw [hu, hv, ← hcov.has p]
    simp only [Option.getD_some, any_map, any_eq_true, true_and, comp_apply]
    refine exists_congr fun v => and_congr_right fun hmem => ?_
    rw [item_ref (hcov.own v hmem)]
  · rw [h.others u hu]
    simp [hu]

theorem Covers.isEmpty_map_ref (h : Covers createPos since view) :
    (view.map Slot.ref).isEmpty = false := by
  obtain ⟨v, hv, -⟩ := h.least
  cases view with
  | nil => cases hv
  | cons _ _ => rfl

theorem Covers.map_slot_ref (h : Covers createPos since view) :
    (view.map Slot.ref).map rs.slot = view := by
  calc (view.map Slot.ref).map rs.slot
    _ = view.map (rs.slot ∘ Slot.ref) := map_map
    _ = view.map id := map_congr_left fun v hv => slot_ref (h.own v hv)
    _ = view := map_id _

theorem Quiet.write {cur : Int} {rs' : PointerState} (h : Quiet createPos user rs)
    (hview : rs'.userMemberView = update rs.userMemberView user (some (view.map Slot.ref)))
    (hcov : Covers createPos since view) (hcur : rs'.curMemberState user = some cur ∧ since ≤ cur)
    (hsame : rs'.historyVisibility = rs.historyVisibility ∧ rs'.visiableTl = rs.visiableTl ∧
      rs'.userMemberViewOk = rs.userMemberViewOk ∧ rs'.createPos = rs.createPos) :
    JoinedSince createPos since user rs' := by
  obtain ⟨hval, htl, hok, hcr⟩ := hsame
  refine ⟨⟨hval.trans h.value, htl.trans h.tl, fun u => hok ▸ h.ok u, fun u hu => ?_,
    hcr.trans h.create⟩, ⟨cur, hcur⟩, view, ?_, hcov⟩
  · rw [hview, update_of_ne hu, h.others u hu]
  · rw [hview, update_self]

theorem Quiet.insertMember (h : Quiet createPos user rs)
    (hins : rs.insertOpen ((if (rs.items user).isEmpty then
      [.own ⟨⟨rs.createPos, rs.createPos⟩, .none⟩] else rs.items user).map rs.slot) none ts = ins)
    (hcov : Covers createPos since ins.ranges) (hle : since ≤ ts)
    (hcur : ins.isLastOne = false → ∃ cur, rs.curMemberState user = some cur ∧ since ≤ cur) :
    JoinedSince createPos since user (rs.insertMember user "join" ts) := by
  have heq : rs.insertMember user "join" ts = { rs.storeView user (ins.ranges.map Slot.ref) with
      curMemberState := if ins.isLastOne then update rs.curMemberState user (some ts)
        else rs.curMemberState } := hins ▸ rfl
  rw [heq]
  split_ifs with hlast
  · exact h.write rfl hcov ⟨update_self .., hle⟩ ⟨rfl, rfl, rfl, rfl⟩
  · obtain ⟨cur, hcur⟩ := hcur (Bool.eq_false_iff.mpr hlast)
    exact h.write rfl hcov hcur ⟨rfl, rfl, rfl, rfl⟩

theorem JoinedSince.insertMember (h : JoinedSince createPos since user rs) (hc : 0 ≤ createPos)
    (hts : createPos < ts) :
    JoinedSince createPos (min since ts) user (rs.insertMember user "join" ts) := by
  obtain ⟨view, hv, hcov⟩ := h.view
  obtain ⟨cur, hcur, hle⟩ := h.cur
  have hitems : rs.items user = view.map Slot.ref := by rw [items, hv]; rfl
  refine h.toQuiet.insertMember ?_ (hcov.opened hc hts (insertOpen_spec rs view none ts))
    (min_le_right _ _) fun _ => ⟨cur, hcur, Int.le_trans (min_le_left _ _) hle⟩
  rw [hitems, hcov.isEmpty_map_ref, if_neg (by simp), hcov.map_slot_ref]

theorem JoinedSince.liveMember (h : JoinedSince createPos since user rs) (hle : since ≤ ts)
    (offset : Int) : JoinedSince createPos since user (rs.liveMember user "join" ts offset) := by
  obtain ⟨view, hv, hcov⟩ := h.view
  have hitems : rs.items user = view.map Slot.ref := by rw [items, hv]; rfl
  rw [PointerState.liveMember, onMembership_eq, PointerState.memberRanges, if_neg (by simp)]
  by_cases hj : rs.members.join user = none
  · have hview : rs.joinView user ts =
        (view ++ [(⟨none, ⟨⟨ts, -1⟩, .none⟩⟩ : Slot)]).map Slot.ref := by
      unfold joinView
      dsimp only
      rw [hitems, hcov.isEmpty_map_ref, if_neg (by simp), addHistory_of_nil h.tl, h.value,
        if_neg (by decide), map_append]
      rfl
    rw [if_pos ⟨rfl, hj⟩, hview]
    exact h.write rfl (hcov.concat hle (by simp)) ⟨update_self .., hle⟩ ⟨rfl, rfl, rfl, rfl⟩
  · rw [if_neg fun hh => hj hh.2]
    refine h.write ?_ hcov ⟨update_self .., hle⟩ ⟨rfl, rfl, rfl, rfl⟩
    rw [← hv, update_eq_self]

theorem joinedSince_live (hc : 0 ≤ createPos) (offset : Int) : JoinedSince createPos ts user
    ((created createPos).liveMember user "join" ts offset) := by
  exact quiet_created.write rfl (covers_first hc (by simp))
    ⟨update_self .., Int.le_refl _⟩ ⟨rfl, rfl, rfl, rfl⟩

theorem opened_first (hc : 0 ≤ createPos) (hts : createPos < ts)
    (ho : Opened rs [⟨none, ⟨⟨createPos, createPos⟩, .none⟩⟩] none ts ins) :
    ins = ⟨[⟨none, ⟨⟨createPos, createPos⟩, .none⟩⟩, ⟨none, ⟨⟨ts, -1⟩, .start⟩⟩], true, true⟩ := by
  have hone : ∀ {before after : List Slot} {v : Slot},
      [(⟨none, ⟨⟨createPos, createPos⟩, .none⟩⟩ : Slot)] = before ++ v :: after →
        v = ⟨none, ⟨⟨createPos, createPos⟩, .none⟩⟩ := by
    intro before after v heq
    have hv : v ∈ [(⟨none, ⟨⟨createPos, createPos⟩, .none⟩⟩ : Slot)] :=
      heq ▸ mem_append_right _ mem_cons_self
    exact mem_singleton.mp hv
  cases ho with
  | start heq hin | cut heq hin =>
    obtain ⟨-, -, hstop⟩ := hone heq ▸ hin
    dsimp only [Slot.stop] at hstop
    omega
  | upTo heq hout hle =>
    have hle' := hone heq ▸ hle
    dsimp only [Slot.start] at hle'
    omega
  | last => rfl

theorem joinedSince_insert (hc : 0 ≤ createPos) (hts : createPos < ts) :
    JoinedSince createPos ts user
      ((PointerState.created createPos).insertMember user "join" ts) := by
  have hins := opened_first hc hts (insertOpen_spec (.created createPos) _ none ts)
  exact quiet_created.insertMember hins (covers_first hc (by simp)) (Int.le_refl _) nofun

theorem JoinedSince.receive (h : JoinedSince createPos since user rs) (hc : 0 ≤ createPos)
    (hev : e.ev = .member user "join") (hpos : createPos < e.pos)
    (hlive : backfill = false → since ≤ e.pos) :
    JoinedSince createPos (min since e.pos) user (rs.receive backfill e) := by
  rw [PointerState.receive, hev]
  by_cases hl : (!backfill || rs.newer user e.pos) = true
  · have hle : since ≤ e.pos := by
      rcases Bool.or_eq_true_iff.mp hl with hb | hn
      · exact hlive (by simpa using hb)
      · obtain ⟨cur, hcur, hle⟩ := h.cur
        rw [newer, hcur] at hn
        exact Int.le_trans hle (Int.le_of_lt (of_decide_eq_true hn))
    have he : rs.onEvent (.member user "join") e.pos e.offset backfill =
        rs.liveMember user "join" e.pos e.offset := if_pos hl
    rw [he, min_eq_left hle]
    exact h.liveMember hle e.offset
  · have he : rs.onEvent (.member user "join") e.pos e.offset backfill =
        rs.insertMember user "join" e.pos := if_neg hl
    rw [he]
    exact h.insertMember hc hpos

theorem joinedSince_receive (hc : 0 ≤ createPos) (hev : e.ev = .member user "join")
    (hpos : createPos < e.pos) (backfill : Bool) : JoinedSince createPos e.pos user
      ((created createPos).receive backfill e) := by
  rw [receive, hev]
  cases backfill with
  | false => exact joinedSince_live hc e.offset
  | true => exact joinedSince_insert hc hpos

theorem joined_of_joins (backfill : Bool) (hc : 0 ≤ createPos)
    (hev : ∀ e ∈ evs, e.ev = .member user "join") (hpos : ∀ e ∈ evs, createPos < e.pos)
    (horder : backfill = false → evs.Pairwise (·.pos < ·.pos)) (hne : evs ≠ []) :
    ∃ first ∈ evs, (∀ e ∈ evs, first.pos ≤ e.pos) ∧
      JoinedSince createPos first.pos user (arrived createPos backfill evs) := by
  induction evs using reverseRecOn with
  | nil => exact absurd rfl hne
  | append_singleton evs e ih =>
    have hmem : e ∈ evs ++ [e] := mem_append_right _ (mem_singleton_self e)
    rw [arrived_concat]
    by_cases hnil : evs = []
    · subst hnil
      refine ⟨e, hmem, fun e' he' => ?_, joinedSince_receive hc (hev e hmem) (hpos e hmem) backfill⟩
      rw [mem_singleton.mp he']
    · obtain ⟨first, hf, hfirst, hj⟩ := ih (fun e' he' => hev e' (mem_append_left _ he'))
        (fun e' he' => hpos e' (mem_append_left _ he'))
        (fun hb => (pairwise_append.mp (horder hb)).1) hnil
      have hnext := hj.receive hc (hev e hmem) (hpos e hmem) fun hb => Int.le_of_lt
        ((pairwise_append.mp (horder hb)).2.2 first hf e (mem_singleton_self e))
      have hall : ∀ {first' : Timed}, first'.pos = min first.pos e.pos →
          ∀ e' ∈ evs ++ [e], first'.pos ≤ e'.pos := by
        intro first' hmin e' he'
        rcases mem_append.mp he' with he' | he'
        · have := hfirst e' he'
          omega
        · rw [mem_singleton.mp he']
          omega
      rcases Int.le_total first.pos e.pos with hle | hle
      · have hmin := min_eq_left hle
        exact ⟨first, mem_append_left _ hf, hall hmin.symm, hmin ▸ hnext⟩
      · have hmin := min_eq_right hle
        exact ⟨e, hmem, hall hmin.symm, hmin ▸ hnext⟩

end

/-! ## The same as live -/

/-- Changes of the history visibility, in their order or with at most one that opens or closes the
history, or joins of one user after the creation of the room. -/
def Orderly (createPos : Int) (evs : List Timed) : Prop :=
  ((∀ e ∈ evs, ∃ value, e.ev = .historyVisibility value) ∧ (∀ e ∈ evs, 0 < e.pos) ∧
      (evs.Pairwise (·.pos < ·.pos) ∨ OneChange evs)) ∨
    0 ≤ createPos ∧ (∃ user, ∀ e ∈ evs, e.ev = .member user "join") ∧ ∀ e ∈ evs, createPos < e.pos

theorem OneChange.perm (h : OneChange evs) (hp : evs.Perm sorted) : OneChange sorted :=
  ⟨(hp.filter Timed.isChange).length_eq ▸ h.one, fun e he hj e' he' =>
    h.newest e (hp.mem_iff.mpr he) hj e' (hp.mem_iff.mpr he')⟩

theorem opened_eq_of_perm (h : OneChange evs) (hp : evs.Perm sorted) :
    opened sorted = opened evs := by
  have hperm : (opened evs).Perm (opened sorted) := hp.filterMap _
  have hlen := h.length_opened
  cases ho : opened evs with
  | nil => exact nil_perm.mp (ho ▸ hperm)
  | cons r l =>
    rw [ho, length_cons] at hlen
    obtain rfl : l = [] := length_eq_zero_iff.mp (by omega)
    exact (singleton_perm.mp (ho ▸ hperm)).symm

/-- Everybody sees the same after backfilled events as after the same events, live in the order of
their positions. -/
theorem backfill_eq_live (hs : Orderly createPos evs) (hp : evs.Perm sorted)
    (horder : sorted.Pairwise (·.pos < ·.pos)) (user : String) (pos : Int) :
    ((arrived createPos true evs).checkEventVisibility user pos).1 =
      ((arrived createPos false sorted).checkEventVisibility user pos).1 := by
  rcases hs with ⟨hhv, hpos, hin | hone⟩ | ⟨hc, ⟨u, hev⟩, hpos⟩
  · obtain rfl : evs = sorted :=
      hp.eq_of_pairwise (fun a b _ _ hab hba => by omega) hin horder
    rw [arrived, arrived_in_order hhv hin fun e he => hpos e he]
    rfl
  · have hhv' : ∀ e ∈ sorted, ∃ value, e.ev = .historyVisibility value :=
      fun e he => hhv e (hp.mem_iff.mpr he)
    have hpos' : ∀ e ∈ sorted, 0 < e.pos := fun e he => hpos e (hp.mem_iff.mpr he)
    have hd := horder.imp fun h => Int.ne_of_lt h
    have hback : Counted evs (arrived createPos true evs) :=
      counted_arrived hhv hpos (hp.symm.pairwise hd fun h => h.symm) hone
    have hlive : Counted sorted (arrived createPos false sorted) :=
      counted_arrived hhv' hpos' hd (hone.perm hp)
    rw [hback.unviewed.check, hlive.unviewed.check, hback.ranges, hlive.ranges,
      opened_eq_of_perm hone hp]
  · by_cases hne : evs = []
    · subst hne
      rw [nil_perm.mp hp]
      rfl
    · have hne' : sorted ≠ [] := fun h => hne (perm_nil.mp (h ▸ hp))
      obtain ⟨first, hf, hmin, hback⟩ := joined_of_joins true hc hev hpos (by simp) hne
      obtain ⟨first', hf', hmin', hlive⟩ := joined_of_joins false hc
        (fun e he => hev e (hp.mem_iff.mpr he)) (fun e he => hpos e (hp.mem_iff.mpr he))
        (fun _ => horder) hne'
      have heq := Int.le_antisymm (hmin _ (hp.mem_iff.mpr hf')) (hmin' _ (hp.mem_iff.mp hf))
      rw [Bool.eq_iff_iff, hback.check, hlive.check, heq]

def lateJoins : List Timed :=
  [⟨.member "@u:x" "join", 30, 3⟩, ⟨.member "@u:x" "join", 10, 1⟩,
    ⟨.member "@u:x" "join", 20, 2⟩]

theorem backfill_eq_live_lateJoins : Orderly 1 lateJoins ∧
    ((arrived 1 true lateJoins).checkEventVisibility "@u:x" 15).1 =
      ((arrived 1 false [⟨.member "@u:x" "join", 10, 1⟩, ⟨.member "@u:x" "join", 20, 2⟩,
        ⟨.member "@u:x" "join", 30, 3⟩]).checkEventVisibility "@u:x" 15).1 := by
  have hs : Orderly 1 lateJoins := .inr ⟨by decide, ⟨"@u:x", by decide⟩, by decide⟩
  exact ⟨hs, backfill_eq_live hs (by decide) (by decide) _ _⟩

/-- The history is shared and then not; if the end arrives first, the event that ended it is seen. A
backfilled join does not enter its user into the room, so that the leave after it ends nothing. -/
theorem backfill_differs :
    ((arrived 1 true [⟨.historyVisibility "joined", 9, 2⟩,
      ⟨.historyVisibility "shared", 5, 1⟩]).checkEventVisibility "@w:x" 9).1 = true ∧
    ((arrived 1 true [⟨.historyVisibility "shared", 5, 1⟩,
      ⟨.historyVisibility "joined", 9, 2⟩]).checkEventVisibility "@w:x" 9).1 = false ∧
    ((arrived 1 false [⟨.historyVisibility "shared", 5, 1⟩,
      ⟨.historyVisibility "joined", 9, 2⟩]).checkEventVisibility "@w:x" 9).1 = false ∧
    ((arrived 1 true [⟨.member "@u:x" "join", 10, 1⟩,
      ⟨.member "@u:x" "leave", 20, 2⟩]).checkEventVisibility "@u:x" 25).1 = true ∧
    ((arrived 1 false [⟨.member "@u:x" "join", 10, 1⟩,
      ⟨.member "@u:x" "leave", 20, 2⟩]).checkEventVisibility "@u:x" 25).1 = false := by
  decide

end

end Ligase.Sync

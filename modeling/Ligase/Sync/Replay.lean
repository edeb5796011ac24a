import Ligase.Lib.Run
import Ligase.Sync.Visibility

/-!
# Replays of a room

A room is replayed: member events and changes of the history visibility at positions that do not
decrease, and queries.

* **`WF.step`**: the shared ranges are in order, and the view of a user who is in the room ends with
  an open range of the user's own and covers all shared ranges.
-/

namespace Ligase.Sync

open Lib RoomState List Function Option

/-! ## Replays -/

inductive Op where
  | member (user membership : String) (pos offset : Int)
  | historyVisibility (value : String) (pos : Int)
  | query (user : String) (pos : Int)
  deriving DecidableEq

structure Replay where
  rs : RoomState
  now : Int

def Replay.start (createPos : Int) : Replay := ⟨.created createPos, createPos⟩

def replay (s : Replay) : Op → Option Replay
  | .member user membership pos offset =>
    if s.now ≤ pos then some ⟨s.rs.onMembership user membership pos offset, pos⟩ else none
  | .historyVisibility value pos =>
    if s.now ≤ pos ∧ (value = "shared" ∨ value = "joined") then
      some ⟨s.rs.onHistoryVisibility value pos, pos⟩
    else none
  | .query user pos => some ⟨(s.rs.checkEventVisibility user pos).2, s.now⟩

section
variable {rs : RoomState} {s s' : Replay} {op : Op} {user u membership value : String}
  {pos offset now t : Int} {e : Entry} {v : List Entry}

/-! ## Membership changes -/

variable {past : List RangeItem} {r : RangeItem} {items : List Entry} {rs' : RoomState}

theorem onUserMembershipChange_members {m : Members} {pre : String} :
    ({ rs with members := m }).onUserMembershipChange user pre membership pos =
      { rs.onUserMembershipChange user pre membership pos with members := m } := by
  unfold onUserMembershipChange endLast
  dsimp only [items]
  split_ifs <;> first | rfl | (split <;> rfl)

/-- A join of a user who is not in the room builds a view, a leave or ban of one who is ends the
last range, and everything else changes the maps only. -/
theorem onMembership_cases (rs : RoomState) (user membership : String) (pos offset : Int) :
    (membership = "join" ∧ rs.members.join user = none ∧
      rs.onMembership user membership pos offset = { rs.storeView user (rs.joinView user pos) with
          members := rs.members.update user membership offset }) ∨
    ((membership = "leave" ∨ membership = "ban") ∧ (rs.members.join user).isSome = true ∧
      rs.onMembership user membership pos offset =
        { rs.endLast user (if (rs.items user).isEmpty then [.own ⟨rs.createPos, -1⟩]
            else rs.items user) pos with members := rs.members.update user membership offset }) ∨
    ((membership = "join" → (rs.members.join user).isSome = true) ∧
      (membership = "leave" ∨ membership = "ban" → rs.members.join user = none) ∧
      rs.onMembership user membership pos offset =
        { rs with members := rs.members.update user membership offset }) := by
  unfold onMembership
  dsimp only
  rw [onUserMembershipChange_members]
  cases hj : rs.members.join user with
  | none =>
    have hpre : rs.members.preMembership user ≠ "join" := by
      rw [Ne, Members.preMembership_eq_join, hj]
      simp
    by_cases hm : membership = "join"
    · refine .inl ⟨hm, rfl, ?_⟩
      rw [if_pos (hm ▸ hpre.symm), onUserMembershipChange, hm]
      rfl
    · refine .inr (.inr ⟨fun h => absurd h hm, fun _ => rfl, ?_⟩)
      rw [onUserMembershipChange]
      simp only [hm, hpre, if_false, ite_self]
  | some off =>
    have hpre : rs.members.preMembership user = "join" := by
      rw [Members.preMembership_eq_join, hj]
      rfl
    by_cases hl : membership = "leave" ∨ membership = "ban"
    · have hne : membership ≠ "join" := by rcases hl with rfl | rfl <;> decide
      refine .inr (.inl ⟨hl, rfl, ?_⟩)
      rw [hpre, if_pos hne, onUserMembershipChange, if_pos hl, if_pos rfl]
    · refine .inr (.inr ⟨fun _ => rfl, fun h => absurd h hl, ?_⟩)
      rw [hpre, onUserMembershipChange, if_neg hl]
      by_cases hm : membership = "join" <;> simp [hm]

/-! ## Shared ranges -/

def Entry.Valid (tl : List RangeItem) : Entry → Prop
  | .own _ => True
  | .tl i => i < tl.length

/-- The shared ranges become more, and some that was open may be ended before `pos`. -/
structure Grown (pos : Int) (tl tl' : List RangeItem) : Prop where
  old : ∀ e : Entry, e.Valid tl → e.Valid tl' ∧ (deref tl' e = deref tl e ∨
    (deref tl e).stop = -1 ∧ deref tl' e = { deref tl e with stop := pos - 1 })
  new : ∀ i < tl'.length, i < tl.length ∨ (deref tl' (.tl i)).stop = -1

theorem Grown.refl {tl : List RangeItem} : Grown pos tl tl :=
  ⟨fun _ he => ⟨he, .inl rfl⟩, fun _ hi => .inl hi⟩

def openRange (rs : RoomState) : List RangeItem :=
  if rs.historyVisibility = "shared" then [⟨rs.historyVisibilityPos, -1⟩] else []

theorem deref_append_left {rest : List RangeItem} (h : e.Valid past) :
    deref (past ++ rest) e = deref past e := by
  cases e with
  | own item => rfl
  | tl i => simp only [deref, getElem?_append_left h]

theorem deref_append_self {rest : List RangeItem} :
    deref (past ++ r :: rest) (.tl past.length) = r := by
  simp [deref]

theorem mem_of_valid {tl : List RangeItem} {i : Nat} (h : i < tl.length) :
    deref tl (.tl i) ∈ tl := by
  simp [deref, h]

/-! ## Well-formed rooms -/

structure JoinedView (now : Int) (rs : RoomState) (v : List Entry) : Prop where
  last : ∃ items ri, v = items ++ [.own ri] ∧ ri.stop = -1 ∧ ri.start ≤ now ∧
    (rs.historyVisibility = "shared" → ri.start ≤ rs.historyVisibilityPos)
  covered : ∀ i < rs.visiableTl.length,
    ∃ c ∈ v, (deref rs.visiableTl c).covers (deref rs.visiableTl (.tl i)) = true

structure Ranges (now : Int) (rs : RoomState) (past : List RangeItem) : Prop where
  eq : rs.visiableTl = past ++ openRange rs
  ended : ∀ r ∈ past, r.start ≤ now ∧ 0 ≤ r.stop ∧ r.stop < now
  value : rs.historyVisibility = "" ∧ past = [] ∨ rs.historyVisibility = "joined" ∨
    rs.historyVisibility = "shared"
  pos : rs.historyVisibility = "shared" →
    rs.createPos ≤ rs.historyVisibilityPos ∧ rs.historyVisibilityPos ≤ now

structure WF (s : Replay) : Prop where
  createPos : 1 ≤ s.rs.createPos ∧ s.rs.createPos ≤ s.now
  ranges : ∃ past, Ranges s.now s.rs past
  valid : ∀ user v, s.rs.userMemberView user = some v → ∀ e ∈ v, e.Valid s.rs.visiableTl
  joined : ∀ user, (s.rs.members.join user).isSome = true →
    ∃ v, s.rs.userMemberView user = some v ∧ JoinedView s.now s.rs v

theorem wf_start (h : 1 ≤ pos) : WF (.start pos) where
  createPos := ⟨h, Int.le_refl _⟩
  ranges := ⟨[], rfl, nofun, .inl ⟨rfl, rfl⟩, by simp [Replay.start, created]⟩
  valid := nofun
  joined := nofun

section
variable (h : Ranges now rs past) (hr : r ∈ rs.visiableTl)
include h hr

theorem Ranges.mem_cases : (r.start ≤ now ∧ 0 ≤ r.stop ∧ r.stop < now) ∨
      rs.historyVisibility = "shared" ∧ r = ⟨rs.historyVisibilityPos, -1⟩ := by
  rw [h.eq, mem_append] at hr
  refine hr.imp (h.ended r) fun hr => ?_
  unfold openRange at hr
  split_ifs at hr with hv
  · exact ⟨hv, mem_singleton.mp hr⟩
  · cases hr

theorem Ranges.eq_open (hs : r.stop = -1) :
    rs.historyVisibility = "shared" ∧ r.start = rs.historyVisibilityPos := by
  rcases h.mem_cases hr with hr | ⟨hv, rfl⟩
  · omega
  · exact ⟨hv, rfl⟩

theorem Ranges.closed (hs : r.stop ≠ -1) : r.start ≤ now ∧ 0 ≤ r.stop ∧ r.stop < now :=
  (h.mem_cases hr).resolve_right fun ⟨_, he⟩ => hs (congrArg RangeItem.stop he)

end

theorem Ranges.mono (h : Ranges now rs past) (hp : now ≤ pos) : Ranges pos rs past where
  eq := h.eq
  ended r hr := by
    have := h.ended r hr
    omega
  value := h.value
  pos hv := by
    have := h.pos hv
    omega

theorem modify_concat (f : RangeItem → RangeItem) (past : List RangeItem) (r : RangeItem) :
    (past ++ [r]).modify past.length f = past ++ [f r] := by
  induction past with
  | nil => rfl
  | cons a past ih => simp [ih]

theorem Ranges.shared (h : Ranges now rs past)
    (hc : rs.createPos ≤ now) (hp : now ≤ pos) (hv : rs.historyVisibility ≠ "shared") :
    Grown pos rs.visiableTl (rs.onHistoryVisibility "shared" pos).visiableTl ∧
      Ranges pos (rs.onHistoryVisibility "shared" pos) past := by
  have htl : rs.visiableTl = past := by
    rw [h.eq, openRange, if_neg hv, append_nil]
  have hrs : rs.onHistoryVisibility "shared" pos = { rs with
      visiableTl := past ++ [⟨pos, -1⟩], historyVisibility := "shared",
      historyVisibilityPos := pos } := by
    rw [onHistoryVisibility, if_pos hv, htl]
    rfl
  rw [hrs, htl]
  refine ⟨⟨?_, ?_⟩, ?_⟩
  · intro e he
    refine ⟨?_, .inl (deref_append_left he)⟩
    cases e with
    | own item => trivial
    | tl i => exact Nat.lt_of_lt_of_le he (by simp)
  · intro i hi
    rw [length_append, length_singleton] at hi
    rcases Nat.lt_succ_iff_lt_or_eq.mp hi with hi | rfl
    · exact .inl hi
    · rw [deref_append_self]
      exact .inr rfl
  · exact ⟨rfl, (h.mono hp).ended, .inr (.inr rfl), fun _ => ⟨Int.le_trans hc hp, Int.le_refl pos⟩⟩

theorem Ranges.unshared (h : Ranges now rs past)
    (hc : 1 ≤ rs.createPos) (hp : now ≤ pos) (hv : rs.historyVisibility = "shared") :
    Grown pos rs.visiableTl (rs.onHistoryVisibility "joined" pos).visiableTl ∧
      Ranges pos (rs.onHistoryVisibility "joined" pos)
        (past ++ [⟨rs.historyVisibilityPos, pos - 1⟩]) := by
  have htl : rs.visiableTl = past ++ [⟨rs.historyVisibilityPos, -1⟩] := by
    rw [h.eq, openRange, if_pos hv]
  have hrs : rs.onHistoryVisibility "joined" pos = { rs with
      visiableTl := past ++ [⟨rs.historyVisibilityPos, pos - 1⟩], historyVisibility := "joined",
      historyVisibilityPos := pos } := by
    rw [onHistoryVisibility, hv, htl, length_append, length_singleton,
      Nat.add_sub_cancel, modify_concat]
    rfl
  rw [hrs, htl]
  refine ⟨⟨?_, fun i hi => .inl (by simpa using hi)⟩, ?_⟩
  · intro e he
    cases e with
    | own item => exact ⟨trivial, .inl rfl⟩
    | tl i =>
      have hlen : i < past.length + 1 := by simpa [Entry.Valid] using he
      refine ⟨by simpa [Entry.Valid] using he, ?_⟩
      rcases Nat.lt_succ_iff_lt_or_eq.mp hlen with hi | rfl
      · left
        rw [deref_append_left (e := .tl i) hi, deref_append_left (e := .tl i) hi]
      · right
        rw [deref_append_self, deref_append_self]
        exact ⟨rfl, rfl⟩
  · have hpos := h.pos hv
    refine ⟨by simp [openRange], ?_, .inr (.inl rfl), by simp⟩
    intro r hr
    rcases mem_append.mp hr with hr | hr
    · exact (h.mono hp).ended r hr
    · rw [mem_singleton.mp hr]
      dsimp only
      omega

theorem Ranges.onHistoryVisibility (h : Ranges now rs past)
    (hc : 1 ≤ rs.createPos ∧ rs.createPos ≤ now) (hp : now ≤ pos)
    (hv : value = "shared" ∨ value = "joined") :
    Grown pos rs.visiableTl (rs.onHistoryVisibility value pos).visiableTl ∧
      ∃ past', Ranges pos (rs.onHistoryVisibility value pos) past' := by
  by_cases he : rs.historyVisibility = value
  · have hrs : rs.onHistoryVisibility value pos = rs := by
      rw [RoomState.onHistoryVisibility, if_neg (not_not.mpr he)]
    rw [hrs]
    exact ⟨.refl, past, h.mono hp⟩
  · rcases hv with rfl | rfl
    · exact ⟨(h.shared hc.2 hp he).1, past, (h.shared hc.2 hp he).2⟩
    · rcases h.value with ⟨hv, rfl⟩ | hv | hv
      · have htl : rs.visiableTl = [] := by rw [h.eq, openRange, hv]; rfl
        have hrs : rs.onHistoryVisibility "joined" pos = { rs with
            historyVisibility := "joined", historyVisibilityPos := pos } := by
          rw [onHistoryVisibility, if_pos he, htl]
          rfl
        rw [hrs]
        exact ⟨.refl, [], htl, nofun, .inr (.inl rfl), by simp⟩
      · exact absurd hv he
      · exact ⟨(h.unshared hc.1 hp hv).1, _, (h.unshared hc.1 hp hv).2⟩

theorem start_le_onHistoryVisibility {x : Int} (value : String) (hx : x ≤ now) (hp : now ≤ pos)
    (h : rs.historyVisibility = "shared" → x ≤ rs.historyVisibilityPos) :
    (rs.onHistoryVisibility value pos).historyVisibility = "shared" →
      x ≤ (rs.onHistoryVisibility value pos).historyVisibilityPos := by
  unfold onHistoryVisibility
  by_cases he : rs.historyVisibility ≠ value
  · rw [if_pos he]
    exact fun _ => Int.le_trans hx hp
  · rw [if_neg he]
    exact h

theorem covers_iff {cur item : RangeItem} : cur.covers item = true ↔
    cur.start ≤ item.start ∧ (cur.stop = -1 ∨ item.stop ≤ cur.stop) := by
  simp [RangeItem.covers]

theorem JoinedView.onHistoryVisibility (hr : Ranges now rs past)
    (hc : 1 ≤ rs.createPos ∧ rs.createPos ≤ now) (hp : now ≤ pos)
    (hval : value = "shared" ∨ value = "joined") (hvalid : ∀ e ∈ v, e.Valid rs.visiableTl)
    (h : JoinedView now rs v) : JoinedView pos (rs.onHistoryVisibility value pos) v := by
  obtain ⟨hg, past', hr'⟩ := hr.onHistoryVisibility hc hp hval
  obtain ⟨items, ri, rfl, hstop, hstart, hopen⟩ := h.last
  have hopen' := start_le_onHistoryVisibility value hstart hp hopen
  refine ⟨⟨items, ri, rfl, hstop, Int.le_trans hstart hp, hopen'⟩, fun i hi => ?_⟩
  -- what starts in the range of the membership is covered by it
  by_cases hle : ri.start ≤ (deref (rs.onHistoryVisibility value pos).visiableTl (.tl i)).start
  · exact ⟨.own ri, by simp, covers_iff.mpr ⟨hle, .inl hstop⟩⟩
  · have hne : (deref (rs.onHistoryVisibility value pos).visiableTl (.tl i)).stop ≠ -1 := by
      intro hs
      obtain ⟨hv, hst⟩ := hr'.eq_open (mem_of_valid hi) hs
      exact hle (hst ▸ hopen' hv)
    have hi₀ := (hg.new i hi).resolve_right hne
    -- the range was there and had ended, so that it has not changed
    have hsame : deref (rs.onHistoryVisibility value pos).visiableTl (.tl i) =
        deref rs.visiableTl (.tl i) := by
      refine (hg.old (.tl i) hi₀).2.resolve_right fun ⟨hs, he⟩ => hle ?_
      obtain ⟨hv, hst⟩ := hr.eq_open (mem_of_valid hi₀) hs
      rw [he]
      exact hst ▸ hopen hv
    rw [hsame] at hne ⊢
    obtain ⟨c, hcm, hcov⟩ := h.covered i hi₀
    rw [covers_iff] at hcov
    refine ⟨c, hcm, covers_iff.mpr ?_⟩
    rcases (hg.old c (hvalid c hcm)).2 with he | ⟨-, he⟩
    · rwa [he]
    · rw [he]
      have := hr.closed (mem_of_valid hi₀) hne
      exact ⟨hcov.1, .inr (by dsimp only; omega)⟩

/-! ## Adding the shared history -/

theorem addHistory_eq_append (rs : RoomState) (items : List Entry) :
    ∃ added, rs.addHistory items = items ++ added ∧ ∀ e ∈ added,
      ∃ i < rs.visiableTl.length, e = .tl i ∧
        ∀ c ∈ items, (deref rs.visiableTl c).covers (deref rs.visiableTl (.tl i)) = false := by
  obtain ⟨added, he, ha⟩ := extend_eq_append
    (fun cur item => (deref rs.visiableTl cur).covers (deref rs.visiableTl item)) items
    ((range rs.visiableTl.length).map .tl)
  refine ⟨added, he, fun e hmem => ?_⟩
  obtain ⟨i, hi, rfl⟩ := mem_map.mp (ha e hmem).1
  exact ⟨i, mem_range.mp hi, rfl, (ha _ hmem).2⟩

theorem covered_addHistory {i : Nat} (hi : i < rs.visiableTl.length) : ∃ c ∈ rs.addHistory items,
      (deref rs.visiableTl c).covers (deref rs.visiableTl (.tl i)) = true := by
  refine exists_covers_extend (fun x => ?_) (mem_map.mpr ⟨i, mem_range.mpr hi, rfl⟩)
  exact covers_iff.mpr ⟨Int.le_refl _, .inr (Int.le_refl _)⟩

theorem addHistory_eq_self (h : ∀ i < rs.visiableTl.length,
    ∃ c ∈ items, (deref rs.visiableTl c).covers (deref rs.visiableTl (.tl i)) = true) :
    rs.addHistory items = items := by
  refine extend_eq_self fun x hx => ?_
  obtain ⟨i, hi, rfl⟩ := mem_map.mp hx
  exact h i (mem_range.mp hi)

theorem valid_addHistory (h : ∀ e ∈ items, e.Valid rs.visiableTl) :
    ∀ e ∈ rs.addHistory items, e.Valid rs.visiableTl := by
  obtain ⟨added, he, ha⟩ := addHistory_eq_append rs items
  rw [he]
  intro e hmem
  rcases mem_append.mp hmem with hmem | hmem
  · exact h e hmem
  · obtain ⟨i, hi, rfl, -⟩ := ha e hmem
    exact hi

/-! ## Steps keep rooms well-formed -/

theorem JoinedView.mono (h : JoinedView now rs v) (hp : now ≤ pos) : JoinedView pos rs v := by
  obtain ⟨items, ri, hv, hstop, hstart, hopen⟩ := h.last
  exact ⟨⟨items, ri, hv, hstop, Int.le_trans hstart hp, hopen⟩, h.covered⟩

theorem WF.valid_items (h : WF s) (user : String) :
    ∀ e ∈ s.rs.items user, e.Valid s.rs.visiableTl := by
  intro e he
  unfold items at he
  cases hv : s.rs.userMemberView user with
  | none =>
    rw [hv] at he
    cases he
  | some v =>
    rw [hv] at he
    exact h.valid user v hv e he

theorem valid_joinView (h : ∀ e ∈ rs.items user, e.Valid rs.visiableTl) :
    ∀ e ∈ rs.joinView user pos, e.Valid rs.visiableTl := by
  intro e he
  rcases mem_append.mp he with he | he
  · refine valid_addHistory ?_ e he
    split_ifs
    · intro e he
      rw [mem_singleton.mp he]
      trivial
    · exact h
  · rw [mem_singleton.mp he]
    trivial

theorem joinedView_joinView (hr : Ranges now rs past) (hp : now ≤ pos) :
    JoinedView pos rs (rs.joinView user pos) := by
  refine ⟨⟨_, _, rfl, rfl, ?_, ?_⟩, fun i hi => ?_⟩
  · split_ifs with hv
    · exact Int.le_trans (hr.pos hv).2 hp
    · exact Int.le_refl pos
  · intro hv
    exact Int.le_of_eq (if_pos hv)
  · obtain ⟨c, hc, hcov⟩ := covered_addHistory hi
    exact ⟨c, mem_append_left _ hc, hcov⟩

/-- The last range of a user who is in the room is the user's own, so that no shared range ends. -/
theorem JoinedView.endLast {ri : RangeItem} : rs.endLast user (items ++ [.own ri]) pos =
      rs.storeView user (items ++ [.own { ri with stop := pos }]) := by
  unfold RoomState.endLast
  simp

/-- Nothing changes but the view and the membership of one user. -/
structure SameRoom (user : String) (rs rs' : RoomState) : Prop where
  createPos : rs'.createPos = rs.createPos
  historyVisibility : rs'.historyVisibility = rs.historyVisibility
  historyVisibilityPos : rs'.historyVisibilityPos = rs.historyVisibilityPos
  visiableTl : rs'.visiableTl = rs.visiableTl
  view : ∀ u ≠ user, rs'.userMemberView u = rs.userMemberView u
  join : ∀ u ≠ user, rs'.members.join u = rs.members.join u
  ok : ∀ u ≠ user, rs'.userMemberViewOk u = rs.userMemberViewOk u

theorem SameRoom.eq (hs : SameRoom user rs rs') :
    rs' = { rs with members := rs'.members, userMemberView := rs'.userMemberView,
                    userMemberViewOk := rs'.userMemberViewOk } := by
  cases rs
  cases rs'
  obtain ⟨rfl, rfl, rfl, rfl, -⟩ := hs
  rfl

theorem JoinedView.same (h : JoinedView now rs v) (hs : SameRoom user rs rs') :
    JoinedView now rs' v := by
  rw [hs.eq]
  exact ⟨h.last, h.covered⟩

theorem Ranges.same (h : Ranges now rs past) (hs : SameRoom user rs rs') : Ranges now rs' past := by
  rw [hs.eq]
  exact ⟨h.eq, h.ended, h.value, h.pos⟩

theorem WF.same (h : WF s) (hp : s.now ≤ pos) (hs : SameRoom user s.rs rs')
    (hvalid : ∀ v, rs'.userMemberView user = some v → ∀ e ∈ v, e.Valid s.rs.visiableTl)
    (hjoined : (rs'.members.join user).isSome = true →
      ∃ v, rs'.userMemberView user = some v ∧ JoinedView pos s.rs v) : WF ⟨rs', pos⟩ := by
  obtain ⟨past, hr⟩ := h.ranges
  refine ⟨?_, ⟨past, (hr.mono hp).same hs⟩, ?_, ?_⟩
  · have := h.createPos
    dsimp only
    rw [hs.createPos]
    omega
  · intro u v hv
    rw [hs.visiableTl]
    by_cases hu : u = user
    · exact hvalid v (hu ▸ hv)
    · exact h.valid u v ((hs.view u hu).symm.trans hv)
  · intro u hj
    by_cases hu : u = user
    · obtain ⟨v, hv, hjv⟩ := hjoined (hu ▸ hj)
      exact ⟨v, hu ▸ hv, hjv.same hs⟩
    · obtain ⟨v, hv, hjv⟩ := h.joined u ((congrArg Option.isSome (hs.join u hu)).symm.trans hj)
      exact ⟨v, (hs.view u hu).trans hv, (hjv.mono hp).same hs⟩

inductive ViewChange (rs rs' : RoomState) (user membership : String) (pos : Int) : Prop where
  | join (hm : membership = "join") (hj : rs.members.join user = none)
      (hv : rs'.userMemberView user = some (rs.joinView user pos))
  | leave (hm : membership = "leave" ∨ membership = "ban")
      (hj : (rs.members.join user).isSome = true) (items : List Entry) (ri : RangeItem)
      (hold : rs.userMemberView user = some (items ++ [.own ri]))
      (hv : rs'.userMemberView user = some (items ++ [.own { ri with stop := pos }]))
  | same (hm : membership = "join" → (rs.members.join user).isSome = true)
      (hl : membership = "leave" ∨ membership = "ban" → rs.members.join user = none)
      (hv : rs'.userMemberView user = rs.userMemberView user)

theorem WF.onMembership_spec (h : WF s) (user membership : String) (pos offset : Int) :
    SameRoom user s.rs (s.rs.onMembership user membership pos offset) ∧
      (s.rs.onMembership user membership pos offset).members.join user =
        (if membership = "join" then some offset else none) ∧
      (s.rs.onMembership user membership pos offset).userMemberViewOk user =
        s.rs.userMemberViewOk user ∧
      ViewChange s.rs (s.rs.onMembership user membership pos offset) user membership pos := by
  have hjoin : ∀ u ≠ user, (s.rs.members.update user membership offset).join u =
      s.rs.members.join u := by
    intro u hu
    rw [Members.join_update, update_of_ne hu]
  have hjoin' : (s.rs.members.update user membership offset).join user =
      if membership = "join" then some offset else none := by
    rw [Members.join_update, update_self]
  rcases onMembership_cases s.rs user membership pos offset with
    ⟨hm, hj, he⟩ | ⟨hm, hj, he⟩ | ⟨hm, hl, he⟩
  · rw [he]
    exact ⟨⟨rfl, rfl, rfl, rfl, fun u hu => update_of_ne hu _ _, hjoin, fun _ _ => rfl⟩,
      hjoin', rfl, .join hm hj (update_self _ _ _)⟩
  · obtain ⟨v, hv, hjv⟩ := h.joined user hj
    obtain ⟨items, ri, rfl, -⟩ := hjv.last
    have hitems : s.rs.items user = items ++ [.own ri] := by rw [RoomState.items, hv]; rfl
    have hne : ¬ (items ++ [Entry.own ri]).isEmpty = true := by simp
    rw [he, hitems, if_neg hne, JoinedView.endLast]
    exact ⟨⟨rfl, rfl, rfl, rfl, fun u hu => update_of_ne hu _ _, hjoin, fun _ _ => rfl⟩,
      hjoin', rfl, .leave hm hj items ri hv (update_self _ _ _)⟩
  · rw [he]
    exact ⟨⟨rfl, rfl, rfl, rfl, fun _ _ => rfl, hjoin, fun _ _ => rfl⟩, hjoin', rfl,
      .same hm hl rfl⟩

theorem WF.onMembership (h : WF s) (hp : s.now ≤ pos) :
    WF ⟨s.rs.onMembership user membership pos offset, pos⟩ := by
  obtain ⟨past, hr⟩ := h.ranges
  obtain ⟨hs, hj, -, hc⟩ := h.onMembership_spec user membership pos offset
  cases hc with
  | join hm hj₀ hv =>
    refine h.same hp hs ?_ fun _ => ⟨_, hv, joinedView_joinView hr hp⟩
    intro v hv'
    obtain rfl := some.inj (hv.symm.trans hv')
    exact valid_joinView (h.valid_items user)
  | leave hm hj₀ items ri hold hv =>
    refine h.same hp hs ?_ fun hj' => ?_
    · intro v hv' e he
      obtain rfl := some.inj (hv.symm.trans hv')
      rcases mem_append.mp he with he | he
      · exact h.valid user _ hold e (mem_append_left _ he)
      · rw [mem_singleton.mp he]
        trivial
    · have hne : membership ≠ "join" := by rcases hm with rfl | rfl <;> decide
      rw [hj, if_neg hne] at hj'
      cases hj'
  | same hm hl hv =>
    refine h.same hp hs ?_ fun hj' => ?_
    · rw [hv]
      exact h.valid user
    · rw [hj] at hj'
      have hmj : membership = "join" := by
        by_contra hne
        rw [if_neg hne] at hj'
        cases hj'
      obtain ⟨v, hv', hjv⟩ := h.joined user (hm hmj)
      exact ⟨v, hv.trans hv', hjv.mono hp⟩

theorem queried_spec (rs : RoomState) (user : String) : SameRoom user rs (rs.queried user) ∧
      (rs.queried user).members.join user = rs.members.join user ∧
      (rs.queried user).userMemberViewOk user = true ∧ (rs.queried user).userMemberView user =
        if rs.userMemberViewOk user then rs.userMemberView user
        else some (rs.addHistory (rs.items user)) := by
  unfold queried
  split_ifs with hok
  · exact ⟨⟨rfl, rfl, rfl, rfl, fun _ _ => rfl, fun _ _ => rfl, fun _ _ => rfl⟩, rfl, hok, rfl⟩
  · exact ⟨⟨rfl, rfl, rfl, rfl, fun u hu => update_of_ne hu _ _, fun _ _ => rfl,
      fun u hu => update_of_ne hu _ _⟩, rfl, update_self _ _ _,
      update_self _ _ _⟩

theorem WF.view_queried (h : WF s) (hj : (s.rs.members.join user).isSome = true) :
    (s.rs.queried user).userMemberView user = s.rs.userMemberView user := by
  obtain ⟨v, hv, hjv⟩ := h.joined user hj
  obtain ⟨-, -, -, hq⟩ := queried_spec s.rs user
  have hitems : s.rs.items user = v := by rw [items, hv]; rfl
  rw [hq, hitems, addHistory_eq_self hjv.covered, hv, ite_self]

theorem WF.queried (h : WF s) : WF ⟨s.rs.queried user, s.now⟩ := by
  obtain ⟨hs, hj, -, hv⟩ := queried_spec s.rs user
  refine h.same (Int.le_refl _) hs ?_ fun hj' => ?_
  · intro v hv'
    rw [hv] at hv'
    split_ifs at hv'
    · exact h.valid user v hv'
    · obtain rfl := some.inj hv'
      exact valid_addHistory (h.valid_items user)
  · rw [hj] at hj'
    obtain ⟨v, hv', hjv⟩ := h.joined user hj'
    exact ⟨v, (h.view_queried hj').trans hv', hjv⟩

theorem onHistoryVisibility_frame (rs : RoomState) (value : String) (pos : Int) :
    (rs.onHistoryVisibility value pos).createPos = rs.createPos ∧
      (rs.onHistoryVisibility value pos).userMemberView = rs.userMemberView ∧
      (rs.onHistoryVisibility value pos).members = rs.members ∧
      (rs.onHistoryVisibility value pos).userMemberViewOk = rs.userMemberViewOk := by
  unfold onHistoryVisibility
  split_ifs <;> exact ⟨rfl, rfl, rfl, rfl⟩

theorem WF.onHistoryVisibility (h : WF s) (hp : s.now ≤ pos)
    (hval : value = "shared" ∨ value = "joined") :
    WF ⟨s.rs.onHistoryVisibility value pos, pos⟩ := by
  obtain ⟨past, hr⟩ := h.ranges
  obtain ⟨hg, past', hr'⟩ := hr.onHistoryVisibility h.createPos hp hval
  obtain ⟨hc, hview, hmem, -⟩ := onHistoryVisibility_frame s.rs value pos
  refine ⟨?_, ⟨past', hr'⟩, ?_, ?_⟩
  · have := h.createPos
    dsimp only
    omega
  · intro u v hv e he
    rw [hview] at hv
    exact (hg.old e (h.valid u v hv e he)).1
  · intro u hj
    rw [hmem] at hj
    rw [hview]
    obtain ⟨v, hv, hjv⟩ := h.joined u hj
    exact ⟨v, hv, hjv.onHistoryVisibility hr h.createPos hp hval (h.valid u v hv)⟩

theorem replay_eq_some (h : replay s op = some s') :
    (∃ user membership pos offset, op = .member user membership pos offset ∧ s.now ≤ pos ∧
      s' = ⟨s.rs.onMembership user membership pos offset, pos⟩) ∨
    (∃ value pos, op = .historyVisibility value pos ∧ s.now ≤ pos ∧
      (value = "shared" ∨ value = "joined") ∧ s' = ⟨s.rs.onHistoryVisibility value pos, pos⟩) ∨
    ∃ user pos, op = .query user pos ∧ s' = ⟨s.rs.queried user, s.now⟩ := by
  cases op with
  | member user membership pos offset =>
    simp only [replay] at h
    split_ifs at h with hp
    exact .inl ⟨user, membership, pos, offset, rfl, hp, (some.inj h).symm⟩
  | historyVisibility value pos =>
    simp only [replay] at h
    split_ifs at h with hp
    exact .inr (.inl ⟨value, pos, rfl, hp.1, hp.2, (some.inj h).symm⟩)
  | query user pos => exact .inr (.inr ⟨user, pos, rfl, (some.inj h).symm⟩)

theorem now_le_of_replay (h : replay s op = some s') : s.now ≤ s'.now := by
  rcases replay_eq_some h with ⟨_, _, _, _, -, hp, rfl⟩ | ⟨_, _, -, hp, -, rfl⟩ | ⟨_, _, -, rfl⟩
  · exact hp
  · exact hp
  · exact Int.le_refl _

theorem WF.step (h : WF s) (hs : replay s op = some s') : WF s' := by
  rcases replay_eq_some hs with ⟨user, membership, pos, offset, -, hp, rfl⟩ |
    ⟨value, pos, -, hp, hval, rfl⟩ | ⟨user, pos, -, rfl⟩
  · exact h.onMembership hp
  · exact h.onHistoryVisibility hp hval
  · exact h.queried

end

end Ligase.Sync

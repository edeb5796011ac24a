import Ligase.Sync.Replay

/-!
# Leaving a room ends its visibility

A user has never joined, is in the room, or has left it; each step of a replay moves between these.

* **`leave_closes_visibility`**: the replays in which nothing later is visible after leaving.
-/

namespace Ligase.Sync

open Lib RoomState List Option

/-- **What does not disturb the view of a user.** While the user is in the room, their member events
are joins, leaves and bans. A first query while the user is not in the room comes when no shared
range is open, if there is no view yet, and otherwise when no ended shared range goes beyond the
view. -/
def undisturbed (user : String) (s : Replay) : Op → Bool
  | .member u membership _ _ =>
    u ≠ user || (s.rs.members.join user).isNone || membership ∈ ["join", "leave", "ban"]
  | .historyVisibility _ _ => true
  | .query u _ =>
    u ≠ user || s.rs.userMemberViewOk user || (s.rs.members.join user).isSome ||
      if (s.rs.items user).isEmpty then s.rs.visiableTl.all (·.stop ≠ -1)
      else s.rs.visiableTl.all fun r =>
        r.stop = -1 || (s.rs.items user).any fun e => r.stop ≤ (deref s.rs.visiableTl e).stop

section
variable {s s' : Replay} {op : Op} {user u membership value : String} {pos offset t : Int}
  {e : Entry} {v : List Entry}

/-! ## Views that have ended -/

def Ended (t : Int) (tl : List RangeItem) (e : Entry) : Prop :=
  0 ≤ (deref tl e).stop ∧ (deref tl e).stop ≤ t

variable {tl : List RangeItem} {rs' : RoomState}

theorem Ended.valid (h : Ended t tl e) : e.Valid tl := by
  cases e with
  | own item => trivial
  | tl i =>
    by_contra hi
    have hd : deref tl (.tl i) = ⟨0, -1⟩ := by
      rw [deref, getElem?_eq_none (Nat.le_of_not_lt hi)]
      rfl
    have := h.1
    rw [hd] at this
    dsimp only at this
    omega

theorem Ended.deref_eq {tl' : List RangeItem} (h : Ended t tl e) (hg : Grown pos tl tl') :
    deref tl' e = deref tl e := by
  refine (hg.old e h.valid).2.resolve_right fun ⟨hs, _⟩ => ?_
  have := h.1
  omega

theorem Ended.mono (h : Ended t tl e) (hp : t ≤ pos) : Ended pos tl e :=
  ⟨h.1, Int.le_trans h.2 hp⟩

/-- All ranges of a view have ended, not after `t`, and one of them stands in the way of the open
shared range. -/
structure Settled (t : Int) (s : Replay) (v : List Entry) : Prop where
  ended : ∀ e ∈ v, Ended t s.rs.visiableTl e
  anchor : v ≠ [] → ∃ e ∈ v, (deref s.rs.visiableTl e).start ≤ s.now ∧
    (s.rs.historyVisibility = "shared" →
      (deref s.rs.visiableTl e).start ≤ s.rs.historyVisibilityPos)

section
variable (h : Settled t s v)
include h

theorem Settled.mono (hp : t ≤ pos) : Settled pos s v :=
  ⟨fun e he => (h.ended e he).mono hp, h.anchor⟩

theorem Settled.same (hs : SameRoom user s.rs rs') (hp : s.now ≤ pos) :
    Settled t ⟨rs', pos⟩ v := by
  refine ⟨?_, fun hne => ?_⟩
  · rw [hs.visiableTl]
    exact h.ended
  · obtain ⟨e, he, hstart, hopen⟩ := h.anchor hne
    rw [hs.visiableTl, hs.historyVisibility, hs.historyVisibilityPos]
    exact ⟨e, he, Int.le_trans hstart hp, hopen⟩

theorem Settled.onHistoryVisibility (hw : WF s) (hp : s.now ≤ pos)
    (hval : value = "shared" ∨ value = "joined") :
    Settled t ⟨s.rs.onHistoryVisibility value pos, pos⟩ v := by
  obtain ⟨past, hr⟩ := hw.ranges
  obtain ⟨hg, -⟩ := hr.onHistoryVisibility hw.createPos hp hval
  refine ⟨fun e he => ?_, fun hne => ?_⟩
  · have hend := h.ended e he
    rw [Ended, hend.deref_eq hg]
    exact hend
  · obtain ⟨e, he, hstart, hopen⟩ := h.anchor hne
    refine ⟨e, he, ?_⟩
    rw [(h.ended e he).deref_eq hg]
    exact ⟨Int.le_trans hstart hp, start_le_onHistoryVisibility value hstart hp hopen⟩

theorem Settled.addHistory (hw : WF s) (hne : v ≠ [])
    (hclosed : ∀ r ∈ s.rs.visiableTl, r.stop ≠ -1 → r.stop ≤ t) :
    Settled t s (s.rs.addHistory v) := by
  obtain ⟨past, hr⟩ := hw.ranges
  obtain ⟨added, he, ha⟩ := addHistory_eq_append s.rs v
  obtain ⟨a, hav, hstart, hopen⟩ := h.anchor hne
  rw [he]
  refine ⟨fun e hmem => ?_, fun _ => ⟨a, mem_append_left _ hav, hstart, hopen⟩⟩
  rcases mem_append.mp hmem with hmem | hmem
  · exact h.ended e hmem
  · obtain ⟨i, hi, rfl, hnot⟩ := ha e hmem
    have hr' := mem_of_valid hi
    by_cases hs : (deref s.rs.visiableTl (.tl i)).stop = -1
    · -- the open range is covered by the anchor
      obtain ⟨hv, hst⟩ := hr.eq_open hr' hs
      have hcov : (deref s.rs.visiableTl a).covers (deref s.rs.visiableTl (.tl i)) = true := by
        have := (h.ended a hav).1
        exact covers_iff.mpr ⟨hst ▸ hopen hv, .inr (by omega)⟩
      rw [hnot a hav] at hcov
      cases hcov
    · exact ⟨(hr.closed hr' hs).2.1, hclosed _ hr' hs⟩

end

/-! ## The phases of a user -/

def Never (user : String) (s : Replay) : Prop :=
  s.rs.members.join user = none ∧
    (s.rs.userMemberView user = none ∨
      s.rs.userMemberViewOk user = true ∧
        ∃ v, s.rs.userMemberView user = some v ∧ Settled s.now s v)

/-- The user is in the room, and all ranges of the view but the last have ended. -/
def Present (user : String) (s : Replay) : Prop :=
  (s.rs.members.join user).isSome = true ∧ ∀ v, s.rs.userMemberView user = some v →
    ∀ e ∈ v.dropLast, Ended s.now s.rs.visiableTl e

/-- The user is not in the room, and nothing after `t` is in the view. -/
def Gone (user : String) (t : Int) (s : Replay) : Prop :=
  s.rs.members.join user = none ∧
    ∃ v, s.rs.userMemberView user = some v ∧ v ≠ [] ∧ Settled t s v

def Phase (user : String) (s : Replay) : Prop :=
  Never user s ∨ Present user s ∨ Gone user s.now s

theorem items_of_view (h : s.rs.userMemberView user = some v) : s.rs.items user = v := by
  rw [items, h]
  rfl

theorem ended_joinView (hw : WF s) (h : s.rs.items user ≠ [] → Settled s.now s (s.rs.items user)) :
    ∀ e ∈ (s.rs.joinView user pos).dropLast, Ended s.now s.rs.visiableTl e := by
  obtain ⟨past, hr⟩ := hw.ranges
  have hclosed : ∀ r ∈ s.rs.visiableTl, r.stop ≠ -1 → r.stop ≤ s.now := by
    intro r hmem hs
    have := hr.closed hmem hs
    omega
  unfold joinView
  rw [dropLast_concat]
  by_cases he : s.rs.items user = []
  · have hc := hw.createPos
    have hbase : Settled s.now s [.own ⟨s.rs.createPos, s.rs.createPos⟩] := by
      refine ⟨fun e hmem => ?_, fun _ => ⟨_, mem_singleton_self _, hc.2, fun hv => (hr.pos hv).1⟩⟩
      rw [mem_singleton.mp hmem]
      exact ⟨by dsimp only [deref]; omega, hc.2⟩
    rw [he]
    exact (hbase.addHistory hw (by simp) hclosed).ended
  · rw [if_neg (by simpa using he)]
    exact ((h he).addHistory hw he hclosed).ended

theorem Phase.join (h : Never user s ∨ Gone user t s) (ht : t ≤ s.now) (hw : WF s)
    (hp : s.now ≤ pos) : Present user ⟨s.rs.onMembership user "join" pos offset, pos⟩ := by
  obtain ⟨hs, hj, -, hc⟩ := hw.onMembership_spec user "join" pos offset
  have hnone := h.elim And.left And.left
  have hitems : s.rs.items user ≠ [] → Settled s.now s (s.rs.items user) := by
    intro hne
    rcases h with ⟨-, hv | ⟨-, v, hv, hset⟩⟩ | ⟨-, v, hv, -, hset⟩
    · rw [items, hv] at hne
      exact absurd rfl hne
    · rwa [items_of_view hv]
    · rw [items_of_view hv]
      exact hset.mono ht
  refine ⟨by dsimp only; rw [hj]; rfl, fun v hv e he => ?_⟩
  rw [hs.visiableTl]
  cases hc with
  | join _ _ hv' =>
    obtain rfl := some.inj (hv'.symm.trans hv)
    exact (ended_joinView hw hitems e he).mono hp
  | leave hm => rcases hm with hm | hm <;> exact absurd hm (by decide)
  | same hm =>
    rw [hnone] at hm
    cases hm rfl

theorem settled_addHistory_nil (hw : WF s) (hclosed : ∀ r ∈ s.rs.visiableTl, r.stop ≠ -1) :
    Settled s.now s (s.rs.addHistory []) := by
  obtain ⟨past, hr⟩ := hw.ranges
  obtain ⟨added, he, ha⟩ := addHistory_eq_append s.rs []
  rw [he, nil_append]
  have hadded : ∀ e ∈ added, (deref s.rs.visiableTl e).start ≤ s.now ∧
      Ended s.now s.rs.visiableTl e := by
    intro e hmem
    obtain ⟨i, hi, rfl, -⟩ := ha e hmem
    have hc := hr.closed (mem_of_valid hi) (hclosed _ (mem_of_valid hi))
    exact ⟨hc.1, hc.2.1, by omega⟩
  refine ⟨fun e hmem => (hadded e hmem).2, fun hne => ?_⟩
  obtain ⟨e, hmem⟩ := exists_mem_of_ne_nil added hne
  refine ⟨e, hmem, (hadded e hmem).1, fun hv => ?_⟩
  have hopen : (⟨s.rs.historyVisibilityPos, -1⟩ : RangeItem) ∈ s.rs.visiableTl := by
    rw [hr.eq, openRange, if_pos hv]
    simp
  exact absurd rfl (hclosed _ hopen)

structure Untouched (user : String) (s s' : Replay) : Prop where
  now : s.now ≤ s'.now
  join : s'.rs.members.join user = s.rs.members.join user
  view : s'.rs.userMemberView user = s.rs.userMemberView user
  ok : s'.rs.userMemberViewOk user = s.rs.userMemberViewOk user
  ended : ∀ t e, Ended t s.rs.visiableTl e → Ended t s'.rs.visiableTl e
  settled : ∀ t v, Settled t s v → Settled t s' v

theorem SameRoom.untouched (hs : SameRoom user s.rs rs') (hp : s.now ≤ pos)
    (hj : rs'.members.join u = s.rs.members.join u)
    (hv : rs'.userMemberView u = s.rs.userMemberView u)
    (hok : rs'.userMemberViewOk u = s.rs.userMemberViewOk u) : Untouched u s ⟨rs', pos⟩ := by
  refine ⟨hp, hj, hv, hok, fun t e h => ?_, fun t v h => h.same hs hp⟩
  rwa [hs.visiableTl]

theorem WF.untouched_historyVisibility (hw : WF s) (hp : s.now ≤ pos)
    (hval : value = "shared" ∨ value = "joined") :
    Untouched u s ⟨s.rs.onHistoryVisibility value pos, pos⟩ := by
  obtain ⟨past, hr⟩ := hw.ranges
  obtain ⟨hg, -⟩ := hr.onHistoryVisibility hw.createPos hp hval
  obtain ⟨-, hview, hmem, hok⟩ := onHistoryVisibility_frame s.rs value pos
  refine ⟨hp, congrArg (·.join u) hmem, congrFun hview u, congrFun hok u, fun t e h => ?_,
    fun t v h => h.onHistoryVisibility hw hp hval⟩
  rwa [Ended, h.deref_eq hg]

theorem WF.step_cases (hw : WF s) (u : String) (hst : replay s op = some s') : Untouched u s s' ∨
      (∃ membership pos offset, op = .member u membership pos offset ∧ s.now ≤ pos ∧
        s' = ⟨s.rs.onMembership u membership pos offset, pos⟩) ∨
      ∃ pos, op = .query u pos ∧ s' = ⟨s.rs.queried u, s.now⟩ := by
  rcases replay_eq_some hst with ⟨user, membership, pos, offset, rfl, hp, rfl⟩ |
    ⟨value, pos, rfl, hp, hval, rfl⟩ | ⟨user, pos, rfl, rfl⟩
  · by_cases hu : u = user
    · exact .inr (.inl ⟨membership, pos, offset, hu ▸ rfl, hp, hu ▸ rfl⟩)
    · have hs := (hw.onMembership_spec user membership pos offset).1
      exact .inl (hs.untouched hp (hs.join u hu) (hs.view u hu) (hs.ok u hu))
  · exact .inl (hw.untouched_historyVisibility hp hval)
  · by_cases hu : u = user
    · exact .inr (.inr ⟨pos, hu ▸ rfl, hu ▸ rfl⟩)
    · have hs := (queried_spec s.rs user).1
      exact .inl (hs.untouched (Int.le_refl _) (hs.join u hu) (hs.view u hu) (hs.ok u hu))

theorem WF.untouched_away (hw : WF s) (hp : s.now ≤ pos) (hnone : s.rs.members.join u = none)
    (hm : membership ≠ "join") :
    Untouched u s ⟨s.rs.onMembership u membership pos offset, pos⟩ := by
  obtain ⟨hs, hj, hok, hc⟩ := hw.onMembership_spec u membership pos offset
  rw [if_neg hm, ← hnone] at hj
  cases hc with
  | join hm' => exact absurd hm' hm
  | leave _ hj' =>
    rw [hnone] at hj'
    cases hj'
  | same _ _ hv => exact hs.untouched hp hj hv hok

theorem Untouched.never (hk : Untouched u s s') (h : Never u s) : Never u s' := by
  obtain ⟨hj, hv⟩ := h
  refine ⟨hk.join.trans hj, ?_⟩
  rw [hk.view, hk.ok]
  refine hv.imp id ?_
  rintro ⟨hok, v, hv, hset⟩
  exact ⟨hok, v, hv, hk.settled _ v (hset.mono hk.now)⟩

theorem Untouched.gone (hk : Untouched u s s') (h : Gone u t s) : Gone u t s' := by
  obtain ⟨hj, v, hv, hne, hset⟩ := h
  exact ⟨hk.join.trans hj, v, hk.view.trans hv, hne, hk.settled t v hset⟩

theorem Untouched.present (hk : Untouched u s s') (h : Present u s) : Present u s' := by
  obtain ⟨hj, hv⟩ := h
  refine ⟨(congrArg isSome hk.join).trans hj, fun v hv' e he => ?_⟩
  exact hk.ended _ e ((hv v (hk.view.symm.trans hv') e he).mono hk.now)

theorem Never.query (h : Never u s) (hw : WF s) (hund : undisturbed u s (.query u pos) = true) :
    Never u ⟨s.rs.queried u, s.now⟩ := by
  obtain ⟨hs, hj, hok, hv⟩ := queried_spec s.rs u
  refine ⟨hj.trans h.1, ?_⟩
  rw [hv, hok]
  rcases h.2 with hnone | ⟨hok', v, hv', hset⟩
  · by_cases hok' : s.rs.userMemberViewOk u = true
    · rw [if_pos hok']
      exact .inl hnone
    · have hitems : s.rs.items u = [] := by
        rw [items, hnone]
        rfl
      rw [if_neg hok', hitems]
      have hclosed : ∀ r ∈ s.rs.visiableTl, r.stop ≠ -1 := by
        simpa [undisturbed, hok', h.1, hitems] using hund
      exact .inr ⟨rfl, _, rfl, (settled_addHistory_nil hw hclosed).same hs (Int.le_refl _)⟩
  · rw [if_pos hok']
    exact .inr ⟨rfl, v, hv', hset.same hs (Int.le_refl _)⟩

theorem Gone.query (h : Gone u t s) (hw : WF s) (hund : undisturbed u s (.query u pos) = true) :
    Gone u t ⟨s.rs.queried u, s.now⟩ := by
  obtain ⟨hs, hj, -, hv'⟩ := queried_spec s.rs u
  obtain ⟨hnone, v, hv, hne, hset⟩ := h
  refine ⟨hj.trans hnone, ?_⟩
  rw [hv']
  by_cases hok : s.rs.userMemberViewOk u = true
  · rw [if_pos hok]
    exact ⟨v, hv, hne, hset.same hs (Int.le_refl _)⟩
  · rw [if_neg hok, items_of_view hv]
    have hclosed : ∀ r ∈ s.rs.visiableTl, r.stop ≠ -1 → r.stop ≤ t := by
      have hr : ∀ r ∈ s.rs.visiableTl, r.stop = -1 ∨
          ∃ e ∈ v, r.stop ≤ (deref s.rs.visiableTl e).stop := by
        simpa [undisturbed, hok, hnone, items_of_view hv, hne] using hund
      intro r hmem hst
      obtain ⟨e, he, hle⟩ := (hr r hmem).resolve_left hst
      exact Int.le_trans hle (hset.ended e he).2
    refine ⟨_, rfl, ?_, (hset.addHistory hw hne hclosed).same hs (Int.le_refl _)⟩
    obtain ⟨added, he, -⟩ := addHistory_eq_append s.rs v
    rw [he]
    simp [hne]

theorem Present.settled_left {items : List Entry} {ri : RangeItem} (h : Present u s) (hw : WF s)
    (hp : s.now ≤ pos) (hold : s.rs.userMemberView u = some (items ++ [.own ri])) :
    Settled pos s (items ++ [.own { ri with stop := pos }]) := by
  obtain ⟨v, hv, hjv⟩ := hw.joined u h.1
  obtain ⟨items', ri', rfl, -, hstart, hopen⟩ := hjv.last
  obtain ⟨-, hri⟩ := append_inj' (some.inj (hold.symm.trans hv)) rfl
  obtain rfl : ri = ri' := Entry.own.inj (singleton_inj.mp hri)
  refine ⟨fun e he => ?_, fun _ => ⟨_, mem_append_right _ (mem_singleton_self _), hstart, hopen⟩⟩
  rcases mem_append.mp he with he | he
  · exact (h.2 _ hold e (by rwa [dropLast_concat])).mono hp
  · rw [mem_singleton.mp he]
    have := hw.createPos
    exact ⟨by dsimp only [deref]; omega, Int.le_refl pos⟩

theorem Present.member (h : Present u s) (hw : WF s) (hp : s.now ≤ pos)
    (hund : undisturbed u s (.member u membership pos offset) = true) :
    Present u ⟨s.rs.onMembership u membership pos offset, pos⟩ ∨
      Gone u pos ⟨s.rs.onMembership u membership pos offset, pos⟩ := by
  obtain ⟨hs, hj, -, hc⟩ := hw.onMembership_spec u membership pos offset
  cases hc with
  | join _ hj' =>
    rw [Present, hj'] at h
    cases h.1
  | leave hm _ items ri hold hv =>
    refine .inr ⟨?_, _, hv, by simp, ?_⟩
    · have hne : membership ≠ "join" := by rcases hm with rfl | rfl <;> decide
      rw [hj, if_neg hne]
    · exact (h.settled_left hw hp hold).same hs hp
  | same hm hl hv =>
    have hmj : membership = "join" := by
      have hcase : membership = "join" ∨ membership = "leave" ∨ membership = "ban" := by
        simpa [undisturbed, isSome_iff_ne_none.mp h.1] using hund
      refine hcase.resolve_right fun hl' => ?_
      rw [Present, hl hl'] at h
      cases h.1
    refine .inl ⟨?_, fun v hv' e he => ?_⟩
    · rw [hj, if_pos hmj]
      rfl
    · rw [hs.visiableTl]
      exact (h.2 v (hv.symm.trans hv') e he).mono hp

theorem Present.query (h : Present u s) (hw : WF s) : Present u ⟨s.rs.queried u, s.now⟩ := by
  obtain ⟨hs, hj, -, -⟩ := queried_spec s.rs u
  refine ⟨(congrArg isSome hj).trans h.1, fun v hv e he => ?_⟩
  rw [hw.view_queried h.1] at hv
  rw [hs.visiableTl]
  exact h.2 v hv e he

/-! ## Leaving -/

def Had (user : String) (s : Replay) : Prop := Present user s ∨ Gone user s.now s

section
variable (hw : WF s) (hund : undisturbed u s op = true) (hst : replay s op = some s')

include hw hund hst

theorem Never.step (h : Never u s) : Never u s' ∨ Present u s' := by
  rcases hw.step_cases u hst with hk | ⟨membership, pos, offset, rfl, hp, rfl⟩ | ⟨pos, rfl, rfl⟩
  · exact .inl (hk.never h)
  · by_cases hm : membership = "join"
    · rw [hm]
      exact .inr (Phase.join (.inl h) (Int.le_refl _) hw hp)
    · exact .inl ((hw.untouched_away hp h.1 hm).never h)
  · exact .inl (h.query hw hund)

theorem Gone.step (h : Gone u t s)
    (hno : ∀ pos offset, op ≠ .member u "join" pos offset) : Gone u t s' := by
  rcases hw.step_cases u hst with hk | ⟨membership, pos, offset, rfl, hp, rfl⟩ | ⟨pos, rfl, rfl⟩
  · exact hk.gone h
  · have hm : membership ≠ "join" := fun hm => hno pos offset (by rw [hm])
    exact (hw.untouched_away hp h.1 hm).gone h
  · exact h.query hw hund

theorem Gone.step_now (h : Gone u s.now s) : Present u s' ∨ Gone u s'.now s' := by
  by_cases hno : ∃ pos offset, op = .member u "join" pos offset
  · obtain ⟨pos, offset, rfl⟩ := hno
    rcases replay_eq_some hst with ⟨_, _, _, _, ⟨⟩, hp, rfl⟩ | ⟨_, _, ⟨⟩, -⟩ | ⟨_, _, ⟨⟩, -⟩
    exact .inl (Phase.join (.inr h) (Int.le_refl _) hw hp)
  · have hno' : ∀ pos offset, op ≠ .member u "join" pos offset :=
      fun pos offset he => hno ⟨pos, offset, he⟩
    obtain ⟨hnone, v, hv, hne, hset⟩ := h.step hw hund hst hno'
    exact .inr ⟨hnone, v, hv, hne, hset.mono (now_le_of_replay hst)⟩

theorem Present.step (h : Present u s) : Present u s' ∨ Gone u s'.now s' := by
  rcases hw.step_cases u hst with hk | ⟨membership, pos, offset, rfl, hp, rfl⟩ | ⟨pos, rfl, rfl⟩
  · exact .inl (hk.present h)
  · exact h.member hw hp hund
  · exact .inl (h.query hw)

theorem Phase.step (h : Phase u s) : Phase u s' := by
  rcases h with h | h | h
  · exact (h.step hw hund hst).imp id .inl
  · exact .inr (h.step hw hund hst)
  · exact .inr (h.step_now hw hund hst)

theorem Had.step (h : Had u s) : Had u s' := by
  rcases h with h | h
  · exact h.step hw hund hst
  · exact h.step_now hw hund hst

end

theorem Gone.not_sees (h : Gone u t s) (hpos : t < pos) : s.rs.sees u pos = false := by
  obtain ⟨-, v, hv, -, hset⟩ := h
  rw [sees, hv, List.any_eq_false]
  intro e he
  have := hset.ended e he
  unfold Ended at this
  simp only [RangeItem.has, Bool.or_eq_true, Bool.and_eq_true, decide_eq_true_eq]
  omega

theorem Phase.had_join (h : Phase u s) (hw : WF s)
    (hund : undisturbed u s (.member u "join" pos offset) = true)
    (hst : replay s (.member u "join" pos offset) = some s') : Had u s' := by
  rcases h with h | h
  · rcases replay_eq_some hst with ⟨_, _, _, _, ⟨⟩, hp, rfl⟩ | ⟨_, _, ⟨⟩, -⟩ | ⟨_, _, ⟨⟩, -⟩
    exact .inl (join (t := s.now) (.inl h) (Int.le_refl _) hw hp)
  · exact Had.step hw hund hst h

theorem Had.gone (h : Had u s) (hw : WF s) (hleave : membership = "leave" ∨ membership = "ban")
    (hund : undisturbed u s (.member u membership t offset) = true)
    (hst : replay s (.member u membership t offset) = some s') : Gone u t s' := by
  have hne : membership ≠ "join" := by rcases hleave with rfl | rfl <;> decide
  have hhad := h.step hw hund hst
  rcases replay_eq_some hst with ⟨_, _, _, _, ⟨⟩, hp, rfl⟩ | ⟨_, _, ⟨⟩, -⟩ | ⟨_, _, ⟨⟩, -⟩
  refine hhad.resolve_left fun hpr => ?_
  obtain ⟨-, hj, -⟩ := hw.onMembership_spec u membership t offset
  have hpr := hpr.1
  rw [hj, if_neg hne] at hpr
  cases hpr

/-- **Leaving ends visibility.** In every replay that does not disturb the view of a user who has
joined: once the user leaves or is banned at `t`, nothing after `t` is visible until the user joins
again. -/
theorem leave_closes_visibility {c : Int} (pre post : List Op) (hc : 1 ≤ c)
    (hjoined : ∃ pos offset, .member u "join" pos offset ∈ pre)
    (hleave : membership = "leave" ∨ membership = "ban")
    (hpost : ∀ pos offset, .member u "join" pos offset ∉ post)
    (hund : RunMeets replay (fun s op => undisturbed u s op = true) (.start c)
      (pre ++ .member u membership t offset :: post))
    (hrun : run replay (.start c) (pre ++ .member u membership t offset :: post) = some s)
    (hq : undisturbed u s (.query u pos) = true) (hpos : t < pos) :
    (s.rs.checkEventVisibility u pos).1 = false := by
  obtain ⟨pos₁, off₁, hmem⟩ := hjoined
  obtain ⟨pre₁, pre₂, rfl⟩ := append_of_mem hmem
  rw [append_assoc, cons_append] at hund hrun
  -- before the join
  obtain ⟨s₁, hrun₁, hrun⟩ := run_append_eq_some.mp hrun
  obtain ⟨hund₁, hund⟩ := hund.append
  have h₁ := run_invariant (I := fun s => WF s ∧ Phase u s) (fun h hC hst => ⟨h.1.step hst, h.2.step
    h.1 hC hst⟩) ⟨wf_start hc, .inl ⟨rfl, .inl rfl⟩⟩ hund₁ hrun₁
  -- the join, and until the leave
  obtain ⟨s₂, hst₂, hrun⟩ := run_cons_eq_some.mp hrun
  have hund₂ := hund s₁ hrun₁
  obtain ⟨s₃, hrun₃, hrun⟩ := run_append_eq_some.mp hrun
  obtain ⟨hund₃, hund⟩ := (hund₂.tail hst₂).append
  have h₃ := run_invariant (I := fun s => WF s ∧ Had u s) (fun h hC hst => ⟨h.1.step hst, h.2.step
    h.1 hC hst⟩) ⟨h₁.1.step hst₂, h₁.2.had_join h₁.1 hund₂.1 hst₂⟩ hund₃ hrun₃
  -- the leave, and everything after it
  obtain ⟨s₄, hst₄, hrun⟩ := run_cons_eq_some.mp hrun
  have hund₄ := hund s₃ hrun₃
  have hno : ∀ op ∈ post, ∀ pos offset, op ≠ .member u "join" pos offset := by
    intro op hop pos offset he
    exact hpost pos offset (he ▸ hop)
  have h₅ : WF s ∧ Gone u t s := run_invariant (I := fun s => WF s ∧ Gone u t s)
    (fun h hC hst => ⟨h.1.step hst, h.2.step h.1 hC.1 hst hC.2⟩)
    ⟨h₃.1.step hst₄, h₃.2.gone h₃.1 hleave hund₄.1 hst₄⟩ ((hund₄.tail hst₄).and_mem hno) hrun
  exact (h₅.2.step h₅.1 hq rfl nofun).not_sees hpos

end

/-- A user joins, the history becomes shared, and the user asks. -/
def stay : List Op :=
  [.member "@u:x" "join" 2 2, .historyVisibility "shared" 3, .query "@u:x" 3]

/-- The user is invited again and asks, and the history is no longer shared. -/
def after : List Op :=
  [.member "@u:x" "invite" 5 5, .query "@u:x" 5, .historyVisibility "joined" 6]

theorem leave_closes_visibility_stay :
    ∃ s, run replay (.start 1) (stay ++ .member "@u:x" "leave" 4 4 :: after) = some s ∧
      (s.rs.checkEventVisibility "@u:x" 5).1 = false :=
  ⟨_, rfl, leave_closes_visibility stay after (c := 1) (t := 4) (by decide) ⟨2, 2, by decide⟩
    (.inl rfl) (fun _ _ => by simp [after]) (by decide) rfl (by decide) (by decide)⟩

/-- A query before the join while the history is shared; a first query after the leave when a shared
range has ended; and an invite between the join and the leave. -/
theorem left_sees :
    (∃ s, run replay (.start 1) [.historyVisibility "shared" 2, .query "@u:x" 2,
        .member "@u:x" "join" 3 3, .member "@u:x" "leave" 4 4] = some s ∧
      (s.rs.checkEventVisibility "@u:x" 5).1 = true) ∧
    (∃ s, run replay (.start 1) [.member "@u:x" "join" 2 2, .member "@u:x" "leave" 3 3,
        .historyVisibility "shared" 4, .historyVisibility "joined" 6] = some s ∧
      (s.rs.checkEventVisibility "@u:x" 5).1 = true) ∧
    ∃ s, run replay (.start 1) [.member "@u:x" "join" 2 2, .member "@u:x" "invite" 3 3,
        .member "@u:x" "leave" 4 4] = some s ∧
      (s.rs.checkEventVisibility "@u:x" 5).1 = true := by
  refine ⟨⟨_, rfl, ?_⟩, ⟨_, rfl, ?_⟩, _, rfl, ?_⟩ <;> decide

end Ligase.Sync

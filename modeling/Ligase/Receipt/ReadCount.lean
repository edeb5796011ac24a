import Mathlib.Logic.Basic
import Mathlib.Tactic.Common

/-!
# Unread counts

The notifications and the highlights of a user in a room are counted in two maps, which are filled
from redis when they are asked for and written back by a flush.

* **`counts_consistent`**: in every run there are at most as many highlights as notifications, in
  memory and in redis.
-/

namespace Ligase.Receipt

open Option

structure UnreadCount where
  highlightCount : Int
  notificationCount : Int

structure ReadCountRepo where
  readCount : Option Int
  hlCount : Option Int
  updated : Bool
  cache : Option UnreadCount

inductive UpdateType where
  | reset | increase | increaseHl | decrease

namespace ReadCountRepo

section
variable (tl : ReadCountRepo) (fails : Bool)

/-- Without an entry, and if redis fails, the counts are 0. -/
def getRoomUnreadCount : UnreadCount := if fails then ⟨0, 0⟩ else tl.cache.getD ⟨0, 0⟩

def updateRoomReadCountFromCache : ReadCountRepo :=
  let u := tl.getRoomUnreadCount fails
  { tl with readCount := some u.notificationCount, hlCount := some u.highlightCount }

/-- The counts are loaded if the one that is asked for is not there. -/
def loaded (val : Option Int) : ReadCountRepo :=
  if val.isSome then tl else tl.updateRoomReadCountFromCache fails

def getRoomReadCount : Int × Int × ReadCountRepo :=
  let tl := tl.loaded fails tl.readCount
  let readCount := tl.readCount.getD 0
  let tl := tl.loaded fails tl.hlCount
  (readCount, tl.hlCount.getD 0, tl)

def decrease : ReadCountRepo :=
  match tl.readCount with
  | some count =>
    if count > 0 then
      let tl := { tl with readCount := some (count - 1) }
      match tl.hlCount with
      | some hlCount => if hlCount ≥ count then { tl with hlCount := some (count - 1) } else tl
      | none => tl
    else tl
  | none => { tl with readCount := some 0, hlCount := some 0 }

def updateRoomReadCount (updateType : UpdateType) : ReadCountRepo :=
  let tl := match updateType with
    | .reset => { tl with readCount := some 0, hlCount := some 0 }
    | .increase =>
      let tl := tl.loaded fails tl.readCount
      { tl with readCount := some ((tl.readCount.map (· + 1)).getD 1) }
    | .increaseHl =>
      let tl := tl.loaded fails tl.hlCount
      { tl with hlCount := some ((tl.hlCount.map (· + 1)).getD 1) }
    | .decrease => (tl.loaded fails tl.readCount).decrease
  { tl with updated := true }

/-- One flush, taken as indivisible: in the source it runs in a goroutine of its own and loads the
two counts one after the other. -/
def flush (writes : Bool) : ReadCountRepo :=
  if tl.updated then
    let (readCount, hlCount, tl) := { tl with updated := false }.getRoomReadCount fails
    if writes then { tl with cache := some ⟨hlCount, readCount⟩ } else tl
  else tl

end

/-- What the consumers do: a highlight is counted right after its notification. -/
inductive Pattern where
  | reset | increase | highlight | decrease

def Pattern.updates : Pattern → List UpdateType
  | .reset => [.reset]
  | .increase => [.increase]
  | .highlight => [.increase, .increaseHl]
  | .decrease => [.decrease]

inductive Act where
  | update (p : Pattern) (fails : Bool)
  | flush (fails writes : Bool)
  | lose

def step (tl : ReadCountRepo) : Act → ReadCountRepo
  | .update p fails => p.updates.foldl (updateRoomReadCount · fails ·) tl
  | .flush fails writes => tl.flush fails writes
  | .lose => { tl with readCount := none, hlCount := none, updated := false }

end ReadCountRepo

/-! ## The counts -/

def UnreadCount.Consistent (u : UnreadCount) : Prop :=
  0 ≤ u.highlightCount ∧ u.highlightCount ≤ u.notificationCount

def UnreadCount.updated (u : UnreadCount) : UpdateType → UnreadCount
  | .reset => ⟨0, 0⟩
  | .increase => ⟨u.highlightCount, u.notificationCount + 1⟩
  | .increaseHl => ⟨u.highlightCount + 1, u.notificationCount⟩
  | .decrease =>
    if u.notificationCount > 0 then
      ⟨min u.highlightCount (u.notificationCount - 1), u.notificationCount - 1⟩
    else u

theorem UnreadCount.Consistent.updated {u : UnreadCount} (h : u.Consistent) {t : UpdateType}
    (ht : t ≠ .increaseHl) : (u.updated t).Consistent := by
  obtain ⟨h0, hle⟩ := h
  cases t with
  | reset => exact ⟨Int.le_refl _, Int.le_refl _⟩
  | increase => exact ⟨h0, Int.le_add_one hle⟩
  | increaseHl => exact absurd rfl ht
  | decrease =>
    unfold UnreadCount.updated
    split_ifs with hpos
    · exact ⟨Int.le_min.mpr (by omega), Int.min_le_right ..⟩
    · exact ⟨h0, hle⟩

namespace ReadCountRepo

variable {tl : ReadCountRepo} {u : UnreadCount}

def Holds (tl : ReadCountRepo) (u : UnreadCount) : Prop :=
  tl.readCount = some u.notificationCount ∧ tl.hlCount = some u.highlightCount

structure Consistent (tl : ReadCountRepo) : Prop where
  counts : tl.readCount = none ∧ tl.hlCount = none ∨ ∃ u, tl.Holds u ∧ u.Consistent
  cache : ∀ u ∈ tl.cache, u.Consistent

theorem Holds.decrease (h : tl.Holds u) :
    tl.decrease.Holds (u.updated .decrease) ∧ tl.decrease.cache = tl.cache := by
  obtain ⟨hn, hh⟩ := h
  simp only [ReadCountRepo.decrease, hn, hh, UnreadCount.updated]
  split_ifs with hpos hge
  · exact ⟨⟨rfl, by rw [Int.min_eq_right (by omega)]⟩, rfl⟩
  · exact ⟨⟨rfl, by rw [Int.min_eq_left (by omega)]⟩, rfl⟩
  · exact ⟨⟨hn, hh⟩, rfl⟩

section
variable (h : tl.Consistent) (fails : Bool)
include h

theorem Consistent.getRoomUnreadCount : (tl.getRoomUnreadCount fails).Consistent := by
  have hzero : UnreadCount.Consistent ⟨0, 0⟩ := ⟨Int.le_refl _, Int.le_refl _⟩
  unfold ReadCountRepo.getRoomUnreadCount
  cases fails with
  | true => exact hzero
  | false =>
    cases hc : tl.cache with
    | none => exact hzero
    | some u => exact h.cache u hc

theorem Consistent.loaded {val : Option Int}
    (hval : val = tl.readCount ∨ val = tl.hlCount) :
    ∃ u, u.Consistent ∧ (tl.loaded fails val).Holds u ∧ (tl.loaded fails val).cache = tl.cache ∧
      (∀ v, tl.Holds v → u = v) := by
  rcases h.counts with ⟨hn, hh⟩ | ⟨⟨_, _⟩, ⟨hn, hh⟩, hu⟩
  · obtain rfl : val = none := by
      rcases hval with rfl | rfl
      · exact hn
      · exact hh
    exact ⟨_, h.getRoomUnreadCount fails, ⟨rfl, rfl⟩, rfl, fun v hv => by simp [Holds, hn] at hv⟩
  · have hsome : val.isSome := by
      rcases hval with rfl | rfl <;> simp [hn, hh]
    rw [ReadCountRepo.loaded, if_pos hsome]
    refine ⟨_, hu, ⟨hn, hh⟩, rfl, fun v hv => ?_⟩
    simp only [Holds, hn, hh, some.injEq] at hv
    rw [hv.1, hv.2]

theorem Consistent.update (t : UpdateType) :
    ∃ u, u.Consistent ∧ (tl.updateRoomReadCount fails t).Holds (u.updated t) ∧
      (tl.updateRoomReadCount fails t).cache = tl.cache ∧ ∀ v, tl.Holds v → u = v := by
  obtain ⟨u, hu, hread, hcache, hv⟩ := h.loaded fails (.inl rfl)
  obtain ⟨u', hu', hhl, hcache', hv'⟩ := h.loaded fails (.inr rfl)
  cases t with
  | reset => exact ⟨u, hu, ⟨rfl, rfl⟩, rfl, hv⟩
  | increase =>
    exact ⟨u, hu, ⟨by simp [updateRoomReadCount, hread.1, UnreadCount.updated], hread.2⟩, hcache,
      hv⟩
  | increaseHl =>
    exact ⟨u', hu', ⟨hhl.1, by simp [updateRoomReadCount, hhl.2, UnreadCount.updated]⟩, hcache',
      hv'⟩
  | decrease => exact ⟨u, hu, hread.decrease.1, hread.decrease.2.trans hcache, hv⟩

theorem Consistent.pattern (p : Pattern) (fails : Bool) :
    (tl.step (.update p fails)).Consistent := by
  have hone : ∀ t, t ≠ .increaseHl → (tl.updateRoomReadCount fails t).Consistent := by
    intro t ht
    obtain ⟨u, hu, hholds, hcache, -⟩ := h.update fails t
    exact ⟨.inr ⟨_, hholds, hu.updated ht⟩, hcache ▸ h.cache⟩
  cases p with
  | reset => exact hone .reset (by simp)
  | increase => exact hone .increase (by simp)
  | decrease => exact hone .decrease (by simp)
  | highlight =>
    -- the second update finds the counts that the first one has left
    obtain ⟨u, ⟨h0, hle⟩, hholds, -, -⟩ := h.update fails .increase
    have h₁ := hone .increase (by simp)
    obtain ⟨u', -, hholds', hcache', hv⟩ := h₁.update fails .increaseHl
    obtain rfl := hv _ hholds
    exact ⟨.inr ⟨_, hholds', Int.add_nonneg h0 (by decide), Int.add_le_add_right hle 1⟩,
      hcache' ▸ h₁.cache⟩

theorem Consistent.getRoomReadCount :
    ∃ (u : UnreadCount) (tl' : ReadCountRepo), u.Consistent ∧ tl'.Consistent ∧
      tl.getRoomReadCount fails = (u.notificationCount, u.highlightCount, tl') := by
  obtain ⟨u, hu, hholds, hcache, -⟩ := h.loaded fails (.inl rfl)
  refine ⟨u, tl.loaded fails tl.readCount, hu, ⟨.inr ⟨u, hholds, hu⟩, hcache ▸ h.cache⟩, ?_⟩
  simp only [ReadCountRepo.getRoomReadCount, hholds.1, hholds.2, getD_some]
  rw [ReadCountRepo.loaded, if_pos isSome_some, hholds.2, getD_some]

theorem Consistent.step (a : Act) : (tl.step a).Consistent := by
  cases a with
  | update p fails => exact h.pattern p fails
  | lose => exact ⟨.inl ⟨rfl, rfl⟩, h.cache⟩
  | flush fails writes =>
    simp only [ReadCountRepo.step, ReadCountRepo.flush]
    have h' : Consistent { tl with updated := false } := ⟨h.counts, h.cache⟩
    obtain ⟨u, tl', hu, htl', hget⟩ := h'.getRoomReadCount fails
    rw [hget]
    split_ifs
    · exact ⟨htl'.counts, fun v hv => some.inj hv ▸ hu⟩
    · exact htl'
    · exact h

end

/-- **The counts are consistent** after every run of patterns, flushes and losses that starts with
nothing in memory and nothing or consistent counts in redis, and so is what is in redis then. -/
theorem counts_consistent (cache : Option UnreadCount) (hcache : ∀ u ∈ cache, u.Consistent)
    (acts : List Act) (fails : Bool) :
    let tl := acts.foldl step ⟨none, none, false, cache⟩
    (0 ≤ (tl.getRoomReadCount fails).2.1 ∧
      (tl.getRoomReadCount fails).2.1 ≤ (tl.getRoomReadCount fails).1) ∧
    ∀ u ∈ tl.cache, u.Consistent := by
  intro tl
  have h : tl.Consistent :=
    List.foldlRecOn acts step ⟨.inl ⟨rfl, rfl⟩, hcache⟩ fun _ h a _ => h.step a
  obtain ⟨u, tl', hu, -, hget⟩ := h.getRoomReadCount fails
  rw [hget]
  exact ⟨hu, h.cache⟩

theorem counts_consistent_again :
    let acts : List Act := [.update .highlight false, .flush false true, .lose,
      .update .highlight false]
    let tl := acts.foldl step ⟨none, none, false, none⟩
    tl.readCount = some 2 ∧ ∀ u ∈ tl.cache, u.Consistent :=
  ⟨by decide, (counts_consistent none (by simp) _ false).2⟩

end ReadCountRepo

end Ligase.Receipt

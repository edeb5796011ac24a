import Mathlib.Data.Int.Init
import Ligase.Lib.Run

/-!
# The local cache

Items are kept in repositories. A clock counts ticks; what is stored or read is entered in the slot
of the tick at which it expires, and as the clock passes a slot everything entered there is removed.

* **`get_of_touched`**: an item that is not entered in another slot stays for its duration.
-/

namespace Ligase.Cache

open Lib Option List

def int32 (x : Int) : Int := x.bmod 4294967296

def cleanBukSize : Int := 16

structure CacheItem (V : Type) where
  val : V
  offset : Int

structure CacheRepo (K V : Type) where
  items : K → Option (CacheItem V)
  cleanBuk : Int → K → Bool

structure LocalCache (K V : Type) where
  cap : Int
  cnt : Int
  duration : Int
  cleanIdx : Int
  cleanStep : Int
  cleanCap : Int
  repos : Int → CacheRepo K V

variable {K V : Type} [DecidableEq K]

def slotOf (cap step tick : Int) : Int := (tick.tmod cap).tdiv step

namespace CacheRepo

def setItem (r : CacheRepo K V) (key : K) (item : CacheItem V) : CacheRepo K V :=
  { r with items := Function.update r.items key (some item) }

/-- An access to a slot; `none` is for an index that is out of range. -/
def setBuk (r : CacheRepo K V) (slot : Int) (key : K) (b : Bool) : Option (CacheRepo K V) :=
  if 0 ≤ slot ∧ slot < cleanBukSize then
    some { r with
      cleanBuk := Function.update r.cleanBuk slot (Function.update (r.cleanBuk slot) key b) }
  else none

/-- An item is moved to another slot; one without an offset gets none, and stays in its slots. -/
def update (r : CacheRepo K V) (key : K) (item : CacheItem V) (cap step target : Int) :
    Option (CacheRepo K V) :=
  let tgtSlot := slotOf cap step target
  let oldSlot := slotOf cap step item.offset
  let r := if (r.items key).isNone then r.setItem key item else r
  if oldSlot = tgtSlot ∧ item.offset ≠ -1 then some (r.setItem key { item with offset := target })
  else
    (r.setBuk tgtSlot key true).bind fun r =>
      if item.offset = -1 then some r
      else (r.setItem key { item with offset := target }).setBuk oldSlot key false

end CacheRepo

namespace LocalCache

/-- There are `cleanBukSize` places for the slots, whatever the capacity is. -/
def start (cap duration : Int) : Option (LocalCache K V) :=
  let d := if duration ≠ 0 then max (int32 duration) (cleanBukSize - 1) else 300
  let step := d.tdiv (cleanBukSize - 1)
  if cap ≤ cleanBukSize then
    some ⟨cap, 0, d, int32 ((cleanBukSize - 1) * step), step, int32 (cleanBukSize * step),
      fun _ => ⟨fun _ => none, fun _ _ => false⟩⟩
  else none

section
variable (lc : LocalCache K V)

/-- An item is stored or read now; a new one is entered in a slot in any case. -/
def touch (new : Bool) (repoName : Int) (key : K) (item : CacheItem V) : Option (LocalCache K V) :=
  let r := (lc.repos repoName).setItem key item
  let target := int32 (lc.cnt + lc.duration)
  if new ∨ target ≠ item.offset then
    (r.update key item lc.cleanCap lc.cleanStep target).map fun r =>
      { lc with repos := Function.update lc.repos repoName r }
  else some { lc with repos := Function.update lc.repos repoName r }

def put (repoName : Int) (key : K) (val : V) : Option (LocalCache K V) :=
  if repoName < 0 ∨ repoName ≥ lc.cap then some lc
  else
    match (lc.repos repoName).items key with
    | some item => lc.touch false repoName key { item with val }
    | none => lc.touch true repoName key ⟨val, -1⟩

def get (repoName : Int) (key : K) : Option (LocalCache K V × Option V) :=
  if repoName < 0 ∨ repoName ≥ lc.cap then some (lc, none)
  else
    match (lc.repos repoName).items key with
    | some item => (lc.touch false repoName key item).map fun lc => (lc, some item.val)
    | none => some (lc, none)

def cleaned (slot : Int) (r : CacheRepo K V) : CacheRepo K V where
  items key := if r.cleanBuk slot key then none else r.items key
  cleanBuk := Function.update r.cleanBuk slot fun _ => false

def tick : Option (LocalCache K V) :=
  let cnt := int32 (lc.cnt + 1)
  if cnt = lc.cleanIdx then
    let slot := slotOf lc.cleanCap lc.cleanStep cnt
    if 0 ≤ slot ∧ slot < cleanBukSize then
      some { lc with
        cnt
        cleanIdx := int32 (lc.cleanIdx + lc.cleanStep)
        repos := fun i => if 0 ≤ i ∧ i < lc.cap then cleaned slot (lc.repos i) else lc.repos i }
    else none
  else some { lc with cnt }

end

end LocalCache

inductive CacheOp (K V : Type) where
  | put (repoName : Int) (key : K) (val : V)
  | get (repoName : Int) (key : K)
  | tick

def LocalCache.step (lc : LocalCache K V) : CacheOp K V → Option (LocalCache K V)
  | .put repoName key val => lc.put repoName key val
  | .get repoName key => (lc.get repoName key).map Prod.fst
  | .tick => lc.tick

/-! ## The clock -/

open LocalCache

theorem int32_of_lt {x : Int} (h0 : 0 ≤ x) (h : x < 2147483648) : int32 x = x :=
  Int.bmod_eq_of_le_mul_two (by omega) (by omega)

theorem slotOf_eq {s n : Int} (hs : 0 < s) (hn : 0 ≤ n) :
    slotOf (16 * s) s n = n / s % 16 ∧ 0 ≤ n / s % 16 ∧ n / s % 16 < 16 := by
  refine ⟨?_, Int.emod_nonneg _ (by decide), Int.emod_lt_of_pos _ (by decide)⟩
  lift n to Nat using hn
  lift s to Nat using Int.le_of_lt hs
  rw [slotOf, Int.tmod_eq_emod_of_nonneg (Int.natCast_nonneg n),
    Int.tdiv_eq_ediv_of_nonneg (Int.emod_nonneg _ (by omega))]
  exact_mod_cast Nat.mod_mul_left_div_self n s 16

/-- No slot that is cleaned in time has an item. With `q` and `e` the quotients of the tick and of
what is left, the item is in the slot of `q + 15 + e`, and the cleanings are from `q + 1` to
`q + 14 + e`. -/
theorem cleaning_ne {s t d m : Int} (hs : s = d / 15) (hpos : 0 < s) (hr : d % 15 ≤ s)
    (hm : t < m * s) (hlt : m * s < t + d - s) : m % 16 ≠ (t + d) / s % 16 := by
  have ht' := Int.mul_ediv_add_emod t s
  have hmod := Int.emod_lt_of_pos t hpos
  have hmod0 := Int.emod_nonneg t (Int.ne_of_gt hpos)
  have htgt : (t + d) / s = t / s + 15 + (t % s + d % 15) / s := by
    have hsum : t + d = t % s + d % 15 + (t / s + 15) * s := by
      rw [Int.add_mul, Int.mul_comm (t / s)]
      omega
    rw [hsum, Int.add_mul_ediv_right _ _ (Int.ne_of_gt hpos), Int.add_comm]
  have he : (t % s + d % 15) / s ≤ 1 := by
    refine Int.lt_add_one_iff.mp (Int.ediv_lt_of_lt_mul hpos ?_)
    omega
  have hlow : t / s < m := by
    refine Int.lt_of_mul_lt_mul_right (a := s) ?_ (Int.le_of_lt hpos)
    rw [Int.mul_comm]
    omega
  have hhigh : m - (t / s + 14) ≤ (t % s + d % 15) / s := by
    refine Int.le_ediv_of_mul_le hpos ?_
    rw [Int.sub_mul, Int.add_mul, Int.mul_comm (t / s)]
    omega
  omega

/-- The state of a cache with a duration: the next cleaning is at a multiple of the width of a slot.
-/
structure Running (d : Int) (lc : LocalCache K V) : Prop where
  duration : lc.duration = d
  step : lc.cleanStep = d / 15
  cleanCap : lc.cleanCap = 16 * (d / 15)
  cnt : 0 ≤ lc.cnt ∧ lc.cnt < lc.cleanIdx ∧ lc.cleanIdx ≤ lc.cnt + d
  idx : ∃ m, lc.cleanIdx = m * (d / 15)
  offset : ∀ i key item, (lc.repos i).items key = some item → item.offset = -1

def CacheRepo.entered (r : CacheRepo K V) (key : K) (item : CacheItem V) (slot : Int) :
    CacheRepo K V where
  items := Function.update r.items key (some item)
  cleanBuk := Function.update r.cleanBuk slot (Function.update (r.cleanBuk slot) key true)

def LocalCache.entered (lc : LocalCache K V) (i : Int) (key : K) (item : CacheItem V)
    (slot : Int) : LocalCache K V :=
  { lc with repos := Function.update lc.repos i ((lc.repos i).entered key item slot) }

/-- The item is there, and is entered in the slot for what was touched at `t` only. -/
def Kept (d t : Int) (r : CacheRepo K V) (key : K) (val : V) : Prop :=
  (r.items key).map CacheItem.val = some val ∧
    ∀ slot, r.cleanBuk slot key = true → slot = (t + d) / (d / 15) % 16

section
variable {d t i : Int} {lc lc' : LocalCache K V} {key : K} {val : V} {item : CacheItem V}
  {r : CacheRepo K V}

theorem Running.touch (h : Running d lc) (hd : 15 ≤ d) (hlt : lc.cnt + d < 2147483648) (new : Bool)
    (i : Int) (key : K) (hitem : item.offset = -1) : lc.touch new i key item =
      some (lc.entered i key item ((lc.cnt + d) / (d / 15) % 16)) := by
  have hcnt := h.cnt.1
  obtain ⟨hslot, hrange⟩ := slotOf_eq (show 0 < d / 15 by omega) (show 0 ≤ lc.cnt + d by omega)
  have htarget : int32 (lc.cnt + lc.duration) = lc.cnt + d := by
    rw [h.duration, int32_of_lt (by omega) hlt]
  have hne : lc.cnt + d ≠ -1 := by omega
  simp only [LocalCache.touch, htarget, hitem, hne, ne_eq, not_false_eq_true, or_true, if_true,
    CacheRepo.update, h.step, h.cleanCap, hslot]
  simp [CacheRepo.setItem, CacheRepo.setBuk, CacheRepo.entered, entered, cleanBukSize,
    hrange, h.step, h.cleanCap]

theorem Running.entered (h : Running d lc) (hitem : item.offset = -1) (slot : Int) :
    Running d (lc.entered i key item slot) := by
  refine ⟨h.duration, h.step, h.cleanCap, h.cnt, h.idx, fun i' key' item' he => ?_⟩
  by_cases hi : i' = i
  · by_cases hk : key' = key
    · obtain rfl : item = item' := by
        simpa [LocalCache.entered, CacheRepo.entered, hi, hk] using he
      exact hitem
    · exact h.offset i key' item' (by
        simpa [LocalCache.entered, CacheRepo.entered, hi, hk] using he)
  · exact h.offset i' key' item' (by simpa [LocalCache.entered, hi] using he)

theorem Kept.entered {i' : Int} {key' : K} {slot : Int} (h : Kept d t (lc.repos i) key val)
    (hne : ¬(i' = i ∧ key' = key)) :
    Kept d t ((lc.entered i' key' item slot).repos i) key val := by
  by_cases hi : i = i'
  · subst hi
    have hk : key ≠ key' := fun he => hne ⟨rfl, he.symm⟩
    refine ⟨by simpa [LocalCache.entered, CacheRepo.entered, hk] using h.1, fun slot' hs => ?_⟩
    refine h.2 slot' ?_
    by_cases hslot : slot' = slot
    · simpa [LocalCache.entered, CacheRepo.entered, hslot, hk] using hs
    · simpa [LocalCache.entered, CacheRepo.entered, hslot] using hs
  · simpa [LocalCache.entered, hi] using h

theorem kept_entered_self (h : ∀ slot, (lc.repos i).cleanBuk slot key = true →
    slot = (t + d) / (d / 15) % 16) :
    Kept d t ((lc.entered i key item ((t + d) / (d / 15) % 16)).repos i) key item.val := by
  refine ⟨by simp [entered, CacheRepo.entered], fun slot hs => ?_⟩
  by_contra hne
  exact hne (h slot (by simpa [entered, CacheRepo.entered, hne] using hs))

omit [DecidableEq K] in
theorem Kept.cleaned {slot : Int} (h : Kept d t r key val) (hne : slot ≠ (t + d) / (d / 15) % 16) :
    Kept d t (cleaned slot r) key val := by
  have hno := Bool.eq_false_iff.mpr fun hs => hne (h.2 slot hs)
  refine ⟨by simpa [LocalCache.cleaned, hno] using h.1, fun slot' hs => h.2 slot' ?_⟩
  by_cases hslot : slot' = slot
  · simp [LocalCache.cleaned, hslot] at hs
  · simpa [LocalCache.cleaned, hslot] using hs

omit [DecidableEq K] in
theorem Running.tick (h : Running d lc) (hd : 15 ≤ d) (hlt : lc.cnt + 1 + d < 2147483648) :
    ∃ lc', lc.tick = some lc' ∧ Running d lc' ∧ lc'.cnt = lc.cnt + 1 ∧ lc'.cap = lc.cap ∧
      ∀ i, lc'.repos i = lc.repos i ∨ ∃ m, lc.cnt + 1 = m * (d / 15) ∧
        lc'.repos i = cleaned (m % 16) (lc.repos i) := by
  obtain ⟨hcnt, hidx, hle⟩ := h.cnt
  have hpos : 0 < d / 15 := by omega
  unfold LocalCache.tick
  rw [int32_of_lt (show 0 ≤ lc.cnt + 1 by omega) (by omega)]
  dsimp only
  split_ifs with heq hslot
  · obtain ⟨m, hm⟩ := h.idx
    have hm' : (lc.cnt + 1) / (d / 15) = m := by
      rw [heq, hm, Int.mul_ediv_cancel _ (Int.ne_of_gt hpos)]
    refine ⟨_, rfl, ⟨h.duration, h.step, h.cleanCap, ?_, ⟨m + 1, ?_⟩, fun i key item he => ?_⟩, rfl,
      rfl, fun i => ?_⟩
    · dsimp only
      rw [h.step, int32_of_lt (by omega) (by omega)]
      omega
    · rw [h.step, int32_of_lt (by omega) (by omega), hm, Int.add_mul, Int.one_mul]
    · dsimp only at he
      split_ifs at he
      · rw [cleaned] at he
        dsimp only at he
        split_ifs at he
        exact h.offset i key item he
      · exact h.offset i key item he
    · dsimp only
      rw [h.step, h.cleanCap, (slotOf_eq hpos (show 0 ≤ lc.cnt + 1 by omega)).1, hm']
      split_ifs
      · exact .inr ⟨m, heq.trans hm, rfl⟩
      · exact .inl rfl
  · refine absurd ?_ hslot
    obtain ⟨he, hrange⟩ := slotOf_eq hpos (show 0 ≤ lc.cnt + 1 by omega)
    rw [h.step, h.cleanCap, he]
    exact hrange
  · refine ⟨_, rfl, ⟨h.duration, h.step, h.cleanCap, ?_, h.idx, h.offset⟩, rfl, rfl,
      fun _ => .inl rfl⟩
    dsimp only
    omega

/-! ## Runs -/

def CacheOp.ticks : CacheOp K V → Nat
  | .tick => 1
  | _ => 0

def ticks : List (CacheOp K V) → Nat
  | [] => 0
  | op :: ops => op.ticks + ticks ops

def CacheOp.On (i : Int) (key : K) : CacheOp K V → Prop
  | .put i' key' _ => i' = i ∧ key' = key
  | .get i' key' => i' = i ∧ key' = key
  | .tick => False

/-- Some ticks have passed, and what is kept stays if it is not touched. -/
structure Passed (d : Int) (lc lc' : LocalCache K V) (n : Int) (on : Int → K → Prop) : Prop where
  running : Running d lc'
  cnt : lc'.cnt = lc.cnt + n
  cap : lc'.cap = lc.cap
  kept : ∀ {t i key val}, ¬on i key → Kept d t (lc.repos i) key val → t ≤ lc.cnt →
    lc'.cnt < t + d - d / 15 → Kept d t (lc'.repos i) key val

omit [DecidableEq K] in
theorem Running.refl (h : Running d lc) (on : Int → K → Prop) : Passed d lc lc 0 on :=
  ⟨h, (Int.add_zero _).symm, rfl, fun _ hk _ _ => hk⟩

theorem Running.passed_entered (h : Running d lc) (hitem : item.offset = -1) (slot : Int) :
    Passed d lc (lc.entered i key item slot) 0 fun i' key' => i = i' ∧ key = key' :=
  ⟨h.entered hitem slot, (Int.add_zero _).symm, rfl, fun hne hk _ _ => hk.entered hne⟩

section
variable (h : Running d lc) (hd : 15 ≤ d) (hlt : lc.cnt + d < 2147483648)
  (hi : ¬(i < 0 ∨ i ≥ lc.cap)) (key : K)
include h hd hlt hi

theorem Running.put_eq (val : V) : ∃ item, item.offset = -1 ∧ item.val = val ∧
    lc.put i key val = some (lc.entered i key item ((lc.cnt + d) / (d / 15) % 16)) := by
  rw [put, if_neg hi]
  split
  · rename_i item hitem
    exact ⟨{ item with val }, h.offset i key item hitem, rfl,
      h.touch hd hlt false i key (h.offset i key item hitem)⟩
  · exact ⟨⟨val, -1⟩, rfl, rfl, h.touch hd hlt true i key rfl⟩

theorem Running.get_eq (hitem : (lc.repos i).items key = some item) : lc.get i key =
    some (lc.entered i key item ((lc.cnt + d) / (d / 15) % 16), some item.val) := by
  rw [LocalCache.get, if_neg hi, hitem]
  dsimp only
  rw [h.touch hd hlt false i key (h.offset i key item hitem)]
  rfl

end

theorem Running.step_spec (h : Running d lc) (hd : 15 ≤ d) (hr : d % 15 ≤ d / 15)
    (op : CacheOp K V) (hlt : lc.cnt + op.ticks + d < 2147483648) :
    ∃ lc', lc.step op = some lc' ∧ Passed d lc lc' op.ticks fun i key => op.On i key := by
  cases op with
  | put i key val =>
    by_cases hi : i < 0 ∨ i ≥ lc.cap
    · exact ⟨lc, if_pos hi, h.refl _⟩
    · obtain ⟨item, hitem, -, hput⟩ := h.put_eq hd (by simpa [CacheOp.ticks] using hlt) hi key val
      exact ⟨_, hput, h.passed_entered hitem _⟩
  | get i key =>
    by_cases hi : i < 0 ∨ i ≥ lc.cap
    · exact ⟨lc, by rw [LocalCache.step, LocalCache.get, if_pos hi]; rfl, h.refl _⟩
    · cases hitem : (lc.repos i).items key with
      | none => exact ⟨lc, by rw [LocalCache.step, LocalCache.get, if_neg hi, hitem]; rfl, h.refl _⟩
      | some item =>
        have hget := h.get_eq hd (by simpa [CacheOp.ticks] using hlt) hi key hitem
        exact ⟨_, by rw [LocalCache.step, hget]; rfl,
          h.passed_entered (h.offset i key item hitem) _⟩
  | tick =>
    obtain ⟨lc', htick, hrun, hcnt, hcap, hrepos⟩ := h.tick hd hlt
    refine ⟨lc', htick, hrun, hcnt, hcap, fun _ hk ht hlt' => ?_⟩
    rcases hrepos _ with he | ⟨m, hm, he⟩
    · exact he ▸ hk
    · rw [he]
      exact hk.cleaned (cleaning_ne rfl (by omega) hr (by omega) (by omega))

omit [DecidableEq K] in
theorem ticks_append (ops ops' : List (CacheOp K V)) :
    ticks (ops ++ ops') = ticks ops + ticks ops' := by
  induction ops with
  | nil => exact (Nat.zero_add _).symm
  | cons op ops ih => rw [cons_append, ticks, ticks, ih, Nat.add_assoc]

theorem Running.run_spec (h : Running d lc) (hd : 15 ≤ d) (hr : d % 15 ≤ d / 15)
    (ops : List (CacheOp K V)) (hlt : lc.cnt + ticks ops + d < 2147483648) :
    ∃ lc', run LocalCache.step lc ops = some lc' ∧
      Passed d lc lc' (ticks ops) fun i key => ∃ op ∈ ops, op.On i key := by
  induction ops generalizing lc with
  | nil => exact ⟨lc, rfl, h.refl _⟩
  | cons op ops ih =>
    rw [ticks] at hlt ⊢
    obtain ⟨lc₁, hstep, h₁⟩ := h.step_spec hd hr op (by omega)
    have hcnt := h₁.cnt
    obtain ⟨lc', hrun, h'⟩ := ih h₁.running (by omega)
    have hcnt' := h'.cnt
    refine ⟨lc', run_cons_eq_some.mpr ⟨lc₁, hstep, hrun⟩, h'.running, by omega,
      h'.cap.trans h₁.cap, fun hne hk ht hlt' => ?_⟩
    have hk₁ := h₁.kept (fun hon => hne ⟨op, mem_cons_self, hon⟩) hk ht (by omega)
    exact h'.kept (fun ⟨o, ho, hon⟩ => hne ⟨o, mem_cons_of_mem _ ho, hon⟩) hk₁ (by omega) hlt'

def Touches (lc : LocalCache K V) (i : Int) (key : K) (val : V) : CacheOp K V → Prop
  | .put i' key' val' => (i' = i ∧ key' = key) ∧ val' = val
  | .get i' key' => (i' = i ∧ key' = key) ∧ ((lc.repos i).items key).map CacheItem.val = some val
  | .tick => False

omit [DecidableEq K] in
theorem exists_start {cap : Int} (hcap : cap ≤ 16) (hd : 15 ≤ d) (hlt : 2 * d < 2147483648) :
    ∃ lc : LocalCache K V, start cap d = some lc ∧ Running d lc ∧ lc.cnt = 0 ∧
      lc.cap = cap := by
  have hmax : max (int32 d) 15 = d := by
    rw [int32_of_lt (by omega) (by omega)]
    omega
  have hd0 : d ≠ 0 := by omega
  have hidx : int32 (15 * (d / 15)) = 15 * (d / 15) := int32_of_lt (by omega) (by omega)
  have hall : int32 (16 * (d / 15)) = 16 * (d / 15) := int32_of_lt (by omega) (by omega)
  have hdiv : d.tdiv 15 = d / 15 := Int.tdiv_eq_ediv_of_nonneg (by omega)
  have hsize : cleanBukSize - 1 = 15 := rfl
  refine ⟨⟨cap, 0, d, 15 * (d / 15), d / 15, 16 * (d / 15),
    fun _ => ⟨fun _ => none, fun _ _ => false⟩⟩, ?_, ⟨rfl, rfl, rfl, ?_, ⟨15, rfl⟩, nofun⟩, rfl,
    rfl⟩
  · rw [start, if_pos hd0,
      if_pos (show cap ≤ cleanBukSize from hcap), hsize, hmax, hdiv, hidx,
      show int32 (cleanBukSize * (d / 15)) = _ from hall]
  · dsimp only
    omega

theorem Touches.kept {op : CacheOp K V} (ht : Touches lc i key val op) (h : Running d lc)
    (hd : 15 ≤ d) (hlt : lc.cnt + d < 2147483648) (hi : ¬(i < 0 ∨ i ≥ lc.cap))
    (hslot : ∀ slot, (lc.repos i).cleanBuk slot key = true → slot = (lc.cnt + d) / (d / 15) % 16) :
    ∃ lc', lc.step op = some lc' ∧ Kept d lc.cnt (lc'.repos i) key val := by
  cases op with
  | put i' key' val =>
    obtain ⟨⟨rfl, rfl⟩, rfl⟩ := ht
    obtain ⟨item, -, rfl, hput⟩ := h.put_eq hd hlt hi key' val
    exact ⟨_, hput, kept_entered_self hslot⟩
  | get i' key' =>
    obtain ⟨⟨rfl, rfl⟩, hval⟩ := ht
    obtain ⟨item, hitem, rfl⟩ := map_eq_some_iff.mp hval
    have hget := h.get_eq hd hlt hi key' hitem
    exact ⟨_, by rw [step, hget]; rfl, kept_entered_self hslot⟩
  | tick => exact ht.elim

/-- **An item stays for its duration** after it was stored or read, if it is entered in no other
slot; and no index is out of range. -/
theorem get_of_touched (cap : Int) (hcap : cap ≤ 16) (hd : 15 ≤ d) (hr : d % 15 ≤ d / 15)
    (ops : List (CacheOp K V)) (hlt : ticks ops + 2 * d < 2147483648) :
    ∃ lc₀ lc : LocalCache K V, LocalCache.start cap d = some lc₀ ∧
      run LocalCache.step lc₀ ops = some lc ∧
      ∀ before op after lc₁ i key val, ops = before ++ op :: after →
        run LocalCache.step lc₀ before = some lc₁ → 0 ≤ i → i < cap → Touches lc₁ i key val op →
        (∀ slot, (lc₁.repos i).cleanBuk slot key = true →
          slot = slotOf lc₁.cleanCap lc₁.cleanStep (lc₁.cnt + d)) →
        (∀ op' ∈ after, ¬op'.On i key) → ticks after < d - lc₁.cleanStep →
        ∃ lc', lc.get i key = some (lc', some val) := by
  obtain ⟨lc₀, hstart, h₀, hcnt₀, hcap₀⟩ := exists_start (K := K) (V := V) hcap hd (by omega)
  obtain ⟨lc, hrun, -⟩ := h₀.run_spec hd hr ops (by omega)
  refine ⟨lc₀, lc, hstart, hrun, ?_⟩
  rintro before op after lc₁ i key val rfl hbefore h0 hi htouch hslot hafter hticks
  have hsum : ticks (before ++ op :: after) = ticks before + (op.ticks + ticks after) := by
    rw [ticks_append, ticks]
  obtain ⟨lc₁', hrun₁, h₁⟩ := h₀.run_spec hd hr before (by omega)
  obtain rfl := some.inj (hbefore.symm.trans hrun₁)
  have hcnt₁ := h₁.cnt
  obtain ⟨lc₂, hstep, h₂⟩ := h₁.running.step_spec hd hr op (by omega)
  have hcnt₂ := h₂.cnt
  obtain ⟨lc₃, hrun₃, h₃⟩ := h₂.running.run_spec hd hr after (by omega)
  have hcnt₃ := h₃.cnt
  obtain rfl : lc₃ = lc := by
    obtain ⟨lc₁', hb, hrest⟩ := run_append_eq_some.mp hrun
    obtain rfl := some.inj (hbefore.symm.trans hb)
    obtain ⟨lc₂', hs, hrest⟩ := run_cons_eq_some.mp hrest
    obtain rfl := some.inj (hstep.symm.trans hs)
    exact some.inj (hrun₃.symm.trans hrest)
  have hi₁ : ¬(i < 0 ∨ i ≥ lc₁.cap) := by
    rw [h₁.cap, hcap₀]
    omega
  have hi₃ : ¬(i < 0 ∨ i ≥ lc₃.cap) := by
    rw [h₃.cap, h₂.cap]
    exact hi₁
  rw [h₁.running.step] at hticks
  rw [h₁.running.step, h₁.running.cleanCap,
    (slotOf_eq (show 0 < d / 15 by omega) (by have := h₁.running.cnt.1; omega)).1] at hslot
  have hnot : op.ticks = 0 := by
    cases op <;> first | rfl | exact htouch.elim
  obtain ⟨lc₂', hs, hkept⟩ := htouch.kept h₁.running hd (by omega) hi₁ hslot
  obtain rfl := some.inj (hstep.symm.trans hs)
  have hkept₃ := h₃.kept (fun ⟨o, ho, hon⟩ => hafter o ho hon) hkept (by omega) (by omega)
  obtain ⟨item, hitem, rfl⟩ := map_eq_some_iff.mp hkept₃.1
  exact ⟨_, h₃.running.get_eq hd (by omega) hi₃ key hitem⟩

end

theorem get_of_touched_once : ∃ lc₀ lc : LocalCache String Int,
    LocalCache.start 1 30 = some lc₀ ∧
      run LocalCache.step lc₀ [.put 0 "k" 7, .tick, .tick, .tick] = some lc ∧
      ∃ lc', lc.get 0 "k" = some (lc', some 7) := by
  obtain ⟨lc₀, lc, hstart, hrun, hkept⟩ := get_of_touched (V := Int) (d := 30) 1 (by decide)
    (by decide) (by decide) [.put 0 "k" 7, .tick, .tick, .tick] (by decide)
  obtain rfl := some.inj hstart
  refine ⟨_, lc, rfl, hrun, hkept [] _ _ _ 0 "k" 7 rfl rfl (by decide) (by decide)
    ⟨⟨rfl, rfl⟩, rfl⟩ nofun ?_ (by decide)⟩
  simp [CacheOp.On]

/-- An item that is read ten ticks after it was stored goes at the first cleaning of its first slot;
a cache with more than 16 repositories cannot be started. -/
theorem read_item_removed :
    (∃ lc₀ lc lc' : LocalCache String Int, LocalCache.start 1 15 = some lc₀ ∧
      run LocalCache.step lc₀ ([.put 0 "k" 7] ++ replicate 10 .tick ++ [.get 0 "k"] ++
        replicate 5 .tick) = some lc ∧ lc.get 0 "k" = some (lc', none)) ∧
    LocalCache.start (K := String) (V := Int) 17 15 = none := by
  refine ⟨⟨_, _, _, rfl, rfl, rfl⟩, rfl⟩

end Ligase.Cache

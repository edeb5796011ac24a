import Mathlib.Tactic.Linarith
import Mathlib.Tactic.Ring

/-!
# Snowflake identifiers

`UidGenerator` hands out 64-bit identifiers `timestamp(42) | sequence(12) | worker(10)`. A call of
`next` reads the clock at least once; the clock is the list of the successive `UnixNano` readings,
and a call consumes the readings it takes.

* **`nexts_increasing_iff`**: when the identifiers of a run increase strictly.
* **`issues_disjoint`**: generators with disjoint workers never return one identifier.
-/

namespace Ligase.Uid

open List Option

/-! ## The generator -/

def BaseTs : Int := 1530687318000
def SeqLen : Nat := 12
def WorkerLen : Nat := 10
def WorkerMask : Int := 2 ^ WorkerLen - 1
def SeqMask : Int := 2 ^ SeqLen - 1
def TsShift : Nat := SeqLen + WorkerLen
def SeqShift : Nat := WorkerLen
def MaxWorkId : Int := 2 ^ WorkerLen - 1

structure UidGenerator where
  idStart : Int
  idEnd : Int
  idCur : Int
  lastTs : Int
  seq : Int

/-- `NewIdGenerator`; `none` is the panic on a bad worker range. -/
def newIdGenerator (start finish : Int) : Option UidGenerator :=
  if start > MaxWorkId ∨ start < 0 ∨ finish > MaxWorkId ∨ finish < 0 ∨ start > finish then none
  else some { idStart := start, idEnd := finish, idCur := start, lastTs := -1, seq := 0 }

/-- `NewDefaultIdGenerator`: one worker id, `0` for instance `-1`. -/
def newDefaultIdGenerator (instanceID : Int) : Option UidGenerator :=
  if instanceID ≠ -1 then newIdGenerator instanceID instanceID else newIdGenerator 0 0

/-- A clock reading in milliseconds; Go's division truncates. -/
def getMs (nano : Int) : Int := nano.tdiv 1000000

/-- The busy-wait: read the clock until a reading, in nanoseconds, exceeds `cur`. -/
def waitNext (cur : Int) : List Int → Option (Int × List Int)
  | [] => none
  | nano :: clock => if nano > cur then some (getMs nano, clock) else waitNext cur clock

/-- The reading a call works with; a clock behind `lastTs` is slept out and read again. -/
def readNow (lastTs : Int) : List Int → Option (Int × List Int)
  | [] => none
  | nano :: clock =>
    if getMs nano < lastTs then
      match clock with
      | [] => none
      | nano' :: clock' => some (getMs nano', clock')
    else some (getMs nano, clock)

/-- `(now-BaseTs)<<TsShift | seq<<SeqShift | idCur`, in 64-bit arithmetic. -/
def pack (now seq idCur : Int) : BitVec 64 :=
  BitVec.ofInt 64 (now - BaseTs) <<< TsShift ||| BitVec.ofInt 64 seq <<< SeqShift |||
    BitVec.ofInt 64 idCur

/-- `Next`: the identifier, the generator and the readings left; `none` when the call is still
waiting for the clock at the end of the readings. -/
def next (g : UidGenerator) (clock : List Int) : Option (Int × UidGenerator × List Int) := do
  let (now, clock) ← readNow g.lastTs clock
  let (now, seq, idCur, clock) ←
    if now = g.lastTs then
      let seq := (g.seq + 1) % SeqMask
      if seq = 0 then
        if g.idCur < g.idEnd then some (now, seq, g.idCur + 1, clock)
        else do
          let (now, clock) ← waitNext (g.lastTs * 1000000) clock
          some (now, 0, g.idStart, clock)
      else some (now, seq, g.idCur, clock)
    else some (now, 0, g.idStart, clock)
  some ((pack now seq idCur).toInt, { g with idCur := idCur, lastTs := now, seq := seq }, clock)

def nexts : Nat → UidGenerator → List Int → Option (List Int)
  | 0, _, _ => some []
  | n + 1, g, clock => do
    let (id, g', clock') ← next g clock
    let ids ← nexts n g' clock'
    some (id :: ids)

variable {x id : Int} {g g' : UidGenerator} {clock clock' : List Int}

theorem nexts_succ (n : Nat) (g : UidGenerator) (clock : List Int) : nexts (n + 1) g clock =
    (next g clock).bind fun r => (nexts n r.2.1 r.2.2).bind fun ids => some (r.1 :: ids) := rfl

/-! ## Packing the fields -/

theorem shiftLeft_or_eq_add {w k : Nat} (x y : BitVec w) (hy : y.toNat < 2 ^ k) :
    x <<< k ||| y = x <<< k + y := by
  rw [BitVec.add_eq_or_of_and_eq_zero]
  ext i hi
  by_cases hk : i < k
  · simp [hk]
  · have : y[i] = false := by
      rw [← BitVec.getLsbD_eq_getElem, ← BitVec.testBit_toNat]
      exact Nat.testBit_lt_two_pow (hy.trans_le (Nat.pow_le_pow_right (by norm_num) (by omega)))
    simp [this]

theorem ofInt_shiftLeft (w : Nat) (x : Int) (k : Nat) :
    BitVec.ofInt w x <<< k = BitVec.ofInt w (x * 2 ^ k) := by
  have h : BitVec.ofInt w (2 ^ k) = BitVec.twoPow w k := by
    apply BitVec.eq_of_toNat_eq
    simp only [BitVec.toNat_ofInt, Nat.cast_pow, Nat.cast_ofNat, BitVec.toNat_twoPow]
    norm_cast
  rw [BitVec.shiftLeft_eq_mul_twoPow, BitVec.ofInt_mul, h]

theorem toNat_ofInt_lt {k : Nat} (h0 : 0 ≤ x) (hx : x < 2 ^ k) :
    (BitVec.ofInt 64 x).toNat < 2 ^ k := by
  obtain ⟨n, rfl⟩ := Int.eq_ofNat_of_zero_le h0
  have hn : n < 2 ^ k := by exact_mod_cast hx
  exact (Nat.mod_le _ _).trans_lt hn

/-- The timestamp field of an identifier made at `now`, as a signed 42-bit number. -/
def tsField (now : Int) : Int := (now - BaseTs).bmod (2 ^ 42)

/-- **The identifier as a number.** The three fields do not overlap; the top field wraps at 42 bits.
-/
theorem toInt_pack {now seq idCur : Int} (hs : 0 ≤ seq ∧ seq < 2 ^ SeqLen)
    (hw : 0 ≤ idCur ∧ idCur < 2 ^ WorkerLen) :
    (pack now seq idCur).toInt = tsField now * 2 ^ 22 + seq * 2 ^ 10 + idCur := by
  simp only [SeqLen, WorkerLen] at hs hw
  have h : pack now seq idCur =
      BitVec.ofInt 64 ((now - BaseTs) * 2 ^ 22 + (seq * 2 ^ 10 + idCur)) := by
    have hlow : BitVec.ofInt 64 seq <<< 10 ||| BitVec.ofInt 64 idCur =
        BitVec.ofInt 64 (seq * 2 ^ 10 + idCur) := by
      rw [shiftLeft_or_eq_add _ _ (toNat_ofInt_lt hw.1 hw.2), ofInt_shiftLeft, BitVec.ofInt_add]
    unfold pack
    simp only [TsShift, SeqShift, SeqLen, WorkerLen, BitVec.or_assoc]
    rw [hlow, shiftLeft_or_eq_add _ _ (toNat_ofInt_lt (by omega) (by omega)),
      ofInt_shiftLeft, ← BitVec.ofInt_add]
  rw [h, BitVec.toInt_ofInt, Int.bmod_eq_iff (by norm_num)]
  have h1 := Int.le_bmod (x := now - BaseTs) (m := 2 ^ 42) (by norm_num)
  have h2 := Int.bmod_lt (x := now - BaseTs) (m := 2 ^ 42) (by norm_num)
  have h3 := Int.dvd_bmod_sub_self (x := now - BaseTs) (m := 2 ^ 42)
  unfold tsField
  obtain ⟨c, hc⟩ := h3
  norm_num at h1 h2 hc hs hw ⊢
  exact ⟨by omega, by omega, c, by linarith⟩

/-! ## One call -/

structure UidGenerator.WF (g : UidGenerator) : Prop where
  start_nonneg : 0 ≤ g.idStart
  start_le_cur : g.idStart ≤ g.idCur
  cur_le_end : g.idCur ≤ g.idEnd
  end_le : g.idEnd ≤ MaxWorkId
  seq_nonneg : 0 ≤ g.seq
  seq_lt : g.seq < SeqMask

theorem newIdGenerator_eq_some {start finish : Int}
    (h : newIdGenerator start finish = some g) : g.WF ∧ g.lastTs = -1 := by
  unfold newIdGenerator at h
  split_ifs at h with hc
  obtain rfl := some.inj h
  push Not at hc
  exact ⟨⟨hc.2.1, le_rfl, hc.2.2.2.2, hc.2.2.1, le_rfl, by norm_num [SeqMask, SeqLen]⟩, rfl⟩

def UidGenerator.lastId (g : UidGenerator) : Int := (pack g.lastTs g.seq g.idCur).toInt

theorem UidGenerator.WF.lastId_eq (hg : g.WF) :
    g.lastId = tsField g.lastTs * 2 ^ 22 + g.seq * 2 ^ 10 + g.idCur := by
  have h1 := hg.seq_lt
  have h2 := hg.end_le
  simp only [SeqMask, MaxWorkId, SeqLen, WorkerLen] at h1 h2
  exact toInt_pack ⟨hg.seq_nonneg, by simp only [SeqLen]; omega⟩
    ⟨hg.start_nonneg.trans hg.start_le_cur, by have := hg.cur_le_end; simp only [WorkerLen]; omega⟩

def Ahead (g : UidGenerator) (clock : List Int) : Prop := ∀ nano ∈ clock, g.lastTs ≤ getMs nano

theorem waitNext_eq_some {cur now : Int} : ∀ {clock clock' : List Int},
    waitNext cur clock = some (now, clock') → ∃ nano pre, clock = pre ++ nano :: clock' ∧
      now = getMs nano ∧ clock.find? (· > cur) = some nano
  | nano :: clock, clock', h => by
    unfold waitNext at h
    split_ifs at h with hc
    · obtain ⟨rfl, rfl⟩ := h
      exact ⟨nano, [], rfl, rfl, by simp [hc]⟩
    · obtain ⟨x, pre, rfl, hx, hf⟩ := waitNext_eq_some h
      exact ⟨x, nano :: pre, rfl, hx, by rw [find?_cons, decide_eq_false hc]; exact hf⟩

theorem readNow_eq_some {lastTs now : Int} (h : readNow lastTs clock = some (now, clock')) :
    (∃ nano ∈ clock, now = getMs nano) ∧ clock' ⊆ clock := by
  unfold readNow at h
  split at h
  · cases h
  · split_ifs at h
    · split at h
      · cases h
      · obtain ⟨rfl, rfl⟩ := Prod.mk.inj (some.inj h)
        exact ⟨⟨_, by simp, rfl⟩, fun _ hy => by simp [hy]⟩
    · obtain ⟨rfl, rfl⟩ := Prod.mk.inj (some.inj h)
      exact ⟨⟨_, by simp, rfl⟩, fun _ hy => by simp [hy]⟩

structure Called (g g' : UidGenerator) (id : Int) (clock clock' : List Int) : Prop where
  id_eq : id = g'.lastId
  wf : g'.WF
  idStart : g'.idStart = g.idStart
  idEnd : g'.idEnd = g.idEnd
  reading : ∃ nano ∈ clock, g'.lastTs = getMs nano
  rest : clock' ⊆ clock

theorem called_of_next (hg : g.WF) (h : next g clock = some (id, g', clock')) :
    Called g g' id clock clock' := by
  have hmask : (0 : Int) < SeqMask := by norm_num [SeqMask, SeqLen]
  obtain ⟨⟨now, rest⟩, hread, h⟩ := bind_eq_some_iff.mp h
  obtain ⟨hnow, hrest⟩ := readNow_eq_some hread
  have hstart := hg.start_le_cur.trans hg.cur_le_end
  dsimp only at h
  split_ifs at h with heq hseq hcur
  · obtain ⟨rfl, rfl, rfl⟩ := by simpa using h
    exact ⟨rfl, ⟨hg.start_nonneg, hg.start_le_cur.trans (by simp), hcur, hg.end_le, hseq.ge,
      hseq.trans_lt hmask⟩, rfl, rfl, hnow, hrest⟩
  · obtain ⟨⟨now', rest'⟩, hwait, h⟩ := bind_eq_some_iff.mp h
    obtain ⟨rfl, rfl, rfl⟩ := by simpa using h
    obtain ⟨nano, pre, rfl, rfl, -⟩ := waitNext_eq_some hwait
    exact ⟨rfl, ⟨hg.start_nonneg, le_rfl, hstart, hg.end_le, le_rfl, hmask⟩, rfl, rfl,
      ⟨nano, hrest (by simp), rfl⟩, fun y hy => hrest (by simp [hy])⟩
  · obtain ⟨rfl, rfl, rfl⟩ := by simpa using h
    exact ⟨rfl, ⟨hg.start_nonneg, hg.start_le_cur, hg.cur_le_end, hg.end_le,
      Int.emod_nonneg _ hmask.ne', Int.emod_lt_of_pos _ hmask⟩, rfl, rfl, hnow, hrest⟩
  · obtain ⟨rfl, rfl, rfl⟩ := by simpa using h
    exact ⟨rfl, ⟨hg.start_nonneg, le_rfl, hstart, hg.end_le, le_rfl, hmask⟩, rfl, rfl, hnow, hrest⟩

/-- **What a call does.** The first reading is in a later millisecond; or it is in the last one, and
the sequence advances, or has run out and the next worker id is taken, or has run out with the
worker ids and the call waits for the clock. -/
theorem next_eq_some (hg : g.WF)
    (hc : Ahead g clock) (h : next g clock = some (id, g', clock')) :
    id = g'.lastId ∧ ∃ nano rest, clock = nano :: rest ∧
      ((getMs nano ≠ g.lastTs ∧ clock' = rest ∧
          g' = { g with idCur := g.idStart, lastTs := getMs nano, seq := 0 }) ∨
        (getMs nano = g.lastTs ∧ g.seq + 1 ≠ SeqMask ∧ clock' = rest ∧
          g' = { g with seq := g.seq + 1 }) ∨
        (getMs nano = g.lastTs ∧ g.seq + 1 = SeqMask ∧ g.idCur < g.idEnd ∧ clock' = rest ∧
          g' = { g with idCur := g.idCur + 1, seq := 0 }) ∨
        (getMs nano = g.lastTs ∧ g.seq + 1 = SeqMask ∧ ¬ g.idCur < g.idEnd ∧
          ∃ now, waitNext (g.lastTs * 1000000) rest = some (now, clock') ∧
            g' = { g with idCur := g.idStart, lastTs := now, seq := 0 })) := by
  obtain _ | ⟨nano, rest⟩ := clock
  · simp [next, readNow] at h
  have hread : readNow g.lastTs (nano :: rest) = some (getMs nano, rest) := by
    simp only [readNow]
    rw [if_neg (not_lt.mpr (hc nano mem_cons_self))]
  simp only [next, hread, bind_eq_bind, bind_some] at h
  by_cases hms : getMs nano = g.lastTs
  · rw [if_pos hms] at h
    by_cases hseq : g.seq + 1 = SeqMask
    · rw [hseq, Int.emod_self, if_pos rfl] at h
      by_cases hid : g.idCur < g.idEnd
      · rw [if_pos hid] at h
        obtain ⟨rfl, rfl, rfl⟩ := h
        exact ⟨rfl, nano, _, rfl, .inr (.inr (.inl ⟨hms, hseq, hid, rfl, by rw [hms]⟩))⟩
      · rw [if_neg hid] at h
        cases hw : waitNext (g.lastTs * 1000000) rest with
        | none => simp [hw] at h
        | some r =>
          obtain ⟨now, left⟩ := r
          simp only [hw, bind_some, some.injEq, Prod.mk.injEq] at h
          obtain ⟨rfl, rfl, rfl⟩ := h
          exact ⟨rfl, nano, rest, rfl, .inr (.inr (.inr ⟨hms, hseq, hid, now, hw, rfl⟩))⟩
    · have hlt : g.seq + 1 < SeqMask := lt_of_le_of_ne hg.seq_lt hseq
      have hpos : g.seq + 1 ≠ 0 := by have := hg.seq_nonneg; omega
      rw [Int.emod_eq_of_lt (by have := hg.seq_nonneg; omega) hlt, if_neg hpos] at h
      obtain ⟨rfl, rfl, rfl⟩ := h
      exact ⟨rfl, nano, _, rfl, .inr (.inl ⟨hms, hseq, rfl, by rw [hms]⟩)⟩
  · rw [if_neg hms] at h
    obtain ⟨rfl, rfl, rfl⟩ := h
    exact ⟨rfl, nano, _, rfl, .inl ⟨hms, rfl, rfl⟩⟩

/-- A clock: readings that do not go back and start at or after `BaseTs`. -/
structure Clock (clock : List Int) : Prop where
  sorted : clock.Pairwise (· ≤ ·)
  base : ∀ nano ∈ clock, BaseTs * 1000000 ≤ nano

theorem getMs_mono {y : Int} (hx : BaseTs * 1000000 ≤ x) (h : x ≤ y) : getMs x ≤ getMs y := by
  have hb : (0 : Int) ≤ BaseTs * 1000000 := by norm_num [BaseTs]
  unfold getMs
  rw [Int.tdiv_eq_ediv_of_nonneg (hb.trans hx), Int.tdiv_eq_ediv_of_nonneg ((hb.trans hx).trans h)]
  exact Int.ediv_le_ediv (by norm_num) h

theorem base_le_getMs (hx : BaseTs * 1000000 ≤ x) : BaseTs ≤ getMs x := by
  have h := getMs_mono (x := BaseTs * 1000000) le_rfl hx
  have e : getMs (BaseTs * 1000000) = BaseTs := by decide
  omega

theorem Clock.of_append {pre rest : List Int} (h : Clock (pre ++ rest)) : Clock rest :=
  ⟨(pairwise_append.mp h.sorted).2.1, fun x hx => h.base x (mem_append_right _ hx)⟩

theorem next_ahead (hg : g.WF)
    (hk : Clock clock) (hc : Ahead g clock) (h : next g clock = some (id, g', clock')) :
    Clock clock' ∧ Ahead g' clock' ∧ BaseTs ≤ g'.lastTs := by
  -- every case reads `g'.lastTs` off a reading `x` that precedes the readings left
  have key : ∀ x pre, clock = pre ++ x :: clock' → g'.lastTs = getMs x →
      Clock clock' ∧ Ahead g' clock' ∧ BaseTs ≤ g'.lastTs := by
    rintro x pre rfl hx
    have hk' := hk.of_append
    have hxb := hk'.base x mem_cons_self
    refine ⟨(show Clock ([x] ++ clock') from hk').of_append, fun y hy => ?_, hx ▸ base_le_getMs hxb⟩
    rw [hx]
    exact getMs_mono hxb ((pairwise_cons.mp hk'.sorted).1 y hy)
  obtain ⟨-, nano, rest, rfl, ⟨-, rfl, rfl⟩ | ⟨hms, -, rfl, rfl⟩ | ⟨hms, -, -, rfl, rfl⟩ |
    ⟨-, -, -, now, hw, rfl⟩⟩ := next_eq_some hg hc h
  · exact key nano [] rfl rfl
  · exact key nano [] rfl hms.symm
  · exact key nano [] rfl hms.symm
  · obtain ⟨x, pre, rfl, rfl, -⟩ := waitNext_eq_some hw
    exact key x (nano :: pre) rfl rfl

/-! ## Runs -/

/-- **A steady call.** If the sequence numbers of the last millisecond have run out, there is no
worker id left and the first reading beyond the start of that millisecond, which ends the busy-wait,
has a larger timestamp field. Otherwise the reading is in the last millisecond, or it has a larger
timestamp field than the last one, if there is one. -/
def Steady (g : UidGenerator) : List Int → Prop
  | [] => True
  | nano :: rest =>
    if getMs nano = g.lastTs ∧ g.seq + 1 = SeqMask then
      ¬ g.idCur < g.idEnd ∧
        ∀ x, rest.find? (· > g.lastTs * 1000000) = some x → tsField g.lastTs < tsField (getMs x)
    else getMs nano = g.lastTs ∨ g.lastTs = -1 ∨ tsField g.lastTs < tsField (getMs nano)

def SteadyRun : Nat → UidGenerator → List Int → Prop
  | 0, _, _ => True
  | n + 1, g, clock =>
    Steady g clock ∧ ∀ r, next g clock = some r → SteadyRun n r.2.1 r.2.2

theorem lastId_lt_iff (hg : g.WF)
    (hl : g.lastTs ≠ -1) (hc : Ahead g clock) (h : next g clock = some (id, g', clock')) :
    g.lastId < id ↔ Steady g clock := by
  have hg' := (called_of_next hg h).wf
  have e := hg.lastId_eq
  have e' := hg'.lastId_eq
  have b1 := hg.end_le
  have b2 := hg.start_nonneg
  have b3 := hg.start_le_cur
  have b4 := hg.cur_le_end
  have b5 := hg.seq_nonneg
  have b6 := hg.seq_lt
  simp only [MaxWorkId, WorkerLen, SeqMask, SeqLen] at b1 b6
  obtain ⟨rfl, nano, rest, rfl, ⟨hms, -, rfl⟩ | ⟨hms, hne, -, rfl⟩ | ⟨hms, heq, hlt, -, rfl⟩ |
    ⟨hms, heq, hlt, now, hw, rfl⟩⟩ := next_eq_some hg hc h
  · simp only [Steady, hms, false_and, if_false, false_or, hl]
    simp only at e'
    omega
  · simp only [Steady, hms, hne, and_false, if_false, true_or, iff_true]
    simp only at e'
    omega
  · simp only [Steady, hms, heq, and_self, if_true, hlt, not_true, false_and, iff_false]
    simp only at e'
    simp only [SeqMask, SeqLen] at heq
    omega
  · obtain ⟨x, -, -, rfl, hf⟩ := waitNext_eq_some hw
    simp only [Steady, hms, heq, and_self, if_true, hlt, not_false_iff, true_and, hf,
      some.injEq, forall_eq']
    simp only at e'
    omega

theorem nexts_increasing_aux : ∀ (n : Nat) {g : UidGenerator} {clock ids : List Int}, g.WF →
    Clock clock → Ahead g clock → g.lastTs ≠ -1 → nexts n g clock = some ids →
      ((g.lastId :: ids).Pairwise (· < ·) ↔ SteadyRun n g clock)
  | 0, g, clock, ids, _, _, _, _, h => by
    obtain rfl := some.inj h
    simp [SteadyRun]
  | n + 1, g, clock, ids, hg, hk, hc, hl, h => by
    simp only [nexts_succ, bind_eq_some_iff, some.injEq] at h
    obtain ⟨⟨id, g', clock'⟩, hn, ids', hr, rfl⟩ := h
    have hid : id = g'.lastId := (next_eq_some hg hc hn).1
    obtain ⟨hk', hc', hb⟩ := next_ahead hg hk hc hn
    have hl' : g'.lastTs ≠ -1 := by
      have : (0 : Int) ≤ BaseTs := by norm_num [BaseTs]
      omega
    have ih := nexts_increasing_aux n (called_of_next hg hn).wf hk' hc' hl' hr
    have hstep := lastId_lt_iff hg hl hc hn
    simp only [SteadyRun, hn, some.injEq, forall_eq']
    rw [← hstep, ← ih, ← hid]
    constructor
    · intro hp
      exact ⟨(pairwise_cons.mp hp).1 id mem_cons_self, (pairwise_cons.mp hp).2⟩
    · rintro ⟨hlt, hp⟩
      refine pairwise_cons.mpr ⟨fun x hx => ?_, hp⟩
      rcases mem_cons.mp hx with rfl | hx
      · exact hlt
      · exact hlt.trans ((pairwise_cons.mp hp).1 x hx)

def Built (g : UidGenerator) : Prop :=
  (∃ start finish, newIdGenerator start finish = some g) ∨
    ∃ instanceID, newDefaultIdGenerator instanceID = some g

theorem Built.wf (h : Built g) : g.WF ∧ g.lastTs = -1 := by
  obtain ⟨s, e, h⟩ | ⟨i, h⟩ := h
  · exact newIdGenerator_eq_some h
  · unfold newDefaultIdGenerator at h
    split_ifs at h
    all_goals exact newIdGenerator_eq_some h

/-- **Identifiers of a run increase exactly when its calls are steady**, for every generator and
every clock. -/
theorem nexts_increasing_iff {g : UidGenerator} {clock ids : List Int} {n : Nat}
    (hg : Built g) (hk : Clock clock) (h : nexts n g clock = some ids) :
    ids.Pairwise (· < ·) ↔ SteadyRun n g clock := by
  obtain ⟨hw, hl⟩ := hg.wf
  have hc : Ahead g clock := fun x hx => by
    have h1 := base_le_getMs (hk.base x hx)
    have h2 : (0 : Int) ≤ BaseTs := by norm_num [BaseTs]
    omega
  obtain _ | n := n
  · obtain rfl := some.inj h
    simp [SteadyRun]
  simp only [nexts_succ, bind_eq_some_iff, some.injEq] at h
  obtain ⟨⟨id, g', clock'⟩, hn, ids', hr, rfl⟩ := h
  obtain ⟨hid, nano, rest, rfl, -⟩ := next_eq_some hw hc hn
  obtain ⟨hk', hc', hb⟩ := next_ahead hw hk hc hn
  have h0 : (0 : Int) ≤ BaseTs := by norm_num [BaseTs]
  have hms : getMs nano ≠ g.lastTs := by
    have := base_le_getMs (hk.base nano mem_cons_self)
    omega
  have ih := nexts_increasing_aux n (called_of_next hw hn).wf hk' hc' (by omega) hr
  have hs : Steady g (nano :: rest) := by
    simp only [Steady, hms, false_and, if_false]
    exact .inr (.inl hl)
  simp only [SteadyRun, hn, some.injEq, forall_eq', hs, true_and]
  rw [← ih, ← hid]

theorem nexts_increasing_iff_three :
    [(0 : Int), 1024, 4194304].Pairwise (· < ·) ↔ SteadyRun 3 ⟨0, 1, 0, -1, 0⟩
      [1530687318000000000, 1530687318000000500, 1530687318001000000] :=
  nexts_increasing_iff (.inl ⟨0, 1, rfl⟩) ⟨by decide, by decide⟩ (by decide)

/-! ## A millisecond that runs out -/

theorem next_same_ms {nano : Int} (clock : List Int)
    (hms : getMs nano = g.lastTs) (h0 : 0 ≤ g.seq) (hs : g.seq + 1 < SeqMask) :
    next g (nano :: clock) = some ((pack g.lastTs (g.seq + 1) g.idCur).toInt,
      { g with seq := g.seq + 1 }, clock) := by
  have hpos : g.seq + 1 ≠ 0 := by omega
  simp only [next, readNow, hms, lt_irrefl, if_false, bind_eq_bind, bind_some,
    if_true, Int.emod_eq_of_lt (by omega : 0 ≤ g.seq + 1) hs, if_neg hpos]

theorem nexts_same_ms (nano : Int) (clock : List Int) (m : Nat) : ∀ (k : Nat) (g : UidGenerator),
    getMs nano = g.lastTs → 0 ≤ g.seq → g.seq + k < SeqMask → ∀ ids,
      nexts m { g with seq := g.seq + k } clock = some ids →
        ∃ ids', nexts (k + m) g (replicate k nano ++ clock) = some (ids' ++ ids)
  | 0, g, _, _, _, ids, h => ⟨[], by simpa using h⟩
  | k + 1, g, hms, h0, hs, ids, h => by
    have hstep := next_same_ms (replicate k nano ++ clock) hms h0 (by omega)
    obtain ⟨ids', h'⟩ := nexts_same_ms nano clock m k { g with seq := g.seq + 1 } hms
      (by change 0 ≤ g.seq + 1; omega) (by change g.seq + 1 + k < SeqMask; omega) ids
      (by rw [← h]; congr 2; push_cast; ring)
    refine ⟨(pack g.lastTs (g.seq + 1) g.idCur).toInt :: ids', ?_⟩
    rw [show k + 1 + m = (k + m) + 1 by omega, replicate_succ, cons_append]
    simp only [nexts_succ, hstep, bind_some, h', cons_append]

def nano₀ : Int := BaseTs * 1000000 + 1

/-- **A millisecond asked for too many identifiers hands one out twice**: the busy-wait compares
nanoseconds with milliseconds and ends at once. -/
theorem nexts_repeat :
    ∃ g, newIdGenerator 0 0 = some g ∧ Clock (List.replicate 4097 nano₀) ∧
      ∃ ids, nexts 4096 g (List.replicate 4097 nano₀) = some ids ∧ ¬ ids.Pairwise (· < ·) := by
  refine ⟨⟨0, 0, 0, -1, 0⟩, rfl, ⟨?_, ?_⟩, ?_⟩
  · exact pairwise_replicate.mpr (.inr le_rfl)
  · intro nano hn
    rw [eq_of_mem_replicate hn]
    decide
  have hlast : nexts 1 ⟨0, 0, 0, BaseTs, 4094⟩ [nano₀, nano₀] = some [0] := by decide
  obtain ⟨ids, h⟩ := nexts_same_ms nano₀ [nano₀, nano₀] 1 4094 ⟨0, 0, 0, BaseTs, 0⟩
    (by decide) le_rfl (by decide) [0] hlast
  have hfirst : ∀ clock, next ⟨0, 0, 0, -1, 0⟩ (nano₀ :: clock) =
      some (0, ⟨0, 0, 0, BaseTs, 0⟩, clock) := fun clock => by rfl
  refine ⟨0 :: (ids ++ [0]), ?_, fun hp => ?_⟩
  · have hc : List.replicate 4097 nano₀ =
        nano₀ :: (List.replicate 4094 nano₀ ++ [nano₀, nano₀]) := by
      change List.replicate (4094 + 2 + 1) nano₀ = _
      rw [replicate_succ, ← replicate_append_replicate]
      rfl
    rw [hc, show 4096 = (4094 + 1) + 1 from rfl, nexts_succ, hfirst, bind_some, h]
    rfl
  · exact absurd ((pairwise_cons.mp hp).1 0 (by simp)) (lt_irrefl 0)

/-! ## Disjoint workers -/

structure Recovered (id : Int) (g : UidGenerator) : Prop where
  nonneg : 0 ≤ id
  ts : ((BitVec.ofInt 64 id).sshiftRight TsShift).toInt + BaseTs = g.lastTs
  seq : ((BitVec.ofInt 64 id).sshiftRight SeqShift &&& BitVec.ofInt 64 SeqMask).toInt = g.seq
  worker : (BitVec.ofInt 64 id &&& BitVec.ofInt 64 WorkerMask).toInt = g.idCur

theorem toInt_and_mask {k : Nat} (h0 : 0 ≤ x) (hx : x < 2 ^ 63) (hk : k < 63) :
    (BitVec.ofInt 64 x &&& BitVec.ofInt 64 (2 ^ k - 1)).toInt = x % 2 ^ k := by
  lift x to Nat using h0
  have hpow : 2 ^ k < 2 ^ 63 := Nat.pow_lt_pow_right (by decide) hk
  have hmask : ((2 : Int) ^ k - 1) = ((2 ^ k - 1 : Nat) : Int) := by
    push_cast [Nat.one_le_two_pow]
    rfl
  have hn : x < 2 ^ 64 := by omega
  have hand : (BitVec.ofInt 64 x &&& BitVec.ofInt 64 (2 ^ k - 1)).toNat = x % 2 ^ k := by
    rw [hmask, BitVec.ofInt_natCast, BitVec.ofInt_natCast, BitVec.toNat_and, BitVec.toNat_ofNat,
      BitVec.toNat_ofNat, Nat.mod_eq_of_lt hn, Nat.mod_eq_of_lt (by omega),
      Nat.and_two_pow_sub_one_eq_mod]
  rw [BitVec.toInt_eq_toNat_of_lt (by omega), hand, Int.natCast_emod,
    Int.natCast_pow, Nat.cast_ofNat]

theorem recovered_lastId (hg : g.WF) (hts : BaseTs ≤ g.lastTs ∧ g.lastTs < BaseTs + 2 ^ 41) :
    Recovered g.lastId g := by
  have hid := hg.lastId_eq
  have hfield : tsField g.lastTs = g.lastTs - BaseTs :=
    Int.bmod_eq_of_le_mul_two (by omega) (by omega)
  have h1 := hg.seq_nonneg
  have h2 := hg.seq_lt
  have h3 := hg.start_nonneg.trans hg.start_le_cur
  have h4 := hg.cur_le_end.trans hg.end_le
  simp only [SeqMask, SeqLen, MaxWorkId, WorkerLen] at h2 h4
  have hnonneg : 0 ≤ g.lastId := by omega
  have hlt : g.lastId < 2 ^ 63 := by omega
  have hint : (BitVec.ofInt 64 g.lastId).toInt = g.lastId := by
    rw [BitVec.toInt_ofInt]
    exact Int.bmod_eq_of_le_mul_two (by omega) (by omega)
  refine ⟨hnonneg, ?_, ?_, ?_⟩
  · rw [BitVec.toInt_sshiftRight, hint, Int.shiftRight_eq_div_pow]
    simp only [TsShift, SeqLen, WorkerLen]
    omega
  · rw [BitVec.sshiftRight_eq, hint, Int.shiftRight_eq_div_pow]
    simp only [SeqMask, SeqShift, SeqLen, WorkerLen]
    rw [toInt_and_mask (by omega) (by omega) (by decide)]
    omega
  · simp only [WorkerMask, WorkerLen]
    rw [toInt_and_mask hnonneg hlt (by decide)]
    omega

/-- A run of `g` over `clock` has a call that returns `id` and leaves the generator `g'`. -/
inductive Issues : UidGenerator → List Int → Int → UidGenerator → Prop
  | now {g g' : UidGenerator} {clock rest : List Int} {id : Int} :
    next g clock = some (id, g', rest) → Issues g clock id g'
  | later {g g₁ g' : UidGenerator} {clock rest : List Int} {first id : Int} :
    next g clock = some (first, g₁, rest) → Issues g₁ rest id g' → Issues g clock id g'

/-- The readings lie in the 2^41 milliseconds from `BaseTs` on; they may go back. -/
def InRange (clock : List Int) : Prop :=
  ∀ nano ∈ clock, BaseTs * 1000000 ≤ nano ∧ nano < (BaseTs + 2 ^ 41) * 1000000

theorem Issues.called (h : Issues g clock id g') (hg : g.WF) :
    ∃ rest, Called g g' id clock rest := by
  induction h with
  | now h => exact ⟨_, called_of_next hg h⟩
  | later h _ ih =>
    have hfirst := called_of_next hg h
    obtain ⟨rest, hlast⟩ := ih hfirst.wf
    obtain ⟨nano, hmem, hnano⟩ := hlast.reading
    exact ⟨rest, hlast.id_eq, hlast.wf, hlast.idStart.trans hfirst.idStart,
      hlast.idEnd.trans hfirst.idEnd, ⟨nano, hfirst.rest hmem, hnano⟩,
      List.Subset.trans hlast.rest hfirst.rest⟩

theorem Called.recovered (h : Called g g' id clock clock') (hclock : InRange clock) :
    Recovered id g' := by
  obtain ⟨nano, hmem, hnano⟩ := h.reading
  obtain ⟨hlo, hhi⟩ := hclock nano hmem
  rw [h.id_eq]
  refine recovered_lastId h.wf ⟨hnano ▸ base_le_getMs hlo, ?_⟩
  have hb : (0 : Int) ≤ BaseTs * 1000000 := by norm_num [BaseTs]
  rw [hnano, getMs, Int.tdiv_eq_ediv_of_nonneg (hb.trans hlo)]
  exact Int.ediv_lt_of_lt_mul (by norm_num) hhi

theorem range_of_newIdGenerator {start finish : Int} (h : newIdGenerator start finish = some g) :
    g.idStart = start ∧ g.idEnd = finish := by
  unfold newIdGenerator at h
  split_ifs at h
  obtain rfl := some.inj h
  exact ⟨rfl, rfl⟩

/-- **Generators with disjoint workers never collide**, whatever the order of their readings; and
shifts and masks give back the fields of every identifier. -/
theorem issues_disjoint {start₁ finish₁ start₂ finish₂ id₁ id₂ : Int} {clock₁ clock₂ : List Int}
    {g₁ g₂ g₁' g₂' : UidGenerator}
    (hnew₁ : newIdGenerator start₁ finish₁ = some g₁)
    (hnew₂ : newIdGenerator start₂ finish₂ = some g₂)
    (hapart : finish₁ < start₂ ∨ finish₂ < start₁)
    (hclock₁ : InRange clock₁) (hclock₂ : InRange clock₂)
    (h₁ : Issues g₁ clock₁ id₁ g₁') (h₂ : Issues g₂ clock₂ id₂ g₂') :
    id₁ ≠ id₂ ∧ Recovered id₁ g₁' ∧ Recovered id₂ g₂' := by
  obtain ⟨_, hc₁⟩ := h₁.called (newIdGenerator_eq_some hnew₁).1
  obtain ⟨_, hc₂⟩ := h₂.called (newIdGenerator_eq_some hnew₂).1
  have hr₁ := hc₁.recovered hclock₁
  have hr₂ := hc₂.recovered hclock₂
  refine ⟨?_, hr₁, hr₂⟩
  rintro rfl
  -- one identifier has one worker field, and the two ranges have no worker in common
  have hcur := hr₁.worker.symm.trans hr₂.worker
  have hs₁ := hc₁.idStart ▸ hc₁.wf.start_le_cur
  have he₁ := hc₁.idEnd ▸ hc₁.wf.cur_le_end
  have hs₂ := hc₂.idStart ▸ hc₂.wf.start_le_cur
  have he₂ := hc₂.idEnd ▸ hc₂.wf.cur_le_end
  obtain ⟨rfl, rfl⟩ := range_of_newIdGenerator hnew₁
  obtain ⟨rfl, rfl⟩ := range_of_newIdGenerator hnew₂
  omega

theorem issues_disjoint_two :
    (4194304 : Int) ≠ 9223372036850581505 ∧ Recovered 4194304 ⟨0, 0, 0, 1530687318001, 0⟩ ∧
      Recovered 9223372036850581505 ⟨1, 1, 1, 3729710573551, 0⟩ := by
  have h₁ : Issues ⟨0, 0, 0, -1, 0⟩
      [1530687318009000000, 1530687318000000000, 1530687318001000000] 4194304
      ⟨0, 0, 0, 1530687318001, 0⟩ := .later rfl (.now rfl)
  have h₂ : Issues ⟨1, 1, 1, -1, 0⟩ [3729710573551999999] 9223372036850581505
      ⟨1, 1, 1, 3729710573551, 0⟩ := .now rfl
  have hnew₁ : newIdGenerator 0 0 = some _ := rfl
  have hnew₂ : newIdGenerator 1 1 = some _ := rfl
  exact issues_disjoint hnew₁ hnew₂ (by decide) (by unfold InRange; decide)
    (by unfold InRange; decide) h₁ h₂

end Ligase.Uid

import Mathlib.Algebra.BigOperators.Group.Finset.Basic
import Mathlib.Algebra.Order.Group.Multiset
import Mathlib.Tactic.Abel
import Ligase.Fed.Send

/-!
# Delivery of received PDUs

Every received PDU is at one place: in a batch already submitted, with the transaction in progress,
or waiting in an item that nobody has taken (`Accounted`).

* **`send_exactly_once`**: the runs in which every PDU is submitted exactly once and in order.
-/

namespace Ligase.Fed

open Lib List Function Option

/-! ## Accounts -/

def ids (pdus : List Pdu) : Multiset String := (pdus.map Pdu.eventID : List String)

variable {k : Nat} {held : Option Pdu} {domain : String} {batch : List Pdu} {p : Pdu} {S : Sorter}

@[simp] theorem ids_nil : ids [] = 0 := rfl

@[simp] theorem ids_cons (p : Pdu) (pdus : List Pdu) : ids (p :: pdus) = {p.eventID} + ids pdus :=
  rfl

@[simp] theorem ids_append (l l' : List Pdu) : ids (l ++ l') = ids l + ids l' := by
  simp [ids]

theorem ids_perm {l l' : List Pdu} (h : l.Perm l') : ids l = ids l' :=
  Multiset.coe_eq_coe.mpr (h.map _)

theorem ids_mergeBatch (S : Sorter) (pdus : List Pdu) (held : Option Pdu) :
    ids (mergeBatch S pdus held) = ids (held.toList ++ pdus) := by
  have hdepth : ∀ l : List Pdu, ids (l.map (·.setDepth 0)) = ids l := by
    intro l
    simp only [ids, List.map_map]
    rfl
  rw [mergeBatch, hdepth, ids_perm (S.perm _), ids_append, ids_append, ids_perm (S.perm pdus)]

def Ordered (pdus : List Pdu) : Prop := pdus.Pairwise fun p q => p.domainOffset ≤ q.domainOffset

theorem ordered_mergeBatch (S : Sorter) (pdus : List Pdu) (held : Option Pdu) :
    Ordered (mergeBatch S pdus held) := by
  unfold Ordered mergeBatch
  rw [pairwise_map]
  exact S.sorted _

def Pc.pdus : Pc → List Pdu
  | .idle => []
  | .started pdus => pdus
  | .loaded pdus _ => pdus
  | .swapped pdus held => held.toList ++ pdus
  | .cleared pdus held => held.toList ++ pdus
  | .merged _ batch => batch

@[simp] theorem pdus_afterMerge (domain : String) (batch : List Pdu) :
    (afterMerge domain batch).pdus = batch := by
  cases batch <;> rfl

def InviteWaitItem.live (item : InviteWaitItem) : Multiset String :=
  if item.isDelete then 0 else {item.event.eventID}

section
variable (s : State)

def State.liveIds : Multiset String := ∑ i ∈ Finset.range s.count, (s.item i).live

theorem item_take_self (i : Nat) :
    (s.take i).item i = { s.item i with isDelete := true } := update_self ..

theorem item_take_of_ne {i : Nat} (h : k ≠ i) : (s.take i).item k = s.item k :=
  update_of_ne h ..

theorem item_hold_self (domain : String) (p : Pdu) :
    (s.hold domain p).item s.count = ⟨p, domain, false⟩ := update_self ..

theorem item_hold_of_ne (domain : String) (p : Pdu) (h : k ≠ s.count) :
    (s.hold domain p).item k = s.item k := update_of_ne h ..

theorem timer_hold_of_ne (domain : String) (p : Pdu) (h : k ≠ s.count) :
    (s.hold domain p).timer k = s.timer k := update_of_ne h ..

theorem liveIds_take {s : State} {i : Nat} (hi : i < s.count) (hd : (s.item i).isDelete = false) :
    s.liveIds = {(s.item i).event.eventID} + (s.take i).liveIds := by
  have hmem := Finset.mem_range.mpr hi
  have hrest : ∑ k ∈ (Finset.range s.count).erase i, ((s.take i).item k).live =
      ∑ k ∈ (Finset.range s.count).erase i, (s.item k).live := by
    refine Finset.sum_congr rfl fun k hk => ?_
    rw [item_take_of_ne s (Finset.ne_of_mem_erase hk)]
  have hself : ((s.take i).item i).live = 0 := by
    rw [item_take_self]
    rfl
  change _ = _ + ∑ k ∈ Finset.range s.count, ((s.take i).item k).live
  rw [State.liveIds, ← Finset.add_sum_erase _ _ hmem, ← Finset.add_sum_erase _ _ hmem, hrest, hself,
    zero_add]
  simp [InviteWaitItem.live, hd]

theorem liveIds_hold (domain : String) (p : Pdu) :
    (s.hold domain p).liveIds = s.liveIds + {p.eventID} := by
  have hrest : ∑ k ∈ Finset.range s.count, ((s.hold domain p).item k).live = s.liveIds := by
    refine Finset.sum_congr rfl fun k hk => ?_
    rw [item_hold_of_ne s domain p (Finset.mem_range.mp hk).ne]
  have hself : ((s.hold domain p).item s.count).live = {p.eventID} := by
    rw [item_hold_self]
    rfl
  change ∑ k ∈ Finset.range (s.count + 1), ((s.hold domain p).item k).live = _
  rw [Finset.sum_range_succ, hrest, hself]

/-! ## The invariant -/

/-- What `Send` knows of the entry and the taken items, and that its batch is in order. -/
def Entry (wait : Option Nat) (count : Nat) (taken : Nat → Bool) : Pc → Prop
  | .loaded _ item => (wait = item ∨ wait = none) ∧ ∀ i, item = some i → i < count
  | .swapped _ _ => ∀ i, wait = some i → taken i = true
  | .cleared _ _ => wait = none
  | .merged _ batch => Ordered batch
  | _ => True

theorem Entry.imp {wait : Option Nat} {count : Nat} {taken taken' : Nat → Bool} {pc : Pc}
    (h : Entry wait count taken pc) (ht : ∀ i, taken i = true → taken' i = true) :
    Entry wait count taken' pc := by
  cases pc with
  | swapped pdus held => exact fun i hi => ht i (h i hi)
  | _ => exact h

theorem Entry.none {wait : Option Nat} {count : Nat} {taken : Nat → Bool} {pc : Pc}
    (h : Entry wait count taken pc) : Entry none count taken pc := by
  cases pc with
  | loaded pdus item => exact ⟨.inr rfl, h.2⟩
  | swapped pdus held => exact nofun
  | cleared pdus held => rfl
  | _ => exact h

/-- **The account of the PDUs.** Nothing is lost or doubled; an item that nobody has taken is in the
entry, with its own goroutine, or with `Send`. -/
structure Accounted : Prop where
  account : ids s.batches.flatten + ids s.send.pdus + s.liveIds = ids s.received
  ordered : ∀ batch ∈ s.batches, Ordered batch
  entry : Entry s.wait s.count (fun i => (s.item i).isDelete) s.send
  wait_lt : ∀ {i}, s.wait = some i → i < s.count
  timer_lt : ∀ {i}, s.timer i ≠ .done → i < s.count
  own : ∀ {i j}, s.timer i = .loaded j ∨ s.timer i = .dropped j → j = i
  tracked : ∀ {i}, i < s.count → (s.item i).isDelete = false →
    (s.wait = some i ∨ s.timer i = .loaded i ∨ s.timer i = .dropped i) ∨
      ∃ pdus, s.send = .loaded pdus (some i)

theorem accounted_start (hasJoined : Bool) (recvOffsets : String → Option EventOffset) :
    Accounted (.start hasJoined recvOffsets) := by
  refine ⟨rfl, ?_, trivial, ?_, ?_, ?_, ?_⟩
  all_goals simp [State.start]

/-- The transaction is not one that `Send` takes for a repeated creation of the room. -/
def Fresh : Act → Prop
  | .merge =>
    match s.send with
    | .cleared (ev :: _) _ => ¬ (ev.type = "m.room.create" ∧ s.hasJoined = true)
    | _ => True
  | _ => True

/-- There is one PDU, or no invite comes last, whatever the order of equal offsets. -/
abbrev InviteAlone (pdus : List Pdu) : Prop :=
  pdus.length = 1 ∨ ∀ p ∈ pdus, p.isInvite = true → ∃ q ∈ pdus, p.domainOffset < q.domainOffset

/-- **A steady step.** A batch of more than one PDU does not end with an invite; and a goroutine
finds in the entry its own item or nothing. -/
def Steady : Act → Prop
  | .merge =>
    match s.send with
    | .cleared pdus held => InviteAlone (held.toList ++ pdus)
    | _ => True
  | .fire i => s.wait = none ∨ s.wait = some i
  | .drop i => s.wait = none ∨ s.wait = some i
  | _ => True

end

instance (s : State) : DecidablePred (Fresh s)
  | .merge => by
    unfold Fresh
    simp only
    split <;> infer_instance
  | .recv _ | .load | .swap | .clear | .submit | .fire _ | .drop _ | .finish _ => .isTrue trivial

instance (s : State) : DecidablePred (Steady s)
  | .merge => by
    unfold Steady
    simp only
    split <;> infer_instance
  | .fire i | .drop i => inferInstanceAs (Decidable (s.wait = none ∨ s.wait = some i))
  | .recv _ | .load | .swap | .clear | .submit | .finish _ => .isTrue trivial

/-! ## Steps keep the account -/

variable {s : State} {pdus : List Pdu} {i : Nat}

section
variable (hs : Accounted s)
include hs

theorem Accounted.outside (hi : i < s.count) (hd : (s.item i).isDelete = false)
    (hsend : ∀ pdus, s.send ≠ .loaded pdus (some i)) :
    s.wait = some i ∨ s.timer i = .loaded i ∨ s.timer i = .dropped i :=
  (hs.tracked hi hd).resolve_right fun ⟨pdus, h⟩ => hsend pdus h

theorem Accounted.recv (hsend : s.send = .idle) (pdus : List Pdu) :
    Accounted { s with send := .started pdus, received := s.received ++ pdus } := by
  refine ⟨?_, hs.ordered, trivial, hs.wait_lt, hs.timer_lt, hs.own, fun hk hd => ?_⟩
  · have h := hs.account
    rw [hsend] at h
    change ids s.batches.flatten + ids pdus + s.liveIds = ids (s.received ++ pdus)
    rw [ids_append, ← h]
    abel
  · exact .inl (hs.outside hk hd (by simp [hsend]))

theorem Accounted.load (hsend : s.send = .started pdus) :
    Accounted { s with send := .loaded pdus s.wait } := by
  refine ⟨?_, hs.ordered, ⟨.inl rfl, fun _ => hs.wait_lt⟩, hs.wait_lt, hs.timer_lt, hs.own,
    fun hk hd => ?_⟩
  · have h := hs.account
    rwa [hsend] at h
  · exact .inl (hs.outside hk hd (by simp [hsend]))

theorem Accounted.eq_of_wait {item : Option Nat} (hsend : s.send = .loaded pdus item)
    (hk : s.wait = some k) : item = some k := by
  have h := hs.entry
  rw [hsend] at h
  rcases h.1 with h | h
  · rw [← h, hk]
  · rw [h] at hk
    cases hk

theorem Accounted.skip {item : Option Nat} (hsend : s.send = .loaded pdus item)
    (hd : ∀ i, item = some i → (s.item i).isDelete = true) :
    Accounted { s with send := .swapped pdus none } := by
  refine ⟨?_, hs.ordered, fun k hk => hd k (hs.eq_of_wait hsend hk), hs.wait_lt, hs.timer_lt,
    hs.own, fun {k} hk hkd => ?_⟩
  · have h := hs.account
    rwa [hsend] at h
  · refine .inl (hs.outside hk hkd fun _ h => ?_)
    rw [hsend] at h
    injection h with _ h
    rw [hd k h] at hkd
    cases hkd

theorem Accounted.take (hsend : s.send = .loaded pdus (some i)) (hd : (s.item i).isDelete = false) :
    Accounted { s.take i with send := .swapped pdus (some (s.item i).event) } := by
  have hentry := hs.entry
  rw [hsend] at hentry
  refine ⟨?_, hs.ordered, fun k hk => ?_, hs.wait_lt, hs.timer_lt, hs.own, fun {k} hk hkd => ?_⟩
  · have h := hs.account
    rw [hsend, liveIds_take (hentry.2 i rfl) hd] at h
    change ids s.batches.flatten + ids ((s.item i).event :: pdus) + (s.take i).liveIds =
      ids s.received
    rw [← h, ids_cons]
    change _ = _ + ids pdus + _
    abel
  · obtain rfl : i = k := some.inj (hs.eq_of_wait hsend hk)
    exact congrArg (·.isDelete) (item_take_self s i)
  · have hne : k ≠ i := by
      rintro rfl
      rw [item_take_self] at hkd
      cases hkd
    rw [item_take_of_ne s hne] at hkd
    refine .inl (hs.outside hk hkd fun _ h => ?_)
    rw [hsend] at h
    cases h
    exact hne rfl

theorem Accounted.clear (hsend : s.send = .swapped pdus held) :
    Accounted { s with wait := none, send := .cleared pdus held } := by
  have hentry := hs.entry
  rw [hsend] at hentry
  refine ⟨?_, hs.ordered, rfl, nofun, hs.timer_lt, hs.own, fun {k} hk hd => ?_⟩
  · have h := hs.account
    rwa [hsend] at h
  · rcases hs.outside hk hd (by simp [hsend]) with h | h
    · exact absurd (hd.symm.trans (hentry k h)) Bool.false_ne_true
    · exact .inl (.inr h)

theorem Accounted.submit (hsend : s.send = .merged domain batch) :
    Accounted { s.input domain batch with send := .idle } := by
  have hentry := hs.entry
  rw [hsend] at hentry
  refine ⟨?_, fun b hb => ?_, trivial, hs.wait_lt, hs.timer_lt, hs.own, fun hk hd => ?_⟩
  · have h := hs.account
    rw [hsend] at h
    change ids (s.batches ++ [batch]).flatten + 0 + s.liveIds = ids s.received
    rw [← h, flatten_append, ids_append]
    simp [Pc.pdus]
  · rcases mem_append.mp hb with hb | hb
    · exact hs.ordered b hb
    · rw [mem_singleton.mp hb]
      exact hentry
  · exact .inl (hs.outside hk hd (by simp [hsend]))

end

theorem Ordered.le_getLast {q : Pdu} (h : Ordered batch)
    (hp : batch.getLast? = some p) (hq : q ∈ batch) : q.domainOffset ≤ p.domainOffset := by
  obtain ⟨l, rfl⟩ := getLast?_eq_some_iff.mp hp
  rcases mem_append.mp hq with hq | hq
  · exact (pairwise_append.mp h).2.2 q hq p (mem_singleton_self p)
  · rw [mem_singleton.mp hq]

theorem mergeBatch_eq_singleton (hst : InviteAlone (held.toList ++ pdus))
    (hp : (mergeBatch S pdus held).getLast? = some p) (hinv : p.isInvite = true) :
    mergeBatch S pdus held = [p] := by
  have hperm : (S.sort (held.toList ++ S.sort pdus)).Perm (held.toList ++ pdus) :=
    (S.perm _).trans ((S.perm pdus).append_left _)
  have hmem : ∀ q ∈ held.toList ++ pdus, q.setDepth 0 ∈ mergeBatch S pdus held := fun q hq =>
    mem_map_of_mem (hperm.mem_iff.mpr hq)
  rcases hst with hlen | hmax
  · have hlen' : (mergeBatch S pdus held).length = 1 := by
      rw [mergeBatch, length_map, hperm.length_eq, hlen]
    obtain ⟨q, hq⟩ := length_eq_one_iff.mp hlen'
    rw [hq] at hp ⊢
    rw [show q = p from some.inj hp]
  · obtain ⟨q, hq, rfl⟩ := mem_map.mp (mem_of_getLast? hp)
    obtain ⟨r, hr, hlt⟩ := hmax q (hperm.mem_iff.mp hq) hinv
    have hle := (ordered_mergeBatch S pdus held).le_getLast hp (hmem r hr)
    exact absurd hle (not_le.mpr hlt)

section
variable (hs : Accounted s)
include hs

theorem Accounted.hold (hwait : s.wait = none)
    (hids : ids s.send.pdus = {p.eventID}) (hsend : ∀ pdus item, s.send ≠ .loaded pdus item) :
    Accounted { s.hold domain p with send := .idle } := by
  have hlt : ∀ {k}, k < s.count + 1 → k ≠ s.count → k < s.count := by omega
  refine ⟨?_, hs.ordered, trivial, ?_, fun {k} hk => ?_, fun {k j} hk => ?_, fun {k} hk hd => ?_⟩
  · change ids s.batches.flatten + 0 + (s.hold domain p).liveIds = ids s.received
    rw [liveIds_hold, ← hs.account, hids]
    abel
  · rintro k ⟨⟩
    exact Nat.lt_succ_self _
  · by_cases hc : k = s.count
    · exact hc ▸ Nat.lt_succ_self _
    · rw [timer_hold_of_ne s domain p hc] at hk
      exact (hs.timer_lt hk).trans (Nat.lt_succ_self _)
  · by_cases hc : k = s.count
    · subst hc
      simp [State.hold] at hk
    · rw [timer_hold_of_ne s domain p hc] at hk
      exact hs.own hk
  · by_cases hc : k = s.count
    · exact .inl (.inl (congrArg some hc.symm))
    · rw [item_hold_of_ne s domain p hc] at hd
      rcases hs.outside (hlt hk hc) hd fun pdus => hsend pdus _ with h | h
      · rw [hwait] at h
        cases h
      · rw [← timer_hold_of_ne s domain p hc] at h
        exact .inl (.inr h)

theorem Accounted.dispose (hwait : s.wait = none) (hsend : ∀ pdus item, s.send ≠ .loaded pdus item)
    (hids : ids s.send.pdus = ids batch) (hord : Ordered batch)
    (hone : ∀ p, batch.getLast? = some p → p.isInvite = true → batch = [p]) :
    Accounted (s.dispose domain batch) := by
  have hkept : Accounted { s with send := afterMerge domain batch } := by
    refine ⟨?_, hs.ordered, ?_, hs.wait_lt, hs.timer_lt, hs.own, fun hk hd => ?_⟩
    · have h := hs.account
      rw [hids] at h
      change _ + ids (afterMerge domain batch).pdus + s.liveIds = _
      rw [pdus_afterMerge, h]
    · cases batch with
      | nil => trivial
      | cons q l => exact hord
    · exact .inl (hs.outside hk hd fun pdus => hsend pdus _)
  unfold State.dispose
  cases hp : batch.getLast? with
  | none =>
    rw [getLast?_eq_none_iff.mp hp] at hkept
    exact hkept
  | some p =>
    simp only
    split_ifs with hinv
    · obtain rfl := hone p hp hinv
      exact hs.hold hwait (by simpa using hids) hsend
    · exact hkept

variable {finished : String → Option EventOffset}

theorem Accounted.merge (hsend : s.send = .cleared pdus held)
    (hst : InviteAlone (held.toList ++ pdus)) :
    Accounted (s.merge S finished domain pdus held) := by
  have hwait : s.wait = none := by
    have h := hs.entry
    rwa [hsend] at h
  have hbatch : ids s.send.pdus = ids (mergeBatch S pdus held) := by
    rw [hsend, ids_mergeBatch]
    rfl
  have hreq : Accounted (s.request (finished domain) domain (mergeBatch S pdus held)) :=
    ⟨hs.account, hs.ordered, hs.entry, hs.wait_lt, hs.timer_lt, hs.own, hs.tracked⟩
  refine hreq.dispose hwait (fun _ _ h => ?_) hbatch (ordered_mergeBatch S pdus held)
    fun p hp hinv => mergeBatch_eq_singleton hst hp hinv
  exact absurd (hsend.symm.trans h) nofun

/-! ### Goroutines -/

theorem Accounted.timer_lt_of_update {pc : Timer} {k : Nat} (hi : s.timer i ≠ .done)
    (hk : update s.timer i pc k ≠ .done) : k < s.count := by
  by_cases hc : k = i
  · exact hs.timer_lt (hc ▸ hi)
  · exact hs.timer_lt (by simpa [hc] using hk)

theorem Accounted.fire (hst : s.wait = none ∨ s.wait = some i)
    (hi : s.timer i = .sleeping) :
    Accounted { s with timer := update s.timer i (match s.wait with
      | some j => .loaded j
      | none => .done) } := by
  refine ⟨hs.account, hs.ordered, hs.entry, hs.wait_lt, fun {k} hk => ?_, fun {k j} hk => ?_,
    fun {k} hk hd => ?_⟩
  · exact hs.timer_lt_of_update (by simp [hi]) hk
  · by_cases hc : k = i
    · subst hc
      rcases hst with h | h
      · simp [h] at hk
      · simpa [h, eq_comm] using hk
    · exact hs.own (by simpa [hc] using hk)
  · by_cases hc : k = i
    · subst hc
      refine (hs.tracked hk hd).imp_left fun h => .inl ?_
      simpa [hi] using h
    · refine (hs.tracked hk hd).imp_left fun h => ?_
      simpa [hc] using h

theorem Accounted.drop {j : Nat} (hst : s.wait = none ∨ s.wait = some i)
    (hi : s.timer i = .loaded j) :
    Accounted { s with wait := none, timer := update s.timer i (.dropped j) } := by
  obtain rfl := hs.own (.inl hi)
  refine ⟨hs.account, hs.ordered, hs.entry.none, nofun, fun {k} hk => ?_, fun {k l} hk => ?_,
    fun {k} hk hd => ?_⟩
  · exact hs.timer_lt_of_update (by simp [hi]) hk
  · by_cases hc : k = j
    · subst hc
      simpa [eq_comm] using hk
    · exact hs.own (by simpa [hc] using hk)
  · by_cases hc : k = j
    · subst hc
      exact .inl (.inr (.inr (update_self ..)))
    · refine (hs.tracked hk hd).imp_left fun h => ?_
      rcases hst with hw | hw
      · simpa [hc, hw] using h
      · simpa [hc, hw, Ne.symm hc] using h

theorem Accounted.done (hi : s.timer i = .dropped i) (hd : (s.item i).isDelete = true) :
    Accounted { s with timer := update s.timer i .done } := by
  refine ⟨hs.account, hs.ordered, hs.entry, hs.wait_lt, fun {k} hk => ?_, fun {k j} hk => ?_,
    fun {k} hk hkd => ?_⟩
  · exact hs.timer_lt_of_update (by simp [hi]) hk
  · by_cases hc : k = i
    · subst hc
      simp at hk
    · exact hs.own (by simpa [hc] using hk)
  · have hc : k ≠ i := by
      rintro rfl
      rw [hd] at hkd
      cases hkd
    refine (hs.tracked hk hkd).imp_left fun h => ?_
    simpa [hc] using h

theorem Accounted.takeOwn (hi : s.timer i = .dropped i) (hd : (s.item i).isDelete = false) :
    Accounted ((s.take i).input (s.item i).domain [(s.item i).event]) := by
  refine ⟨?_, fun b hb => ?_, ?_, hs.wait_lt, hs.timer_lt, hs.own, fun {k} hk hkd => ?_⟩
  · have h := hs.account
    rw [liveIds_take (hs.timer_lt (by simp [hi])) hd] at h
    change ids (s.batches ++ [[(s.item i).event]]).flatten + ids s.send.pdus + (s.take i).liveIds =
      ids s.received
    rw [← h, flatten_append, ids_append]
    simp only [flatten_cons, flatten_nil, append_nil, ids_cons, ids_nil]
    abel
  · rcases mem_append.mp hb with hb | hb
    · exact hs.ordered b hb
    · rw [mem_singleton.mp hb]
      exact pairwise_singleton _ _
  · refine hs.entry.imp fun k hk => ?_
    change ((s.take i).item k).isDelete = true
    by_cases hc : k = i
    · rw [hc, item_take_self]
    · rw [item_take_of_ne s hc]
      exact hk
  · change ((s.take i).item k).isDelete = false at hkd
    have hc : k ≠ i := by
      rintro rfl
      rw [item_take_self] at hkd
      cases hkd
    rw [item_take_of_ne s hc] at hkd
    exact hs.tracked hk hkd

theorem Accounted.finish {j : Nat} (hi : s.timer i = .dropped j) :
    ∀ {t}, (if (s.item j).isDelete then
        some { s with timer := update s.timer i .done }
      else some ((State.take { s with timer := update s.timer i .done } j).input
        (s.item i).domain [(s.item i).event])) = some t → Accounted t := by
  obtain rfl := hs.own (.inr hi)
  intro t h
  split_ifs at h with hd
  · obtain rfl := some.inj h
    exact hs.done hi hd
  · obtain rfl := some.inj h
    have ht := hs.takeOwn hi (by simpa using hd)
    exact ht.done hi (congrArg (·.isDelete) (item_take_self s j))

theorem Accounted.step {t : State} {a : Act} (hf : Fresh s a) (hst : Steady s a)
    (h : step S finished s a = some t) : Accounted t := by
  cases a with
  | recv pdus =>
    simp only [Fed.step] at h
    split at h
    · split_ifs at h
      obtain rfl := some.inj h
      exact hs.recv ‹_› pdus
    · cases h
  | load =>
    simp only [Fed.step] at h
    split at h
    · obtain rfl := some.inj h
      exact hs.load ‹_›
    · cases h
  | swap =>
    simp only [Fed.step] at h
    split at h
    · split_ifs at h with hd
      · obtain rfl := some.inj h
        exact hs.skip ‹_› fun k hk => some.inj hk ▸ hd
      · obtain rfl := some.inj h
        exact hs.take ‹_› (by simpa using hd)
    · rename_i pdus hsend
      obtain rfl := some.inj h
      exact hs.skip hsend nofun
    · cases h
  | clear =>
    simp only [Fed.step] at h
    split at h
    · obtain rfl := some.inj h
      exact hs.clear ‹_›
    · cases h
  | merge =>
    simp only [Fed.step] at h
    split at h
    · rename_i ev pdus held hsend
      simp only [Fresh, Steady, hsend] at hf hst
      split_ifs at h with hcreate hjoined
      · exact absurd ⟨hcreate, hjoined⟩ hf
      · obtain rfl := some.inj h
        have hs' : Accounted { s with hasJoined := true } :=
          ⟨hs.account, hs.ordered, hs.entry, hs.wait_lt, hs.timer_lt, hs.own, hs.tracked⟩
        exact hs'.merge hsend hst
      · obtain rfl := some.inj h
        exact hs.merge hsend hst
    · cases h
  | submit =>
    simp only [Fed.step] at h
    split at h
    · obtain rfl := some.inj h
      exact hs.submit ‹_›
    · cases h
  | fire i =>
    simp only [Fed.step] at h
    split at h
    · obtain rfl := some.inj h
      exact hs.fire hst ‹_›
    · cases h
  | drop i =>
    simp only [Fed.step] at h
    split at h
    · obtain rfl := some.inj h
      exact hs.drop hst ‹_›
    · cases h
  | finish i =>
    simp only [Fed.step] at h
    split at h
    · exact hs.finish ‹_› h
    · cases h

end

/-! ## Runs -/

def State.Quiet (s : State) : Prop :=
  s.send = .idle ∧ s.wait = none ∧ ∀ i < s.count, s.timer i = .sleeping ∨ s.timer i = .done

instance (s : State) : Decidable s.Quiet :=
  inferInstanceAs (Decidable (_ ∧ _ ∧ ∀ i < s.count, _))

theorem Accounted.liveIds_eq_zero (hs : Accounted s) (hq : s.Quiet) : s.liveIds = 0 := by
  refine Finset.sum_eq_zero fun k hk => ?_
  have hlt := Finset.mem_range.mp hk
  have hdel : (s.item k).isDelete = true := by
    by_contra hd
    have h := hs.outside hlt (by simpa using hd) (by simp [hq.1])
    rcases hq.2.2 k hlt with ht | ht <;> simp [hq.2.1, ht] at h
  simp [InviteWaitItem.live, hdel]

/-- **Exactly once and in order.** In a run whose steps are steady, once nothing waits, every
received PDU has been passed to the room server in exactly one place. -/
theorem send_exactly_once {S : Sorter} {finished : String → Option EventOffset} {hasJoined : Bool}
    {recvOffsets : String → Option EventOffset} {acts : List Act} {t : State}
    (hm : RunMeets (step S finished) (fun s a => Fresh s a ∧ Steady s a)
      (.start hasJoined recvOffsets) acts)
    (h : run (step S finished) (.start hasJoined recvOffsets) acts = some t)
    (hnd : (t.received.map Pdu.eventID).Nodup) (hq : t.Quiet) :
    (∀ p ∈ t.received, (t.batches.flatten.map Pdu.eventID).count p.eventID = 1) ∧
      ∀ batch ∈ t.batches, batch.Pairwise fun p q => p.domainOffset ≤ q.domainOffset := by
  have ht : Accounted t :=
    run_invariant (fun hs hc hst => hs.step hc.1 hc.2 hst) (accounted_start _ _) hm h
  refine ⟨fun p hp => ?_, ht.ordered⟩
  have hacc : ids t.batches.flatten = ids t.received := by
    have h := ht.account
    rwa [ht.liveIds_eq_zero hq, hq.1, add_zero, show ids Pc.idle.pdus = 0 from rfl, add_zero] at h
  have hperm := Multiset.coe_eq_coe.mp hacc
  rw [hperm.count_eq]
  exact count_eq_one_of_mem hnd (mem_map_of_mem hp)

def pdu (eventID type membership : String) (domainOffset : Int) : Pdu :=
  ⟨eventID, type, membership, domainOffset, 0⟩

def transaction (pdus : List Pdu) : List Act := [.recv pdus, .load, .swap, .clear, .merge]

def inviteThenJoin : List Act :=
  transaction [pdu "$i" "m.room.member" "invite" 1] ++
    transaction [pdu "$j" "m.room.member" "join" 2] ++ [.submit, .fire 0]

theorem send_exactly_once_inviteThenJoin :
    ∃ t, run (step insertionSorter fun _ => none) (.start true fun _ => none) inviteThenJoin =
        some t ∧
      (∀ p ∈ t.received, (t.batches.flatten.map Pdu.eventID).count p.eventID = 1) ∧
      ∀ batch ∈ t.batches, batch.Pairwise fun p q => p.domainOffset ≤ q.domainOffset := by
  have h : run (step insertionSorter fun _ => none) (.start true fun _ => none) inviteThenJoin =
      some _ := rfl
  exact ⟨_, h, send_exactly_once (by decide) h (by decide) (by decide)⟩

/-- A message and an invite in one transaction; the goroutine of the invite ends its wait. -/
def messageAndInvite : List Act :=
  transaction [pdu "$m" "m.room.message" "" 1, pdu "$i" "m.room.member" "invite" 2] ++
    [.submit, .fire 0, .drop 0, .finish 0]

/-- **The first PDU of a batch that ends with an invite is lost**, and the invite is submitted with
the batch and again after its wait. -/
theorem send_drops_first :
    ∃ t, run (step insertionSorter fun _ => none) (.start true fun _ => none) messageAndInvite =
        some t ∧
      RunMeets (step insertionSorter fun _ => none) Fresh (.start true fun _ => none)
        messageAndInvite ∧
      (t.received.map Pdu.eventID).Nodup ∧ t.Quiet ∧
      t.received.map Pdu.eventID = ["$m", "$i"] ∧
      t.batches.map (·.map Pdu.eventID) = [["$i"], ["$i"]] := by
  refine ⟨_, rfl, ?_⟩
  decide

end Ligase.Fed

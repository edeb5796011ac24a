import Mathlib.Logic.Function.Basic
import Mathlib.Tactic.Common

/-!
# The send record

What has been sent to a destination in a room is kept in a record: the domain offset from which to
go on, the number of events that wait and how often something was sent. There are copies of it in
the memory, in the cache and in the database, and writing one of them may fail.

* `SendRecRepo`: the copies.
* `Copies`: an assertion about the offset of every copy; `Copies.getRec`, `Copies.incrPendingSize`,
  `Copies.updateDomainOffset`: the operations keep it.
-/

namespace Ligase.FedSender

structure RecordItem where
  eventID : String
  sendTimes : Int
  pendingSize : Int
  domainOffset : Int

def RecordItem.wait (amt : Int) (it : RecordItem) : RecordItem :=
  { it with pendingSize := it.pendingSize + amt }

def RecordItem.sent (eventID : String) (domainOffset pendingSizeDecr : Int) (it : RecordItem) :
    RecordItem :=
  ⟨eventID, it.sendTimes + 1, it.pendingSize - pendingSizeDecr, domainOffset⟩

structure Faults where
  cacheOk : Bool
  freeOk : Bool
  dbOk : Bool

/-- The copies of the record of a room and a destination. A goroutine may still hold an item that is
not in the map any more. -/
structure SendRecRepo where
  /-- the items made so far -/
  count : Nat
  item : Nat → RecordItem
  /-- the entry of the map -/
  repo : Option Nat
  cache : Option RecordItem
  db : Option RecordItem
  /-- the offset with which the row of the database was made -/
  created : Option Int

namespace SendRecRepo

def start : SendRecRepo := ⟨0, fun _ => ⟨"", 0, 0, 0⟩, none, none, none, none⟩

variable (r : SendRecRepo)

def load (it : RecordItem) : SendRecRepo :=
  { r with count := r.count + 1, item := Function.update r.item r.count it, repo := some r.count }

variable (f : Faults)

/-- The item of the map, or else a new one from the cache or from the database. -/
def getRec : SendRecRepo × Option Nat :=
  match r.repo with
  | some p => (r, some p)
  | none =>
    match (if f.cacheOk then r.cache else none) with
    | some it => (r.load it, some r.count)
    | none =>
      match (if f.dbOk then r.db else none) with
      | some it =>
        let r' := if f.cacheOk then { r with cache := some it } else r
        (r'.load it, some r.count)
      | none => (r, none)

def unassignRoomPartition : SendRecRepo := { r with repo := none }

def changeCache (change : RecordItem → RecordItem) : SendRecRepo :=
  if f.cacheOk then { r with cache := r.cache.map change }
  else if f.freeOk then { r with cache := none }
  else r

def changeItem (change : RecordItem → RecordItem) : SendRecRepo :=
  match r.repo with
  | some p => { r with item := Function.update r.item p (change (r.item p)) }
  | none => r

def insertRow (it : RecordItem) : SendRecRepo :=
  match r.db with
  | some _ => r
  | none => { r with db := some it, created := some it.domainOffset }

/-- The row gets the offset 0 whatever offset is asked for. -/
def storeRec (domainOffset : Int) : SendRecRepo × Option Nat :=
  let it : RecordItem := ⟨"", 0, 0, domainOffset⟩
  let r' := r.load it
  let r' := if f.cacheOk then { r' with cache := some it }
    else if f.freeOk then { r' with cache := none } else r'
  if f.dbOk then (r'.insertRow ⟨"0", 0, 0, 0⟩, some r.count) else (r', none)

/-- The offset is only used for a row that is not there yet. -/
def incrPendingSize (amt domainOffset : Int) : SendRecRepo :=
  let r := r.changeItem (RecordItem.wait amt)
  let r := r.changeCache f (RecordItem.wait amt)
  if f.dbOk then
    match r.db with
    | some it => { r with db := some (RecordItem.wait amt it) }
    | none => r.insertRow ⟨"", 0, amt, domainOffset⟩
  else r

def updateDomainOffset (eventID : String) (domainOffset pendingSizeDecr : Int) : SendRecRepo :=
  let change := RecordItem.sent eventID domainOffset pendingSizeDecr
  let r := r.changeItem change
  let r := r.changeCache f change
  if f.dbOk then { r with db := r.db.map change } else r

end SendRecRepo

/-! ## Assertions about every copy -/

/-- The offset of every copy meets `P`. Without a row there is no other copy either. -/
structure Copies (P : Int → Prop) (r : SendRecRepo) : Prop where
  item : ∀ p, p < r.count → P (r.item p).domainOffset
  repo : ∀ p, r.repo = some p → p < r.count
  cache : ∀ it, r.cache = some it → P it.domainOffset
  db : ∀ it, r.db = some it → P it.domainOffset
  row : r.db = none → r.count = 0 ∧ r.cache = none ∧ r.created = none

variable {it : RecordItem}

namespace Copies

open SendRecRepo RecordItem

variable {P Q : Int → Prop} {r : SendRecRepo}

theorem start : Copies P .start where
  item := fun p hp => absurd hp (Nat.not_lt_zero p)
  repo := fun _ hp => (nomatch hp)
  cache := fun _ h => (nomatch h)
  db := fun _ h => (nomatch h)
  row := fun _ => ⟨rfl, rfl, rfl⟩

variable (h : Copies P r)
include h

theorem mono (hPQ : ∀ d, P d → Q d) : Copies Q r where
  item := fun p hp => hPQ _ (h.item p hp)
  repo := h.repo
  cache := fun it hit => hPQ _ (h.cache it hit)
  db := fun it hit => hPQ _ (h.db it hit)
  row := h.row

theorem load (hit : P it.domainOffset) (hdb : r.db ≠ none) : Copies P (r.load it) where
  item := by
    intro p hp
    by_cases hpc : p = r.count
    · subst hpc
      simpa [SendRecRepo.load] using hit
    · have hlt : p < r.count := by
        have : p < r.count + 1 := hp
        omega
      simpa [SendRecRepo.load, Function.update_of_ne hpc] using h.item p hlt
  repo := by
    intro p hp
    cases hp
    exact Nat.lt_succ_self _
  cache := h.cache
  db := h.db
  row := fun hnone => absurd hnone hdb

theorem unassign : Copies P r.unassignRoomPartition where
  item := h.item
  repo := fun _ hp => (nomatch hp)
  cache := h.cache
  db := h.db
  row := h.row

theorem setCache (hit : P it.domainOffset) (hdb : r.db ≠ none) :
    Copies P { r with cache := some it } where
  item := h.item
  repo := h.repo
  cache := fun x hx => by
    cases hx
    exact hit
  db := h.db
  row := fun hnone => absurd hnone hdb

theorem db_ne_none_of_cache (hc : r.cache = some it) : r.db ≠ none := by
  intro hnone
  rw [(h.row hnone).2.1] at hc
  cases hc

theorem getRec (f : Faults) :
    Copies P (r.getRec f).1 ∧ (∀ p, (r.getRec f).2 = some p → p < (r.getRec f).1.count) ∧
      r.count ≤ (r.getRec f).1.count ∧ (r.getRec f).1.created = r.created := by
  unfold SendRecRepo.getRec
  split
  · rename_i p hp
    exact ⟨h, fun q hq => by cases hq; exact h.repo p hp, Nat.le_refl _, rfl⟩
  · split
    · rename_i it hit
      have hc : r.cache = some it := by
        split_ifs at hit
        exact hit
      refine ⟨h.load (h.cache it hc) (h.db_ne_none_of_cache hc), fun q hq => ?_, Nat.le_succ _, rfl⟩
      cases hq
      exact Nat.lt_succ_self _
    · split
      · rename_i it hit
        have hd : r.db = some it := by
          split_ifs at hit
          exact hit
        have hne : r.db ≠ none := by simp [hd]
        split_ifs
        · refine ⟨(h.setCache (h.db it hd) hne).load (h.db it hd) hne, fun q hq => ?_,
            Nat.le_succ _, rfl⟩
          cases hq
          exact Nat.lt_succ_self _
        · refine ⟨h.load (h.db it hd) hne, fun q hq => ?_, Nat.le_succ _, rfl⟩
          cases hq
          exact Nat.lt_succ_self _
      · exact ⟨h, fun q hq => (nomatch hq), Nat.le_refl _, rfl⟩

theorem changeItem {change : RecordItem → RecordItem}
    (hchange : ∀ it, P it.domainOffset → P (change it).domainOffset) :
    Copies P (r.changeItem change) := by
  unfold SendRecRepo.changeItem
  split
  · rename_i p hp
    refine ⟨fun q hq => ?_, h.repo, h.cache, h.db, h.row⟩
    by_cases hqp : q = p
    · subst hqp
      simpa using hchange _ (h.item q hq)
    · simpa [Function.update_of_ne hqp] using h.item q hq
  · exact h

theorem changeCache (f : Faults) {change : RecordItem → RecordItem}
    (hchange : ∀ it, P it.domainOffset → P (change it).domainOffset) :
    Copies P (r.changeCache f change) := by
  unfold SendRecRepo.changeCache
  split_ifs
  · refine ⟨h.item, h.repo, fun it hit => ?_, h.db, fun hnone => ?_⟩
    · obtain ⟨x, hx, rfl⟩ := Option.map_eq_some_iff.mp hit
      exact hchange x (h.cache x hx)
    · obtain ⟨h0, hc, hcr⟩ := h.row hnone
      exact ⟨h0, by simp [hc], hcr⟩
  · refine ⟨h.item, h.repo, fun it hit => (nomatch hit), h.db, fun hnone => ?_⟩
    obtain ⟨h0, -, hcr⟩ := h.row hnone
    exact ⟨h0, rfl, hcr⟩
  · exact h

theorem setRow (hit : P it.domainOffset) : Copies P { r with db := some it } where
  item := h.item
  repo := h.repo
  cache := h.cache
  db := fun x hx => by
    cases hx
    exact hit
  row := fun hnone => (nomatch hnone)

end Copies

theorem SendRecRepo.changeItem_count (r : SendRecRepo) (change : RecordItem → RecordItem) :
    (r.changeItem change).count = r.count ∧ (r.changeItem change).db = r.db ∧
      (r.changeItem change).created = r.created := by
  unfold changeItem
  split <;> exact ⟨rfl, rfl, rfl⟩

theorem SendRecRepo.changeCache_count (r : SendRecRepo) (f : Faults)
    (change : RecordItem → RecordItem) :
    (r.changeCache f change).count = r.count ∧ (r.changeCache f change).db = r.db ∧
      (r.changeCache f change).created = r.created := by
  unfold changeCache
  split_ifs <;> exact ⟨rfl, rfl, rfl⟩

namespace Copies

variable {P : Int → Prop} {r : SendRecRepo}

theorem incrPendingSize (h : Copies P r) (f : Faults) (amt d : Int) :
    (r.incrPendingSize f amt d).count = r.count ∧
      (((r.incrPendingSize f amt d).created = r.created ∧ Copies P (r.incrPendingSize f amt d)) ∨
        (r.count = 0 ∧ (r.incrPendingSize f amt d).created = some d ∧
          ∀ Q : Int → Prop, Q d → Copies Q (r.incrPendingSize f amt d))) := by
  have hw : ∀ it : RecordItem, P it.domainOffset →
      P (RecordItem.wait amt it).domainOffset := fun _ hit => hit
  have h' := (h.changeItem hw).changeCache f hw
  obtain ⟨hc₁, hd₁, hcr₁⟩ := r.changeItem_count (RecordItem.wait amt)
  obtain ⟨hc₂, hd₂, hcr₂⟩ := (r.changeItem (RecordItem.wait amt)).changeCache_count f
    (RecordItem.wait amt)
  unfold SendRecRepo.incrPendingSize
  dsimp only
  split_ifs
  · split
    · rename_i it hit
      exact ⟨hc₂.trans hc₁, Or.inl ⟨hcr₂.trans hcr₁, h'.setRow (h'.db it hit)⟩⟩
    · rename_i hnone
      obtain ⟨h0, hcache, -⟩ := h'.row hnone
      unfold SendRecRepo.insertRow
      rw [hnone]
      refine ⟨hc₂.trans hc₁, Or.inr ⟨(hc₂.trans hc₁).symm.trans h0, rfl, fun Q hQ => ?_⟩⟩
      refine ⟨fun p hp => ?_, h'.repo, fun it hit => ?_, fun it hit => ?_, fun hn => (nomatch hn)⟩
      · exact absurd (h0 ▸ hp) (Nat.not_lt_zero p)
      · exact (nomatch hcache.symm.trans hit)
      · cases hit
        exact hQ
  · exact ⟨hc₂.trans hc₁, Or.inl ⟨hcr₂.trans hcr₁, h'⟩⟩

theorem updateDomainOffset (h : Copies P r) (f : Faults) (eventID : String) {d : Int} (hd : P d)
    (decr : Int) :
    Copies P (r.updateDomainOffset f eventID d decr) ∧
      (r.updateDomainOffset f eventID d decr).count = r.count ∧
      (r.updateDomainOffset f eventID d decr).created = r.created := by
  have hs : ∀ it : RecordItem, P it.domainOffset →
      P (RecordItem.sent eventID d decr it).domainOffset := fun _ _ => hd
  have h' := (h.changeItem hs).changeCache f hs
  obtain ⟨hc₁, -, hcr₁⟩ := r.changeItem_count (RecordItem.sent eventID d decr)
  obtain ⟨hc₂, -, hcr₂⟩ := (r.changeItem (RecordItem.sent eventID d
    decr)).changeCache_count f (RecordItem.sent eventID d decr)
  unfold SendRecRepo.updateDomainOffset
  split_ifs
  · refine ⟨⟨h'.item, h'.repo, h'.cache, fun it hit => ?_, fun hnone => ?_⟩, hc₂.trans hc₁,
      hcr₂.trans hcr₁⟩
    · obtain ⟨x, -, rfl⟩ := Option.map_eq_some_iff.mp hit
      exact hd
    · exact h'.row (Option.map_eq_none_iff.mp hnone)
  · exact ⟨h', hc₂.trans hc₁, hcr₂.trans hcr₁⟩

end Copies

end Ligase.FedSender

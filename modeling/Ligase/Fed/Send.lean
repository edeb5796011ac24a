import Mathlib.Data.List.Sort
import Ligase.Lib.Run
import Ligase.Lib.Text

/-!
# Receiving federation transactions

`Send` takes the PDUs of a transaction for one room, puts them in the order of their domain offsets
and submits them to the room server. An invite at the end of a batch waits for up to two seconds in
`inviteWait`, so that the join of an automatic join can be submitted with it: the next transaction
takes it out, or a goroutine submits it when the time is over.

The state holds the shared variables (the entry of the room in `inviteWait`, the items it points to,
the offsets received) and where `Send` and every goroutine stand. A label is one atomic access; the
labels of `Send` and of the goroutines interleave freely, while transactions come one by one.
-/

namespace Ligase.Fed

open Lib Function List

/-! ## PDUs -/

structure Pdu where
  eventID : String
  type : String
  membership : String
  domainOffset : Int
  depth : Int
  deriving DecidableEq

def Pdu.setDepth (p : Pdu) (depth : Int) : Pdu := { p with depth := depth }

def Pdu.isInvite (p : Pdu) : Bool := p.type = "m.room.member" && p.membership = "invite"

/-- `sort.Slice` by domain offset, which is not stable: the result is a sorted rearrangement. -/
structure Sorter where
  sort : List Pdu → List Pdu
  perm : ∀ pdus, (sort pdus).Perm pdus
  sorted : ∀ pdus, (sort pdus).Pairwise fun p q => p.domainOffset ≤ q.domainOffset

def insertionSorter : Sorter where
  sort := insertionSort fun p q => p.domainOffset ≤ q.domainOffset
  perm := perm_insertionSort _
  sorted := fun pdus =>
    have : Std.Total fun p q : Pdu => p.domainOffset ≤ q.domainOffset :=
      ⟨fun p q => le_total p.domainOffset q.domainOffset⟩
    have : IsTrans Pdu fun p q => p.domainOffset ≤ q.domainOffset := ⟨fun _ _ _ => le_trans⟩
    pairwise_insertionSort _ pdus

/-! ## Gaps -/

structure EventOffset where
  eventID : String
  offset : Int

structure GetMissingEventsInfo where
  eventID : String
  limit : Int
  domainOffset : Int
  deriving DecidableEq

def gap (offset : Int) (p : Pdu) : List GetMissingEventsInfo :=
  if offset ≠ int64 (p.domainOffset - 1) ∧ offset < p.domainOffset then
    [⟨p.eventID, int64 (p.domainOffset - offset - 1), p.domainOffset⟩]
  else []

def gaps : List Pdu → List GetMissingEventsInfo
  | p :: q :: pdus => gap p.domainOffset q ++ gaps (q :: pdus)
  | _ => []

def getMissingEvents (eventOffset : EventOffset) (pdus : List Pdu) : List GetMissingEventsInfo :=
  match pdus with
  | [] => []
  | p :: _ => (if eventOffset.offset ≠ 0 then gap eventOffset.offset p else []) ++ gaps pdus

/-- Where the domain's events were left; before the first one, where its backfill began. -/
def lastOffset (recv finished : Option EventOffset) : EventOffset :=
  match recv with
  | some o => if o.offset ≠ 0 then o else finished.getD o
  | none => finished.getD ⟨"", 0⟩

/-! ## State -/

structure InviteWaitItem where
  event : Pdu
  domain : String
  isDelete : Bool

/-- A goroutine sleeps, has loaded an item, has deleted the entry, or has ended. -/
inductive Timer where
  | sleeping
  | loaded (item : Nat)
  | dropped (item : Nat)
  | done
  deriving DecidableEq

/-- `Send` has the PDUs; has loaded the entry; has tried to take the item; has deleted the entry; or
has a batch to submit. -/
inductive Pc where
  | idle
  | started (pdus : List Pdu)
  | loaded (pdus : List Pdu) (item : Option Nat)
  | swapped (pdus : List Pdu) (held : Option Pdu)
  | cleared (pdus : List Pdu) (held : Option Pdu)
  | merged (domain : String) (batch : List Pdu)
  deriving DecidableEq

structure State where
  /-- the entry of the room in `inviteWait` -/
  wait : Option Nat
  /-- the items made so far, each with its goroutine -/
  count : Nat
  item : Nat → InviteWaitItem
  timer : Nat → Timer
  send : Pc
  hasJoined : Bool
  recvOffsets : String → Option EventOffset
  /-- the PDUs of the transactions so far -/
  received : List Pdu
  /-- the calls of `InputRoomEvents` so far -/
  batches : List (List Pdu)
  missing : List GetMissingEventsInfo

def State.start (hasJoined : Bool) (recvOffsets : String → Option EventOffset) : State where
  wait := none
  count := 0
  item := fun _ => ⟨⟨"", "", "", 0, 0⟩, "", true⟩
  timer := fun _ => .done
  send := .idle
  hasJoined := hasJoined
  recvOffsets := recvOffsets
  received := []
  batches := []
  missing := []

/-! ## Steps -/

inductive Act where
  | recv (pdus : List Pdu)
  | load
  | swap
  | clear
  | merge
  | submit
  | fire (i : Nat)
  | drop (i : Nat)
  | finish (i : Nat)

variable (s : State)

def State.take (i : Nat) : State :=
  { s with item := update s.item i { s.item i with isDelete := true } }

/-- Submit a batch and note its last event. -/
def State.input (domain : String) (batch : List Pdu) : State :=
  { s with
    batches := s.batches ++ [batch]
    recvOffsets := match batch.getLast? with
      | some p => update s.recvOffsets domain (some ⟨p.eventID, p.domainOffset⟩)
      | none => s.recvOffsets }

/-- The batch of a transaction: the invite taken over and the PDUs, in order, with depth zero. -/
def mergeBatch (S : Sorter) (pdus : List Pdu) (held : Option Pdu) : List Pdu :=
  (S.sort (held.toList ++ S.sort pdus)).map (·.setDepth 0)

def afterMerge (domain : String) (batch : List Pdu) : Pc :=
  if batch.isEmpty then .idle else .merged domain batch

def State.hold (domain : String) (p : Pdu) : State :=
  { s with
    wait := some s.count
    count := s.count + 1
    item := update s.item s.count ⟨p, domain, false⟩
    timer := update s.timer s.count .sleeping }

def State.request (finished : Option EventOffset) (domain : String) (batch : List Pdu) : State :=
  { s with
    missing := s.missing ++ getMissingEvents (lastOffset (s.recvOffsets domain) finished) batch }

/-- The decision about the last event. A batch that ends with an invite is submitted without its
first event. -/
def State.dispose (domain : String) (batch : List Pdu) : State :=
  match batch.getLast? with
  | some p =>
    if p.isInvite then { s.hold domain p with send := afterMerge domain batch.tail }
    else { s with send := afterMerge domain batch }
  | none => { s with send := .idle }

/-- From the order of the batch to the decision about its last event. -/
def State.merge (S : Sorter) (finished : String → Option EventOffset)
    (domain : String) (pdus : List Pdu) (held : Option Pdu) : State :=
  let batch := mergeBatch S pdus held
  (s.request (finished domain) domain batch).dispose domain batch

def step (S : Sorter) (finished : String → Option EventOffset) (s : State) : Act → Option State
  | .recv pdus =>
    match s.send with
    | .idle =>
      if pdus = [] then none
      else some { s with send := .started pdus, received := s.received ++ pdus }
    | _ => none
  | .load =>
    match s.send with
    | .started pdus => some { s with send := .loaded pdus s.wait }
    | _ => none
  | .swap =>
    match s.send with
    | .loaded pdus (some i) =>
      if (s.item i).isDelete then some { s with send := .swapped pdus none }
      else some { s.take i with send := .swapped pdus (some (s.item i).event) }
    | .loaded pdus none => some { s with send := .swapped pdus none }
    | _ => none
  | .clear =>
    match s.send with
    | .swapped pdus held => some { s with wait := none, send := .cleared pdus held }
    | _ => none
  | .merge =>
    match s.send with
    | .cleared (ev :: pdus) held =>
      if ev.type = "m.room.create" then
        if s.hasJoined then some { s with send := .idle }
        else some ({ s with hasJoined := true }.merge S finished (domainFromID ev.eventID)
          (ev :: pdus) held)
      else some (s.merge S finished (domainFromID ev.eventID) (ev :: pdus) held)
    | _ => none
  | .submit =>
    match s.send with
    | .merged domain batch => some { s.input domain batch with send := .idle }
    | _ => none
  | .fire i =>
    match s.timer i with
    | .sleeping =>
      some { s with timer := update s.timer i (match s.wait with
        | some j => .loaded j
        | none => .done) }
    | _ => none
  | .drop i =>
    match s.timer i with
    | .loaded j => some { s with wait := none, timer := update s.timer i (.dropped j) }
    | _ => none
  | .finish i =>
    match s.timer i with
    | .dropped j =>
      let s' := { s with timer := update s.timer i .done }
      -- the item loaded decides, the event is the goroutine's own
      if (s.item j).isDelete then some s'
      else some ((s'.take j).input (s.item i).domain [(s.item i).event])
    | _ => none

end Ligase.Fed

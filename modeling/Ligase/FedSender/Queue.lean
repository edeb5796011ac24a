import Ligase.FedSender.Record
import Ligase.Lib.Run

/-!
# Destination queues

The events of this server in a room that are for another server go through a queue, one queue for
each of the domains of this server. A goroutine takes transactions from the queue and sends them; it
is started by the first event and ends when nothing is left, and then the queue is released.

The state is that of one room and one destination: the queues and the map that holds them, the send
record, the workers that bring the events, the goroutines, and for the statements the events of
this server and those the destination has acknowledged. A label is one section under the mutex, one
operation of the record or one send; the labels of the workers and of the goroutines interleave
freely.

* `next`: the next transaction.
* `step`: the labels; `Steps`: what each of them does, one case for each outcome.
-/

namespace Ligase.FedSender

open Function

/-! ## Queues -/

structure Event where
  eventID : String
  type : String
  domain : String
  domainOffset : Int
  deriving DecidableEq

abbrev Edu := String

structure DestinationQueue where
  origin : String
  running : Bool
  pendingEvents : List Event
  pendingEDUs : List Edu

structure Target where
  hasRoom : Bool
  domain : String

/-- What `next` returns: a transaction, the id of the event for the record, and what is taken from
the record and the two lists if the transaction is sent. -/
structure Taken where
  pdus : List Event
  edus : List Edu
  eventID : String
  decrementSize : Int
  usePDUSize : Nat
  useEDUSize : Nat
  deriving DecidableEq

def maxSize : Nat := 50

/-- The loop over pending elements stops after the one with an index larger than the limit. -/
def batchSize : Nat := maxSize + 2

/-- The state of the room, unless there is none or the room was made by the destination. -/
def getStateEvs (domain : String) (states : List Event) : Option (List Event) :=
  if states = [] then none
  else
    let sender := ((states.filter (·.type = "m.room.create")).getLast?.map Event.domain).getD ""
    if sender = domain then none else some states

/-- The events of a domain from an offset on. With offset 0 the offset of an event is used. -/
def getPendingEvs (journal : List Event) (origin : String) (domainOffset : Int) (eventID : String)
    (limit : Nat) : List Event :=
  let start : Option Int :=
    if domainOffset = 0 ∧ eventID ≠ "" then
      (journal.find? (·.eventID = eventID)).map Event.domainOffset
    else some domainOffset
  match start with
  | some start => (journal.filter fun e => e.domain = origin ∧ start ≤ e.domainOffset).take limit
  | none => []

/-- What is read outside of the queue: the state of the room and, if the room server answers, the
events. -/
structure World where
  states : List Event
  answers : Bool
  stores : Bool

/-- There are events to be sent: some wait, or the state of the room has not been sent. -/
def HasEvents (tg : Target) (w : World) (it : Option RecordItem) : Prop :=
  (∃ r ∈ it, 0 < r.pendingSize) ∨
    getStateEvs tg.domain w.states ≠ none ∧ ∀ r ∈ it, r.sendTimes = 0

instance (tg : Target) (w : World) (it : Option RecordItem) : Decidable (HasEvents tg w it) :=
  inferInstanceAs (Decidable (_ ∨ _))

namespace DestinationQueue

variable (q : DestinationQueue)

def edus : List Edu := q.pendingEDUs.take batchSize

def stop : DestinationQueue := { q with running := false }

def eduTransaction : Option Taken :=
  if q.edus = [] then none else some ⟨[], q.edus, "", 0, 0, q.edus.length⟩

/-- The state of the room, without what comes from the given offset on. -/
def stateTransaction (pdus : List Event) (domainOffset : Int) : Taken :=
  let pdus := pdus.filter fun ev => ¬ (domainOffset ≠ 0 ∧ ev.domainOffset ≥ domainOffset)
  ⟨pdus, q.edus, (pdus.head?.map Event.eventID).getD "", 0, 0, q.edus.length⟩

variable (journal : List Event)

/-- The events in memory if they go on where the record stands, or else those of the room server. -/
def waiting (w : World) (it : RecordItem) : List Event × Nat :=
  if q.pendingEvents.head?.map Event.domainOffset = some it.domainOffset then
    (q.pendingEvents.take batchSize, (q.pendingEvents.take batchSize).length)
  else if w.answers then
    (getPendingEvs journal q.origin it.domainOffset it.eventID
      (min it.pendingSize.toNat maxSize), 0)
  else ([], 0)

def eventTransaction (w : World) (it : RecordItem) : Option Taken :=
  let (pdus, useSize) := q.waiting journal w it
  match pdus.getLast? with
  | none => q.eduTransaction
  | some last => some ⟨pdus, q.edus, last.eventID, pdus.length, useSize, q.edus.length⟩

/-- No events: the flag is cleared, also if there are EDUs to be sent. -/
def nextEdus : DestinationQueue × Option Taken := (q.stop, q.eduTransaction)

def nextEvents (w : World) (it : Option RecordItem) : DestinationQueue × Option Taken :=
  match it with
  | some it =>
    if it.pendingSize > 0 then (q, q.eventTransaction journal w it) else q.nextEdus
  | none => q.nextEdus

/-- `next`, under the mutex. The last component is the offset with which a record is stored. -/
def next (tg : Target) (journal : List Event) (w : World) (it : Option RecordItem) :
    DestinationQueue × Option Taken × Option Int :=
  if !tg.hasRoom then
    if q.edus = [] then (q.stop, none, none) else (q, q.eduTransaction, none)
  else
    match it, getStateEvs tg.domain w.states with
    | none, some pdus =>
      let domainOffset := (q.pendingEvents.head?.map Event.domainOffset).getD 0
      if w.stores then (q, some (q.stateTransaction pdus domainOffset), some domainOffset)
      else if q.edus = [] then (q.stop, none, some domainOffset)
      else (q, q.eduTransaction, some domainOffset)
    | some it, some pdus =>
      if it.sendTimes = 0 then (q, some (q.stateTransaction pdus it.domainOffset), none)
      else
        let (q, t) := q.nextEvents journal w (some it)
        (q, t, none)
    | it, none =>
      let (q, t) := q.nextEvents journal w it
      (q, t, none)

/-- The transactions `next` may return; `next_takes` says that there are no others. -/
inductive Takes (q : DestinationQueue) (journal : List Event) (w : World) (it : Option RecordItem) :
    Option Taken → Prop
  | none : Takes q journal w it none
  | edus {x : Taken} (hpdus : x.pdus = []) (huse : x.usePDUSize = 0) : Takes q journal w it (some x)
  | state (pdus : List Event) {d : Int}
      (hd : d = (it.map RecordItem.domainOffset).getD
        ((q.pendingEvents.head?.map Event.domainOffset).getD 0)) :
    Takes q journal w it (some (q.stateTransaction pdus d))
  | events {r : RecordItem} {x : Taken} (hr : it = some r)
      (hx : q.waiting journal w r = (x.pdus, x.usePDUSize)) : Takes q journal w it (some x)

variable (journal : List Event) (w : World) (it : Option RecordItem)

theorem eduTransaction_takes : q.Takes journal w it q.eduTransaction := by
  unfold eduTransaction
  split_ifs
  · exact .none
  · exact .edus rfl rfl

theorem nextEvents_takes : (q.nextEvents journal w it).1.pendingEvents = q.pendingEvents ∧
    q.Takes journal w it (q.nextEvents journal w it).2 := by
  have hedus := q.eduTransaction_takes journal w it
  unfold nextEvents nextEdus
  split
  · split_ifs
    · refine ⟨rfl, ?_⟩
      unfold eventTransaction
      dsimp only
      split
      · exact hedus
      · exact .events rfl rfl
    · exact ⟨rfl, hedus⟩
  · exact ⟨rfl, hedus⟩

/-- **`next`** takes nothing off the queue, and with a record it stores none. -/
theorem next_takes (tg : Target) : (q.next tg journal w it).1.pendingEvents = q.pendingEvents ∧
    q.Takes journal w it (q.next tg journal w it).2.1 ∧
      ((it = none → tg.hasRoom = false) → (q.next tg journal w it).2.2 = none) := by
  have hedus := q.eduTransaction_takes journal w it
  unfold next
  by_cases hroom : (!tg.hasRoom) = true
  · split_ifs
    · exact ⟨rfl, .none, fun _ => rfl⟩
    · exact ⟨rfl, hedus, fun _ => rfl⟩
  rw [if_neg hroom]
  have hno : tg.hasRoom ≠ false := by simpa using hroom
  have hev := fun it => q.nextEvents_takes journal w it
  split
  · split_ifs
    · exact ⟨rfl, .state _ rfl, fun h => absurd (h rfl) hno⟩
    · exact ⟨rfl, .none, fun h => absurd (h rfl) hno⟩
    · exact ⟨rfl, hedus, fun h => absurd (h rfl) hno⟩
  · split_ifs
    · exact ⟨rfl, .state _ rfl, fun _ => rfl⟩
    · exact ⟨(hev _).1, (hev _).2, fun _ => rfl⟩
  · exact ⟨(hev _).1, (hev _).2, fun _ => rfl⟩

/-- The flag is cleared only if nothing is returned, unless EDUs are sent without events. -/
theorem next_running {tg : Target} (h : tg.hasRoom → q.pendingEDUs ≠ [] → HasEvents tg w it) :
    (q.next tg journal w it).1 = q ∨ (q.next tg journal w it).2.1 = none := by
  unfold next
  by_cases hroom : (!tg.hasRoom) = true
  · split_ifs
    · exact .inr rfl
    · exact .inl rfl
  rw [if_neg hroom]
  have hev : ¬ (getStateEvs tg.domain w.states ≠ none ∧ ∀ r ∈ it, r.sendTimes = 0) →
      (q.nextEvents journal w it).1 = q ∨ (q.nextEvents journal w it).2 = none := by
    intro hstate
    have hedus : (∃ r ∈ it, 0 < r.pendingSize) ∨ q.eduTransaction = none := by
      by_cases hnil : q.pendingEDUs = []
      · exact .inr (by simp [eduTransaction, edus, hnil])
      · exact .inl ((h (by simpa using hroom) hnil).resolve_right hstate)
    unfold nextEvents nextEdus
    split
    · split_ifs with hpos
      · exact .inl rfl
      · exact .inr (hedus.resolve_left (by simpa using hpos))
    · exact .inr (hedus.resolve_left (by simp))
  split
  · split_ifs
    · exact .inl rfl
    · exact .inr rfl
    · exact .inl rfl
  · split_ifs with htimes
    · exact .inl rfl
    · exact hev fun hstate => htimes (hstate.2 _ rfl)
  · rename_i hnone
    exact hev fun hstate => hstate.1 hnone

end DestinationQueue

/-! ## State -/

/-- A goroutine is at the top of its loop; it has the record; it also has the address; it got
nothing from `next`; it sends; it has the acknowledgement; it has taken the events off the queue; it
has ended. -/
inductive Pc where
  | top
  | located (it : Option Nat)
  | ready (it : Option Nat)
  | empty
  | sending (it : Option Nat) (t : Taken)
  | acked (it : Option Nat) (t : Taken)
  | trimmed (it : Option Nat) (t : Taken)
  | done
  deriving DecidableEq

inductive Msg where
  | event (ev : Event)
  | edu (origin : String) (edu : Edu)
  deriving DecidableEq

def Msg.origin : Msg → String
  | .event ev => ev.domain
  | .edu origin _ => origin

inductive Worker where
  | idle
  | has (msg : Msg)
  | holds (msg : Msg) (queue : Nat)
  deriving DecidableEq

structure State where
  /-- the queues made so far -/
  queueCount : Nat
  queue : Nat → DestinationQueue
  /-- the entries of the map, one for each domain of this server -/
  queues : String → Option Nat
  record : SendRecRepo
  /-- is the partition assigned? -/
  assigned : Bool
  worker : Nat → Worker
  /-- the goroutines started so far, and the queue of each -/
  procCount : Nat
  proc : Nat → Pc
  queueOf : Nat → Nat
  /-- the events of this server in the room -/
  journal : List Event
  /-- the events the destination has acknowledged -/
  acknowledged : List Event

def State.start : State where
  queueCount := 0
  queue := fun _ => ⟨"", false, [], []⟩
  queues := fun _ => none
  record := .start
  assigned := false
  worker := fun _ => .idle
  procCount := 0
  proc := fun _ => .done
  queueOf := fun _ => 0
  journal := []
  acknowledged := []

/-! ## Steps -/

inductive Act where
  /-- the room server stores an event of this server -/
  | create (eventID type domain : String)
  | receive (j : Nat) (ev : Event) (f : Faults)
  | receiveEdu (j : Nat) (origin : String) (edu : Edu)
  | getQueue (j : Nat)
  | enqueue (j : Nat)
  | assign (i : Nat) (lock : Bool) (f : Faults)
  | locate (i : Nat) (ok : Bool)
  | next (i : Nat) (w : World) (f : Faults)
  | check (i : Nat)
  | send (i : Nat) (ok : Bool)
  | trim (i : Nat)
  | commit (i : Nat) (f : Faults)

namespace State

variable (s : State)

def setPc (i : Nat) (pc : Pc) : State := { s with proc := update s.proc i pc }

def setWorker (j : Nat) (w : Worker) : State := { s with worker := update s.worker j w }

def setQueue (n : Nat) (q : DestinationQueue) : State :=
  { s with queue := update s.queue n q }

def unassign : State :=
  { s with assigned := false, record := s.record.unassignRoomPartition }

/-- The partition is given back after a failure. -/
def fail (tg : Target) : State := if tg.hasRoom then s.unassign else s

def release (i : Nat) : State :=
  { s.unassign with
    queues := update s.queues (s.queue (s.queueOf i)).origin none }

def nextOffset (domain : String) : Int := (s.journal.filter (·.domain = domain)).length + 1

def addMsg (q : DestinationQueue) : Msg → DestinationQueue
  | .event ev => { q with pendingEvents := q.pendingEvents ++ [ev] }
  | .edu _ edu => { q with pendingEDUs := q.pendingEDUs ++ [edu] }

def getDestinationQueue (j : Nat) (msg : Msg) : State :=
  match s.queues msg.origin with
  | some n => s.setWorker j (.holds msg n)
  | none =>
    { s with
      queueCount := s.queueCount + 1
      queue := update s.queue s.queueCount ⟨msg.origin, false, [], []⟩
      queues := update s.queues msg.origin (some s.queueCount) }.setWorker j
        (.holds msg s.queueCount)

def go (n : Nat) : State :=
  { s with
    procCount := s.procCount + 1
    proc := update s.proc s.procCount .top
    queueOf := update s.queueOf s.procCount n }

def sendMsg (msg : Msg) (n : Nat) : State :=
  let q := addMsg (s.queue n) msg
  if q.running then s.setQueue n q else (s.setQueue n { q with running := true }).go n

/-- The record and whether there is a partition; a missing record of an assigned partition is a
panic. -/
def assign (tg : Target) (i : Nat) (lock : Bool) (f : Faults) : Option State :=
  if !tg.hasRoom then some (s.setPc i (.located none))
  else
    let (record, it) := s.record.getRec f
    if s.assigned then
      match it with
      | some p => some ({ s with record := record }.setPc i (.located (some p)))
      | none => none
    else if lock then
      match it with
      | some p => some ({ s with record := record, assigned := true }.setPc i (.located (some p)))
      | none => some ((s.release i).setPc i .done)
    else some ((s.release i).setPc i .done)

def afterNext (it : Option Nat) : Option Taken → Pc
  | some t => if t.pdus = [] ∧ t.edus = [] then .empty else .sending it t
  | none => .empty

def next (tg : Target) (i : Nat) (it : Option Nat) (w : World) (f : Faults) : State :=
  let n := s.queueOf i
  let (q, t, stored) := (s.queue n).next tg s.journal w (it.map s.record.item)
  let s := match stored with
    | some d => { s with record := (s.record.storeRec { f with dbOk := w.stores } d).1 }
    | none => s
  (s.setQueue n q).setPc i (afterNext it t)

/-- Take off the queue what was sent; too few elements are a panic. -/
def trim (i : Nat) (it : Option Nat) (t : Taken) : Option State :=
  let q := s.queue (s.queueOf i)
  if t.usePDUSize ≤ q.pendingEvents.length ∧ t.useEDUSize ≤ q.pendingEDUs.length then
    some ((s.setQueue (s.queueOf i) { q with
      pendingEvents := q.pendingEvents.drop t.usePDUSize
      pendingEDUs := q.pendingEDUs.drop t.useEDUSize }).setPc i (.trimmed it t))
  else none

def newOffset (it : RecordItem) (last : Event) : Int :=
  if last.domainOffset + 1 > it.domainOffset then last.domainOffset + 1 else it.domainOffset

def commit (i : Nat) (it : Option Nat) (t : Taken) (f : Faults) : State :=
  match it, t.pdus.getLast? with
  | some p, some last =>
    let record := s.record.updateDomainOffset f t.eventID (newOffset (s.record.item p) last)
      t.decrementSize
    { s with record := record }.setPc i .top
  | _, _ => s.setPc i .top

end State

open State in
def step (tg : Target) (s : State) : Act → Option State
  | .create eventID type domain =>
    some { s with journal := s.journal ++ [⟨eventID, type, domain, s.nextOffset domain⟩] }
  | .receive j ev f =>
    if s.worker j = .idle ∧ ev ∈ s.journal then
      some ({ s with record := s.record.incrPendingSize f 1 ev.domainOffset }.setWorker j
        (.has (.event ev)))
    else none
  | .receiveEdu j origin edu =>
    if s.worker j = .idle then some (s.setWorker j (.has (.edu origin edu))) else none
  | .getQueue j =>
    match s.worker j with
    | .has msg => some (s.getDestinationQueue j msg)
    | _ => none
  | .enqueue j =>
    match s.worker j with
    | .holds msg n => some ((s.sendMsg msg n).setWorker j .idle)
    | _ => none
  | .assign i lock f =>
    match s.proc i with
    | .top => s.assign tg i lock f
    | _ => none
  | .locate i ok =>
    match s.proc i with
    | .located it => if ok then some (s.setPc i (.ready it)) else some ((s.fail tg).setPc i .top)
    | _ => none
  | .next i w f =>
    match s.proc i with
    | .ready it => some (s.next tg i it w f)
    | _ => none
  | .check i =>
    match s.proc i with
    | .empty =>
      if (s.queue (s.queueOf i)).running then some ((s.fail tg).setPc i .top)
      else some ((s.release i).setPc i .done)
    | _ => none
  | .send i ok =>
    match s.proc i with
    | .sending it t =>
      if ok then
        some ({ s with acknowledged := s.acknowledged ++ t.pdus }.setPc i (.acked it t))
      else some ((s.fail tg).setPc i .top)
    | _ => none
  | .trim i =>
    match s.proc i with
    | .acked it t => s.trim i it t
    | _ => none
  | .commit i f =>
    match s.proc i with
    | .trimmed it t => some (s.commit i it t f)
    | _ => none

/-! ## What a step does -/

inductive Steps (tg : Target) (s : State) : Act → State → Prop
  | create (eventID type domain : String) : Steps tg s (.create eventID type domain)
      { s with journal := s.journal ++ [⟨eventID, type, domain, s.nextOffset domain⟩] }
  | receive {j : Nat} {ev : Event} (f : Faults) (hev : ev ∈ s.journal) :
    Steps tg s (.receive j ev f)
      ({ s with record := s.record.incrPendingSize f 1 ev.domainOffset }.setWorker j
        (.has (.event ev)))
  | receiveEdu (j : Nat) (origin : String) (edu : Edu) :
    Steps tg s (.receiveEdu j origin edu) (s.setWorker j (.has (.edu origin edu)))
  | getQueue {j : Nat} {msg : Msg} (hw : s.worker j = .has msg) :
    Steps tg s (.getQueue j) (s.getDestinationQueue j msg)
  | enqueue {j n : Nat} {msg : Msg} (hw : s.worker j = .holds msg n) :
    Steps tg s (.enqueue j) ((s.sendMsg msg n).setWorker j .idle)
  | pass {i : Nat} {lock : Bool} {f : Faults} (hpc : s.proc i = .top) (hroom : tg.hasRoom = false) :
    Steps tg s (.assign i lock f) (s.setPc i (.located none))
  | assign {i p : Nat} {lock : Bool} {f : Faults} (hpc : s.proc i = .top)
      (hp : (s.record.getRec f).2 = some p) :
    Steps tg s (.assign i lock f)
      ({ s with record := (s.record.getRec f).1, assigned := true }.setPc i (.located (some p)))
  | unassigned {i : Nat} {lock : Bool} {f : Faults} (hpc : s.proc i = .top) :
    Steps tg s (.assign i lock f) ((s.release i).setPc i .done)
  | locate {i : Nat} {it : Option Nat} (hpc : s.proc i = .located it) :
    Steps tg s (.locate i true) (s.setPc i (.ready it))
  | unlocated {i : Nat} {it : Option Nat} (hpc : s.proc i = .located it) :
    Steps tg s (.locate i false) ((s.fail tg).setPc i .top)
  | next {i : Nat} {it : Option Nat} (w : World) (f : Faults) (hpc : s.proc i = .ready it) :
    Steps tg s (.next i w f) (s.next tg i it w f)
  | again {i : Nat} (hpc : s.proc i = .empty) (hrun : (s.queue (s.queueOf i)).running = true) :
    Steps tg s (.check i) ((s.fail tg).setPc i .top)
  | finish {i : Nat} (hpc : s.proc i = .empty) :
    Steps tg s (.check i) ((s.release i).setPc i .done)
  | send {i : Nat} {it : Option Nat} {x : Taken} (hpc : s.proc i = .sending it x) :
    Steps tg s (.send i true)
      ({ s with acknowledged := s.acknowledged ++ x.pdus }.setPc i (.acked it x))
  | unsent {i : Nat} {it : Option Nat} {x : Taken} (hpc : s.proc i = .sending it x) :
    Steps tg s (.send i false) ((s.fail tg).setPc i .top)
  | trim {i : Nat} {it : Option Nat} {x : Taken} {t : State} (hpc : s.proc i = .acked it x)
      (ht : s.trim i it x = some t) : Steps tg s (.trim i) t
  | commit {i : Nat} {it : Option Nat} {x : Taken} (f : Faults) (hpc : s.proc i = .trimmed it x) :
    Steps tg s (.commit i f) (s.commit i it x f)

theorem steps_assign {tg : Target} {s t : State} {i : Nat} {lock : Bool} {f : Faults}
    (hpc : s.proc i = .top) (h : s.assign tg i lock f = some t) :
    Steps tg s (.assign i lock f) t := by
  unfold State.assign at h
  dsimp only at h
  split_ifs at h with hroom hassigned
  · cases h
    exact .pass hpc (by simpa using hroom)
  · split at h
    · rename_i p hp
      cases h
      -- the partition was assigned before
      rw [hassigned]
      exact .assign hpc hp
    · exact (nomatch h)
  · split at h
    · rename_i p hp
      cases h
      exact .assign hpc hp
    · cases h
      exact .unassigned hpc
  · cases h
    exact .unassigned hpc

theorem Steps.of_step {tg : Target} {s t : State} {a : Act} (h : step tg s a = some t) :
    Steps tg s a t := by
  cases a with
  | create eventID type domain =>
    cases h
    exact .create eventID type domain
  | receive j ev f =>
    simp only [step] at h
    split_ifs at h with hev
    cases h
    exact .receive f hev.2
  | receiveEdu j origin edu =>
    simp only [step] at h
    split_ifs at h
    cases h
    exact .receiveEdu j origin edu
  | getQueue j =>
    simp only [step] at h
    split at h
    · rename_i hw
      cases h
      exact .getQueue hw
    · exact (nomatch h)
  | enqueue j =>
    simp only [step] at h
    split at h
    · rename_i hw
      cases h
      exact .enqueue hw
    · exact (nomatch h)
  | assign i lock f =>
    simp only [step] at h
    split at h
    · rename_i hpc
      exact steps_assign hpc h
    · exact (nomatch h)
  | locate i ok =>
    simp only [step] at h
    split at h
    · rename_i hpc
      cases ok <;> cases h
      · exact .unlocated hpc
      · exact .locate hpc
    · exact (nomatch h)
  | next i w f =>
    simp only [step] at h
    split at h
    · rename_i hpc
      cases h
      exact .next w f hpc
    · exact (nomatch h)
  | check i =>
    simp only [step] at h
    split at h
    · rename_i hpc
      split_ifs at h with hrun <;> cases h
      · exact .again hpc hrun
      · exact .finish hpc
    · exact (nomatch h)
  | send i ok =>
    simp only [step] at h
    split at h
    · rename_i hpc
      cases ok <;> cases h
      · exact .unsent hpc
      · exact .send hpc
    · exact (nomatch h)
  | trim i =>
    simp only [step] at h
    split at h
    · rename_i hpc
      exact .trim hpc h
    · exact (nomatch h)
  | commit i f =>
    simp only [step] at h
    split at h
    · rename_i hpc
      cases h
      exact .commit f hpc
    · exact (nomatch h)

/-! ## Parts of runs -/

def serverY : Target := ⟨true, "y"⟩

def Faults.none : Faults := ⟨true, true, true⟩

def World.plain : World := ⟨[], true, true⟩

def bring (ev : Event) : List Act := [.receive 0 ev .none, .getQueue 0, .enqueue 0]

def submit (ev : Event) : List Act := .create ev.eventID ev.type ev.domain :: bring ev

def takes (i : Nat) : List Act := [.assign i true .none, .locate i true, .next i .plain .none]

def sends (i : Nat) : List Act := [.send i true, .trim i, .commit i .none]

end Ligase.FedSender

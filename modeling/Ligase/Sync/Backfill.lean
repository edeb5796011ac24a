import Ligase.Sync.Replay

/-!
# Backfilled events

A state event can arrive after newer ones, from a backfill. If it is newer than the current one it
is processed as a live event; else it is inserted into the ranges that are there. The shared ranges
are therefore no longer in the order in which they were made, and a range can be cut in two: the
model keeps the pointers to them.

* `PointerState.onEvent`: a live or backfilled event; `PointerState.checkEventVisibility`: a query.
-/

namespace Ligase.Sync

open Lib List Function

/-! ## Ranges -/

inductive PairMask where
  | none
  | start
  | stop
  | both
  deriving DecidableEq

structure Cell where
  item : RangeItem
  pairMask : PairMask
  deriving DecidableEq

def Cell.setStop (cell : Cell) (stop : Int) : Cell :=
  ⟨⟨cell.item.start, stop⟩, cell.pairMask⟩

/-- A pointer of a view: to a range of the user's own, which no other view holds, or to a shared
range. -/
inductive Ref where
  | own (cell : Cell)
  | shared (id : Nat)

/-- A range of the list an event is inserted into; `id` is the pointer if the range is shared
(`isRef`). -/
structure Slot where
  id : Option Nat
  cell : Cell
  deriving DecidableEq

namespace Slot

def isRef (v : Slot) : Bool := v.id.isSome

def start (v : Slot) : Int := v.cell.item.start

def stop (v : Slot) : Int := v.cell.item.stop

def ref (v : Slot) : Ref :=
  match v.id with
  | none => .own v.cell
  | some id => .shared id

end Slot

/-- The kind of an inserted event: `openClose` is 0, 1 or 2. -/
inductive OpenClose where
  | neither
  | opens
  | closes
  deriving DecidableEq

def OpenClose.ofMembership (membership : String) : OpenClose :=
  if membership = "join" then .opens
  else if membership = "leave" ∨ membership = "ban" then .closes
  else .neither

def OpenClose.ofHistoryVisibility (value : String) : OpenClose :=
  if value = "shared" then .opens else if value = "joined" then .closes else .neither

/-! ## The state of a room -/

/-- The part of the state that visibility depends on. `cells` holds the shared ranges, of which
`next` were made; `curMemberState` has the positions of the current member events. -/
structure PointerState where
  createPos : Int
  historyVisibility : String
  historyVisibilityPos : Int
  members : Members
  cells : Nat → Cell
  next : Nat
  visiableTl : List Nat
  userMemberView : String → Option (List Ref)
  userMemberViewOk : String → Bool
  curMemberState : String → Option Int

namespace PointerState

def newRoomState : PointerState where
  createPos := 0
  historyVisibility := ""
  historyVisibilityPos := 0
  members := ⟨fun _ => none, fun _ => none, fun _ => none⟩
  cells := fun _ => ⟨⟨0, -1⟩, .none⟩
  next := 0
  visiableTl := []
  userMemberView := fun _ => none
  userMemberViewOk := fun _ => false
  curMemberState := fun _ => none

def created (createPos : Int) : PointerState := { newRoomState with createPos := createPos }

variable (rs : PointerState)

def item : Ref → RangeItem
  | .own cell => cell.item
  | .shared id => (rs.cells id).item

def slot : Ref → Slot
  | .own cell => ⟨none, cell⟩
  | .shared id => ⟨some id, rs.cells id⟩

def ranges : List RangeItem := rs.visiableTl.map fun id => (rs.cells id).item

def items (user : String) : List Ref := (rs.userMemberView user).getD []

def storeView (user : String) (items : List Ref) : PointerState :=
  { rs with userMemberView := update rs.userMemberView user (some items) }

def setStop (id : Nat) (stop : Int) : PointerState :=
  { rs with cells := update rs.cells id ((rs.cells id).setStop stop) }

/-! ## Live events -/

/-- The shared ranges that a list of ranges does not cover are appended to it. -/
def addHistory (items : List Ref) : List Ref :=
  extend (fun cur hsItem => (rs.item cur).covers (rs.item hsItem)) items
    (rs.visiableTl.map .shared)

/-- End the last range of a view, which may be a shared one. -/
def endLast (user : String) (items : List Ref) (offset : Int) : PointerState :=
  match items.getLast? with
  | none => rs.storeView user items
  | some (.own cell) =>
    rs.storeView user (items.dropLast ++ [.own (cell.setStop offset)])
  | some (.shared id) => (rs.setStop id offset).storeView user items

def joinView (user : String) (offset : Int) : List Ref :=
  let items := rs.items user
  let items := if items.isEmpty then [.own ⟨⟨rs.createPos, rs.createPos⟩, .none⟩] else items
  let start := if rs.historyVisibility = "shared" then rs.historyVisibilityPos else offset
  rs.addHistory items ++ [.own ⟨⟨start, -1⟩, .none⟩]

def leaveItems (user : String) : List Ref :=
  if (rs.items user).isEmpty then [.own ⟨⟨rs.createPos, -1⟩, .none⟩] else rs.items user

def onUserMembershipChange (user preMembership membership : String) (offset : Int) : PointerState :=
  if membership = "leave" ∨ membership = "ban" then
    if preMembership = "join" then rs.endLast user (rs.leaveItems user) offset else rs
  else if membership = "join" then rs.storeView user (rs.joinView user offset)
  else rs

def onMembership (user membership : String) (pos offset : Int) : PointerState :=
  let pre := rs.members.preMembership user
  let rs := { rs with members := rs.members.update user membership offset }
  if membership ≠ pre then rs.onUserMembershipChange user pre membership pos else rs

def openShared (pos : Int) : PointerState :=
  { rs with
    cells := update rs.cells rs.next ⟨⟨pos, -1⟩, .start⟩
    next := rs.next + 1
    visiableTl := rs.visiableTl ++ [rs.next] }

def closeShared (pos : Int) : PointerState :=
  match rs.visiableTl.getLast? with
  | none => rs
  | some id => rs.setStop id (pos - 1)

def onHistoryVisibility (value : String) (pos : Int) : PointerState :=
  if rs.historyVisibility ≠ value then
    let rs :=
      if value = "shared" then rs.openShared pos
      else if value = "joined" then rs.closeShared pos
      else rs
    { rs with historyVisibility := value, historyVisibilityPos := pos }
  else rs

/-! ## Insertions -/

variable (ranges : List Slot)

/-- The first range of the kind that the position is in. -/
def findRangeIdx (evTS : Int) (isRef : Bool) : Option (Slot × Nat) :=
  ranges.zipIdx.find? fun v =>
    v.1.isRef = isRef && v.1.start ≤ evTS && (evTS < v.1.stop || v.1.stop = -1)

/-- One turn of the loop that looks for the least start from the position on; `min` is -1 before
there is one. -/
def minStartStep (evTS : Int) (cur : Option (Slot × Nat)) (v : Slot × Nat) : Option (Slot × Nat) :=
  let min := (cur.map (·.1.start)).getD (-1)
  if evTS ≤ v.1.start ∧ (v.1.start < min ∨ min = -1) then some v else cur

def minStartIdx (evTS : Int) : Option (Slot × Nat) :=
  ranges.zipIdx.foldl (minStartStep evTS) none

/-- One turn of the loop that looks for the largest end before the position; `max` is -1 before
there is one. -/
def maxStopStep (evTS : Int) (cur : Option (Slot × Nat)) (v : Slot × Nat) : Option (Slot × Nat) :=
  let max := (cur.map (·.1.stop)).getD (-1)
  if v.1.stop ≠ -1 ∧ v.1.stop < evTS ∧ (max < v.1.stop ∨ max = -1) then some v else cur

def maxStopIdx (evTS : Int) : Option (Slot × Nat) :=
  ranges.zipIdx.foldl (maxStopStep evTS) none

/-- The ranges after an insertion, with the flags `isLastOne` and `isAppend`. -/
structure Inserted where
  ranges : List Slot
  isLastOne : Bool
  isAppend : Bool

/-- The insertion of a join or of the value `shared`. A range that only has an end gets its start;
another one is cut in two, the second of which is new. Outside of all ranges a new one goes up to
the next, or is open if there is none: but if the room is not shared, a room-wide one goes up to the
event that ended it. -/
def insertOpen (new : Option Nat) (ts : Int) : Inserted :=
  match findRangeIdx ranges ts new.isSome with
  | some (v, i) =>
    if v.cell.pairMask = .stop then
      ⟨ranges.take i ++ [⟨v.id, ⟨⟨ts, v.stop⟩, .both⟩⟩] ++ ranges.drop (i + 1), false, false⟩
    else
      let mask := if v.cell.pairMask = .start then PairMask.start else .both
      let tail := ranges.drop (i + 1)
      ⟨ranges.take i ++ [⟨v.id, ⟨⟨v.start, ts - 1⟩, .start⟩⟩, ⟨new, ⟨⟨ts, v.stop⟩, mask⟩⟩] ++ tail,
        tail.isEmpty && mask = .start, true⟩
  | none =>
    match minStartIdx ranges ts with
    | some (v, i) =>
      ⟨ranges.take i ++ [⟨new, ⟨⟨ts, v.start - 1⟩, .start⟩⟩] ++ ranges.drop i, false, true⟩
    | none =>
      let cell : Cell :=
        if new.isSome ∧ rs.historyVisibility = "joined" ∧ ts < rs.historyVisibilityPos then
          ⟨⟨ts, rs.historyVisibilityPos⟩, .both⟩
        else ⟨⟨ts, -1⟩, .start⟩
      ⟨ranges ++ [⟨new, cell⟩], true, true⟩

/-- The insertion of a leave or of the value `joined`. A range that only has a start gets its end;
another one is cut in two, the first of which is new. Outside of all ranges a new one is made from
the end of the one before, or from the creation of the room. -/
def insertClose (new : Option Nat) (ts : Int) : Inserted :=
  match findRangeIdx ranges ts new.isSome with
  | some (v, i) =>
    if v.cell.pairMask = .start then
      ⟨ranges.take i ++ [⟨v.id, ⟨⟨v.start, ts - 1⟩, .both⟩⟩] ++ ranges.drop (i + 1), false, false⟩
    else
      let mask := if v.cell.pairMask = .stop then PairMask.stop else .both
      ⟨ranges.take i ++ [⟨new, ⟨⟨v.start, ts - 1⟩, mask⟩⟩, ⟨v.id, ⟨⟨ts, v.stop⟩, .stop⟩⟩] ++
        ranges.drop (i + 1), false, true⟩
  | none =>
    let found := maxStopIdx ranges ts
    let start := (found.map (·.1.stop + 1)).getD rs.createPos
    let idx := (found.map (·.2 + 1)).getD 0
    let tail := ranges.drop idx
    ⟨ranges.take idx ++ [⟨new, ⟨⟨start, ts - 1⟩, .stop⟩⟩] ++ tail, tail.isEmpty, true⟩

/-- The ranges after an event that is not newer than the current one; `new` is the pointer of a new
range. -/
def insertIntoRanges (new : Option Nat) (ts : Int) : OpenClose → Inserted
  | .neither => ⟨ranges, false, false⟩
  | .opens => rs.insertOpen ranges new ts
  | .closes => rs.insertClose ranges new ts

/-- A member event is inserted into the view of its user. -/
def insertMember (user membership : String) (pos : Int) : PointerState :=
  let items := rs.items user
  let items := if items.isEmpty then [.own ⟨⟨rs.createPos, rs.createPos⟩, .none⟩] else items
  let ins := rs.insertIntoRanges (items.map rs.slot) none pos (.ofMembership membership)
  { rs.storeView user (ins.ranges.map Slot.ref) with
    curMemberState :=
      if ins.isLastOne then update rs.curMemberState user (some pos)
      else rs.curMemberState }

def cellAfter (id : Nat) : Cell :=
  ((ranges.find? fun v => v.id = some id).map Slot.cell).getD (rs.cells id)

/-- A change of the history visibility is inserted into the room-wide ranges; if a range is new, all
views are to be arranged again. -/
def insertHistoryVisibility (value : String) (pos : Int) : PointerState :=
  let openClose := OpenClose.ofHistoryVisibility value
  let ins := rs.insertIntoRanges (rs.visiableTl.map fun id => rs.slot (.shared id)) (some rs.next)
    pos openClose
  let value :=
    if openClose = .opens ∧ ins.ranges.getLast?.map (·.cell.pairMask) = some .start then "shared"
    else "joined"
  { rs with
    cells := rs.cellAfter ins.ranges
    next := if ins.isAppend then rs.next + 1 else rs.next
    visiableTl := ins.ranges.filterMap Slot.id
    historyVisibility := if ins.isLastOne then value else rs.historyVisibility
    historyVisibilityPos := if ins.isLastOne then pos else rs.historyVisibilityPos
    userMemberViewOk := if ins.isAppend then fun _ => false else rs.userMemberViewOk }

end PointerState

/-! ## Events and queries -/

inductive StateEvent where
  | create
  | member (user membership : String)
  | historyVisibility (value : String)
  deriving DecidableEq

namespace PointerState

variable (rs : PointerState)

def newer (user : String) (pos : Int) : Bool :=
  match rs.curMemberState user with
  | none => false
  | some cur => cur < pos

def liveMember (user membership : String) (pos offset : Int) : PointerState :=
  { rs.onMembership user membership pos offset with
    curMemberState := update rs.curMemberState user (some pos) }

/-- An event with its `OriginServerTS` and stream offset. -/
def onEvent (ev : StateEvent) (pos offset : Int) (backfill : Bool) : PointerState :=
  match ev with
  | .create => if backfill then rs else { rs with createPos := pos }
  | .member user membership =>
    if !backfill || rs.newer user pos then rs.liveMember user membership pos offset
    else rs.insertMember user membership pos
  | .historyVisibility value =>
    if !backfill || rs.historyVisibilityPos < pos then rs.onHistoryVisibility value pos
    else rs.insertHistoryVisibility value pos

def arrangeVisibilityRange (user : String) : PointerState :=
  rs.storeView user (rs.addHistory (rs.items user))

def queried (user : String) : PointerState :=
  if rs.userMemberViewOk user then rs
  else { rs.arrangeVisibilityRange user with
    userMemberViewOk := update rs.userMemberViewOk user true }

def sees (user : String) (pos : Int) : Bool :=
  match rs.userMemberView user with
  | none => true
  | some items => items.any fun r => (rs.item r).has pos

def checkEventVisibility (user : String) (pos : Int) : Bool × PointerState :=
  let rs := rs.queried user
  (rs.sees user pos, rs)

end PointerState

theorem check_eq (rs : PointerState) (user : String) (pos : Int) :
    (rs.checkEventVisibility user pos).1 = if rs.userMemberViewOk user then rs.sees user pos
      else (rs.addHistory (rs.items user)).any fun r => (rs.item r).has pos := by
  unfold PointerState.checkEventVisibility PointerState.queried
  split_ifs with hok
  · rfl
  · unfold PointerState.sees PointerState.arrangeVisibilityRange PointerState.storeView
    dsimp only
    rw [update_self]
    rfl

/-- What happens to a room: an event, live or backfilled, or a query. -/
inductive Action where
  | event (ev : StateEvent) (pos offset : Int) (backfill : Bool)
  | query (user : String)

def PointerState.act (rs : PointerState) : Action → PointerState
  | .event ev pos offset backfill => rs.onEvent ev pos offset backfill
  | .query user => rs.queried user

section
variable {rs : PointerState} {user membership : String} {pos : Int} {items : List Ref}

theorem endLast_setMembers {m : Members} : ({ rs with members := m }).endLast user items pos =
    { rs.endLast user items pos with members := m } := by
  unfold PointerState.endLast
  cases items.getLast? with
  | none => rfl
  | some r => cases r <;> rfl

theorem onUserMembershipChange_setMembers {m : Members} {pre : String} :
    ({ rs with members := m }).onUserMembershipChange user pre membership pos =
      { rs.onUserMembershipChange user pre membership pos with members := m } := by
  unfold PointerState.onUserMembershipChange
  rw [endLast_setMembers]
  split_ifs <;> rfl

/-- A leave or ban of a user who is in the room ends the last range, a join of one who is not builds
a view. -/
def PointerState.memberRanges (rs : PointerState) (user membership : String) (pos : Int) :
    PointerState :=
  if (membership = "leave" ∨ membership = "ban") ∧ (rs.members.join user).isSome = true then
    rs.endLast user (rs.leaveItems user) pos
  else if membership = "join" ∧ rs.members.join user = none then
    rs.storeView user (rs.joinView user pos)
  else rs

theorem onMembership_eq (rs : PointerState) (user membership : String) (pos offset : Int) :
    rs.onMembership user membership pos offset = { rs.memberRanges user membership pos with
      members := rs.members.update user membership offset } := by
  unfold PointerState.onMembership
  dsimp only
  rw [onUserMembershipChange_setMembers]
  cases hj : rs.members.join user with
  | none =>
    have hpre : rs.members.preMembership user ≠ "join" := by
      rw [Ne, Members.preMembership_eq_join, hj]
      simp
    unfold PointerState.memberRanges PointerState.onUserMembershipChange
    by_cases hm : membership = "join"
    · simp [hm, hj, hpre.symm]
    · simp [hm, hj, hpre]
  | some off =>
    have hpre : rs.members.preMembership user = "join" := by
      rw [Members.preMembership_eq_join, hj]
      rfl
    unfold PointerState.memberRanges PointerState.onUserMembershipChange
    by_cases hl : membership = "leave" ∨ membership = "ban"
    · have hne : membership ≠ "join" := by rcases hl with rfl | rfl <;> decide
      simp [hl, hj, hpre, hne]
    · by_cases hm : membership = "join" <;> simp [hl, hm, hj, hpre]

end

namespace PointerState

theorem mem_addHistory {rs : PointerState} {items : List Ref} {r : Ref}
    (hr : r ∈ rs.addHistory items) : r ∈ items ∨ ∃ id ∈ rs.visiableTl, r = .shared id := by
  obtain ⟨added, he, ha⟩ := extend_eq_append
    (fun cur hsItem => (rs.item cur).covers (rs.item hsItem)) items (rs.visiableTl.map .shared)
  rw [addHistory, he] at hr
  rcases mem_append.mp hr with hr | hr
  · exact .inl hr
  · obtain ⟨id, hid, rfl⟩ := mem_map.mp (ha r hr).1
    exact .inr ⟨id, hid, rfl⟩

end PointerState

end Ligase.Sync

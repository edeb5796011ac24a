import Mathlib.Data.List.Dedup
import Mathlib.Data.List.Sort
import Ligase.Aggregate.Marks
import Ligase.Lib.GoMap

/-!
# The response to a sync request

The response is merged from the answers of the sync servers. Then the token for the next request is
stored, and after that the account data, the tags, the typing notifications and the like are added,
some of them to the joined rooms of the response.

* `mergeAnswers`, `freshToken`: the events and the token.
* `RoomWrite`: an event that is added to a joined room; the stages that have some are given by
  their lists of writes.
* `onSyncRequest`: the request.
-/

namespace Ligase.Aggregate

open Lib

/-! ## Responses -/

structure ClientEvent where
  eventID : String
  roomID : String
  type : String
  content : Json
  depth : Int

structure JoinResponse where
  state : List ClientEvent
  timeline : List ClientEvent
  limited : Bool
  prevBatch : String
  ephemeral : List ClientEvent
  accountData : List ClientEvent
  /-- the counts of highlights and of notifications -/
  unread : Option (Int × Int)

def JoinResponse.new : JoinResponse := ⟨[], [], false, "", [], [], none⟩

structure InviteResponse where
  inviteState : List ClientEvent

structure LeaveResponse where
  state : List ClientEvent
  timeline : List ClientEvent
  limited : Bool
  prevBatch : String

structure Rooms where
  join : GoMap JoinResponse
  invite : GoMap InviteResponse
  leave : GoMap LeaveResponse

structure Response where
  nextBatch : String
  accountData : List ClientEvent
  presence : List ClientEvent
  rooms : Rooms
  toDevice : List Json
  changed : List String
  signNum : List (String × Int)

def newResponse (nextBatch : String) : Response :=
  ⟨nextBatch, [], [], ⟨.make, .make, .make⟩, [], [], []⟩

/-! ## Requests -/

structure Filter where
  accountDataNotSenders : List String
  accountDataTypes : List String
  notRooms : List String
  includeLeave : Bool
  stateTypes : List String
  stateNotTypes : List String
  timelineTypes : List String
  timelineNotTypes : List String

structure Request where
  userID : String
  isHuman : Bool
  /-- is it an actual or an internal device? -/
  isActualDevice : Bool
  token : String
  marks : OffsetMarks
  /-- positions are 64-bit integers -/
  utl_range : minInt64 ≤ marks.utl.recv ∧ marks.utl.recv ≤ maxInt64
  fullSync : Bool
  filter : Option Filter
  /-- the offsets of the rooms, of the token that the request names -/
  offsets : List (String × Int)

def Request.isFullSync (req : Request) : Bool := req.fullSync || req.marks.utl.recv = 0

structure SyncServerResponse where
  join : List (String × JoinResponse)
  invite : List (String × InviteResponse)
  leave : List (String × LeaveResponse)
  maxReceiptOffset : Int
  newUsers : List String
  maxRoomOffset : List (String × Int)

inductive ClientData where
  | roomTag (roomID : String)
  | accountData (dataType : String)
  | roomAccountData (roomID dataType : String)
  | pushRule
  | other

structure RoomTag where
  roomID : String
  tag : String
  /-- the decoded content, if it can be decoded -/
  content : Option Json

structure RoomAccountData where
  roomID : String
  type : String
  content : Json

structure Services where
  sendMemberEvent : Bool
  useEncrypt : Bool
  useMessageFilter : Bool
  /-- the answers in the order they are merged; `none` is an error or a server that is not ready -/
  answers : List (Option SyncServerResponse)
  nextID : Int
  setToken : Int → List (String × Int) → Bool
  joinRooms : Option (List String)
  inviteRooms : Option (List String)
  /-- the position and the event of a user's presence; `none` for an event that cannot be decoded -/
  presence : String → Option (Int × Option ClientEvent)
  existsPresence : Bool
  friendShip : Option (List String)
  /-- the upper end of the client's data stream, and the stream -/
  clientData : Option (Int × List (Int × ClientData))
  roomTagIDs : Option (List String)
  /-- `none` is an error of the cache, here and for the account data: a nil that is dereferenced -/
  roomTag : String → Option RoomTag
  accountDataIDs : Option (List String)
  accountData : String → Option (String × Json)
  roomAccountDataIDs : Option (List String)
  roomAccountData : String → Option RoomAccountData
  pushRules : Option Json
  /-- the upper end of the messages to the device, and the messages with their read marks -/
  stdEvents : Option (Int × List (Int × Bool × Json))
  deleteStd : Bool
  keyChange : String → Option Int
  existsKeyChange : Bool
  latestKeyChange : Int
  oneTimeKeyCount : Option (List (String × Int))
  defaultKeyCount : List (String × Int)
  typing : List ClientEvent
  curRoomID : String

variable (svc : Services) (req : Request)

/-! ## The events -/

structure Merge where
  res : Response
  hasNewEvent : Bool
  maxRoomOffset : List (String × Int)
  recpProcess : Int

def SyncServerResponse.hasEvent (data : SyncServerResponse) : Bool :=
  (data.join.any fun p => p.2.state ≠ [] || p.2.timeline ≠ []) ||
    (data.invite.any fun p => p.2.inviteState ≠ []) ||
    data.leave.any fun p => p.2.state ≠ [] || p.2.timeline ≠ []

def newPresence : List String → List ClientEvent
  | [] => []
  | user :: users =>
    if user = req.userID then newPresence users
    else
      match svc.presence user with
      | none => newPresence users
      | some (_, none) => []
      | some (_, some ev) => ev :: newPresence users

variable (m : Merge)

/-- A first sync has no rooms that were left. -/
def mergeLeave (data : SyncServerResponse) : Option (GoMap LeaveResponse) :=
  if req.marks.utl.recv = 0 then some .make else m.res.rooms.leave.setAll data.leave

def addSyncData (data : SyncServerResponse) : Option Merge := do
  let join ← m.res.rooms.join.setAll data.join
  let invite ← m.res.rooms.invite.setAll data.invite
  let leave ← mergeLeave req m data
  return {
    res := { m.res with
      rooms := ⟨join, invite, leave⟩
      presence := m.res.presence ++ if req.isHuman then newPresence svc req data.newUsers else [] }
    hasNewEvent := m.hasNewEvent || data.hasEvent
    maxRoomOffset := data.maxRoomOffset.foldl (fun o p => Json.setKey p.1 p.2 o) m.maxRoomOffset
    recpProcess :=
      if req.isHuman then max m.recpProcess data.maxReceiptOffset else m.recpProcess }

def mergeAnswers : Option Merge :=
  svc.answers.reduceOption.foldlM (addSyncData svc req)
    ⟨newResponse "0", false, [], req.marks.recp.process⟩

/-! ## The token -/

structure Job where
  marks : OffsetMarks
  res : Response

def OffsetMarks.setUtl (marks : OffsetMarks) (utl : Int) : OffsetMarks :=
  { marks with utl := { marks.utl with process := utl } }

def getDomainByUserID (userID : String) : String :=
  String.ofList ((userID.toList.splitOn ':').getLastD [])

def updateFullSyncNotData (marks : OffsetMarks) : OffsetMarks :=
  if svc.setToken svc.nextID [("!default:" ++ getDomainByUserID req.userID, -1)] then
    marks.setUtl svc.nextID
  else marks.setUtl marks.utl.recv

def clearSyncData (res : Response) : Response :=
  let res := { res with rooms := { res.rooms with join := .nil } }
  let res := { res with rooms := { res.rooms with join := .nil } }
  { res with rooms := { res.rooms with leave := .nil } }

def tokenOffsets : List (String × Int) :=
  m.maxRoomOffset ++ req.offsets.filter fun p => (m.maxRoomOffset.lookup p.1).isNone

def freshToken (marks : OffsetMarks) : Job :=
  if !m.hasNewEvent then
    ⟨if req.fullSync then updateFullSyncNotData svc req marks
      else marks.setUtl marks.utl.recv, m.res⟩
  else if svc.setToken svc.nextID (tokenOffsets req m) then ⟨marks.setUtl svc.nextID, m.res⟩
  else ⟨marks.setUtl marks.utl.recv, clearSyncData m.res⟩

def Mark.started (m : Mark) : Mark := if m.process = 0 then { m with process := 1 } else m

def mergedMarks : OffsetMarks :=
  { req.marks with
    recp := { req.marks.recp with process := m.recpProcess }
    pre := req.marks.pre.started
    kc := req.marks.kc.started }

/-- `some none`: the data is not there yet. -/
def buildSyncData : Option (Option Job) :=
  if req.isFullSync && !req.isHuman then
    if svc.joinRooms.isNone || svc.inviteRooms.isNone then some none
    else some (some ⟨updateFullSyncNotData svc req req.marks, newResponse "0"⟩)
  else (mergeAnswers svc req).map fun m =>
    if svc.answers.all Option.isSome then some (freshToken svc req m (mergedMarks req m)) else none

/-! ## Writes to joined rooms -/

structure RoomWrite where
  roomID : String
  ephemeral : Bool
  ev : ClientEvent

def RoomWrite.put (w : RoomWrite) (jr : JoinResponse) : JoinResponse :=
  if w.ephemeral then { jr with ephemeral := jr.ephemeral ++ [w.ev] }
  else { jr with accountData := jr.accountData ++ [w.ev] }

variable (job : Job)

def RoomWrite.apply (w : RoomWrite) : Option Job :=
  (job.res.rooms.join.set w.roomID (w.put ((job.res.rooms.join.get? w.roomID).getD .new))).map
    fun join => { job with res := { job.res with rooms := { job.res.rooms with join := join } } }

def writeRooms (ws : List RoomWrite) (job : Job) : Option Job := ws.foldlM RoomWrite.apply job

/-- The writes of a stage, if what it reads for them is there. -/
def writeRead (ws : Option (List RoomWrite)) (job : Job) : Option Job := ws.bind (writeRooms · job)

def plainEvent (type : String) (content : Json) : ClientEvent := ⟨"", "", type, content, 0⟩

def roomTagWrites (tagIDs : List String) : Option (List RoomWrite) :=
  match svc.joinRooms with
  | none => some []
  | some joined => (tagIDs.mapM svc.roomTag).map fun tags =>
    let tags := tags.filter fun t => t.roomID ∈ joined ∧ t.content.isSome
    (tags.map RoomTag.roomID).dedup.map fun roomID =>
      let tagMap := (tags.filter (·.roomID = roomID)).foldl
        (fun m t => Json.setKey t.tag (t.content.getD .null) m) []
      ⟨roomID, false, plainEvent "m.tag" (.obj [("tags", .obj tagMap)])⟩

def roomEmptyTagWrites (roomIDs : List String) : List RoomWrite :=
  roomIDs.map fun roomID => ⟨roomID, false, plainEvent "m.tag" (.obj [("tags", .obj [])])⟩

def roomAccountDataWrites (accountIDs : List String) : Option (List RoomWrite) :=
  match svc.joinRooms with
  | none => some []
  | some joined => (accountIDs.mapM svc.roomAccountData).map fun actData =>
    (actData.filter (·.roomID ∈ joined)).map fun actData =>
      ⟨actData.roomID, false, plainEvent actData.type actData.content⟩

def typingWrites : List RoomWrite :=
  match svc.joinRooms with
  | none => []
  | some joined =>
    (svc.typing.filter fun ev =>
      (svc.curRoomID = "" ∨ ev.roomID = svc.curRoomID) ∧ ev.roomID ∈ joined).map fun ev =>
        ⟨ev.roomID, true, { ev with roomID := "" }⟩

/-! ## Account data -/

def Job.addAccount (evs : List ClientEvent) : Job :=
  { job with res := { job.res with accountData := job.res.accountData ++ evs } }

def addClientAccountData (accountIDs : List String) (job : Job) : Option Job :=
  (accountIDs.mapM svc.accountData).map fun actData =>
    job.addAccount (actData.map fun d => plainEvent d.1 d.2)

def Filter.skipsPushRules (userID : String) (filter : Filter) : Bool :=
  filter.accountDataNotSenders.contains userID || filter.accountDataTypes.contains "m.push_rules"

def addPushRules : Job :=
  if req.filter.any (Filter.skipsPushRules req.userID) then job
  else
    match svc.pushRules with
    | some content => job.addAccount [plainEvent "m.push_rules" content]
    | none => job

def Job.setAcc (pos : Int) : Job :=
  { job with marks := { job.marks with acc := { job.marks.acc with process := pos } } }

def fullTagWrites : Option (List RoomWrite) := roomTagWrites svc (svc.roomTagIDs.getD [])

def fullRoomWrites : Option (List RoomWrite) :=
  roomAccountDataWrites svc (svc.roomAccountDataIDs.getD [])

def fullAccPos (feedUp : Int) : Int :=
  let maxPos :=
    if feedUp > 0 ∧ feedUp > req.marks.acc.recv then feedUp else req.marks.acc.recv
  if maxPos = 0 then 1 else maxPos

def setFullAcc : Job :=
  match svc.clientData with
  | none => job
  | some (feedUp, _) => job.setAcc (fullAccPos req feedUp)

def addFullAccountData : Option Job := do
  let job ← writeRead (fullTagWrites svc) (addPushRules svc req job)
  let job ← addClientAccountData svc (svc.accountDataIDs.getD []) job
  let job ← writeRead (fullRoomWrites svc) job
  return setFullAcc svc req job

def newClientData (stream : List (Int × ClientData)) : List (Int × ClientData) :=
  stream.filter fun p => p.1 > req.marks.acc.recv

def tagsOfRoom (roomID : String) : List String :=
  (svc.roomTagIDs.getD []).filter fun tagID =>
    ("room_tags:" ++ req.userID ++ ":" ++ roomID).toList.isPrefixOf tagID.toList

variable (data : List (Int × ClientData))

def changedTagRooms : List String :=
  (data.filterMap fun p => match p.2 with
    | .roomTag roomID => some roomID
    | _ => none).dedup

def changedTagWrites : Option (List RoomWrite) :=
  let rooms := changedTagRooms data
  (roomTagWrites svc (rooms.flatMap (tagsOfRoom svc req))).map
    (· ++ roomEmptyTagWrites (rooms.filter fun roomID => tagsOfRoom svc req roomID = []))

def changedAccountIDs : List String :=
  (data.filterMap fun p => match p.2 with
    | .accountData dataType => some ("account_data:" ++ req.userID ++ ":" ++ dataType)
    | _ => none).dedup

def changedRoomWrites : Option (List RoomWrite) :=
  roomAccountDataWrites svc (data.filterMap fun p => match p.2 with
    | .roomAccountData roomID dataType =>
      some ("room_account_data:" ++ req.userID ++ ":" ++ roomID ++ ":" ++ dataType)
    | _ => none).dedup

def pushRuleChanged : Bool :=
  data.any fun p => match p.2 with
    | .pushRule => true
    | _ => false

def maxPos (offsets : List Int) (recv : Int) : Int :=
  let pos := offsets.foldl max (-1)
  if pos = -1 then recv else pos

def setIncrementalAcc (job : Job) : Job :=
  (if pushRuleChanged data then addPushRules svc req job else job).setAcc
    (maxPos (data.map Prod.fst) req.marks.acc.recv)

def addChangedAccountData (job : Job) : Option Job := do
  let job ← writeRead (changedTagWrites svc req data) job
  let job ← addClientAccountData svc (changedAccountIDs req data) job
  let job ← writeRead (changedRoomWrites svc req data) job
  return setIncrementalAcc svc req data job

def addIncrementalAccountData : Option Job :=
  match svc.clientData with
  | none => some job
  | some (feedUp, stream) =>
    if feedUp ≤ req.marks.acc.recv then some job
    else addChangedAccountData svc req (newClientData req stream) job

def addAccountData : Option Job :=
  if req.marks.acc.recv = 0 then addFullAccountData svc req job
  else addIncrementalAccountData svc req job

/-! ## Presence, keys and messages to the device -/

def newFriendPresence : List (Int × ClientEvent) :=
  if svc.existsPresence then
    (svc.friendShip.getD []).filterMap fun user =>
      match svc.presence user with
      | some (offset, some ev) => if offset > req.marks.pre.recv then some (offset, ev) else none
      | _ => none
  else []

def addPresence : Job :=
  { res := { job.res with
      presence := job.res.presence ++ (newFriendPresence svc req).map Prod.snd }
    marks := { job.marks with pre := { job.marks.pre with
      process := maxPos ((newFriendPresence svc req).map Prod.fst) req.marks.pre.recv } } }

def newKeyChanges : List (String × Int) :=
  if svc.existsKeyChange then
    (svc.friendShip.getD []).filterMap fun user =>
      match svc.keyChange user with
      | some offset => if offset > req.marks.kc.recv then some (user, offset) else none
      | none => none
  else []

def Job.setKc (pos : Int) : Job :=
  { job with marks := { job.marks with kc := { job.marks.kc with process := pos } } }

def addKeyChangeInfo : Job :=
  if req.marks.utl.recv > 0 then
    Job.setKc { job with res := { job.res with
      changed := job.res.changed ++ (newKeyChanges svc req).map Prod.fst } }
      (maxPos ((newKeyChanges svc req).map Prod.snd) req.marks.kc.recv)
  else
    job.setKc (if svc.latestKeyChange = -1 then req.marks.kc.recv else svc.latestKeyChange)

def Job.setStd (pos : Int) : Job :=
  { job with marks := { job.marks with std := { job.marks.std with process := pos } } }

def addSendToDevice : Job :=
  match svc.stdEvents with
  | none => job
  | some (feedUp, stream) =>
    if req.marks.std.recv = 0 then
      if svc.deleteStd then job.setStd (if feedUp > 0 then feedUp else 1) else job
    else if feedUp ≤ req.marks.std.recv then { job with res := { job.res with toDevice := [] } }
    else
      let new := stream.filter fun p => p.1 > req.marks.std.recv
      let unread := (new.filter fun p => !p.2.1).map fun p => p.2.2
      Job.setStd { job with res := { job.res with toDevice := job.res.toDevice ++ unread } }
        (maxPos (new.map Prod.fst) req.marks.std.recv)

def Job.setSignNum (count : List (String × Int)) : Job :=
  { job with res := { job.res with signNum := count } }

def addEncryption : Job :=
  if svc.useEncrypt then
    if req.isActualDevice then
      let job := addSendToDevice svc req (addKeyChangeInfo svc req job)
      match svc.oneTimeKeyCount with
      | some count => job.setSignNum count
      | none => job
    else job.setSignNum svc.defaultKeyCount
  else
    (if req.isActualDevice then addSendToDevice svc req job else job).setSignNum
      svc.defaultKeyCount

/-! ## The request -/

def addPresenceUnlessSent : Job :=
  if svc.sendMemberEvent then job else addPresence svc req job

def addUserData : Option Job :=
  if req.isHuman then do
    let job ← addAccountData svc req (addPresenceUnlessSent svc req job)
    writeRooms (typingWrites svc) (addEncryption svc req job)
  else some job

def filterEventTypes (types notTypes : List String) (events : List ClientEvent) :
    List ClientEvent :=
  events.filter fun ev => !notTypes.contains ev.type && (types = [] || types.contains ev.type)

def Filter.invite (filter : Filter) (r : InviteResponse) : InviteResponse :=
  ⟨filterEventTypes filter.stateTypes filter.stateNotTypes r.inviteState⟩

def Filter.join (filter : Filter) (r : JoinResponse) : JoinResponse :=
  { r with
    state := filterEventTypes filter.stateTypes filter.stateNotTypes r.state
    timeline := filterEventTypes filter.timelineTypes filter.timelineNotTypes r.timeline }

def without {α : Type} (roomIDs : List String) (m : GoMap α) : GoMap α :=
  roomIDs.foldl GoMap.delete m

def Filter.rooms (filter : Filter) (rooms : Rooms) : Rooms :=
  let leave := without filter.notRooms rooms.leave
  { join := (without filter.notRooms rooms.join).mapValues filter.join
    invite := (without filter.notRooms rooms.invite).mapValues filter.invite
    leave := if req.marks.utl.recv = 0 ∧ filter.includeLeave = false
      then without (leave.toList.map Prod.fst) leave else leave }

def filterSyncData (rooms : Rooms) : Rooms :=
  match req.filter with
  | some filter => filter.rooms req rooms
  | none => rooms

def sortEvents (events : List ClientEvent) : List ClientEvent :=
  events.insertionSort fun a b => a.depth ≤ b.depth

def fillSortEventOffset (rooms : Rooms) : Rooms where
  join := rooms.join.mapValues fun r =>
    { r with state := sortEvents r.state, timeline := sortEvents r.timeline }
  invite := rooms.invite.mapValues fun r => ⟨sortEvents r.inviteState⟩
  leave := rooms.leave.mapValues fun r =>
    { r with state := sortEvents r.state, timeline := sortEvents r.timeline }

def finalRooms (rooms : Rooms) : Rooms :=
  fillSortEventOffset (if svc.useMessageFilter then filterSyncData req rooms else rooms)

def finish : Response :=
  { job.res with rooms := finalRooms svc req job.res.rooms, nextBatch := job.marks.build }

/-- A status code and a response; `none` is a panic. -/
def onSyncRequest : Option (Nat × Response) :=
  match buildSyncData svc req with
  | none => none
  | some none =>
    some (if req.isFullSync && req.isHuman then 503 else 200, newResponse req.token)
  | some (some job) => (addUserData svc req job).map fun job => (200, finish svc req job)

end Ligase.Aggregate

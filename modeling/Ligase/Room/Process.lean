import Ligase.Room.Ext

/-!
# The processing of an event, with its stores

`processNew` checks an event, enters it in the room state in memory, and then writes to one store
after another: the membership cache of its target, the extension record of the room, the membership
rows, the cached room state, and the events. Each call may fail. Some failures are only logged.

* `Stores`: what is written, room by room and user by user.
* `Services`: which calls fail, and what they answer.
* `processNew`: the whole of it.
-/

namespace Ligase.Room.Processor

open Lib Auth Proc RoomServerState Function

/-! ## Stores -/

inductive MembershipState where
  | leaveOrBan
  | invite
  | join
  deriving DecidableEq

structure Row where
  membership : MembershipState
  eventNID : Int
  senderID : String
  version : Int
  forgetNID : Int

structure CachedRoom where
  rs : RoomServerState
  snapId : Int
  version : Int

structure StoredEvent where
  eventID : String
  roomID : String
  type : String
  previousEventID : String
  deriving DecidableEq

/-- The memberships of a user as they are cached, by room. -/
abbrev Memberships := String → Option MembershipState

/-- A user whose memberships are not cached has none in `ums`; `rows` has the membership rows of a
user by room. The rows are those of a room number, for which the room id stands. -/
structure Stores where
  states : String → Option CachedRoom
  ext : String → Option Hash
  ums : String → Option Memberships
  rows : String → List (String × Row)
  events : List StoredEvent

structure Services extends ExtServices where
  env : Env
  domainCfg : List String
  /-- the number of the snapshot that is added -/
  snapId : Int
  /-- the version that a changed row gets -/
  version : Int

structure LoadedRoom where
  roomID : String
  rs : RoomServerState
  depth : Int64
  outEventOffset : Int64
  domains : String → Option Int64
  snapId : Int
  version : Int

def LoadedRoom.new (roomID : String) : LoadedRoom := ⟨roomID, .init, 0, 0, fun _ => none, 0, 0⟩

def LoadedRoom.ext (room : LoadedRoom) : ExtRecord :=
  ⟨room.rs.ext, room.depth, room.outEventOffset, room.domains⟩

def LoadedRoom.setExt (room : LoadedRoom) (ext : ExtRecord) : LoadedRoom :=
  { room with
    rs := { room.rs with ext := ext.toRoomStateExt }
    depth := ext.depth
    outEventOffset := ext.outEventOffset
    domains := ext.domains }

def LoadedRoom.cached (room : LoadedRoom) : CachedRoom :=
  ⟨room.rs.snapshot, room.snapId, room.version + 1⟩

/-- `GetRoomState`: the state that is cached, with the extension record. -/
def CachedRoom.load (c : CachedRoom) (roomID : String) (ext : ExtRecord) : LoadedRoom :=
  ⟨roomID, { c.rs with ext := ext.toRoomStateExt }, ext.depth, ext.outEventOffset, ext.domains,
    c.snapId, c.version⟩

/-! ## The membership cache -/

/-- `Membership`, with the empty text for an error. -/
def membership (ev : Event) : String :=
  if ev.type ≠ MRoomMember then ""
  else
    match newMemberContentFromEvent ev with
    | .ok c => c.membership
    | .error _ => ""

def oldMembership (pre : Option Event) : String := (pre.map membership).getD ""

section
variable (svc : Services)

/-- Memberships that are not cached are loaded from the rows. A failure to write them to the cache
is only logged. -/
def initCacheIsNotExists (user : String) (s : Stores) : Option Stores :=
  if svc.fails .umsExists then none
  else if (s.ums user).isSome then some s
  else if svc.fails .umsLoad then none
  else if (s.rows user).isEmpty ∨ svc.fails .umsFill then some s
  else some { s with
    ums := update s.ums user
      (some fun roomID => ((s.rows user).lookup roomID).map Row.membership) }

def setUserRoomMemberShip (roomID user : String) (m : MembershipState) (s : Stores) : Stores :=
  if svc.fails .umsSet then s
  else { s with
    ums := update s.ums user
      (some (update ((s.ums user).getD fun _ => none) roomID (some m))) }

def cacheState : String → MembershipState
  | "invite" => .invite
  | "join" => .join
  | _ => .leaveOrBan

/-- `OnEvent` of the membership cache. All its failures are only logged. -/
def umsOnEvent (ev : Event) (pre : Option Event) (s : Stores) : Stores :=
  if ev.type = MRoomMember ∧ oldMembership pre ≠ membership ev then
    match initCacheIsNotExists svc (ev.stateKey.getD "") s with
    | none => s
    | some s =>
      setUserRoomMemberShip svc ev.roomID (ev.stateKey.getD "") (cacheState (membership ev)) s
  else s

/-! ## The membership rows -/

/-- `insertMembership`: a row that is there stays as it is. -/
def insertRow (roomID : String) (row : Row) (rows : List (String × Row)) : List (String × Row) :=
  if (rows.lookup roomID).isSome then rows else (roomID, row) :: rows

def modifyRow (roomID : String) (g : Row → Row) (rows : List (String × Row)) :
    List (String × Row) :=
  rows.map fun p => if p.1 = roomID then (p.1, g p.2) else p

/-- `updateMembership`: a row with a later version stays as it is. -/
def updateRow (senderID : String) (m : MembershipState) (eventNID : Int) (row : Row) : Row :=
  if row.version < svc.version then
    { row with senderID, membership := m, eventNID, version := svc.version }
  else row

def Stores.setRows (s : Stores) (user : String) (g : List (String × Row) → List (String × Row)) :
    Stores :=
  { s with rows := update s.rows user (g (s.rows user)) }

section
variable (roomID : String) (event : NewEvent) (user old : String)

/-- The row of a user who had no membership is inserted, that of another is updated. -/
def setRow (m : MembershipState) : Proc Stores ProcessFailure Unit := do
  attempt svc.toExtServices .membershipSet
  .write fun s => s.setRows user <|
    if old = "" then insertRow roomID ⟨m, event.eventNID, "", 0, -1⟩
    else modifyRow roomID (updateRow svc event.sender m event.eventNID)

def setToInvite : Proc Stores ProcessFailure Unit := do
  attempt svc.toExtServices .inviteInsert
  setRow svc roomID event user old .invite

/-- The invites of one who joins are retired only if the last membership was an invite. -/
def setToJoin : Proc Stores ProcessFailure Unit :=
  if old = "invite" then do
    attempt svc.toExtServices .inviteRetire
    setRow svc roomID event user old .join
  else setRow svc roomID event user old .join

def setToLeave : Proc Stores ProcessFailure Unit := do
  attempt svc.toExtServices .inviteRetire
  setRow svc roomID event user old .leaveOrBan

def setToForget : Proc Stores ProcessFailure Unit := do
  attempt svc.toExtServices .membershipForget
  .write fun s => s.setRows user <|
    if old = "" then insertRow roomID ⟨.leaveOrBan, event.eventNID, "", 0, -1⟩
    else modifyRow roomID fun row =>
      if row.forgetNID = -1 then { row with forgetNID := event.eventNID } else row

end

def updateMemberShip (roomID : String) (event : NewEvent) (pre : Option Event) :
    Proc Stores ProcessFailure Unit :=
  let user := event.stateKey.getD ""
  let old := oldMembership pre
  let new := membership event.toEvent
  if event.type = MRoomMember ∧ (old ≠ new ∨ new = "join") then
    match new with
    | "invite" => setToInvite svc roomID event user old
    | "join" => setToJoin svc roomID event user old
    | "leave" | "ban" | "kick" => setToLeave svc roomID event user old
    | "forget" => do
      setToLeave svc roomID event user old
      setToForget svc roomID event user old
    | _ => pure ()
  else pure ()

/-! ## Processing -/

/-- The types of `GetRefs` whose events refer to the last state event. -/
def refTypes : List String :=
  ["m.room.create", "m.room.member", "m.room.power_levels", "m.room.third_party_invite",
    "m.room.join_rules", "m.room.history_visibility", "m.room.visibility", "m.room.name",
    "m.room.topic", "m.room.desc", "m.room.aliases", "m.room.avatar", "m.room.pinned_events",
    "m.room.canonical_alias"]

def getRefs (ext : RoomStateExt) (type : String) : String :=
  if type ∈ refTypes then ext.preStateId else ext.preMsgId

def onExt {α : Type} (roomID : String) (x : Proc (Option Hash) ProcessFailure α) :
    Proc Stores ProcessFailure α := fun s =>
  let (r, o) := x (s.ext roomID)
  (r, { s with ext := update s.ext roomID o })

variable (room : LoadedRoom) (event : NewEvent)

/-- `AddState`, for a state event. -/
def addState : Proc Stores ProcessFailure LoadedRoom :=
  if isStateEv event.toEvent then do
    attempt svc.toExtServices .addState
    return { room with snapId := svc.snapId }
  else return room

/-- `FlushRoomState`, for a state event; a failure is only logged. -/
def flushed (s : Stores) : Stores :=
  if isStateEv event.toEvent ∧ svc.fails .flush = false then
    { s with states := update s.states room.roomID (some room.cached) }
  else s

/-- `StoreEvent`: an event whose id is known stays as it is. -/
def storeEvent : Proc Stores ProcessFailure Unit := do
  attempt svc.toExtServices .storeEvent
  .write fun s =>
    if ∃ e ∈ s.events, e.eventID = event.eventID then s
    else { s with
      events := s.events ++
        [⟨event.eventID, room.roomID, event.type, getRefs room.rs.ext event.type⟩] }
  attempt svc.toExtServices .storeJSON

def store : Proc Stores ProcessFailure Unit := do
  attempt svc.toExtServices .setLatestEvents
  storeEvent svc room event
  attempt svc.toExtServices .writeOutput
  attempt svc.toExtServices .saveDomains

def postProcessNew (pre : Option Event) (event : NewEvent) : Proc Stores ProcessFailure Unit := do
  updateMemberShip svc room.roomID event pre
  .write (flushed svc room event)
  store svc room event

def preEvent (room : Option LoadedRoom) (event : NewEvent) : Option Event :=
  if event.type = MRoomCreate then none
  else room.bind fun room => (room.rs.getPreEvent event.toEvent).1

/-- The state that an event is entered in; a second creation is ignored. -/
def findRoom (room : Option LoadedRoom) (event : NewEvent) :
    Proc Stores ProcessFailure (Option LoadedRoom) :=
  match room with
  | none =>
    if event.type = MRoomCreate then do
      attempt svc.toExtServices .assignRoomNID
      return some (.new event.roomID)
    else .fail (.message "can't find room")
  | some room =>
    if event.type = MRoomCreate then pure none
    else if needsStateKey event.type ∧ event.stateKey = none then .fail .crash
    else pure (some room)

/-- `Allowed`, unless the event is trusted. -/
def authorise (trusted : Bool) (event : NewEvent) (room : LoadedRoom) :
    Proc Stores ProcessFailure Unit :=
  if trusted then pure ()
  else
    match allowed svc.env event.toEvent room.rs.authEvents with
    | .ok () => pure ()
    | .error err => .fail (.notAllowed err)

/-- The extension record moves on, and the snapshot of a state event is added. -/
def moveOn : Proc Stores ProcessFailure (NewEvent × LoadedRoom) := do
  let p ← onExt event.roomID (updateRoomStateExt svc.toExtServices true room.ext event)
  let room ← addState svc (room.setExt p.2) p.1
  return (p.1, room)

def enter (pre : Option Event) (event : NewEvent) :
    Proc Stores ProcessFailure (NewEvent × LoadedRoom) := do
  let rs ← .require .crash (room.rs.onEvent svc.domainCfg false event.toEvent)
  .write (umsOnEvent svc event.toEvent pre)
  moveOn svc { room with rs } event

/-- The processing of an event in the state that has been found for it. -/
def processIn (trusted : Bool) (pre : Option Event) (event : NewEvent) (room : LoadedRoom) :
    Proc Stores ProcessFailure Unit := do
  authorise svc trusted event room
  let p ← enter svc room pre event
  postProcessNew svc p.2 pre p.1

def processNew (trusted : Bool) (room : Option LoadedRoom) (event : NewEvent) :
    Proc Stores ProcessFailure Unit := do
  match ← findRoom svc room event with
  | none => pure ()
  | some r => processIn svc trusted (preEvent room event) event r

end

def servicesOf (fails : StoreCall → Bool) (drawn : Int64) (version : Int) : Services :=
  ⟨⟨fails, none, [], [drawn]⟩, env₀, ["x"], 1, version⟩

def Stores.empty : Stores := ⟨fun _ => none, fun _ => none, fun _ => none, fun _ => [], []⟩

end Ligase.Room.Processor

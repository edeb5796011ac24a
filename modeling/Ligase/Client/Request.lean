import Mathlib.Data.List.AList
import Ligase.Room.State

/-!
# Membership requests

`sendMembership` serves the client's `join`, `kick`, `ban`, `unban`, `leave`, `invite`, `forget` and
`dismiss` requests: it reads the body, asks the room server for the state of the room, runs the
checks of the verb, builds the member event and hands it to the room server as trusted.

* `buildMembershipEvent`: the event of a request, checked by `allowed`.
* `prepare`: everything before the submission.
* `sendMembership`: the submission, if any, and the answer to the client.
-/

namespace Ligase.Client

open Lib Auth Room

/-! ## Bodies and answers -/

structure MembershipRequest where
  userID : String
  reason : String
  idServer : String
  medium : String
  address : String
  autoJoin : Bool

def MembershipRequest.set (name : String) (v : Json) (b : MembershipRequest) :
    Option MembershipRequest :=
  match name with
  | "user_id" => v.asString.map fun s => { b with userID := s }
  | "reason" => v.asString.map fun s => { b with reason := s }
  | "id_server" => v.asString.map fun s => { b with idServer := s }
  | "medium" => v.asString.map fun s => { b with medium := s }
  | "address" => v.asString.map fun s => { b with address := s }
  | "auto_join" => (Json.asBool b.autoJoin v).map fun a => { b with autoJoin := a }
  | _ => some b

/-- The bytes of a body: none, no JSON value, or one. -/
inductive Content where
  | empty
  | malformed
  | json (j : Json)

structure Request where
  userID : String
  deviceID : String
  roomID : String
  membership : String
  content : Content

/-- `decoding` ends with the text of a decoding error and `auth` is that of an authorisation error.
-/
inductive Message where
  | text (s : String)
  | decoding (start : String)
  | auth (e : AuthError)

inductive Coder where
  | ok (roomID : String)
  | badJSON (m : Message)
  | notTrusted (server : String)
  | notFound (m : Message)
  | forbidden (m : Message)
  | timeout (m : Message)
  | unknown (m : Message)

inductive Stop where
  | reply (code : Nat) (body : Coder)
  | crash

def logThenError : Stop := .reply 500 (.unknown (.text "Internal Server Error"))

def forbid (message : String) : Stop := .reply 403 (.forbidden (.text message))

/-! ## The state of the room -/

abbrev EventMap := AList fun _ : String => Event

structure QueryRoomStateResponse where
  roomExists : Bool
  creator : Option Event
  joinRule : Option Event
  power : Option Event
  join : EventMap
  leave : EventMap
  invite : EventMap
  thirdInvite : EventMap

namespace QueryRoomStateResponse

variable (q : QueryRoomStateResponse)

def member (stateKey : String) : Option Event :=
  (q.join.lookup stateKey).or ((q.leave.lookup stateKey).or (q.invite.lookup stateKey))

def authEvents : AuthEvents where
  create := q.creator
  joinRules := q.joinRule
  powerLevels := q.power
  member := q.member
  thirdPartyInvite := q.thirdInvite.lookup

def isDirect : Bool :=
  match q.creator with
  | none => false
  | some ev =>
    match RoomServerState.decodeCreate ev.content with
    | ((_, isDirect), ok) => isDirect = some true && ok

/-- Enter one state event; a member event without a state key is a nil pointer. -/
def initFromEvent (ev : Event) : Option QueryRoomStateResponse :=
  if ev.type = MRoomCreate then some { q with roomExists := true, creator := some ev }
  else if ev.type = MRoomJoinRules then some { q with joinRule := some ev }
  else if ev.type = MRoomPowerLevels then some { q with power := some ev }
  else if ev.type = MRoomThirdPartyInvite then
    ev.stateKey.map fun key => { q with thirdInvite := q.thirdInvite.insert key ev }
  else if ev.type = MRoomMember then
    ev.stateKey.map fun key =>
      match RoomServerState.membershipOf ev.content with
      | "join" => { q with join := q.join.insert key ev }
      | "invite" => { q with invite := q.invite.insert key ev }
      | _ => { q with leave := q.leave.insert key ev }
  else some q

def initFromEvents (events : List Event) : Option QueryRoomStateResponse :=
  events.foldlM initFromEvent q

end QueryRoomStateResponse

/-! ## Building events -/

structure EventBuilder where
  sender : String
  roomID : String
  type : String
  stateKey : Option String
  content : Json
  redacts : String
  redactsSender : String

def maxIDLength : Nat := 255

def checkID (id : String) (sigil : Char) : Option String :=
  match Auth.domainFromID id with
  | .ok domain =>
    if id.toList.head? = some sigil ∧ id.utf8ByteSize ≤ maxIDLength then some domain else none
  | .error _ => none

/-- `CheckFields`; a member event may have a sender of another domain than its origin. -/
def checkFields (event : Event) (origin : String) : Bool :=
  event.type.utf8ByteSize ≤ maxIDLength &&
  (match event.stateKey with
    | some key => key.utf8ByteSize ≤ maxIDLength
    | none => true) &&
  (checkID event.roomID '!').isSome &&
  match checkID event.sender '@', checkID event.eventID '$' with
  | some senderDomain, some eventDomain =>
    origin = eventDomain && (origin = senderDomain || event.type = MRoomMember)
  | _, _ => false

def EventBuilder.event (builder : EventBuilder) (eventNID : Int) (origin : String) : Event where
  eventID := "$" ++ toString eventNID ++ ":" ++ origin
  roomID := builder.roomID
  sender := builder.sender
  type := builder.type
  stateKey := builder.stateKey
  content := builder.content
  originServerTS := 0
  redacts := builder.redacts
  redactsSender := builder.redactsSender

def buildEvent (builder : EventBuilder) (eventNID : Int) (domain : String) : Option Event :=
  let event := builder.event eventNID domain
  if checkFields event domain then some event else none

def domainOf (id : String) : String :=
  match cut ':' id with
  | some (_, domain) => domain
  | none => ""

/-! ## Services -/

/-- The identity server failed, the room of the invite that is stored instead does not exist, an
invite has been stored, or the address belongs to a user. -/
inductive IDServerAnswer where
  | failed
  | noRoom
  | stored
  | found (mxid : String)

structure RawEvent where
  roomID : String
  deviceID : String
  trust : Bool
  events : List Event
  svrName : String
  query : List String

/-- What a request meets outside of the client server. The identifiers are for the event of a
federated join or leave, for that of the request, and for an automatic join. -/
structure Services where
  auth : Env
  trustedIDServers : List String
  queryIDServer : MembershipRequest → IDServerAnswer
  queryRoomState : String → QueryRoomStateResponse × Bool
  makeJoin : (domain roomID userID : String) → Option EventBuilder
  sendJoin : (domain : String) → Event → Option (List Event)
  makeLeave : (domain roomID userID : String) → Option EventBuilder
  sendLeave : (domain : String) → Event → Option Nat
  getProfile : String → String × String
  fedNID : Int
  eventNID : Int
  joinNID : Int
  inputRoomEvents : RawEvent → Option String
  respInvite : String → Option Nat

/-! ## The member event -/

inductive BuildError where
  | missingUserID
  | crash
  | failed (m : Message)

def bodyVerbs : List String := ["ban", "unban", "kick", "invite"]

def getMembershipStateKey (body : MembershipRequest) (userID membership : String) :
    Except BuildError (String × String) :=
  if membership ∈ bodyVerbs then
    if body.userID = "" then .error .missingUserID else .ok (body.userID, body.reason)
  else if body.autoJoin && body.userID ≠ "" then .ok (body.userID, "")
  else .ok (userID, "")

variable (svc : Services) (q : QueryRoomStateResponse)

/-- `loadProfile`: the display name and avatar of a local user; nothing of others. -/
def loadProfile (userID : String) : String × String :=
  match cut ':' userID with
  | some (_, domain) => if domain ∈ svc.auth.domains then svc.getProfile userID else ("", "")
  | none => ("", "")

def memberContent (membership : String) (profile : String × String) (reason : String) : Json :=
  .obj ([("membership", .string membership), ("displayname", .string profile.1),
      ("avatar_url", .string profile.2)] ++
    if reason = "" then [] else [("reason", .string reason)])

def eventMembership (membership : String) : String :=
  if membership = "unban" ∨ membership = "kick" ∨ membership = "dismiss" then "leave"
  else membership

def memberBuilder (userID roomID stateKey reason membership : String) : EventBuilder where
  sender := userID
  roomID := roomID
  type := MRoomMember
  stateKey := some stateKey
  content := memberContent membership (loadProfile svc stateKey) reason
  redacts := ""
  redactsSender := ""

def usersOf (content : Json) : Option (List (String × Int)) :=
  content.decode? (fun name v users =>
    match name with
    | "users" => Json.asMap (Json.asIntOr 0) v users
    | "events" => (Json.asMap (Json.asIntOr 0) v []).map fun _ => users
    | "events_default" | "invite" | "state_default" | "redact" | "ban" | "users_default"
    | "kick" => (Json.asIntOr 0 v).map fun _ => users
    | _ => some users) []

def checkLeave (userID membership : String) : Except BuildError Unit :=
  match membership, q.power with
  | "leave", some plEvent =>
    match usersOf plEvent.content with
    | none => .error (.failed (.decoding ""))
    | some users =>
      if users.lookup userID = some 100 ∧ 1 < q.join.keys.length then
        .error (.failed
          (.text "administrator is not allowed to leave before changing power"))
      else .ok ()
  | _, _ => .ok ()

/-- An event is authorised against the queried state, in a direct room without a check. -/
def authorise (userID membership : String) (event : Option Event) : Except BuildError Event :=
  match q.creator with
  | none => .error .crash
  | some createEvent =>
    match RoomServerState.decodeCreate createEvent.content, event with
    | (_, false), _ => .error (.failed (.decoding ""))
    | _, none => .error .crash
    | ((_, some true), true), some e => .ok e
    | _, some e =>
      match allowed svc.auth e q.authEvents with
      | .error err => .error (.failed (.auth err))
      | .ok () => (checkLeave q userID membership).map fun _ => e

def buildMembershipEvent (body : MembershipRequest) (userID roomID membership : String)
    (eventNID : Int) : Except BuildError Event := do
  let (stateKey, reason) ← getMembershipStateKey body userID membership
  let e := buildEvent (memberBuilder svc userID roomID stateKey reason (eventMembership membership))
    eventNID (domainOf userID)
  -- the join of an invited user is not checked
  if e.isSome && eventMembership membership = "join" && body.autoJoin then
    e.elim (.error .crash) .ok
  else authorise svc q userID membership e

/-! ## The request -/

variable (req : Request) (q : QueryRoomStateResponse)

def decodeBody : Except Stop MembershipRequest :=
  let body : MembershipRequest := ⟨"", "", "", "", "", false⟩
  let bad : Stop := .reply 400 (.badJSON (.decoding
    "handle SendMembership The request body could not be decoded into valid JSON. "))
  if req.membership = "leave" then .ok body
  else
    match req.content with
    | .empty => .ok body
    | .malformed => .error bad
    | .json j => (j.decode? MembershipRequest.set body).elim (.error bad) .ok

/-- An invite of an address becomes one of its user, or is stored with the identity server, which
ends the request. -/
def checkAndProcessInvite (body : MembershipRequest) : Except Stop MembershipRequest :=
  if req.membership ≠ "invite" ∨ body.address = "" ∧ body.idServer = "" ∧ body.medium = "" then
    .ok body
  else if body.address = "" ∨ body.idServer = "" ∨ body.medium = "" then
    .error (.reply 400 (.badJSON
      (.text "'address', 'id_server' and 'medium' must all be supplied")))
  else if body.idServer ∉ svc.trustedIDServers then
    .error (.reply 400 (.notTrusted body.idServer))
  else
    match svc.queryIDServer body with
    | .failed => .error logThenError
    | .noRoom => .error (.reply 404 (.notFound (.text "Room does not exist")))
    | .stored => .error (.reply 200 (.ok ""))
    | .found mxid => .ok { body with userID := mxid }

/-- The state of the room, and the events that come with it if it had to be fetched through another
server. -/
def roomState : Except Stop (QueryRoomStateResponse × List Event) :=
  match svc.queryRoomState req.roomID with
  | (q, true) => .ok (q, [])
  | (q, false) =>
    let domainID := domainOf req.roomID
    if req.membership = "join" ∧ domainID ∉ svc.auth.domains then
      let joined := do
        let builder ← svc.makeJoin domainID req.roomID req.userID
        let ev ← buildEvent builder svc.fedNID (domainOf req.userID)
        svc.sendJoin domainID ev
      match joined with
      | none => .error logThenError
      | some events =>
        match q.initFromEvents events with
        | none => .error .crash
        | some q => .ok (q, events)
    else if !q.roomExists then
      .error (.reply 400 (.notFound (.text ("room " ++ req.roomID ++ " not exists"))))
    else .error logThenError

/-- Tell the server of a remote room that an invite is declined. -/
def declineRemote : Except Stop Unit :=
  let domainID := domainOf req.roomID
  if (q.invite.lookup req.userID).isSome ∧ domainID ∉ svc.auth.domains then
    let left := do
      let builder ← svc.makeLeave domainID req.roomID req.userID
      let ev ← buildEvent builder svc.fedNID (domainOf req.userID)
      svc.sendLeave domainID ev
    if left = some 200 then .ok () else .error logThenError
  else .ok ()

/-- The checks of the verb. A dismissal is of the user in place of the device. -/
def precheck (body : MembershipRequest) : Except Stop MembershipRequest :=
  match req.membership with
  | "forget" =>
    if (q.join.lookup req.userID).isSome then
      .error (.reply 400 (.forbidden (.text ("membership:forget, user:" ++ req.userID ++
        " are currently in the room:" ++ req.roomID))))
    else if (q.leave.lookup req.userID).isNone then
      .error (forbid ("membership:forget user:" ++ req.userID ++ " aren't a member of the room:" ++
        req.roomID ++ " and weren't previously a member of the room"))
    else .ok body
  | "join" =>
    match q.joinRule.bind fun joinEv => joinRuleOf joinEv.content with
    | none => .error logThenError
    | some rule =>
      if (q.join.lookup req.userID).isSome then .error (.reply 200 (.ok req.roomID))
      else if rule ≠ "public" ∧ (q.invite.lookup req.userID).isNone then
        .error (forbid "You are not invited to this room.")
      else .ok body
  | "kick" =>
    if (q.join.lookup req.userID).isNone then
      .error (forbid "kicker aren't a member of the room")
    else if (q.leave.lookup body.userID).isSome then
      .error (forbid "kickee aren't a member of the room")
    else .ok body
  | "dismiss" =>
    if (q.join.lookup req.deviceID).isNone ∧ (q.invite.lookup req.deviceID).isNone then
      .error (forbid "dismiss member aren't in the room")
    else .ok { body with userID := req.deviceID }
  | "leave" =>
    if (q.leave.lookup req.userID).isSome ∨
        (q.join.lookup req.userID).isNone ∧ (q.invite.lookup req.userID).isNone then
      .error (forbid
        "You aren't a member of the room and weren't previously a member of the room.")
    else (declineRemote svc req q).map fun _ => body
  | _ => .ok body

def forbiddenVerbs : List String :=
  ["invite", "join", "ban", "unban", "kick", "leave", "dismiss"]

def buildFailed (membership : String) : BuildError → Stop
  | .missingUserID => .reply 400 (.badJSON (.text "'user_id' must be supplied"))
  | .crash => .crash
  | .failed m => if membership ∈ forbiddenVerbs then .reply 403 (.forbidden m) else logThenError

def autoJoin (body : MembershipRequest) : Except Stop (List Event) :=
  if req.membership = "invite" ∧ body.autoJoin = true then
    match buildMembershipEvent svc q body req.userID req.roomID "join" svc.joinNID with
    | .ok event => .ok [event]
    | .error .crash => .error .crash
    | .error _ => .error logThenError
  else .ok []

def prepare : Except Stop RawEvent := do
  let body ← decodeBody req
  let body ← checkAndProcessInvite svc req body
  let (q, events) ← roomState svc req
  let body ← precheck svc req q body
  let event ← (buildMembershipEvent svc q body req.userID req.roomID req.membership
    svc.eventNID).mapError (buildFailed req.membership)
  let joins ← autoJoin svc req q body
  return { roomID := req.roomID, deviceID := req.deviceID, trust := true,
           events := events ++ event :: joins, svrName := domainOf req.userID,
           query := ["membership", req.membership] }

def answer (result : Option String) : Stop :=
  match result with
  | none => .reply 200 (.ok (if req.membership = "join" then req.roomID else ""))
  | some err =>
    let refused := if req.membership = "invite" then
      (cutPrefix "SendInvite error: " err).bind svc.respInvite else none
    match refused with
    | some code => .reply code (.unknown (.text "invitee reject from remote server"))
    | none =>
      if contains err "timeout" then .reply 504 (.timeout (.text err))
      else if req.membership ∈ forbiddenVerbs then forbid ("can't " ++ req.membership ++ ".")
      else logThenError

def sendMembership : Option RawEvent × Stop :=
  match prepare svc req with
  | .error stop => (none, stop)
  | .ok raw => (some raw, answer svc req (svc.inputRoomEvents raw))

end Ligase.Client

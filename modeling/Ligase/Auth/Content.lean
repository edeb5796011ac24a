import Ligase.Lib.Json
import Ligase.Lib.Run
import Ligase.Lib.Text

/-!
# Event contents

The contents that the authorisation rules read, decoded from the events of the room, with their
defaults: the `create`, `member`, `third_party_invite`, `join_rules` and `power_levels` events.

* `newMemberContentFromAuthEvents`: a user without a member event has left.
* `newPowerLevelContentFromAuthEvents`: without a power event the creator has level 100.
-/

namespace Ligase.Auth

open Lib

/-! ## Events and errors -/

structure Event where
  eventID : String
  roomID : String
  sender : String
  type : String
  stateKey : Option String
  content : Json
  originServerTS : Int
  redacts : String
  redactsSender : String

def Event.stateKeyEquals (event : Event) (stateKey : String) : Bool :=
  event.stateKey = some stateKey

def MRoomCreate : String := "m.room.create"
def MRoomJoinRules : String := "m.room.join_rules"
def MRoomPowerLevels : String := "m.room.power_levels"
def MRoomMember : String := "m.room.member"
def MRoomThirdPartyInvite : String := "m.room.third_party_invite"
def MRoomAliases : String := "m.room.aliases"
def MRoomRedaction : String := "m.room.redaction"
def MRoomArchive : String := "m.room.archive"
def MRoomUpdate : String := "m.room.update"

inductive Arg where
  | str (s : String)
  | ptr (s : Option String)
  | int (z : Int)
  | method (name : String)
  deriving DecidableEq

/-- `notAllowed` is `errorf` with its format and arguments; `unparsable` ends with the text of a
decoding error; `crash` is an index out of range. -/
inductive AuthError where
  | notAllowed (message : String) (args : List Arg)
  | unparsable (message : String)
  | crash
  deriving DecidableEq

abbrev Check := Except AuthError

def errorf {α : Type} (message : String) (args : List Arg) : Check α :=
  .error (.notAllowed message args)

structure AuthEvents where
  create : Option Event
  joinRules : Option Event
  powerLevels : Option Event
  member : String → Option Event
  thirdPartyInvite : String → Option Event

structure MemberThirdPartyInviteSigned where
  mxid : String
  signatures : List (String × List (String × String))
  token : String

/-- What the checks take from outside: the types exempt from the level check, the domains of this
server, and two cryptographic functions. -/
structure Env where
  skip : String → Bool
  domains : List String
  base64 : String → Option String
  verifyJSON : (domain keyID publicKey : String) → MemberThirdPartyInviteSigned → Bool

def domainFromID (id : String) : Check String :=
  match cut ':' id with
  | some (_, domain) => .ok domain
  | none => errorf "invalid ID: %q" [.str id]

/-! ## Create -/

structure CreateContent where
  senderDomain : String
  roomID : String
  eventID : String
  federate : Option Bool
  creator : String
  isOrganizationRoom : Bool
  isGroupRoom : Bool

def CreateContent.set (name : String) (v : Json) (c : CreateContent) : Option CreateContent :=
  match name with
  | "m.federate" => (Json.asPtr (Json.asBool false) v).map fun b => { c with federate := b }
  | "creator" => v.asString.map fun s => { c with creator := s }
  | "is_organization_room" =>
    (Json.asBool c.isOrganizationRoom v).map fun b => { c with isOrganizationRoom := b }
  | "is_group_room" => (Json.asBool c.isGroupRoom v).map fun b => { c with isGroupRoom := b }
  | _ => some c

variable (authEvents : AuthEvents)

def newCreateContentFromAuthEvents : Check CreateContent :=
  match authEvents.create with
  | none => errorf "missing create event" []
  | some createEvent =>
    match createEvent.content.decode? CreateContent.set ⟨"", "", "", none, "", false, false⟩ with
    | none => .error (.unparsable "unparsable create event content: %s")
    | some c => do
      let senderDomain ← domainFromID createEvent.sender
      return { c with
        roomID := createEvent.roomID, eventID := createEvent.eventID, senderDomain := senderDomain }

/-- The room is open to the domain: its own, any if it is federated, or one of this server's like
its own. -/
def CreateContent.domainAllowed (env : Env) (c : CreateContent) (domain : String) : Check Unit :=
  if domain = c.senderDomain then .ok ()
  else if c.federate.getD true then .ok ()
  else if domain ∈ env.domains ∧ c.senderDomain ∈ env.domains then .ok ()
  else errorf "room is unfederatable" []

def CreateContent.userIDAllowed (env : Env) (c : CreateContent) (id : String) : Check Unit := do
  let domain ← domainFromID id
  c.domainAllowed env domain

theorem cut_of_userIDAllowed {env : Env} {c : CreateContent} {id : String}
    (h : c.userIDAllowed env id = .ok ()) : ∃ p, cut ':' id = some p := by
  obtain ⟨domain, hd, -⟩ := bind_eq_ok.mp h
  unfold domainFromID at hd
  cases hc : cut ':' id with
  | none =>
    rw [hc] at hd
    cases hd
  | some p => exact ⟨p, rfl⟩

/-! ## Members -/

structure MemberThirdPartyInvite where
  displayName : String
  signed : MemberThirdPartyInviteSigned

structure MemberContent where
  membership : String
  thirdPartyInvite : Option MemberThirdPartyInvite

def MemberThirdPartyInviteSigned.set (name : String) (v : Json)
    (c : MemberThirdPartyInviteSigned) : Option MemberThirdPartyInviteSigned :=
  match name with
  | "mxid" => v.asString.map fun s => { c with mxid := s }
  | "signatures" =>
    (Json.asMap (fun v => Json.asMap Json.asString v []) v c.signatures).map fun m =>
      { c with signatures := m }
  | "token" => v.asString.map fun s => { c with token := s }
  | _ => some c

def MemberThirdPartyInvite.set (name : String) (v : Json) (c : MemberThirdPartyInvite) :
    Option MemberThirdPartyInvite :=
  match name with
  | "display_name" => v.asString.map fun s => { c with displayName := s }
  | "signed" => (v.decode? MemberThirdPartyInviteSigned.set c.signed).map fun s =>
    { c with signed := s }
  | _ => some c

def MemberContent.set (name : String) (v : Json) (c : MemberContent) : Option MemberContent :=
  match name with
  | "membership" => v.asString.map fun s => { c with membership := s }
  | "third_party_invite" =>
    (Json.asPtr (·.decode? MemberThirdPartyInvite.set
      (c.thirdPartyInvite.getD ⟨"", ⟨"", [], ""⟩⟩)) v).map fun t => { c with thirdPartyInvite := t }
  | _ => some c

def newMemberContentFromEvent (event : Event) : Check MemberContent :=
  match event.content.decode? MemberContent.set ⟨"", none⟩ with
  | some c => .ok c
  | none => .error (.unparsable "unparsable member event content: %s")

/-- The membership of a user in the room; `leave` by default. -/
def newMemberContentFromAuthEvents (userID : String) : Check MemberContent :=
  match authEvents.member userID with
  | none => .ok ⟨"leave", none⟩
  | some memberEvent => newMemberContentFromEvent memberEvent

/-! ## Third-party invites and join rules -/

structure ThirdPartyInviteContent where
  publicKeys : List String

def publicKeyOf (env : Env) (v : Json) : Option String :=
  v.decode? (fun name v key =>
    match name with
    | "public_key" => v.asString.bind env.base64
    | _ => some key) ""

def newThirdPartyInviteContentFromAuthEvents (env : Env) (authEvents : AuthEvents)
    (token : String) : Check ThirdPartyInviteContent :=
  match authEvents.thirdPartyInvite token with
  | none => errorf "Couldn't find third party invite event" []
  | some event =>
    match event.content.decode? (fun name v (t : ThirdPartyInviteContent) =>
      match name with
      | "public_keys" =>
        (Json.asList (publicKeyOf env) v).map fun keys => { t with publicKeys := keys }
      | _ => some t) ⟨[]⟩ with
    | some t => .ok t
    | none => .error (.unparsable "unparsable third party invite event content: %s")

def joinRuleOf (content : Json) : Option String :=
  content.decode? (fun name v rule =>
    match name with
    | "join_rule" => v.asString
    | _ => some rule) ""

def newJoinRuleContentFromAuthEvents : Check String :=
  match authEvents.joinRules with
  | none => .ok "invite"
  | some event =>
    match joinRuleOf event.content with
    | some rule => .ok rule
    | none => .error (.unparsable "unparsable join_rules event content: %s")

/-! ## Power levels -/

structure PowerLevelContent where
  banLevel : Int
  inviteLevel : Int
  kickLevel : Int
  redactLevel : Int
  userLevels : List (String × Int)
  userDefaultLevel : Int
  eventLevels : List (String × Int)
  eventDefaultLevel : Int
  stateDefaultLevel : Int
  onlyOneMember : Bool

def PowerLevelContent.defaults : PowerLevelContent where
  banLevel := 50
  inviteLevel := 0
  kickLevel := 50
  redactLevel := 50
  userLevels := []
  userDefaultLevel := 0
  eventLevels := []
  eventDefaultLevel := 0
  stateDefaultLevel := 50
  onlyOneMember := false

/-- `levelJSONValue`: an integer, a text with an integer, or a number cut to one. -/
def levelOf : Json → Option Int
  | .num (some z) _ => some z
  | .num none float => float
  | .string s => atoi s
  | .null => some 0
  | _ => none

def PowerLevelContent.set (name : String) (v : Json) (c : PowerLevelContent) :
    Option PowerLevelContent :=
  match name with
  | "invite" => (levelOf v).map fun z => { c with inviteLevel := z }
  | "ban" => (levelOf v).map fun z => { c with banLevel := z }
  | "kick" => (levelOf v).map fun z => { c with kickLevel := z }
  | "redact" => (levelOf v).map fun z => { c with redactLevel := z }
  | "users" => (Json.asMap levelOf v c.userLevels).map fun m => { c with userLevels := m }
  | "users_default" => (levelOf v).map fun z => { c with userDefaultLevel := z }
  | "events" => (Json.asMap levelOf v c.eventLevels).map fun m => { c with eventLevels := m }
  | "state_default" => (levelOf v).map fun z => { c with stateDefaultLevel := z }
  | "events_default" => (levelOf v).map fun z => { c with eventDefaultLevel := z }
  | "only_one_member" =>
    (Json.asPtr (Json.asBool c.onlyOneMember) v).map fun b =>
      { c with onlyOneMember := b.getD false }
  | _ => some c

def newPowerLevelContentFromEvent (event : Event) : Check PowerLevelContent :=
  match event.content.decode? PowerLevelContent.set .defaults with
  | some c => .ok c
  | none => .error (.unparsable "unparsable power_levels event content: %s")

def newPowerLevelContentFromAuthEvents (creatorUserID : String) : Check PowerLevelContent :=
  match authEvents.powerLevels with
  | some event => newPowerLevelContentFromEvent event
  | none => .ok { PowerLevelContent.defaults with
      userLevels := [(creatorUserID, 100)], stateDefaultLevel := 0 }

def PowerLevelContent.userLevel (c : PowerLevelContent) (userID : String) : Int :=
  (c.userLevels.lookup userID).getD c.userDefaultLevel

def PowerLevelContent.eventLevel (c : PowerLevelContent) (eventType : String) (isState : Bool) :
    Int :=
  if eventType = MRoomThirdPartyInvite then c.inviteLevel
  else
    match c.eventLevels.lookup eventType with
    | some level => level
    | none => if isState then c.stateDefaultLevel else c.eventDefaultLevel

end Ligase.Auth

import Ligase.Auth.Allowed

/-!
# The room state of the room server

`RoomServerState` holds the latest event of each kind of room setting and, for the members, one map
each of those who are in the room, have left it or are banned, and are invited. `onEvent` enters an
event. The state is also what the authorisation checks of the next event read (`authEvents`).

* `sameMember_onEventUpdate`: an event changes the membership of its target only.
-/

namespace Ligase.Room

open Lib Auth Function Option

/-! ## State -/

structure RoomStateExt where
  hasUpdate : Bool
  preStateId : String
  lastStateId : String
  preMsgId : String
  lastMsgId : String

structure RoomServerState where
  isEncrypted : Bool
  isFed : Bool
  isDirect : Bool
  creator : Option Event
  joinRule : Option Event
  historyVisibility : Option Event
  visibility : Option Event
  name : Option Event
  topic : Option Event
  desc : Option Event
  canonicalAlias : Option Event
  aliases : Option Event
  power : Option Event
  guestAccess : Option Event
  avatar : Option Event
  pin : Option Event
  join : String → Option Event
  leave : String → Option Event
  invite : String → Option Event
  thirdInvite : String → Option Event
  /-- the number of joined members of a domain -/
  memberCnt : String → Int
  ext : RoomStateExt

variable {user user' : String}

namespace RoomServerState

/-- A room before its first event. -/
def init : RoomServerState where
  isEncrypted := false
  isFed := false
  isDirect := false
  creator := none
  joinRule := none
  historyVisibility := none
  visibility := none
  name := none
  topic := none
  desc := none
  canonicalAlias := none
  aliases := none
  power := none
  guestAccess := none
  avatar := none
  pin := none
  join := fun _ => none
  leave := fun _ => none
  invite := fun _ => none
  thirdInvite := fun _ => none
  memberCnt := fun _ => 0
  ext := ⟨false, "", "", "", ""⟩

section
variable (rs : RoomServerState)

def member (stateKey : String) : Option Event :=
  (rs.join stateKey).or ((rs.leave stateKey).or (rs.invite stateKey))

def authEvents : AuthEvents where
  create := rs.creator
  joinRules := rs.joinRule
  powerLevels := rs.power
  member := rs.member
  thirdPartyInvite := rs.thirdInvite

/-! ## Updates -/

/-- The flags of `CreateContent` that the state does not keep. -/
def otherFlags : List String :=
  ["enable_watermark", "is_secret", "enable_favorite", "enable_snapshot", "enable_forward",
    "is_channel", "is_organization_room", "is_group_room"]

def decodeCreate (content : Json) : (Option Bool × Option Bool) × Bool :=
  content.decode (fun name v (c : Option Bool × Option Bool) =>
    match name with
    | "creator" => v.asString.map fun _ => c
    | "m.federate" => (Json.asPtr (Json.asBool false) v).map fun b => (b, c.2)
    | "is_direct" => (Json.asPtr (Json.asBool false) v).map fun b => (c.1, b)
    | "version" | "room_type" => (Json.asPtr Json.asInt v).map fun _ => c
    | name =>
      if name ∈ otherFlags then (Json.asPtr (Json.asBool false) v).map fun _ => c
      else some c) (none, none)

/-- A decoding error is ignored, and what was read before it counts. -/
def onCreateEv (ev : Event) : RoomServerState :=
  let (federate, isDirect) := (decodeCreate ev.content).1
  { rs with creator := some ev, isFed := federate.getD false, isDirect := isDirect.getD false }

structure MemberFields where
  membership : String
  displayName : String
  avatarURL : String
  reason : String
  thirdPartyInvite : Option MemberThirdPartyInvite

def MemberFields.set (name : String) (v : Json) (c : MemberFields) : Option MemberFields :=
  match name with
  | "membership" => v.asString.map fun s => { c with membership := s }
  | "displayname" => v.asString.map fun s => { c with displayName := s }
  | "avatar_url" => v.asString.map fun s => { c with avatarURL := s }
  | "reason" => v.asString.map fun s => { c with reason := s }
  | "third_party_invite" =>
    (Json.asPtr (·.decode? MemberThirdPartyInvite.set
      (c.thirdPartyInvite.getD ⟨"", ⟨"", [], ""⟩⟩)) v).map fun t => { c with thirdPartyInvite := t }
  | _ => some c

/-- The membership that the state reads off a content; what was read before a decoding error counts.
-/
def membershipOf (content : Json) : String :=
  (content.decode MemberFields.set ⟨"", "", "", "", none⟩).1.membership

def preMembership (user : String) : String :=
  if (rs.join user).isSome then "join"
  else if (rs.leave user).isSome then "leave"
  else if (rs.invite user).isSome then "invite"
  else ""

def storeMember (ev : Event) (user membership : String) : RoomServerState :=
  if membership = "join" then
    { rs with
      join := update rs.join user (some ev)
      thirdInvite := update rs.thirdInvite user none }
  else if membership = "invite" then
    { rs with invite := update rs.invite user (some ev) }
  else if membership = "leave" ∨ membership = "ban" then
    { rs with
      leave := update rs.leave user (some ev)
      thirdInvite := update rs.thirdInvite user none }
  else rs

/-- Take the user out of the map of the earlier membership. A ban is in the leave map, but not under
its name. -/
def dropMember (user membership pre : String) : RoomServerState :=
  if membership ≠ pre then
    if pre = "join" then { rs with join := update rs.join user none }
    else if pre = "invite" then { rs with invite := update rs.invite user none }
    else if pre = "leave" then { rs with leave := update rs.leave user none }
    else rs
  else rs

def countMember (domain membership pre : String) : RoomServerState :=
  let left := if membership ≠ pre ∧ pre = "join" then 1 else 0
  let joined := if membership ≠ pre ∧ membership = "join" then 1 else 0
  { rs with memberCnt := update rs.memberCnt domain (rs.memberCnt domain - left + joined) }

def onMemberEv (ev : Event) (user : String) : RoomServerState :=
  match cut ':' user with
  | none => rs
  | some (_, domain) =>
    let membership := membershipOf ev.content
    let pre := rs.preMembership user
    ((rs.storeMember ev user membership).dropMember user membership pre).countMember
      domain membership pre

def getPreEvent (ev : Event) : Option Event × Bool :=
  match ev.type with
  | "m.room.create" => (rs.creator, true)
  | "m.room.member" => (ev.stateKey.bind rs.member, true)
  | "m.room.power_levels" => (rs.power, true)
  | "m.room.third_party_invite" => (ev.stateKey.bind rs.thirdInvite, true)
  | "m.room.join_rules" => (rs.joinRule, true)
  | "m.room.history_visibility" => (rs.historyVisibility, true)
  | "m.room.visibility" => (rs.visibility, true)
  | "m.room.name" => (rs.name, true)
  | "m.room.topic" => (rs.topic, true)
  | "m.room.desc" => (rs.desc, true)
  | "m.room.canonical_alias" => (rs.canonicalAlias, true)
  | "m.room.aliases" => (rs.aliases, true)
  | "m.room.avatar" => (rs.avatar, true)
  | "m.room.guest_access" => (rs.guestAccess, true)
  | "m.room.pinned_events" => (rs.pin, true)
  | "m.room.encryption" => (none, true)
  | _ => (none, false)

def onEventUpdate (ev : Event) (stateKey : String) : RoomServerState :=
  match ev.type with
  | "m.room.create" => rs.onCreateEv ev
  | "m.room.member" => rs.onMemberEv ev stateKey
  | "m.room.power_levels" => { rs with power := some ev }
  | "m.room.third_party_invite" =>
    { rs with thirdInvite := update rs.thirdInvite stateKey (some ev) }
  | "m.room.join_rules" => { rs with joinRule := some ev }
  | "m.room.history_visibility" => { rs with historyVisibility := some ev }
  | "m.room.visibility" => { rs with visibility := some ev }
  | "m.room.name" => { rs with name := some ev }
  | "m.room.topic" => { rs with topic := some ev }
  | "m.room.desc" => { rs with desc := some ev }
  | "m.room.canonical_alias" => { rs with canonicalAlias := some ev }
  | "m.room.aliases" => { rs with aliases := some ev }
  | "m.room.avatar" => { rs with avatar := some ev }
  | "m.room.pinned_events" => { rs with pin := some ev }
  | "m.room.encryption" => { rs with isEncrypted := true }
  | "m.room.guest_access" => { rs with guestAccess := some ev }
  | _ => rs

/-- Whether an event is entered: every state event of this server, and of the others those that do
not come before the event they replace. -/
def checkUpdate (isLocal : Bool) (ev : Event) (pre : Option Event) (isState : Bool) : Bool :=
  if isLocal then isState
  else isState && match pre with
    | none => true
    | some p => p.originServerTS ≤ ev.originServerTS && p.eventID ≠ ev.eventID

/-- The ids of the last events move on while a room is recovered. -/
def updateExt (ext : RoomStateExt) (isLocal recover isState : Bool) (ev : Event) : RoomStateExt :=
  if isLocal && recover then
    if isState then
      { ext with preStateId := ext.lastStateId, lastStateId := ev.eventID, lastMsgId := ev.eventID }
    else { ext with preMsgId := ext.lastMsgId, lastMsgId := ev.eventID }
  else ext

/-- The types whose state key is read without looking whether there is one. -/
def needsStateKey (type : String) : Bool :=
  type = "m.room.member" || type = "m.room.third_party_invite"

/-- `onEvent`; `none` is the nil state key of a type that needs one. -/
def onEvent (localDomains : List String) (recover : Bool) (ev : Event) : Option RoomServerState :=
  if needsStateKey ev.type ∧ ev.stateKey = none then none
  else
    let (pre, isState) := rs.getPreEvent ev
    match cut ':' ev.sender with
    | none => some rs
    | some (_, domain) =>
      let isLocal := decide (domain ∈ localDomains)
      let hasUpdate := checkUpdate isLocal ev pre isState
      let rs := { rs with
        ext := { updateExt rs.ext isLocal recover isState ev with hasUpdate := hasUpdate } }
      if hasUpdate then some (rs.onEventUpdate ev (ev.stateKey.getD "")) else some rs

end

/-! ## What an event changes -/

variable {rs rs' : RoomServerState} {localDomains : List String} {recover : Bool} {ev : Event}

def applies (rs : RoomServerState) (localDomains : List String) (ev : Event) : Bool :=
  match cut ':' ev.sender with
  | none => false
  | some (_, domain) =>
    checkUpdate (domain ∈ localDomains) ev (rs.getPreEvent ev).1 (rs.getPreEvent ev).2

/-- The states agree on the memberships of a user and on the creation of the room. -/
structure SameMember (rs rs' : RoomServerState) (user : String) : Prop where
  join : rs'.join user = rs.join user
  leave : rs'.leave user = rs.leave user
  invite : rs'.invite user = rs.invite user

theorem SameMember.refl (rs : RoomServerState) (user : String) : SameMember rs rs user :=
  ⟨rfl, rfl, rfl⟩

theorem onEvent_eq_some (h : rs.onEvent localDomains recover ev = some rs') :
    (rs.applies localDomains ev = false ∧ ∃ ext, rs' = { rs with ext := ext }) ∨
      rs.applies localDomains ev = true ∧
        ∃ ext, rs' = onEventUpdate { rs with ext := ext } ev (ev.stateKey.getD "") := by
  unfold onEvent at h
  unfold applies
  split_ifs at h
  cases hc : cut ':' ev.sender with
  | none =>
    simp only [hc, some.injEq] at h
    exact .inl ⟨rfl, rs.ext, h.symm⟩
  | some p =>
    simp only [hc] at h ⊢
    split_ifs at h with hu
    · exact .inr ⟨hu, _, (some.inj h).symm⟩
    · exact .inl ⟨Bool.eq_false_iff.mpr hu, _, (some.inj h).symm⟩

theorem onEvent_of_applies {stateKey : String} (hk : ev.stateKey = some stateKey)
    (h : rs.applies localDomains ev = true) :
    ∃ ext, rs.onEvent localDomains recover ev =
      some (onEventUpdate { rs with ext := ext } ev stateKey) := by
  unfold onEvent
  unfold applies at h
  rw [if_neg fun hn => some_ne_none _ (hk.symm.trans hn.2)]
  cases hc : cut ':' ev.sender with
  | none =>
    rw [hc] at h
    cases h
  | some p =>
    rw [hc] at h
    simp only [h, if_true, hk, getD_some]
    exact ⟨_, rfl⟩

theorem dropMember_storeMember (rs : RoomServerState) (ev : Event) (user membership pre : String) :
    ∃ join leave invite thirdInvite, (rs.storeMember ev user membership).dropMember user membership
      pre = { rs with join, leave, invite, thirdInvite } := by
  have hstore : ∃ join leave invite thirdInvite, rs.storeMember ev user membership =
      { rs with join, leave, invite, thirdInvite } := by
    unfold storeMember
    split_ifs <;> exact ⟨_, _, _, _, rfl⟩
  obtain ⟨join, leave, invite, thirdInvite, h⟩ := hstore
  rw [h]
  unfold dropMember
  split_ifs <;> exact ⟨_, _, _, _, rfl⟩

theorem onMemberEv_frame (rs : RoomServerState) (ev : Event) (user : String) :
    ∃ join leave invite thirdInvite memberCnt,
      rs.onMemberEv ev user = { rs with join, leave, invite, thirdInvite, memberCnt } := by
  unfold onMemberEv
  split
  · exact ⟨_, _, _, _, _, rfl⟩
  · obtain ⟨_, _, _, _, h⟩ := rs.dropMember_storeMember ev user (membershipOf ev.content)
      (rs.preMembership user)
    dsimp only
    exact ⟨_, _, _, _, _, by rw [h]; rfl⟩

theorem SameMember.trans {rs₁ rs₂ rs₃ : RoomServerState} (h : SameMember rs₁ rs₂ user)
    (h' : SameMember rs₂ rs₃ user) : SameMember rs₁ rs₃ user :=
  ⟨h'.join.trans h.join, h'.leave.trans h.leave, h'.invite.trans h.invite⟩

theorem sameMember_storeMember {membership : String} (hne : user' ≠ user) :
    SameMember rs (rs.storeMember ev user membership) user' := by
  unfold storeMember
  split_ifs
  all_goals exact ⟨by simp [hne], by simp [hne], by simp [hne]⟩

theorem sameMember_dropMember {membership pre : String} (hne : user' ≠ user) :
    SameMember rs (rs.dropMember user membership pre) user' := by
  unfold dropMember
  split_ifs
  all_goals exact ⟨by simp [hne], by simp [hne], by simp [hne]⟩

theorem sameMember_onMemberEv (hne : user' ≠ user) :
    SameMember rs (rs.onMemberEv ev user) user' := by
  unfold onMemberEv
  split
  · exact .refl _ _
  · exact ((sameMember_storeMember hne).trans (sameMember_dropMember hne)).trans ⟨rfl, rfl, rfl⟩

theorem onMemberEv_ban {p : String × String} (hcut : cut ':' user = some p)
    (hban : membershipOf ev.content = "ban") (hleave : rs.leave user = none) :
    (rs.onMemberEv ev user).join user = none ∧ (rs.onMemberEv ev user).leave user = some ev := by
  simp only [onMemberEv, hcut, hban, countMember, storeMember, dropMember, preMembership, hleave]
  cases hj : rs.join user with
  | some e => simp
  | none => cases hi : rs.invite user <;> simp [hj]

theorem sameMember_onEventUpdate {stateKey : String}
    (hne : ¬ (ev.type = MRoomMember ∧ stateKey = user)) :
    SameMember rs (rs.onEventUpdate ev stateKey) user := by
  unfold onEventUpdate
  split
  case h_2 ht => exact sameMember_onMemberEv fun e => hne ⟨ht, e.symm⟩
  all_goals exact ⟨rfl, rfl, rfl⟩

end RoomServerState

end Ligase.Room

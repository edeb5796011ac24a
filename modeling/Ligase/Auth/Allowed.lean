import Ligase.Auth.Content

/-!
# Event authorisation

`allowed` decides whether an event may enter a room with the given state: one set of rules for each
of the creation of the room, its aliases, membership, power levels, redactions and everything else.

* **`ruleAllowed_banned`**: the member events for a banned user that are accepted.
* **`allowed_join_iff`**: the joins that are accepted.
-/

namespace Ligase.Auth

open Lib Option

variable (env : Env) (event : Event) (authEvents : AuthEvents)

/-! ## Creation and aliases -/

def createEventAllowed : Check Unit := do
  if let some create := authEvents.create then
    errorf "create event must be the first event in the room: found %s prev_events"
      [.str create.eventID]
  if !event.stateKeyEquals "" then
    errorf "create event state key is not empty: %v" [.ptr event.stateKey]
  let roomIDDomain ← domainFromID event.roomID
  let senderDomain ← domainFromID event.sender
  if senderDomain ≠ roomIDDomain then
    errorf "create event room ID domain does not match sender: %q != %q"
      [.str roomIDDomain, .str senderDomain]

def aliasEventAllowed : Check Unit := do
  let create ← newCreateContentFromAuthEvents authEvents
  let senderDomain ← domainFromID event.sender
  if event.roomID ≠ create.roomID then
    errorf "create event has different roomID: %q != %q" [.str event.roomID, .str create.roomID]
  create.domainAllowed env senderDomain
  if !event.stateKeyEquals senderDomain then
    errorf "alias state_key does not match sender domain, %q != %q"
      [.str senderDomain, .ptr event.stateKey]

/-! ## Common checks -/

structure EventAllower where
  create : CreateContent
  member : MemberContent
  powerLevels : PowerLevelContent

def newEventAllower (senderID : String) : Check EventAllower := do
  let create ← newCreateContentFromAuthEvents authEvents
  let member ← newMemberContentFromAuthEvents authEvents senderID
  let powerLevels ← newPowerLevelContentFromAuthEvents authEvents create.creator
  return { create, member, powerLevels }

/-- The sender is in the room and has the level of the event; a state key of a user is the sender's.
-/
def EventAllower.commonChecks (e : EventAllower) (event : Event) : Check Unit := do
  if event.roomID ≠ e.create.roomID then
    errorf "create event has different roomID: %q != %q" [.str event.roomID, .str e.create.roomID]
  let sender := event.sender
  e.create.userIDAllowed env sender
  if e.member.membership ≠ "join" then
    errorf "sender %q not in room" [.str sender]
  if !env.skip event.type then
    let senderLevel := e.powerLevels.userLevel sender
    let eventLevel := e.powerLevels.eventLevel event.type event.stateKey.isSome
    if senderLevel < eventLevel ∧ event.type ≠ MRoomArchive then
      errorf "sender %q is not allowed to send event. %d < %d"
        [.str sender, .int senderLevel, .int eventLevel]
  if let some stateKey := event.stateKey then
    if stateKey.toList.head? = some '@' ∧ stateKey ≠ sender then
      errorf "sender %q is not allowed to modify the state belonging to %q"
        [.str sender, .str stateKey]

def defaultEventAllowed : Check Unit := do
  let allower ← newEventAllower authEvents event.sender
  allower.commonChecks env event

def redactEventAllowed : Check Unit := do
  let allower ← newEventAllower authEvents event.sender
  allower.commonChecks env event
  let senderDomain ← domainFromID event.sender
  let redactDomain ← domainFromID event.redacts
  if senderDomain = redactDomain then
    if event.sender = event.redactsSender then return
    else if event.sender = allower.create.creator then return
    else
      errorf "%q is not allowed to redact message from %q send by %s create by %s"
        [.str event.sender, .str redactDomain, .method "RedactEventSender",
          .str allower.create.creator]
  let senderLevel := allower.powerLevels.userLevel event.sender
  let redactLevel := allower.powerLevels.redactLevel
  if senderLevel ≥ redactLevel then return
  errorf "%q is not allowed to redact message from %q. %d < %d"
    [.str event.sender, .str redactDomain, .int senderLevel, .int redactLevel]

/-! ## Power levels -/

/-- A sigil and a domain part; the empty text has no first byte to look at. -/
def isValidUserID (userID : String) : Check Bool :=
  match userID.toList with
  | [] => .error .crash
  | c :: cs => .ok (c = '@' && (c :: cs).contains ':')

/-- The levels with a name of their own, then one for each event type of the new and the old levels.
-/
def eventLevelChecks (old new : PowerLevelContent) : List (Int × Int) :=
  [(old.banLevel, new.banLevel), (old.inviteLevel, new.inviteLevel),
    (old.kickLevel, new.kickLevel), (old.redactLevel, new.redactLevel),
    (old.stateDefaultLevel, new.stateDefaultLevel),
    (old.eventDefaultLevel, new.eventDefaultLevel)] ++
  (new.eventLevels ++ old.eventLevels).map fun (eventType, _) =>
    (old.eventLevel eventType false, new.eventLevel eventType false)

def checkEventLevels (senderLevel : Int) (oldPowerLevels newPowerLevels : PowerLevelContent) :
    Check Unit :=
  (eventLevelChecks oldPowerLevels newPowerLevels).forM fun (old, new) => do
    if old = new then return
    if senderLevel < new then
      errorf ("sender with level %d is not allowed to change level from %d to %d" ++
          " because the new level is above the level of the sender")
        [.int senderLevel, .int old, .int new]
    if senderLevel < old then
      errorf ("sender with level %d is not allowed to change level from %d to %d" ++
          " because the current level is above the level of the sender")
        [.int senderLevel, .int old, .int new]

/-- The default, then the level of each user of the new and the old levels. -/
def userLevelChecks (old new : PowerLevelContent) : List (Int × Int × String) :=
  (old.userDefaultLevel, new.userDefaultLevel, "") ::
    (new.userLevels ++ old.userLevels).map fun (userID, _) =>
      (old.userLevel userID, new.userLevel userID, userID)

def checkUserLevels (senderLevel : Int) (senderID : String)
    (oldPowerLevels newPowerLevels : PowerLevelContent) : Check Unit :=
  (userLevelChecks oldPowerLevels newPowerLevels).forM fun (old, new, userID) => do
    if old = new then return
    if senderLevel < new then
      errorf ("sender with level %d is not allowed change user level from %d to %d" ++
          " because the new level is above the level of the sender")
        [.int senderLevel, .int old, .int new]
    if userID = senderID then return
    if newPowerLevels.onlyOneMember then return
    if senderLevel ≤ old then
      errorf ("sender with level %d is not allowed to change user level from %d to %d" ++
          " because the old level is equal to or above the level of the sender")
        [.int senderLevel, .int old, .int new]

def powerLevelsEventAllowed : Check Unit := do
  let allower ← newEventAllower authEvents event.sender
  allower.commonChecks env event
  let newPowerLevels ← newPowerLevelContentFromEvent event
  newPowerLevels.userLevels.forM fun (userID, _) => do
    if !(← isValidUserID userID) then
      errorf "Not a valid user ID: %q" [.str userID]
  if authEvents.powerLevels.isNone then return
  let oldPowerLevels := allower.powerLevels
  let senderLevel := oldPowerLevels.userLevel event.sender
  checkEventLevels senderLevel oldPowerLevels newPowerLevels
  checkUserLevels senderLevel event.sender oldPowerLevels newPowerLevels

/-! ## Membership -/

structure MembershipAllower where
  targetID : String
  senderID : String
  senderMember : MemberContent
  oldMember : MemberContent
  newMember : MemberContent
  create : CreateContent
  powerLevels : PowerLevelContent
  joinRule : String
  thirdPartyInvite : ThirdPartyInviteContent

def unkick (member : MemberContent) : MemberContent :=
  if member.membership = "kick" then { member with membership := "leave" } else member

def joinRuleFor (newMember : MemberContent) : Check String :=
  if newMember.membership = "join" then newJoinRuleContentFromAuthEvents authEvents else .ok ""

def thirdPartyInviteFor (newMember : MemberContent) : Check ThirdPartyInviteContent :=
  match newMember.thirdPartyInvite with
  | some t => newThirdPartyInviteContentFromAuthEvents env authEvents t.signed.token
  | none => .ok ⟨[]⟩

def newMembershipAllower (event : Event) : Check MembershipAllower :=
  match event.stateKey with
  | none => errorf "m.room.member must be a state event" []
  | some stateKey => do
    let create ← newCreateContentFromAuthEvents authEvents
    let newMember := unkick (← newMemberContentFromEvent event)
    let oldMember ← newMemberContentFromAuthEvents authEvents stateKey
    let senderMember ← newMemberContentFromAuthEvents authEvents event.sender
    let powerLevels ← newPowerLevelContentFromAuthEvents authEvents create.creator
    let joinRule ← joinRuleFor authEvents newMember
    let thirdPartyInvite ← thirdPartyInviteFor env authEvents newMember
    return { targetID := stateKey, senderID := event.sender, senderMember, oldMember, newMember,
             create, powerLevels, joinRule, thirdPartyInvite }

namespace MembershipAllower

variable (m : MembershipAllower)

def membershipFailed : Check Unit :=
  if m.senderID = m.targetID then
    errorf "%q is not allowed to change their membership from %q to %q"
      [.str m.targetID, .str m.oldMember.membership, .str m.newMember.membership]
  else
    errorf "%q is not allowed to change the membership of %q from %q to %q"
      [.str m.senderID, .str m.targetID, .str m.oldMember.membership, .str m.newMember.membership]

def selfMay : Bool :=
  match m.newMember.membership with
  | "join" =>
    (m.oldMember.membership = "leave" && m.joinRule = "public") ||
    (m.oldMember.membership = "forget" && m.joinRule = "public") ||
    (m.oldMember.membership = "invite" && m.joinRule = "public") ||
    (m.oldMember.membership = "invite" && m.joinRule = "invite") ||
    m.oldMember.membership = "join"
  | "leave" => m.oldMember.membership = "join" || m.oldMember.membership = "invite"
  | "forget" => m.oldMember.membership = "leave" || m.oldMember.membership = "ban"
  | _ => false

def membershipAllowedSelf : Check Unit :=
  if m.selfMay then .ok () else m.membershipFailed

def otherMay : Bool :=
  let senderLevel := m.powerLevels.userLevel m.senderID
  let targetLevel := m.powerLevels.userLevel m.targetID
  match m.newMember.membership with
  | "ban" => senderLevel ≥ m.powerLevels.banLevel && senderLevel ≥ targetLevel
  | "leave" =>
    (m.oldMember.membership = "ban" && senderLevel ≥ m.powerLevels.banLevel) ||
    (m.oldMember.membership ≠ "ban" && senderLevel ≥ m.powerLevels.kickLevel &&
      senderLevel > targetLevel)
  | "invite" =>
    (m.oldMember.membership = "leave" && senderLevel ≥ m.powerLevels.inviteLevel) ||
    (m.oldMember.membership = "invite" && senderLevel ≥ m.powerLevels.inviteLevel) ||
    (m.oldMember.membership = "forget" && senderLevel ≥ m.powerLevels.inviteLevel)
  | _ => false

def membershipAllowedOther : Check Unit :=
  if m.senderMember.membership ≠ "join" then
    errorf "sender %q is not in the room" [.str m.senderID]
  else if m.otherMay then .ok ()
  else m.membershipFailed

def signatureVerified (env : Env) (m : MembershipAllower) (t : MemberThirdPartyInvite) : Bool :=
  m.thirdPartyInvite.publicKeys.any fun publicKey =>
    t.signed.signatures.any fun (domain, signatures) =>
      signatures.any fun (keyID, _) =>
        "ed25519".toList.isPrefixOf keyID.toList && env.verifyJSON domain keyID publicKey t.signed

def membershipAllowedFromThirdPartyInvite (env : Env) (m : MembershipAllower)
    (t : MemberThirdPartyInvite) : Check Unit :=
  if m.targetID ≠ t.signed.mxid then
    errorf ("The invite target %s doesn't match with the Matrix ID" ++
      " provided by the identity server %s") [.str m.targetID, .str t.signed.mxid]
  else if m.signatureVerified env t then .ok ()
  else errorf "Couldn't verify signature on third-party invite for %s" [.str m.targetID]

/-- The rules before those for one's own and for another's membership: invites of oneself in an
organisation or group room, the creator's first join, and a join that the creator sends for a user
with a member event. -/
def specialMay (prevEvent : Option Event) : Bool :=
  ((m.create.isOrganizationRoom || m.create.isGroupRoom) && m.senderID = m.targetID &&
    m.newMember.membership = "invite") ||
  (m.targetID = m.create.creator && m.newMember.membership = "join" && m.senderID = m.targetID &&
    prevEvent.isNone) ||
  (m.newMember.membership = "join" && m.senderID = m.create.creator &&
    m.targetID ≠ m.create.creator && prevEvent.isSome)

def ruleAllowed (env : Env) (m : MembershipAllower) (prevEvent : Option Event) : Check Unit :=
  if m.specialMay prevEvent then .ok ()
  else
    match m.newMember.membership, m.newMember.thirdPartyInvite with
    | "invite", some t => m.membershipAllowedFromThirdPartyInvite env t
    | _, _ =>
      if m.targetID = m.senderID then m.membershipAllowedSelf else m.membershipAllowedOther

def membershipAllowed (env : Env) (m : MembershipAllower) (event : Event)
    (prevEvent : Option Event) : Check Unit := do
  if m.create.roomID ≠ event.roomID then
    errorf "create event has different roomID: %q != %q" [.str event.roomID, .str m.create.roomID]
  m.create.userIDAllowed env m.senderID
  m.create.userIDAllowed env m.targetID
  m.ruleAllowed env prevEvent

end MembershipAllower

def memberEventAllowed : Check Unit := do
  let allower ← newMembershipAllower env authEvents event
  allower.membershipAllowed env event (authEvents.member allower.targetID)

/-- `Allowed`: the rules by the type of the event. -/
def allowed : Check Unit :=
  if event.type = MRoomCreate then createEventAllowed event authEvents
  else if event.type = MRoomAliases then aliasEventAllowed env event authEvents
  else if event.type = MRoomMember then memberEventAllowed env event authEvents
  else if event.type = MRoomPowerLevels then powerLevelsEventAllowed env event authEvents
  else if event.type = MRoomRedaction ∨ event.type = MRoomUpdate then
    redactEventAllowed env event authEvents
  else defaultEventAllowed env event authEvents

/-! ## Accepted member events -/

section
variable {env : Env} {event : Event} {authEvents : AuthEvents} {m : MembershipAllower}

open MembershipAllower

theorem newMembershipAllower_eq_ok (h : newMembershipAllower env authEvents event = .ok m) :
    event.stateKey = some m.targetID ∧ m.senderID = event.sender ∧
      newCreateContentFromAuthEvents authEvents = .ok m.create ∧
      (∃ c, newMemberContentFromEvent event = .ok c ∧ m.newMember = unkick c) ∧
      newMemberContentFromAuthEvents authEvents m.targetID = .ok m.oldMember ∧
      newMemberContentFromAuthEvents authEvents event.sender = .ok m.senderMember ∧
      newPowerLevelContentFromAuthEvents authEvents m.create.creator = .ok m.powerLevels ∧
      (m.newMember.membership = "join" →
        newJoinRuleContentFromAuthEvents authEvents = .ok m.joinRule) := by
  unfold newMembershipAllower at h
  split at h
  · cases h
  · rename_i stateKey hkey
    simp only [bind_eq_ok] at h
    obtain ⟨create, hcreate, c, hc, old, hold, snd, hsnd, pl, hpl, rule, hrule, tp, -, h⟩ := h
    obtain rfl := Except.ok.inj h
    refine ⟨hkey, rfl, hcreate, ⟨c, hc, rfl⟩, hold, hsnd, hpl, fun hj => ?_⟩
    rwa [joinRuleFor, if_pos hj] at hrule

theorem allowed_member_iff (ht : event.type = MRoomMember) : allowed env event authEvents = .ok () ↔
      ∃ m, newMembershipAllower env authEvents event = .ok m ∧ m.create.roomID = event.roomID ∧
        m.create.userIDAllowed env m.senderID = .ok () ∧
        m.create.userIDAllowed env m.targetID = .ok () ∧
        m.ruleAllowed env (authEvents.member m.targetID) = .ok () := by
  have hcreate : event.type ≠ MRoomCreate := by rw [ht]; decide
  have halias : event.type ≠ MRoomAliases := by rw [ht]; decide
  rw [allowed, if_neg hcreate, if_neg halias, if_pos ht, memberEventAllowed, bind_eq_ok]
  refine exists_congr fun m => and_congr_right fun _ => ?_
  unfold membershipAllowed
  split_ifs with hroom
  · exact ⟨nofun, fun h => absurd h.1 hroom⟩
  · rw [not_not] at hroom
    simp only [bind_eq_ok, hroom, true_and]
    exact ⟨fun ⟨_, hs, _, ht, hr⟩ => ⟨hs, ht, hr⟩, fun ⟨hs, ht, hr⟩ => ⟨_, hs, _, ht, hr⟩⟩

theorem membershipFailed_ne_ok : m.membershipFailed ≠ .ok () := by
  unfold membershipFailed
  split_ifs <;> exact nofun

theorem membershipAllowedSelf_eq_ok : m.membershipAllowedSelf = .ok () ↔ m.selfMay = true := by
  unfold membershipAllowedSelf
  split_ifs with h
  · simp [h]
  · simp [h, membershipFailed_ne_ok]

theorem membershipAllowedOther_eq_ok : m.membershipAllowedOther = .ok () ↔
    m.senderMember.membership = "join" ∧ m.otherMay = true := by
  unfold membershipAllowedOther
  split_ifs with hj h
  · exact ⟨nofun, fun h => absurd h.1 hj⟩
  · simpa [h] using hj
  · simp [h, membershipFailed_ne_ok]

theorem selfMay_banned (hold : m.oldMember.membership = "ban") (h : m.selfMay = true) :
    m.newMember.membership = "forget" := by
  unfold selfMay at h
  split at h
  · simp [hold] at h
  · simp [hold] at h
  · assumption
  · cases h

theorem otherMay_banned (hold : m.oldMember.membership = "ban") (h : m.otherMay = true) :
    m.newMember.membership = "ban" ∨ m.newMember.membership = "leave" ∧
      m.powerLevels.banLevel ≤ m.powerLevels.userLevel m.senderID := by
  unfold otherMay at h
  split at h
  · exact .inl ‹_›
  · exact .inr ⟨‹_›, by simpa [hold] using h⟩
  · simp [hold] at h
  · cases h

/-- **What may happen to a banned user** who is not the creator: another ban, or an event that ends
a ban. -/
theorem ruleAllowed_banned {prevEvent : Option Event} (hold : m.oldMember.membership = "ban")
    (hcr : m.targetID ≠ m.create.creator) (h : m.ruleAllowed env prevEvent = .ok ()) :
    (m.newMember.membership = "ban" ∧ m.senderID ≠ m.targetID) ∨
      (m.newMember.membership = "leave" ∧ m.senderID ≠ m.targetID ∧
        m.powerLevels.banLevel ≤ m.powerLevels.userLevel m.senderID) ∨
      (m.newMember.membership = "forget" ∧ m.senderID = m.targetID) ∨
      (m.newMember.membership = "join" ∧ m.senderID = m.create.creator) ∨
      (m.newMember.membership = "invite" ∧ m.senderID = m.targetID ∧
        (m.create.isOrganizationRoom || m.create.isGroupRoom) = true) ∨
      (m.newMember.membership = "invite" ∧ m.newMember.thirdPartyInvite ≠ none) := by
  unfold ruleAllowed at h
  by_cases hs : m.specialMay prevEvent = true
  · simp only [specialMay, Bool.or_eq_true, Bool.and_eq_true,
      decide_eq_true_eq, hcr, false_and, or_false] at hs
    rcases hs with ⟨⟨ho, he⟩, hi⟩ | ⟨⟨⟨hj, hc⟩, -⟩, -⟩
    · exact .inr (.inr (.inr (.inr (.inl ⟨hi, he, by simpa using ho⟩))))
    · exact .inr (.inr (.inr (.inl ⟨hj, hc⟩)))
  · rw [if_neg hs] at h
    split at h
    · rename_i t hi ht
      exact .inr (.inr (.inr (.inr (.inr ⟨hi, by simp [ht]⟩))))
    · split_ifs at h with he
      · have hf := selfMay_banned hold (membershipAllowedSelf_eq_ok.mp h)
        exact .inr (.inr (.inl ⟨hf, he.symm⟩))
      · rcases otherMay_banned hold (membershipAllowedOther_eq_ok.mp h).2 with hb | ⟨hl, hp⟩
        · exact .inl ⟨hb, Ne.symm he⟩
        · exact .inr (.inl ⟨hl, Ne.symm he, hp⟩)

/-! ## Joins -/

/-- **Who may join.** The state is readable, the room is that of the event, the domains are
admitted; and the creator joins for the first time or sends the join of a user with a member event,
or users send their own join: they are in the room, or invited where invites count, or the room is
public and they are not banned. -/
def MayJoin (env : Env) (authEvents : AuthEvents) (roomID sender target : String) : Prop :=
  ∃ create old snd levels rule,
    newCreateContentFromAuthEvents authEvents = .ok create ∧
    newMemberContentFromAuthEvents authEvents target = .ok old ∧
    newMemberContentFromAuthEvents authEvents sender = .ok snd ∧
    newPowerLevelContentFromAuthEvents authEvents create.creator = .ok levels ∧
    newJoinRuleContentFromAuthEvents authEvents = .ok rule ∧
    create.roomID = roomID ∧ create.userIDAllowed env sender = .ok () ∧
    create.userIDAllowed env target = .ok () ∧
    ((sender = create.creator ∧ target = sender ∧ authEvents.member target = none) ∨
      (sender = create.creator ∧ target ≠ sender ∧ authEvents.member target ≠ none) ∨
      (sender = target ∧
        (old.membership = "join" ∨ (old.membership = "invite" ∧ rule = "invite") ∨
          (rule = "public" ∧ old.membership ∈ ["leave", "forget", "invite"]))))

theorem selfMay_join (hnew : m.newMember.membership = "join") : m.selfMay = true ↔
    m.oldMember.membership = "join" ∨ (m.oldMember.membership = "invite" ∧ m.joinRule = "invite") ∨
      (m.joinRule = "public" ∧ m.oldMember.membership ∈ ["leave", "forget", "invite"]) := by
  simp only [selfMay, hnew, Bool.or_eq_true, Bool.and_eq_true,
    decide_eq_true_eq, List.mem_cons, List.not_mem_nil, or_false]
  tauto

theorem otherMay_join (hnew : m.newMember.membership = "join") : m.otherMay = false := by
  simp [otherMay, hnew]

theorem ruleAllowed_join {prevEvent : Option Event} (hnew : m.newMember = ⟨"join", none⟩) :
    m.ruleAllowed env prevEvent = .ok () ↔
      (m.senderID = m.create.creator ∧ m.targetID = m.senderID ∧ prevEvent = none) ∨
      (m.senderID = m.create.creator ∧ m.targetID ≠ m.senderID ∧ prevEvent ≠ none) ∨
      (m.senderID = m.targetID ∧ m.selfMay = true) := by
  have hj : m.newMember.membership = "join" := by rw [hnew]
  have hs : m.specialMay prevEvent = true ↔
      (m.senderID = m.create.creator ∧ m.targetID = m.senderID ∧ prevEvent = none) ∨
      (m.senderID = m.create.creator ∧ m.targetID ≠ m.senderID ∧ prevEvent ≠ none) := by
    simp only [specialMay, hj, Bool.or_eq_true, Bool.and_eq_true,
      decide_eq_true_eq, isNone_iff_eq_none, isSome_iff_ne_none]
    grind
  unfold ruleAllowed
  by_cases h : m.specialMay prevEvent = true
  · simp only [h, if_true, true_iff]
    rcases hs.mp h with h | h
    · exact .inl h
    · exact .inr (.inl h)
  · rw [if_neg h, hnew]
    rw [hs, not_or] at h
    simp only [h.1, h.2, false_or]
    by_cases he : m.targetID = m.senderID
    · simp [he, membershipAllowedSelf_eq_ok]
    · simp [he, Ne.symm he, membershipAllowedOther_eq_ok, otherMay_join hj]

theorem allowed_join_iff {target : String} (ht : event.type = MRoomMember)
    (hkey : event.stateKey = some target)
    (hc : newMemberContentFromEvent event = .ok ⟨"join", none⟩) :
    allowed env event authEvents = .ok () ↔
      MayJoin env authEvents event.roomID event.sender target := by
  rw [allowed_member_iff ht]
  constructor
  · rintro ⟨m, hm, hroom, hsnd, htgt, hrule⟩
    obtain ⟨hk, hs, hcr, ⟨c, hc', hnew⟩, hold, hsm, hpl, hjr⟩ := newMembershipAllower_eq_ok hm
    obtain rfl : target = m.targetID := some.inj (hkey.symm.trans hk)
    obtain rfl : c = ⟨"join", none⟩ := Except.ok.inj (hc'.symm.trans hc)
    have hj : m.newMember.membership = "join" := by rw [hnew]; rfl
    rw [ruleAllowed_join hnew, selfMay_join hj] at hrule
    rw [hs] at hsnd hrule
    exact ⟨m.create, m.oldMember, m.senderMember, m.powerLevels, m.joinRule, hcr, hold, hsm, hpl,
      hjr hj, hroom, hsnd, htgt, hrule⟩
  · rintro ⟨create, old, snd, levels, rule, hcr, hold, hsm, hpl, hjr, hroom, hsnd, htgt, hrule⟩
    let m : MembershipAllower :=
      ⟨target, event.sender, snd, old, ⟨"join", none⟩, create, levels, rule, ⟨[]⟩⟩
    refine ⟨m, ?_, hroom, hsnd, htgt, ?_⟩
    · simp only [newMembershipAllower, hkey, bind_eq_ok]
      exact ⟨create, hcr, _, hc, old, hold, snd, hsm, levels, hpl, rule, hjr, ⟨[]⟩, rfl, rfl⟩
    · rw [ruleAllowed_join rfl, selfMay_join rfl]
      exact hrule

end

end Ligase.Auth

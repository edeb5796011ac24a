import Ligase.Client.Request
import Ligase.Room.Ban

/-!
# Membership requests and authorisation

The room server does not check the events of a submission that is marked as trusted, so that all
rests on the client server's own check.

* **`submission_authorised_iff`**: which requests submit authorised events only.
-/

namespace Ligase.Client

open Lib Auth Room Option List

/-! ## Member events that are built -/

section
variable {svc : Services} {q : QueryRoomStateResponse} {body body' : MembershipRequest}
  {req : Request} {userID roomID membership key reason : String} {nid : Int} {e : Event}

theorem newMemberContentFromEvent_memberBuilder {origin : String} :
    newMemberContentFromEvent
      ((memberBuilder svc userID roomID key reason membership).event nid origin) =
        .ok ⟨membership, none⟩ := by
  by_cases h : reason = ""
  · simp only [memberBuilder, memberContent, h, if_true]
    rfl
  · simp only [memberBuilder, memberContent, h, if_false]
    rfl

theorem buildEvent_eq_some {builder : EventBuilder} {domain : String} :
    buildEvent builder nid domain = some e ↔
      e = builder.event nid domain ∧ checkFields e domain = true := by
  unfold buildEvent
  dsimp only
  split_ifs with h
  · exact ⟨fun he => some.inj he ▸ ⟨rfl, h⟩, fun he => by rw [he.1]⟩
  · exact ⟨nofun, fun he => absurd (he.1 ▸ he.2) h⟩

theorem authorise_eq_ok {event : Option Event} (hd : q.isDirect = false)
    (h : authorise svc q userID membership event = .ok e) :
    event = some e ∧ allowed svc.auth e q.authEvents = .ok () := by
  unfold authorise at h
  unfold QueryRoomStateResponse.isDirect at hd
  split at h
  · cases h
  · rename_i createEvent hc
    rw [hc] at hd
    split at h
    · cases h
    · cases h
    · rename_i hdec
      simp [hdec] at hd
    · split at h
      · cases h
      · cases hcl : checkLeave q userID membership with
        | error err =>
          rw [hcl] at h
          cases h
        | ok u =>
          rw [hcl] at h
          obtain rfl := Except.ok.inj h
          exact ⟨rfl, ‹_›⟩

theorem buildMembershipEvent_eq_ok (hd : q.isDirect = false)
    (h : buildMembershipEvent svc q body userID roomID membership nid = .ok e) :
    ∃ key reason, getMembershipStateKey body userID membership = .ok (key, reason) ∧
      e = (memberBuilder svc userID roomID key reason (eventMembership membership)).event nid
        (domainOf userID) ∧
      checkFields e (domainOf userID) = true ∧
      (allowed svc.auth e q.authEvents = .ok () ∨
        eventMembership membership = "join" ∧ body.autoJoin = true) := by
  obtain ⟨⟨key, reason⟩, hkey, h⟩ := bind_eq_ok.mp h
  refine ⟨key, reason, hkey, ?_⟩
  dsimp only at h
  split_ifs at h with hauto
  · simp only [Bool.and_eq_true, decide_eq_true_eq, isSome_iff_exists] at hauto
    obtain ⟨⟨⟨e', he⟩, hj⟩, ha⟩ := hauto
    rw [he] at h
    obtain rfl : e' = e := Except.ok.inj h
    exact ⟨(buildEvent_eq_some.mp he).1, (buildEvent_eq_some.mp he).2, .inr ⟨hj, ha⟩⟩
  · obtain ⟨he, hal⟩ := authorise_eq_ok hd h
    exact ⟨(buildEvent_eq_some.mp he).1, (buildEvent_eq_some.mp he).2, .inl hal⟩

theorem buildMembershipEvent_autoJoin (ha : body.autoJoin = true)
    (hkey : getMembershipStateKey body userID "join" = .ok (key, reason))
    (he : buildEvent (memberBuilder svc userID roomID key reason "join") nid (domainOf userID) =
      some e) :
    buildMembershipEvent svc q body userID roomID "join" nid = .ok e := by
  have hj : eventMembership "join" = "join" := rfl
  unfold buildMembershipEvent
  rw [bind_eq_ok]
  refine ⟨_, hkey, ?_⟩
  simp only [hj, he, ha]
  rfl

/-! ## The steps of a request -/

/-- A join is refused, or already done, unless the room has a readable join rule, the user is not in
it, and it is public or the user is invited. -/
def JoinOpen (q : QueryRoomStateResponse) (userID : String) : Prop :=
  ∃ ev rule, q.joinRule = some ev ∧ joinRuleOf ev.content = some rule ∧
    q.join.lookup userID = none ∧ (rule = "public" ∨ q.invite.lookup userID ≠ none)

theorem precheck_join (hv : req.membership = "join") :
    precheck svc req q body = .ok body' ↔ body' = body ∧ JoinOpen q req.userID := by
  simp only [precheck, hv]
  cases hr : q.joinRule.bind fun joinEv => joinRuleOf joinEv.content with
  | none =>
    refine ⟨nofun, ?_⟩
    rintro ⟨-, ev, rule, hj, hrule, -⟩
    simp [hj, hrule] at hr
  | some rule =>
    obtain ⟨ev, hj, hrule⟩ := bind_eq_some_iff.mp hr
    have hopen : JoinOpen q req.userID ↔
        q.join.lookup req.userID = none ∧ (rule = "public" ∨ q.invite.lookup req.userID ≠ none) :=
      ⟨fun ⟨ev', rule', hj', hrule', h⟩ => by
        obtain rfl : ev = ev' := some.inj (hj.symm.trans hj')
        obtain rfl : rule = rule' := some.inj (hrule.symm.trans hrule')
        exact h, fun h => ⟨ev, rule, hj, hrule, h⟩⟩
    rw [hopen]
    cases hl : q.join.lookup req.userID <;> cases hi : q.invite.lookup req.userID <;>
      by_cases hp : rule = "public" <;> simp [hp, eq_comm]

theorem prepare_eq_ok {raw : RawEvent} (hq : svc.queryRoomState req.roomID = (q, true)) :
    prepare svc req = .ok raw ↔ ∃ body₀ body₁ body event joins,
      decodeBody req = .ok body₀ ∧ checkAndProcessInvite svc req body₀ = .ok body₁ ∧
      precheck svc req q body₁ = .ok body ∧
      buildMembershipEvent svc q body req.userID req.roomID req.membership svc.eventNID =
        .ok event ∧
      autoJoin svc req q body = .ok joins ∧
      raw = ⟨req.roomID, req.deviceID, true, event :: joins, domainOf req.userID,
        ["membership", req.membership]⟩ := by
  have hrs : roomState svc req = .ok (q, []) := by rw [roomState, hq]
  unfold prepare
  simp only [bind_eq_ok, hrs, mapError_eq_ok]
  constructor
  · rintro ⟨body₀, h₀, body₁, h₁, -, ⟨⟩, body, hb, event, he, joins, hj, h⟩
    exact ⟨body₀, body₁, body, event, joins, h₀, h₁, hb, he, hj, (Except.ok.inj h).symm⟩
  · rintro ⟨body₀, body₁, body, event, joins, h₀, h₁, hb, he, hj, rfl⟩
    exact ⟨body₀, h₀, body₁, h₁, _, rfl, body, hb, event, he, joins, hj, rfl⟩

theorem autoJoin_eq_ok {joins : List Event} (h : autoJoin svc req q body = .ok joins) :
    joins = [] ∨ ∃ event, joins = [event] ∧ req.membership = "invite" ∧ body.autoJoin = true ∧
      buildMembershipEvent svc q body req.userID req.roomID "join" svc.joinNID = .ok event := by
  unfold autoJoin at h
  split_ifs at h with hi
  · split at h
    · rename_i event he
      exact .inr ⟨event, (Except.ok.inj h).symm, hi.1, hi.2, he⟩
    · cases h
    · cases h
  · exact .inl (Except.ok.inj h).symm

theorem eventMembership_eq_join : eventMembership membership = "join" ↔ membership = "join" := by
  unfold eventMembership
  split_ifs with h
  · rcases h with rfl | rfl | rfl <;> decide
  · rfl

theorem checkAndProcessInvite_of_ne (hv : req.membership ≠ "invite") :
    checkAndProcessInvite svc req body = .ok body := by
  rw [checkAndProcessInvite, if_pos (.inl hv)]

def MembershipRequest.target (body : MembershipRequest) (userID : String) : String :=
  if body.userID = "" then userID else body.userID

theorem getMembershipStateKey_join (ha : body.autoJoin = true) :
    getMembershipStateKey body userID "join" = .ok (body.target userID, "") := by
  by_cases h : body.userID = ""
  · simp [getMembershipStateKey, bodyVerbs, MembershipRequest.target, h]
  · simp [getMembershipStateKey, bodyVerbs, MembershipRequest.target, h, ha]

theorem getMembershipStateKey_invite
    (h : getMembershipStateKey body userID "invite" = .ok (key, reason)) :
    key = body.target userID := by
  by_cases hu : body.userID = ""
  · simp [getMembershipStateKey, bodyVerbs, hu] at h
  · simp only [getMembershipStateKey, bodyVerbs, hu] at h
    rw [MembershipRequest.target, if_neg hu]
    exact (congrArg Prod.fst (Except.ok.inj h)).symm

/-! ## Authorised submissions -/

structure IsMember (membership user : String) (ev : Event) : Prop where
  type : ev.type = MRoomMember
  stateKey : ev.stateKey = some user
  content : newMemberContentFromEvent ev = .ok ⟨membership, none⟩

theorem isMember_memberBuilder {origin : String} : IsMember membership key
    ((memberBuilder svc userID roomID key reason membership).event nid origin) :=
  ⟨rfl, rfl, newMemberContentFromEvent_memberBuilder⟩

/-- **Every member event is accepted by the authorisation rules**, or is the join of a user who is
invited, with the acceptance of the rules, in the same submission. -/
def Authorised (env : Env) (state : AuthEvents) (events : List Event) : Prop :=
  ∀ ev ∈ events, ev.type = MRoomMember → allowed env ev state = .ok () ∨
    ∃ user, ∃ inv ∈ events, IsMember "join" user ev ∧ IsMember "invite" user inv ∧
      allowed env inv state = .ok ()

theorem authorised_join_iff {env : Env} {state : AuthEvents} {user : String}
    (h : IsMember "join" user e) :
    Authorised env state [e] ↔ MayJoin env state e.roomID e.sender user := by
  rw [← allowed_join_iff h.type h.stateKey h.content]
  constructor
  · intro ha
    rcases ha e (mem_singleton_self e) h.type with ha | ⟨_, inv, hinv, -, hi, -⟩
    · exact ha
    · obtain rfl := mem_singleton.mp hinv
      have hc := hi.content.symm.trans h.content
      simp at hc
  · intro ha ev hev _
    obtain rfl := mem_singleton.mp hev
    exact .inl ha

def joinEvent (svc : Services) (req : Request) (target : String) : Event :=
  (memberBuilder svc req.userID req.roomID target "" "join").event svc.eventNID
    (domainOf req.userID)

/-- The request asks, with `auto_join`, for a join of the target, in a room that the user may ask to
join, with well-formed identifiers. -/
def AsksAutoJoin (svc : Services) (req : Request) (q : QueryRoomStateResponse) (target : String) :
    Prop :=
  req.membership = "join" ∧ JoinOpen q req.userID ∧
    (∃ body, decodeBody req = .ok body ∧ body.autoJoin = true ∧ target = body.target req.userID) ∧
    checkFields (joinEvent svc req target) (domainOf req.userID) = true

theorem prepare_autoJoin {target : String} (hq : svc.queryRoomState req.roomID = (q, true))
    (h : AsksAutoJoin svc req q target) :
    ∃ raw, prepare svc req = .ok raw ∧ raw.trust = true ∧
      raw.events = [joinEvent svc req target] := by
  obtain ⟨hv, ho, ⟨body, hb, ha, rfl⟩, hf⟩ := h
  have hne : req.membership ≠ "invite" := by rw [hv]; decide
  refine ⟨_, (prepare_eq_ok hq).mpr ⟨body, body, body, joinEvent svc req (body.target req.userID),
    [], hb, checkAndProcessInvite_of_ne hne, (precheck_join hv).mpr ⟨rfl, ho⟩, ?_, ?_, rfl⟩,
    rfl, rfl⟩
  · rw [hv]
    exact buildMembershipEvent_autoJoin ha (getMembershipStateKey_join ha)
      (buildEvent_eq_some.mpr ⟨rfl, hf⟩)
  · rw [autoJoin, if_neg (fun h => hne h.1)]

section
variable {body₀ body₁ : MembershipRequest} {event : Event} (hd : q.isDirect = false)
  (h₀ : decodeBody req = .ok body₀) (h₁ : checkAndProcessInvite svc req body₀ = .ok body₁)
  (hb : precheck svc req q body₁ = .ok body)
  (he : buildMembershipEvent svc q body req.userID req.roomID req.membership svc.eventNID =
    .ok event)
include hd h₀ h₁ hb he

theorem first_authorised : allowed svc.auth event q.authEvents = .ok () ∨
      ∃ target, AsksAutoJoin svc req q target ∧ event = joinEvent svc req target := by
  obtain ⟨key, reason, hkey, hev, hf, hal | ⟨hj, ha⟩⟩ := buildMembershipEvent_eq_ok hd he
  · exact .inl hal
  · rw [eventMembership_eq_join] at hj
    have hne : req.membership ≠ "invite" := by rw [hj]; decide
    obtain rfl : body₀ = body₁ :=
      Except.ok.inj ((checkAndProcessInvite_of_ne hne).symm.trans h₁)
    obtain ⟨rfl, ho⟩ := (precheck_join hj).mp hb
    rw [hj, getMembershipStateKey_join ha] at hkey
    obtain ⟨rfl, rfl⟩ := Prod.mk.inj (Except.ok.inj hkey)
    have hev' : event = joinEvent svc req (body.target req.userID) := by
      rw [hev, hj]
      rfl
    exact .inr ⟨_, ⟨hj, ho, ⟨body, h₀, ha, rfl⟩, hev' ▸ hf⟩, hev'⟩

theorem first_allowed
    (h : ∀ target, AsksAutoJoin svc req q target → MayJoin svc.auth q.authEvents req.roomID
      req.userID target) : allowed svc.auth event q.authEvents = .ok () := by
  rcases first_authorised hd h₀ h₁ hb he with hal | ⟨target, hask, rfl⟩
  · exact hal
  · have hm : IsMember "join" target (joinEvent svc req target) := isMember_memberBuilder
    exact (allowed_join_iff hm.type hm.stateKey hm.content).mpr (h target hask)

end

/-- **The submissions of membership requests are authorised**, in a room that is not direct, if and
only if the request is no join with `auto_join` of a target that the user may not join. -/
theorem submission_authorised_iff (hq : svc.queryRoomState req.roomID = (q, true))
    (hd : q.isDirect = false) :
    (∀ raw, (sendMembership svc req).1 = some raw → raw.trust = true →
        Authorised svc.auth q.authEvents raw.events) ↔
      ∀ target, AsksAutoJoin svc req q target →
        MayJoin svc.auth q.authEvents req.roomID req.userID target := by
  have hsub : ∀ raw, (sendMembership svc req).1 = some raw ↔ prepare svc req = .ok raw := by
    intro raw
    unfold sendMembership
    split <;> simp_all
  simp only [hsub]
  constructor
  · intro h target hask
    obtain ⟨raw, hraw, ht, hev⟩ := prepare_autoJoin hq hask
    have ha := h raw hraw ht
    rw [hev] at ha
    exact (authorised_join_iff isMember_memberBuilder).mp ha
  · intro h raw hraw _
    obtain ⟨body₀, body₁, body, event, joins, h₀, h₁, hb, he, hj, rfl⟩ := (prepare_eq_ok hq).mp hraw
    have hfirst := first_allowed hd h₀ h₁ hb he h
    intro ev hev _
    rcases mem_cons.mp hev with rfl | hev
    · exact .inl hfirst
    · rcases autoJoin_eq_ok hj with rfl | ⟨join, rfl, hi, ha, hjoin⟩
      · cases hev
      · obtain rfl := mem_singleton.mp hev
        rw [hi] at he
        obtain ⟨key, reason, hkey, rfl, -⟩ := buildMembershipEvent_eq_ok hd he
        obtain ⟨key', reason', hkey', rfl, -⟩ := buildMembershipEvent_eq_ok hd hjoin
        obtain rfl := getMembershipStateKey_invite hkey
        rw [getMembershipStateKey_join ha] at hkey'
        obtain ⟨rfl, rfl⟩ := Prod.mk.inj (Except.ok.inj hkey')
        exact .inr
          ⟨_, _, mem_cons_self, isMember_memberBuilder, isMember_memberBuilder, hfirst⟩

end

/-! ## A banned user is joined by another one -/

def publicRoom : QueryRoomStateResponse where
  roomExists := true
  creator := some (event "$1" "@a:x" MRoomCreate "" [("creator", "@a:x")])
  joinRule := some (event "$3" "@a:x" MRoomJoinRules "" [("join_rule", "public")])
  power := none
  join := AList.insert "@a:x" (memberEvent "$2" "@a:x" "@a:x" "join") ∅
  leave := AList.insert "@b:x" (memberEvent "$4" "@a:x" "@b:x" "ban") ∅
  invite := ∅
  thirdInvite := ∅

def services : Services where
  auth := env₀
  trustedIDServers := []
  queryIDServer := fun _ => .failed
  queryRoomState := fun _ => (publicRoom, true)
  makeJoin := fun _ _ _ => none
  sendJoin := fun _ _ => none
  makeLeave := fun _ _ _ => none
  sendLeave := fun _ _ => none
  getProfile := fun _ => ("", "")
  fedNID := 5
  eventNID := 6
  joinNID := 7
  inputRoomEvents := fun _ => none
  respInvite := fun _ => none

def joinRequest (userID : String) : Request where
  userID := "@c:x"
  deviceID := "phone"
  roomID := "!r:x"
  membership := "join"
  content := .json (.obj [("user_id", .string userID), ("auto_join", .bool true)])

theorem submission_authorised_iff_self :
    (sendMembership services (joinRequest "@c:x")).1.isSome = true ∧
      ∀ raw, (sendMembership services (joinRequest "@c:x")).1 = some raw → raw.trust = true →
        Authorised services.auth publicRoom.authEvents raw.events := by
  refine ⟨rfl, (submission_authorised_iff rfl rfl).mpr ?_⟩
  rintro target ⟨-, -, ⟨body, hb, -, rfl⟩, -⟩
  obtain rfl := Except.ok.inj hb
  refine ⟨_, _, _, _, _, rfl, rfl, rfl, rfl, rfl, rfl, rfl, rfl, .inr (.inr ⟨rfl, .inr (.inr ?_)⟩)⟩
  exact ⟨rfl, by decide⟩

/-- **A join of a banned user**, sent by someone who is not in the room. -/
theorem join_of_banned_submitted :
    services.queryRoomState "!r:x" = (publicRoom, true) ∧ publicRoom.isDirect = false ∧
      ∃ raw, (sendMembership services (joinRequest "@b:x")).1 = some raw ∧ raw.trust = true ∧
        ¬ Authorised services.auth publicRoom.authEvents raw.events := by
  refine ⟨rfl, rfl, _, rfl, rfl, ?_⟩
  have hj : IsMember "join" "@b:x" (joinEvent services (joinRequest "@b:x") "@b:x") :=
    isMember_memberBuilder
  intro h
  rcases h _ (mem_singleton_self (joinEvent services (joinRequest "@b:x") "@b:x")) rfl with
    ha | ⟨_, inv, hinv, -, hi, -⟩
  · cases ha
  · obtain rfl := mem_singleton.mp hinv
    have hc := hi.content.symm.trans hj.content
    simp at hc

end Ligase.Client

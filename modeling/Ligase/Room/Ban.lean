import Ligase.Room.State

/-!
# Bans

A room takes events one after another; each is checked against the state and then entered. A banned
user stands in the leave map with a ban.

* **`ban_persists`**: once banned, a user is not in the join map until the ban is lifted.
-/

namespace Ligase.Room

open Lib Auth RoomServerState Option

/-! ## Taking events -/

section
variable (env : Env) (localDomains : List String) (recover : Bool)

def step (rs : RoomServerState) (ev : Event) : Option RoomServerState :=
  match allowed env ev rs.authEvents with
  | .ok () => rs.onEvent localDomains recover ev
  | .error _ => none

/-- **The events that end a ban of `user`**, as far as the rules want them to: a leave or kick by
another user with the ban level, the user's own forgetting of the room, a join sent by the creator,
an invite of oneself in an organisation or group room, an invite with a third-party signature. A
further ban is counted with them. -/
def lifts (user : String) (rs : RoomServerState) (ev : Event) : Bool :=
  rs.applies localDomains ev && ev.type = MRoomMember && ev.stateKey = some user &&
    match newCreateContentFromAuthEvents rs.authEvents, newMemberContentFromEvent ev with
    | .ok create, .ok c =>
      match c.membership with
      | "leave" | "kick" =>
        ev.sender ≠ user &&
          match newPowerLevelContentFromAuthEvents rs.authEvents create.creator with
          | .ok pl => pl.banLevel ≤ pl.userLevel ev.sender
          | .error _ => false
      | "forget" => ev.sender = user
      | "join" => ev.sender = create.creator
      | "invite" => c.thirdPartyInvite.isSome ||
          (ev.sender = user && (create.isOrganizationRoom || create.isGroupRoom))
      | "ban" => true
      | _ => false
    | _, _ => false

variable {env localDomains recover} {rs rs' : RoomServerState} {ev : Event} {user : String}

theorem step_eq_some (h : step env localDomains recover rs ev = some rs') :
    allowed env ev rs.authEvents = .ok () ∧ rs.onEvent localDomains recover ev = some rs' := by
  unfold step at h
  split at h
  · exact ⟨‹_›, h⟩
  · cases h

/-! ## The creation of the room -/

def CreatedByOther (user : String) (rs : RoomServerState) : Prop :=
  (∃ ev, rs.creator = some ev) ∧
    ∀ c, newCreateContentFromAuthEvents rs.authEvents = .ok c → c.creator ≠ user

theorem creator_onEventUpdate {stateKey : String} (ht : ev.type ≠ MRoomCreate) :
    (rs.onEventUpdate ev stateKey).creator = rs.creator := by
  unfold onEventUpdate
  split
  case h_1 h => exact absurd h ht
  case h_2 =>
    obtain ⟨_, _, _, _, _, h⟩ := rs.onMemberEv_frame ev stateKey
    rw [h]
  all_goals rfl

theorem creator_step {create : Event} (hc : rs.creator = some create)
    (h : step env localDomains recover rs ev = some rs') : rs'.creator = some create := by
  obtain ⟨hal, hon⟩ := step_eq_some h
  have ht : ev.type ≠ MRoomCreate := by
    intro ht
    rw [allowed, if_pos ht, createEventAllowed, authEvents, hc] at hal
    cases hal
  rcases onEvent_eq_some hon with ⟨-, ext, rfl⟩ | ⟨-, ext, rfl⟩
  · exact hc
  · rw [creator_onEventUpdate ht]
    exact hc

theorem CreatedByOther.step (hc : CreatedByOther user rs)
    (h : step env localDomains recover rs ev = some rs') : CreatedByOther user rs' := by
  obtain ⟨⟨create, hcreate⟩, hne⟩ := hc
  have hcreate' := creator_step hcreate h
  refine ⟨⟨create, hcreate'⟩, fun c hc => hne c ?_⟩
  simp only [authEvents, hcreate, hcreate'] at hc ⊢
  exact hc

/-! ## Banned users -/

/-- The user stands in the leave map with a ban, and in no map that is read before it. -/
structure Banned (user : String) (rs : RoomServerState) : Prop where
  join : rs.join user = none
  leave : ∃ ev c, rs.leave user = some ev ∧ newMemberContentFromEvent ev = .ok c ∧
    c.membership = "ban"

section
variable (hb : Banned user rs)
include hb

theorem Banned.oldMember :
    ∃ c, newMemberContentFromAuthEvents rs.authEvents user = .ok c ∧ c.membership = "ban" := by
  obtain ⟨ev, c, hl, hc, hm⟩ := hb.leave
  refine ⟨c, ?_, hm⟩
  simp only [newMemberContentFromAuthEvents, authEvents, member, hb.join, hl, none_or,
    some_or]
  exact hc

theorem Banned.of_same (h : SameMember rs rs' user) : Banned user rs' :=
  ⟨h.join.trans hb.join, by rw [h.leave]; exact hb.leave⟩

theorem lifts_of_allowed (hc : CreatedByOther user rs) (hal : allowed env ev rs.authEvents = .ok ())
    (happ : rs.applies localDomains ev = true) (ht : ev.type = MRoomMember)
    (hk : ev.stateKey = some user) : lifts localDomains user rs ev = true := by
  obtain ⟨m, hm, -, -, -, hrule⟩ := (allowed_member_iff ht).mp hal
  obtain ⟨hkey, hsnd, hcreate, ⟨c, hnew, hun⟩, hold, -, hpl, -⟩ := newMembershipAllower_eq_ok hm
  obtain rfl : user = m.targetID := some.inj (hk.symm.trans hkey)
  obtain ⟨old, hold', hban⟩ := hb.oldMember
  obtain rfl := Except.ok.inj (hold'.symm.trans hold)
  -- a kick and a leave are one to the check
  have hunk : c.membership = "kick" ∧ m.newMember.membership = "leave" ∨ m.newMember = c := by
    rw [hun, unkick]
    split_ifs with hk
    · exact .inl ⟨hk, rfl⟩
    · exact .inr rfl
  have hrules := ruleAllowed_banned hban (hc.2 _ hcreate).symm hrule
  rw [hsnd] at hrules
  unfold lifts
  rw [happ, hcreate, hnew]
  simp only [ht, hk, hpl, decide_true, Bool.and_true, Bool.true_and]
  rcases hunk with ⟨hkick, hleave⟩ | rfl
  · simp only [hleave, String.reduceEq, false_and, true_and, false_or, or_false] at hrules
    simp [hkick, hrules]
  · rcases hrules with ⟨h, -⟩ | ⟨h, hne, hlev⟩ | ⟨h, he⟩ | ⟨h, he⟩ | ⟨h, he, ho⟩ | ⟨h, hne⟩
    · simp [h]
    · simp [h, hne, hlev]
    · simp [h, he]
    · simp [h, he]
    · have ho' : m.create.isOrganizationRoom = true ∨ m.create.isGroupRoom = true := by
        simpa using ho
      simp [h, he, ho']
    · rw [h]
      simp [isSome_iff_ne_none.mpr hne]

theorem Banned.step (hc : CreatedByOther user rs) (hl : lifts localDomains user rs ev = false)
    (h : step env localDomains recover rs ev = some rs') : Banned user rs' := by
  obtain ⟨hal, hon⟩ := step_eq_some h
  rcases onEvent_eq_some hon with ⟨-, ext, rfl⟩ | ⟨happ, ext, rfl⟩
  · exact hb.of_same ⟨rfl, rfl, rfl⟩
  · have hb' : Banned user { rs with ext := ext } := ⟨hb.join, hb.leave⟩
    refine hb'.of_same (sameMember_onEventUpdate ?_)
    rintro ⟨ht, hk⟩
    have hkey : ev.stateKey = some user := by
      obtain ⟨m, hm, -⟩ := (allowed_member_iff ht).mp hal
      have hkey := (newMembershipAllower_eq_ok hm).1
      rw [hkey] at hk ⊢
      exact congrArg some hk
    rw [lifts_of_allowed hb hc hal happ ht hkey] at hl
    cases hl

end

structure IsBan (user : String) (ev : Event) : Prop where
  type : ev.type = MRoomMember
  stateKey : ev.stateKey = some user
  checked : ∃ c, newMemberContentFromEvent ev = .ok c ∧ c.membership = "ban"
  entered : membershipOf ev.content = "ban"

theorem banned_of_step (hban : IsBan user ev) (happ : rs.applies localDomains ev = true)
    (hleave : rs.leave user = none) (h : step env localDomains recover rs ev = some rs') :
    Banned user rs' := by
  obtain ⟨hal, hon⟩ := step_eq_some h
  obtain ⟨m, hm, -, -, htarget, -⟩ := (allowed_member_iff hban.type).mp hal
  obtain rfl : user = m.targetID :=
    some.inj (hban.stateKey.symm.trans (newMembershipAllower_eq_ok hm).1)
  obtain ⟨p, hcut⟩ := cut_of_userIDAllowed htarget
  obtain ⟨c, hc, hcm⟩ := hban.checked
  rcases onEvent_eq_some hon with ⟨hnot, -⟩ | ⟨-, ext, rfl⟩
  · rw [happ] at hnot
    cases hnot
  · have hleave' : { rs with ext := ext }.leave m.targetID = none := hleave
    have hmaps := onMemberEv_ban hcut hban.entered hleave'
    simp only [onEventUpdate, hban.type, MRoomMember, hban.stateKey, getD_some]
    exact ⟨hmaps.1, ev, c, hmaps.2, hc, hcm⟩

/-- **A ban lasts until it is lifted.** A user who is not the creator and was not in the leave map
is banned; then, in every run whose events do not lift the ban, the user is not in the join map. -/
theorem ban_persists {rs₁ rs₂ : RoomServerState} {evs : List Event}
    (hcr : ∀ c, newCreateContentFromAuthEvents rs.authEvents = .ok c → c.creator ≠ user)
    (hban : IsBan user ev) (happ : rs.applies localDomains ev = true)
    (hleave : rs.leave user = none) (h₁ : step env localDomains recover rs ev = some rs₁)
    (hm : RunMeets (step env localDomains recover)
      (fun rs ev => lifts localDomains user rs ev = false) rs₁ evs)
    (h₂ : run (step env localDomains recover) rs₁ evs = some rs₂) : rs₂.join user = none := by
  have hc : CreatedByOther user rs := by
    obtain ⟨m, hm, -⟩ := (allowed_member_iff hban.type).mp (step_eq_some h₁).1
    have hcreate := (newMembershipAllower_eq_ok hm).2.2.1
    refine ⟨?_, hcr⟩
    cases he : rs.creator with
    | none =>
      simp only [authEvents, he] at hcreate
      cases hcreate
    | some create => exact ⟨create, rfl⟩
  have hb := run_invariant (I := fun rs => Banned user rs ∧ CreatedByOther user rs) (fun hs hl hst
    => ⟨hs.1.step hs.2 hl hst, hs.2.step hst⟩) ⟨banned_of_step hban happ hleave h₁, hc.step h₁⟩ hm
    h₂
  exact hb.1.join

end

/-! ## Concrete rooms -/

def env₀ : Env := ⟨fun _ => false, ["x"], some, fun _ _ _ _ => false⟩

def event (id sender type stateKey : String) (content : List (String × String)) : Event :=
  ⟨id, "!r:x", sender, type, some stateKey, .obj (content.map fun p => (p.1, .string p.2)), 0,
    "", ""⟩

def memberEvent (id sender target membership : String) : Event :=
  event id sender MRoomMember target [("membership", membership)]

def aliceRoom : List Event :=
  [event "$1" "@a:x" MRoomCreate "" [("creator", "@a:x")], memberEvent "$2" "@a:x" "@a:x" "join"]

/-- The room after its first events, after a ban of Bob, and after an invite of Carol. -/
def room₀ : RoomServerState := (run (step env₀ ["x"] false) init aliceRoom).getD init
def room₁ : RoomServerState :=
  (step env₀ ["x"] false room₀ (memberEvent "$3" "@a:x" "@b:x" "ban")).getD init
def room₂ : RoomServerState :=
  (run (step env₀ ["x"] false) room₁ [memberEvent "$4" "@a:x" "@c:x" "invite"]).getD init

theorem ban_persists_bob : run (step env₀ ["x"] false) init aliceRoom = some room₀ ∧
    step env₀ ["x"] false room₀ (memberEvent "$3" "@a:x" "@b:x" "ban") = some room₁ ∧
    run (step env₀ ["x"] false) room₁ [memberEvent "$4" "@a:x" "@c:x" "invite"] = some room₂ ∧
    room₂.join "@b:x" = none := by
  have h₁ : step env₀ ["x"] false room₀ (memberEvent "$3" "@a:x" "@b:x" "ban") = some room₁ := rfl
  have h₂ : run (step env₀ ["x"] false) room₁ [memberEvent "$4" "@a:x" "@c:x" "invite"] =
      some room₂ := rfl
  have hm : RunMeets (step env₀ ["x"] false) (fun rs ev => lifts ["x"] "@b:x" rs ev = false) room₁
      [memberEvent "$4" "@a:x" "@c:x" "invite"] := ⟨rfl, trivial⟩
  refine ⟨rfl, h₁, h₂, ban_persists ?_ ⟨rfl, rfl, ⟨_, rfl, rfl⟩, rfl⟩ rfl rfl h₁ hm h₂⟩
  rintro c ⟨⟩
  decide

/-- **Two ways out of a ban that are no unban**: a join sent by the creator, and a second ban, which
takes the first one out of the leave map. -/
theorem ban_lost :
    (∃ rs, run (step env₀ ["x"] false) init (aliceRoom ++
        [memberEvent "$3" "@a:x" "@b:x" "ban", memberEvent "$4" "@a:x" "@b:x" "join"]) = some rs ∧
      (rs.join "@b:x").isSome = true) ∧
    ∃ rs, run (step env₀ ["x"] false) init (aliceRoom ++
        [event "$3" "@a:x" MRoomJoinRules "" [("join_rule", "public")],
          memberEvent "$4" "@a:x" "@b:x" "ban", memberEvent "$5" "@a:x" "@b:x" "ban",
          memberEvent "$6" "@b:x" "@b:x" "join"]) = some rs ∧
      (rs.join "@b:x").isSome = true := by
  refine ⟨⟨_, rfl, ?_⟩, _, rfl, ?_⟩ <;> rfl

end Ligase.Room

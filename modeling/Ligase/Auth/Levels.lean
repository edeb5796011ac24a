import Ligase.Auth.Allowed

/-!
# Changes of power levels

A power-levels event is compared with the one it replaces: the levels with a name of their own, then
those of the event types and of the users that one of the two lists.

* **`powerLevels_not_escalated`**: an accepted change stays within the level of its sender.
-/

namespace Ligase.Auth

open Lib List PowerLevelContent

variable {old new : PowerLevelContent} {senderLevel : Int} {senderID : String}

/-! ## Event levels -/

def MayChangeLevel (senderLevel old new : Int) : Prop :=
  old ≠ new → new ≤ senderLevel ∧ old ≤ senderLevel

theorem checkEventLevels_eq_ok : checkEventLevels senderLevel old new = .ok () ↔
    ∀ p ∈ eventLevelChecks old new, MayChangeLevel senderLevel p.1 p.2 := by
  unfold checkEventLevels
  rw [forM_eq_ok]
  refine forall₂_congr fun ⟨old, new⟩ _ => ?_
  dsimp only
  by_cases he : old = new
  · rw [if_pos he]
    exact ⟨fun _ h => absurd he h, fun _ => rfl⟩
  rw [if_neg he]
  by_cases hn : senderLevel < new
  · rw [if_pos hn]
    exact ⟨nofun, fun h => absurd (h he).1 (by omega)⟩
  rw [if_neg hn]
  by_cases ho : senderLevel < old
  · rw [if_pos ho]
    exact ⟨nofun, fun h => absurd (h he).2 (by omega)⟩
  rw [if_neg ho]
  exact ⟨fun _ _ => ⟨by omega, by omega⟩, fun _ => rfl⟩

def namedLevels : List (PowerLevelContent → Int) :=
  [PowerLevelContent.banLevel, PowerLevelContent.inviteLevel, PowerLevelContent.kickLevel,
    PowerLevelContent.redactLevel, PowerLevelContent.stateDefaultLevel,
    PowerLevelContent.eventDefaultLevel]

theorem mayChange_named (h : ∀ p ∈ eventLevelChecks old new, MayChangeLevel senderLevel p.1 p.2) :
    ∀ level ∈ namedLevels, MayChangeLevel senderLevel (level old) (level new) := by
  intro level hl
  have hmem : (level old, level new) ∈ namedLevels.map fun level => (level old, level new) :=
    mem_map_of_mem hl
  exact h _ (mem_append_left _ hmem)

theorem eventLevel_of_not_listed {c : PowerLevelContent} {eventType : String}
    (h : ∀ p ∈ c.eventLevels, eventType ≠ p.1) (isState : Bool) : c.eventLevel eventType isState =
      if eventType = MRoomThirdPartyInvite then c.inviteLevel
      else if isState then c.stateDefaultLevel else c.eventDefaultLevel := by
  have hl : c.eventLevels.lookup eventType = none := by simpa [lookup_eq_none_iff] using h
  simp only [eventLevel, hl]

theorem mayChange_eventLevel
    (h : ∀ p ∈ eventLevelChecks old new, MayChangeLevel senderLevel p.1 p.2) (eventType : String) :
    MayChangeLevel senderLevel (old.eventLevel eventType false)
      (new.eventLevel eventType false) := by
  by_cases hl : ∃ p ∈ new.eventLevels ++ old.eventLevels, eventType = p.1
  · obtain ⟨p, hp, rfl⟩ := hl
    exact h _ (mem_append_right _ (mem_map.mpr ⟨p, hp, rfl⟩))
  · push Not at hl
    rw [eventLevel_of_not_listed fun p hp => hl p (mem_append_right _ hp),
      eventLevel_of_not_listed fun p hp => hl p (mem_append_left _ hp)]
    simp only [Bool.false_eq_true, if_false]
    split_ifs
    · exact mayChange_named h inviteLevel (by simp [namedLevels])
    · exact mayChange_named h eventDefaultLevel (by simp [namedLevels])

theorem eventLevel_state (c : PowerLevelContent) (eventType : String) :
    c.eventLevel eventType true = c.eventLevel eventType false ∨
      c.eventLevel eventType true = c.stateDefaultLevel := by
  unfold eventLevel
  by_cases ht : eventType = MRoomThirdPartyInvite
  · left
    simp only [if_pos ht]
  · simp only [if_neg ht]
    cases c.eventLevels.lookup eventType with
    | some level => exact .inl rfl
    | none => exact .inr rfl

/-! ## User levels -/

/-- The level of a user may change to one that the sender has; another user's only if it was below
the sender's, or if the new content says that there is one member only. -/
def MayChangeUser (senderLevel : Int) (senderID : String) (onlyOneMember : Bool) (old new : Int)
    (userID : String) : Prop :=
  old ≠ new → new ≤ senderLevel ∧
    (userID = senderID ∨ onlyOneMember = true ∨ old < senderLevel)

theorem checkUserLevels_eq_ok {content : PowerLevelContent} :
    checkUserLevels senderLevel senderID old content = .ok () ↔ ∀ p ∈ userLevelChecks old content,
        MayChangeUser senderLevel senderID content.onlyOneMember p.1 p.2.1 p.2.2 := by
  unfold checkUserLevels
  rw [forM_eq_ok]
  refine forall₂_congr fun ⟨old, new, userID⟩ _ => ?_
  dsimp only
  by_cases he : old = new
  · rw [if_pos he]
    exact ⟨fun _ h => absurd he h, fun _ => rfl⟩
  rw [if_neg he]
  by_cases hn : senderLevel < new
  · rw [if_pos hn]
    exact ⟨nofun, fun h => absurd (h he).1 (by omega)⟩
  rw [if_neg hn]
  by_cases hs : userID = senderID
  · rw [if_pos hs]
    exact ⟨fun _ _ => ⟨by omega, .inl hs⟩, fun _ => rfl⟩
  rw [if_neg hs]
  by_cases hone : content.onlyOneMember = true
  · rw [if_pos hone]
    exact ⟨fun _ _ => ⟨by omega, .inr (.inl hone)⟩, fun _ => rfl⟩
  rw [if_neg hone]
  by_cases ho : senderLevel ≤ old
  · rw [if_pos ho]
    refine ⟨nofun, fun h => absurd ((h he).2.resolve_left hs |>.resolve_left hone) (by omega)⟩
  rw [if_neg ho]
  exact ⟨fun _ _ => ⟨by omega, .inr (.inr (by omega))⟩, fun _ => rfl⟩

theorem userLevel_of_not_listed {c : PowerLevelContent} {userID : String}
    (h : ∀ p ∈ c.userLevels, userID ≠ p.1) : c.userLevel userID = c.userDefaultLevel := by
  have hl : c.userLevels.lookup userID = none := by simpa [lookup_eq_none_iff] using h
  rw [userLevel, hl]
  rfl

theorem mayChange_userLevel (hsender : senderID ≠ "") (h : ∀ p ∈ userLevelChecks old new,
      MayChangeUser senderLevel senderID new.onlyOneMember p.1 p.2.1 p.2.2) (userID : String) :
    MayChangeUser senderLevel senderID new.onlyOneMember (old.userLevel userID)
      (new.userLevel userID) userID := by
  by_cases hl : ∃ p ∈ new.userLevels ++ old.userLevels, userID = p.1
  · obtain ⟨p, hp, rfl⟩ := hl
    exact h _ (mem_cons_of_mem _ (mem_map.mpr ⟨p, hp, rfl⟩))
  · push Not at hl
    rw [userLevel_of_not_listed fun p hp => hl p (mem_append_right _ hp),
      userLevel_of_not_listed fun p hp => hl p (mem_append_left _ hp)]
    have hdefault := h (old.userDefaultLevel, new.userDefaultLevel, "") mem_cons_self
    intro hne
    obtain ⟨hle, hother⟩ := hdefault hne
    exact ⟨hle, .inr (hother.resolve_left fun e => hsender e.symm)⟩

/-! ## Accepted changes -/

/-- **The change stays within the level of its sender.** Every level that changes is one that the
sender has; the level for the state events of a type is that, or an old one. Other users at the
sender's level or above it keep theirs, unless the new content says that there is one member only.
-/
structure WithinLevel (senderID : String) (old new : PowerLevelContent) : Prop where
  named : ∀ level ∈ namedLevels,
    MayChangeLevel (old.userLevel senderID) (level old) (level new)
  events : ∀ eventType, MayChangeLevel (old.userLevel senderID) (old.eventLevel eventType false)
    (new.eventLevel eventType false)
  stateEvents : ∀ eventType, new.eventLevel eventType true ≤ old.userLevel senderID ∨
    new.eventLevel eventType true ∈ [old.eventLevel eventType false, old.stateDefaultLevel]
  userDefault : old.userDefaultLevel ≠ new.userDefaultLevel →
    new.userDefaultLevel ≤ old.userLevel senderID
  users : ∀ userID, old.userLevel userID ≠ new.userLevel userID →
    new.userLevel userID ≤ old.userLevel senderID
  others : new.onlyOneMember = false → ∀ userID ≠ senderID,
    old.userLevel senderID ≤ old.userLevel userID → new.userLevel userID = old.userLevel userID

theorem MayChangeLevel.le_or_eq {old new : Int} (h : MayChangeLevel senderLevel old new) :
    new ≤ senderLevel ∨ new = old := by
  by_cases he : old = new
  · exact .inr he.symm
  · exact .inl (h he).1

theorem withinLevel_of_checks (hsender : senderID ≠ "")
    (hev : checkEventLevels (old.userLevel senderID) old new = .ok ())
    (hus : checkUserLevels (old.userLevel senderID) senderID old new = .ok ()) :
    WithinLevel senderID old new := by
  rw [checkEventLevels_eq_ok] at hev
  rw [checkUserLevels_eq_ok] at hus
  have husers := mayChange_userLevel hsender hus
  refine ⟨mayChange_named hev, mayChange_eventLevel hev, fun eventType => ?_, fun hne => ?_,
    fun userID hne => (husers userID hne).1, fun hone userID hu hle => ?_⟩
  · rcases eventLevel_state new eventType with h | h
    · rw [h]
      rcases (mayChange_eventLevel hev eventType).le_or_eq with h' | h'
      · exact .inl h'
      · exact .inr (by simp [h'])
    · rw [h]
      rcases (mayChange_named hev stateDefaultLevel (by simp [namedLevels])).le_or_eq with h' | h'
      · exact .inl h'
      · exact .inr (by simp [h'])
  · exact (hus (_, _, "") mem_cons_self hne).1
  · by_contra hne
    rcases (husers userID fun e => hne e.symm).2 with h | h | h
    · exact hu h
    · rw [hone] at h
      cases h
    · omega

variable {env : Env} {event power : Event} {authEvents : AuthEvents}

theorem sender_ne_of_commonChecks {e : EventAllower} (h : e.commonChecks env event = .ok ()) :
    event.sender ≠ "" := by
  unfold EventAllower.commonChecks at h
  by_cases hroom : event.roomID ≠ e.create.roomID
  · rw [if_pos hroom] at h
    cases h
  · rw [if_neg hroom] at h
    obtain ⟨_, hu, -⟩ := bind_eq_ok.mp h
    obtain ⟨p, hp⟩ := cut_of_userIDAllowed hu
    intro he
    rw [he] at hp
    cases hp

section
variable (hp : authEvents.powerLevels = some power)
  (h : powerLevelsEventAllowed env event authEvents = .ok ())
include hp h

theorem powerLevelsEventAllowed_eq_ok :
    ∃ old new, newPowerLevelContentFromEvent power = .ok old ∧
      newPowerLevelContentFromEvent event = .ok new ∧ event.sender ≠ "" ∧
      checkEventLevels (old.userLevel event.sender) old new = .ok () ∧
      checkUserLevels (old.userLevel event.sender) event.sender old new = .ok () := by
  unfold powerLevelsEventAllowed newEventAllower at h
  simp only [hp, newPowerLevelContentFromAuthEvents, bind_eq_ok] at h
  obtain ⟨allower, ⟨create, hcr, member, hmem, old, hold, hal⟩, _, hcommon, new, hnew, _, -, h⟩ := h
  obtain rfl := Except.ok.inj hal
  obtain ⟨_, hev, hus⟩ := bind_eq_ok.mp h
  exact ⟨old, new, hold, hnew, sender_ne_of_commonChecks hcommon, hev, hus⟩

/-- **Power levels are not escalated.** An accepted event that replaces the levels of the room stays
within the level that its sender had. -/
theorem powerLevels_not_escalated :
    ∃ old new, newPowerLevelContentFromEvent power = .ok old ∧
      newPowerLevelContentFromEvent event = .ok new ∧ WithinLevel event.sender old new := by
  obtain ⟨old, new, hold, hnew, hsender, hev, hus⟩ := powerLevelsEventAllowed_eq_ok hp h
  exact ⟨old, new, hold, hnew, withinLevel_of_checks hsender hev hus⟩

end

/-! ## Concrete changes -/

def levelsEnv : Env := ⟨fun _ => false, ["x"], some, fun _ _ _ _ => false⟩

def fromAlice (id type stateKey : String) (content : List (String × Json)) : Event :=
  ⟨id, "!r:x", "@a:x", type, some stateKey, .obj content, 0, "", ""⟩

def levelsContent (alice bob : Int) (others : List (String × Json)) : List (String × Json) :=
  ("users", .obj [("@a:x", .num (some alice) none), ("@b:x", .num (some bob) none)]) :: others

def levelsState (power : Option Event) : AuthEvents where
  create := some (fromAlice "$1" MRoomCreate "" [("creator", .string "@a:x")])
  joinRules := none
  powerLevels := power
  member user := if user = "@a:x" then
    some (fromAlice "$2" MRoomMember "@a:x" [("membership", .string "join")]) else none
  thirdPartyInvite _ := none

def powerEvent (bob : Int) (others : List (String × Json)) : Event :=
  fromAlice "$3" MRoomPowerLevels "" (levelsContent 50 bob others)

def levelsOf (event : Event) : PowerLevelContent :=
  match newPowerLevelContentFromEvent event with
  | .ok c => c
  | .error _ => .defaults

theorem powerLevels_not_escalated_ban : ∃ old new,
    newPowerLevelContentFromEvent (powerEvent 0 []) = .ok old ∧
      newPowerLevelContentFromEvent (powerEvent 50 [("ban", .num (some 20) none)]) = .ok new ∧
      WithinLevel "@a:x" old new := by
  have hp : (levelsState (some (powerEvent 0 []))).powerLevels = some (powerEvent 0 []) := rfl
  have h : powerLevelsEventAllowed levelsEnv (powerEvent 50 [("ban", .num (some 20) none)])
      (levelsState (some (powerEvent 0 []))) = .ok () := rfl
  exact powerLevels_not_escalated hp h

/-- The first power-levels event of a room may set any level, and a content that says
`only_one_member` may take away the level of a user who has more than its sender. -/
theorem powerLevels_exempt :
    (powerLevelsEventAllowed levelsEnv (powerEvent 1000 []) (levelsState none) = .ok () ∧
      (newPowerLevelContentFromAuthEvents (levelsState none) "@a:x").map (·.userLevel "@a:x") =
        .ok 100 ∧
      (levelsOf (powerEvent 1000 [])).userLevel "@b:x" = 1000) ∧
    (powerLevelsEventAllowed levelsEnv (powerEvent 0 [("only_one_member", .bool true)])
        (levelsState (some (powerEvent 100 []))) = .ok () ∧
      (levelsOf (powerEvent 100 [])).userLevel "@a:x" = 50 ∧
      (levelsOf (powerEvent 100 [])).userLevel "@b:x" = 100 ∧
      (levelsOf (powerEvent 0 [("only_one_member", .bool true)])).userLevel "@b:x" = 0) ∧
    powerLevelsEventAllowed levelsEnv (powerEvent 0 []) (levelsState (some (powerEvent 100 []))) ≠
      .ok () := by
  refine ⟨⟨rfl, rfl, rfl⟩, ⟨rfl, rfl, rfl, rfl⟩, ?_⟩
  decide

end Ligase.Auth

import Ligase.Room.Ban

/-!
# The membership maps

A member event enters its target in the map of its membership and takes them out of the map they
were in. Leaves and bans share a map.

* **`member_entered_iff`**: when the target is in the map of the membership alone.
-/

namespace Ligase.Room

open Lib Auth RoomServerState Option

/-! ## Maps -/

inductive MemberMap where
  | join
  | leave
  | invite
  deriving DecidableEq

def mapOf (membership : String) : Option MemberMap :=
  if membership = "join" then some .join
  else if membership = "invite" then some .invite
  else if membership = "leave" ∨ membership = "ban" then some .leave
  else none

namespace RoomServerState

def map (rs : RoomServerState) : MemberMap → String → Option Event
  | .join => rs.join
  | .leave => rs.leave
  | .invite => rs.invite

/-- No user is in two maps, and those in a map have a domain. -/
structure Mapped (rs : RoomServerState) : Prop where
  one : ∀ user m m', (rs.map m user).isSome = true → (rs.map m' user).isSome = true → m = m'
  domain : ∀ user m, (rs.map m user).isSome = true → ∃ p, cut ':' user = some p

/-- The target is in the map of the membership, with this event, and in no other map; nobody else is
touched; and authorisation finds this event. -/
structure Entered (rs rs' : RoomServerState) (ev : Event) (user : String) : Prop where
  target : ∃ m, mapOf (membershipOf ev.content) = some m ∧ rs'.map m user = some ev ∧
    ∀ m' ≠ m, rs'.map m' user = none
  others : ∀ user' ≠ user, SameMember rs rs' user'
  member : rs'.authEvents.member user = some ev

variable {rs rs' : RoomServerState} {localDomains : List String} {recover : Bool} {ev : Event}
  {user : String}

theorem SameMember.map (h : SameMember rs rs' user) (m : MemberMap) :
    rs'.map m user = rs.map m user := by
  cases m with
  | join => exact h.join
  | leave => exact h.leave
  | invite => exact h.invite

theorem member_eq_of_map {m : MemberMap} (hm : rs.map m user = some ev)
    (hne : ∀ m' ≠ m, rs.map m' user = none) : rs.authEvents.member user = some ev := by
  have hj : m ≠ .join → rs.join user = none := fun h => hne .join h.symm
  have hl : m ≠ .leave → rs.leave user = none := fun h => hne .leave h.symm
  show rs.member user = some ev
  unfold member
  cases m with
  | join =>
    rw [show rs.join user = some ev from hm]
    rfl
  | leave =>
    rw [hj (by decide), show rs.leave user = some ev from hm]
    rfl
  | invite =>
    rw [hj (by decide), hl (by decide), show rs.invite user = some ev from hm]
    rfl

/-! ## One member event -/

theorem map_storeMember (membership : String) (m : MemberMap) :
    (rs.storeMember ev user membership).map m user =
      if mapOf membership = some m then some ev else rs.map m user := by
  unfold storeMember mapOf
  split_ifs <;> cases m <;> simp_all [map]

theorem map_dropMember (membership pre : String) (hpre : pre ≠ "ban") (m : MemberMap) :
    (rs.dropMember user membership pre).map m user =
      if membership ≠ pre ∧ mapOf pre = some m then none else rs.map m user := by
  unfold dropMember mapOf
  split_ifs <;> cases m <;> simp_all [map]

theorem preMembership_spec (rs : RoomServerState) (user : String) : rs.preMembership user ≠ "ban" ∧
      (∀ m, mapOf (rs.preMembership user) = some m → (rs.map m user).isSome = true) ∧
      (mapOf (rs.preMembership user) = none → ∀ m, rs.map m user = none) := by
  unfold preMembership
  split_ifs with hj hl hi
  · exact ⟨by decide, fun m h => by cases h; exact hj, nofun⟩
  · exact ⟨by decide, fun m h => by cases h; exact hl, nofun⟩
  · exact ⟨by decide, fun m h => by cases h; exact hi, nofun⟩
  · refine ⟨by decide, nofun, fun _ m => ?_⟩
    rw [not_isSome_iff_eq_none] at hj hl hi
    cases m with
    | join => exact hj
    | leave => exact hl
    | invite => exact hi

theorem mapOf_eq_some {membership pre : String} {m : MemberMap} (hpre : mapOf pre = some m)
    (hban : pre ≠ "ban") (h : mapOf membership = some m) :
    membership = pre ∨ (membership = "ban" ∧ m = .leave) := by
  unfold mapOf at hpre h
  cases m with
  | join | leave | invite => split_ifs at hpre h <;> simp_all

theorem mapOf_ban : mapOf "ban" = some .leave := rfl

theorem Mapped.map_eq_none (hmap : rs.Mapped) {m : MemberMap}
    (hm : mapOf (rs.preMembership user) ≠ some m) : rs.map m user = none := by
  obtain ⟨-, hsome, hnone⟩ := rs.preMembership_spec user
  cases hp : mapOf (rs.preMembership user) with
  | none => exact hnone hp m
  | some m' =>
    rw [← not_isSome_iff_eq_none]
    intro h
    exact hm (hp.trans (congrArg some (hmap.one user m' m (hsome m' hp) h)))

section
variable (hmap : rs.Mapped)
include hmap

/-- **Where the target is after a member event**: in the map of the membership, unless a ban finds
them in the leave map and removes them. -/
theorem map_onMemberEv {p : String × String} (hcut : cut ':' user = some p) (m : MemberMap) :
    (rs.onMemberEv ev user).map m user =
      if mapOf (membershipOf ev.content) = some m ∧
          ¬ (membershipOf ev.content = "ban" ∧ (rs.leave user).isSome = true)
      then some ev else none := by
  obtain ⟨hnb, hsome, -⟩ := rs.preMembership_spec user
  have hev : (rs.onMemberEv ev user).map m user =
      ((rs.storeMember ev user (membershipOf ev.content)).dropMember user
        (membershipOf ev.content) (rs.preMembership user)).map m user := by
    simp only [onMemberEv, hcut]
    cases m <;> rfl
  rw [hev, map_dropMember _ _ hnb, map_storeMember]
  by_cases hp : mapOf (rs.preMembership user) = some m
  · by_cases he : membershipOf ev.content = rs.preMembership user
    · simp [he, hnb, hp]
    · rw [if_pos ⟨he, hp⟩, if_neg]
      rintro ⟨hm, hno⟩
      rcases mapOf_eq_some hp hnb hm with h | ⟨hban, rfl⟩
      · exact he h
      · exact hno ⟨hban, hsome _ hp⟩
  · have hnone := hmap.map_eq_none hp
    rw [if_neg fun h => hp h.2, hnone]
    by_cases hm : mapOf (membershipOf ev.content) = some m
    · rw [if_pos hm, if_pos]
      refine ⟨hm, ?_⟩
      rintro ⟨hban, hl⟩
      rw [hban, mapOf_ban, some.injEq] at hm
      subst hm
      rw [show rs.leave user = none from hnone] at hl
      cases hl
    · rw [if_neg hm, if_neg fun h => hm h.1]

/-! ## Runs -/

theorem Mapped.of_same (h : ∀ user, SameMember rs rs' user) : rs'.Mapped where
  one user m m' hm hm' := by
    rw [(h user).map] at hm hm'
    exact hmap.one user m m' hm hm'
  domain user m hm := by
    rw [(h user).map] at hm
    exact hmap.domain user m hm

theorem Mapped.onMemberEv (user : String) : (rs.onMemberEv ev user).Mapped := by
  cases hc : cut ':' user with
  | none =>
    simp only [RoomServerState.onMemberEv, hc]
    exact hmap
  | some p =>
    refine ⟨fun user' m m' hm hm' => ?_, fun user' m hm => ?_⟩
    · by_cases hu : user' = user
      · subst hu
        rw [map_onMemberEv hmap hc] at hm hm'
        split_ifs at hm hm' with h h'
        · exact some.inj (h.1.symm.trans h'.1)
        · cases hm'
        · cases hm
        · cases hm
      · rw [(sameMember_onMemberEv hu).map] at hm hm'
        exact hmap.one user' m m' hm hm'
    · by_cases hu : user' = user
      · exact ⟨p, hu ▸ hc⟩
      · rw [(sameMember_onMemberEv hu).map] at hm
        exact hmap.domain user' m hm

theorem Mapped.onEventUpdate (stateKey : String) : (rs.onEventUpdate ev stateKey).Mapped := by
  by_cases ht : ev.type = MRoomMember
  · simp only [RoomServerState.onEventUpdate, ht, MRoomMember]
    exact hmap.onMemberEv stateKey
  · exact hmap.of_same fun user => sameMember_onEventUpdate fun h => ht h.1

theorem Mapped.onEvent (h : rs.onEvent localDomains recover ev = some rs') : rs'.Mapped := by
  have hext : ∀ ext, Mapped { rs with ext := ext } := fun ext => hmap.of_same fun _ =>
    ⟨rfl, rfl, rfl⟩
  rcases onEvent_eq_some h with ⟨-, ext, rfl⟩ | ⟨-, ext, rfl⟩
  · exact hext ext
  · exact (hext ext).onEventUpdate _

end

theorem mapped_init : init.Mapped where
  one user m m' hm := by cases m <;> cases hm
  domain user m hm := by cases m <;> cases hm

theorem mapped_of_run {evs : List Event}
    (h : run (fun rs ev => rs.onEvent localDomains recover ev) init evs = some rs) : rs.Mapped :=
  run_preserves (fun hmap h => hmap.onEvent h) mapped_init h

end RoomServerState

variable {rs : RoomServerState} {localDomains : List String} {recover : Bool} {ev : Event}
  {user : String}

/-- **The membership maps.** A member event of one of the four memberships that the state takes is
entered, unless its target has no domain or it is a ban of a user who is in the leave map. -/
theorem member_entered_iff {evs : List Event}
    (hrun : run (fun rs ev => rs.onEvent localDomains recover ev) init evs = some rs)
    (ht : ev.type = MRoomMember) (hk : ev.stateKey = some user)
    (hm : membershipOf ev.content ∈ ["join", "invite", "leave", "ban"])
    (happ : rs.applies localDomains ev = true) :
    (∃ rs', rs.onEvent localDomains recover ev = some rs' ∧ Entered rs rs' ev user) ↔
      (∃ p, cut ':' user = some p) ∧
        ¬ (membershipOf ev.content = "ban" ∧ (rs.leave user).isSome = true) := by
  obtain ⟨m, hof⟩ : ∃ m, mapOf (membershipOf ev.content) = some m := by
    simp only [List.mem_cons, List.not_mem_nil, or_false] at hm
    rcases hm with h | h | h | h <;> exact ⟨_, by rw [h]; rfl⟩
  obtain ⟨ext, hon⟩ : ∃ ext, rs.onEvent localDomains recover ev =
      some (onEventUpdate { rs with ext := ext } ev user) := onEvent_of_applies hk happ
  have hext : ∀ u, SameMember rs { rs with ext := ext } u := fun _ => ⟨rfl, rfl, rfl⟩
  have hmap := (mapped_of_run hrun).of_same hext
  have hupd : onEventUpdate { rs with ext := ext } ev user =
      onMemberEv { rs with ext := ext } ev user := by
    simp only [onEventUpdate, ht, MRoomMember]
  rw [hon, hupd]
  constructor
  · rintro ⟨rs', hrs, ⟨m', hm', hin, -⟩, -, -⟩
    obtain rfl := some.inj hrs
    obtain ⟨p, hc⟩ := (hmap.onMemberEv user).domain user m' (by rw [hin]; rfl)
    refine ⟨⟨p, hc⟩, fun hban => ?_⟩
    rw [map_onMemberEv hmap hc, if_neg fun h => h.2 hban] at hin
    cases hin
  · rintro ⟨⟨p, hc⟩, hban⟩
    have hin : ∀ m', (onMemberEv { rs with ext := ext } ev user).map m' user =
        if some m = some m' then some ev else none := by
      intro m'
      rw [map_onMemberEv hmap hc, hof]
      simp only [hban, not_false_eq_true, and_true]
    have htarget : (onMemberEv { rs with ext := ext } ev user).map m user = some ev := by
      rw [hin, if_pos rfl]
    have hothers : ∀ m' ≠ m, (onMemberEv { rs with ext := ext } ev user).map m' user = none :=
      fun m' hne => by rw [hin, if_neg fun h => hne (some.inj h).symm]
    exact ⟨_, rfl, ⟨m, hof, htarget, hothers⟩,
      fun u hu => (hext u).trans (sameMember_onMemberEv hu), member_eq_of_map htarget hothers⟩

def bobKicked : List Event :=
  aliceRoom ++ [memberEvent "$3" "@a:x" "@b:x" "invite", memberEvent "$4" "@b:x" "@b:x" "join",
    memberEvent "$5" "@a:x" "@b:x" "leave"]

def kickedRoom : RoomServerState := (run (step env₀ ["x"] false) init bobKicked).getD init

theorem member_entered_iff_invite :
    run (fun rs ev => rs.onEvent ["x"] false ev) init bobKicked = some kickedRoom ∧
      ∃ rs', kickedRoom.onEvent ["x"] false (memberEvent "$6" "@a:x" "@b:x" "invite") = some rs' ∧
        Entered kickedRoom rs' (memberEvent "$6" "@a:x" "@b:x" "invite") "@b:x" := by
  have hrun : run (fun rs ev => rs.onEvent ["x"] false ev) init bobKicked = some kickedRoom := rfl
  refine ⟨hrun, (member_entered_iff hrun rfl rfl (by decide) rfl).mpr ⟨⟨_, rfl⟩, ?_⟩⟩
  decide

/-- Authorisation allows the ban, the state takes it, and after it the user is in no map. -/
theorem ban_of_left_lost : run (step env₀ ["x"] false) init bobKicked = some kickedRoom ∧
    run (fun rs ev => rs.onEvent ["x"] false ev) init bobKicked = some kickedRoom ∧
    kickedRoom.applies ["x"] (memberEvent "$6" "@a:x" "@b:x" "ban") = true ∧
    allowed env₀ (memberEvent "$6" "@a:x" "@b:x" "ban") kickedRoom.authEvents = .ok () ∧
    ∃ rs', kickedRoom.onEvent ["x"] false (memberEvent "$6" "@a:x" "@b:x" "ban") = some rs' ∧
      (∀ m, rs'.map m "@b:x" = none) ∧ rs'.authEvents.member "@b:x" = none := by
  refine ⟨rfl, rfl, rfl, rfl, _, rfl, fun m => ?_, rfl⟩
  cases m <;> rfl

end Ligase.Room

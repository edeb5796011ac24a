import Ligase.Lib.Enumerate
import Ligase.Room.Members

/-!
# The events that a room state holds

A room state has a slot for each kind of setting, three maps of members and the map of invites by
address. Each held event can be found from its own fields.

* `Place`, `held`: where an event may be, and what is there.
* `placeOf`: where an event goes.
* `held_onEvent`: what an event can change.
* `Filed`, `filed_of_reachable`: in every state that events lead to, each event is at its place.
-/

namespace Ligase.Room

open Lib Auth RoomServerState Option

/-! ## Places -/

inductive Setting where
  | creator
  | joinRule
  | historyVisibility
  | visibility
  | name
  | topic
  | desc
  | canonicalAlias
  | aliases
  | power
  | guestAccess
  | avatar
  | pin
  deriving DecidableEq

def Setting.type : Setting → String
  | .creator => "m.room.create"
  | .joinRule => "m.room.join_rules"
  | .historyVisibility => "m.room.history_visibility"
  | .visibility => "m.room.visibility"
  | .name => "m.room.name"
  | .topic => "m.room.topic"
  | .desc => "m.room.desc"
  | .canonicalAlias => "m.room.canonical_alias"
  | .aliases => "m.room.aliases"
  | .power => "m.room.power_levels"
  | .guestAccess => "m.room.guest_access"
  | .avatar => "m.room.avatar"
  | .pin => "m.room.pinned_events"

inductive Place where
  | setting (s : Setting)
  | member (m : MemberMap) (user : String)
  | thirdInvite (stateKey : String)
  deriving DecidableEq

namespace RoomServerState

def setting (rs : RoomServerState) : Setting → Option Event
  | .creator => rs.creator
  | .joinRule => rs.joinRule
  | .historyVisibility => rs.historyVisibility
  | .visibility => rs.visibility
  | .name => rs.name
  | .topic => rs.topic
  | .desc => rs.desc
  | .canonicalAlias => rs.canonicalAlias
  | .aliases => rs.aliases
  | .power => rs.power
  | .guestAccess => rs.guestAccess
  | .avatar => rs.avatar
  | .pin => rs.pin

def held (rs : RoomServerState) : Place → Option Event
  | .setting s => rs.setting s
  | .member m user => rs.map m user
  | .thirdInvite stateKey => rs.thirdInvite stateKey

end RoomServerState

def settingOf : String → Option Setting
  | "m.room.create" => some .creator
  | "m.room.join_rules" => some .joinRule
  | "m.room.history_visibility" => some .historyVisibility
  | "m.room.visibility" => some .visibility
  | "m.room.name" => some .name
  | "m.room.topic" => some .topic
  | "m.room.desc" => some .desc
  | "m.room.canonical_alias" => some .canonicalAlias
  | "m.room.aliases" => some .aliases
  | "m.room.power_levels" => some .power
  | "m.room.guest_access" => some .guestAccess
  | "m.room.avatar" => some .avatar
  | "m.room.pinned_events" => some .pin
  | _ => none

/-- The place of an event, read off its type, its state key and, of a member event, the
membership. -/
def placeOf (ev : Event) : Option Place :=
  if ev.type = MRoomMember then
    ev.stateKey.bind fun user => (mapOf (membershipOf ev.content)).map fun m => .member m user
  else if ev.type = MRoomThirdPartyInvite then ev.stateKey.map .thirdInvite
  else (settingOf ev.type).map .setting

variable {rs rs' : RoomServerState} {localDomains : List String} {ev e : Event} {p : Place}

/-! ## What an event does -/

variable {s : Setting} {user : String} {m : MemberMap}

theorem settingOf_type (s : Setting) : settingOf s.type = some s := by
  cases s <;> rfl

theorem eq_type_of_settingOf {type : String} (h : settingOf type = some s) : type = s.type := by
  unfold settingOf at h
  split at h
  all_goals cases h
  all_goals rfl

theorem Setting.type_ne_member (s : Setting) : s.type ≠ MRoomMember := by
  cases s <;> decide

theorem Setting.type_ne_thirdInvite (s : Setting) : s.type ≠ MRoomThirdPartyInvite := by
  cases s <;> decide

theorem placeOf_setting (h : ev.type = s.type) : placeOf ev = some (.setting s) := by
  rw [placeOf, if_neg (h ▸ s.type_ne_member), if_neg (h ▸ s.type_ne_thirdInvite), h, settingOf_type]
  rfl

theorem placeOf_member (ht : ev.type = MRoomMember) (hk : ev.stateKey = some user) :
    placeOf ev = (mapOf (membershipOf ev.content)).map fun m => .member m user := by
  rw [placeOf, if_pos ht, hk]
  rfl

theorem placeOf_thirdInvite {stateKey : String} (ht : ev.type = MRoomThirdPartyInvite)
    (hk : ev.stateKey = some stateKey) : placeOf ev = some (.thirdInvite stateKey) := by
  rw [placeOf, if_neg (by rw [ht]; decide), if_pos ht, hk]
  rfl

theorem placeOf_eq_member (h : placeOf ev = some (.member m user)) :
    ev.type = MRoomMember ∧ ev.stateKey = some user ∧ mapOf (membershipOf ev.content) = some m := by
  unfold placeOf at h
  split_ifs at h with ht h₁
  · obtain ⟨u, hk, hu⟩ := bind_eq_some_iff.mp h
    obtain ⟨m', hm, he⟩ := map_eq_some_iff.mp hu
    cases he
    exact ⟨ht, hk, hm⟩
  · obtain ⟨k, -, he⟩ := map_eq_some_iff.mp h
    cases he
  · obtain ⟨s, -, he⟩ := map_eq_some_iff.mp h
    cases he

def RoomServerState.setSetting (rs : RoomServerState) (ev : Event) : Setting → RoomServerState
  | .creator => rs.onCreateEv ev
  | .joinRule => { rs with joinRule := some ev }
  | .historyVisibility => { rs with historyVisibility := some ev }
  | .visibility => { rs with visibility := some ev }
  | .name => { rs with name := some ev }
  | .topic => { rs with topic := some ev }
  | .desc => { rs with desc := some ev }
  | .canonicalAlias => { rs with canonicalAlias := some ev }
  | .aliases => { rs with aliases := some ev }
  | .power => { rs with power := some ev }
  | .guestAccess => { rs with guestAccess := some ev }
  | .avatar => { rs with avatar := some ev }
  | .pin => { rs with pin := some ev }

theorem onEventUpdate_setting (h : ev.type = s.type) (stateKey : String) :
    rs.onEventUpdate ev stateKey = rs.setSetting ev s := by
  unfold onEventUpdate
  rw [h]
  cases s <;> rfl

theorem held_setSetting (s : Setting) (p : Place) :
    (rs.setSetting ev s).held p = if p = .setting s then some ev else rs.held p := by
  cases p with
  | setting s' => cases s <;> cases s' <;> rfl
  | member m user => cases s <;> cases m <;> rfl
  | thirdInvite k => cases s <;> rfl

theorem held_onEventUpdate_thirdInvite (ht : ev.type = MRoomThirdPartyInvite) (stateKey : String)
    (p : Place) : (rs.onEventUpdate ev stateKey).held p =
      if p = .thirdInvite stateKey then some ev else rs.held p := by
  unfold onEventUpdate
  rw [ht]
  cases p with
  | setting s => cases s <;> rfl
  | member m user => cases m <;> rfl
  | thirdInvite k =>
    show Function.update rs.thirdInvite stateKey (some ev) k = _
    simp only [Function.update_apply, Place.thirdInvite.injEq]
    rfl

theorem held_onEventUpdate_other (hm : ev.type ≠ MRoomMember)
    (ht : ev.type ≠ MRoomThirdPartyInvite) (hs : settingOf ev.type = none) (stateKey : String)
    (p : Place) : (rs.onEventUpdate ev stateKey).held p = rs.held p := by
  unfold onEventUpdate
  split
  case h_2 h => exact absurd h hm
  case h_4 h => exact absurd h ht
  case h_15 =>
    rcases p with ⟨⟨⟩⟩ | ⟨⟨⟩, _⟩ | _ <;> rfl
  case h_17 => rfl
  all_goals
    rename_i h
    rw [h] at hs
    exact absurd hs (isSome_iff_ne_none.mp rfl)

theorem onEventUpdate_member (ht : ev.type = MRoomMember) (user : String) :
    rs.onEventUpdate ev user = rs.onMemberEv ev user := by
  simp only [onEventUpdate, ht, MRoomMember]

theorem setting_onMemberEv (user : String) (s : Setting) :
    (rs.onMemberEv ev user).setting s = rs.setting s := by
  obtain ⟨_, _, _, _, _, h⟩ := rs.onMemberEv_frame ev user
  rw [h]
  cases s <;> rfl

theorem thirdInvite_dropMember (user membership pre : String) :
    (rs.dropMember user membership pre).thirdInvite = rs.thirdInvite := by
  unfold dropMember
  split_ifs <;> rfl

theorem thirdInvite_onMemberEv (user k : String) : (rs.onMemberEv ev user).thirdInvite k =
      if k = user ∧ (cut ':' user).isSome = true ∧ (mapOf (membershipOf ev.content) = some .join ∨
            mapOf (membershipOf ev.content) = some .leave)
      then none else rs.thirdInvite k := by
  unfold onMemberEv
  cases hc : cut ':' user with
  | none => simp
  | some q =>
    show ((rs.storeMember ev user (membershipOf ev.content)).dropMember user
      (membershipOf ev.content) (rs.preMembership user)).thirdInvite k = _
    rw [thirdInvite_dropMember]
    unfold storeMember mapOf
    by_cases hk : k = user
    · split_ifs <;> simp_all
    · split_ifs <;> simp_all

theorem map_onMemberEv_eq_some {user' : String} (h : (rs.onMemberEv ev user).map m user' = some e) :
    (e = ev ∧ user' = user ∧ mapOf (membershipOf ev.content) = some m) ∨
      rs.map m user' = some e := by
  by_cases hu : user' = user
  · subst hu
    cases hc : cut ':' user' with
    | none =>
      simp only [onMemberEv, hc] at h
      exact .inr h
    | some q =>
      have hev : (rs.onMemberEv ev user').map m user' =
          ((rs.storeMember ev user' (membershipOf ev.content)).dropMember user'
            (membershipOf ev.content) (rs.preMembership user')).map m user' := by
        simp only [onMemberEv, hc]
        cases m <;> rfl
      rw [hev, map_dropMember _ _ (rs.preMembership_spec user').1, map_storeMember] at h
      split_ifs at h with hdrop hm
      · exact .inl ⟨(some.inj h).symm, rfl, hm⟩
      · exact .inr h
  · rw [(sameMember_onMemberEv hu).map] at h
    exact .inr h

theorem held_onEventUpdate {stateKey : String}
    (hkey : needsStateKey ev.type = true → ev.stateKey = some stateKey)
    (h : (rs.onEventUpdate ev stateKey).held p = some e) :
    (e = ev ∧ placeOf ev = some p) ∨ rs.held p = some e := by
  by_cases hm : ev.type = MRoomMember
  · have hk : ev.stateKey = some stateKey := hkey (by rw [hm]; rfl)
    rw [onEventUpdate_member hm] at h
    cases p with
    | setting s => exact .inr ((setting_onMemberEv stateKey s).symm.trans h)
    | member m user =>
      rcases map_onMemberEv_eq_some h with ⟨he, rfl, hmap⟩ | h
      · refine .inl ⟨he, ?_⟩
        rw [placeOf_member hm hk, hmap]
        rfl
      · exact .inr h
    | thirdInvite k =>
      have h : (rs.onMemberEv ev stateKey).thirdInvite k = some e := h
      rw [thirdInvite_onMemberEv] at h
      split_ifs at h
      exact .inr h
  · by_cases ht : ev.type = MRoomThirdPartyInvite
    · have hk : ev.stateKey = some stateKey := hkey (by rw [ht]; rfl)
      rw [held_onEventUpdate_thirdInvite ht] at h
      split_ifs at h with hp
      · exact .inl ⟨(some.inj h).symm, hp ▸ placeOf_thirdInvite ht hk⟩
      · exact .inr h
    · cases hs : settingOf ev.type with
      | none => exact .inr ((held_onEventUpdate_other hm ht hs stateKey p).symm.trans h)
      | some s =>
        have hty := eq_type_of_settingOf hs
        rw [onEventUpdate_setting hty, held_setSetting] at h
        split_ifs at h with hp
        · exact .inl ⟨(some.inj h).symm, hp ▸ placeOf_setting hty⟩
        · exact .inr h

theorem held_ext (ext : RoomStateExt) (p : Place) :
    ({ rs with ext := ext } : RoomServerState).held p = rs.held p := by
  rcases p with ⟨⟨⟩⟩ | ⟨⟨⟩, _⟩ | _ <;> rfl

theorem held_onEvent {recover : Bool} (h : rs.onEvent localDomains recover ev = some rs')
    (he : rs'.held p = some e) :
    (e = ev ∧ placeOf ev = some p ∧ rs.applies localDomains ev = true) ∨ rs.held p = some e := by
  have hkey : needsStateKey ev.type = true → ev.stateKey = some (ev.stateKey.getD "") := by
    intro hn
    cases hk : ev.stateKey with
    | some k => rfl
    | none =>
      rw [RoomServerState.onEvent, if_pos ⟨hn, hk⟩] at h
      cases h
  rcases onEvent_eq_some h with ⟨-, ext, rfl⟩ | ⟨happ, ext, rfl⟩
  · exact .inr ((held_ext ext p).symm.trans he)
  · rcases held_onEventUpdate hkey he with ⟨hev, hp⟩ | h
    · exact .inl ⟨hev, hp, happ⟩
    · exact .inr ((held_ext ext p).symm.trans h)

/-! ## Reachable states -/

def Reachable (localDomains : List String) (rs : RoomServerState) : Prop :=
  ∃ evs : List (Bool × Event), run (fun rs a => rs.onEvent localDomains a.1 a.2) init evs = some rs

theorem held_init (p : Place) : init.held p = none := by
  rcases p with ⟨⟨⟩⟩ | ⟨⟨⟩, _⟩ | _ <;> rfl

/-- Each event is at its place, its sender has a domain, and only some places are taken. -/
structure Filed (rs : RoomServerState) : Prop where
  place : ∀ p e, rs.held p = some e → placeOf e = some p
  sender : ∀ p e, rs.held p = some e → (cut ':' e.sender).isSome = true
  finite : {p | (rs.held p).isSome = true}.Finite

theorem sender_of_applies (h : rs.applies localDomains ev = true) :
    (cut ':' ev.sender).isSome = true := by
  unfold applies at h
  cases hc : cut ':' ev.sender with
  | none =>
    rw [hc] at h
    cases h
  | some q => rfl

theorem Filed.onEvent {recover : Bool} (hrs : Filed rs)
    (h : rs.onEvent localDomains recover ev = some rs') : Filed rs' where
  place p e he := by
    rcases held_onEvent h he with ⟨rfl, hp, -⟩ | he
    · exact hp
    · exact hrs.place p e he
  sender p e he := by
    rcases held_onEvent h he with ⟨rfl, -, happ⟩ | he
    · exact sender_of_applies happ
    · exact hrs.sender p e he
  finite := by
    have hnew : {p | placeOf ev = some p}.Finite :=
      Set.Subsingleton.finite fun p hp q hq => some.inj (Eq.trans (Eq.symm hp) hq)
    refine (hrs.finite.union hnew).subset fun p hp => ?_
    obtain ⟨e, he⟩ := isSome_iff_exists.mp hp
    rcases held_onEvent h he with ⟨-, hp, -⟩ | he
    · exact .inr hp
    · exact .inl (isSome_iff_exists.mpr ⟨e, he⟩)

theorem Filed.mapOf_eq (hrs : Filed rs)
    (h : rs.map m user = some e) : mapOf (membershipOf e.content) = some m :=
  (placeOf_eq_member (hrs.place (.member m user) e h)).2.2

theorem Filed.ext (hrs : Filed rs) (ext : RoomStateExt) : Filed { rs with ext := ext } where
  place p e he := hrs.place p e ((held_ext ext p).symm.trans he)
  sender p e he := hrs.sender p e ((held_ext ext p).symm.trans he)
  finite := by simpa only [held_ext] using hrs.finite

theorem filed_init : Filed init where
  place p e h := absurd h (by rw [held_init]; exact nofun)
  sender p e h := absurd h (by rw [held_init]; exact nofun)
  finite := by simp [held_init]

theorem filed_of_reachable (h : Reachable localDomains rs) : Filed rs := by
  obtain ⟨evs, h⟩ := h
  exact run_preserves (fun hrs h => hrs.onEvent h) filed_init h

theorem mapped_of_reachable (h : Reachable localDomains rs) : rs.Mapped := by
  obtain ⟨evs, h⟩ := h
  exact run_preserves (fun hrs h => hrs.onEvent h) mapped_init h

end Ligase.Room

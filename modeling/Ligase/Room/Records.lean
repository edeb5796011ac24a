import Ligase.Room.Members
import Ligase.Room.Written

/-!
# The records of the memberships

A membership is recorded three times: in the cache of the user's memberships, in the membership row,
and in the maps of the room state. The first two take every member event that is processed, the maps
only those that are entered in the state.

* **`records_agree`**: events that are recorded keep the records the same.
-/

namespace Ligase.Room.Processor

open Lib Auth Proc RoomServerState Option Function List

/-! ## Records -/

/-- The membership that a map of the room state stands for. -/
def recordOf : MemberMap → MembershipState
  | .join => .join
  | .leave => .leaveOrBan
  | .invite => .invite

namespace Stores

variable (s : Stores) (roomID user : String)

def row : Option Row := (s.rows user).lookup roomID

def rowMembership : Option MembershipState :=
  (s.row roomID user).map Row.membership

/-- `getUserMemberShip`: what is cached, or the rows for a user who is not. -/
def cachedMembership : Option MembershipState :=
  match s.ums user with
  | some ms => ms roomID
  | none => s.rowMembership roomID user

def stateMembership : Option MembershipState :=
  (s.states roomID).bind fun c => (mapOf (c.rs.preMembership user)).map recordOf

end Stores

structure Call where
  svc : Services
  trusted : Bool
  ext : ExtRecord
  event : NewEvent

def Call.load (c : Call) (room : CachedRoom) : LoadedRoom := room.load c.event.roomID c.ext

def Call.step (s : Stores) (c : Call) : Option Stores :=
  match processNew c.svc c.trusted ((s.states c.event.roomID).map c.load) c.event s with
  | (.ok (), s') => some s'
  | (.error _, _) => none

/-- The three records of a room agree. The members in the maps have member events that can be
read. -/
structure Agree (roomID : String) (s : Stores) : Prop where
  mapped : ∀ c, s.states roomID = some c → c.rs.Mapped
  readable : ∀ c m user e, s.states roomID = some c → c.rs.map m user = some e →
    mapOf (membership e) = some m
  cache : ∀ user, s.cachedMembership roomID user = s.rowMembership roomID user
  state : ∀ user, s.rowMembership roomID user = s.stateMembership roomID user

/-- **The member events that the three records take alike**: readable ones of a membership that has
a map, that the state takes, no ban of a user who has left; when the calls of the cache and the
flush of the state succeed, and the version of the row is later. -/
structure Recorded (s : Stores) (c : Call) (user : String) : Prop where
  membership : membership c.event.toEvent ∈ ["join", "invite", "leave", "ban"]
  content : membershipOf c.event.content = Processor.membership c.event.toEvent
  domain : (cut ':' user).isSome = true
  applies : ∀ room, s.states c.event.roomID = some room →
    room.rs.applies c.svc.domainCfg c.event.toEvent = true
  ban : ∀ room, s.states c.event.roomID = some room →
    ¬ (Processor.membership c.event.toEvent = "ban" ∧ (room.rs.leave user).isSome = true)
  calls : ∀ call ∈ [StoreCall.umsExists, .umsLoad, .umsSet, .flush], c.svc.fails call = false
  version : ∀ row, s.row c.event.roomID user = some row → row.version < c.svc.version

/-- An event of the room other than its creation, recorded if it is a member event. -/
def Call.Meets (roomID : String) (s : Stores) (c : Call) : Prop :=
  c.event.roomID = roomID ∧ c.event.type ≠ MRoomCreate ∧
    ∀ user, c.event.type = MRoomMember → c.event.stateKey = some user → Recorded s c user

variable {svc : Services} {trusted : Bool} {room : Option LoadedRoom} {event : NewEvent}
  {pre : Option Event} {s s' : Stores} {c : Call} {roomID user : String} {rs : RoomServerState}
  {e : Event} {m : MemberMap}

/-! ## The earlier membership -/

variable {rows : List (String × Row)} {ev : Event}

theorem cacheState_of_mapOf {text : String} (h : mapOf text = some m) :
    cacheState text = recordOf m := by
  unfold mapOf at h
  split_ifs at h with hj hi hl
  · cases h
    rw [hj]
    rfl
  · cases h
    rw [hi]
    rfl
  · cases h
    rcases hl with rfl | rfl
    · rfl
    · rfl

theorem member_eq (rs : RoomServerState) (user : String) :
    rs.member user = (mapOf (rs.preMembership user)).bind fun m => rs.map m user := by
  unfold member preMembership
  cases hj : rs.join user with
  | some e => exact hj.symm
  | none =>
    cases hl : rs.leave user with
    | some e => exact hl.symm
    | none =>
      cases hi : rs.invite user with
      | some e => exact hi.symm
      | none => rfl

theorem Agree.old (hs : Agree roomID s) {c : CachedRoom} (hc : s.states roomID = some c)
    (user : String) : (c.rs.member user = none ∧ s.rowMembership roomID user = none) ∨
    ∃ e m, c.rs.member user = some e ∧ mapOf (membership e) = some m ∧
      s.rowMembership roomID user = some (recordOf m) := by
  have hrow : s.rowMembership roomID user = (mapOf (c.rs.preMembership user)).map recordOf := by
    rw [hs.state, Stores.stateMembership, hc]
    rfl
  obtain ⟨-, hsome, -⟩ := c.rs.preMembership_spec user
  rw [member_eq, hrow]
  cases hm : mapOf (c.rs.preMembership user) with
  | none => exact .inl ⟨rfl, rfl⟩
  | some m =>
    obtain ⟨e, he⟩ := isSome_iff_exists.mp (hsome m hm)
    exact .inr ⟨e, m, he, hs.readable c m user e hc he, rfl⟩

/-! ## The rows -/

theorem lookup_insertRow {row : Row} :
    (insertRow roomID row rows).lookup roomID = some ((rows.lookup roomID).getD row) := by
  unfold insertRow
  cases h : rows.lookup roomID with
  | none => simp
  | some row' => simpa using h

theorem lookup_modifyRow {g : Row → Row} :
    (modifyRow roomID g rows).lookup roomID = (rows.lookup roomID).map g := by
  unfold modifyRow
  induction rows with
  | nil => rfl
  | cons p rows ih =>
    rw [map_cons, lookup_cons]
    by_cases hp : p.1 = roomID
    · rw [if_pos hp, lookup_cons, hp, beq_self_eq_true]
      rfl
    · have hne := beq_false_of_ne fun h => hp h.symm
      rw [if_neg hp, lookup_cons, hne, ih]

def changeRow (svc : Services) (event : NewEvent) (old : String) (m : MembershipState) :
    List (String × Row) → List (String × Row) :=
  if old = "" then insertRow event.roomID ⟨m, event.eventNID, "", 0, -1⟩
  else modifyRow event.roomID (updateRow svc event.sender m event.eventNID)

theorem rows_updateMemberShip {s₁ : Stores} (ht : event.type = MRoomMember)
    (hk : event.stateKey = some user)
    (hm : membership event.toEvent ∈ ["join", "invite", "leave", "ban"])
    (h : updateMemberShip svc event.roomID event pre s = (.ok (), s₁)) :
    s₁.rows =
      if oldMembership pre ≠ membership event.toEvent ∨ membership event.toEvent = "join" then
        update s.rows user (changeRow svc event (oldMembership pre)
          (cacheState (membership event.toEvent)) (s.rows user))
      else s.rows := by
  have hset : ∀ old m, setRow svc event.roomID event user old m s = (.ok (), s₁) →
      s₁.rows = update s.rows user (changeRow svc event old m (s.rows user)) := by
    intro old m h
    obtain ⟨-, h⟩ := attempt_bind_eq_ok.mp h
    cases h
    rfl
  unfold updateMemberShip at h
  simp only [ht, hk, getD_some, true_and] at h
  split_ifs at h ⊢ with hchange
  · simp only [mem_cons, not_mem_nil, or_false] at hm
    rcases hm with hm | hm | hm | hm
    · rw [hm] at h ⊢
      unfold setToJoin at h
      split_ifs at h
      · exact hset _ _ (attempt_bind_eq_ok.mp h).2
      · exact hset _ _ h
    all_goals
      rw [hm] at h ⊢
      exact hset _ _ (attempt_bind_eq_ok.mp h).2
  · rw [(pure_eq_ok.mp h).2]

theorem lookup_changeRow {old : String} {m : MembershipState}
    (hnone : old = "" → rows.lookup event.roomID = none)
    (hsome : old ≠ "" → ∃ row, rows.lookup event.roomID = some row ∧ row.version < svc.version) :
    ((changeRow svc event old m rows).lookup event.roomID).map Row.membership = some m := by
  unfold changeRow
  split_ifs with hold
  · rw [lookup_insertRow, hnone hold]
    rfl
  · obtain ⟨row, hrow, hversion⟩ := hsome hold
    rw [lookup_modifyRow, hrow]
    simp [updateRow, hversion]

/-! ## The cache -/

theorem initCacheIsNotExists_spec (user : String) (s : Stores)
    (hexists : svc.fails .umsExists = false) (hload : svc.fails .umsLoad = false) :
    ∃ s₁, initCacheIsNotExists svc user s = some s₁ ∧
      ∀ user' ≠ user, s₁.ums user' = s.ums user' := by
  unfold initCacheIsNotExists
  rw [hexists, hload]
  simp only [Bool.false_eq_true, if_false]
  split_ifs
  · exact ⟨s, rfl, fun _ _ => rfl⟩
  · exact ⟨s, rfl, fun _ _ => rfl⟩
  · exact ⟨_, rfl, fun user' hu => update_of_ne hu _ _⟩

theorem ums_umsOnEvent (pre : Option Event) (s : Stores)
    (ht : ev.type = MRoomMember) (hk : ev.stateKey = some user)
    (hcalls : ∀ call ∈ [StoreCall.umsExists, .umsLoad, .umsSet, .flush], svc.fails call = false) :
    (∀ user' ≠ user, (umsOnEvent svc ev pre s).ums user' = s.ums user') ∧
      ((oldMembership pre = membership ev ∧ (umsOnEvent svc ev pre s).ums user = s.ums user) ∨
        ∃ ms : Memberships, (umsOnEvent svc ev pre s).ums user =
          some (update ms ev.roomID (some (cacheState (membership ev))))) := by
  have hset : svc.fails .umsSet = false := hcalls _ (by decide)
  unfold umsOnEvent
  by_cases hold : oldMembership pre = membership ev
  · rw [if_neg fun h => h.2 hold]
    exact ⟨fun _ _ => rfl, .inl ⟨hold, rfl⟩⟩
  · obtain ⟨s₁, hs₁, hothers⟩ := initCacheIsNotExists_spec user s
      (hcalls .umsExists (by decide)) (hcalls .umsLoad (by decide))
    rw [if_pos ⟨ht, hold⟩, hk, getD_some, hs₁]
    dsimp only
    unfold setUserRoomMemberShip
    rw [if_neg (by rw [hset]; decide)]
    exact ⟨fun user' hu => (update_of_ne hu _ _).trans (hothers user' hu),
      .inr ⟨_, update_self _ _ _⟩⟩

/-! ## One event -/

theorem Call.step_eq_some (h : c.step s = some s') :
    processNew c.svc c.trusted ((s.states c.event.roomID).map c.load) c.event s = (.ok (), s') := by
  unfold step at h
  split at h
  · rename_i heq
    cases h
    exact heq
  · cases h

theorem Call.step_spec (h : c.step s = some s') (ht : c.event.type ≠ MRoomCreate) :
    ∃ room rs, s.states c.event.roomID = some room ∧
      (c.load room).rs.onEvent c.svc.domainCfg false c.event.toEvent = some rs ∧
      s'.states c.event.roomID =
        some (if isStateEv c.event.toEvent = true ∧ c.svc.fails .flush = false then
          ⟨rs.snapshot, c.svc.snapId, room.version + 1⟩ else room) ∧
      s'.ums = (umsOnEvent c.svc c.event.toEvent (room.rs.getPreEvent c.event.toEvent).1 s).ums ∧
      ∃ s₁, updateMemberShip c.svc c.event.roomID c.event
        (room.rs.getPreEvent c.event.toEvent).1 s = (.ok (), s₁) ∧ s'.rows = s₁.rows := by
  have hp := step_eq_some h
  cases hroom : s.states c.event.roomID with
  | none =>
    rw [hroom] at hp
    obtain ⟨o, s₁, hfind, -⟩ := bind_eq_ok.mp hp
    simp only [map_none, findRoom, if_neg ht] at hfind
    exact absurd hfind fail_ne_ok
  | some room =>
    rw [hroom, map_some] at hp
    have hpre : preEvent (some (c.load room)) c.event =
        (room.rs.getPreEvent c.event.toEvent).1 := by
      rw [preEvent, if_neg ht]
      rfl
    rcases processNew_ok hp with ⟨-, hcreate, -⟩ | ⟨rs, event', ext, o, hrs, -, hrows, rfl⟩
    · exact absurd hcreate ht
    · rw [hpre] at hrows
      have hid : (stateFor (some (c.load room)) c.event).roomID = c.event.roomID := rfl
      refine ⟨room, rs, rfl, hrs, ?_, by rw [hpre], _, Prod.ext hrows rfl, by rw [hpre, hid]⟩
      dsimp only
      split_ifs
      · rw [hid, update_self, flushedRoom, hrs]
        rfl
      · exact hroom

variable {room : CachedRoom}

theorem Agree.of_users {room' : CachedRoom} (hs : Agree roomID s)
    (hroom : s.states roomID = some room) (hroom' : s'.states roomID = some room')
    (hmap : room'.rs.Mapped)
    (h : ∀ user, (s'.ums user = s.ums user ∧ s'.rows user = s.rows user ∧ SameMember room.rs
      room'.rs user) ∨ ((∀ m e, room'.rs.map m user = some e → mapOf (membership e) = some m) ∧
      s'.cachedMembership roomID user = s'.rowMembership roomID user ∧ s'.rowMembership roomID user
      = s'.stateMembership roomID user)) : Agree roomID s' where
  mapped c hc := by
    cases hroom'.symm.trans hc
    exact hmap
  readable c m user e hc he := by
    cases hroom'.symm.trans hc
    rcases h user with ⟨-, -, hsame⟩ | ⟨hread, -⟩
    · exact hs.readable room m user e hroom (hsame.map m ▸ he)
    · exact hread m e he
  cache user := by
    rcases h user with ⟨hums, hrows, -⟩ | ⟨-, hcache, -⟩
    · have hold := hs.cache user
      unfold Stores.cachedMembership Stores.rowMembership Stores.row at hold ⊢
      rwa [hums, hrows]
    · exact hcache
  state user := by
    rcases h user with ⟨-, hrows, hsame⟩ | ⟨-, -, hstate⟩
    · have hold := hs.state user
      unfold Stores.rowMembership Stores.row Stores.stateMembership at hold ⊢
      rw [hroom] at hold
      rw [hrows, hold, hroom']
      show _ = (mapOf (room'.rs.preMembership user)).map recordOf
      unfold preMembership
      rw [hsame.join, hsame.leave, hsame.invite]
      rfl
    · exact hstate

theorem sameMember_onEvent {localDomains : List String} {recover : Bool}
    {rs rs' : RoomServerState} (hm : ev.type ≠ MRoomMember)
    (h : rs.onEvent localDomains recover ev = some rs') (user : String) :
    SameMember rs rs'.snapshot user := by
  rcases onEvent_eq_some h with ⟨-, ext, rfl⟩ | ⟨-, ext, rfl⟩
  · exact ⟨rfl, rfl, rfl⟩
  · obtain ⟨hj, hl, hi⟩ : SameMember { rs with ext } _ user :=
      sameMember_onEventUpdate fun h => hm h.1
    exact ⟨hj, hl, hi⟩

theorem umsOnEvent_other (hm : ev.type ≠ MRoomMember) : umsOnEvent svc ev pre s = s := by
  rw [umsOnEvent, if_neg fun h => hm h.1]

theorem updateMemberShip_other (hm : event.type ≠ MRoomMember) :
    updateMemberShip svc roomID event pre = pure () := by
  rw [updateMemberShip, if_neg fun h => hm h.1]

theorem Agree.step_other (hs : Agree c.event.roomID s) (h : c.step s = some s')
    (ht : c.event.type ≠ MRoomCreate) (hm : c.event.type ≠ MRoomMember) :
    Agree c.event.roomID s' := by
  obtain ⟨room, rs, hroom, hrs, hroom', hums, s₁, hrows, hrows'⟩ := Call.step_spec h ht
  rw [umsOnEvent_other hm] at hums
  rw [updateMemberShip_other hm] at hrows
  have hkept : s'.rows = s.rows := by rw [hrows', (pure_eq_ok.mp hrows).2]
  have hsame : ∀ user, SameMember room.rs rs.snapshot user := fun user =>
    (⟨rfl, rfl, rfl⟩ : SameMember room.rs (c.load room).rs user).trans
      (sameMember_onEvent hm hrs user)
  refine hs.of_users hroom hroom' ?_ fun user => .inl ⟨congrFun hums user, congrFun hkept user, ?_⟩
  · split_ifs
    · exact (hs.mapped room hroom).of_same hsame
    · exact hs.mapped room hroom
  · split_ifs
    · exact hsame user
    · exact .refl _ _

theorem preMembership_of_map (hm : rs.map m user = some e)
    (hne : ∀ m' ≠ m, rs.map m' user = none) : mapOf (rs.preMembership user) = some m := by
  obtain ⟨-, hsome, hnone⟩ := rs.preMembership_spec user
  cases hp : mapOf (rs.preMembership user) with
  | none => exact absurd (hm.symm.trans (hnone hp m)) nofun
  | some m' =>
    by_contra hm'
    have := hsome m' hp
    rw [hne m' fun h => hm' (congrArg some h)] at this
    cases this

theorem onEvent_recorded {rs : RoomServerState} (hmap : room.rs.Mapped) (hrec : Recorded s c user)
    (ht : c.event.type = MRoomMember) (hk : c.event.stateKey = some user)
    (hroom : s.states c.event.roomID = some room)
    (hrs : (c.load room).rs.onEvent c.svc.domainCfg false c.event.toEvent = some rs) :
    ∃ m, mapOf (membership c.event.toEvent) = some m ∧
      rs.map m user = some c.event.toEvent ∧ (∀ m' ≠ m, rs.map m' user = none) ∧
      ∀ user' ≠ user, SameMember room.rs rs user' := by
  obtain ⟨m, hm⟩ : ∃ m, mapOf (membership c.event.toEvent) = some m := by
    have := hrec.membership
    simp only [mem_cons, not_mem_nil, or_false] at this
    rcases this with h | h | h | h <;> exact ⟨_, by rw [h]; rfl⟩
  obtain ⟨p, hcut⟩ := isSome_iff_exists.mp hrec.domain
  have happ := hrec.applies room hroom
  obtain ⟨ext, hon⟩ : ∃ ext, (c.load room).rs.onEvent c.svc.domainCfg false c.event.toEvent =
      some (onEventUpdate { (c.load room).rs with ext } c.event.toEvent user) :=
    onEvent_of_applies hk happ
  obtain rfl := some.inj (hrs.symm.trans hon)
  have hsame : ∀ u, SameMember room.rs { (c.load room).rs with ext } u := fun _ =>
    ⟨rfl, rfl, rfl⟩
  have hin : ∀ m', (onEventUpdate { (c.load room).rs with ext } c.event.toEvent user).map m'
      user = if mapOf (membership c.event.toEvent) = some m' then some c.event.toEvent
        else none := by
    intro m'
    simp only [onEventUpdate, ht, MRoomMember]
    rw [map_onMemberEv (hmap.of_same hsame) hcut, hrec.content]
    exact if_congr (and_iff_left (hrec.ban room hroom)) rfl rfl
  refine ⟨m, hm, by rw [hin, if_pos hm], fun m' hne => ?_, fun user' hu => ?_⟩
  · rw [hin, if_neg fun h => hne (some.inj (h.symm.trans hm))]
  · exact (hsame user').trans (sameMember_onEventUpdate fun h => hu h.2.symm)

theorem Agree.unchanged (hs : Agree roomID s) (hroom : s.states roomID = some room)
    (hm : mapOf (membership ev) = some m)
    (hold : oldMembership (room.rs.member user) = membership ev) :
    s.rowMembership roomID user = some (recordOf m) := by
  rcases hs.old hroom user with ⟨hnone, -⟩ | ⟨e, m₀, he, hm₀, hrow⟩
  · rw [hnone] at hold
    rw [← hold] at hm
    cases hm
  · rw [he] at hold
    rw [hrow, some.inj (hm₀.symm.trans ((congrArg mapOf hold).trans hm))]

theorem Agree.rowMembership_recorded {s₁ : Stores} (hs : Agree c.event.roomID s)
    (ht : c.event.type = MRoomMember) (hk : c.event.stateKey = some user) (hrec : Recorded s c user)
    (hroom : s.states c.event.roomID = some room) (hm : mapOf (membership c.event.toEvent) = some m)
    (hrows : updateMemberShip c.svc c.event.roomID c.event (room.rs.member user) s = (.ok (), s₁)) :
    s₁.rowMembership c.event.roomID user = some (recordOf m) ∧
      ∀ user' ≠ user, s₁.rows user' = s.rows user' := by
  have hafter := rows_updateMemberShip ht hk hrec.membership hrows
  split_ifs at hafter with hchange
  · refine ⟨?_, fun user' hu => by rw [hafter, update_of_ne hu]⟩
    rw [Stores.rowMembership, Stores.row, hafter, update_self, ← cacheState_of_mapOf hm]
    refine lookup_changeRow (fun hold => ?_) fun hold => ?_
    · rcases hs.old hroom user with ⟨-, hrow⟩ | ⟨e, m₀, he, hm₀, -⟩
      · exact map_eq_none_iff.mp hrow
      · rw [he] at hold
        rw [show membership e = "" from hold] at hm₀
        cases hm₀
    · rcases hs.old hroom user with ⟨hnone, -⟩ | ⟨e, m₀, -, -, hrow⟩
      · rw [hnone] at hold
        exact absurd rfl hold
      · obtain ⟨row, hlook, -⟩ := map_eq_some_iff.mp hrow
        exact ⟨row, hlook, hrec.version row hlook⟩
  · rw [not_or, not_not] at hchange
    refine ⟨?_, fun user' _ => by rw [hafter]⟩
    rw [Stores.rowMembership, Stores.row, hafter]
    exact hs.unchanged hroom hm hchange.1

theorem Agree.step_member (hs : Agree c.event.roomID s) (h : c.step s = some s')
    (ht : c.event.type = MRoomMember) (hk : c.event.stateKey = some user)
    (hrec : Recorded s c user) :
    Agree c.event.roomID s' ∧ s'.rowMembership c.event.roomID user =
      some (cacheState (membership c.event.toEvent)) := by
  obtain ⟨room, rs, hroom, hrs, hroom', hums, s₁, hrows, hrows'⟩ :=
    Call.step_spec h (by rw [ht]; decide)
  obtain ⟨m, hm, hin, hout, hothers⟩ :=
    onEvent_recorded (hs.mapped room hroom) hrec ht hk hroom hrs
  have hpre : (room.rs.getPreEvent c.event.toEvent).1 = room.rs.member user := by
    simp only [getPreEvent, ht, MRoomMember, hk, bind_some]
  rw [hpre] at hums hrows
  have hstate : isStateEv c.event.toEvent = true := by
    rw [isStateEv, ht]
    decide
  rw [if_pos ⟨hstate, hrec.calls .flush (by decide)⟩] at hroom'
  obtain ⟨hrow, hrowsOthers⟩ := hs.rowMembership_recorded ht hk hrec hroom hm hrows
  obtain ⟨humsOthers, humsTarget⟩ := ums_umsOnEvent (room.rs.member user) s ht hk hrec.calls
  have hrow' : s'.rowMembership c.event.roomID user = some (recordOf m) := by
    rw [Stores.rowMembership, Stores.row, hrows']
    exact hrow
  have hmaps : s'.stateMembership c.event.roomID user = some (recordOf m) := by
    rw [Stores.stateMembership, hroom']
    show (mapOf (rs.preMembership user)).map recordOf = _
    rw [preMembership_of_map hin hout]
    rfl
  have hcache : s'.cachedMembership c.event.roomID user = some (recordOf m) := by
    rw [Stores.cachedMembership, hums]
    rcases humsTarget with ⟨hold, hkept⟩ | ⟨ms, hms⟩
    · rw [hkept]
      cases hu : s.ums user with
      | none => exact hrow'
      | some ms =>
        have hcached := (hs.cache user).trans (hs.unchanged hroom hm hold)
        rwa [Stores.cachedMembership, hu] at hcached
    · rw [hms, ← cacheState_of_mapOf hm]
      exact update_self _ _ _
  have hmapped : (c.load room).rs.Mapped :=
    (hs.mapped room hroom).of_same fun _ => ⟨rfl, rfl, rfl⟩
  refine ⟨hs.of_users hroom hroom' ?_ fun user' => ?_, hrow'.trans ?_⟩
  · exact (hmapped.onEvent hrs).of_same fun _ => ⟨rfl, rfl, rfl⟩
  · by_cases hu : user' = user
    · subst hu
      refine .inr ⟨fun m' e he => ?_, hcache.trans hrow'.symm, hrow'.trans hmaps.symm⟩
      by_cases hne : m' = m
      · subst hne
        rwa [← some.inj (hin.symm.trans he)]
      · exact absurd (he.symm.trans (hout m' hne)) (by simp)
    · refine .inl ⟨?_, ?_, ?_⟩
      · rw [hums, humsOthers user' hu]
      · rw [hrows', hrowsOthers user' hu]
      · exact (hothers user' hu).trans ⟨rfl, rfl, rfl⟩
  · rw [cacheState_of_mapOf hm]

/-! ## Runs -/

theorem Agree.step (hs : Agree roomID s) (hc : c.Meets roomID s) (h : c.step s = some s') :
    Agree roomID s' := by
  obtain ⟨rfl, ht, hrec⟩ := hc
  by_cases hm : c.event.type = MRoomMember
  · cases hk : c.event.stateKey with
    | none =>
      obtain ⟨room, rs, -, hrs, -⟩ := Call.step_spec h ht
      unfold RoomServerState.onEvent at hrs
      rw [if_pos ⟨by rw [hm]; rfl, hk⟩] at hrs
      cases hrs
    | some user => exact (hs.step_member h hm hk (hrec user hm hk)).1
  · exact hs.step_other h ht hm

def callOf (drawn : Int64) (ev : Event) : Call :=
  ⟨servicesOf (fun _ => false) drawn (drawn.toInt), false, .empty, newEvent ev 0 0⟩

def bobInvited : List Call :=
  [callOf 2 (memberEvent "$2" "@a:x" "@a:x" "join"),
    callOf 3 (memberEvent "$3" "@a:x" "@b:y" "invite")]

end Ligase.Room.Processor

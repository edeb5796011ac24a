import Ligase.Rcs.Outcomes
import Ligase.Room.Ban

/-!
# New events of direct rooms

`processRoomNewEvent` gives a creation or a member event of a direct room to the friendship server
and processes the events that come back. They may be of two rooms; the state that was fetched before
is that of the room of the input.

* **`directRoom_isolated_iff`**: when each room gets its own events only.
-/

namespace Ligase.Room

open Lib Auth Proc List RoomServerState Option

/-! ## The repository -/

/-- The state as it is cached: the ids of the last events are kept apart from it. -/
def RoomServerState.snapshot (rs : RoomServerState) : RoomServerState :=
  { rs with ext := RoomServerState.init.ext }

structure Repo where
  cache : String → Option RoomServerState
  db : String → Option RoomServerState

def Repo.state (repo : Repo) (roomID : String) : Option RoomServerState :=
  ((repo.cache roomID).or (repo.db roomID)).map RoomServerState.snapshot

def Repo.setRoomState (repo : Repo) (roomID : String) (rs : RoomServerState) : Repo :=
  { repo with cache := Function.update repo.cache roomID (some rs.snapshot) }

section
variable {rs rs' : RoomServerState} {localDomains : List String} {ev : Event} {ext : RoomStateExt}

theorem snapshot_storeMember {user membership : String} :
    ({ rs with ext } : RoomServerState).storeMember ev user membership =
      { rs.storeMember ev user membership with ext } := by
  unfold storeMember
  split_ifs <;> rfl

theorem snapshot_dropMember {user membership pre : String} :
    ({ rs with ext } : RoomServerState).dropMember user membership pre =
      { rs.dropMember user membership pre with ext } := by
  unfold dropMember
  split_ifs <;> rfl

theorem snapshot_onMemberEv {user : String} :
    ({ rs with ext } : RoomServerState).onMemberEv ev user =
      { rs.onMemberEv ev user with ext } := by
  unfold onMemberEv
  split
  · rfl
  · dsimp only
    rw [snapshot_storeMember, snapshot_dropMember]
    rfl

theorem snapshot_onEventUpdate {stateKey : String} :
    ({ rs with ext } : RoomServerState).onEventUpdate ev stateKey =
      { rs.onEventUpdate ev stateKey with ext } := by
  unfold onEventUpdate
  split
  case h_2 => exact snapshot_onMemberEv
  all_goals rfl

theorem onEvent_snapshot :
    (rs.snapshot.onEvent localDomains false ev).map snapshot =
      (rs.onEvent localDomains false ev).map snapshot := by
  have hpre : rs.snapshot.getPreEvent ev = rs.getPreEvent ev := rfl
  unfold onEvent
  rw [hpre]
  split_ifs
  · rfl
  · dsimp only
    split
    · rfl
    · split_ifs
      · simp only [snapshot, snapshot_onEventUpdate, map_some]
      · rfl

end

inductive Use where
  | allowed (roomID : String) (ev : Event)
  | onEvent (roomID : String) (ev : Event)

def Use.roomID : Use → String
  | .allowed roomID _ | .onEvent roomID _ => roomID

def Use.event : Use → Event
  | .allowed _ ev | .onEvent _ ev => ev

structure Fetched where
  roomID : String
  rs : RoomServerState

/-- The repository, the state that the input's processing holds, and the uses so far. -/
structure Processing where
  repo : Repo
  rs : Option Fetched
  uses : List Use

/-! ## Processing -/

inductive ProcessError where
  | message (text : String)
  | notAllowed (err : AuthError)
  | service
  | crash

/-- The domains of the server, and the services that the processing of an event calls. -/
structure EventsProcessor where
  env : Env
  serverName : List String
  domainCfg : List String
  /-- the ids of the last events of a room -/
  ext : String → Option RoomStateExt
  /-- the answer of another server to an invite; the answer of one who takes it is the same event,
  signed -/
  sendInvite : String → Event → Except String Unit
  assignRoomNID : Event → Bool
  /-- the updates before the state is written to the cache -/
  update : Event → Bool
  /-- the writes after it -/
  store : Event → Bool

abbrev Process := Proc Processing ProcessError

def isStateEv (ev : Event) : Bool := ev.type ∈ stateTypes

def IsCreatingDirectRoomEv (ev : Event) : Option Bool :=
  match RoomServerState.decodeCreate ev.content with
  | ((_, isDirect), true) => some (isDirect = some true)
  | (_, false) => none

def check (b : Bool) : Process Unit :=
  .require .service (if b then some () else none)

def use (u : Use) : Process Unit := .write fun s => { s with uses := s.uses ++ [u] }

variable (svc : EventsProcessor)

def getRoomState (roomID : String) : Process Fetched := do
  let rs ← .require (.message "Room not found")
    (← .query fun s => (s.repo.cache roomID).or (s.repo.db roomID))
  .write fun s => { s with repo := s.repo.setRoomState roomID rs }
  let ext ← .require (.message "Room not found") (svc.ext roomID)
  return ⟨roomID, { rs with ext }⟩

/-- An invite of a user of another server by one of this server is sent to that server. -/
def processFedInvite (ev : Event) : Process Unit :=
  match ev.stateKey with
  | none => pure ()
  | some userID =>
    if ev.type ≠ MRoomMember ∨ Client.domainOf ev.sender ∉ svc.serverName then pure ()
    else do
      let content ← .require (.message "content") (ev.content.asMap some [])
      match content.lookup "membership" with
      | some (.string "invite") =>
        let rs ← .require (.message "Room not found") (← .query Processing.rs)
        let (_, inviteeDomain) ← .require
          (.message "invitee Id must be in the form '@localpart:domain'") (cut ':' userID)
        if inviteeDomain ∈ svc.serverName then pure ()
        else do
          let _ ← .require .crash rs.rs.creator
          match svc.sendInvite inviteeDomain ev with
          | .ok () => pure ()
          | .error data => .fail (.message ("SendInvite error: " ++ data))
      | _ => pure ()

/-- `Allowed`, unless the event is trusted. -/
def authorise (trusted : Bool) (f : Fetched) (ev : Event) : Process Unit :=
  if trusted then pure ()
  else do
    use (.allowed f.roomID ev)
    match allowed svc.env ev f.rs.authEvents with
    | .ok () => pure ()
    | .error err => .fail (.notAllowed err)

def onEvent (f : Fetched) (ev : Event) : Process Fetched := do
  use (.onEvent f.roomID ev)
  let rs ← .require .crash (f.rs.onEvent svc.domainCfg false ev)
  return { f with rs }

/-- What follows when an event has been entered: the state is cached under its own room. -/
def finish (f : Fetched) (ev : Event) : Process Unit := do
  .require (.message "event send invalid doamin") ((cut ':' ev.sender).map fun _ => ())
  check (svc.update ev)
  .write fun s =>
    if isStateEv ev then { s with repo := s.repo.setRoomState f.roomID f.rs } else s
  check (svc.store ev)

def processCreate (trusted : Bool) (ev : Event) : Process Unit := do
  check (svc.assignRoomNID ev)
  authorise svc trusted ⟨ev.roomID, .init⟩ ev
  finish svc (← onEvent svc ⟨ev.roomID, .init⟩ ev) ev

/-- Another event. The state that is held is the one that the next event finds. -/
def processOther (trusted : Bool) (f : Fetched) (ev : Event) : Process Unit := do
  authorise svc trusted f ev
  let f ← onEvent svc f ev
  .write fun s => { s with rs := some f }
  finish svc f ev

/-- One event. A creation is ignored if a state is held. -/
def processNew (trusted : Bool) (ev : Event) : Process Unit := do
  match ← .query Processing.rs with
  | none =>
    if ev.type = MRoomCreate then processCreate svc trusted ev
    else .fail (.message "can't find room")
  | some f => if ev.type = MRoomCreate then pure () else processOther svc trusted f ev

def processEvent (trusted : Bool) (ev : Event) : Process Unit := do
  processFedInvite svc ev
  processNew svc trusted ev

/-- Fetch the state of the input's room, and say whether the room is direct. -/
def fetch (ev : Event) : Process Bool :=
  if ev.type = MRoomCreate then
    .require (.message "Failed to check direct room") (IsCreatingDirectRoomEv ev)
  else do
    let f ← getRoomState svc ev.roomID
    .write fun s => { s with rs := some f }
    return f.rs.isDirect

/-- `processRoomNewEvent`, with the answer `rcs` of the friendship server. -/
def processRoomNewEvent (rcs : Event → Option (List Event)) (trusted : Bool) (ev : Event) :
    Process Unit := do
  let isDirect ← fetch svc ev
  if isDirect ∧ (ev.type = MRoomCreate ∨ ev.type = MRoomMember) then
    let evs ← .require (.message "RCS Server error") (rcs ev)
    evs.forM (processEvent svc trusted)
  else processEvent svc trusted ev

/-! ## Isolation -/

/-- What an event does to the state of its own room. A second creation is ignored. -/
def updatedBy (domainCfg : List String) (rs : Option RoomServerState) (ev : Event) :
    Option RoomServerState :=
  match rs with
  | none =>
    if ev.type = MRoomCreate then
      (RoomServerState.init.onEvent domainCfg false ev).map RoomServerState.snapshot
    else none
  | some rs =>
    if ev.type = MRoomCreate then some rs
    else (rs.onEvent domainCfg false ev).map RoomServerState.snapshot

/-- **Isolation**: a state is used for events of its own room only, and afterwards the state of each
room is the earlier one with its own events of `evs`. -/
structure Isolated (repo : Repo) (evs : List Event) (result : Except ProcessError Unit)
    (s : Processing) : Prop where
  uses : ∀ u ∈ s.uses, u.roomID = u.event.roomID
  states : result = .ok () → ∀ roomID, s.repo.state roomID =
    (evs.filter fun ev => ev.roomID = roomID).foldl (updatedBy svc.domainCfg) (repo.state roomID)

def Repo.Direct (repo : Repo) (ev : Event) : Prop :=
  if ev.type = MRoomCreate then IsCreatingDirectRoomEv ev = some true
  else ∃ rs, repo.state ev.roomID = some rs ∧ rs.isDirect = true

/-! ## How far the processing gets -/

/-- An event is no invite of a user of another server, or that server takes it. -/
def Invites (rs : RoomServerState) (ev : Event) : Prop :=
  ∀ userID ∈ ev.stateKey, ev.type = MRoomMember → Client.domainOf ev.sender ∈ svc.serverName →
    ∃ content, ev.content.asMap some [] = some content ∧
      (content.lookup "membership" = some (.string "invite") →
        ∃ id ∈ cut ':' userID, id.2 ∈ svc.serverName ∨
          rs.creator.isSome ∧ svc.sendInvite id.2 ev = .ok ())

/-- The state of a room after an event that passes all the checks. -/
def entered (trusted : Bool) (rs : RoomServerState) (ev : Event) : Option RoomServerState :=
  if trusted ∨ allowed svc.env ev rs.authEvents = .ok () then
    (rs.onEvent svc.domainCfg false ev).filter fun _ =>
      (cut ':' ev.sender).isSome ∧ svc.update ev ∧ svc.store ev
  else none

/-- The state of a room is used for its own events: those up to the first that is not entered. -/
def Stays (trusted : Bool) (roomID : String) : RoomServerState → List Event → Prop
  | _, [] => True
  | rs, ev :: evs => Invites svc rs ev →
      ev.roomID = roomID ∧ ∀ rs' ∈ entered svc trusted rs ev, Stays trusted roomID rs' evs

def Repo.fetched (repo : Repo) (roomID : String) : Option RoomServerState := do
  let rs ← (repo.cache roomID).or (repo.db roomID)
  let ext ← svc.ext roomID
  return { rs with ext }

section
variable {svc : EventsProcessor} {trusted : Bool} {ev : Event} {f : Fetched} {s s' : Processing}
  {repo : Repo} {roomID : String} {rs : RoomServerState} {evs : List Event}

theorem processFedInvite_eq (hs : s.rs = some f) :
    ∃ r, processFedInvite svc ev s = (r, s) ∧ (r = .ok () ↔ Invites svc f.rs ev) := by
  unfold processFedInvite Invites
  cases ev.stateKey with
  | none => exact ⟨.ok (), rfl, by simp⟩
  | some userID =>
    simp only [mem_def, some.injEq, forall_eq']
    by_cases hev : ev.type ≠ MRoomMember ∨ Client.domainOf ev.sender ∉ svc.serverName
    · rw [if_pos hev]
      exact ⟨_, rfl, iff_of_true rfl fun ht hd => absurd hev (by simp [ht, hd])⟩
    rw [if_neg hev]
    rw [not_or, not_not, not_not] at hev
    simp only [hev, true_imp_iff]
    cases ev.content.asMap some [] with
    | none => exact ⟨_, rfl, by simp⟩
    | some content =>
      simp only [some.injEq, exists_eq_left']
      by_cases hm : content.lookup "membership" = some (.string "invite")
      · have : ∀ x : Process Unit, (match content.lookup "membership" with
            | some (.string "invite") => x
            | _ => pure ()) = x := by simp [hm]
        rw [require_bind_apply, this, query_bind_apply, hs, require_bind_apply,
          forall_prop_of_true hm]
        cases cut ':' userID with
        | none => exact ⟨_, rfl, by simp⟩
        | some id =>
          rw [require_bind_apply]
          by_cases hid : id.2 ∈ svc.serverName
          · rw [if_pos hid]
            exact ⟨_, rfl, by simp [hid]⟩
          rw [if_neg hid]
          cases f.rs.creator with
          | none => exact ⟨_, rfl, by simp [hid]⟩
          | some _ =>
            rw [require_bind_apply]
            cases hsent : svc.sendInvite id.2 ev with
            | ok _ => exact ⟨_, rfl, by simp [hsent]⟩
            | error _ => exact ⟨_, rfl, by simp [hsent, hid]⟩
      · have : ∀ x : Process Unit, (match content.lookup "membership" with
            | some (.string "invite") => x
            | _ => pure ()) = pure () := by
          intro x
          split
          · contradiction
          · rfl
        rw [require_bind_apply, this]
        exact ⟨_, rfl, by simp [hm]⟩

variable {x : Process Unit} {k : Fetched → Process Unit}

theorem authorise_bind_eq_ok : (authorise svc trusted f ev >>= fun _ => x) s = (.ok (), s') ↔
    (trusted ∨ allowed svc.env ev f.rs.authEvents = .ok ()) ∧
      x { s with uses := s.uses ++ if trusted then [] else [.allowed f.roomID ev] } =
        (.ok (), s') := by
  cases trusted with
  | true => simp [authorise, Proc.bind_eq_ok, pure_eq_ok]
  | false =>
    unfold authorise
    cases allowed svc.env ev f.rs.authEvents with
    | ok _ => exact (and_iff_right (.inr rfl)).symm
    | error err => exact ⟨nofun, nofun⟩

theorem onEvent_bind_eq_ok : (onEvent svc f ev >>= k) s = (.ok (), s') ↔
    ∃ rs, f.rs.onEvent svc.domainCfg false ev = some rs ∧
      k ⟨f.roomID, rs⟩ { s with uses := s.uses ++ [.onEvent f.roomID ev] } = (.ok (), s') := by
  unfold Room.onEvent
  cases f.rs.onEvent svc.domainCfg false ev with
  | none => exact ⟨nofun, fun ⟨_, hrs, _⟩ => absurd hrs (by simp)⟩
  | some rs =>
    simp only [some.injEq, exists_eq_left']
    rfl

theorem finish_eq_ok : finish svc f ev s = (.ok (), s') ↔
    ((cut ':' ev.sender).isSome ∧ svc.update ev ∧ svc.store ev) ∧
      (if isStateEv ev then { s with repo := s.repo.setRoomState f.roomID f.rs } else s) = s' := by
  unfold finish check
  cases cut ':' ev.sender with
  | none => simp [require_bind_eq_ok]
  | some _ =>
    simp only [require_bind_eq_ok, write_bind_eq_ok]
    cases svc.update ev with
    | false => simp
    | true =>
      cases svc.store ev with
      | false => simp [require, fail_ne_ok]
      | true => simp [require, pure_eq_ok]

theorem entered_eq_some {rs' : RoomServerState} : entered svc trusted rs ev = some rs' ↔
    (trusted ∨ allowed svc.env ev rs.authEvents = .ok ()) ∧
      rs.onEvent svc.domainCfg false ev = some rs' ∧
      (cut ':' ev.sender).isSome ∧ svc.update ev ∧ svc.store ev := by
  unfold entered
  split_ifs with h
  · simp [h, filter_eq_some_iff]
  · simp [h]

/-- The uses of a state for an event that is entered. -/
def usesOf (trusted : Bool) (roomID : String) (ev : Event) : List Use :=
  (if trusted then [] else [.allowed roomID ev]) ++ [.onEvent roomID ev]

theorem enter_eq_ok {g : Fetched → Option Fetched → Option Fetched}
    (hk : ∀ f t, k f t = finish svc f ev { t with rs := g f t.rs }) :
    (do authorise svc trusted f ev; k (← onEvent svc f ev) : Process Unit) s = (.ok (), s') ↔
      ∃ rs, entered svc trusted f.rs ev = some rs ∧
        ⟨if isStateEv ev then s.repo.setRoomState f.roomID rs else s.repo, g ⟨f.roomID, rs⟩ s.rs,
          s.uses ++ usesOf trusted f.roomID ev⟩ = s' := by
  rw [authorise_bind_eq_ok, onEvent_bind_eq_ok]
  simp only [hk, finish_eq_ok, entered_eq_some, usesOf, append_assoc, ← exists_and_left, and_assoc]
  split_ifs <;> rfl

def Processing.Apart (s : Processing) : Prop := ∀ u ∈ s.uses, u.roomID = u.event.roomID

theorem apart_use {u : Use} :
    Processing.Apart { s with uses := s.uses ++ [u] } ↔ s.Apart ∧ u.roomID = u.event.roomID := by
  simp [Processing.Apart, or_imp, forall_and]

theorem apart_finish : (finish svc f ev s).2.Apart ↔ s.Apart := by
  have hs : Ensures (finish svc f ev) s fun t => t.uses = s.uses := by
    refine reads_require.ensures_bind rfl fun _ => reads_require.ensures_bind rfl fun _ => ?_
    have hstore : Reads (check (svc.store ev)) := reads_require
    refine (congrArg Processing.uses (hstore _)).trans ?_
    split_ifs <;> rfl
  rw [Processing.Apart, hs]
  rfl

theorem apart_onEvent (hk : ∀ f s, (k f s).2.Apart ↔ s.Apart) :
    ((onEvent svc f ev >>= k) s).2.Apart ↔ s.Apart ∧ f.roomID = ev.roomID := by
  have hu : Processing.Apart { s with uses := s.uses ++ [.onEvent f.roomID ev] } ↔
    s.Apart ∧ f.roomID = ev.roomID := apart_use
  unfold Room.onEvent
  cases f.rs.onEvent svc.domainCfg false ev with
  | none => exact hu
  | some rs => exact (hk _ _).trans hu

theorem apart_authorise (hx : ∀ s, (x s).2.Apart ↔ s.Apart ∧ f.roomID = ev.roomID) :
    ((authorise svc trusted f ev >>= fun _ => x) s).2.Apart ↔ s.Apart ∧ f.roomID = ev.roomID := by
  cases trusted with
  | true => exact hx s
  | false =>
    have hu : Processing.Apart { s with uses := s.uses ++ [.allowed f.roomID ev] } ↔
      s.Apart ∧ f.roomID = ev.roomID := apart_use
    unfold authorise
    cases allowed svc.env ev f.rs.authEvents with
    | ok _ => exact (hx _).trans ((and_congr_left' hu).trans (by simp))
    | error err => exact hu

theorem getPreEvent_isState : (rs.getPreEvent ev).2 = isStateEv ev := by
  unfold getPreEvent isStateEv
  split
  case h_17 h => simp_all [stateTypes]
  all_goals simp_all [stateTypes]

theorem snapshot_of_not_state {rs' : RoomServerState} (hev : isStateEv ev = false)
    (h : rs.onEvent svc.domainCfg false ev = some rs') : rs'.snapshot = rs.snapshot := by
  rcases onEvent_eq_some h with ⟨-, ext, rfl⟩ | ⟨happ, -⟩
  · rfl
  · exfalso
    have hpre : (rs.getPreEvent ev).2 = false := getPreEvent_isState.trans hev
    unfold applies at happ
    split at happ
    · cases happ
    · simp [checkUpdate, hpre] at happ

theorem state_setRoomState {roomID' : String} : (repo.setRoomState roomID rs).state roomID' =
      if roomID' = roomID then some rs.snapshot else repo.state roomID' := by
  unfold Repo.state Repo.setRoomState
  by_cases h : roomID' = roomID
  · subst h
    simp [snapshot]
  · simp [h]

structure Held (f : Fetched) (s : Processing) : Prop where
  rs : s.rs = some f
  state : s.repo.state f.roomID = some f.rs.snapshot

section
variable (hs : s.rs = some f) (ht : ev.type ≠ MRoomCreate)
include hs ht

theorem processNew_eq : processNew svc trusted ev s = processOther svc trusted f ev s := by
  unfold processNew
  rw [query_bind_apply, hs]
  simp only [if_neg ht]

theorem processEvent_eq_ok : processEvent svc trusted ev s = (.ok (), s') ↔ Invites svc f.rs ev ∧
      ∃ rs, entered svc trusted f.rs ev = some rs ∧
        ⟨if isStateEv ev then s.repo.setRoomState f.roomID rs else s.repo, some ⟨f.roomID, rs⟩,
          s.uses ++ usesOf trusted f.roomID ev⟩ = s' := by
  have hother : processOther svc trusted f ev s = (.ok (), s') ↔ _ :=
    enter_eq_ok (g := fun f _ => some f) fun _ _ => rfl
  obtain ⟨r, h, hr⟩ : ∃ r, processFedInvite svc ev s = (r, s) ∧ _ := processFedInvite_eq hs
  unfold processEvent
  rw [← hother, ← hr]
  cases r with
  | ok _ => rw [bind_of_ok h, processNew_eq hs ht, and_iff_right rfl]
  | error e => rw [bind_eq_error h]; simp

theorem apart_processEvent : (processEvent svc trusted ev s).2.Apart ↔
      s.Apart ∧ (Invites svc f.rs ev → f.roomID = ev.roomID) := by
  obtain ⟨r, h, hr⟩ : ∃ r, processFedInvite svc ev s = (r, s) ∧ _ := processFedInvite_eq hs
  unfold processEvent
  rw [← hr]
  cases r with
  | ok _ =>
    rw [bind_of_ok h, processNew_eq hs ht, forall_prop_of_true rfl]
    exact apart_authorise fun t => apart_onEvent fun f t => apart_finish
  | error e => rw [bind_eq_error h]; simp

end

theorem Held.event (hs : Held f s) (ht : ev.type ≠ MRoomCreate)
    (h : processEvent svc trusted ev s = (.ok (), s')) :
    Invites svc f.rs ev ∧ ∃ rs, entered svc trusted f.rs ev = some rs ∧
      Held ⟨f.roomID, rs⟩ s' ∧ ∀ r ≠ f.roomID, s'.repo.state r = s.repo.state r := by
  obtain ⟨hinv, rs, hrs, rfl⟩ := (processEvent_eq_ok hs.rs ht).mp h
  refine ⟨hinv, rs, hrs, ⟨rfl, ?_⟩, fun r hr => ?_⟩
  · split_ifs with hev
    · rw [state_setRoomState, if_pos rfl]
    · rw [hs.state, snapshot_of_not_state (Bool.eq_false_iff.mpr hev) (entered_eq_some.mp hrs).2.1]
  · split_ifs
    · rw [state_setRoomState, if_neg hr]
    · rfl

theorem Held.apart_iff (hs : Held f s) (ht : ∀ ev ∈ evs, ev.type ≠ MRoomCreate) :
    (evs.forM (processEvent svc trusted) s).2.Apart ↔
      s.Apart ∧ Stays svc trusted f.roomID f.rs evs := by
  induction evs generalizing f s with
  | nil => exact (and_iff_left trivial).symm
  | cons ev evs ih =>
    rw [forall_mem_cons] at ht
    have hev : (processEvent svc trusted ev s).2.Apart ↔ _ := apart_processEvent hs.rs ht.1
    cases h : processEvent svc trusted ev s with
    | mk r t =>
      rw [h] at hev
      cases r with
      | ok _ =>
        obtain ⟨hinv, rs, hrs, ht', -⟩ := hs.event ht.1 h
        have hcons : (ev :: evs).forM (processEvent svc trusted) s =
            evs.forM (processEvent svc trusted) t := bind_of_ok h
        rw [hcons, ih ht' ht.2, hev, Stays]
        simp [hinv, hrs, and_assoc, eq_comm]
      | error e =>
        have hcons : (ev :: evs).forM (processEvent svc trusted) s = (.error e, t) :=
          bind_eq_error h
        rw [hcons, hev, Stays]
        refine and_congr_right fun _ => forall_congr' fun hinv => ?_
        have hnone : entered svc trusted f.rs ev = none := by
          refine eq_none_iff_forall_ne_some.mpr fun rs hrs => ?_
          have := (processEvent_eq_ok hs.rs ht.1).mpr ⟨hinv, rs, hrs, rfl⟩
          rw [h] at this
          cases this
        simp [hnone, eq_comm]

theorem Held.events (hs : Held f s) (ht : ∀ ev ∈ evs, ev.type ≠ MRoomCreate)
    (h : evs.forM (processEvent svc trusted) s = (.ok (), s')) :
    s'.repo.state f.roomID = evs.foldl (updatedBy svc.domainCfg) (s.repo.state f.roomID) ∧
      (∀ r ≠ f.roomID, s'.repo.state r = s.repo.state r) ∧
      (Stays svc trusted f.roomID f.rs evs → ∀ ev ∈ evs, ev.roomID = f.roomID) := by
  induction evs generalizing f s with
  | nil =>
    obtain ⟨-, rfl⟩ := pure_eq_ok.mp h
    exact ⟨rfl, fun _ _ => rfl, fun _ => forall_mem_nil _⟩
  | cons ev evs ih =>
    rw [forall_mem_cons] at ht
    obtain ⟨s₁, h₁, h⟩ := forM_cons_eq_ok.mp h
    obtain ⟨hinv, rs, hrs, hs₁, hothers⟩ := hs.event ht.1 h₁
    obtain ⟨hstate, hothers', hall⟩ := ih hs₁ ht.2 h
    refine ⟨?_, fun r hr => (hothers' r hr).trans (hothers r hr), fun hstays => ?_⟩
    · have hupd : updatedBy svc.domainCfg (some f.rs.snapshot) ev = some rs.snapshot := by
        rw [updatedBy, if_neg ht.1, onEvent_snapshot, (entered_eq_some.mp hrs).2.1]
        rfl
      rw [hstate, foldl_cons, hs.state, hupd, hs₁.state]
    · obtain ⟨hroom, hstays⟩ := hstays hinv
      exact forall_mem_cons.mpr ⟨hroom, hall (hstays rs hrs)⟩

theorem Held.isolated_iff (hs : Held f s) (huses : s.uses = [])
    (hrepo : ∀ r, s.repo.state r = repo.state r) (ht : ∀ ev ∈ evs, ev.type ≠ MRoomCreate) :
    Isolated svc repo evs (evs.forM (processEvent svc trusted) s).1
        (evs.forM (processEvent svc trusted) s).2 ↔ Stays svc trusted f.roomID f.rs evs := by
  have happ : (evs.forM (processEvent svc trusted) s).2.Apart ↔ _ := hs.apart_iff ht
  have hs₀ : s.Apart := fun u hu => absurd (huses ▸ hu) not_mem_nil
  rw [and_iff_right hs₀] at happ
  refine ⟨fun hi => happ.mp hi.uses, fun h => ⟨happ.mpr h, fun hok roomID => ?_⟩⟩
  have hev : evs.forM (processEvent svc trusted) s =
      (.ok (), (evs.forM (processEvent svc trusted) s).2) := by rw [← hok]
  obtain ⟨hstate, hothers, hall⟩ := hs.events ht hev
  have hevs := hall h
  by_cases hr : roomID = f.roomID
  · subst hr
    rw [hstate, hrepo, filter_eq_self.mpr fun ev hev => decide_eq_true (hevs ev hev)]
  · rw [hothers roomID hr, hrepo, filter_eq_nil_iff.mpr]
    · rfl
    · intro ev hev hc
      exact hr ((of_decide_eq_true hc).symm.trans (hevs ev hev))

theorem fetch_of_state (ht : ev.type ≠ MRoomCreate) (hst : repo.state ev.roomID = some rs) :
    match repo.fetched svc ev.roomID with
    | none => ∃ e s, fetch svc ev ⟨repo, none, []⟩ = (.error e, s) ∧ s.uses = []
    | some rs' => ∃ s, fetch svc ev ⟨repo, none, []⟩ = (.ok rs.isDirect, s) ∧
        Held ⟨ev.roomID, rs'⟩ s ∧ s.uses = [] ∧ ∀ r, s.repo.state r = repo.state r := by
  obtain ⟨rs₀, hrs₀, rfl⟩ := map_eq_some_iff.mp hst
  have hrepo : ∀ r, (repo.setRoomState ev.roomID rs₀).state r = repo.state r := by
    intro r
    rw [state_setRoomState]
    split_ifs with hr
    · rw [hr, hst]
    · rfl
  unfold Repo.fetched fetch getRoomState
  rw [if_neg ht, hrs₀]
  cases svc.ext ev.roomID with
  | none =>
    refine ⟨.message "Room not found", ⟨repo.setRoomState ev.roomID rs₀, none, []⟩, ?_, rfl⟩
    refine bind_eq_error ?_
    show (require (.message "Room not found") ((repo.cache ev.roomID).or (repo.db ev.roomID)) >>=
      fun rs => _ : Process Fetched) _ = _
    rw [hrs₀]
    rfl
  | some ext =>
    refine ⟨_, Proc.bind_eq_ok.mpr ⟨⟨ev.roomID, { rs₀ with ext }⟩, _,
      require_bind_eq_ok.mpr ⟨rs₀, hrs₀, rfl⟩, rfl⟩, ⟨rfl, ?_⟩, rfl, hrepo⟩
    exact (hrepo ev.roomID).trans hst

theorem processCreate_of_create (ht : ev.type = MRoomCreate) (hs : s.rs = none) :
    processEvent svc trusted ev s = processCreate svc trusted ev s := by
  have hinv : processFedInvite svc ev s = (.ok (), s) := by
    unfold processFedInvite
    have hne : ev.type ≠ MRoomMember := by rw [ht]; decide
    cases ev.stateKey with
    | none => rfl
    | some _ =>
      dsimp only
      rw [if_pos (.inl hne)]
      rfl
  unfold processEvent processNew
  rw [bind_of_ok hinv, query_bind_apply, hs]
  simp only [if_pos ht]

theorem processCreate_eq_ok (ht : ev.type = MRoomCreate) :
    processCreate svc trusted ev ⟨repo, none, []⟩ = (.ok (), s) ↔ svc.assignRoomNID ev ∧
      ∃ rs, entered svc trusted .init ev = some rs ∧
        ⟨repo.setRoomState ev.roomID rs, none, usesOf trusted ev.roomID ev⟩ = s := by
  have h : (do
      authorise svc trusted ⟨ev.roomID, .init⟩ ev
      finish svc (← onEvent svc ⟨ev.roomID, .init⟩ ev) ev : Process Unit) ⟨repo, none, []⟩ =
        (.ok (), s) ↔ _ :=
    enter_eq_ok (g := fun _ o => o) fun _ _ => rfl
  have hstate : isStateEv ev = true := by rw [isStateEv, ht]; rfl
  simp only [if_pos hstate] at h
  unfold processCreate check
  cases svc.assignRoomNID ev with
  | false => exact ⟨nofun, fun h => absurd h.1 (by simp)⟩
  | true => exact h.trans (and_iff_right rfl).symm

theorem create_isolated_iff (ht : ev.type = MRoomCreate) {result : Except ProcessError Unit}
    (hout : processCreate svc trusted ev ⟨repo, none, []⟩ = (result, s)) :
    Isolated svc repo [ev] result s ↔ (svc.assignRoomNID ev → ∀ rs ∈ entered svc trusted .init ev,
      repo.state ev.roomID = none ∨ repo.state ev.roomID = some rs.snapshot) := by
  have huses : s.Apart := by
    have h : (processCreate svc trusted ev ⟨repo, none, []⟩).2.Apart := by
      unfold processCreate check
      cases svc.assignRoomNID ev with
      | false => exact forall_mem_nil _
      | true =>
        exact (apart_authorise (f := ⟨ev.roomID, .init⟩)
          fun t => apart_onEvent fun f t => apart_finish).mpr ⟨forall_mem_nil _, rfl⟩
    rwa [hout] at h
  have hfilter : ∀ r, ([ev].filter fun e => e.roomID = r).foldl (updatedBy svc.domainCfg)
      (repo.state r) =
        if r = ev.roomID then updatedBy svc.domainCfg (repo.state r) ev else repo.state r := by
    intro r
    by_cases hr : r = ev.roomID
    · simp [hr]
    · simp [hr, Ne.symm hr]
  have hinit : ∀ rs ∈ entered svc trusted .init ev,
      updatedBy svc.domainCfg none ev = some rs.snapshot := by
    intro rs hrs
    rw [updatedBy, if_pos ht, (entered_eq_some.mp hrs).2.1]
    rfl
  have hown : ∀ rs, updatedBy svc.domainCfg (some rs) ev = some rs := fun rs => if_pos ht
  constructor
  · intro hi hassign rs hrs
    have h := hout.symm.trans ((processCreate_eq_ok ht).mpr ⟨hassign, rs, hrs, rfl⟩)
    obtain ⟨rfl, rfl⟩ := Prod.mk.inj h
    have hroom := hi.states rfl ev.roomID
    rw [hfilter, if_pos rfl, state_setRoomState, if_pos rfl] at hroom
    cases hst : repo.state ev.roomID with
    | none => exact .inl rfl
    | some rs' => exact .inr (by rw [hroom, hst, hown])
  · intro h
    refine ⟨huses, fun hres r => ?_⟩
    obtain ⟨hassign, rs, hrs, rfl⟩ := (processCreate_eq_ok ht).mp (hres ▸ hout)
    rw [hfilter, state_setRoomState]
    split_ifs with hr
    · subst hr
      rcases h hassign rs hrs with hnone | hsome
      · rw [hnone, hinit rs hrs]
      · rw [hsome, hown]
    · rfl

theorem processRoomNewEvent_of_fetch {p : Rcs.Processor} {st st' : Rcs.Store}
    (hf : fetch svc ev s = (.ok true, s')) (hrcs : Rcs.handleEvent p ev st = (.ok evs, st')) :
    processRoomNewEvent svc (fun _ => some evs) trusted ev s =
      evs.forM (processEvent svc trusted) s' := by
  unfold processRoomNewEvent
  rw [bind_of_ok hf]
  by_cases ht : ev.type = MRoomCreate ∨ ev.type = MRoomMember
  · rw [if_pos ⟨rfl, ht⟩]
    rfl
  · rw [if_neg fun h => ht h.2]
    rw [not_or] at ht
    rw [Rcs.handleEvent, if_neg ht.1, if_neg ht.2] at hrcs
    obtain ⟨rfl, -⟩ := pure_eq_ok.mp hrcs
    exact forM_singleton.symm

/-- **Isolation of direct rooms**: every room has its own events, and no state has seen events of
another room, if and only if the events are of the room of the input, up to the first that is not
entered, and a room that is made had no state, or the one that it has now. -/
theorem directRoom_isolated_iff {p : Rcs.Processor} {st st' : Rcs.Store} {evs : List Event}
    {result : Except ProcessError Unit} (hd : repo.Direct ev)
    (hrcs : Rcs.handleEvent p ev st = (.ok evs, st'))
    (hout : processRoomNewEvent svc (fun _ => some evs) trusted ev ⟨repo, none, []⟩ = (result, s)) :
    Isolated svc repo evs result s ↔
      if ev.type = MRoomCreate then svc.assignRoomNID ev → ∀ rs ∈ entered svc trusted .init ev,
        repo.state ev.roomID = none ∨ repo.state ev.roomID = some rs.snapshot
      else ∀ rs ∈ repo.fetched svc ev.roomID, Stays svc trusted ev.roomID rs evs := by
  by_cases ht : ev.type = MRoomCreate
  · rw [Repo.Direct, if_pos ht] at hd
    rw [if_pos ht]
    obtain rfl : evs = [ev] := by
      rw [Rcs.handleEvent, if_pos ht] at hrcs
      obtain ⟨u, -, h⟩ := commit_bind_eq_ok.mp hrcs
      exact (pure_eq_ok.mp h).1.symm
    have hf : fetch svc ev ⟨repo, none, []⟩ = (.ok true, ⟨repo, none, []⟩) := by
      rw [fetch, if_pos ht, hd]
      rfl
    rw [processRoomNewEvent_of_fetch hf hrcs, forM_singleton] at hout
    exact create_isolated_iff ht ((processCreate_of_create ht rfl).symm.trans hout)
  · rw [Repo.Direct, if_neg ht] at hd
    rw [if_neg ht]
    obtain ⟨rs, hst, hd⟩ := hd
    have hfetch : match repo.fetched svc ev.roomID with
      | none => _
      | some rs' => _ := fetch_of_state ht hst
    cases hf : repo.fetched svc ev.roomID with
    | none =>
      rw [hf] at hfetch
      obtain ⟨e, s₁, hfetch, huses⟩ := hfetch
      obtain ⟨rfl, rfl⟩ := Prod.mk.inj (hout.symm.trans (bind_eq_error hfetch))
      have hi : Isolated svc repo evs (.error e) s := ⟨huses ▸ forall_mem_nil _, by simp⟩
      exact iff_of_true hi (by simp)
    | some rs' =>
      rw [hf] at hfetch
      obtain ⟨s₁, hfetch, hheld, huses, hrepo⟩ := hfetch
      rw [hd] at hfetch
      rw [processRoomNewEvent_of_fetch hfetch hrcs] at hout
      have h : Isolated svc repo evs (evs.forM (processEvent svc trusted) s₁).1 _ ↔ _ :=
        hheld.isolated_iff huses hrepo (Rcs.handleEvent_ne_create ht hrcs)
      rw [hout] at h
      simpa using h

end

/-! ## Two users who invite each other -/

def directCreate (id roomID creator : String) : Event :=
  ⟨id, roomID, creator, MRoomCreate, some "",
    .obj [("creator", .string creator), ("is_direct", .bool true)], 0, "", ""⟩

def roomOf (evs : List Event) : RoomServerState :=
  evs.foldl (fun rs ev => (rs.onEvent ["x"] true ev).getD rs) .init

/-- Alice and Bob have a direct room each, and Bob has invited Alice to the one of Bob. -/
def aliceDirect : RoomServerState :=
  roomOf [directCreate "$1:x" "!r:x" "@a:x", Rcs.memberEv "$2:x" "!r:x" "@a:x" "@a:x" "join"]

def bobDirect : RoomServerState :=
  roomOf [directCreate "$3:x" "!s:x" "@b:x", Rcs.memberEv "$4:x" "!s:x" "@b:x" "@b:x" "join",
    Rcs.memberEv "$5:x" "!s:x" "@b:x" "@a:x" "invite"]

def twoRooms : Repo where
  cache roomID :=
    if roomID = "!r:x" then some aliceDirect else if roomID = "!s:x" then some bobDirect else none
  db _ := none

def aliceRow : Rcs.RCSFriendship :=
  ⟨"$1:x", "!r:x", "@a:x", "", .join, .init, false, false, "a", "", true, false, "x", "", "$2:x"⟩

def bobRow : Rcs.RCSFriendship :=
  ⟨"@b:x@a:x", "!s:x", "@b:x", "@a:x", .join, .invite, false, false, "b", "a", true, false, "x",
    "x", "$5:x"⟩

def processorX : EventsProcessor where
  env := ⟨fun _ => false, ["x"], some, fun _ _ _ _ => false⟩
  serverName := ["x"]
  domainCfg := ["x"]
  ext _ := some RoomServerState.init.ext
  sendInvite _ _ := .ok ()
  assignRoomNID _ := true
  update _ := true
  store _ := true

def aliceInvites : Event := Rcs.memberEv "$6:x" "!r:x" "@a:x" "@b:x" "invite"

/-- What the room server does with Alice's invite when the given events come back for it. -/
def afterInvite (trusted : Bool) (evs : List Event) : Except ProcessError Unit × Processing :=
  processRoomNewEvent processorX (fun _ => some evs) trusted aliceInvites ⟨twoRooms, none, []⟩

theorem direct_aliceInvites : twoRooms.Direct aliceInvites := by
  exact ⟨_, rfl, rfl⟩

theorem directRoom_isolated_iff_invite :
    (Rcs.handleEvent ⟨["x"], fun i => i + 7⟩ aliceInvites ⟨[aliceRow], nodup_singleton _⟩).1 =
        .ok [aliceInvites] ∧
      Isolated processorX twoRooms [aliceInvites] (afterInvite false [aliceInvites]).1
        (afterInvite false [aliceInvites]).2 := by
  have hout : processRoomNewEvent processorX (fun _ => some [aliceInvites]) false aliceInvites
      ⟨twoRooms, none, []⟩ =
        ((afterInvite false [aliceInvites]).1, (afterInvite false [aliceInvites]).2) := rfl
  refine ⟨rfl, (directRoom_isolated_iff direct_aliceInvites (show Rcs.handleEvent
    ⟨["x"], fun i => i + 7⟩ aliceInvites ⟨[aliceRow], nodup_singleton _⟩ =
      (.ok [aliceInvites], _) from rfl) hout).mpr ?_⟩
  rintro rs - -
  exact ⟨rfl, fun _ _ => trivial⟩

/-- The events that Alice's invite leads to when Bob has invited Alice already. -/
def aliceMoves : List Event :=
  [⟨"$7:x", "!r:x", "@a:x", MRoomMember, some "@a:x", Client.memberContent "leave" ("", "") "", 0,
      "", ""⟩,
    ⟨"$8:x", "!s:x", "@a:x", MRoomMember, some "@a:x", Client.memberContent "join" ("", "") "", 0,
      "", ""⟩]

/-- Alice invites Bob, who has invited Alice already: Alice leaves the own room and joins that of
Bob, but the join is entered in the state of the own room. -/
theorem join_in_other_room :
    twoRooms.Direct aliceInvites ∧
      (Rcs.handleEvent ⟨["x"], fun i => i + 7⟩ aliceInvites ⟨[aliceRow, bobRow], by decide⟩).1 =
        .ok aliceMoves ∧
      ((afterInvite true aliceMoves).1 = .ok () ∧
        ((afterInvite true aliceMoves).2.uses.map fun u => (u.roomID, u.event.roomID)) =
          [("!r:x", "!r:x"), ("!r:x", "!s:x")] ∧
        (((afterInvite true aliceMoves).2.repo.state "!r:x").bind (·.join "@a:x")).map
          Event.roomID = some "!s:x" ∧
        ((afterInvite true aliceMoves).2.repo.state "!s:x").map (·.join "@a:x") = some none) ∧
      (afterInvite false aliceMoves).1 = .error (.notAllowed (.notAllowed
        "create event has different roomID: %q != %q" [.str "!s:x", .str "!r:x"])) ∧
      ((afterInvite false aliceMoves).2.uses.map fun u => (u.roomID, u.event.roomID)) =
        [("!r:x", "!r:x"), ("!r:x", "!r:x"), ("!r:x", "!s:x")] :=
  ⟨direct_aliceInvites, rfl, ⟨rfl, rfl, rfl, rfl⟩, rfl, rfl⟩

end Ligase.Room

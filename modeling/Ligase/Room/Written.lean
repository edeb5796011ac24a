import Ligase.Room.Process

/-!
# What the processing of an event writes

Each part of `processNew` writes to one store and reads no other.

* **`processNew_ok`**: the stores after an event that is processed.
-/

namespace Ligase.Room.Processor

open Lib Auth Proc RoomServerState Function

variable {svc : Services} {trusted : Bool} {room : Option LoadedRoom} {r r' : LoadedRoom}
  {pre : Option Event} {event event' : NewEvent} {s s' : Stores} {roomID : String}

/-! ## Checks -/

theorem reads_attempt {σ : Type} {ext : ExtServices} {c : StoreCall} :
    Reads (attempt ext c : Proc σ ProcessFailure Unit) := by
  unfold attempt
  split_ifs
  · exact reads_fail
  · exact reads_pure

theorem reads_findRoom : Reads (findRoom svc room event) := by
  unfold findRoom
  split
  · split_ifs
    · exact reads_attempt.bind fun _ => reads_pure
    · exact reads_fail
  · split_ifs
    · exact reads_pure
    · exact reads_fail
    · exact reads_pure

theorem reads_authorise : Reads (authorise svc trusted event r) := by
  unfold authorise
  split_ifs
  · exact reads_pure
  · split
    · exact reads_pure
    · exact reads_fail

def stateFor (room : Option LoadedRoom) (event : NewEvent) : LoadedRoom :=
  room.getD (.new event.roomID)

theorem findRoom_ok (h : findRoom svc room event s = (.ok (some r), s')) :
    r = stateFor room event ∧ s' = s := by
  refine ⟨?_, reads_findRoom.eq h⟩
  unfold findRoom at h
  cases room with
  | none =>
    dsimp only at h
    split_ifs at h
    · obtain ⟨-, h⟩ := attempt_bind_eq_ok.mp h
      exact (Option.some.inj (pure_eq_ok.mp h).1).symm
    · exact absurd h fail_ne_ok
  | some room =>
    split_ifs at h
    · cases (pure_eq_ok.mp h).1
    · exact absurd h fail_ne_ok
    · exact (Option.some.inj (pure_eq_ok.mp h).1).symm

theorem findRoom_ignored (h : findRoom svc room event s = (.ok none, s')) :
    room.isSome = true ∧ event.type = MRoomCreate := by
  unfold findRoom at h
  cases room with
  | none =>
    dsimp only at h
    split_ifs at h
    · obtain ⟨-, h⟩ := attempt_bind_eq_ok.mp h
      cases (pure_eq_ok.mp h).1
    · exact absurd h fail_ne_ok
  | some room =>
    split_ifs at h with ht
    · exact ⟨rfl, ht⟩
    · exact absurd h fail_ne_ok
    · cases (pure_eq_ok.mp h).1

/-! ## The first half -/

theorem umsOnEvent_frame {ev : Event} :
    umsOnEvent svc ev pre s = { s with ums := (umsOnEvent svc ev pre s).ums } := by
  unfold umsOnEvent setUserRoomMemberShip initCacheIsNotExists
  split_ifs <;> rfl

theorem onExt_ok {α : Type} {x : Proc (Option Hash) ProcessFailure α} {a : α}
    (h : onExt roomID x s = (.ok a, s')) :
    ∃ o, x (s.ext roomID) = (.ok a, o) ∧ s' = { s with ext := update s.ext roomID o } := by
  unfold onExt at h
  cases hr : x (s.ext roomID) with
  | mk res o =>
    rw [hr] at h
    cases h
    exact ⟨o, rfl, rfl⟩

theorem addState_ok (h : addState svc r event s = (.ok r', s')) :
    r' = { r with snapId := if isStateEv event.toEvent then svc.snapId else r.snapId } ∧
      s' = s := by
  unfold addState at h
  split_ifs at h with hstate
  · obtain ⟨-, h⟩ := attempt_bind_eq_ok.mp h
    obtain ⟨rfl, rfl⟩ := pure_eq_ok.mp h
    exact ⟨by rw [if_pos hstate], rfl⟩
  · obtain ⟨rfl, rfl⟩ := pure_eq_ok.mp h
    exact ⟨by rw [if_neg hstate], rfl⟩

theorem moveOn_ok (h : moveOn svc r event s = (.ok (event', r'), s')) :
    ∃ ext o, updateRoomStateExt svc.toExtServices true r.ext event (s.ext event.roomID) =
        (.ok (event', ext), o) ∧
      r' = { r.setExt ext with
        snapId := if isStateEv event.toEvent then svc.snapId else r.snapId } ∧
      s' = { s with ext := update s.ext event.roomID o } := by
  obtain ⟨⟨event₁, ext⟩, s₁, hext, h⟩ := bind_eq_ok.mp h
  obtain ⟨r₁, s₂, hadd, h⟩ := bind_eq_ok.mp h
  obtain ⟨he, rfl⟩ := pure_eq_ok.mp h
  obtain ⟨rfl, rfl⟩ := Prod.mk.inj he
  obtain ⟨o, hupdate, rfl⟩ := onExt_ok hext
  obtain ⟨hr, rfl⟩ := addState_ok hadd
  obtain ⟨hevent, -⟩ := yields_updateRoomStateExt _ _ _ hupdate
  rw [hevent] at hr
  exact ⟨ext, o, hupdate, hr, rfl⟩

theorem enter_ok (h : enter svc r pre event s = (.ok (event', r'), s')) :
    ∃ rs ext o, r.rs.onEvent svc.domainCfg false event.toEvent = some rs ∧
      updateRoomStateExt svc.toExtServices true ({ r with rs } : LoadedRoom).ext event
        (s.ext event.roomID) = (.ok (event', ext), o) ∧
      r' = { ({ r with rs } : LoadedRoom).setExt ext with
        snapId := if isStateEv event.toEvent then svc.snapId else r.snapId } ∧
      s' = { s with
        ums := (umsOnEvent svc event.toEvent pre s).ums
        ext := update s.ext event.roomID o } := by
  obtain ⟨rs, hrs, h⟩ := require_bind_eq_ok.mp h
  rw [write_bind_eq_ok, umsOnEvent_frame] at h
  obtain ⟨ext, o, hext, hr, hs⟩ := moveOn_ok h
  exact ⟨rs, ext, o, hrs, hext, hr, hs⟩

/-! ## The rows -/

def rowCalls : List StoreCall := [.inviteInsert, .inviteRetire, .membershipSet, .membershipForget]

theorem updateMemberShip_induct {motive : Proc Stores ProcessFailure Unit → Prop}
    (hpure : motive (pure ()))
    (hattempt : ∀ c x, c ∈ rowCalls → motive x →
      motive (attempt svc.toExtServices c >>= fun _ => x))
    (hwrite : ∀ user g, motive (.write fun s => s.setRows user g))
    (hbind : ∀ x y, motive x → motive y → motive (x >>= fun _ => y)) :
    motive (updateMemberShip svc roomID event pre) := by
  have hset : ∀ user old m, motive (setRow svc roomID event user old m) := fun user old m =>
    hattempt _ _ (by decide) (hwrite _ _)
  have hleave : ∀ user old, motive (setToLeave svc roomID event user old) := fun user old =>
    hattempt _ _ (by decide) (hset _ _ _)
  unfold updateMemberShip
  dsimp only
  split_ifs
  · split
    · exact hattempt _ _ (by decide) (hset _ _ _)
    · unfold setToJoin
      split_ifs
      · exact hattempt _ _ (by decide) (hset _ _ _)
      · exact hset _ _ _
    · exact hleave _ _
    · exact hleave _ _
    · exact hleave _ _
    · exact hbind _ _ (hleave _ _) (hattempt _ _ (by decide) (hwrite _ _))
    · exact hpure
  · exact hpure

theorem keeps_updateMemberShip : Keeps (fun s : Stores => { s with rows := fun _ => [] })
      (updateMemberShip svc roomID event pre) := by
  refine updateMemberShip_induct keeps_pure (fun c x _ hx => ?_)
    (fun _ _ => keeps_write fun _ => rfl) ?_
  · exact reads_attempt.keeps.bind fun _ => hx
  · exact fun x y hx hy => hx.bind fun _ => hy

theorem updateMemberShip_frame {res : Except ProcessFailure Unit}
    (h : updateMemberShip svc roomID event pre s = (res, s')) :
    s' = { s with rows := s'.rows } := by
  have hkept := keeps_updateMemberShip.eq h
  exact congrArg (fun t : Stores => { t with rows := s'.rows }) hkept

theorem depends_attempt {σ γ : Type} {f : σ → γ} {ext : ExtServices} {c : StoreCall} :
    Depends f (attempt ext c : Proc σ ProcessFailure Unit) := by
  unfold attempt
  split_ifs
  · exact depends_fail
  · exact depends_pure

theorem depends_updateMemberShip : Depends Stores.rows (updateMemberShip svc roomID event pre) := by
  refine updateMemberShip_induct depends_pure (fun _ _ _ hx => depends_attempt.bind fun _ => hx)
    (fun user g => depends_write fun s t h => ?_) fun _ _ hx hy => hx.bind fun _ => hy
  show update s.rows user (g (s.rows user)) = update t.rows user (g (t.rows user))
  rw [h]

theorem updateMemberShip_congr (he : event'.toEvent = event.toEvent)
    (hn : event'.eventNID = event.eventNID) (hrows : s'.rows = s.rows) :
    (updateMemberShip svc roomID event' pre s').1 = (updateMemberShip svc roomID event pre s).1 ∧
      (updateMemberShip svc roomID event' pre s').2.rows =
        (updateMemberShip svc roomID event pre s).2.rows := by
  cases event
  cases event'
  cases he
  cases hn
  exact depends_updateMemberShip s' s hrows

/-! ## The second half -/

def flushedStates (svc : Services) (r : LoadedRoom) (ev : Event)
    (states : String → Option CachedRoom) : String → Option CachedRoom :=
  if isStateEv ev = true ∧ svc.fails .flush = false then
    update states r.roomID (some r.cached)
  else states

/-- The stored events with one more, unless its id is known. -/
def addEvent (e : StoredEvent) (events : List StoredEvent) : List StoredEvent :=
  if ∃ e' ∈ events, e'.eventID = e.eventID then events else events ++ [e]

def storedEvent (roomID : String) (ext : RoomStateExt) (ev : Event) : StoredEvent :=
  ⟨ev.eventID, roomID, ev.type, getRefs ext ev.type⟩

theorem flushed_eq : flushed svc r event s =
    { s with states := flushedStates svc r event.toEvent s.states } := by
  unfold flushed flushedStates
  split_ifs <;> rfl

theorem store_ok (h : store svc r event s = (.ok (), s')) : s' = { s with
      events := addEvent (storedEvent r.roomID r.rs.ext event.toEvent) s.events } := by
  obtain ⟨-, h⟩ := attempt_bind_eq_ok.mp h
  obtain ⟨_, s₁, hstore, h⟩ := bind_eq_ok.mp h
  obtain ⟨-, h⟩ := attempt_bind_eq_ok.mp h
  obtain ⟨-, rfl⟩ := attempt_eq_ok.mp h
  obtain ⟨-, hstore⟩ := attempt_bind_eq_ok.mp hstore
  obtain ⟨-, rfl⟩ := attempt_eq_ok.mp (write_bind_eq_ok.mp hstore)
  unfold addEvent storedEvent
  split_ifs <;> rfl

theorem postProcessNew_ok (h : postProcessNew svc r pre event s = (.ok (), s')) :
    (updateMemberShip svc r.roomID event pre s).1 = .ok () ∧ s' = { s with
        rows := (updateMemberShip svc r.roomID event pre s).2.rows
        states := flushedStates svc r event.toEvent s.states
        events := addEvent (storedEvent r.roomID r.rs.ext event.toEvent) s.events } := by
  obtain ⟨_, s₁, hrows, h⟩ := bind_eq_ok.mp h
  rw [write_bind_eq_ok, flushed_eq] at h
  rw [hrows]
  refine ⟨rfl, ?_⟩
  rw [store_ok h, updateMemberShip_frame hrows]

/-! ## Processing -/

/-- The records of the memberships: the cache, the cached room states and the rows. -/
def Stores.records (s : Stores) :
    (String → Option Memberships) × (String → Option CachedRoom) ×
      (String → List (String × Row)) :=
  (s.ums, s.states, s.rows)

def flushedRoom (svc : Services) (room : Option LoadedRoom) (event : NewEvent) :
    Option CachedRoom :=
  ((stateFor room event).rs.onEvent svc.domainCfg false event.toEvent).map fun rs =>
    ⟨rs.snapshot, svc.snapId, (stateFor room event).version + 1⟩

theorem flushedStates_enter {rs : RoomServerState} {ext : ExtRecord}
    (hrs : (stateFor room event).rs.onEvent svc.domainCfg false event.toEvent = some rs)
    (hr : r' = { ({ stateFor room event with rs } : LoadedRoom).setExt ext with
      snapId := if isStateEv event.toEvent then svc.snapId else (stateFor room event).snapId }) :
    flushedStates svc r' event.toEvent s.states =
      if isStateEv event.toEvent = true ∧ svc.fails .flush = false then
        update s.states (stateFor room event).roomID (flushedRoom svc room event)
      else s.states := by
  unfold flushedStates
  split_ifs with hstate
  · rw [flushedRoom, hrs, hr, if_pos hstate.1]
    rfl
  · rfl

theorem processNew_ok (h : processNew svc trusted room event s = (.ok (), s')) :
    (room.isSome = true ∧ event.type = MRoomCreate ∧ s' = s) ∨
    ∃ rs event' ext o,
      (stateFor room event).rs.onEvent svc.domainCfg false event.toEvent = some rs ∧
      updateRoomStateExt svc.toExtServices true ({ stateFor room event with rs } : LoadedRoom).ext
        event (s.ext event.roomID) = (.ok (event', ext), o) ∧
      (updateMemberShip svc (stateFor room event).roomID event (preEvent room event) s).1 =
        .ok () ∧
      s' =
        { states :=
            if isStateEv event.toEvent = true ∧ svc.fails .flush = false then
              update s.states (stateFor room event).roomID (flushedRoom svc room event)
            else s.states
          ext := update s.ext event.roomID o
          ums := (umsOnEvent svc event.toEvent (preEvent room event) s).ums
          rows := (updateMemberShip svc (stateFor room event).roomID event (preEvent room event)
            s).2.rows
          events := addEvent (storedEvent (stateFor room event).roomID ext.toRoomStateExt
            event.toEvent) s.events } := by
  obtain ⟨o, s₁, hfind, hin⟩ := bind_eq_ok.mp h
  cases o with
  | none =>
    obtain ⟨hroom, ht⟩ := findRoom_ignored hfind
    obtain ⟨-, rfl⟩ := pure_eq_ok.mp hin
    exact .inl ⟨hroom, ht, reads_findRoom.eq hfind⟩
  | some r =>
    refine .inr ?_
    obtain ⟨rfl, rfl⟩ := findRoom_ok hfind
    obtain ⟨_, s₂, hauth, hrest⟩ := bind_eq_ok.mp hin
    obtain rfl := reads_authorise.eq hauth
    obtain ⟨⟨event', r'⟩, s₃, henter, hpost⟩ := bind_eq_ok.mp hrest
    obtain ⟨rs, ext, o, hrs, hext, hr, hs₃⟩ := enter_ok henter
    obtain ⟨he, hn⟩ := yields_updateRoomStateExt _ _ _ hext
    obtain ⟨hok, rfl⟩ := postProcessNew_ok hpost
    have hid : r'.roomID = (stateFor room event).roomID := by rw [hr]; rfl
    have hkept : s₃.rows = s₂.rows := by rw [hs₃]
    obtain ⟨hres, hrows⟩ := updateMemberShip_congr he hn hkept
    rw [hid] at hok ⊢
    refine ⟨rs, event', ext, o, hrs, hext, hres.symm.trans hok, ?_⟩
    rw [hrows, he, flushedStates_enter hrs hr, hs₃, hr]
    rfl

end Ligase.Room.Processor

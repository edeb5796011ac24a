import Ligase.Room.Written

/-!
# Events that fail

`processNew` writes before its last call that may fail, and does not undo what it has written.

* **`failed_unchanged_iff`**: when the records are the same after an error.
-/

namespace Ligase.Room.Processor

open Lib Auth Proc RoomServerState

/-! ## Stages -/

inductive Stage where
  | checks
  | ext
  | rows
  | store
  deriving DecidableEq

/-- The stage of a call whose failure is an error; the other failures are logged. -/
def StoreCall.stage : StoreCall → Option Stage
  | .assignRoomNID => some .checks
  | .lock | .roomInfo | .roomDomains | .extUpdate | .addState => some .ext
  | .inviteInsert | .inviteRetire | .membershipSet | .membershipForget => some .rows
  | .setLatestEvents | .storeEvent | .storeJSON | .writeOutput | .saveDomains => some .store
  | .umsExists | .umsLoad | .umsFill | .umsSet | .extRead | .extFill | .flush => none

def stageOf : ProcessFailure → Option Stage
  | .message text => some (if text = "can't find room" then .checks else .ext)
  | .notAllowed _ => some .checks
  | .unavailable c => StoreCall.stage c
  | .crash | .drawing => none

variable {svc : Services} {trusted : Bool} {room : Option LoadedRoom} {r r' : LoadedRoom}
  {pre : Option Event} {event event' : NewEvent} {s s' : Stores} {err : ProcessFailure}

/-! ## The errors of the parts -/

theorem failsWith_attempt {σ : Type} {ext : ExtServices} {c : StoreCall}
    {E : ProcessFailure → Prop} (h : E (.unavailable c)) :
    FailsWith (attempt ext c : Proc σ ProcessFailure Unit) E := by
  unfold attempt
  split_ifs
  · exact failsWith_fail h
  · exact failsWith_pure

theorem failsWith_findRoom : FailsWith (findRoom svc room event) fun err =>
    stageOf err = some .checks ∨ stageOf err = none := by
  unfold findRoom
  split
  · split_ifs
    · exact (failsWith_attempt (.inl rfl)).bind fun _ => failsWith_pure
    · exact failsWith_fail (.inl rfl)
  · split_ifs
    · exact failsWith_pure
    · exact failsWith_fail (.inr rfl)
    · exact failsWith_pure

theorem failsWith_authorise : FailsWith (authorise svc trusted event r) fun err =>
    stageOf err = some .checks := by
  unfold authorise
  split_ifs
  · exact failsWith_pure
  · split
    · exact failsWith_pure
    · exact failsWith_fail rfl

theorem failsWith_updateRoomStateExt {ext : ExtServices} {all : Bool} {rsExt : ExtRecord} :
    FailsWith (updateRoomStateExt ext all rsExt event) fun err =>
      stageOf err = some .ext ∨ stageOf err = none := by
  refine (failsWith_require (.inl rfl)).bind fun p => ?_
  refine (failsWith_attempt (.inl rfl)).bind fun _ => ?_
  refine FailsWith.bind ?_ fun ext => ?_
  · refine FailsWith.bind (fun _ _ _ => nofun) fun o => ?_
    split
    · exact failsWith_pure
    · refine FailsWith.bind ?_ fun _ => failsWith_write.bind fun _ => failsWith_pure
      exact (failsWith_attempt (.inl rfl)).bind fun _ =>
        (failsWith_attempt (.inl rfl)).bind fun _ => failsWith_pure
  · refine (failsWith_require (.inr rfl)).bind fun out => ?_
    exact (failsWith_attempt (.inl rfl)).bind fun _ => failsWith_write.bind fun _ => failsWith_pure

theorem failsWith_onExt {α : Type} {roomID : String} {x : Proc (Option Hash) ProcessFailure α}
    {E : ProcessFailure → Prop} (hx : FailsWith x E) : FailsWith (onExt roomID x) E := by
  intro s e t h
  unfold onExt at h
  cases hr : x (s.ext roomID) with
  | mk res o =>
    rw [hr] at h
    cases h
    exact hx _ _ _ hr

theorem failsWith_addState : FailsWith (addState svc r event) fun err =>
    stageOf err = some .ext ∨ stageOf err = none := by
  unfold addState
  split_ifs
  · exact (failsWith_attempt (.inl rfl)).bind fun _ => failsWith_pure
  · exact failsWith_pure

theorem failsWith_moveOn : FailsWith (moveOn svc r event) fun err =>
    stageOf err = some .ext ∨ stageOf err = none :=
  (failsWith_onExt failsWith_updateRoomStateExt).bind fun _ =>
    failsWith_addState.bind fun _ => failsWith_pure

theorem failsWith_updateMemberShip {roomID : String} :
    FailsWith (updateMemberShip svc roomID event pre) fun err => stageOf err = some .rows := by
  have hcall : ∀ c ∈ rowCalls, StoreCall.stage c = some .rows := by decide
  refine updateMemberShip_induct (motive := fun x => FailsWith x fun err =>
    stageOf err = some .rows) failsWith_pure (fun c x hc hx => ?_) (fun _ _ => failsWith_write) ?_
  · exact (failsWith_attempt (hcall c hc)).bind fun _ => hx
  · exact fun x y hx hy => hx.bind fun _ => hy

theorem failsWith_store : FailsWith (store svc r event) fun err => stageOf err = some .store := by
  have hcall : ∀ c, StoreCall.stage c = some .store → FailsWith
      (attempt svc.toExtServices c : Proc Stores ProcessFailure Unit) fun err =>
        stageOf err = some .store := fun c hc => failsWith_attempt hc
  refine (hcall _ rfl).bind fun _ => FailsWith.bind ?_ fun _ =>
    (hcall _ rfl).bind fun _ => hcall _ rfl
  exact (hcall _ rfl).bind fun _ => failsWith_write.bind fun _ => hcall _ rfl

/-! ## What a failure leaves -/

theorem keeps_moveOn : Keeps Stores.records (moveOn svc r event) := by
  have hext : ∀ {α : Type} {x : Proc (Option Hash) ProcessFailure α},
      Keeps Stores.records (onExt event.roomID x) := fun _ => rfl
  refine hext.bind fun p => Keeps.bind ?_ fun _ => keeps_pure
  unfold addState
  split_ifs
  · exact reads_attempt.keeps.bind fun _ => keeps_pure
  · exact keeps_pure

theorem keeps_store : Keeps Stores.records (store svc r event) := by
  refine reads_attempt.keeps.bind fun _ => Keeps.bind ?_ fun _ =>
    reads_attempt.keeps.bind fun _ => reads_attempt.keeps
  refine reads_attempt.keeps.bind fun _ => Keeps.bind (keeps_write fun s => ?_) fun _ =>
    reads_attempt.keeps
  split_ifs <;> rfl

theorem enter_error (h : enter svc r pre event s = (.error err, s')) :
    stageOf err = none ∨ stageOf err = some .ext ∧
      s'.records = ((umsOnEvent svc event.toEvent pre s).ums, s.states, s.rows) := by
  rcases bind_error_iff.mp h with hcrash | ⟨rs, s₁, hrs, hmove⟩
  · exact .inl (failsWith_require (E := fun err => stageOf err = none) rfl s err s' hcrash)
  · obtain rfl := reads_require.eq hrs
    refine (failsWith_moveOn _ _ _ hmove).symm.imp id fun hstage => ⟨hstage, ?_⟩
    rw [keeps_moveOn.eq hmove, umsOnEvent_frame]
    rfl

theorem postProcessNew_error (h : postProcessNew svc r pre event s = (.error err, s')) :
    (stageOf err = some .rows ∧ s'.records =
      (s.ums, s.states, (updateMemberShip svc r.roomID event pre s).2.rows)) ∨
    stageOf err = some .store ∧ s'.records = (s.ums, flushedStates svc r event.toEvent s.states,
        (updateMemberShip svc r.roomID event pre s).2.rows) := by
  rcases bind_error_iff.mp h with hrows | ⟨_, s₁, hrows, hrest⟩
  · refine .inl ⟨failsWith_updateMemberShip _ _ _ hrows, ?_⟩
    rw [hrows, updateMemberShip_frame hrows]
    rfl
  · rcases bind_error_iff.mp hrest with hflush | ⟨_, s₂, hflush, hstore⟩
    · cases hflush
    · cases hflush
      refine .inr ⟨failsWith_store _ _ _ hstore, ?_⟩
      rw [keeps_store.eq hstore, flushed_eq, hrows, updateMemberShip_frame hrows]
      rfl

theorem processNew_error (h : processNew svc trusted room event s = (.error err, s'))
    (hret : (stageOf err).isSome = true) : (stageOf err = some .checks ∧ s' = s) ∨
    (stageOf err = some .ext ∧ s'.records =
      ((umsOnEvent svc event.toEvent (preEvent room event) s).ums, s.states, s.rows)) ∨
    (stageOf err = some .rows ∧ s'.records =
      ((umsOnEvent svc event.toEvent (preEvent room event) s).ums, s.states,
        (updateMemberShip svc (stateFor room event).roomID event (preEvent room event) s).2.rows)) ∨
    (stageOf err = some .store ∧ s'.records =
      ((umsOnEvent svc event.toEvent (preEvent room event) s).ums,
        (if isStateEv event.toEvent = true ∧ svc.fails .flush = false then
          Function.update s.states (stateFor room event).roomID (flushedRoom svc room event)
        else s.states),
        (updateMemberShip svc (stateFor room event).roomID event (preEvent room event)
          s).2.rows)) := by
  have hsome := Option.isSome_iff_ne_none.mp hret
  rcases bind_error_iff.mp h with hfind | ⟨_ | r, s₁, hfind, hin⟩
  · exact .inl ⟨(failsWith_findRoom _ _ _ hfind).resolve_right hsome, reads_findRoom.eq hfind⟩
  · cases hin
  obtain ⟨hr, rfl⟩ := findRoom_ok hfind
  rcases bind_error_iff.mp hin with hauth | ⟨_, s₂, hauth, hrest⟩
  · exact .inl ⟨failsWith_authorise _ _ _ hauth, reads_authorise.eq hauth⟩
  obtain rfl := reads_authorise.eq hauth
  rcases bind_error_iff.mp hrest with henter | ⟨⟨event', r'⟩, s₃, henter, hpost⟩
  · obtain ⟨hstage, hrecords⟩ := (enter_error henter).resolve_left hsome
    exact .inr (.inl ⟨hstage, hrecords⟩)
  subst hr
  obtain ⟨rs, ext, o, hrs, hext, hr, hs₃⟩ := enter_ok henter
  obtain ⟨he, hn⟩ := yields_updateRoomStateExt _ _ _ hext
  have hid : r'.roomID = (stateFor room event).roomID := by rw [hr]; rfl
  have hkept : s₃.rows = s₂.rows := by rw [hs₃]
  have hpost := postProcessNew_error hpost
  rw [hid, (updateMemberShip_congr he hn hkept).2, he, flushedStates_enter hrs hr, hs₃] at hpost
  rcases hpost with ⟨hstage, hrec⟩ | ⟨hstage, hrec⟩
  · exact .inr (.inr (.inl ⟨hstage, hrec⟩))
  · exact .inr (.inr (.inr ⟨hstage, hrec⟩))

/-! ## Failures -/

section
variable (svc : Services) (room : Option LoadedRoom) (event : NewEvent) (s : Stores)

def CacheKept : Prop :=
  (umsOnEvent svc event.toEvent (preEvent room event) s).ums = s.ums

def RowsKept : Prop :=
  (updateMemberShip svc (stateFor room event).roomID event (preEvent room event) s).2.rows = s.rows

/-- The cached room state stays as it is: nothing is flushed, or the same as before. -/
def StateKept : Prop :=
  isStateEv event.toEvent = true → svc.fails .flush = false →
    s.states (stateFor room event).roomID = flushedRoom svc room event

end

/-- **Events that fail.** After an error the records are the same if and only if the error comes
from the checks at the start, or from a later stage and none of the writes before it has changed a
record. -/
theorem failed_unchanged_iff (h : processNew svc trusted room event s = (.error err, s'))
    (hret : (stageOf err).isSome = true) :
    s'.records = s.records ↔
      stageOf err = some .checks ∨
        CacheKept svc room event s ∧
          (stageOf err = some .ext ∨
            RowsKept svc room event s ∧
              (stageOf err = some .rows ∨ StateKept svc room event s)) := by
  rcases processNew_error h hret with ⟨hstage, rfl⟩ | ⟨hstage, hrec⟩ | ⟨hstage, hrec⟩ |
    ⟨hstage, hrec⟩
  · exact ⟨fun _ => .inl hstage, fun _ => rfl⟩
  · rw [hrec, hstage]
    simp [Stores.records, CacheKept]
  · rw [hrec, hstage]
    simp [Stores.records, CacheKept, RowsKept]
  · rw [hrec, hstage]
    have hstates : (if isStateEv event.toEvent = true ∧ svc.fails .flush = false then
        Function.update s.states (stateFor room event).roomID (flushedRoom svc room event)
      else s.states) = s.states ↔ StateKept svc room event s := by
      split_ifs with hstate
      · rw [Function.update_eq_self_iff]
        exact ⟨fun h _ _ => h.symm, fun h => (h hstate.1 hstate.2).symm⟩
      · exact ⟨fun _ h₁ h₂ => absurd ⟨h₁, h₂⟩ hstate, fun _ => rfl⟩
    simp only [Stores.records, Prod.mk.injEq, hstates, CacheKept, RowsKept, Option.some.injEq,
      reduceCtorEq, false_or]
    tauto

def loadedRoom : LoadedRoom := { LoadedRoom.new "!r:x" with rs := room₀ }

def failing (c : StoreCall) (ev : Event) : Except ProcessFailure Unit × Stores :=
  processNew (servicesOf (· == c) 1 1) false (some loadedRoom) (newEvent ev 0 0) .empty

theorem failed_unchanged_hello :
    ∃ s', failing .lock helloEvent = (.error (.unavailable .lock), s') ∧
      s'.records = Stores.empty.records := by
  have h : failing .lock helloEvent = (.error (.unavailable .lock), _) := rfl
  exact ⟨_, h, (failed_unchanged_iff h rfl).mpr (.inr ⟨rfl, .inl rfl⟩)⟩

/-- An invite whose room cannot be locked is in the membership cache; one for which the latest
events cannot be written is in the rows and in the cached state. -/
theorem failed_invite_traced :
    (∃ s', failing .lock (memberEvent "$3:x" "@a:x" "@b:x" "invite") =
        (.error (.unavailable .lock), s') ∧ s'.ums "@b:x" ≠ Stores.empty.ums "@b:x") ∧
    ∃ s', failing .setLatestEvents (memberEvent "$3:x" "@a:x" "@b:x" "invite") =
        (.error (.unavailable .setLatestEvents), s') ∧
      s'.rows "@b:x" ≠ Stores.empty.rows "@b:x" ∧
      s'.states "!r:x" ≠ Stores.empty.states "!r:x" :=
  ⟨⟨_, rfl, nofun⟩, _, rfl, nofun, nofun⟩

end Ligase.Room.Processor

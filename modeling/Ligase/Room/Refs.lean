import Ligase.Lib.Linked
import Ligase.Room.Written

/-!
# References between events

An event is stored with the id of an earlier one. The ids of the last events are in the extension
record, which moves on by `IsStateEv`; `GetRefs` has a list of types of its own.

* **`references_lead_to_creation`**: for events whose types both lists class alike.
-/

namespace Ligase.Room.Processor

open Lib Auth Proc RoomServerState List Function

/-! ## References -/

structure EntryCall where
  svc : Services
  trusted : Bool
  room : Option LoadedRoom
  event : NewEvent

def EntryCall.step (s : Stores) (c : EntryCall) : Option Stores :=
  match processNew c.svc c.trusted c.room c.event s with
  | (.ok (), s') => some s'
  | (.error _, _) => none

def Stores.eventsOf (s : Stores) (roomID : String) : List StoredEvent :=
  s.events.filter (·.roomID = roomID)

variable (l : List StoredEvent)

def lastId : String := (l.getLast?.map StoredEvent.eventID).getD ""

def StoredEvent.isState (e : StoredEvent) : Bool := e.type ∈ stateTypes

/-- **The reference of an event**: a state event refers to the last state event, any other to the
last event. -/
def refAfter (e : StoredEvent) : String :=
  if e.isState then lastId (l.filter StoredEvent.isState) else lastId l

def RefersIn (e e' : StoredEvent) : Prop :=
  e' ∈ l ∧ e.previousEventID = e'.eventID

/-- The types that `IsStateEv` has and `GetRefs` has not. -/
def unlistedTypes : List String := ["m.room.encryption", "m.room.guest_access"]

/-- An event of the room of a type that both lists class alike, and that is new. The extension
record can be read, the state that is passed is that of the room, and a creation is processed
without one. -/
structure EntryCall.Meets (roomID : String) (s : Stores) (c : EntryCall) : Prop where
  room : c.event.roomID = roomID
  state : ∀ r ∈ c.room, r.roomID = roomID
  create : c.event.type = MRoomCreate → c.room = none
  type : c.event.type ∉ unlistedTypes
  fresh : ∀ e ∈ s.events, e.eventID ≠ c.event.eventID
  healthy : c.svc.toExtServices.Healthy

variable {s s' : Stores} {c c₀ : EntryCall} {cs : List EntryCall} {roomID : String}
  {event event' : NewEvent} {rsExt ext : ExtRecord} {e : StoredEvent} {l : List StoredEvent}

/-! ## The ids -/

open EntryCall

theorem mem_refTypes {type : String} (h : type ∉ unlistedTypes) :
    type ∈ refTypes ↔ type ∈ stateTypes := by
  have hsub : ∀ t ∈ refTypes, t ∈ stateTypes := by decide
  have hrest : ∀ t ∈ stateTypes, t ∈ refTypes ∨ t ∈ unlistedTypes := by decide
  exact ⟨hsub type, fun ht => (hrest type ht).resolve_right h⟩

theorem ids_move_all {d : Draft} {domain : String} : (d.move domain true).ext.toRoomStateExt =
      updateExt d.ext.toRoomStateExt true true (isStateEv d.event.toEvent) d.event.toEvent := by
  have hids : ∀ d : Draft, d.moveIds.ext.toRoomStateExt =
      updateExt d.ext.toRoomStateExt true true (isStateEv d.event.toEvent) d.event.toEvent := by
    intro d
    unfold Draft.moveIds updateExt
    rw [Bool.and_self, if_pos rfl]
    split_ifs <;> rfl
  have hmove : (d.move domain false).ext.toRoomStateExt = d.ext.toRoomStateExt := ids_move
  have hevent : (d.move domain false).event.toEvent = d.event.toEvent := event_move.1
  have hall : d.move domain true = (d.move domain false).moveIds := by
    simp only [Draft.move, if_true, Bool.false_eq_true, if_false]
  rw [hall, hids, hmove, hevent]

theorem updateRoomStateExt_ids {svc : ExtServices} {rsExt' : ExtRecord} {o o' : Option Hash}
    (hsvc : svc.Healthy)
    (h : updateRoomStateExt svc true rsExt event o = (.ok (event', rsExt'), o')) :
    let ids := updateExt (svc.current o).toRoomStateExt true true (isStateEv event.toEvent)
      event.toEvent
    (rsExt'.preStateId = ids.preStateId ∧ rsExt'.preMsgId = ids.preMsgId) ∧
      ∀ svc' : ExtServices, (svc'.current o').lastStateId = ids.lastStateId ∧
        (svc'.current o').lastMsgId = ids.lastMsgId := by
  obtain ⟨domain, out, x, -, -, -, rfl, rfl, hx⟩ := updateRoomStateExt_spec hsvc h
  have hids : (Draft.move ⟨event, svc.current o, .empty⟩ domain true).ext.toRoomStateExt = _ :=
    ids_move_all
  rw [← hids]
  refine ⟨⟨rfl, rfl⟩, fun svc' => ?_⟩
  rw [show svc'.current (some x) = _ from hx]
  exact ⟨rfl, rfl⟩

/-! ## One event -/

/-- The stored events refer to one another as they should, and the record has the last ids. -/
structure Chain (roomID : String) (s : Stores) : Prop where
  lastState : ∀ svc : ExtServices, (svc.current (s.ext roomID)).lastStateId =
    lastId ((s.eventsOf roomID).filter StoredEvent.isState)
  last : ∀ svc : ExtServices, (svc.current (s.ext roomID)).lastMsgId = lastId (s.eventsOf roomID)
  linked : Linked (fun before e => e.previousEventID = refAfter before e) (s.eventsOf roomID)

theorem lastId_concat : lastId (l ++ [e]) = e.eventID := by
  rw [lastId, getLast?_concat]
  rfl

theorem EntryCall.step_eq_some (h : c.step s = some s') :
    processNew c.svc c.trusted c.room c.event s = (.ok (), s') := by
  unfold step at h
  split at h
  · rename_i heq
    cases h
    exact heq
  · cases h

theorem stateFor_roomID (hroom : event.roomID = roomID) {room : Option LoadedRoom}
    (h : ∀ r ∈ room, r.roomID = roomID) : (stateFor room event).roomID = roomID := by
  cases room with
  | none => exact hroom
  | some r => exact h r rfl

theorem eventsOf_addEvent (hroom : e.roomID = roomID) (hnew : ∀ e' ∈ l, e'.eventID ≠ e.eventID) :
    (addEvent e l).filter (·.roomID = roomID) = l.filter (·.roomID = roomID) ++ [e] := by
  have hnot : ¬ ∃ e' ∈ l, e'.eventID = e.eventID := by
    rintro ⟨e', he', hid⟩
    exact hnew e' he' hid
  rw [addEvent, if_neg hnot, filter_append]
  simp [hroom]

theorem Chain.step (hs : Chain roomID s) (hc : c.Meets roomID s) (h : c.step s = some s') :
    Chain roomID s' ∧ ∃ ref, s'.eventsOf roomID =
      s.eventsOf roomID ++ [⟨c.event.eventID, roomID, c.event.type, ref⟩] := by
  obtain ⟨hroom, hstateOf, hcreate, htype, hfresh, hhealthy⟩ := hc
  rcases processNew_ok (EntryCall.step_eq_some h) with
    ⟨hsome, ht, -⟩ | ⟨rs, event', ext, o, -, hext, -, rfl⟩
  · rw [hcreate ht] at hsome
    cases hsome
  rw [stateFor_roomID hroom hstateOf, hroom]
  rw [hroom] at hext
  obtain ⟨⟨hpreState, hpreMsg⟩, hlast⟩ := updateRoomStateExt_ids hhealthy hext
  have hevents : (addEvent (storedEvent roomID ext.toRoomStateExt c.event.toEvent)
      s.events).filter (·.roomID = roomID) = s.eventsOf roomID ++ [_] :=
    eventsOf_addEvent rfl hfresh
  have href : (storedEvent roomID ext.toRoomStateExt c.event.toEvent).previousEventID =
      refAfter (s.eventsOf roomID) (storedEvent roomID ext.toRoomStateExt c.event.toEvent) := by
    show (if c.event.type ∈ refTypes then ext.preStateId else ext.preMsgId) =
      if isStateEv c.event.toEvent then _ else _
    rw [hpreState, hpreMsg]
    by_cases hstate : isStateEv c.event.toEvent = true
    · rw [if_pos ((mem_refTypes htype).mpr (of_decide_eq_true hstate)), if_pos hstate, hstate]
      exact hs.lastState _
    · rw [if_neg fun h => hstate (decide_eq_true ((mem_refTypes htype).mp h)), if_neg hstate,
        Bool.eq_false_iff.mpr hstate]
      exact hs.last _
  refine ⟨⟨fun svc => ?_, fun svc => ?_, ?_⟩, _, hevents⟩
  · show (svc.current (update s.ext roomID o roomID)).lastStateId =
      lastId (((addEvent _ s.events).filter _).filter _)
    rw [hevents, update_self, (hlast svc).1, filter_append]
    have hclass : (storedEvent roomID ext.toRoomStateExt c.event.toEvent).isState =
        isStateEv c.event.toEvent := rfl
    by_cases hstate : isStateEv c.event.toEvent = true
    · rw [filter_cons_of_pos (hclass.trans hstate), filter_nil, lastId_concat, hstate]
      rfl
    · rw [filter_cons_of_neg (by rwa [hclass]), filter_nil, append_nil,
        Bool.eq_false_iff.mpr hstate]
      exact hs.lastState _
  · show (svc.current (update s.ext roomID o roomID)).lastMsgId =
      lastId ((addEvent _ s.events).filter _)
    rw [hevents, update_self, (hlast svc).2, lastId_concat, updateExt,
      Bool.and_self, if_pos rfl]
    split_ifs <;> rfl
  · show Linked _ ((addEvent _ s.events).filter _)
    rw [hevents]
    exact hs.linked.concat href

/-! ## Runs -/

theorem Chain.run (hs : Chain roomID s) (hm : RunMeets EntryCall.step (EntryCall.Meets roomID) s cs)
    (h : Lib.run EntryCall.step s cs = some s') :
    Chain roomID s' ∧ (s'.eventsOf roomID).map (fun e => (e.eventID, e.type)) =
      (s.eventsOf roomID).map (fun e => (e.eventID, e.type)) ++
        cs.map fun c => (c.event.eventID, c.event.type) := by
  induction cs generalizing s with
  | nil =>
    obtain rfl := Option.some.inj h
    exact ⟨hs, by simp⟩
  | cons c cs ih =>
    obtain ⟨t, hstep, hrun⟩ := run_cons_eq_some.mp h
    obtain ⟨ht, ref, hevents⟩ := hs.step hm.1 hstep
    obtain ⟨hs', hmap⟩ := ih ht (hm.tail hstep) hrun
    refine ⟨hs', hmap.trans ?_⟩
    rw [hevents, map_append, append_assoc]
    rfl

theorem exists_lastId (h : l ≠ []) : ∃ e ∈ l, lastId l = e.eventID := by
  refine ⟨l.getLast h, getLast_mem h, ?_⟩
  rw [lastId, getLast?_eq_some_getLast h]
  rfl

theorem exists_refAfter {e₀ : StoredEvent} (h₀ : e₀.isState = true) (e : StoredEvent) :
    ∃ e' ∈ e₀ :: l, refAfter (e₀ :: l) e = e'.eventID := by
  unfold refAfter
  split_ifs
  · have hne : (e₀ :: l).filter StoredEvent.isState ≠ [] := by
      rw [filter_cons_of_pos h₀]
      exact cons_ne_nil _ _
    obtain ⟨e', he', hid⟩ := exists_lastId hne
    exact ⟨e', mem_of_mem_filter he', hid⟩
  · exact exists_lastId (cons_ne_nil _ _)

/-- **The references between events.** The events of a new room, of types that `GetRefs` and
`IsStateEv` class alike, are stored with references to the event, or state event, before them; and
from each event the references lead to the creation. -/
theorem references_lead_to_creation (hext : s.ext roomID = none) (hevents : s.eventsOf roomID = [])
    (hcreate : c₀.event.type = MRoomCreate)
    (hrun : run EntryCall.step s (c₀ :: cs) = some s')
    (hmeets : RunMeets EntryCall.step (EntryCall.Meets roomID) s (c₀ :: cs)) :
    (s'.eventsOf roomID).map (fun e => (e.eventID, e.type)) =
        (c₀ :: cs).map (fun c => (c.event.eventID, c.event.type)) ∧
      Linked (fun before e => e.previousEventID = refAfter before e) (s'.eventsOf roomID) ∧
      ∃ first, (s'.eventsOf roomID).head? = some first ∧ first.eventID = c₀.event.eventID ∧
        ∀ e ∈ s'.eventsOf roomID,
          Relation.ReflTransGen (RefersIn (s'.eventsOf roomID)) e first := by
  have hs : Chain roomID s := by
    refine ⟨fun svc => ?_, fun svc => ?_, ?_⟩
    · rw [hext, hevents]
      rfl
    · rw [hext, hevents]
      rfl
    · rw [hevents]
      exact linked_nil
  obtain ⟨hs', hmap⟩ := hs.run hmeets hrun
  rw [hevents, map_nil, nil_append] at hmap
  refine ⟨hmap, hs'.linked, ?_⟩
  have hlinked := hs'.linked
  cases hl : s'.eventsOf roomID with
  | nil =>
    rw [hl] at hmap
    cases hmap
  | cons first l =>
    rw [hl] at hmap hlinked
    obtain ⟨hfirst, -⟩ := List.cons.inj hmap
    obtain ⟨hid, htype⟩ := Prod.mk.inj hfirst
    refine ⟨first, rfl, hid, fun e he => Linked.reaches (fun before e after hb => ?_) he⟩
    have hstate : first.isState = true := by
      rw [StoredEvent.isState, htype, hcreate]
      decide
    obtain ⟨e', he', href⟩ := exists_refAfter (l := before) hstate e
    refine ⟨e', he', ?_, (hlinked (first :: before) e after (by rw [hb]; rfl)).trans href⟩
    rw [hb]
    exact mem_append_left _ he'

def created : RoomServerState := (Room.step env₀ ["x"] false .init createEvent).getD .init

/-- A creation finds no state, a join that of the creation and any other event that after the
join. -/
def entryCall (drawn : Int64) (ev : Event) : EntryCall :=
  ⟨servicesOf (fun _ => false) drawn drawn.toInt, false,
    if ev.type = MRoomCreate then none
    else some { LoadedRoom.new ev.roomID with
      rs := if ev.type = MRoomMember then created else room₀ },
    newEvent ev 0 0⟩

theorem roomID_of_entryCall {drawn : Int64} {ev : Event} :
    ∀ r ∈ (entryCall drawn ev).room, r.roomID = ev.roomID := by
  unfold entryCall
  dsimp only
  split
  · simp
  · rintro r ⟨⟩
    rfl

def storesAfter (cs : List EntryCall) : Stores := (run EntryCall.step .empty cs).getD .empty

def aliceCalls : List EntryCall :=
  [entryCall 2 (memberEvent "$2:x" "@a:x" "@a:x" "join"),
    entryCall 3 { helloEvent with eventID := "$3:x" },
    entryCall 4 (Room.event "$4:x" "@a:x" "m.room.name" "" [("name", "n")])]

theorem references_lead_to_creation_alice :
    let l := (storesAfter (entryCall 1 createEvent :: aliceCalls)).eventsOf "!r:x"
    l = [⟨"$1:x", "!r:x", "m.room.create", ""⟩, ⟨"$2:x", "!r:x", "m.room.member", "$1:x"⟩,
        ⟨"$3:x", "!r:x", "m.room.message", "$2:x"⟩, ⟨"$4:x", "!r:x", "m.room.name", "$2:x"⟩] ∧
      ∀ e ∈ l, Relation.ReflTransGen (RefersIn l) e ⟨"$1:x", "!r:x", "m.room.create", ""⟩ := by
  intro l
  have hl : l = [⟨"$1:x", "!r:x", "m.room.create", ""⟩, ⟨"$2:x", "!r:x", "m.room.member", "$1:x"⟩,
      ⟨"$3:x", "!r:x", "m.room.message", "$2:x"⟩, ⟨"$4:x", "!r:x", "m.room.name", "$2:x"⟩] := by
    decide +kernel
  have hrun : run EntryCall.step .empty (entryCall 1 createEvent :: aliceCalls) =
      some (storesAfter (entryCall 1 createEvent :: aliceCalls)) := rfl
  have hmeets : RunMeets EntryCall.step (EntryCall.Meets "!r:x") .empty
      (entryCall 1 createEvent :: aliceCalls) := by
    refine ⟨⟨rfl, roomID_of_entryCall, fun _ => rfl, ?_, ?_, rfl, rfl⟩,
      ⟨rfl, roomID_of_entryCall, nofun, ?_, ?_, rfl, rfl⟩,
      ⟨rfl, roomID_of_entryCall, nofun, ?_, ?_, rfl, rfl⟩,
      ⟨rfl, roomID_of_entryCall, nofun, ?_, ?_, rfl, rfl⟩, trivial⟩
    all_goals decide +kernel
  obtain ⟨-, -, first, hfirst, -, hreach⟩ :=
    references_lead_to_creation rfl rfl rfl hrun hmeets
  obtain rfl : first = ⟨"$1:x", "!r:x", "m.room.create", ""⟩ := by
    exact (Option.some.inj hfirst).symm
  exact ⟨hl, hreach⟩

/-- It is a state event, but `GetRefs` gives it the reference of a message, and there has been none.
-/
theorem encryption_refers_to_nothing :
    let l := (storesAfter [entryCall 1 createEvent,
      entryCall 2 (memberEvent "$2:x" "@a:x" "@a:x" "join"),
      entryCall 3 (Room.event "$3:x" "@a:x" "m.room.encryption" "" [])]).eventsOf "!r:x"
    l = [⟨"$1:x", "!r:x", "m.room.create", ""⟩, ⟨"$2:x", "!r:x", "m.room.member", "$1:x"⟩,
        ⟨"$3:x", "!r:x", "m.room.encryption", ""⟩] ∧
      "m.room.encryption" ∈ stateTypes ∧
      ¬ Relation.ReflTransGen (RefersIn l) ⟨"$3:x", "!r:x", "m.room.encryption", ""⟩
        ⟨"$1:x", "!r:x", "m.room.create", ""⟩ := by
  intro l
  have hl : l = [⟨"$1:x", "!r:x", "m.room.create", ""⟩,
      ⟨"$2:x", "!r:x", "m.room.member", "$1:x"⟩,
      ⟨"$3:x", "!r:x", "m.room.encryption", ""⟩] := by
    decide +kernel
  refine ⟨hl, by decide, fun h => ?_⟩
  rcases h.cases_head with heq | ⟨e, ⟨hmem, hid⟩, -⟩
  · exact absurd heq (by decide)
  · revert e
    decide

end Ligase.Room.Processor

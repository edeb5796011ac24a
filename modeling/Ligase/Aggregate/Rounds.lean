import Mathlib.Data.List.ReduceOption
import Ligase.Aggregate.TokenFailure
import Ligase.Sync.Increment

/-!
# The room positions of a device

An incremental sync asks for every room the events after the position that the token of the request
has for it; the next token has the positions that the sync servers report, and for the other rooms
those of the token before.

* **`forward_iff`**: when no position of a device goes back.
-/

namespace Ligase.Aggregate

open Lib Sync List Option

/-! ## The rooms that are asked for -/

/-- The rooms of a user, with the positions of their last events and, for a joined room, of the
join. -/
structure UserRooms where
  join : List (String × Int × Int)
  invite : List (String × Int)
  leave : List (String × Int)

section
variable (offsets : List (String × Int))

def joinReqRoom (room : String × Int × Int) : Option SyncRoom :=
  match offsets.lookup room.1 with
  | some offset =>
    if offset < room.2.1 ∧ 0 < room.2.2 then some ⟨room.1, .join, offset, room.2.1⟩ else none
  | none => if 0 < room.2.2 then some ⟨room.1, .join, -1, room.2.1⟩ else none

def inviteReqRoom (room : String × Int) : Option SyncRoom :=
  match offsets.lookup room.1 with
  | some offset => if offset < room.2 then some ⟨room.1, .invite, offset, room.2⟩ else none
  | none => some ⟨room.1, .invite, -1, room.2⟩

/-- Of a room that the token does not have only the last event is asked for. -/
def leaveReqRoom (room : String × Int) : Option SyncRoom :=
  match offsets.lookup room.1 with
  | some offset => if offset < room.2 then some ⟨room.1, .leave, offset, room.2⟩ else none
  | none => if room.2 ≠ -1 then some ⟨room.1, .leave, room.2 - 1, room.2⟩ else none

/-- The ranges in the order they are stored; a later one of the same room counts. -/
def reqRanges (rooms : UserRooms) : List SyncRoom :=
  rooms.join.filterMap (joinReqRoom offsets) ++ rooms.invite.filterMap (inviteReqRoom offsets) ++
    rooms.leave.filterMap (leaveReqRoom offsets)

def reBuildIncreamSyncReqRoom (rooms : UserRooms) : List SyncRoom :=
  ((reqRanges offsets rooms).foldl (fun m r => Json.setKey r.roomID r m) []).map Prod.snd

end

/-! ## A round -/

structure Round where
  req : Request
  svc : Services
  limit : Int
  rooms : UserRooms
  total : Nat
  instanceOf : String → Nat
  instance_lt : ∀ roomID, instanceOf roomID < total
  nodes : Nat → SyncNode
  /-- the order in which the answers come -/
  order : List Nat
  order_perm : order.Perm (List.range total)
  encode : Sync.ClientEvent → ClientEvent
  maxReceiptOffset : Nat → Int

namespace Round

variable (r : Round) (offsets : List (String × Int))

def serverReq : SyncServerRequest := ⟨r.req.userID, r.limit, false, r.req.isHuman⟩

def reqRooms : List SyncRoom := reBuildIncreamSyncReqRoom offsets r.rooms

def asked (i : Nat) : List SyncRoom :=
  (r.reqRooms offsets).filter fun room => r.instanceOf room.roomID = i

/-- A sync server is asked if it has a room to answer, or a joined one with receipts. -/
def isAsked (i : Nat) : Bool :=
  r.asked offsets i ≠ [] || r.rooms.join.any fun room => r.instanceOf room.1 = i

def encodeAnswer (i : Nat) (data : SyncAnswer) : SyncServerResponse where
  join := data.join.map fun p => (p.1, { JoinResponse.new with
    state := p.2.state.map r.encode
    timeline := p.2.events.map r.encode
    limited := p.2.limited
    prevBatch := p.2.prevBatch })
  invite := data.invite.map fun p => (p.1, ⟨p.2.inviteState.map r.encode⟩)
  leave := data.leave.map fun p => (p.1, ⟨[], p.2.events.map r.encode, p.2.limited, p.2.prevBatch⟩)
  maxReceiptOffset := r.maxReceiptOffset i
  newUsers := data.newUsers
  maxRoomOffset := data.maxRoomOffset

def answer (i : Nat) : Option SyncServerResponse :=
  ((r.nodes i).processSync r.serverReq (r.asked offsets i)).bind fun data =>
    if data.allLoaded then some (r.encodeAnswer i data) else none

def answers : List (Option SyncServerResponse) :=
  (r.order.filter (r.isAsked offsets)).map (r.answer offsets)

def request : Request := { r.req with offsets := offsets }

def services : Services :=
  { r.svc with answers := r.answers offsets, setToken := fun _ _ => true }

end Round

structure Device where
  tokens : List (Int × List (String × Int))
  utl : Int

def Device.loadToken (d : Device) : Option (List (String × Int)) := d.tokens.lookup d.utl

def Round.stores (r : Round) (offsets : List (String × Int)) (m : Merge) : Bool :=
  (r.answers offsets).all Option.isSome && m.hasNewEvent

def Round.step (d : Device) (r : Round) : Option Device :=
  if r.req.marks.utl.recv = d.utl ∧ r.req.isFullSync = false then
    d.loadToken.bind fun offsets =>
      (mergeAnswers (r.services offsets) (r.request offsets)).map fun m =>
        if r.stores offsets m then
          ⟨(r.svc.nextID, tokenOffsets (r.request offsets) m) :: d.tokens, r.svc.nextID⟩
        else d
  else none

def Device.offset (d : Device) (roomID : String) : Option Int :=
  d.loadToken.bind fun offsets => offsets.lookup roomID

def Forward (d d' : Device) : Prop :=
  ∀ roomID o, d.offset roomID = some o → ∃ o', d'.offset roomID = some o' ∧ o ≤ o'

/-- If a token is stored, every room of the old one that is asked for is read up to its start. -/
def Round.ReadsAll (d : Device) (r : Round) : Prop :=
  ∀ offsets m, d.loadToken = some offsets →
    mergeAnswers (r.services offsets) (r.request offsets) = some m → r.stores offsets m = true →
    ∀ room ∈ r.reqRooms offsets, (offsets.lookup room.roomID).isSome = true →
      (r.nodes (r.instanceOf room.roomID)).Reads r.serverReq room

/-! ## Ranges -/

section
variable {offsets : List (String × Int)} {rooms : UserRooms} {room room' : SyncRoom} {o : Int}

/-- A range goes on from the position that the token has for the room, if it has one. -/
def GoesOn (offsets : List (String × Int)) (room : SyncRoom) : Prop :=
  ∀ o, offsets.lookup room.roomID = some o → room.start = o

section
variable {roomID : String} {kind : RoomKind} {start stop : Int}

theorem goesOn_of_some (hl : offsets.lookup roomID = some start) :
    GoesOn offsets ⟨roomID, kind, start, stop⟩ :=
  fun _ ho => some.inj (hl.symm.trans ho)

theorem goesOn_of_none (hl : offsets.lookup roomID = none) :
    GoesOn offsets ⟨roomID, kind, start, stop⟩ :=
  fun _ ho => absurd (hl.symm.trans ho) (by simp)

end

theorem goesOn_of_mem (h : room ∈ reqRanges offsets rooms) : GoesOn offsets room := by
  simp only [reqRanges, mem_append, mem_filterMap] at h
  rcases h with (⟨x, -, hx⟩ | ⟨x, -, hx⟩) | ⟨x, -, hx⟩
  · unfold joinReqRoom at hx
    cases hl : offsets.lookup x.1 with
    | none =>
      simp only [hl] at hx
      split_ifs at hx
      exact some.inj hx ▸ goesOn_of_none hl
    | some offset =>
      simp only [hl] at hx
      split_ifs at hx
      exact some.inj hx ▸ goesOn_of_some hl
  · unfold inviteReqRoom at hx
    cases hl : offsets.lookup x.1 with
    | none =>
      simp only [hl] at hx
      exact some.inj hx ▸ goesOn_of_none hl
    | some offset =>
      simp only [hl] at hx
      split_ifs at hx
      exact some.inj hx ▸ goesOn_of_some hl
  · unfold leaveReqRoom at hx
    cases hl : offsets.lookup x.1 with
    | none =>
      simp only [hl] at hx
      split_ifs at hx
      exact some.inj hx ▸ goesOn_of_none hl
    | some offset =>
      simp only [hl] at hx
      split_ifs at hx
      exact some.inj hx ▸ goesOn_of_some hl

theorem mem_reqRanges (h : room ∈ reBuildIncreamSyncReqRoom offsets rooms) :
    room ∈ reqRanges offsets rooms := by
  obtain ⟨p, hp, rfl⟩ := mem_map.mp h
  exact ((foldl_setKey_spec SyncRoom.roomID _).2 p hp).2

theorem reqRoom_unique (h : room ∈ reBuildIncreamSyncReqRoom offsets rooms)
    (h' : room' ∈ reBuildIncreamSyncReqRoom offsets rooms) (he : room.roomID = room'.roomID) :
    room = room' := by
  obtain ⟨hnodup, hkey⟩ := foldl_setKey_spec SyncRoom.roomID (reqRanges offsets rooms)
  obtain ⟨p, hp, rfl⟩ := mem_map.mp h
  obtain ⟨q, hq, rfl⟩ := mem_map.mp h'
  have hpq : p.1 = q.1 := by rw [(hkey p hp).1, (hkey q hq).1, he]
  rw [inj_on_of_nodup_map hnodup hp hq hpq]

end

/-! ## Merged positions -/

section
variable {svc : Services} {req : Request} {m m' : Merge} {roomID : String}

theorem maxRoomOffset_addSyncData {data : SyncServerResponse}
    (h : addSyncData svc req m data = some m') : m'.maxRoomOffset =
      data.maxRoomOffset.foldl (fun o p => Json.setKey p.1 p.2 o) m.maxRoomOffset := by
  simp only [addSyncData, bind_eq_bind, bind_eq_some_iff] at h
  obtain ⟨_, -, _, -, _, -, h⟩ := h
  rw [← some.inj h]

theorem maxRoomOffset_foldlM {answers : List SyncServerResponse}
    (h : answers.foldlM (addSyncData svc req) m = some m') : m'.maxRoomOffset =
      (answers.flatMap (·.maxRoomOffset)).foldl (fun o p => Json.setKey p.1 p.2 o)
        m.maxRoomOffset := by
  induction answers generalizing m with
  | nil =>
    obtain rfl := some.inj h
    rfl
  | cons data answers ih =>
    rw [foldlM_cons, bind_eq_bind, bind_eq_some_iff] at h
    obtain ⟨m₁, h₁, h⟩ := h
    rw [ih h, maxRoomOffset_addSyncData h₁, flatMap_cons, foldl_append]

theorem lookup_tokenOffsets : (tokenOffsets req m).lookup roomID =
    (m.maxRoomOffset.lookup roomID).or (req.offsets.lookup roomID) := by
  unfold tokenOffsets
  rw [lookup_append]
  cases hm : m.maxRoomOffset.lookup roomID with
  | some o => rfl
  | none =>
    induction req.offsets with
    | nil => rfl
    | cons p offsets ih =>
      by_cases hp : roomID = p.1
      · subst hp
        rw [filter_cons_of_pos (by simp [hm]), lookup_cons_self, lookup_cons_self]
      · rw [lookup_cons, beq_eq_false_iff_ne.mpr hp, filter_cons]
        split_ifs
        · rw [lookup_cons, beq_eq_false_iff_ne.mpr hp]
          exact ih
        · exact ih

end

/-! ## Answers -/

section
variable {r : Round} {offsets : List (String × Int)} {room : SyncRoom} {m : Merge} {i : Nat}

theorem answer_eq_some {data : SyncServerResponse} (h : r.answer offsets i = some data) :
    data.maxRoomOffset =
      ((r.nodes i).processIncrementSync r.serverReq (r.asked offsets i)).maxRoomOffset := by
  obtain ⟨a, ha, h⟩ := bind_eq_some_iff.mp h
  unfold SyncNode.processSync at ha
  split_ifs at ha
  obtain rfl := some.inj ha
  split_ifs at h
  obtain rfl := some.inj h
  rfl

theorem answered (hall : (r.answers offsets).all isSome = true)
    (hroom : room ∈ r.reqRooms offsets) :
    ∃ data ∈ (r.answers offsets).reduceOption,
      r.answer offsets (r.instanceOf room.roomID) = some data := by
  have hasked : room ∈ r.asked offsets (r.instanceOf room.roomID) :=
    mem_filter.mpr ⟨hroom, by simp⟩
  have hmem : r.answer offsets (r.instanceOf room.roomID) ∈ r.answers offsets := by
    refine mem_map.mpr ⟨_, mem_filter.mpr ⟨?_, ?_⟩, rfl⟩
    · exact r.order_perm.mem_iff.mpr (mem_range.mpr (r.instance_lt _))
    · have hne : r.asked offsets (r.instanceOf room.roomID) ≠ [] := ne_nil_of_mem hasked
      simp [Round.isAsked, hne]
  obtain ⟨data, hdata⟩ := isSome_iff_exists.mp (all_eq_true.mp hall _ hmem)
  exact ⟨data, reduceOption_mem_iff.mpr (hdata ▸ hmem), hdata⟩

theorem le_position_iff_of_asked {o : Int} (hroom : room ∈ r.reqRooms offsets)
    (ho : offsets.lookup room.roomID = some o) :
    o ≤ (r.nodes (r.instanceOf room.roomID)).position r.serverReq room ↔
      (r.nodes (r.instanceOf room.roomID)).Reads r.serverReq room := by
  obtain rfl := goesOn_of_mem (mem_reqRanges hroom) _ ho
  exact le_position_iff

theorem position_of_answer {p : String × Int}
    (hp : p ∈ (r.answers offsets).reduceOption.flatMap (·.maxRoomOffset)) :
    ∃ room ∈ r.reqRooms offsets, room.roomID = p.1 ∧
      (r.nodes (r.instanceOf room.roomID)).position r.serverReq room = p.2 := by
  obtain ⟨data, hdata, hp⟩ := mem_flatMap.mp hp
  obtain ⟨i, -, hi⟩ := mem_map.mp (reduceOption_mem_iff.mp hdata)
  rw [answer_eq_some hi] at hp
  obtain ⟨room, hroom, hid, hpos⟩ := mem_maxRoomOffset.mp hp
  obtain ⟨hmem, hinst⟩ := mem_filter.mp hroom
  obtain rfl : r.instanceOf room.roomID = i := by simpa using hinst
  exact ⟨room, hmem, hid, hpos⟩

section
variable (hm : mergeAnswers (r.services offsets) (r.request offsets) = some m)
include hm

theorem maxRoomOffset_merged :
    m.maxRoomOffset = ((r.answers offsets).reduceOption.flatMap (·.maxRoomOffset)).foldl
      (fun o p => Json.setKey p.1 p.2 o) [] :=
  maxRoomOffset_foldlM hm

theorem lookup_merged (hall : (r.answers offsets).all isSome = true)
    (hroom : room ∈ r.reqRooms offsets) : m.maxRoomOffset.lookup room.roomID =
      some ((r.nodes (r.instanceOf room.roomID)).position r.serverReq room) := by
  rw [maxRoomOffset_merged hm, lookup_foldl_setKey
    (b := (r.nodes (r.instanceOf room.roomID)).position r.serverReq room)]
  · refine if_pos ?_
    obtain ⟨data, hdata, hanswer⟩ := answered hall hroom
    have hmem : (room.roomID, (r.nodes (r.instanceOf room.roomID)).position r.serverReq room) ∈
        data.maxRoomOffset := by
      rw [answer_eq_some hanswer]
      exact mem_maxRoomOffset.mpr ⟨room, mem_filter.mpr ⟨hroom, by simp⟩, rfl, rfl⟩
    exact mem_map.mpr ⟨_, mem_flatMap.mpr ⟨data, hdata, hmem⟩, rfl⟩
  · intro p hp hid
    obtain ⟨room', hroom', hid', hpos⟩ := position_of_answer hp
    rw [reqRoom_unique hroom hroom' (hid.symm.trans hid'.symm), hpos]

end

theorem lookup_merged_of_forall {roomID : String}
    (hm : mergeAnswers (r.services offsets) (r.request offsets) = some m)
    (hnone : ∀ room ∈ r.reqRooms offsets, room.roomID ≠ roomID) :
    m.maxRoomOffset.lookup roomID = none := by
  have hfree : ∀ p ∈ (r.answers offsets).reduceOption.flatMap (·.maxRoomOffset), p.1 ≠ roomID := by
    intro p hp hid
    obtain ⟨room, hroom, hid', -⟩ := position_of_answer hp
    exact hnone room hroom (hid'.trans hid)
  rw [maxRoomOffset_merged hm, lookup_foldl_setKey (b := 0) fun p hp hid => absurd hid (hfree p hp)]
  refine if_neg fun hmem => ?_
  obtain ⟨p, hp, hid⟩ := mem_map.mp hmem
  exact hfree p hp hid

end

/-! ## Rounds -/

section
variable {d d' : Device} {r : Round}

theorem forward_refl (d : Device) : Forward d d := fun _ o ho => ⟨o, ho, le_rfl⟩

theorem offset_stored (offsets : List (String × Int)) (m : Merge) (roomID : String) :
    Device.offset ⟨(r.svc.nextID, tokenOffsets (r.request offsets) m) :: d.tokens, r.svc.nextID⟩
      roomID = (m.maxRoomOffset.lookup roomID).or (offsets.lookup roomID) := by
  rw [Device.offset, Device.loadToken, lookup_cons_self, bind_some, lookup_tokenOffsets]
  rfl

theorem forward_step_iff (h : r.step d = some d') : Forward d d' ↔ r.ReadsAll d := by
  unfold Round.step at h
  split_ifs at h
  obtain ⟨offsets, hload, h⟩ := bind_eq_some_iff.mp h
  obtain ⟨m, hm, h⟩ := map_eq_some_iff.mp h
  have hold : ∀ roomID, d.offset roomID = offsets.lookup roomID := fun roomID => by
    rw [Device.offset, hload]
    rfl
  split_ifs at h with hstores
  · subst h
    have hall := (Bool.and_eq_true_iff.mp hstores).1
    constructor
    · intro hforward offsets' m' hload' hm' _ room hmem hsome
      obtain rfl := some.inj (hload.symm.trans hload')
      obtain ⟨o, ho⟩ := isSome_iff_exists.mp hsome
      obtain ⟨o', ho', hle⟩ := hforward room.roomID o ((hold _).trans ho)
      rw [offset_stored, lookup_merged hm hall hmem] at ho'
      obtain rfl := some.inj ho'
      exact (le_position_iff_of_asked hmem ho).mp hle
    · intro hreads roomID o ho
      rw [hold] at ho
      rw [offset_stored]
      by_cases hasked : ∃ room ∈ r.reqRooms offsets, room.roomID = roomID
      · obtain ⟨room, hmem, rfl⟩ := hasked
        rw [lookup_merged hm hall hmem]
        refine ⟨_, rfl, (le_position_iff_of_asked hmem ho).mpr ?_⟩
        exact hreads offsets m hload hm hstores room hmem (by rw [ho]; rfl)
      · rw [lookup_merged_of_forall hm fun room hmem hid => hasked ⟨room, hmem, hid⟩, none_or, ho]
        exact ⟨o, rfl, le_rfl⟩
  · subst h
    refine ⟨fun _ offsets' m' hload' hm' hstores' => ?_, fun _ => forward_refl d⟩
    obtain rfl := some.inj (hload.symm.trans hload')
    obtain rfl := some.inj (hm.symm.trans hm')
    exact absurd hstores' hstores

/-- **The positions of a device do not go back** in a run of incremental syncs if and only if in
every round each room of the token that is asked for is read up to its start. -/
theorem forward_iff {rounds : List Round} (h : run (fun d r => Round.step d r) d rounds = some d') :
    RunMeets (fun d r => Round.step d r) (fun d r => ∀ d', r.step d = some d' → Forward d d') d
        rounds ↔
      RunMeets (fun d r => Round.step d r) (fun d r => r.ReadsAll d) d rounds := by
  refine runMeets_congr (fun {d r d'} hstep => ?_) h
  refine ⟨fun hall => (forward_step_iff hstep).mp (hall d' hstep), fun hreads d'' hstep' => ?_⟩
  exact (forward_step_iff hstep').mpr hreads

end

/-! ## A room that is not known

A device has read the busy room up to 30 and another room up to 5. There are new events in both, but
the sync server does not have the state of the other room.
-/

/-- One sync server; it knows the state of the busy room, and that of the others if `all`. -/
def busyNode (all : Bool) : SyncNode :=
  { busyServer with
    roomState := fun roomID => if roomID = "!r:x" ∨ all = true then some busyRoom else none
    isDeleted := fun _ _ => false
    roomLastOffset := fun _ => 33
    loadReady := true }

def busyRound (all : Bool) (join : List (String × Int × Int)) : Round where
  req := { alice with userID := "@u:x" }
  svc := failing messageAnswer
  limit := 10
  rooms := ⟨join, [], []⟩
  total := 1
  instanceOf _ := 0
  instance_lt _ := Nat.zero_lt_one
  nodes _ := busyNode all
  order := [0]
  order_perm := List.Perm.refl _
  encode ev := ⟨ev.eventID, ev.roomID, ev.type, ev.content, 0⟩
  maxReceiptOffset _ := 0

def busyDevice : Device := ⟨[(5, [("!r:x", 30), ("!s:x", 5)])], 5⟩

theorem forward_iff_known :
    ∃ d, (busyRound true [("!r:x", 33, 2)]).step busyDevice = some d ∧
      d.offset "!r:x" = some 33 ∧ d.offset "!s:x" = some 5 ∧ Forward busyDevice d := by
  have hstep : ∃ d, (busyRound true [("!r:x", 33, 2)]).step busyDevice = some d ∧
      d.offset "!r:x" = some 33 ∧ d.offset "!s:x" = some 5 := ⟨_, rfl, by decide +kernel⟩
  obtain ⟨d, hd, hr, hs⟩ := hstep
  refine ⟨d, hd, hr, hs, ?_⟩
  have hrun : run (fun d r => Round.step d r) busyDevice [busyRound true [("!r:x", 33, 2)]] =
      some d := by simp [run, hd]
  refine ((forward_iff hrun).mpr ⟨?_, ?_⟩).1 d hd
  · intro offsets m ho _ _ room hroom _
    obtain rfl := some.inj ho
    obtain rfl : room = ⟨"!r:x", .join, 30, 33⟩ := mem_singleton.mp hroom
    exact le_position_iff.mp (by decide +kernel)
  · dsimp only
    trivial

/-- The sync server reports −1 for the room that it does not know, in the place of the position 5.
-/
theorem position_goes_back :
    ∃ d, (busyRound false [("!r:x", 33, 2), ("!s:x", 6, 2)]).step busyDevice = some d ∧
      busyDevice.offset "!s:x" = some 5 ∧ d.offset "!s:x" = some (-1) ∧
      ¬ Forward busyDevice d := by
  have hstep : ∃ d, (busyRound false [("!r:x", 33, 2), ("!s:x", 6, 2)]).step busyDevice = some d ∧
      d.offset "!s:x" = some (-1) := ⟨_, rfl, by decide +kernel⟩
  obtain ⟨d, hd, hs⟩ := hstep
  refine ⟨d, hd, rfl, hs, fun h => ?_⟩
  obtain ⟨o', ho', hle⟩ := h "!s:x" 5 rfl
  obtain rfl := some.inj (hs.symm.trans ho')
  exact absurd hle (by decide)

end Ligase.Aggregate

import Mathlib.Data.Finset.Card
import Mathlib.Data.List.DropRight
import Mathlib.Data.List.TakeWhile
import Ligase.Sync.Departure

/-!
# The answer to an incremental sync

A sync server is asked for ranges of rooms that the user has joined, is invited to or has left. With
the events it answers the position up to which each room has been read.

* **`le_position_iff`**: when the position of a room is not before the start of its range.
-/

namespace Ligase.Sync

open Lib List

/-! ## Requests -/

inductive RoomKind where
  | join
  | invite
  | leave
  deriving DecidableEq

structure SyncRoom where
  roomID : String
  roomState : RoomKind
  start : Int
  stop : Int

/-- A sync server, with the marks of its state events, the last positions of the rooms, and whether
what has to be loaded is there in time. -/
structure SyncNode extends Server where
  isDeleted : String → StreamEvent → Bool
  roomLastOffset : String → Int
  loadReady : Bool

/-! ## Invites -/

structure InviteResponse where
  inviteState : List ClientEvent

def StreamEvent.invites (user : String) (stream : StreamEvent) : Bool :=
  stream.ev.type = "m.room.member" && stream.ev.stateKey = some user &&
    stream.ev.membership = "invite"

/-- The state events up to the last invite of the user, or all if there is none. -/
def upToInvite (user : String) (states : List StreamEvent) : List StreamEvent :=
  match states.reverse.dropWhile fun stream => !stream.invites user with
  | [] => states
  | feeds => feeds.reverse

variable (s : SyncNode)

def SyncNode.buildRoomInviteResp (roomID user : String) : InviteResponse × Int :=
  match s.states roomID with
  | some states =>
    let feeds := (upToInvite user states).filter fun stream => !s.isDeleted roomID stream
    (⟨feeds.map (·.ev)⟩, feeds.foldl (fun m stream => max m stream.offset) (-1))
  | none => (⟨[]⟩, -1)

/-! ## Rooms that were left -/

structure LeaveScan where
  msgEvent : List ClientEvent
  limit : Int
  firstTimeLine : Int
  firstTs : Int
  limited : Bool

section
variable (v : Viewer) (reqStart maxPos minStream : Int)

def LeaveScan.visit (stream : StreamEvent) (sc : LeaveScan) : LeaveScan :=
  let first := sc.firstTimeLine = -1 ∨ stream.offset < sc.firstTimeLine
  { sc with
    msgEvent := if v.shows stream.ev then sc.msgEvent ++ [stream.ev] else sc.msgEvent
    limit := if v.shows stream.ev then sc.limit - 1 else sc.limit
    firstTimeLine := if first then stream.offset else sc.firstTimeLine
    firstTs := if first then stream.ev.originServerTS else sc.firstTs }

/-- From the newest entry that is before the leave back to the start of the range. -/
def LeaveScan.loop : List StreamEvent → LeaveScan → LeaveScan
  | [], sc => sc
  | stream :: feeds, sc =>
    if stream.offset ≤ reqStart then sc
    else if stream.offset < maxPos then
      let sc := sc.visit v stream
      if sc.limit = 0 ∨ stream.ev.type = "m.room.create" ∨ stream.offset ≤ minStream then
        { sc with limited := stream.ev.type ≠ "m.room.create" }
      else loop feeds sc
    else loop feeds sc

end

structure LeaveResponse where
  events : List ClientEvent
  limited : Bool
  prevBatch : String

def LeaveResponse.missing : LeaveResponse := ⟨[], true, buildPreBatch maxInt64 maxInt64⟩

def LeaveScan.timeline (sc : LeaveScan) (reqStart reqLimit : Int) (leave : ClientEvent) :
    LeaveResponse :=
  if sc.firstTimeLine = -1 then
    ⟨sc.msgEvent.reverse ++ [leave], true, buildPreBatch maxInt64 maxInt64⟩
  else
    { events := sc.msgEvent.reverse ++ [leave]
      limited := sc.limited || (reqStart < sc.firstTimeLine && 0 < reqStart &&
        reqLimit ≤ sc.msgEvent.length)
      prevBatch := buildPreBatch (max (sc.firstTimeLine - 1) 0) sc.firstTs }

def Server.buildRoomLeaveResp (s : Server) (req : SyncServerRequest) (roomID : String)
    (reqStart : Int) : LeaveResponse × Int :=
  match s.roomState roomID, s.history roomID with
  | some room, some history =>
    match room.getState "m.room.member" req.userID with
    | some stateEvt =>
      let sc := LeaveScan.loop (s.viewer room req.userID) reqStart stateEvt.offset
        (s.roomMinStream roomID) history.data.reverse ⟨[], req.limit, -1, -1, false⟩
      (sc.timeline reqStart req.limit stateEvt.ev, stateEvt.offset)
    | none => (.missing, -1)
  | _, _ => (.missing, -1)

/-! ## The answer -/

namespace SyncNode

variable (req : SyncServerRequest)

def position (r : SyncRoom) : Int :=
  match r.roomState with
  | .join => (s.buildRoomJoinResp req r.roomID r.start r.stop).2.1
  | .invite => (s.buildRoomInviteResp r.roomID req.userID).2
  | .leave => (s.buildRoomLeaveResp req r.roomID r.start).2

/-- Checked for humans only; a joined room in which nothing was found does not count. -/
def missing (r : SyncRoom) : Bool :=
  match r.roomState with
  | .join => 0 < s.position req r && s.position req r < r.stop && req.isHuman
  | .invite | .leave => s.position req r < r.stop && req.isHuman

end SyncNode

structure SyncAnswer where
  join : List (String × JoinResponse)
  invite : List (String × InviteResponse)
  leave : List (String × LeaveResponse)
  maxRoomOffset : List (String × Int)
  newUsers : List String
  allLoaded : Bool

def roomsOf (kind : RoomKind) (rooms : List SyncRoom) : List SyncRoom :=
  rooms.filter fun r => r.roomState = kind

variable (req : SyncServerRequest)

def SyncNode.processIncrementSync (rooms : List SyncRoom) : SyncAnswer :=
  let joins := (roomsOf .join rooms).map fun r =>
    (r, s.buildRoomJoinResp req r.roomID r.start r.stop)
  { join := joins.map fun p => (p.1.roomID, p.2.1)
    invite := (roomsOf .invite rooms).map fun r =>
      (r.roomID, (s.buildRoomInviteResp r.roomID req.userID).1)
    leave := (roomsOf .leave rooms).map fun r =>
      (r.roomID, (s.buildRoomLeaveResp req r.roomID r.start).1)
    maxRoomOffset := (roomsOf .join rooms ++ roomsOf .invite rooms ++ roomsOf .leave rooms).map
      fun r => (r.roomID, s.position req r)
    newUsers := (joins.flatMap fun p => p.2.2.2).dedup
    allLoaded := rooms.all fun r => !s.missing req r }

/-- There is no answer if the server is behind the start of a range, or cannot load its rooms in
time. -/
def SyncNode.processSync (rooms : List SyncRoom) : Option SyncAnswer :=
  if (rooms.all fun r => r.start ≤ s.roomLastOffset r.roomID) && s.loadReady then
    some (s.processIncrementSync req rooms)
  else none

/-! ## Positions -/

section
variable {s : SyncNode} {req : SyncServerRequest} {rooms : List SyncRoom} {r : SyncRoom}
  {roomID : String} {pos : Int}

theorem mem_maxRoomOffset : (roomID, pos) ∈ (s.processIncrementSync req rooms).maxRoomOffset ↔
    ∃ r ∈ rooms, r.roomID = roomID ∧ s.position req r = pos := by
  have hmem : ∀ r, r ∈ roomsOf .join rooms ++ roomsOf .invite rooms ++ roomsOf .leave rooms ↔
      r ∈ rooms := by
    intro r
    simp only [roomsOf, mem_append, mem_filter, decide_eq_true_eq]
    constructor
    · rintro ((⟨h, -⟩ | ⟨h, -⟩) | ⟨h, -⟩) <;> exact h
    · intro h
      cases hk : r.roomState with
      | join => exact .inl (.inl ⟨h, rfl⟩)
      | invite => exact .inl (.inr ⟨h, rfl⟩)
      | leave => exact .inr ⟨h, rfl⟩
  show (roomID, pos) ∈ map _ _ ↔ _
  rw [mem_map]
  simp only [hmem, Prod.mk.injEq]

theorem le_foldl_max {states : List StreamEvent} {m d : Int} :
    d ≤ states.foldl (fun m stream => max m stream.offset) m ↔
      d ≤ m ∨ ∃ e ∈ states, d ≤ e.offset := by
  induction states generalizing m with
  | nil => simp
  | cons stream states ih =>
    have hmax : d ≤ max m stream.offset ↔ d ≤ m ∨ d ≤ stream.offset := by omega
    rw [foldl_cons, ih, hmax, exists_mem_cons_iff, or_assoc]

end

/-! ## Invited rooms -/

section
variable {user : String} {states : List StreamEvent} {e : StreamEvent}

theorem mem_rdropWhile_iff {p : StreamEvent → Bool} : e ∈ states.rdropWhile p ↔
    ∃ before d, before ++ [d] <+: states ∧ e ∈ before ++ [d] ∧ p d = false := by
  induction states using reverseRecOn with
  | nil => simp
  | append_singleton states stream ih =>
    rw [rdropWhile_concat]
    simp only [prefix_concat_iff]
    split_ifs with hp
    · rw [ih]
      refine exists_congr fun before => exists_congr fun d => and_congr_left fun ⟨_, hd⟩ =>
        (or_iff_right fun heq => ?_).symm
      rw [(append_singleton_inj.mp heq).2, hp] at hd
      cases hd
    · refine ⟨fun he => ⟨states, stream, .inl rfl, he, Bool.eq_false_iff.mpr hp⟩, ?_⟩
      rintro ⟨before, d, heq | hpre, he, -⟩
      · exact heq ▸ he
      · exact mem_append_left _ (hpre.subset he)

theorem mem_upToInvite : e ∈ upToInvite user states ↔
    e ∈ states ∧ (∀ d ∈ states, d.invites user = false) ∨
      ∃ before d, before ++ [d] <+: states ∧ e ∈ before ++ [d] ∧ d.invites user := by
  have hnil := dropWhile_eq_nil_iff (p := fun d => !d.invites user) (l := states.reverse)
  have hmem : e ∈ (states.reverse.dropWhile fun d => !d.invites user).reverse ↔ _ :=
    mem_rdropWhile_iff
  simp only [mem_reverse, Bool.not_eq_true', Bool.not_eq_false'] at hnil hmem
  unfold upToInvite
  split
  case h_1 hd => rw [← hmem, hd, or_iff_left not_mem_nil, and_iff_left (hnil.mp hd)]
  case h_2 hd => rw [mem_reverse, hmem, or_iff_right fun h => hd (hnil.mpr h.2)]

end

/-! ## Joined rooms -/

def shownIDs (v : Viewer) (reqEnd : Int) (feeds : List StreamEvent) : Finset String :=
  ((feeds.filter (hit v reqEnd)).map (·.ev.eventID)).toFinset

/-- The loop gets to an entry, and it is in the range. Different events that are shown count for the
limit. -/
def Reached (v : Viewer) (reqStart reqEnd minStream limit : Int) (feeds : List StreamEvent)
    (stream : StreamEvent) : Prop :=
  upTo reqEnd stream.offset = true ∧ ∃ k, feeds[k]? = some stream ∧
    GetsTo reqStart minStream (fun p => limit - (shownIDs v reqEnd p).card) feeds k

/-- Of what the cut leaves, an entry that the loop gets to is not before the start or, if it gets to
nothing of the range or to something at 0, a state event before the first departure. -/
def SyncNode.Finds (r : SyncRoom) (room : Room)
    (history : TimeLines) (stateEvt : StreamEvent) : Prop :=
  let reqStart := if r.start < stateEvt.offset ∨ req.isFullSync then -1 else r.start
  ∃ n, CutAt req.userID reqStart history.data n ∧
    let reached := Reached (s.viewer room req.userID) reqStart r.stop (s.roomMinStream r.roomID)
      req.limit (history.data.reverse.drop n)
    (∃ e, reached e ∧ r.start ≤ e.offset) ∨
      ((∃ e, reached e) → ∃ e, reached e ∧ e.offset = 0) ∧
        ∃ states ∈ s.states r.roomID, ∃ e ∈ states, (upTo r.stop e.offset ∧
          (r.stop ≠ -1 → ∀ i d, FirstDeparts req.userID reqStart history.data i d →
            e.offset < d.offset)) ∧ r.start ≤ e.offset

section
variable {v : Viewer} {reqStart reqEnd minStream : Int} {sc : JoinScan} {feeds : List StreamEvent}

theorem limit_foldl : (feeds.foldl (fun sc e => sc.visit v reqEnd e) sc).limit =
    sc.limit - (shownIDs v reqEnd feeds \ (sc.msgEvent.map (·.eventID)).toFinset).card := by
  induction feeds generalizing sc with
  | nil => simp [shownIDs]
  | cons stream feeds ih =>
    rw [foldl_cons, ih]
    cases hh : hit v reqEnd stream with
    | false =>
      rw [(visit_of_not_hit hh).1, (visit_of_not_hit hh).2]
      simp [shownIDs, hh]
    | true =>
      have hids : shownIDs v reqEnd (stream :: feeds) =
          insert stream.ev.eventID (shownIDs v reqEnd feeds) := by simp [shownIDs, hh]
      rw [hids]
      have hrec : stream.ev.eventID ∈ (sc.msgEvent.map (·.eventID)).toFinset ↔
          recorded sc.msgEvent stream.ev = true := by simp [recorded]
      cases hr : recorded sc.msgEvent stream.ev with
      | false =>
        obtain ⟨hmsg, hlimit⟩ := visit_of_hit hh hr
        rw [hr] at hrec
        have hseen : (((sc.visit v reqEnd stream).msgEvent).map (·.eventID)).toFinset =
            insert stream.ev.eventID (sc.msgEvent.map (·.eventID)).toFinset := by
          rw [hmsg]
          simp [Finset.union_comm]
        rw [hseen, hlimit, Finset.sdiff_insert, Finset.insert_sdiff_of_notMem _ (by simp [hrec]),
          ← Finset.card_erase_add_one (Finset.mem_insert_self stream.ev.eventID _),
          Finset.erase_insert_eq_erase]
        omega
      | true =>
        rw [Finset.insert_sdiff_of_mem _ (hrec.mpr hr)]
        have hup := (Bool.and_eq_true_iff.mp hh).1
        simp [JoinScan.visit, hup, hr]

theorem le_maxPos_foldl {d : Int} :
    d ≤ (feeds.foldl (fun sc e => sc.visit v reqEnd e) sc).maxPos ↔
      d ≤ sc.maxPos ∨ ∃ e, (upTo reqEnd e.offset = true ∧ e ∈ feeds) ∧ d ≤ e.offset := by
  induction feeds generalizing sc with
  | nil => simp
  | cons stream feeds ih =>
    have hvisit : d ≤ (sc.visit v reqEnd stream).maxPos ↔
        d ≤ sc.maxPos ∨ upTo reqEnd stream.offset = true ∧ d ≤ stream.offset := by
      unfold JoinScan.visit
      split_ifs with hup
      · simp [hup]
      · simp [hup]
    rw [foldl_cons, ih, hvisit, or_assoc]
    simp [or_and_right, and_or_left, exists_or, and_assoc]

variable (hnil : sc.msgEvent = [])
include hnil

theorem exists_visited : ∃ (visited : List StreamEvent) (limited : Bool),
      sc.loop v reqStart reqEnd minStream feeds =
        { visited.foldl (fun sc e => sc.visit v reqEnd e) sc with limited } ∧
      (∀ e ∈ visited, reqStart < e.offset) ∧ ∀ e,
        Reached v reqStart reqEnd minStream sc.limit feeds e ↔
          upTo reqEnd e.offset = true ∧ e ∈ visited := by
  obtain ⟨n, limited, hloop, hn⟩ : ∃ n limited, sc.loop v reqStart reqEnd minStream feeds = _ ∧ _ :=
    loop_eq_take
  simp only [limit_foldl, hnil, map_nil, toFinset_nil, Finset.sdiff_empty] at hn
  have hmem : ∀ e, e ∈ feeds.take n ↔ ∃ k, feeds[k]? = some e ∧ GetsTo reqStart minStream
      (fun p => sc.limit - (shownIDs v reqEnd p).card) feeds k := by
    intro e
    rw [mem_iff_getElem?]
    refine exists_congr fun k => ?_
    rw [getElem?_take, Option.ite_none_right_eq_some, and_comm]
    exact and_congr_right fun hk => hn k (List.getElem?_eq_some_iff.mp hk).1
  refine ⟨feeds.take n, limited, hloop, fun e he => ?_, fun e => and_congr_right fun _ =>
    (hmem e).symm⟩
  obtain ⟨k, hk, hgets⟩ := (hmem e).mp he
  exact hgets.1 e (mem_of_getElem? (i := k) (by simp [hk]))

theorem le_maxPos_loop {d : Int} :
    d ≤ (sc.loop v reqStart reqEnd minStream feeds).maxPos ↔ d ≤ sc.maxPos ∨
      ∃ e, Reached v reqStart reqEnd minStream sc.limit feeds e ∧ d ≤ e.offset := by
  obtain ⟨visited, limited, hloop, -, hvisited⟩ :
    ∃ visited limited, sc.loop v reqStart reqEnd minStream feeds = _ ∧ _ := exists_visited hnil
  rw [hloop]
  simp only [hvisited]
  exact le_maxPos_foldl

theorem le_maxPos_iff {states : List StreamEvent} {realEnd d : Int}
    (hstart : 0 ≤ d → -1 ≤ reqStart) (hmax : sc.maxPos = -1) (hfirst : sc.firstTimeLine = -1) :
    d ≤ (stateFeeds realEnd (sc.loop v reqStart reqEnd minStream feeds).firstTimeLine
        states).foldl (fun m e => max m e.offset)
          (sc.loop v reqStart reqEnd minStream feeds).maxPos ↔
      let reached := Reached v reqStart reqEnd minStream sc.limit feeds
      d ≤ -1 ∨ (∃ e, reached e ∧ d ≤ e.offset) ∨
        ((∃ e, reached e) → ∃ e, reached e ∧ e.offset = 0) ∧
        ∃ e ∈ states, upTo realEnd e.offset ∧ d ≤ e.offset := by
  by_cases hd : d ≤ -1
  · exact iff_of_true (le_foldl_max.mpr (.inl ((le_maxPos_loop hnil).mpr (.inl (hmax ▸ hd)))))
      (.inl hd)
  have hstart := hstart (by omega)
  dsimp only
  rw [or_iff_right hd]
  obtain ⟨visited, limited, hloop, hafter, hvisited⟩ :
    ∃ visited limited, sc.loop v reqStart reqEnd minStream feeds = _ ∧ _ := exists_visited hnil
  have hpos : ∀ e ∈ visited, 0 ≤ e.offset := fun e he => Int.lt_of_le_of_lt hstart (hafter e he)
  have hfirst' := firstTimeLine_foldl v reqEnd hpos hfirst
  rw [hloop]
  simp only [hvisited]
  rw [le_foldl_max, le_maxPos_foldl, hmax, or_iff_right hd]
  by_cases hf : 0 < (visited.foldl (fun sc e => sc.visit v reqEnd e) sc).firstTimeLine
  · -- the state events are before the first entry that was found
    obtain ⟨o, ho, hup, heq, hleast⟩ := hfirst'.resolve_left fun hnone => by omega
    refine ⟨fun h => .inl ?_, fun h => .inl (h.resolve_right fun h0 => ?_)⟩
    · rcases h with h | ⟨e, he, hde⟩
      · exact h
      · obtain ⟨hmem, hend⟩ := mem_filter.mp he
        have hbefore := mem_takeWhile_imp hmem
        simp only [hend, hf, Bool.true_and, Bool.and_true, decide_true, Bool.not_eq_true',
          decide_eq_false_iff_not, Int.not_le] at hbefore
        exact ⟨o, ⟨hup, ho⟩, by omega⟩
    · obtain ⟨e, ⟨heup, he⟩, h0⟩ := h0.1 ⟨o, hup, ho⟩
      have := hleast e he heup
      omega
  · have hnone : (∃ e, upTo reqEnd e.offset = true ∧ e ∈ visited) →
        ∃ e, (upTo reqEnd e.offset = true ∧ e ∈ visited) ∧ e.offset = 0 := by
      rintro ⟨e, hup, he⟩
      rcases hfirst' with ⟨-, hnone⟩ | ⟨o, ho, hup', heq, -⟩
      · simp [hnone e he] at hup
      · have := hpos o ho
        exact ⟨o, ⟨hup', ho⟩, by omega⟩
    have hfeeds : stateFeeds realEnd
        (visited.foldl (fun sc e => sc.visit v reqEnd e) sc).firstTimeLine states =
          states.filter (upTo realEnd ·.offset) := by
      unfold stateFeeds
      rw [takeWhile_eq_self_iff.mpr (by simp [hf])]
    rw [hfeeds, and_iff_right hnone]
    simp [and_assoc]

end

section
variable {user : String} {start : Int} {data : List StreamEvent}

theorem upTo_before_departure {reqEnd pos latestEvOffset : Int}
    (hlatest : ((latestValidEv user start data).map (·.2)).getD 0 = latestEvOffset) :
    upTo (if reqEnd ≠ -1 ∧ latestEvOffset ≠ 0 ∧ latestEvOffset - 1 < reqEnd then
        latestEvOffset - 1 else reqEnd) pos = true ↔
      upTo reqEnd pos = true ∧
        (reqEnd ≠ -1 → ∀ i d, FirstDeparts user start data i d → pos < d.offset) := by
  subst hlatest
  rcases latestValidEv_cases with ⟨hl, hnone⟩ | ⟨i, d, hl, hd, huniq⟩ <;> rw [hl]
  · simp [hnone]
  · have hall : (∀ i' d', FirstDeparts user start data i' d' → pos < d'.offset) ↔ pos < d.offset :=
      ⟨fun h => h i d hd, fun h i' d' hd' => (huniq i' d' hd').2 ▸ h⟩
    have hpos := hd.pos
    have hafter := hd.departs.after
    rw [hall]
    simp only [Option.map_some, Option.getD_some, upTo, Bool.or_eq_true, decide_eq_true_eq]
    split_ifs <;> omega

end

/-- The room is known and something is found in it, in a room that was left the member event of the
user. -/
def SyncNode.Reads (r : SyncRoom) : Prop :=
  match r.roomState with
  | .join => r.start ≤ -1 ∨ ∃ room ∈ s.roomState r.roomID, ∃ history ∈ s.history r.roomID,
      ∃ stateEvt ∈ room.getState "m.room.member" req.userID, s.Finds req r room history stateEvt
  | .invite => r.start ≤ -1 ∨ ∃ states ∈ s.states r.roomID, ∃ e,
      (e ∈ states ∧ (∀ d ∈ states, d.invites req.userID = false) ∨
          ∃ before d, before ++ [d] <+: states ∧ e ∈ before ++ [d] ∧ d.invites req.userID) ∧
        s.isDeleted r.roomID e = false ∧ r.start ≤ e.offset
  | .leave => (∃ room ∈ s.roomState r.roomID, (s.history r.roomID).isSome ∧
        ∃ e ∈ room.getState "m.room.member" req.userID, r.start ≤ e.offset) ∨
      (∀ room ∈ s.roomState r.roomID, (s.history r.roomID).isSome →
        room.getState "m.room.member" req.userID = none) ∧ r.start ≤ -1

section
variable {s : SyncNode} {req : SyncServerRequest} {r : SyncRoom}

theorem le_position_join (hr : r.roomState = .join) :
    r.start ≤ s.position req r ↔ s.Reads req r := by
  unfold SyncNode.position SyncNode.Reads
  rw [hr]
  dsimp only
  unfold Server.buildRoomJoinResp SyncNode.Finds
  cases s.roomState r.roomID with
  | none => simp
  | some room =>
    cases s.history r.roomID with
    | none => simp
    | some history =>
      cases h : room.getState "m.room.member" req.userID with
      | none => simp [h]
      | some stateEvt =>
        simp only [h, Option.mem_def, Option.some.injEq, exists_eq_left', cutAt_iff, exists_eq_left]
        have hstart : 0 ≤ r.start → (-1 : Int) ≤
            if r.start < stateEvt.offset ∨ req.isFullSync = true then -1 else r.start := by
          intro h0
          split_ifs <;> omega
        generalize (if r.start < stateEvt.offset ∨ req.isFullSync = true then -1 else r.start) =
          reqStart at hstart ⊢
        simp only [← upTo_before_departure rfl]
        unfold cutOff
        cases s.states r.roomID with
        | none =>
          simp only [reduceCtorEq, false_and, exists_false, and_false, or_false]
          rcases latestValidEv req.userID _ history.data with _ | ⟨i, d⟩
          · exact le_maxPos_loop rfl
          · exact le_maxPos_loop rfl
        | some states =>
          simp only [Option.some.injEq, exists_eq_left']
          rcases latestValidEv req.userID _ history.data with _ | ⟨i, d⟩
          · exact le_maxPos_iff rfl hstart rfl rfl
          · exact le_maxPos_iff rfl hstart rfl rfl

/-- **The positions of an answer** are not before the start of their ranges if and only if the rooms
are read up to it. -/
theorem le_position_iff : r.start ≤ s.position req r ↔ s.Reads req r := by
  cases hr : r.roomState with
  | join => exact le_position_join hr
  | invite =>
    unfold SyncNode.position SyncNode.Reads SyncNode.buildRoomInviteResp
    rw [hr]
    cases s.states r.roomID with
    | none => simp
    | some states =>
      simp only [le_foldl_max, mem_filter, mem_upToInvite, Bool.not_eq_true', and_assoc,
        Option.mem_def, Option.some.injEq, exists_eq_left']
  | leave =>
    unfold SyncNode.position SyncNode.Reads Server.buildRoomLeaveResp
    rw [hr]
    cases s.roomState r.roomID with
    | none => simp
    | some room =>
      cases s.history r.roomID with
      | none => simp
      | some history =>
        cases h : room.getState "m.room.member" req.userID with
        | none => simp [h]
        | some stateEvt => simp [h]

end

end Ligase.Sync

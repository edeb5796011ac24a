import Ligase.Sync.TimeLine

/-!
# The context of an event

The answer to the request for the context of an event has the event, the events before it and the
events after it. The base event is looked up by its id alone, the others come from the ring or from
the table of the room.

* **`Source.getMessages_contextual`**: on every path, what is collected are state events and events
  that the user sees.
* **`context_confidential_iff`**: when an answer keeps other rooms and hidden history confidential.
-/

namespace Ligase.Sync

/-! ## Events before and after a position -/

/-- Events of the context, apart from their age: what is visible except the two extension events,
and the state events. -/
def Viewer.inContext (v : Viewer) (ev : ClientEvent) : Bool :=
  (v.visible ev.originServerTS && !ev.isExtEvent) || ev.isStateClientEv

/-- Events that are output where the context comes past them. -/
def Viewer.contextual (v : Viewer) (ev : ClientEvent) : Bool := v.inContext ev && !v.expired ev

namespace Source

variable (src : Source)

/-- The effect of one entry of the ring at or before the position. -/
def visitBackward (stream : StreamEvent) (found : Found) : Found :=
  let shown := src.viewer.inContext stream.ev && src.roomMinStream < stream.offset &&
    !src.viewer.expired stream.ev
  { events := if shown then record found.events stream.ev else found.events
    limit := if shown && !recorded found.events stream.ev then found.limit - 1 else found.limit
    endPos := if stream.offset = src.roomMinStream then stream.offset else stream.offset - 1
    endTs :=
      if stream.offset = src.roomMinStream then found.endTs else stream.ev.originServerTS }

def backward (fromPos : Int) : List StreamEvent → Found → Found
  | [], found => found
  | stream :: feeds, found =>
    if stream.offset ≤ fromPos ∧ src.roomMinStream ≤ stream.offset then
      let found := src.visitBackward stream found
      if found.limit = 0 then found else backward fromPos feeds found
    else backward fromPos feeds found

/-- The effect of one entry at or after the position; every entry counts that is not skipped for its
age. -/
def visitForward (stream : StreamEvent) (found : Found) : Found :=
  let skipEv := src.viewer.inContext stream.ev && src.viewer.expired stream.ev
  { events :=
      if src.viewer.inContext stream.ev && !skipEv then record found.events stream.ev
      else found.events
    limit := if skipEv then found.limit else found.limit - 1
    endPos := stream.offset + 1
    endTs := stream.ev.originServerTS }

def forward (fromPos : Int) : List StreamEvent → Found → Found
  | [], found => found
  | stream :: feeds, found =>
    if fromPos ≤ stream.offset ∧ src.roomMinStream ≤ stream.offset then
      let found := src.visitForward stream found
      if found.limit = 0 then found else forward fromPos feeds found
    else forward fromPos feeds found

def getFromDB (dir : Dir) (fromPos fromTs limit : Int) : Option Found :=
  match src.db.selectEventsByDir src.roomID dir fromPos limit with
  | none => none
  | some [] => some ⟨[], limit, fromPos, fromTs⟩
  | some rows =>
    let events := (rows.filter fun r => dir.accepts fromPos r.offset &&
      src.viewer.inContext r.ev && !src.viewer.expired r.ev).map (·.ev)
    let (endPos, endTs) := endOf rows
    let endPos :=
      match dir, src.createEv with
      | .b, some createEv =>
        if events.isEmpty ∧ endPos ≠ 0 then createEv.offset else endPos - 1
      | .b, none => endPos - 1
      | .f, _ => endPos + 1
    some ⟨events, limit, endPos, endTs⟩

def getFromCache (dir : Dir) (fromPos fromTs limit : Int) : Found :=
  match dir with
  | .b =>
    let found := src.backward fromPos src.tl.data.reverse ⟨[], limit, 0, 0⟩
    if found.endPos = 0 then
      { found with endPos := max (src.tl.lower - 1) src.roomMinStream, endTs := fromTs }
    else found
  | .f =>
    let found := src.forward fromPos src.tl.data ⟨[], limit, 0, 0⟩
    if found.endPos = 0 then { found with endPos := src.tl.upper + 1, endTs := fromTs }
    else found

def getMessages (dir : Dir) (fromPos fromTs limit : Int) : Option Found :=
  if src.tl.upper < fromPos ∧ dir = .f then some ⟨[], limit, fromPos, fromTs⟩
  else if src.beforeCreation fromPos ∧ dir = .b then some ⟨[], limit, fromPos, fromTs⟩
  else if fromPos < src.tl.lower ∨ fromPos ≤ src.roomMinStream then
    src.getFromDB dir fromPos fromTs limit
  else some (src.getFromCache dir fromPos fromTs limit)

end Source

/-! ## The request -/

structure ContextRequest where
  roomID : String
  eventID : String
  limit : Int

structure ContextEventResp where
  evsBefore : List ClientEvent
  evsAfter : List ClientEvent
  event : ClientEvent
  state : List ClientEvent
  start : String
  stop : String

namespace Server

/-- Too old to be asked for; here state events are no exception. -/
def tooOld (s : Server) (ev : ClientEvent) : Bool :=
  s.visibilityTime > 0 && ev.originServerTS.tdiv 1000 + s.visibilityTime < s.nowTs

def around (s : Server) (src : Source) (base : StreamEvent) (limit : Int) :
    Reply ContextEventResp :=
  let backwardLimit := limit.tdiv 2
  let forwardLimit := limit - backwardLimit
  match src.getMessages .b (base.offset - 1) base.ev.originServerTS backwardLimit with
  | none => .error 500 "failed to get event before"
  | some before =>
    match src.getMessages .f (base.offset + 1) base.ev.originServerTS forwardLimit with
    | none => .error 500 "failed to get event after"
    | some after =>
      .ok { evsBefore := before.events
            evsAfter := after.events
            event := base.ev
            state := s.stateEvents src.roomID after.endPos
            start := buildPreBatch before.endPos before.endTs
            stop := buildPreBatch after.endPos after.endTs }

def eventContext (s : Server) (user : String) (req : ContextRequest) : Reply ContextEventResp :=
  if s.isRelatedRequest req.roomID = false then .discard
  else
    match s.roomState req.roomID with
    | none => .error 404 "cannot find room state"
    | some room =>
      if room.rs.members.join user = none ∧ room.rs.members.leave user = none then
        .error 403 notMember
      else
        match s.db.streamEvents req.eventID with
        | [] => .error 404 "cannot find event"
        | base :: _ =>
          if s.tooOld base.ev then .error 404 "cannot find event"
          else
            match s.history req.roomID with
            | none => .error 404 "cannot find room history"
            | some tl => s.around (s.source room tl user req.roomID) base req.limit

end Server

/-! ## What is collected is shown -/

variable {limit : Int}

namespace Source

variable {src : Source}

def Shown (src : Source) (events : List ClientEvent) : Prop :=
  ∀ ev ∈ events, ev.isStateClientEv = true ∨ src.viewer.visible ev.originServerTS = true

variable {found : Found}

theorem shown_of_inContext {ev : ClientEvent} (h : src.viewer.inContext ev = true) :
    ev.isStateClientEv = true ∨ src.viewer.visible ev.originServerTS = true := by
  rcases Bool.or_eq_true_iff.mp h with hv | hs
  · exact .inr (Bool.and_eq_true_iff.mp hv).1
  · exact .inl hs

def Contextual (src : Source) (events : List ClientEvent) : Prop :=
  ∀ ev ∈ events, src.viewer.contextual ev = true

theorem Contextual.shown {events : List ClientEvent} (h : src.Contextual events) :
    src.Shown events :=
  fun ev hev => shown_of_inContext (Bool.and_eq_true_iff.mp (h ev hev)).1

theorem Contextual.record {events : List ClientEvent} (h : src.Contextual events)
    {ev : ClientEvent} (hev : src.viewer.contextual ev = true) :
    src.Contextual (record events ev) := by
  intro o ho
  rcases mem_record ho with ho | rfl
  · exact h o ho
  · exact hev

section
variable (h : src.Contextual found.events)
include h

theorem Contextual.visitBackward (stream : StreamEvent) :
    src.Contextual (src.visitBackward stream found).events := by
  unfold Source.visitBackward
  dsimp only
  split_ifs with hev
  · simp only [Bool.and_eq_true] at hev
    exact h.record (Bool.and_eq_true_iff.mpr ⟨hev.1.1, hev.2⟩)
  · exact h

theorem Contextual.visitForward (stream : StreamEvent) :
    src.Contextual (src.visitForward stream found).events := by
  unfold Source.visitForward
  dsimp only
  split_ifs with hev
  · refine h.record ?_
    cases hc : src.viewer.inContext stream.ev <;> simp_all [Viewer.contextual]
  · exact h

theorem Contextual.backward (fromPos : Int) (feeds : List StreamEvent) :
    src.Contextual (src.backward fromPos feeds found).events := by
  induction feeds generalizing found with
  | nil => exact h
  | cons stream feeds ih =>
    unfold backward
    dsimp only
    split_ifs
    · exact h.visitBackward stream
    · exact ih (h.visitBackward stream)
    · exact ih h

theorem Contextual.forward (fromPos : Int) (feeds : List StreamEvent) :
    src.Contextual (src.forward fromPos feeds found).events := by
  induction feeds generalizing found with
  | nil => exact h
  | cons stream feeds ih =>
    unfold forward
    dsimp only
    split_ifs
    · exact h.visitForward stream
    · exact ih (h.visitForward stream)
    · exact ih h

end

theorem contextual_nil : src.Contextual [] := fun _ h => absurd h List.not_mem_nil

theorem getFromDB_contextual {dir : Dir} {fromPos fromTs : Int}
    (h : src.getFromDB dir fromPos fromTs limit = some found) : src.Contextual found.events := by
  unfold getFromDB at h
  split at h
  · cases h
  · cases h
    exact contextual_nil
  · cases h
    intro ev hev
    rcases List.mem_map.mp hev with ⟨r, hr, rfl⟩
    have hr := (List.mem_filter.mp hr).2
    simp only [Bool.and_eq_true] at hr
    exact Bool.and_eq_true_iff.mpr ⟨hr.1.2, hr.2⟩

theorem getFromCache_contextual (dir : Dir) (fromPos fromTs limit : Int) :
    src.Contextual (src.getFromCache dir fromPos fromTs limit).events := by
  cases dir <;> simp only [getFromCache] <;> split_ifs
  · exact contextual_nil.backward fromPos _
  · exact contextual_nil.backward fromPos _
  all_goals exact contextual_nil.forward fromPos _

theorem getMessages_contextual {dir : Dir} {fromPos fromTs : Int}
    (h : src.getMessages dir fromPos fromTs limit = some found) : src.Contextual found.events := by
  unfold getMessages at h
  split_ifs at h
  · cases h
    exact contextual_nil
  · cases h
    exact contextual_nil
  · exact getFromDB_contextual h
  · cases h
    exact getFromCache_contextual dir fromPos fromTs limit

end Source

/-! ## Confidentiality -/

/-- The base event is of the room and visible, and so are the other events that are not state
events. -/
structure Confidential (room : Room) (user roomID : String) (resp : ContextEventResp) : Prop where
  base_room : resp.event.roomID = roomID
  base_visible : (room.rs.checkEventVisibility user resp.event.originServerTS).1 = true
  before_visible : ∀ ev ∈ resp.evsBefore, ev.isStateClientEv = true ∨
    (room.rs.checkEventVisibility user ev.originServerTS).1 = true
  after_visible : ∀ ev ∈ resp.evsAfter, ev.isStateClientEv = true ∨
    (room.rs.checkEventVisibility user ev.originServerTS).1 = true

variable {resp : ContextEventResp}

theorem Server.eventContext_eq_ok {s : Server} {user : String} {req : ContextRequest}
    (h : s.eventContext user req = .ok resp) :
    ∃ room base tl, s.roomState req.roomID = some room ∧
      (s.db.streamEvents req.eventID).head? = some base ∧ s.history req.roomID = some tl ∧
      s.around (s.source room tl user req.roomID) base req.limit = .ok resp := by
  unfold eventContext at h
  split_ifs at h
  · cases h
  · split at h
    · cases h
    · rename_i room hroom
      split_ifs at h
      split at h
      · cases h
      · rename_i base rest hbase
        split_ifs at h
        split at h
        · cases h
        · rename_i tl htl
          exact ⟨room, base, tl, hroom, by rw [hbase]; rfl, htl, h⟩

theorem Server.around_eq_ok {s : Server} {src : Source} {base : StreamEvent}
    (h : s.around src base limit = .ok resp) :
    resp.event = base.ev ∧ src.Shown resp.evsBefore ∧ src.Shown resp.evsAfter := by
  unfold around at h
  dsimp only at h
  split at h
  · cases h
  · rename_i before hb
    split at h
    · cases h
    · rename_i after ha
      cases h
      exact ⟨rfl, (Source.getMessages_contextual hb).shown,
        (Source.getMessages_contextual ha).shown⟩

/-- **Confidentiality of an answer.** Nothing but the row found for the event's id decides it: it
has to be of the room asked for, and visible there. -/
theorem context_confidential_iff (s : Server) (user : String) (req : ContextRequest)
    {room : Room} {resp : ContextEventResp} (hroom : s.roomState req.roomID = some room)
    (h : s.eventContext user req = .ok resp) :
    Confidential room user req.roomID resp ↔
      ∃ base, (s.db.streamEvents req.eventID).head? = some base ∧
        base.ev.roomID = req.roomID ∧
        (room.rs.checkEventVisibility user base.ev.originServerTS).1 = true := by
  rcases Server.eventContext_eq_ok h with ⟨room', base, tl, hroom', hbase, -, haround⟩
  obtain rfl : room = room' := Option.some.inj (hroom.symm.trans hroom')
  rcases Server.around_eq_ok haround with ⟨hev, hbefore, hafter⟩
  constructor
  · intro hc
    exact ⟨base, hbase, hev ▸ hc.base_room, hev ▸ hc.base_visible⟩
  · rintro ⟨base', hbase', hr, hv⟩
    obtain rfl : base = base' := Option.some.inj (hbase.symm.trans hbase')
    exact ⟨hev ▸ hr, hev ▸ hv, hbefore, hafter⟩

/-! ## A row of another room

A user of the room `!r:x` asks for the context of an event there, by the id of a message of `!s:x`.
-/

def rows₀ : List StreamEvent :=
  [⟨1, ⟨"$create", "!r:x", "m.room.create", some "", .null, 1, 1⟩⟩,
   ⟨2, ⟨"$join", "!r:x", "m.room.member", some "@u:x", .null, 2, 2⟩⟩,
   ⟨3, ⟨"$hello", "!r:x", "m.room.message", none, .null, 3, 3⟩⟩,
   ⟨5, ⟨"$secret", "!s:x", "m.room.message", none, .null, 5, 5⟩⟩]

def table₀ : Table :=
  .ofRows rows₀ (by unfold Ordered; decide) (by decide)

def room₀ : Room :=
  .joinedBy 1 "@u:x" 2 fun type _ =>
    if type = "m.room.create" then rows₀.head? else none

def server₀ : Server :=
  { Server.ofTable table₀ room₀ with
    roomState := fun roomID => if roomID = "!r:x" then some room₀ else none }

theorem context_confidential_iff_hello :
    ∃ resp, server₀.eventContext "@u:x" ⟨"!r:x", "$hello", 10⟩ = .ok resp ∧
      Confidential room₀ "@u:x" "!r:x" resp :=
  ⟨_, rfl, (context_confidential_iff server₀ "@u:x" ⟨"!r:x", "$hello", 10⟩ rfl rfl).mpr
    ⟨_, rfl, rfl, rfl⟩⟩

theorem context_of_other_room :
    ∃ resp, server₀.eventContext "@u:x" ⟨"!r:x", "$secret", 10⟩ = .ok resp ∧
      ¬ Confidential room₀ "@u:x" "!r:x" resp :=
  ⟨_, rfl, fun h => absurd h.base_room (by decide)⟩

end Ligase.Sync

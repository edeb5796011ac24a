import Ligase.Sync.TimeLine

/-!
# The join response of an incremental sync

A sync of the range `(start, end]` answers with the events of the range that are in the history
ring, from the newest backwards, until the limit is reached. The flag `limited` is to tell the
client that events may be missing.

* **`sync_complete_iff`**: when a response without the flag is complete.
-/

namespace Ligase.Sync

open Lib List

/-! ## The loop over the ring -/

structure SyncServerRequest where
  userID : String
  limit : Int
  isFullSync : Bool
  isHuman : Bool

def upTo (reqEnd offset : Int) : Bool := offset ≤ reqEnd || reqEnd = -1

structure JoinScan where
  msgEvent : List ClientEvent
  limit : Int
  firstTimeLine : Int
  firstTs : Int
  maxPos : Int
  limited : Bool

section
variable (v : Viewer) (reqStart reqEnd minStream : Int)

def JoinScan.visit (stream : StreamEvent) (sc : JoinScan) : JoinScan :=
  if upTo reqEnd stream.offset then
    let first := sc.firstTimeLine = -1 ∨ stream.offset < sc.firstTimeLine
    let output := v.shows stream.ev && !recorded sc.msgEvent stream.ev
    { sc with
      msgEvent := if output then sc.msgEvent ++ [stream.ev] else sc.msgEvent
      limit := if output then sc.limit - 1 else sc.limit
      firstTimeLine := if first then stream.offset else sc.firstTimeLine
      firstTs := if first then stream.ev.originServerTS else sc.firstTs
      maxPos := max sc.maxPos stream.offset }
  else sc

/-- From the newest entry back to the start of the range, or until the limit is reached, the room
was created, or entries come that are older than what the server holds without a gap. -/
def JoinScan.loop : List StreamEvent → JoinScan → JoinScan
  | [], sc => sc
  | stream :: feeds, sc =>
    if stream.offset ≤ reqStart then sc
    else
      let sc := sc.visit v reqEnd stream
      if sc.limit = 0 ∨ stream.ev.type = "m.room.create" ∨ stream.offset ≤ minStream then
        { sc with limited := stream.ev.type ≠ "m.room.create" }
      else loop feeds sc

end

/-- The first entry after the start by which the user ceases to be joined: its index from the oldest
entry, and its position. -/
def latestValidEv (user : String) (reqStart : Int) (data : List StreamEvent) :
    Option (Nat × Int) :=
  if reqStart > 0 then
    let ends (stream : StreamEvent) : Bool :=
      reqStart < stream.offset && stream.ev.type = "m.room.member" &&
        stream.ev.stateKey = some user && stream.ev.membership ≠ "join"
    match data.findIdx? ends, data.find? ends with
    | some i, some stream => some (i, stream.offset)
    | _, _ => none
  else none

/-! ## The state of the response -/

def stateMapKey (ev : ClientEvent) : String :=
  if ev.type = "m.room.member" then ev.type ++ ev.stateKey.getD "" else ev.type

/-- For every key the last event, in their order. -/
def aggregateStates : List ClientEvent → List ClientEvent
  | [] => []
  | ev :: evs =>
    if evs.any (stateMapKey · = stateMapKey ev) then aggregateStates evs
    else ev :: aggregateStates evs

def stateFeeds (realEnd firstTimeLine : Int) (states : List StreamEvent) : List StreamEvent :=
  (states.takeWhile fun stream => !(upTo realEnd stream.offset &&
    firstTimeLine ≤ stream.offset && 0 < firstTimeLine)).filter fun stream =>
      upTo realEnd stream.offset

/-! ## The response -/

structure JoinResponse where
  events : List ClientEvent
  limited : Bool
  prevBatch : String
  state : List ClientEvent

def JoinResponse.missing : JoinResponse where
  events := []
  limited := true
  prevBatch := buildPreBatch maxInt64 maxInt64
  state := []

/-- The flag, the token and the events of the time line after the loop. -/
def JoinScan.timeline (sc : JoinScan) (reqStart reqLimit : Int) (state : List ClientEvent) :
    JoinResponse :=
  if sc.firstTimeLine = -1 then
    { events := [], limited := true, prevBatch := buildPreBatch maxInt64 maxInt64, state := state }
  else
    { events := sc.msgEvent.reverse
      limited := sc.limited || (reqStart < sc.firstTimeLine && 0 < reqStart &&
        reqLimit ≤ sc.msgEvent.length)
      prevBatch := buildPreBatch (max (sc.firstTimeLine - 1) 0) sc.firstTs
      state := state }

/-- The response with the largest position in it and the users to be added. -/
def Server.buildRoomJoinResp (s : Server) (req : SyncServerRequest) (roomID : String)
    (reqStart reqEnd : Int) : JoinResponse × Int × List String :=
  match s.roomState roomID, s.history roomID with
  | some room, some history =>
    match room.getState "m.room.member" req.userID with
    | some stateEvt =>
      let maxMementEvOffset := room.joinMap.foldl (fun m entry => max m entry.2) 0
      let addNewUser := reqStart < maxMementEvOffset
      let needState := reqStart < stateEvt.offset ∨ req.isFullSync
      let reqStart := if needState then -1 else reqStart
      let latest := latestValidEv req.userID reqStart history.data
      let index := match latest with
        | some (i, _) => i + 1
        | none => 0
      let latestEvOffset := (latest.map (·.2)).getD 0
      let sc := JoinScan.loop (s.viewer room req.userID) reqStart reqEnd (s.roomMinStream roomID)
        (history.data.reverse.drop index) ⟨[], req.limit, -1, -1, -1, needState⟩
      match s.states roomID with
      | none => (.missing, sc.maxPos, [])
      | some states =>
        let realEnd :=
          if reqEnd ≠ -1 ∧ latestEvOffset ≠ 0 ∧ latestEvOffset - 1 < reqEnd then
            latestEvOffset - 1
          else reqEnd
        let feeds := stateFeeds realEnd sc.firstTimeLine states
        let maxPos := feeds.foldl (fun m stream => max m stream.offset) sc.maxPos
        let state := aggregateStates
          ((feeds.filter fun stream => needState ∨ reqStart < stream.offset).map (·.ev))
        let users := if (addNewUser ∨ needState) ∧ req.isHuman then room.joinMap.map (·.1) else []
        (sc.timeline reqStart req.limit state, maxPos, users)
    | none => (.missing, -1, [])
  | _, _ => (.missing, -1, [])

/-! ## Lemmas about the loop -/

section
variable {v : Viewer} {reqStart reqEnd minStream : Int} {sc : JoinScan} {stream : StreamEvent}
  {feeds : List StreamEvent}

def hit (v : Viewer) (reqEnd : Int) (stream : StreamEvent) : Bool :=
  upTo reqEnd stream.offset && v.shows stream.ev

open JoinScan

theorem visit_of_hit (h : hit v reqEnd stream = true)
    (hfresh : recorded sc.msgEvent stream.ev = false) :
    (sc.visit v reqEnd stream).msgEvent = sc.msgEvent ++ [stream.ev] ∧
      (sc.visit v reqEnd stream).limit = sc.limit - 1 := by
  have h := Bool.and_eq_true_iff.mp h
  simp [visit, h.1, h.2, hfresh]

theorem visit_of_not_hit (h : hit v reqEnd stream = false) :
    (sc.visit v reqEnd stream).msgEvent = sc.msgEvent ∧
      (sc.visit v reqEnd stream).limit = sc.limit := by
  unfold visit
  split_ifs with hup
  · have hs : v.shows stream.ev = false := by simpa [hit, hup] using h
    simp [hs]
  · exact ⟨rfl, rfl⟩

theorem limit_visit (v : Viewer) (reqEnd : Int) (h : Fresh sc.msgEvent (stream :: feeds)) :
    (sc.visit v reqEnd stream).limit = sc.limit - if hit v reqEnd stream = true then 1 else 0 := by
  cases hh : hit v reqEnd stream with
  | true => exact (visit_of_hit hh h.recorded_eq_false).2
  | false => simpa using (visit_of_not_hit hh).2

@[simp] theorem limited_visit : (sc.visit v reqEnd stream).limited = sc.limited := by
  unfold visit
  split_ifs <;> rfl

theorem fresh_visit (h : Fresh sc.msgEvent (stream :: feeds)) :
    Fresh (sc.visit v reqEnd stream).msgEvent feeds := by
  cases hh : hit v reqEnd stream with
  | true => rw [(visit_of_hit hh h.recorded_eq_false).1]; exact h.tail.2
  | false => rw [(visit_of_not_hit hh).1]; exact h.tail.1

theorem subset_visit : sc.msgEvent ⊆ (sc.visit v reqEnd stream).msgEvent := by
  unfold visit
  split_ifs
  · dsimp only
    split_ifs
    · exact subset_append_left _ _
    · exact List.Subset.refl _
  · exact List.Subset.refl _

theorem subset_loop : sc.msgEvent ⊆ (sc.loop v reqStart reqEnd minStream feeds).msgEvent := by
  induction feeds generalizing sc with
  | nil => exact List.Subset.refl _
  | cons stream feeds ih =>
    unfold loop
    dsimp only
    split_ifs
    · exact List.Subset.refl _
    · exact subset_visit
    · exact List.Subset.trans subset_visit ih

/-- **The loop misses nothing in the ring without setting the flag.** -/
theorem loop_complete (hfresh : Fresh sc.msgEvent feeds)
    (hdesc : feeds.Pairwise fun a b => b.offset < a.offset)
    (hcreate : feeds.Pairwise fun a _ => a.ev.type ≠ "m.room.create")
    (h : (sc.loop v reqStart reqEnd minStream feeds).limited = false) :
    ∀ e ∈ feeds, reqStart < e.offset → hit v reqEnd e = true →
      e.ev ∈ (sc.loop v reqStart reqEnd minStream feeds).msgEvent := by
  induction feeds generalizing sc with
  | nil => simp
  | cons stream feeds ih =>
    rw [pairwise_cons] at hdesc hcreate
    intro e he hstart hhit
    unfold loop at h ⊢
    dsimp only at h ⊢
    -- what the visit collects stays to the end
    have hself : e = stream → e.ev ∈ (sc.visit v reqEnd stream).msgEvent := by
      rintro rfl
      rw [(visit_of_hit hhit hfresh.recorded_eq_false).1]
      exact mem_append_right _ (mem_singleton_self _)
    split_ifs at h ⊢ with hle hbreak
    · -- the start is reached, and the entries that follow are older
      rcases mem_cons.mp he with rfl | he
      · omega
      · have := hdesc.1 e he
        omega
    · -- the room was created here, and nothing follows
      have htype : stream.ev.type = "m.room.create" := by simpa using h
      rcases mem_cons.mp he with heq | he
      · exact hself heq
      · exact absurd htype (hcreate.1 e he)
    · rcases mem_cons.mp he with heq | he
      · exact subset_loop (hself heq)
      · exact ih (fresh_visit hfresh) hdesc.2 hcreate.2 h e he hstart hhit

theorem loop_through_iff (hfresh : Fresh sc.msgEvent feeds) (hlimit : 0 < sc.limit)
    (hlimited : sc.limited = false)
    (h : ∀ e ∈ feeds, reqStart < e.offset ∧ e.ev.type ≠ "m.room.create") :
    (sc.loop v reqStart reqEnd minStream feeds).limited = false ↔
      (∀ e ∈ feeds, minStream < e.offset) ∧ (feeds.countP (hit v reqEnd) : Int) < sc.limit := by
  induction feeds generalizing sc with
  | nil => simp [loop, hlimited, hlimit]
  | cons stream feeds ih =>
    have hs := h stream mem_cons_self
    have hl := limit_visit v reqEnd hfresh
    unfold loop
    rw [if_neg (show ¬ stream.offset ≤ reqStart by omega), forall_mem_cons, countP_cons]
    by_cases hmin : stream.offset ≤ minStream
    · rw [if_pos (.inr (.inr hmin))]
      simp [hs.2, show ¬ minStream < stream.offset by omega]
    by_cases hzero : (sc.visit v reqEnd stream).limit = 0
    · -- the limit is reached with this entry
      rw [if_pos (.inl hzero)]
      have hcount : ¬ (((feeds.countP (hit v reqEnd) +
          if hit v reqEnd stream = true then 1 else 0 : Nat) : Int) < sc.limit) := by
        rw [hl] at hzero
        split_ifs at hzero ⊢ <;> omega
      exact iff_of_false (by simp [hs.2]) fun hr => hcount hr.2
    · rw [if_neg (by simp [hzero, hs.2, hmin])]
      have hpos : 0 < (sc.visit v reqEnd stream).limit := by
        rw [hl] at hzero ⊢
        split_ifs at hzero ⊢ <;> omega
      rw [ih (fresh_visit hfresh) hpos (limited_visit.trans hlimited)
        fun e he => h e (mem_cons_of_mem _ he), hl]
      have hmin' : minStream < stream.offset := by omega
      simp only [hmin', true_and]
      refine and_congr_right fun _ => ?_
      split_ifs <;> omega

theorem limited_loop_of_limited (h : ∀ e ∈ feeds, e.ev.type ≠ "m.room.create")
    (hlimited : sc.limited = true) :
    (sc.loop v reqStart reqEnd minStream feeds).limited = true := by
  induction feeds generalizing sc with
  | nil => exact hlimited
  | cons stream feeds ih =>
    unfold loop
    dsimp only
    split_ifs
    · exact hlimited
    · simpa using h stream mem_cons_self
    · exact ih (fun e he => h e (mem_cons_of_mem _ he)) (limited_visit.trans hlimited)

theorem loop_eq_foldl (h : ∀ e ∈ feeds, reqStart < e.offset ∧ e.ev.type ≠ "m.room.create")
    (hlimited : (sc.loop v reqStart reqEnd minStream feeds).limited = false) :
    sc.loop v reqStart reqEnd minStream feeds =
      feeds.foldl (fun sc e => sc.visit v reqEnd e) sc := by
  induction feeds generalizing sc with
  | nil => rfl
  | cons stream feeds ih =>
    have hs := h stream mem_cons_self
    unfold loop at hlimited ⊢
    dsimp only at hlimited ⊢
    rw [if_neg (show ¬ stream.offset ≤ reqStart by omega)] at hlimited ⊢
    split_ifs at hlimited ⊢ with hbreak
    · simp [hs.2] at hlimited
    · exact ih (fun e he => h e (mem_cons_of_mem _ he)) hlimited

theorem foldl_visit_of_not_upTo (h : ∀ e ∈ feeds, upTo reqEnd e.offset = false) :
    feeds.foldl (fun sc e => sc.visit v reqEnd e) sc = sc := by
  induction feeds with
  | nil => rfl
  | cons stream feeds ih =>
    have hs : sc.visit v reqEnd stream = sc := by
      rw [visit, h stream mem_cons_self]
      rfl
    rw [foldl_cons, hs]
    exact ih fun e he => h e (mem_cons_of_mem _ he)

theorem firstTimeLine_foldl (v : Viewer) (reqEnd : Int) (hpos : ∀ e ∈ feeds, 0 ≤ e.offset)
    (h : sc.firstTimeLine = -1) :
    (feeds.foldl (fun sc e => sc.visit v reqEnd e) sc).firstTimeLine = -1 ∧
        (∀ e ∈ feeds, upTo reqEnd e.offset = false) ∨
      ∃ e ∈ feeds, upTo reqEnd e.offset = true ∧
        (feeds.foldl (fun sc e => sc.visit v reqEnd e) sc).firstTimeLine = e.offset ∧
        ∀ w ∈ feeds, upTo reqEnd w.offset = true → e.offset ≤ w.offset := by
  induction feeds using List.reverseRecOn with
  | nil => exact .inl ⟨h, by simp⟩
  | append_singleton feeds stream ih =>
    obtain ⟨hpos, hstream⟩ := forall_mem_append.mp hpos
    have hstream := hstream stream (mem_singleton_self _)
    rw [foldl_append, foldl_cons, foldl_nil, forall_mem_append, forall_mem_singleton]
    simp only [forall_mem_append, forall_mem_singleton]
    by_cases hup : upTo reqEnd stream.offset = true
    · refine .inr ?_
      rw [visit, if_pos hup]
      dsimp only
      rcases ih hpos with ⟨hfirst, hnone⟩ | ⟨e, he, heup, hfirst, hle⟩
      · refine ⟨stream, by simp, hup, if_pos (.inl hfirst), fun w hw hwup => ?_, fun _ => le_rfl⟩
        rw [hnone w hw] at hwup
        cases hwup
      · have hepos := hpos e he
        rw [hfirst]
        by_cases hlt : stream.offset < e.offset
        · refine ⟨stream, by simp, hup, if_pos (.inr hlt), fun w hw hwup => ?_, fun _ => le_rfl⟩
          exact (Int.le_of_lt hlt).trans (hle w hw hwup)
        · exact ⟨e, mem_append_left _ he, heup, if_neg (by omega), hle, fun _ => by omega⟩
    · rw [visit, if_neg hup]
      rcases ih hpos with ⟨hfirst, hnone⟩ | ⟨e, he, heup, hfirst, hle⟩
      · exact .inl ⟨hfirst, hnone, Bool.eq_false_iff.mpr hup⟩
      · exact .inr ⟨e, mem_append_left _ he, heup, hfirst, hle, fun h => absurd h hup⟩

theorem msgEvent_foldl (hfresh : Fresh sc.msgEvent feeds) :
    (feeds.foldl (fun sc e => sc.visit v reqEnd e) sc).msgEvent =
      sc.msgEvent ++ (feeds.filter (hit v reqEnd)).map (·.ev) := by
  induction feeds generalizing sc with
  | nil => simp
  | cons stream feeds ih =>
    rw [foldl_cons, ih (fresh_visit hfresh)]
    cases hh : hit v reqEnd stream with
    | true => simp [hh, (visit_of_hit hh hfresh.recorded_eq_false).1]
    | false => simp [hh, (visit_of_not_hit hh).1]

end

/-! ## Completeness -/

/-- A joined user's room with a recent ring: its first event alone is the create event, and no
member event follows the user's current one by which they are not joined. -/
structure InSync (s : Server) (user roomID : String) (room : Room) (history : TimeLines)
    (stateEvt : StreamEvent) : Prop where
  room_eq : s.roomState roomID = some room
  history_eq : s.history roomID = some history
  stateEvt_eq : room.getState "m.room.member" user = some stateEvt
  states_isSome : (s.states roomID).isSome = true
  recent : history.Recent (s.db.live roomID)
  create_first : (s.db.live roomID).Pairwise fun _ b => b.ev.type ≠ "m.room.create"
  joined : ∀ e ∈ history.data, stateEvt.offset < e.offset → e.ev.type = "m.room.member" →
    e.ev.stateKey = some user → e.ev.membership = "join"

def Complete (s : Server) (v : Viewer) (roomID : String) (start stop : Int)
    (resp : JoinResponse) : Prop :=
  ∀ e ∈ s.db.room roomID, start < e.offset → hit v stop e = true → e.ev ∈ resp.events

/-- The ring reaches back to the range's first event that is shown, or the flag is set: the user
joined after the start, the ring has nothing of the range or an entry older than what the server
holds without a gap, or the limit is reached. -/
def Covered (v : Viewer) (stored : List StreamEvent) (history : TimeLines)
    (stateEvt : StreamEvent) (minStream start stop limit : Int) : Prop :=
  (∀ e ∈ stored, e.offset < history.lower → start < e.offset → hit v stop e = false) ∨
  start < stateEvt.offset ∨
  (∀ e ∈ history.data, start < e.offset → upTo stop e.offset = false) ∨
  (∃ e ∈ history.data, e.offset ≤ minStream) ∨
  limit ≤ (history.data.filter fun e => start < e.offset && hit v stop e).length

variable {state : List ClientEvent} {e : StreamEvent}

section
variable {s : Server} {req : SyncServerRequest} {roomID : String} {room : Room}
  {history : TimeLines} {stateEvt : StreamEvent} {start stop : Int}

theorem InSync.latestValidEv_eq_none
    (h : InSync s req.userID roomID room history stateEvt) (hle : stateEvt.offset ≤ start) :
    latestValidEv req.userID start history.data = none := by
  have hnone : history.data.findIdx? (fun stream => start < stream.offset &&
      stream.ev.type = "m.room.member" && stream.ev.stateKey = some req.userID &&
      stream.ev.membership ≠ "join") = none := by
    rw [findIdx?_eq_none_iff]
    intro e he
    by_contra hne
    simp only [Bool.not_eq_false, Bool.and_eq_true, decide_eq_true_eq] at hne
    exact hne.2 (h.joined e he (by omega) hne.1.1.2 hne.1.2)
  unfold latestValidEv
  split_ifs
  · simp only [hnone]
  · rfl

def finalScan (s : Server) (req : SyncServerRequest) (roomID : String) (room : Room)
    (history : TimeLines) (stateEvt : StreamEvent) (start stop : Int) : JoinScan :=
  JoinScan.loop (s.viewer room req.userID) (if start < stateEvt.offset then -1 else start) stop
    (s.roomMinStream roomID) history.data.reverse
    ⟨[], req.limit, -1, -1, -1, start < stateEvt.offset⟩

theorem InSync.buildRoomJoinResp_eq (h : InSync s req.userID roomID room history stateEvt)
    (hfull : req.isFullSync = false) (start stop : Int) :
    ∃ state, (s.buildRoomJoinResp req roomID start stop).1 =
      (finalScan s req roomID room history stateEvt start stop).timeline
        (if start < stateEvt.offset then -1 else start) req.limit state := by
  rcases Option.isSome_iff_exists.mp h.states_isSome with ⟨states, hstates⟩
  have hlatest : latestValidEv req.userID (if start < stateEvt.offset then -1 else start)
      history.data = none := by
    split_ifs with hlt
    · rfl
    · exact h.latestValidEv_eq_none (by omega)
  unfold Server.buildRoomJoinResp
  simp only [h.room_eq, h.history_eq, h.stateEvt_eq, hstates, hfull, or_false, Bool.false_eq_true,
    hlatest]
  exact ⟨_, rfl⟩

theorem timeline_limited_eq_false {sc : JoinScan} {reqStart limit : Int} :
    (sc.timeline reqStart limit state).limited = false ↔
      sc.firstTimeLine ≠ -1 ∧ sc.limited = false ∧
        ¬ (reqStart < sc.firstTimeLine ∧ 0 < reqStart ∧ limit ≤ sc.msgEvent.length) := by
  unfold JoinScan.timeline
  split_ifs with hfirst
  · simp [hfirst]
  · simp [hfirst]

theorem mem_events_timeline {sc : JoinScan} {reqStart limit : Int} (h : sc.firstTimeLine ≠ -1)
    (ev : ClientEvent) : ev ∈ (sc.timeline reqStart limit state).events ↔ ev ∈ sc.msgEvent := by
  rw [JoinScan.timeline, if_neg h]
  exact mem_reverse

theorem finalScan_of_short (hle : stateEvt.offset ≤ start)
    (hshort : ∀ d ∈ history.data, start < d.offset ∧ d.ev.type ≠ "m.room.create")
    (hlimited : (finalScan s req roomID room history stateEvt start stop).limited = false) :
    finalScan s req roomID room history stateEvt start stop = history.data.reverse.foldl
        (fun sc e => sc.visit (s.viewer room req.userID) stop e)
        ⟨[], req.limit, -1, -1, -1, start < stateEvt.offset⟩ := by
  have hnot : ¬ start < stateEvt.offset := by omega
  rw [finalScan, if_neg hnot] at hlimited ⊢
  exact loop_eq_foldl (by simpa only [mem_reverse] using hshort) hlimited

theorem count_of_short {v : Viewer} (hshort : ∀ d ∈ history.data, start < d.offset) :
    (history.data.filter fun d => start < d.offset && hit v stop d).length =
      history.data.countP (hit v stop) := by
  rw [← countP_eq_length_filter]
  refine countP_congr fun d hd => ?_
  simp [hshort d hd]

def BeginsAfter (history : TimeLines) (e : StreamEvent) : Prop :=
  ∀ d ∈ history.data, e.offset < d.offset ∧ d.ev.type ≠ "m.room.create" ∧
    e.ev.eventID ≠ d.ev.eventID

theorem BeginsAfter.after (h : BeginsAfter history e) (hlt : start < e.offset) :
    ∀ d ∈ history.data, start < d.offset ∧ d.ev.type ≠ "m.room.create" := by
  intro d hd
  exact ⟨hlt.trans (h d hd).1, (h d hd).2.1⟩

namespace InSync

variable (h : InSync s req.userID roomID room history stateEvt)
include h

theorem pos (he : e ∈ history.data) : 0 < e.offset :=
  (Table.mem_live.mp (h.recent.suffix.subset he)).2

theorem fresh : Fresh [] history.data.reverse := h.recent.fresh (s.db.unique_live roomID)

theorem desc : history.data.reverse.Pairwise fun a b => b.offset < a.offset :=
  h.recent.desc (s.db.ordered_live roomID)

theorem create_last : history.data.reverse.Pairwise fun a _ => a.ev.type ≠ "m.room.create" :=
  pairwise_reverse.mpr (h.create_first.sublist h.recent.suffix.sublist)

theorem mem_or_short (he : e ∈ s.db.live roomID) : e ∈ history.data ∨ BeginsAfter history e := by
  exact h.recent.mem_or_before (R := fun a b => a.offset < b.offset ∧
    b.ev.type ≠ "m.room.create" ∧ a.ev.eventID ≠ b.ev.eventID)
    ((s.db.ordered_live roomID).and (h.create_first.and (s.db.unique_live roomID))) he

theorem limited_of_short (hlimit : 0 < req.limit) (hle : stateEvt.offset ≤ start)
    (hshort : ∀ d ∈ history.data, start < d.offset ∧ d.ev.type ≠ "m.room.create") :
    (finalScan s req roomID room history stateEvt start stop).limited = false ↔
      (∀ d ∈ history.data, s.roomMinStream roomID < d.offset) ∧
        (history.data.countP (hit (s.viewer room req.userID) stop) : Int) < req.limit := by
  have hnot : ¬ start < stateEvt.offset := by omega
  rw [finalScan, if_neg hnot, loop_through_iff h.fresh hlimit (by simpa using hle)]
  · simp only [mem_reverse, countP_reverse]
  · simpa only [mem_reverse] using hshort

theorem not_covered_of_short (hlimit : 0 < req.limit)
    (hfirst : (finalScan s req roomID room history stateEvt start stop).firstTimeLine ≠ -1)
    (hlimited : (finalScan s req roomID room history stateEvt start stop).limited = false)
    (he : e ∈ s.db.live roomID) (hlt : start < e.offset)
    (hhit : hit (s.viewer room req.userID) stop e = true) (hshort : BeginsAfter history e) :
    ¬ Covered (s.viewer room req.userID) (s.db.live roomID) history stateEvt
      (s.roomMinStream roomID) start stop req.limit := by
  have hshort' := hshort.after hlt
  have hle : stateEvt.offset ≤ start := by
    by_contra hnot
    have hset : (finalScan s req roomID room history stateEvt start stop).limited = true :=
      limited_loop_of_limited (fun d hd => (hshort d (mem_reverse.mp hd)).2.1)
        (by simpa using hnot)
    rw [hlimited] at hset
    cases hset
  rcases (h.limited_of_short hlimit hle hshort').mp hlimited with ⟨hmin, hcount⟩
  rw [finalScan_of_short hle hshort' hlimited] at hfirst
  rintro (hnone | hjoin | hup | ⟨d, hd, hdmin⟩ | hreached)
  · have hne : history.data ≠ [] := by
      intro hnil
      rw [hnil] at hfirst
      exact hfirst rfl
    rcases TimeLines.firstOffset_mem hne with ⟨d, hd, hdfirst⟩
    have holder : e.offset < history.lower := by
      rw [h.recent.lower, ← hdfirst]
      exact (hshort d hd).1
    rw [hnone e he holder hlt] at hhit
    cases hhit
  · omega
  · refine hfirst ?_
    rw [foldl_visit_of_not_upTo]
    intro d hd
    have hd := mem_reverse.mp hd
    exact hup d hd (hshort' d hd).1
  · have := hmin d hd
    omega
  · rw [count_of_short fun d hd => (hshort' d hd).1] at hreached
    omega

theorem lost {d : StreamEvent} (hlimit : 0 < req.limit) (hle : stateEvt.offset ≤ start)
    (he : e ∈ s.db.live roomID) (holder : e.offset < history.lower) (hlt : start < e.offset)
    (hd : d ∈ history.data) (hup : upTo stop d.offset = true)
    (hmin : ∀ d ∈ history.data, s.roomMinStream roomID < d.offset)
    (hcount : ((history.data.filter fun d => start < d.offset && hit (s.viewer room req.userID)
      stop d).length : Int) < req.limit) :
    ∃ resp, resp = (finalScan s req roomID room history stateEvt start stop).timeline
        (if start < stateEvt.offset then -1 else start) req.limit state ∧
      resp.limited = false ∧ e.ev ∉ resp.events := by
  have hshort : BeginsAfter history e := by
    refine (h.mem_or_short he).resolve_left fun hmem => ?_
    have := h.recent.lower_le (s.db.ordered_live roomID) hmem
    omega
  have hshort' := hshort.after hlt
  rw [count_of_short fun d hd => (hshort' d hd).1] at hcount
  have hlimited := (h.limited_of_short hlimit hle hshort').mpr ⟨hmin, hcount⟩
  have hscan := finalScan_of_short hle hshort' hlimited
  have hmsg := (congrArg JoinScan.msgEvent hscan).trans (msgEvent_foldl h.fresh)
  have hfirst : 0 < (finalScan s req roomID room history stateEvt start stop).firstTimeLine := by
    rw [hscan]
    have hpos : ∀ e ∈ history.data.reverse, 0 < e.offset := fun e he => h.pos (mem_reverse.mp he)
    have hsc : JoinScan.firstTimeLine ⟨[], req.limit, -1, -1, -1, start < stateEvt.offset⟩ = -1 :=
      rfl
    rcases firstTimeLine_foldl _ _ (fun e he => Int.le_of_lt (hpos e he)) hsc with
      ⟨-, hnone⟩ | ⟨e, he, -, hfirst, -⟩
    · rw [hnone d (mem_reverse.mpr hd)] at hup
      cases hup
    · exact hfirst ▸ hpos e he
  refine ⟨_, rfl, timeline_limited_eq_false.mpr ⟨by omega, hlimited, ?_⟩, ?_⟩
  · have hlen : (finalScan s req roomID room history stateEvt start stop).msgEvent.length =
        history.data.countP (hit (s.viewer room req.userID) stop) := by
      rw [hmsg, nil_append, length_map, ← countP_eq_length_filter, countP_reverse]
    omega
  · rw [mem_events_timeline (by omega), hmsg, nil_append]
    intro hmem
    rcases mem_map.mp hmem with ⟨d, hd, heq⟩
    have hd := mem_reverse.mp (mem_of_mem_filter hd)
    exact (hshort d hd).2.2 (congrArg ClientEvent.eventID heq).symm

end InSync

/-- **Completeness of a sync without the flag.** -/
theorem sync_complete_iff (req : SyncServerRequest)
    (h : InSync s req.userID roomID room history stateEvt)
    (hlimit : 0 < req.limit) (hfull : req.isFullSync = false) (hstart : 0 ≤ start) :
    ((s.buildRoomJoinResp req roomID start stop).1.limited = false →
      Complete s (s.viewer room req.userID) roomID start stop
        (s.buildRoomJoinResp req roomID start stop).1) ↔
      Covered (s.viewer room req.userID) (s.db.live roomID) history stateEvt
        (s.roomMinStream roomID) start stop req.limit := by
  rcases h.buildRoomJoinResp_eq hfull start stop with ⟨state, heq⟩
  rw [heq]
  constructor
  · intro hcomplete
    by_contra hlost
    simp only [Covered, not_or, not_forall, not_exists, not_and, Bool.not_eq_false,
      Int.not_lt, Int.not_le, exists_prop] at hlost
    rcases hlost with ⟨⟨e, he, holder, hlt, hhit⟩, hle, ⟨d, hd, -, hup⟩, hmin, hcount⟩
    rcases h.lost hlimit hle he holder hlt hd hup hmin hcount with ⟨_, rfl, hlimited, hmem⟩
    exact hmem (hcomplete hlimited e (Table.mem_live.mp he).1 hlt hhit)
  · intro hcov hunset e he hlt hhit
    rcases timeline_limited_eq_false.mp hunset with ⟨hfirst, hlimited, -⟩
    rw [mem_events_timeline hfirst]
    have hlive := Table.mem_live.mpr ⟨he, by omega⟩
    rcases h.mem_or_short hlive with hmem | hshort
    · refine loop_complete h.fresh h.desc h.create_last hlimited e (mem_reverse.mpr hmem) ?_
        hhit
      split_ifs <;> omega
    · exact absurd hcov (h.not_covered_of_short hlimit hfirst hlimited hlive hlt hhit hshort)

end

/-! ## More events since the last sync than the ring has

The room has a create event, the join of a user and 31 messages. After the server has started the
ring holds the newest 30 events; a sync of everything after the join with the limit 50 does not have
the first message.
-/

def joinEvent : StreamEvent := ⟨2, ⟨"$join", "!r:x", "m.room.member", some "@u:x", .null, 2, 2⟩⟩

def message (n : Nat) : StreamEvent :=
  ⟨n, ⟨"$m" ++ itoa n, "!r:x", "m.room.message", none, .null, n, n⟩⟩

def busyRows : List StreamEvent :=
  ⟨1, ⟨"$create", "!r:x", "m.room.create", some "", .null, 1, 1⟩⟩ :: joinEvent ::
    (List.range 31).map fun i => message (i + 3)

def busyTable : Table :=
  .ofRows busyRows (by unfold Ordered; decide +kernel) (by decide +kernel)

def busyRoom : Room :=
  .joinedBy 1 "@u:x" 2 fun type _ =>
    if type = "m.room.member" then some joinEvent else busyRows.head?

def busyServer : Server := .ofTable busyTable busyRoom

theorem inSync_busy :
    InSync busyServer "@u:x" "!r:x" busyRoom (loadHistory busyTable "!r:x") joinEvent where
  room_eq := rfl
  history_eq := rfl
  stateEvt_eq := rfl
  states_isSome := rfl
  recent := loadHistory_recent busyTable "!r:x"
  create_first := by decide +kernel
  joined := by decide +kernel

theorem sync_complete_iff_recent :
    (busyServer.buildRoomJoinResp ⟨"@u:x", 50, false, true⟩ "!r:x" 10 33).1.limited = false ∧
      Complete busyServer (busyServer.viewer busyRoom "@u:x") "!r:x" 10 33
        (busyServer.buildRoomJoinResp ⟨"@u:x", 50, false, true⟩ "!r:x" 10 33).1 := by
  have h : (busyServer.buildRoomJoinResp ⟨"@u:x", 50, false, true⟩ "!r:x" 10 33).1.limited =
      false := by decide +kernel
  refine ⟨h, (sync_complete_iff ⟨"@u:x", 50, false, true⟩ inSync_busy (by decide) rfl
    (by decide)).mpr (.inl ?_) h⟩
  decide +kernel

theorem sync_loses_message :
    (busyServer.buildRoomJoinResp ⟨"@u:x", 50, false, true⟩ "!r:x" 2 33).1.limited = false ∧
      ¬ Complete busyServer (busyServer.viewer busyRoom "@u:x") "!r:x" 2 33
        (busyServer.buildRoomJoinResp ⟨"@u:x", 50, false, true⟩ "!r:x" 2 33).1 := by
  refine ⟨by decide +kernel, fun h => ?_⟩
  have hmem := h (message 3) (Table.mem_room.mpr ⟨?_, rfl⟩) (by decide) (by decide)
  · have hid := mem_map_of_mem (f := ClientEvent.eventID) hmem
    revert hid
    decide +kernel
  · exact mem_cons_of_mem _ (mem_cons_of_mem _
      (mem_map_of_mem (a := 0) (by decide)))

end Ligase.Sync

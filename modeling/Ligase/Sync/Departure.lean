import Ligase.Sync.JoinResp

/-!
# A sync after the user has left

The current state of the room may still show a join when the ring already has the event by which the
user leaves. The sync then cuts the ring off. The place of the event is counted from the oldest
entry, the entries are dropped from the newest one on.

* **`before_departure_iff`**: when nothing at or after the event by which the user leaves is sent.
-/

namespace Ligase.Sync

open Lib List

/-! ## What the loop collects after a position -/

def stops (limit minStream : Int) (stream : StreamEvent) : Bool :=
  limit = 0 || stream.ev.type = "m.room.create" || stream.offset ≤ minStream

variable {ev : ClientEvent} {limit : Int}

section
variable {v : Viewer} {reqStart reqEnd minStream : Int} {sc : JoinScan} {stream : StreamEvent}
  {feeds : List StreamEvent} {pos : Int}

/-- Of the entries that stay, every one at or after `pos` that would be collected is older than one
that ends the loop. -/
def Unsent (v : Viewer) (reqEnd minStream limit pos : Int) (data : List StreamEvent)
    (stays : Nat → Prop) : Prop :=
  ∀ (j : Nat) e, data[j]? = some e → stays j → pos ≤ e.offset → hit v reqEnd e = true →
    ∃ j' e', j < j' ∧ data[j']? = some e' ∧ stays j' ∧ stops limit minStream e' = true

/-- The loop gets to the `i`-th entry: those up to it are after the start, and none before it ends
the loop. After the entries `p` there is `left p` left of the limit. -/
def GetsTo (reqStart minStream : Int) (left : List StreamEvent → Int) (feeds : List StreamEvent)
    (i : Nat) : Prop :=
  (∀ e ∈ feeds.take (i + 1), reqStart < e.offset) ∧
    ∀ k < i, ∀ e, feeds[k]? = some e → stops (left (feeds.take (k + 1))) minStream e = false

theorem getsTo_succ {left : List StreamEvent → Int} {i : Nat} :
    GetsTo reqStart minStream left (stream :: feeds) (i + 1) ↔ reqStart < stream.offset ∧
      stops (left [stream]) minStream stream = false ∧
        GetsTo reqStart minStream (fun p => left (stream :: p)) feeds i := by
  unfold GetsTo
  rw [take_succ_cons, forall_mem_cons, and_assoc]
  refine and_congr_right fun _ => ⟨fun ⟨h, hk⟩ => ⟨hk 0 i.succ_pos stream rfl, h, fun k hlt e he =>
    hk (k + 1) (Nat.succ_lt_succ hlt) e he⟩, fun ⟨h0, h, hk⟩ => ⟨h, fun k hlt e he => ?_⟩⟩
  cases k with
  | zero =>
    obtain rfl := Option.some.inj he
    exact h0
  | succ k => exact hk k (Nat.lt_of_succ_lt_succ hlt) e he

theorem loop_eq_take : ∃ n limited, sc.loop v reqStart reqEnd minStream feeds =
      { (feeds.take n).foldl (fun sc e => sc.visit v reqEnd e) sc with limited } ∧
    ∀ i < feeds.length, i < n ↔ GetsTo reqStart minStream
      (fun p => (p.foldl (fun sc e => sc.visit v reqEnd e) sc).limit) feeds i := by
  induction feeds generalizing sc with
  | nil => exact ⟨0, sc.limited, rfl, fun i hi => absurd hi i.not_lt_zero⟩
  | cons stream feeds ih =>
    unfold JoinScan.loop
    by_cases hstart : stream.offset ≤ reqStart
    · rw [if_pos hstart]
      exact ⟨0, sc.limited, rfl, fun i _ => iff_of_false i.not_lt_zero fun h =>
        absurd (h.1 stream (by simp)) (Int.not_lt.mpr hstart)⟩
    have hstart' := Int.not_le.mp hstart
    have h0 : GetsTo reqStart minStream
        (fun p => (p.foldl (fun sc e => sc.visit v reqEnd e) sc).limit) (stream :: feeds) 0 :=
      ⟨by simpa using hstart', fun k hk => absurd hk k.not_lt_zero⟩
    rw [if_neg hstart]
    dsimp only
    by_cases hst : stops (sc.visit v reqEnd stream).limit minStream stream = true
    · rw [if_pos (by simpa [stops, or_assoc] using hst)]
      refine ⟨1, _, rfl, fun i _ => ?_⟩
      cases i with
      | zero => exact iff_of_true Nat.one_pos h0
      | succ i =>
        refine iff_of_false (by omega) fun h => ?_
        exact absurd hst (Bool.eq_false_iff.mp (getsTo_succ.mp h).2.1)
    · rw [if_neg (by simpa [stops, or_assoc] using hst)]
      obtain ⟨n, limited, hloop, hn⟩ := @ih (sc.visit v reqEnd stream)
      refine ⟨n + 1, limited, hloop, fun i hi => ?_⟩
      cases i with
      | zero => exact iff_of_true n.succ_pos h0
      | succ i =>
        rw [Nat.succ_lt_succ_iff, hn i (Nat.lt_of_succ_lt_succ hi), getsTo_succ]
        exact (and_iff_right hstart').trans (and_iff_right (Bool.eq_false_iff.mpr hst)) |>.symm

theorem mem_visit (h : ev ∈ (sc.visit v reqEnd stream).msgEvent) :
    ev ∈ sc.msgEvent ∨ ev = stream.ev := by
  unfold JoinScan.visit at h
  split_ifs at h
  · dsimp only at h
    split_ifs at h
    · simpa using h
    · exact .inl h
  · exact .inl h

theorem mem_loop (h : ev ∈ (sc.loop v reqStart reqEnd minStream feeds).msgEvent) :
    ev ∈ sc.msgEvent ∨ ∃ e ∈ feeds, e.ev = ev := by
  induction feeds generalizing sc with
  | nil => exact .inl h
  | cons stream feeds ih =>
    have hvisit : ev ∈ (sc.visit v reqEnd stream).msgEvent →
        ev ∈ sc.msgEvent ∨ ∃ e ∈ stream :: feeds, e.ev = ev := fun hev =>
      (mem_visit hev).imp_right fun heq => ⟨stream, mem_cons_self, heq.symm⟩
    unfold JoinScan.loop at h
    dsimp only at h
    split_ifs at h
    · exact .inl h
    · exact hvisit h
    · rcases ih h with hev | ⟨e, he, heq⟩
      · exact hvisit hev
      · exact .inr ⟨e, mem_cons_of_mem _ he, heq⟩

theorem mem_loop_of_hit (hstart : reqStart < stream.offset) (hhit : hit v reqEnd stream = true)
    (hnil : sc.msgEvent = []) :
    stream.ev ∈ (sc.loop v reqStart reqEnd minStream (stream :: feeds)).msgEvent := by
  have hnew : stream.ev ∈ (sc.visit v reqEnd stream).msgEvent := by
    rw [(visit_of_hit hhit (by simp [recorded, hnil])).1]
    exact mem_append_right _ (mem_singleton_self _)
  rw [JoinScan.loop, if_neg (by omega)]
  dsimp only
  split_ifs
  · exact hnew
  · exact subset_loop hnew

theorem loop_cons_of_not_hit (hstart : reqStart < stream.offset)
    (hhit : hit v reqEnd stream = false) :
    (sc.loop v reqStart reqEnd minStream (stream :: feeds)).msgEvent =
      if stops sc.limit minStream stream then sc.msgEvent
      else ((sc.visit v reqEnd stream).loop v reqStart reqEnd minStream feeds).msgEvent := by
  obtain ⟨hmsg, hlimit⟩ : (sc.visit v reqEnd stream).msgEvent = sc.msgEvent ∧ _ :=
    visit_of_not_hit hhit
  rw [JoinScan.loop, if_neg (by omega)]
  dsimp only
  rw [hlimit]
  by_cases hst : stops sc.limit minStream stream = true
  · rw [if_pos hst, if_pos (by simpa [stops, or_assoc] using hst)]
    exact hmsg
  · rw [if_neg hst, if_neg (by simpa [stops, or_assoc] using hst)]

section
variable {data : List StreamEvent} {m : Nat}

theorem unsent_succ_iff (hget : data[m]? = some stream) (hs : hit v reqEnd stream = false)
    (hst : stops limit minStream stream = false) :
    Unsent v reqEnd minStream limit pos data (· < m + 1) ↔
      Unsent v reqEnd minStream limit pos data (· < m) := by
  constructor
  · intro h j e he hj hle hhit
    obtain ⟨j', e', hlt, he', hj', hstop⟩ := h j e he (Nat.lt_succ_of_lt hj) hle hhit
    rcases Nat.lt_succ_iff_lt_or_eq.mp hj' with hj' | rfl
    · exact ⟨j', e', hlt, he', hj', hstop⟩
    · obtain rfl := Option.some.inj (hget.symm.trans he')
      rw [hst] at hstop
      cases hstop
  · intro h j e he hj hle hhit
    rcases Nat.lt_succ_iff_lt_or_eq.mp hj with hj | rfl
    · obtain ⟨j', e', hlt, he', hj', hstop⟩ := h j e he hj hle hhit
      exact ⟨j', e', hlt, he', Nat.lt_succ_of_lt hj', hstop⟩
    · obtain rfl := Option.some.inj (hget.symm.trans he)
      rw [hs] at hhit
      cases hhit

theorem unsent_iff (hpos : reqStart < pos) (hord : data.Pairwise fun a b => a.offset ≤ b.offset)
    (honce : ∀ a ∈ data, ∀ b ∈ data, a.ev = b.ev → a.offset = b.offset) (hm : m ≤ data.length)
    (hnil : sc.msgEvent = []) : Unsent v reqEnd minStream sc.limit pos data (· < m) ↔
      ∀ ev ∈ (sc.loop v reqStart reqEnd minStream (data.take m).reverse).msgEvent,
        ∃ e ∈ data, e.offset < pos ∧ e.ev = ev := by
  induction m generalizing sc with
  | zero =>
    exact iff_of_true (fun j e _ hj => absurd hj j.not_lt_zero) (by simp [JoinScan.loop, hnil])
  | succ m ih =>
    obtain ⟨stream, hget⟩ : ∃ stream, data[m]? = some stream := ⟨_, getElem?_eq_getElem hm⟩
    have htake : data.take (m + 1) = data.take m ++ [stream] := by
      rw [take_add_one, hget]
      rfl
    by_cases hlt : stream.offset < pos
    · have hall : ∀ e ∈ data.take (m + 1), e.offset < pos := by
        have hpw := hord.sublist (take_sublist (m + 1) data)
        rw [htake, pairwise_append] at hpw
        rw [htake, forall_mem_append, forall_mem_singleton]
        exact ⟨fun e he => Int.lt_of_le_of_lt (hpw.2.2 e he stream (by simp)) hlt, hlt⟩
      refine iff_of_true (fun j e he hj hle => ?_) fun ev hev => ?_
      · exact absurd (hall e (mem_of_getElem? (i := j) (by rw [getElem?_take, if_pos hj, he])))
          (Int.not_lt.mpr hle)
      · obtain ⟨e, he, heq⟩ := (mem_loop hev).resolve_left (by simp [hnil])
        have he := mem_reverse.mp he
        exact ⟨e, mem_of_mem_take he, hall e he, heq⟩
    rw [htake, reverse_append, reverse_singleton, singleton_append]
    cases hs : hit v reqEnd stream with
    | true =>
      refine iff_of_false (fun h => ?_) fun h => ?_
      · obtain ⟨j', e', hlt', -, hj', -⟩ := h m stream hget m.lt_succ_self (by omega) hs
        omega
      obtain ⟨e, he, hlt', heq⟩ := h stream.ev (mem_loop_of_hit (by omega) hs hnil)
      have := honce e he stream (mem_of_getElem? hget) heq
      omega
    | false =>
      obtain ⟨hmsg, hlimit⟩ : (sc.visit v reqEnd stream).msgEvent = sc.msgEvent ∧ _ :=
        visit_of_not_hit hs
      rw [loop_cons_of_not_hit (by omega) hs]
      by_cases hst : stops sc.limit minStream stream = true
      · rw [if_pos hst, hnil]
        refine iff_of_true (fun j e he hj _ hhit => ?_) fun _ h => absurd h not_mem_nil
        rcases Nat.lt_succ_iff_lt_or_eq.mp hj with hj | rfl
        · exact ⟨m, stream, hj, hget, m.lt_succ_self, hst⟩
        · obtain rfl := Option.some.inj (hget.symm.trans he)
          rw [hs] at hhit
          cases hhit
      · rw [if_neg hst, unsent_succ_iff hget hs (Bool.eq_false_iff.mpr hst), ← hlimit]
        exact ih (Nat.le_of_succ_le hm) (hmsg.trans hnil)

end

theorem firstTimeLine_loop_pos (hfeeds : ∀ e ∈ feeds, 0 < e.offset)
    (hfirst : sc.firstTimeLine = -1) (hnil : sc.msgEvent = [])
    (h : (sc.loop v reqStart reqEnd minStream feeds).msgEvent ≠ []) :
    0 < (sc.loop v reqStart reqEnd minStream feeds).firstTimeLine := by
  obtain ⟨n, limited, hloop, -⟩ : ∃ n limited, sc.loop v reqStart reqEnd minStream feeds = _ ∧ _ :=
    loop_eq_take
  have hpos : ∀ e ∈ feeds.take n, 0 < e.offset := fun e he => hfeeds e (mem_of_mem_take he)
  rw [hloop] at h ⊢
  rcases firstTimeLine_foldl v reqEnd (fun e he => Int.le_of_lt (hpos e he)) hfirst with
    ⟨-, hnone⟩ | ⟨e, he, -, heq, -⟩
  · rw [foldl_visit_of_not_upTo hnone] at h
    exact absurd hnil h
  · exact heq ▸ hpos e he

end

/-! ## The response after the user has left -/

section
variable (user : String) (start : Int)

/-- A member event after the start by which the user is not joined. -/
structure Departs (stream : StreamEvent) : Prop where
  type_eq : stream.ev.type = "m.room.member"
  stateKey_eq : stream.ev.stateKey = some user
  not_join : stream.ev.membership ≠ "join"
  after : start < stream.offset

variable (data : List StreamEvent)

structure Departure where
  stream : StreamEvent
  mem : stream ∈ data
  departs : Departs user start stream

/-- The first departure, from the oldest entry on; there is a search for it only from a start after
0. -/
structure FirstDeparts (i : Nat) (stream : StreamEvent) : Prop where
  pos : 0 < start
  get : data[i]? = some stream
  departs : Departs user start stream
  first : ∀ k < i, ∀ e, data[k]? = some e → ¬ Departs user start e

/-- As many of the newest entries are cut off as there are up to the first departure. -/
def CutAt (n : Nat) : Prop :=
  (∃ i d, FirstDeparts user start data i d ∧ n = i + 1) ∨
    (∀ i d, ¬ FirstDeparts user start data i d) ∧ n = 0

/-- A room whose state shows the user's join at or before the start, with a ring whose live events
are in order. -/
structure ShownJoined (s : Server) (user roomID : String) (start : Int) (room : Room)
    (history : TimeLines) (stateEvt : StreamEvent) : Prop where
  room_eq : s.roomState roomID = some room
  history_eq : s.history roomID = some history
  stateEvt_eq : room.getState "m.room.member" user = some stateEvt
  joined : stateEvt.ev.membership = "join"
  before : stateEvt.offset ≤ start
  ordered : history.data.Pairwise fun a b => a.offset ≤ b.offset
  pos : ∀ e ∈ history.data, 0 < e.offset
  once : ∀ a ∈ history.data, ∀ b ∈ history.data, a.ev = b.ev → a.offset = b.offset

def cutOff : Nat :=
  ((latestValidEv user start data).map fun latest => latest.1 + 1).getD 0

/-- What the cut leaves, from the oldest entry on. -/
def remaining : List StreamEvent :=
  data.take (data.length - cutOff user start data)

end

section
variable {user : String} {start : Int} {data : List StreamEvent}

theorem latestValidEv_eq_some {i : Nat} {pos : Int} :
    latestValidEv user start data = some (i, pos) ↔
      ∃ stream, FirstDeparts user start data i stream ∧ stream.offset = pos := by
  unfold latestValidEv
  by_cases hstart : 0 < start
  · rw [if_pos hstart]
    dsimp only
    obtain ⟨ends, hends⟩ : ∃ ends : StreamEvent → Bool, ends = fun stream : StreamEvent =>
      start < stream.offset && stream.ev.type = "m.room.member" &&
        stream.ev.stateKey = some user && stream.ev.membership ≠ "join" := ⟨_, rfl⟩
    have hiff : ∀ e, Departs user start e ↔ ends e = true := by
      intro e
      rw [hends]
      simp only [Bool.and_eq_true, decide_eq_true_eq]
      exact ⟨fun h => ⟨⟨⟨h.after, h.type_eq⟩, h.stateKey_eq⟩, h.not_join⟩,
        fun ⟨⟨⟨h₁, h₂⟩, h₃⟩, h₄⟩ => ⟨h₂, h₃, h₄, h₁⟩⟩
    rw [← hends, find?_eq_bind_findIdx?_getElem?]
    constructor
    · cases hidx : data.findIdx? ends with
      | none => exact nofun
      | some k =>
        obtain ⟨hk, hend, hfirst⟩ := findIdx?_eq_some_iff_getElem.mp hidx
        rw [Option.bind_some, getElem?_eq_getElem hk]
        intro h
        cases h
        refine ⟨_, ⟨hstart, getElem?_eq_getElem hk, (hiff _).mpr hend, fun j hj e he hd => ?_⟩, rfl⟩
        obtain ⟨hj', rfl⟩ := List.getElem?_eq_some_iff.mp he
        exact hfirst j hj ((hiff _).mp hd)
    · rintro ⟨stream, ⟨-, hget, hd, hfirst⟩, rfl⟩
      obtain ⟨hi, rfl⟩ := List.getElem?_eq_some_iff.mp hget
      rw [findIdx?_eq_some_iff_getElem.mpr ⟨hi, (hiff _).mp hd, fun k hk hend => hfirst k hk _
        (getElem?_eq_getElem (hk.trans hi)) ((hiff _).mpr hend)⟩, Option.bind_some, hget]
  · rw [if_neg hstart]
    exact ⟨nofun, fun ⟨_, h, _⟩ => absurd h.pos hstart⟩

theorem latestValidEv_cases :
    latestValidEv user start data = none ∧ (∀ i d, ¬ FirstDeparts user start data i d) ∨
      ∃ i d, latestValidEv user start data = some (i, d.offset) ∧
        FirstDeparts user start data i d ∧
        ∀ i' d', FirstDeparts user start data i' d' → i' = i ∧ d'.offset = d.offset := by
  cases hl : latestValidEv user start data with
  | none =>
    refine .inl ⟨rfl, fun i d hd => ?_⟩
    rw [latestValidEv_eq_some.mpr ⟨d, hd, rfl⟩] at hl
    cases hl
  | some latest =>
    obtain ⟨d, hd, heq⟩ := latestValidEv_eq_some.mp hl
    refine .inr ⟨latest.1, d, by rw [heq], hd, fun i' d' hd' => ?_⟩
    rw [latestValidEv_eq_some.mpr ⟨d', hd', rfl⟩] at hl
    cases hl
    exact ⟨rfl, heq.symm⟩

theorem cutAt_iff {n : Nat} : CutAt user start data n ↔ n = cutOff user start data := by
  unfold CutAt cutOff
  rcases latestValidEv_cases with ⟨hl, hnone⟩ | ⟨i, d, hl, hd, huniq⟩ <;> rw [hl]
  · simp [hnone]
  · refine ⟨?_, fun h => .inl ⟨i, d, hd, h⟩⟩
    rintro (⟨i', d', hd', rfl⟩ | ⟨hnone, -⟩)
    · rw [(huniq i' d' hd').1]
      rfl
    · exact absurd hd (hnone i d)

end

section
variable {s : Server} {req : SyncServerRequest} {roomID : String} {room : Room}
  {history : TimeLines} {stateEvt : StreamEvent} {start stop : Int}

theorem mem_msgEvent_of_mem_timeline {sc : JoinScan} {reqStart : Int} {state : List ClientEvent}
    (h : ev ∈ (sc.timeline reqStart limit state).events) : ev ∈ sc.msgEvent := by
  unfold JoinScan.timeline at h
  split_ifs at h
  · cases h
  · exact mem_reverse.mp h

/-- The variables before the loop of a user who joined before the start. -/
def firstScan (limit : Int) : JoinScan := ⟨[], limit, -1, -1, -1, false⟩

theorem ShownJoined.buildRoomJoinResp_eq
    (h : ShownJoined s req.userID roomID start room history stateEvt)
    (hfull : req.isFullSync = false) {states : List StreamEvent}
    (hstates : s.states roomID = some states) :
    ∃ state, (s.buildRoomJoinResp req roomID start stop).1 =
      ((firstScan req.limit).loop (s.viewer room req.userID) start stop (s.roomMinStream roomID)
        (remaining req.userID start history.data).reverse).timeline start req.limit state := by
  have hnot : ¬ start < stateEvt.offset := by have := h.before; omega
  unfold Server.buildRoomJoinResp remaining
  rw [← drop_reverse, cutOff]
  cases hlatest : latestValidEv req.userID start history.data <;>
    simp only [h.room_eq, h.history_eq, h.stateEvt_eq, hstates, hfull, or_false,
      Bool.false_eq_true, hnot, if_false, hlatest, decide_false] <;>
    exact ⟨_, rfl⟩

/-- **Nothing at or after a departure is sent** if and only if every entry at or after it that the
cut leaves and that would be shown is older than one that the cut leaves and that ends the loop. -/
theorem before_departure_iff (req : SyncServerRequest)
    (h : ShownJoined s req.userID roomID start room history stateEvt)
    (hfull : req.isFullSync = false) (d : Departure req.userID start history.data) :
    (∀ e ∈ history.data, e.ev ∈ (s.buildRoomJoinResp req roomID start stop).1.events →
        e.offset < d.stream.offset) ↔
      s.states roomID = none ∨ ∃ n, CutAt req.userID start history.data n ∧
        Unsent (s.viewer room req.userID) stop (s.roomMinStream roomID) req.limit d.stream.offset
          history.data fun j => n + j < history.data.length := by
  cases hstates : s.states roomID with
  | none =>
    have hmissing : (s.buildRoomJoinResp req roomID start stop).1.events = [] := by
      unfold Server.buildRoomJoinResp
      simp only [h.room_eq, h.history_eq, h.stateEvt_eq, hstates]
      rfl
    simp [hmissing]
  | some states =>
    obtain ⟨state, hresp⟩ : ∃ state, (s.buildRoomJoinResp req roomID start stop).1 = _ :=
      h.buildRoomJoinResp_eq hfull hstates
    have hpos : ∀ e ∈ (remaining req.userID start history.data).reverse, 0 < e.offset :=
      fun e he => h.pos e (mem_of_mem_take (mem_reverse.mp he))
    simp only [hresp, reduceCtorEq, false_or, cutAt_iff, exists_eq_left, ← Nat.lt_sub_iff_add_lt']
    refine Iff.trans ?_ (unsent_iff d.departs.after h.ordered h.once (Nat.sub_le ..)
      (show (firstScan req.limit).msgEvent = [] from rfl)).symm
    constructor
    · intro hbefore ev hev
      obtain ⟨e, he, rfl⟩ := (mem_loop hev).resolve_left not_mem_nil
      have he := mem_of_mem_take (mem_reverse.mp he)
      have hfirst := firstTimeLine_loop_pos hpos rfl rfl (ne_nil_of_mem hev)
      exact ⟨e, he, hbefore e he ((mem_events_timeline (by omega) _).mpr hev), rfl⟩
    · intro hun e he hev
      obtain ⟨e', he', hlt, heq⟩ := hun _ (mem_msgEvent_of_mem_timeline hev)
      rw [h.once e he e' he' heq.symm]
      exact hlt

end

/-! ## A user who has left

The room has a create event, the join of a user, the event by which they leave, and some messages;
the state still shows the join. The event is the third from the oldest, so the three newest entries
are dropped.
-/

def memberEvent (id membership : String) (pos : Int) : StreamEvent :=
  ⟨pos, ⟨id, "!r:x", "m.room.member", some "@u:x", .obj [("membership", .string membership)], pos,
    pos⟩⟩

def joined : StreamEvent := memberEvent "$joined" "join" 2

def left : StreamEvent := memberEvent "$left" "leave" 3

def leftRows (messages : Nat) : List StreamEvent :=
  ⟨1, ⟨"$create", "!r:x", "m.room.create", some "", .null, 1, 1⟩⟩ :: joined :: left ::
    (List.range messages).map fun i => message (i + 4)

def leftRing (messages : Nat) : TimeLines :=
  (leftRows messages).foldl TimeLines.add (TimeLines.newEvTimeLines 128 (Nat.le_add_left 2 126))

def leftRoom : Room :=
  .joinedBy 1 "@u:x" 2 fun type _ => if type = "m.room.member" then some joined else none

def leftServer (messages : Nat) : Server :=
  { busyServer with
    roomState := fun _ => some leftRoom
    history := fun _ => some (leftRing messages) }

theorem shownJoined_left {messages : Nat}
    (hord : (leftRing messages).data.Pairwise fun a b => a.offset ≤ b.offset)
    (hpos : ∀ e ∈ (leftRing messages).data, 0 < e.offset ∧ e.offset = e.ev.eventOffset) :
    ShownJoined (leftServer messages) "@u:x" "!r:x" 2 leftRoom (leftRing messages) joined where
  room_eq := rfl
  history_eq := rfl
  stateEvt_eq := rfl
  joined := by decide +kernel
  before := by decide
  ordered := hord
  pos e he := (hpos e he).1
  once a ha b hb h := by rw [(hpos a ha).2, (hpos b hb).2, h]

theorem before_departure_two :
    left ∈ (leftRing 2).data ∧
      ∀ e ∈ (leftRing 2).data, e.ev ∈ ((leftServer 2).buildRoomJoinResp ⟨"@u:x", 50, false, true⟩
        "!r:x" 2 5).1.events → e.offset < 3 := by
  have hmem : left ∈ (leftRing 2).data :=
    mem_of_getElem? (i := 2) (by rfl)
  have hleft : Departs "@u:x" 2 left := ⟨rfl, rfl, by decide +kernel, by decide⟩
  refine ⟨hmem, (before_departure_iff ⟨"@u:x", 50, false, true⟩
    (shownJoined_left (by decide +kernel) (by decide +kernel)) rfl ⟨left, hmem, hleft⟩).mpr
      (.inr ⟨3, .inl ⟨2, left, ⟨by decide, rfl, hleft, ?_⟩, rfl⟩, fun j e he hj hle _ => ?_⟩)⟩
  · intro k hk e he hd
    have hlt := hd.after
    obtain rfl | rfl : k = 0 ∨ k = 1 := by omega
    all_goals
      obtain rfl := Option.some.inj he
      exact absurd hlt (by decide)
  · have hle : (3 : Int) ≤ e.offset := hle
    have hj : 3 + j < 5 := hj
    obtain rfl | rfl : j = 0 ∨ j = 1 := by omega
    all_goals
      obtain rfl := Option.some.inj he
      exact absurd hle (by decide)

/-- With four messages the event by which the user leaves and one after it are sent. -/
theorem sent_after_departure :
    left ∈ (leftRing 4).data ∧ left.ev.membership = "leave" ∧
      leftRoom.getState "m.room.member" "@u:x" = some joined ∧ joined.ev.membership = "join" ∧
      ((leftServer 4).buildRoomJoinResp ⟨"@u:x", 50, false, true⟩ "!r:x" 2 7).1.events =
        [left.ev, (message 4).ev] := by
  refine ⟨mem_of_getElem? (i := 2) (by rfl), by decide +kernel, rfl, by decide +kernel, ?_⟩
  rfl

end Ligase.Sync

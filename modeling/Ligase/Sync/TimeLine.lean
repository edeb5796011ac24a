import Mathlib.Data.List.Sort
import Ligase.Auth.Content
import Ligase.Sync.Visibility

/-!
# Stored events and the history ring

The events of all rooms are rows of a table; an event has a position there, negative if it was
backfilled. The newest events of a room are also in a ring in memory, which is filled from the
table when the room is first asked for and then grows with the live events.

* **`loadHistory_recent`**, **`TimeLines.Recent.add`**: as long as the live events come in the order
  of their positions the ring is the end of the room's stored history, and its bounds are the
  positions of its first and last entry.
-/

namespace Ligase.Sync

open Lib List

/-! ## Events -/

structure ClientEvent where
  eventID : String
  roomID : String
  type : String
  stateKey : Option String
  content : Json
  originServerTS : Int
  eventOffset : Int

namespace ClientEvent

def isStateClientEv (ev : ClientEvent) : Bool := ev.type ∈ stateTypes

def isExtEvent (ev : ClientEvent) : Bool :=
  ev.type = "m.room._ext.leave" || ev.type = "m.room._ext.enter"

/-- The membership of a member event; empty if there is none to be read. -/
def membership (ev : ClientEvent) : String :=
  if ev.type ≠ "m.room.member" then ""
  else ((ev.content.decode? Auth.MemberContent.set ⟨"", none⟩).map (·.membership)).getD ""

end ClientEvent

structure StreamEvent where
  offset : Int
  ev : ClientEvent

/-- The events are in the order of their positions, which are all different. -/
def Ordered (evs : List StreamEvent) : Prop := evs.Pairwise fun a b => a.offset < b.offset

variable {evs : List StreamEvent}

theorem Ordered.sublist {evs' : List StreamEvent} (h : Ordered evs') (hsub : evs.Sublist evs') :
    Ordered evs :=
  List.Pairwise.sublist hsub h

/-! ## The table -/

/-- The rows by their primary key, and in the order in which an unsorted query returns them. A room
has an event id once. -/
structure Table where
  rows : List StreamEvent
  ordered : Ordered rows
  unique : rows.Pairwise fun a b => a.ev.roomID = b.ev.roomID → a.ev.eventID ≠ b.ev.eventID
  scan : List StreamEvent
  perm : scan.Perm rows

/-- A table that is scanned in the order of its rows. -/
def Table.ofRows (rows : List StreamEvent) (ordered : Ordered rows)
    (unique : rows.Pairwise fun a b => a.ev.roomID = b.ev.roomID → a.ev.eventID ≠ b.ev.eventID) :
    Table :=
  ⟨rows, ordered, unique, rows, .refl _⟩

inductive Dir where
  | b
  | f
  deriving DecidableEq

/-- The check of a row's position that is repeated after the query. -/
def Dir.accepts (dir : Dir) (fromPos offset : Int) : Bool :=
  match dir with
  | .b => (0 ≤ fromPos && offset ≤ fromPos) || (fromPos < 0 && (0 < offset || offset ≤ fromPos))
  | .f => fromPos ≤ offset

namespace Table

variable (db : Table) (roomID : String)

def room : List StreamEvent :=
  db.rows.filter fun r => r.ev.roomID = roomID

def streamEvents (eventID : String) : List StreamEvent :=
  db.scan.filter fun r => r.ev.eventID = eventID

/-- The rows of a room from a position on; a negative limit is an error of the database. -/
def selectEventsByDir (dir : Dir) (start limit : Int) : Option (List StreamEvent) :=
  if limit < 0 then none
  else
    match dir with
    | .b => some (((db.room roomID).filter (·.offset ≤ start)).reverse.take limit.toNat)
    | .f => some (((db.room roomID).filter (·.offset ≥ start)).take limit.toNat)

def selectEventsByDirRange (dir : Dir) (start stop : Int) : List StreamEvent :=
  match dir with
  | .b => ((db.room roomID).filter fun r => r.offset ≤ start ∧ r.offset ≥ stop).reverse
  | .f => (db.room roomID).filter fun r => r.offset ≥ start ∧ r.offset ≤ stop

def live : List StreamEvent :=
  (db.room roomID).filter (0 < ·.offset)

/-- The newest live events of a room, newest first. -/
def selectHistoryEvents (limit : Nat) : List StreamEvent :=
  (db.live roomID).reverse.take limit

theorem mem_room {db : Table} {roomID : String} {r : StreamEvent} :
    r ∈ db.room roomID ↔ r ∈ db.rows ∧ r.ev.roomID = roomID := by
  simp [room]

theorem mem_live {db : Table} {roomID : String} {r : StreamEvent} :
    r ∈ db.live roomID ↔ r ∈ db.room roomID ∧ 0 < r.offset := by
  simp [live]

theorem ordered_room : Ordered (db.room roomID) :=
  db.ordered.sublist filter_sublist

theorem ordered_live : Ordered (db.live roomID) :=
  (db.ordered_room roomID).sublist filter_sublist

theorem unique_room : (db.room roomID).Pairwise fun a b => a.ev.eventID ≠ b.ev.eventID := by
  refine (db.unique.sublist filter_sublist).imp_of_mem fun {a b} ha hb h => h ?_
  rw [(mem_room.mp ha).2, (mem_room.mp hb).2]

theorem unique_live : (db.live roomID).Pairwise fun a b => a.ev.eventID ≠ b.ev.eventID :=
  (db.unique_room roomID).sublist filter_sublist

end Table

/-- The position and the timestamp of the last row of an answer. -/
def endOf (rows : List StreamEvent) : Int × Int :=
  match rows.getLast? with
  | some r => (r.offset, r.ev.originServerTS)
  | none => (0, 0)

/-! ## The ring -/

/-- A limited time line; `data` has its entries from the oldest to the newest. -/
structure TimeLines where
  size : Nat
  two_le_size : 2 ≤ size
  data : List StreamEvent
  length_le : data.length ≤ size
  lower : Int
  upper : Int
  ofo : Bool

variable {feeds : List StreamEvent}

namespace TimeLines

def newEvTimeLines (size : Nat) (h : 2 ≤ size) : TimeLines where
  size := size
  two_le_size := h
  data := []
  length_le := Nat.zero_le size
  lower := 0
  upper := 0
  ofo := false

def firstOffset (evs : List StreamEvent) : Int := (evs.head?.map (·.offset)).getD 0

def lastOffset (evs : List StreamEvent) : Int := (evs.getLast?.map (·.offset)).getD 0

def sorted (ofo : Bool) (evs : List StreamEvent) : List StreamEvent :=
  if ofo then evs.insertionSort (fun a b => a.offset ≤ b.offset) else evs

variable {tl : TimeLines} {stored : List StreamEvent} {e : StreamEvent}

theorem length_sorted (ofo : Bool) (evs : List StreamEvent) :
    (sorted ofo evs).length = evs.length := by
  cases ofo
  · rfl
  · exact length_insertionSort _ _

section
variable (tl : TimeLines)

/-- The bounds are read off again, after sorting what came out of order. -/
def recalc : TimeLines :=
  { tl with
    data := sorted tl.ofo tl.data
    length_le := (length_sorted tl.ofo tl.data).trans_le tl.length_le
    lower := firstOffset (sorted tl.ofo tl.data)
    upper := lastOffset (sorted tl.ofo tl.data) }

def push (feed : StreamEvent) : List StreamEvent :=
  if tl.data.length < tl.size then tl.data ++ [feed] else tl.data.tail ++ [feed]

theorem length_push_le (tl : TimeLines) (feed : StreamEvent) :
    (tl.push feed).length ≤ tl.size := by
  have h2 := tl.two_le_size
  have hle := tl.length_le
  unfold push
  split_ifs with hlt
  · rw [length_append, length_singleton]
    omega
  · rw [length_append, length_singleton, length_tail]
    omega

def add (feed : StreamEvent) : TimeLines :=
  let removed := if tl.data.length < tl.size then none else tl.data.head?
  let data := tl.push feed
  if tl.lower = 0 then
    { tl with data := data, length_le := tl.length_push_le feed, lower := feed.offset,
              upper := feed.offset }
  else
    let lower := if feed.offset < tl.lower then feed.offset else tl.lower
    let upper :=
      if feed.offset < tl.lower then tl.upper
      else if feed.offset > tl.upper then feed.offset else tl.upper
    let ofo := tl.ofo || tl.data.getLast?.any fun pre => feed.offset < pre.offset
    let tl' : TimeLines :=
      { tl with data := data, length_le := tl.length_push_le feed, lower := lower, upper := upper,
                ofo := ofo }
    match removed with
    | some r => if r.offset = lower ∨ r.offset = upper then tl'.recalc else tl'
    | none => tl'

/-- The ring is the end of a list of events that came in order, and its bounds are those of its
entries. -/
structure Recent (stored : List StreamEvent) : Prop where
  suffix : tl.data <:+ stored
  lower : tl.lower = firstOffset tl.data
  upper : tl.upper = lastOffset tl.data
  ofo : tl.ofo = false

end

theorem recent_new (size : Nat) (h : 2 ≤ size) (stored : List StreamEvent) :
    (newEvTimeLines size h).Recent stored :=
  ⟨nil_suffix, rfl, rfl, rfl⟩

theorem push_suffix (h : tl.data <:+ stored)
    (feed : StreamEvent) : tl.push feed <:+ stored ++ [feed] := by
  rcases h with ⟨older, rfl⟩
  unfold push
  split_ifs
  · exact ⟨older, by simp⟩
  · cases tl.data with
    | nil => exact ⟨older, by simp⟩
    | cons e data => exact ⟨older ++ [e], by simp⟩

theorem lastOffset_push (tl : TimeLines) (feed : StreamEvent) :
    lastOffset (tl.push feed) = feed.offset := by
  unfold push lastOffset
  split_ifs <;> simp

theorem firstOffset_push (feed : StreamEvent) (hne : tl.data ≠ [])
    (hlt : tl.data.length < tl.size) : firstOffset (tl.push feed) = firstOffset tl.data := by
  unfold push firstOffset
  rw [if_pos hlt, head?_append_of_ne_nil _ hne]

theorem firstOffset_mem (hne : evs ≠ []) : ∃ e ∈ evs, e.offset = firstOffset evs := by
  cases evs with
  | nil => exact absurd rfl hne
  | cons e evs => exact ⟨e, mem_cons_self, rfl⟩

theorem lastOffset_mem (hne : evs ≠ []) : ∃ e ∈ evs, e.offset = lastOffset evs := by
  refine ⟨evs.getLast hne, getLast_mem hne, ?_⟩
  rw [lastOffset, getLast?_eq_some_getLast hne]
  rfl

theorem Recent.add {feed : StreamEvent} (h : tl.Recent stored) (hord : Ordered (stored ++ [feed]))
    (hpos : ∀ e ∈ stored ++ [feed], 0 < e.offset) : (tl.add feed).Recent (stored ++ [feed]) := by
  have hsuf := push_suffix h.suffix feed
  by_cases hnil : tl.data = []
  · have hlow : tl.lower = 0 := by rw [h.lower, hnil]; rfl
    have hpush : tl.push feed = [feed] := by
      have h2 := tl.two_le_size
      unfold push
      rw [hnil, if_pos (by rw [length_nil]; omega), nil_append]
    rw [TimeLines.add, if_pos hlow]
    exact ⟨hsuf, (congrArg firstOffset hpush).symm, (congrArg lastOffset hpush).symm, h.ofo⟩
  · -- all entries of the ring come before the new event
    have hbefore : ∀ e ∈ tl.data, 0 < e.offset ∧ e.offset < feed.offset := by
      intro e he
      have hmem := h.suffix.subset he
      refine ⟨hpos e (mem_append_left _ hmem), ?_⟩
      exact (pairwise_append.mp hord).2.2 e hmem feed (mem_singleton_self feed)
    rcases firstOffset_mem hnil with ⟨e, he, hfirst⟩
    rcases lastOffset_mem hnil with ⟨l, hl, hlast⟩
    have hlow : tl.lower = e.offset := by rw [h.lower, hfirst]
    have hup : tl.upper = l.offset := by rw [h.upper, hlast]
    have hel := hbefore e he
    have hll := hbefore l hl
    have hofo : (tl.ofo || tl.data.getLast?.any fun pre => feed.offset < pre.offset) = false := by
      rw [h.ofo, Bool.false_or, getLast?_eq_some_getLast hnil, Option.any_some,
        decide_eq_false_iff_not]
      have := (hbefore _ (getLast_mem hnil)).2
      omega
    simp only [TimeLines.add, if_neg (show ¬ tl.lower = 0 by omega),
      if_neg (show ¬ feed.offset < tl.lower by omega),
      if_pos (show feed.offset > tl.upper by omega), hofo]
    by_cases hlt : tl.data.length < tl.size
    · simp only [if_pos hlt]
      exact ⟨hsuf, by rw [h.lower]; exact (firstOffset_push feed hnil hlt).symm,
        (lastOffset_push tl feed).symm, rfl⟩
    · -- the entry that goes is the lower bound, so the bounds are read off again
      have hremoved := head?_eq_some_head hnil
      have hbound : (tl.data.head hnil).offset = tl.lower := by
        rw [h.lower, firstOffset, hremoved]
        rfl
      simp only [if_neg hlt, hremoved, hbound, true_or, if_true]
      exact ⟨hsuf, rfl, rfl, rfl⟩

theorem Recent.mem_or_before {R : StreamEvent → StreamEvent → Prop} (h : tl.Recent stored)
    (hR : stored.Pairwise R) (he : e ∈ stored) : e ∈ tl.data ∨ ∀ d ∈ tl.data, R e d := by
  rcases h.suffix with ⟨older, hsplit⟩
  rw [← hsplit] at he hR
  rcases mem_append.mp he with he | he
  · exact .inr fun d hd => (pairwise_append.mp hR).2.2 e he d hd
  · exact .inl he

theorem Recent.lower_le (h : tl.Recent stored)
    (hord : Ordered stored) (he : e ∈ tl.data) : tl.lower ≤ e.offset := by
  have hord : Ordered tl.data := hord.sublist h.suffix.sublist
  rw [h.lower]
  cases hdata : tl.data with
  | nil => rw [hdata] at he; cases he
  | cons d data =>
    rw [hdata] at he hord
    rcases mem_cons.mp he with rfl | he
    · exact Int.le_refl _
    · exact Int.le_of_lt ((pairwise_cons.mp hord).1 e he)

theorem Recent.le_last (h : tl.Recent stored)
    (hord : Ordered stored) (hne : tl.data ≠ []) (he : e ∈ stored) :
    e.offset ≤ (tl.data.getLast hne).offset := by
  rcases h.suffix with ⟨older, hsplit⟩
  have hlast : stored = (older ++ tl.data.dropLast) ++ [tl.data.getLast hne] := by
    rw [append_assoc, dropLast_append_getLast, hsplit]
  rw [hlast] at he hord
  rcases mem_append.mp he with he | he
  · exact Int.le_of_lt ((pairwise_append.mp hord).2.2 e he _ (mem_singleton_self _))
  · rw [mem_singleton.mp he]

theorem Recent.foldl_add (h : tl.Recent stored) (hord : Ordered (stored ++ feeds))
    (hpos : ∀ e ∈ stored ++ feeds, 0 < e.offset) :
    (feeds.foldl TimeLines.add tl).Recent (stored ++ feeds) := by
  induction feeds generalizing tl stored with
  | nil => rwa [append_nil]
  | cons feed feeds ih =>
    have hassoc : stored ++ feed :: feeds = stored ++ [feed] ++ feeds := by simp
    rw [hassoc] at hord hpos ⊢
    refine ih (h.add ?_ fun e he => hpos e (mem_append_left _ he)) hord hpos
    exact hord.sublist (sublist_append_left _ _)

end TimeLines

def loadHistory (db : Table) (roomID : String) : TimeLines :=
  (db.selectHistoryEvents roomID 30).reverse.foldl TimeLines.add
    (TimeLines.newEvTimeLines 128 (by decide))

theorem loadHistory_recent (db : Table) (roomID : String) :
    (loadHistory db roomID).Recent (db.live roomID) := by
  have hsplit : db.live roomID = (db.live roomID).take ((db.live roomID).length - 30) ++
      (db.selectHistoryEvents roomID 30).reverse := by
    rw [Table.selectHistoryEvents, take_reverse, reverse_reverse, take_append_drop]
  rw [hsplit]
  refine (TimeLines.recent_new _ _ _).foldl_add ?_ ?_
  · rw [← hsplit]
    exact db.ordered_live roomID
  · rw [← hsplit]
    exact fun e he => (Table.mem_live.mp he).2

/-! ## What the requests read -/

/-- The state of a room, its current state events by type and state key, and its join map as a list
of entries. -/
structure Room where
  rs : RoomState
  getState : String → String → Option StreamEvent
  joinMap : List (String × Int)
  mem_joinMap : ∀ user offset, (user, offset) ∈ joinMap ↔ rs.members.join user = some offset

def Room.joinedBy (createPos : Int) (user : String) (pos : Int)
    (getState : String → String → Option StreamEvent) : Room where
  rs := (RoomState.created createPos).onMembership user "join" pos pos
  getState := getState
  joinMap := [(user, pos)]
  mem_joinMap u offset := by
    show _ ↔ Function.update (fun _ => none) user (some pos) u = some offset
    rw [Function.update_apply, mem_singleton, Prod.mk.injEq]
    split_ifs with h
    · simp [h, eq_comm]
    · simp [h]

structure Server where
  db : Table
  roomState : String → Option Room
  history : String → Option TimeLines
  roomMinStream : String → Int
  states : String → Option (List StreamEvent)
  hasStateStreams : String → Bool
  /-- The state events of a room up to a position. -/
  stateEvents : String → Int → List ClientEvent
  isRelatedRequest : String → Bool
  visibilityTime : Int
  nowTs : Int
  useMessageFilter : Bool

/-- The server of a room whose latest events have been read from the table. -/
def Server.ofTable (db : Table) (room : Room) : Server where
  db := db
  roomState _ := some room
  history roomID := some (loadHistory db roomID)
  roomMinStream _ := -1
  states _ := some []
  hasStateStreams _ := true
  stateEvents _ _ := []
  isRelatedRequest _ := true
  visibilityTime := 0
  nowTs := 0
  useMessageFilter := false

/-- The answers that a user gets to visibility queries, and the time for which messages are
shown. -/
structure Viewer where
  visible : Int → Bool
  visibilityTime : Int
  nowTs : Int

def Server.viewer (s : Server) (room : Room) (user : String) : Viewer where
  visible ts := (room.rs.checkEventVisibility user ts).1
  visibilityTime := s.visibilityTime
  nowTs := s.nowTs

namespace Viewer

def expired (v : Viewer) (ev : ClientEvent) : Bool :=
  v.visibilityTime > 0 && ev.originServerTS.tdiv 1000 + v.visibilityTime < v.nowTs &&
    !ev.isStateClientEv

/-- The events that a sync and the pages of a room have: state events and what is visible. -/
def shows (v : Viewer) (ev : ClientEvent) : Bool :=
  (v.visible ev.originServerTS || ev.isStateClientEv) && !v.expired ev

end Viewer

structure Source where
  viewer : Viewer
  db : Table
  tl : TimeLines
  createEv : Option StreamEvent
  roomMinStream : Int
  roomID : String

structure Found where
  events : List ClientEvent
  limit : Int
  endPos : Int
  endTs : Int

def Source.beforeCreation (src : Source) (fromPos : Int) : Bool :=
  src.createEv.any fun createEv => 0 < fromPos && fromPos ≤ createEv.offset

def Server.source (s : Server) (room : Room) (tl : TimeLines) (user roomID : String) : Source where
  viewer := s.viewer room user
  db := s.db
  tl := tl
  createEv := room.getState "m.room.create" ""
  roomMinStream := s.roomMinStream roomID
  roomID := roomID

/-! ## Answers -/

inductive Reply (α : Type) where
  | ok (resp : α)
  | error (code : Int) (message : String)

def Reply.discard {α : Type} : Reply α := .error (-100) "msg discard"

def notMember : String :=
  "You aren't a member of the room and weren't previously a member of the room or just forget " ++
    "the room"

def buildPreBatch (streamPos timestamp : Int) : String :=
  "p:" ++ itoa streamPos ++ "_t:" ++ itoa timestamp

def recorded (out : List ClientEvent) (ev : ClientEvent) : Bool :=
  out.any (·.eventID = ev.eventID)

/-- An event takes the place of the one recorded under its id, or comes last. -/
def record (out : List ClientEvent) (ev : ClientEvent) : List ClientEvent :=
  if recorded out ev then out.map fun o => if o.eventID = ev.eventID then ev else o
  else out ++ [ev]

variable {out : List ClientEvent}

theorem mem_record {ev o : ClientEvent} (h : o ∈ record out ev) : o ∈ out ∨ o = ev := by
  unfold record at h
  split_ifs at h
  · rcases mem_map.mp h with ⟨x, hx, rfl⟩
    split_ifs
    · exact .inr rfl
    · exact .inl hx
  · simpa using h

/-- The ids of the events collected so far and of those that follow are different. -/
def Fresh (out : List ClientEvent) (feeds : List StreamEvent) : Prop :=
  (out ++ feeds.map (·.ev)).Pairwise fun a b => a.eventID ≠ b.eventID

theorem Fresh.recorded_eq_false {stream : StreamEvent} (h : Fresh out (stream :: feeds)) :
    recorded out stream.ev = false := by
  rw [recorded, any_eq_false]
  intro o ho
  have hne := (pairwise_append.mp h).2.2 o ho stream.ev (by simp)
  simpa using hne

theorem Fresh.tail {stream : StreamEvent} (h : Fresh out (stream :: feeds)) :
    Fresh out feeds ∧ Fresh (out ++ [stream.ev]) feeds := by
  refine ⟨h.sublist ?_, ?_⟩
  · simp
  · unfold Fresh
    rwa [append_assoc]

variable {tl : TimeLines} {stored : List StreamEvent} (h : tl.Recent stored)
include h

theorem TimeLines.Recent.fresh (hid : stored.Pairwise fun a b => a.ev.eventID ≠ b.ev.eventID) :
    Fresh [] tl.data.reverse := by
  rw [Fresh, nil_append, pairwise_map, pairwise_reverse]
  exact (hid.sublist h.suffix.sublist).imp fun hab => hab.symm

theorem TimeLines.Recent.desc (hord : Ordered stored) :
    tl.data.reverse.Pairwise fun a b => b.offset < a.offset :=
  pairwise_reverse.mpr (hord.sublist h.suffix.sublist)

end Ligase.Sync

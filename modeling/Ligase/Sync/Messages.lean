import Ligase.Sync.TimeLine

/-!
# The messages of a room

The messages of a room are read page by page. A page starts at a position, goes through the history
ring and, if that does not fill it, on through the table; its answer has the position at which the
next page starts as a token.

* **`parsePosToken_buildPreBatch`**: the position of a token is read back.
-/

namespace Ligase.Sync

open Lib List

/-! ## Tokens -/

/-- One part of a token, which sets the position or the time. -/
def parseTokenPart (val : List Char) (token : Int × Int) : Int × Int :=
  match val.splitOn ':' with
  | ['p'] :: n :: _ => ((atoi (String.ofList n)).getD token.1, token.2)
  | ['t'] :: n :: _ => (token.1, (atoi (String.ofList n)).getD token.2)
  | _ => token

/-- The position and the time of a token; what cannot be read stays as it is. -/
def parsePosToken (s : String) (token : Int × Int) : Int × Int :=
  let offsets := s.toList.splitOn '_'
  if offsets.length > 1 then offsets.foldl (fun token val => parseTokenPart val token) token
  else token

theorem notMem_itoa {z : Int} {sep : Char} (h : sep ≠ '-') (hd : sep.isDigit = false) :
    ∀ c ∈ (itoa z).toList, (c == sep) = false := by
  intro c hc
  rw [beq_eq_false_iff_ne]
  rintro rfl
  rcases mem_toList_itoa hc with hc | hc
  · exact h hc
  · rw [hd] at hc
    cases hc

theorem splitOn_buildPreBatch (pos ts : Int) : (buildPreBatch pos ts).toList.splitOn '_' =
      ['p' :: ':' :: (itoa pos).toList, 't' :: ':' :: (itoa ts).toList] := by
  have htext : (buildPreBatch pos ts).toList =
      ('p' :: ':' :: (itoa pos).toList) ++ '_' :: 't' :: ':' :: (itoa ts).toList := by
    simp [buildPreBatch]
  have hpart : ∀ (c : Char) (z : Int), (c == '_') = false →
      ∀ x ∈ c :: ':' :: (itoa z).toList, (x == '_') = false := by
    intro c z hc x hx
    rcases mem_cons.mp hx with rfl | hx
    · exact hc
    rcases mem_cons.mp hx with rfl | hx
    · rfl
    · exact notMem_itoa (by decide) (by decide) x hx
  rw [htext, splitOn, splitOnP_append_cons_of_forall_mem (hpart 'p' pos rfl) '_' rfl,
    splitOnP_eq_singleton (hpart 't' ts rfl)]

theorem splitOn_part (c : Char) (z : Int) (hc : (c == ':') = false) :
    (c :: ':' :: (itoa z).toList).splitOn ':' = [[c], (itoa z).toList] := by
  have hsingle : ∀ x ∈ [c], (x == ':') = false := by
    intro x hx
    rwa [mem_singleton.mp hx]
  rw [splitOn, show c :: ':' :: (itoa z).toList = [c] ++ ':' :: (itoa z).toList from rfl,
    splitOnP_append_cons_of_forall_mem hsingle ':' rfl,
    splitOnP_eq_singleton (notMem_itoa (by decide) (by decide))]

/-- **The position of a token is read back.** -/
theorem parsePosToken_buildPreBatch {pos : Int} (h : minInt64 ≤ pos ∧ pos ≤ maxInt64) (ts : Int)
    (token : Int × Int) : (parsePosToken (buildPreBatch pos ts) token).1 = pos := by
  simp only [parsePosToken, splitOn_buildPreBatch, length_cons, length_nil,
    foldl_cons, foldl_nil, parseTokenPart, splitOn_part 'p' pos rfl,
    splitOn_part 't' ts rfl, String.ofList_toList, atoi_itoa h]
  rfl

/-! ## The table -/

namespace Source

variable (src : Source)

/-- Is the event's own offset past the end of the range asked for? -/
def past (dir : Dir) (toPos offset : Int) : Bool :=
  match dir with
  | .b => offset < toPos
  | .f => toPos < offset

/-- The rows that are shown, up to the limit. The end is the offset that the last event itself
carries, which for a backfilled event is not the position of its row. -/
def selectLoop (dir : Dir) (fromPos toPos : Int) : List StreamEvent → Found → Found
  | [], found => found
  | r :: rows, found =>
    if dir.accepts fromPos r.offset && src.viewer.shows r.ev then
      let found : Found :=
        { events := found.events ++ [r.ev]
          limit := if found.limit > 0 then found.limit - 1 else found.limit
          endPos := r.ev.eventOffset
          endTs := r.ev.originServerTS }
      if toPos = 0 ∧ found.limit ≤ 0 then found
      else if toPos > 0 ∧ past dir toPos r.ev.eventOffset then found
      else selectLoop dir fromPos toPos rows found
    else selectLoop dir fromPos toPos rows found

section
variable (dir : Dir)

def selectFromDB (fromPos toPos limit : Int) : Option Found :=
  let rows :=
    if limit > 0 then src.db.selectEventsByDir src.roomID dir fromPos (int64 (limit * 2))
    else some (src.db.selectEventsByDirRange src.roomID dir fromPos toPos)
  rows.map fun rows =>
    src.selectLoop dir fromPos toPos rows ⟨[], limit, (endOf rows).1, (endOf rows).2⟩

def step (endPos : Int) : Int :=
  match dir with
  | .b => endPos - 1
  | .f => endPos + 1

/-! ## The ring -/

def checkOffset (border offset : Int) : Bool :=
  match dir with
  | .b => offset ≤ border && offset ≥ src.roomMinStream
  | .f => offset ≥ border && offset ≥ src.roomMinStream

def visitCache (fromTs toPos : Int) (stream : StreamEvent) (found : Found) : Found :=
  let output := src.viewer.shows stream.ev && src.roomMinStream < stream.offset
  let atMin := dir = .b ∧ stream.offset = src.roomMinStream
  { events := if output then record found.events stream.ev else found.events
    limit :=
      if output && !recorded found.events stream.ev && toPos = 0 then found.limit - 1
      else found.limit
    endPos := if atMin then stream.offset else step dir stream.offset
    endTs :=
      if atMin then if found.endTs = 0 then fromTs else found.endTs
      else stream.ev.originServerTS }

/-- The entries in the order of the direction, and whether the page was completed by them. -/
def cacheLoop (dir : Dir) (fromPos fromTs toPos : Int) :
    List StreamEvent → Found → Found × Bool
  | [], found => (found, false)
  | stream :: feeds, found =>
    if src.checkOffset dir fromPos stream.offset then
      if toPos ≠ 0 ∧ past dir toPos stream.offset then (found, true)
      else
        let found := src.visitCache dir fromTs toPos stream found
        if toPos = 0 ∧ found.limit = 0 then (found, true)
        else cacheLoop dir fromPos fromTs toPos feeds found
    else cacheLoop dir fromPos fromTs toPos feeds found

def resetEnd (fromTs : Int) (found : Found) : Found :=
  if found.endPos = 0 ∨ found.endPos = 1 ∨ found.endPos = -1 then
    { found with
      endPos := match dir with
        | .b => max (src.tl.lower - 1) src.roomMinStream
        | .f => src.tl.upper + 1
      endTs := fromTs }
  else found

def pageFromCache (fromPos fromTs toPos limit : Int) : Option Found :=
  let feeds := match dir with
    | .b => src.tl.data.reverse
    | .f => src.tl.data
  let (found, foundAll) := src.cacheLoop dir fromPos fromTs toPos feeds ⟨[], limit, 0, 0⟩
  if found.limit > 0 ∨ foundAll = false then
    let dbFromPos := if found.endPos = 0 then fromPos else found.endPos
    (src.selectFromDB dir dbFromPos toPos found.limit).map fun db =>
      src.resetEnd dir fromTs
        { db with events := found.events ++ db.events, endPos := step dir db.endPos }
  else some (src.resetEnd dir fromTs found)

def page (fromPos fromTs toPos limit : Int) : Option Found :=
  if src.tl.upper < fromPos ∧ dir = .f then some ⟨[], limit, fromPos, fromTs⟩
  else if src.beforeCreation fromPos ∧ dir = .b then some ⟨[], limit, fromPos, fromTs⟩
  else if fromPos < src.tl.lower ∨ fromPos ≤ src.roomMinStream then
    (src.selectFromDB dir fromPos toPos limit).map fun db =>
      { db with endPos := step dir db.endPos }
  else src.pageFromCache dir fromPos fromTs toPos limit

end

end Source

/-! ## The request -/

structure MessagesRequest where
  roomID : String
  fromStr : String
  toStr : String
  dir : Dir
  limit : String
  filterLimit : Option Int
  types : List String
  notTypes : List String

structure MessageEventResp where
  start : String
  stop : String
  chunk : List ClientEvent

def filterEventTypes (events : List ClientEvent) (types notTypes : List String) :
    List ClientEvent :=
  events.filter fun ev => !notTypes.contains ev.type && (types.isEmpty || types.contains ev.type)

namespace MessagesRequest

variable (req : MessagesRequest)

def start (tl : TimeLines) : Int × Int :=
  let latest := match tl.data.getLast? with
    | some lastEv => (lastEv.offset, lastEv.ev.originServerTS)
    | none => (maxInt64, maxInt64)
  if req.fromStr ≠ "" ∧ req.fromStr ≠ "-1" then parsePosToken req.fromStr latest else latest

def toPos : Int :=
  if req.toStr ≠ "" then (parsePosToken req.toStr (0, 0)).1 else 0

/-- Without an end a page has at least 50 events unless the filter says otherwise; with one it has
no limit. -/
def pageLimit : Int :=
  let limit := atoiNearest req.limit
  let limit := if req.toPos = 0 ∧ limit < 50 then 50 else limit
  let limit := match req.filterLimit with
    | some l => if 0 < l ∧ l < limit then l else limit
    | none => limit
  if 0 < req.toPos ∧ 0 < limit then 0 else limit

end MessagesRequest

def Server.roomMessages (s : Server) (user : String) (req : MessagesRequest) :
    Reply MessageEventResp :=
  if s.isRelatedRequest req.roomID = false then .discard
  else if s.hasStateStreams req.roomID = false then .error 404 "cannot find room state"
  else
    match s.roomState req.roomID with
    | none => .error 404 "cannot find room state"
    | some room =>
      if room.rs.members.join user = none ∧ room.rs.members.leave user = none then
        .error 403 notMember
      else
        match s.history req.roomID with
        | none => .error 404 "cannot find room history"
        | some tl =>
          let (fromPos, fromTs) := req.start tl
          match (s.source room tl user req.roomID).page req.dir fromPos fromTs req.toPos
              req.pageLimit with
          | none => .error 500 "pq: LIMIT must not be negative"
          | some found =>
            .ok { start := buildPreBatch fromPos fromTs
                  stop := buildPreBatch found.endPos found.endTs
                  chunk :=
                    if s.useMessageFilter then
                      filterEventTypes found.events req.types req.notTypes
                    else found.events }

end Ligase.Sync

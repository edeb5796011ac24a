import Mathlib.Data.List.Sort
import Ligase.Lib.Json
import Ligase.Lib.Text

/-!
# Relations of events in the timeline

The sync server keeps the newest events of a room. A reaction is counted in the unsigned data of
the event it relates to, a reply is listed there, a redaction and an update change the event they
name.

* `Unsigned`: the unsigned data, its encoding and its decoding; **`decode_json`**: the round trip.
* `updateEvent`: change the unsigned data of an event of the timeline.
* `onNewRoomEvent`: a live event.
-/

namespace Ligase.Feed

open Lib

/-! ## Unsigned data -/

structure Annotation where
  type : String
  key : String
  count : Int

/-- A list may be nil, and so may an annotation in it. -/
structure EventRelations where
  relayTo : Option (Option (List String))
  anno : Option (Option (List (Option Annotation)))

structure Unsigned where
  transactionID : String
  relations : Option EventRelations

def asSlice {α : Type} (read : Json → Option α) : Json → Option (Option (List α))
  | .arr elems => (elems.mapM read).map some
  | .null => some none
  | _ => none

/-- The `chunk` of a structure with this field only. -/
def readChunk {α : Type} (read : Json → Option α) (old : Option (List α)) (j : Json) :
    Option (Option (List α)) :=
  j.decode? (fun name v c => match name with
    | "chunk" => asSlice read v
    | _ => some c) old

def Annotation.set (name : String) (v : Json) (a : Annotation) : Option Annotation :=
  match name with
  | "type" => v.asString.map fun s => { a with type := s }
  | "key" => v.asString.map fun s => { a with key := s }
  | "count" => (v.asIntOr a.count).map fun n => { a with count := n }
  | _ => some a

def readAnnotation : Json → Option (Option Annotation) :=
  Json.asPtr (·.decode? Annotation.set ⟨"", "", 0⟩)

def EventRelations.set (name : String) (v : Json) (r : EventRelations) : Option EventRelations :=
  match name with
  | "m.in_reply_to" =>
    (Json.asPtr (readChunk Json.asString (r.relayTo.getD none)) v).map fun c =>
      { r with relayTo := c }
  | "m.annotation" =>
    (Json.asPtr (readChunk readAnnotation (r.anno.getD none)) v).map fun c => { r with anno := c }
  | _ => some r

def Unsigned.set (name : String) (v : Json) (u : Unsigned) : Option Unsigned :=
  match name with
  | "transaction_id" => v.asString.map fun s => { u with transactionID := s }
  | "m.relations" =>
    (Json.asPtr (·.decode? EventRelations.set (u.relations.getD ⟨none, none⟩)) v).map fun r =>
      { u with relations := r }
  | _ => some u

def readUnsigned (j : Json) : Option Unsigned := j.decode? Unsigned.set ⟨"", none⟩

def Annotation.json (a : Annotation) : Json :=
  .obj [("type", .string a.type), ("key", .string a.key),
    ("count", .num (some a.count) (some a.count))]

def sliceJson {α : Type} (write : α → Json) : Option (List α) → Json
  | some l => .arr (l.map write)
  | none => .null

def annotationJson : Option Annotation → Json
  | some a => a.json
  | none => .null

def optField {α : Type} (name : String) (write : α → Json) : Option α → List (String × Json)
  | some a => [(name, write a)]
  | none => []

def EventRelations.json (r : EventRelations) : Json :=
  .obj (optField "m.in_reply_to" (fun c => .obj [("chunk", sliceJson .string c)]) r.relayTo ++
    optField "m.annotation" (fun c => .obj [("chunk", sliceJson annotationJson c)]) r.anno)

def Unsigned.json (u : Unsigned) : Json :=
  .obj (optField "transaction_id" .string
      (if u.transactionID = "" then none else some u.transactionID) ++
    optField "m.relations" EventRelations.json u.relations)

/-! ### The round trip -/

variable {α : Type} {write : α → Json}

open EventRelations

theorem asSlice_sliceJson {read : Json → Option α}
    (h : ∀ a, read (write a) = some a) (c : Option (List α)) :
    asSlice read (sliceJson write c) = some c := by
  cases c with
  | none => rfl
  | some l =>
    have hm : (l.map write).mapM read = some l := by
      induction l with
      | nil => rfl
      | cons a l ih => simp [h, ih]
    rw [sliceJson, asSlice, hm]
    rfl

theorem decode_field {set : String → Json → α → Option α} {name : String} {v : Json}
    {a b : α} (h : set (lower name) v a = some b) :
    (Json.obj [(name, v)]).decode? set a = some b := by
  simp only [Json.decode?, Json.decode, decodeFields, h]

theorem decode_append {set : String → Json → α → Option α}
    {fs gs : List (String × Json)} {a b : α} (h : (Json.obj fs).decode? set a = some b) :
    (Json.obj (fs ++ gs)).decode? set a = (Json.obj gs).decode? set b := by
  induction fs generalizing a with
  | nil =>
    cases h
    rfl
  | cons f fs ih =>
    simp only [Json.decode?, Json.decode, List.cons_append, decodeFields] at h ih ⊢
    cases hs : set (lower f.1) f.2 a with
    | none => rw [hs] at h; exact (nomatch h)
    | some a' => rw [hs] at h; exact ih h

theorem decode_optField {β : Type} {set : String → Json → β → Option β} {name : String}
    {o : Option α} {b c : β} (h₀ : o = none → b = c)
    (h₁ : ∀ a, o = some a → set (lower name) (write a) b = some c) :
    (Json.obj (optField name write o)).decode? set b = some c := by
  cases o with
  | none =>
    cases h₀ rfl
    rfl
  | some a => exact decode_field (h₁ a rfl)

theorem readChunk_chunk {read : Json → Option α}
    (h : ∀ a, read (write a) = some a) (c : Option (List α)) :
    readChunk read none (.obj [("chunk", sliceJson write c)]) = some c :=
  decode_field (asSlice_sliceJson h c)

theorem readAnnotation_json (a : Option Annotation) :
    readAnnotation (annotationJson a) = some a := by
  cases a <;> rfl

theorem EventRelations.set_relayTo (c : Option (List String)) :
    set "m.in_reply_to" (.obj [("chunk", sliceJson .string c)]) ⟨none, none⟩ =
      some ⟨some c, none⟩ := by
  have hs : ∀ s, Json.asString (.string s) = some s := fun _ => rfl
  have hc := readChunk_chunk hs c
  simp [set, Json.asPtr, hc]

theorem EventRelations.set_anno (c : Option (List (Option Annotation)))
    (relayTo : Option (Option (List String))) :
    set "m.annotation" (.obj [("chunk", sliceJson annotationJson c)])
      ⟨relayTo, none⟩ = some ⟨relayTo, some c⟩ := by
  have hc := readChunk_chunk readAnnotation_json c
  simp [set, Json.asPtr, hc]

theorem decode_relations (r : EventRelations) : r.json.decode? set ⟨none, none⟩ = some r := by
  obtain ⟨relayTo, anno⟩ := r
  have hr : (Json.obj (optField "m.in_reply_to" (fun c => .obj [("chunk", sliceJson .string c)])
      relayTo)).decode? set ⟨none, none⟩ = some ⟨relayTo, none⟩ := by
    refine decode_optField (fun h => by rw [h]) fun c h => ?_
    rw [h]
    exact set_relayTo c
  rw [json, decode_append hr]
  refine decode_optField (fun (h : anno = none) => by rw [h]) fun c (h : anno = some c) => ?_
  rw [h]
  exact set_anno c relayTo

theorem Unsigned.set_relations (r : EventRelations) (txnID : String) :
    Unsigned.set "m.relations" r.json ⟨txnID, none⟩ = some ⟨txnID, some r⟩ := by
  have hr : Json.asPtr (·.decode? EventRelations.set ⟨none, none⟩) r.json = some (some r) := by
    show (r.json.decode? EventRelations.set ⟨none, none⟩).map some = _
    rw [decode_relations]
    rfl
  simp [Unsigned.set, hr]

theorem decode_json (u : Unsigned) : readUnsigned u.json = some u := by
  obtain ⟨txnID, relations⟩ := u
  have ht : (Json.obj (optField "transaction_id" .string
      (if txnID = "" then none else some txnID))).decode? Unsigned.set ⟨"", none⟩ =
      some ⟨txnID, none⟩ := by
    by_cases h : txnID = ""
    · rw [if_pos h, h]
      rfl
    · rw [if_neg h]
      exact decode_field rfl
  rw [readUnsigned, Unsigned.json, decode_append ht]
  refine decode_optField (fun (h : relations = none) => by rw [h])
    fun r (h : relations = some r) => ?_
  rw [h]
  exact Unsigned.set_relations r txnID

/-! ## Events and the timeline -/

structure ClientEvent where
  eventID : String
  sender : String
  type : String
  redacts : String
  content : Json
  unsigned : Option Json
  hint : String

def ClientEvent.json (ev : ClientEvent) : Json :=
  .obj [("content", ev.content), ("event_id", .string ev.eventID), ("redacts", .string ev.redacts),
    ("sender", .string ev.sender), ("type", .string ev.type)]

structure RedactUnsigned where
  redactedBecause : Option ClientEvent
  updatedBecause : Option ClientEvent
  isRelated : Option Bool

def RedactUnsigned.json (u : RedactUnsigned) : Json :=
  .obj (optField "redacted_because" ClientEvent.json u.redactedBecause ++
    optField "updated_because" ClientEvent.json u.updatedBecause ++
    optField "is_related" .bool u.isRelated)

def ClientEvent.getUnsigned (ev : ClientEvent) : Option Unsigned :=
  match ev.unsigned with
  | some j => readUnsigned j
  | none => some ⟨"", none⟩

/-- The cached events of a room, the newest first. -/
abbrev TimeLine := List ClientEvent

namespace TimeLine

def getStreamEv (tl : TimeLine) (id : String) : Option ClientEvent :=
  tl.find? fun ev => ev.eventID = id

def setStreamEv (id : String) (new : ClientEvent) : TimeLine → TimeLine
  | [] => []
  | ev :: tl => if ev.eventID = id then new :: tl else ev :: setStreamEv id new tl

def size : Nat := 128

def addEv (ev : ClientEvent) (tl : TimeLine) : TimeLine := (ev :: tl).take size

/-- `f` fails for a panic and gives `none` for a return before the data is stored. An event that is
read from the database is not stored. -/
def updateEvent (tl : TimeLine) (id : String) (f : Unsigned → Option (Option Unsigned)) :
    Option TimeLine :=
  match tl.getStreamEv id with
  | none => some tl
  | some originEv =>
    match originEv.getUnsigned with
    | none => some tl
    | some unsigned =>
      match f unsigned with
      | none => none
      | some none => some tl
      | some (some u) => some (tl.setStreamEv id { originEv with unsigned := some u.json })

end TimeLine

/-! ## Relations -/

structure ReactionContent where
  eventID : String
  key : String
  relType : String
  deriving DecidableEq

def ReactionContent.set (name : String) (v : Json) (r : ReactionContent) : Option ReactionContent :=
  match name with
  | "event_id" => v.asString.map fun s => { r with eventID := s }
  | "key" => v.asString.map fun s => { r with key := s }
  | "rel_type" => v.asString.map fun s => { r with relType := s }
  | _ => some r

/-- A value that is read as a map and written again: the keys are sorted. -/
def remarshal : Json → Json
  | .obj fields =>
    .obj ((((Json.obj fields).asMap some []).getD []).insertionSort fun p q => p.1 ≤ q.1)
  | j => j

def relatesTo (ev : ClientEvent) : Option Json :=
  ((ev.content.asMap some []).getD []).lookup "m.relates_to"

/-- The errors of the decoder are not looked at. -/
def reactionContent (v : Json) : ReactionContent :=
  ((remarshal v).decode ReactionContent.set ⟨"", "", ""⟩).1

def inReplyTo (v : Json) : String :=
  ((remarshal v).decode (fun name w id => match name with
    | "m.in_reply_to" =>
      let r := (remarshal w).decode (fun name x id => match name with
        | "event_id" => x.asString
        | _ => some id) id
      some r.1
    | _ => some id) "").1

/-- Count one more reaction with this key. A nil entry before it is a panic. -/
def increment (type key : String) : List (Option Annotation) → Option (List (Option Annotation))
  | [] => some [some ⟨type, key, 1⟩]
  | none :: _ => none
  | some item :: chunk =>
    if item.key = key then some (some { item with count := item.count + 1 } :: chunk)
    else (increment type key chunk).map (some item :: ·)

/-- Count one reaction less with this key; an entry that counts nothing is removed. -/
def decrement (key : String) : List (Option Annotation) → Option (List (Option Annotation))
  | [] => some []
  | none :: _ => none
  | some item :: chunk =>
    if item.key = key then
      if item.count - 1 ≤ 0 then some chunk
      else some (some { item with count := item.count - 1 } :: chunk)
    else (decrement key chunk).map (some item :: ·)

namespace Unsigned

def addReply (id : String) (u : Unsigned) : Unsigned :=
  match u.relations with
  | none => { u with relations := some ⟨some (some [id]), none⟩ }
  | some r =>
    match r.relayTo with
    | some (some chunk) =>
      { u with relations := some { r with relayTo := some (some (chunk ++ [id])) } }
    | _ => { u with relations := some { r with relayTo := some (some [id]) } }

def addReaction (type key : String) (u : Unsigned) : Option Unsigned :=
  match u.relations with
  | none => some { u with relations := some ⟨none, some (some [some ⟨type, key, 1⟩])⟩ }
  | some r =>
    match r.anno with
    | some (some chunk) =>
      (increment type key chunk).map fun chunk =>
        { u with relations := some { r with anno := some (some chunk) } }
    | _ => some { u with relations := some { r with anno := some (some [some ⟨type, key, 1⟩]) } }

/-- `some none`: there is no reaction to take away. -/
def removeReaction (key : String) (u : Unsigned) : Option (Option Unsigned) :=
  match u.relations with
  | none => some none
  | some r =>
    match r.anno with
    | some (some chunk) =>
      (decrement key chunk).map fun chunk =>
        if chunk = [] then
          if r.relayTo = none then some { u with relations := none }
          else some { u with relations := some { r with anno := none } }
        else some { u with relations := some { r with anno := some (some chunk) } }
    | _ => some none

end Unsigned

/-! ## The consumer -/

structure Reads where
  /-- the events of the database -/
  db : String → Option ClientEvent
  /-- the reference to the event that a state event replaces -/
  prev : Option Json
  displayName : String

section handlers

variable (rd : Reads) (tl : TimeLine) (ev : ClientEvent) (redactEv : ClientEvent)

/-- The reaction that an event is. A `null` relation is a panic. -/
def parseRelatesContent : Option (Option ReactionContent) :=
  match relatesTo redactEv with
  | none => some none
  | some .null => none
  | some v =>
    let reaction := reactionContent v
    if reaction.eventID ≠ "" ∧ reaction.relType = "m.annotation" then some (some reaction)
    else some none

def updateReactionEvent (reaction : ReactionContent) : Option TimeLine :=
  tl.updateEvent reaction.eventID (Unsigned.removeReaction reaction.key)

def processMessageEv : Option TimeLine :=
  match relatesTo ev with
  | none => some tl
  | some v => tl.updateEvent (inReplyTo v) fun u => some (some (u.addReply ev.eventID))

def processReactionEv : Option TimeLine :=
  match relatesTo ev with
  | none => some tl
  | some v =>
    let reaction := reactionContent v
    tl.updateEvent reaction.eventID fun u => (u.addReaction ev.type reaction.key).map some

def redacted (reaction : Option ReactionContent) : ClientEvent :=
  { redactEv with
    content := .obj []
    hint := rd.displayName ++ "撤回了一条消息"
    unsigned := some (RedactUnsigned.json ⟨some ev, none, reaction.map fun _ => true⟩) }

def updated : ClientEvent :=
  { redactEv with
    content := ev.content
    unsigned := some (RedactUnsigned.json ⟨none, some ev, none⟩) }

def uncount : Option ReactionContent → Option TimeLine
  | some reaction => updateReactionEvent tl reaction
  | none => some tl

def processRedactEv : Option TimeLine :=
  match tl.getStreamEv ev.redacts <|> rd.db ev.redacts with
  | none => some tl
  | some redactEv =>
    if ev.type = "m.room.redaction" then do
      let reaction ← parseRelatesContent redactEv
      let tl' ← uncount tl reaction
      return tl'.setStreamEv ev.redacts (redacted rd ev redactEv reaction)
    else some (tl.setStreamEv ev.redacts (updated ev redactEv))

def isStateClientEv : Bool := ev.type ∈ stateTypes

def isMessage : Bool := ev.type = "m.room.message" || ev.type = "m.room.encrypted"

def withUnsigned (txnID : String) : ClientEvent :=
  if isStateClientEv ev then { ev with unsigned := rd.prev <|> ev.unsigned }
  else if isMessage ev ∧ txnID ≠ "" then { ev with unsigned := some (Unsigned.json ⟨txnID, none⟩) }
  else ev

def relate : Option TimeLine :=
  if ev.type = "m.room.redaction" ∨ ev.type = "m.room.update" then processRedactEv rd tl ev
  else if isMessage ev then processMessageEv tl ev
  else if ev.type = "m.reaction" then processReactionEv tl ev
  else some tl

/-- A live event. After a panic, which comes before anything is written, the event is not added. -/
def onNewRoomEvent (txnID : String) : TimeLine :=
  match relate rd tl ev with
  | some tl' => tl'.addEv (withUnsigned rd ev txnID)
  | none => tl

end handlers

end Ligase.Feed

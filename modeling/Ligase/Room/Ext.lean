import Ligase.Room.NewEvent

/-!
# The extension record of a room

What changes with every event of a room, the ids of the last events, the depth and the offsets of
the domains, is kept in a Redis hash of its own. `updateRoomStateExt` reads the whole record, moves
it on in memory, and writes back the fields that it has changed.

* **`ext_monotone`**: over a run of calls, offsets and depth do not go back.
-/

namespace Ligase.Room

open Lib Auth Proc Option Function

/-! ## Records -/

structure ExtRecord extends RoomStateExt where
  depth : Int64
  outEventOffset : Int64
  domains : String → Option Int64

def ExtRecord.empty : ExtRecord := ⟨RoomServerState.init.ext, 0, 0, fun _ => none⟩

inductive Field where
  | preStateId
  | lastStateId
  | preMsgId
  | lastMsgId
  | depth
  | hasUpdate
  | outEventOffset
  | domain (d : String)
  deriving DecidableEq

abbrev Hash := Field → Option String

def Hash.empty : Hash := fun _ => none

/-- `HMSET`: the given fields are written, the others stay. -/
def hmset (h m : Hash) : Hash := fun f => (m f).or (h f)

/-- Redis has the text of a number. One that cannot be read counts as zero. -/
def int64Text (z : Int64) : String := itoa z.toInt

def readInt64 (s : String) : Int64 := Int64.ofInt ((atoi s).getD 0)

def boolText (b : Bool) : String := if b then "1" else "0"

/-- `strconv.ParseBool`, with an error for false. -/
def readBool (s : String) : Bool := s ∈ ["1", "t", "T", "true", "TRUE", "True"]

open ExtRecord

theorem readInt64_int64Text (z : Int64) : readInt64 (int64Text z) = z := by
  have hlo := z.le_toInt
  have hhi := z.toInt_lt
  rw [readInt64, int64Text, atoi_itoa (by unfold minInt64 maxInt64; omega), getD_some,
    Int64.ofInt_toInt]

theorem readBool_boolText (b : Bool) : readBool (boolText b) = b := by
  cases b <;> decide

def ExtRecord.read (h : Hash) : ExtRecord where
  hasUpdate := ((h .hasUpdate).map readBool).getD false
  preStateId := (h .preStateId).getD ""
  lastStateId := (h .lastStateId).getD ""
  preMsgId := (h .preMsgId).getD ""
  lastMsgId := (h .lastMsgId).getD ""
  depth := ((h .depth).map readInt64).getD 0
  outEventOffset := ((h .outEventOffset).map readInt64).getD 0
  domains d := (h (.domain d)).map readInt64

def ExtRecord.fields (ext : ExtRecord) : Hash
  | .preStateId => some ext.preStateId
  | .lastStateId => some ext.lastStateId
  | .preMsgId => some ext.preMsgId
  | .lastMsgId => some ext.lastMsgId
  | .depth => some (int64Text ext.depth)
  | .hasUpdate => some (boolText ext.hasUpdate)
  | .outEventOffset => some (int64Text ext.outEventOffset)
  | .domain d => (ext.domains d).map int64Text

theorem read_fields (ext : ExtRecord) : .read (hmset .empty ext.fields) = ext := by
  have hdomains : (fun d => ((ext.domains d).map int64Text).map readInt64) = ext.domains := by
    funext d
    cases ext.domains d with
    | none => rfl
    | some z => exact congrArg some (readInt64_int64Text z)
  cases ext
  simp only [ExtRecord.read, hmset, ExtRecord.fields, Hash.empty, or_none,
    map_some, getD_some, readInt64_int64Text, readBool_boolText] at hdomains ⊢
  rw [hdomains]

/-! ## Moving on -/

structure NewEvent extends Event where
  eventNID : Int
  depth : Int64
  domainOffset : Int64

structure Draft where
  event : NewEvent
  ext : ExtRecord
  updateExt : Hash

namespace Draft

variable (d : Draft)

def set (f : Field) (text : String) : Draft :=
  { d with updateExt := update d.updateExt f (some text) }

/-- The depth of an event that has none is the next one. -/
def moveDepth : Draft :=
  if d.event.depth = 0 then
    { d.set .depth (int64Text (d.ext.depth + 1)) with
      event := { d.event with depth := d.ext.depth + 1 }
      ext := { d.ext with depth := d.ext.depth + 1 } }
  else if d.ext.depth < d.event.depth then
    { d.set .depth (int64Text d.event.depth) with ext := { d.ext with depth := d.event.depth } }
  else d

def setDomain (domain : String) (offset : Int64) : Draft :=
  { d.set (.domain domain) (int64Text offset) with
    ext := { d.ext with domains := update d.ext.domains domain (some offset) } }

/-- The offset of an event that has none is the next one of its domain. -/
def moveOffset (domain : String) : Draft :=
  let domainOffset := (d.ext.domains domain).getD 0
  if d.event.domainOffset = 0 then
    { d.setDomain domain (domainOffset + 1) with
      event := { d.event with domainOffset := domainOffset + 1 } }
  else if domainOffset < d.event.domainOffset then d.setDomain domain d.event.domainOffset
  else d

def moveIds : Draft :=
  if isStateEv d.event.toEvent then
    { ((d.set .preStateId d.ext.lastStateId).set .lastStateId d.event.eventID).set .lastMsgId
        d.event.eventID with
      ext := { d.ext with
        preStateId := d.ext.lastStateId
        lastStateId := d.event.eventID
        lastMsgId := d.event.eventID } }
  else
    { (d.set .preMsgId d.ext.lastMsgId).set .lastMsgId d.event.eventID with
      ext := { d.ext with
        preMsgId := d.ext.lastMsgId
        lastMsgId := d.event.eventID } }

def move (domain : String) (all : Bool) : Draft :=
  let d := d.moveDepth.moveOffset domain
  if all then d.moveIds else d

end Draft

/-! ## Calls -/

/-- The calls of stores and caches that the processing of an event makes, each at most once. -/
inductive StoreCall where
  | assignRoomNID
  | umsExists
  | umsLoad
  | umsFill
  | umsSet
  | lock
  | extRead
  | roomInfo
  | roomDomains
  | extFill
  | extUpdate
  | addState
  | inviteInsert
  | inviteRetire
  | membershipSet
  | membershipForget
  | flush
  | setLatestEvents
  | storeEvent
  | storeJSON
  | writeOutput
  | saveDomains
  deriving DecidableEq

inductive ProcessFailure where
  | message (text : String)
  | notAllowed (err : AuthError)
  | unavailable (c : StoreCall)
  /-- a nil pointer -/
  | crash
  /-- the generator has not given a number that is large enough -/
  | drawing

/-- Which calls fail, what the database has for the room, and the numbers that the generator gives.
-/
structure ExtServices where
  fails : StoreCall → Bool
  roomInfo : Option Int64
  roomDomains : List (String × Int64)
  drawn : List Int64

section
variable {σ : Type} (svc : ExtServices)

def attempt (c : StoreCall) : Proc σ ProcessFailure Unit :=
  if svc.fails c then .fail (.unavailable c) else pure ()

def ExtServices.record : ExtRecord :=
  { ExtRecord.empty with
    depth := svc.roomInfo.getD 0
    domains := svc.roomDomains.foldl (fun m p => update m p.1 (some p.2)) fun _ => none }

def getRoomStateExtFromDb : Proc σ ProcessFailure ExtRecord := do
  attempt svc .roomInfo
  attempt svc .roomDomains
  return svc.record

/-- The record of the cache or, if it has none or fails, that of the database, which is then written
to the cache. -/
def getRoomStateExt : Proc (Option Hash) ProcessFailure ExtRecord := do
  match svc.fails .extRead, ← .query id with
  | false, some h => return .read h
  | _, _ =>
    let ext ← getRoomStateExtFromDb svc
    .write fun h => if svc.fails .extFill then h else some (hmset (h.getD .empty) ext.fields)
    return ext

/-- `getOutEventOffset`: the first number of the generator that is larger than the last one. -/
def getOutEventOffset (last : Int64) : Option Int64 := svc.drawn.find? (last < ·)

def passed (all : Bool) (rsExt ext : ExtRecord) (out : Int64) : ExtRecord :=
  let rsExt :=
    if all then
      { rsExt with
        preStateId := ext.preStateId
        lastStateId := ext.lastStateId
        preMsgId := ext.preMsgId
        lastMsgId := ext.lastMsgId }
    else rsExt
  { rsExt with
    outEventOffset := out
    depth := ext.depth
    domains := ext.domains }

/-- `updateRoomStateExt`, with the record of the room state; the result is the event and that
record. -/
def updateRoomStateExt (all : Bool) (rsExt : ExtRecord) (event : NewEvent) :
    Proc (Option Hash) ProcessFailure (NewEvent × ExtRecord) := do
  let (_, domain) ← .require (.message "event send invalid doamin") (cut ':' event.sender)
  attempt svc .lock
  let ext ← getRoomStateExt svc
  let d := Draft.move ⟨event, ext, .empty⟩ domain all
  let out ← .require .drawing (getOutEventOffset svc ext.outEventOffset)
  attempt svc .extUpdate
  .write fun h => some (hmset (h.getD .empty)
    ((d.set .hasUpdate (boolText rsExt.hasUpdate)).set .outEventOffset (int64Text out)).updateExt)
  return (d.event, passed all rsExt d.ext out)

end

/-! ## What is read back -/

variable {svc : ExtServices} {all : Bool} {ext rsExt rsExt' : ExtRecord} {event event' : NewEvent}
  {h m x : Hash} {d : Draft} {domain : String} {o o' : Option Hash}

def ExtRecord.put (ext : ExtRecord) : Field → String → ExtRecord
  | .preStateId, text => { ext with preStateId := text }
  | .lastStateId, text => { ext with lastStateId := text }
  | .preMsgId, text => { ext with preMsgId := text }
  | .lastMsgId, text => { ext with lastMsgId := text }
  | .depth, text => { ext with depth := readInt64 text }
  | .hasUpdate, text => { ext with hasUpdate := readBool text }
  | .outEventOffset, text => { ext with outEventOffset := readInt64 text }
  | .domain d, text =>
    { ext with domains := update ext.domains d (some (readInt64 text)) }

open Draft

theorem hmset_update (f : Field) (text : String) :
    hmset h (update m f (some text)) = update (hmset h m) f (some text) := by
  funext g
  simp only [hmset, update_apply]
  split_ifs <;> rfl

theorem read_update (f : Field) (text : String) :
    ExtRecord.read (update h f (some text)) = (ExtRecord.read h).put f text := by
  cases f with
  | domain d =>
    simp only [ExtRecord.read, ExtRecord.put, ne_eq, reduceCtorEq, not_false_eq_true,
      update_of_ne, ExtRecord.mk.injEq, true_and]
    funext d'
    simp only [update_apply, Field.domain.injEq]
    split_ifs <;> rfl
  | _ => simp [ExtRecord.read, ExtRecord.put]

/-- The fields to be written make up the difference between the hash and the record in memory. -/
def Draft.Synced (h : Hash) (d : Draft) : Prop := ExtRecord.read (hmset h d.updateExt) = d.ext

namespace Draft.Synced

variable (hd : Synced h d)
include hd

theorem set (f : Field) (text : String) :
    ExtRecord.read (hmset h (d.set f text).updateExt) = d.ext.put f text := by
  rw [Draft.set, hmset_update, read_update, hd]

theorem moveDepth : Synced h d.moveDepth := by
  unfold Draft.moveDepth
  split_ifs
  · refine (hd.set _ _).trans ?_
    rw [put, readInt64_int64Text]
  · refine (hd.set _ _).trans ?_
    rw [put, readInt64_int64Text]
  · exact hd

theorem setDomain (offset : Int64) : Synced h (d.setDomain domain offset) := by
  refine (hd.set _ _).trans ?_
  rw [put, readInt64_int64Text]
  rfl

theorem moveOffset : Synced h (d.moveOffset domain) := by
  unfold Draft.moveOffset
  dsimp only
  split_ifs
  · exact hd.setDomain _
  · exact hd.setDomain _
  · exact hd

theorem moveIds : Synced h d.moveIds := by
  unfold Draft.moveIds
  split_ifs
  · have h₁ : Synced h { d.set .preStateId d.ext.lastStateId with
        ext := d.ext.put .preStateId d.ext.lastStateId } := hd.set _ _
    have h₂ : Synced h { (d.set .preStateId d.ext.lastStateId).set .lastStateId d.event.eventID with
        ext := (d.ext.put .preStateId d.ext.lastStateId).put .lastStateId d.event.eventID } :=
      h₁.set _ _
    exact h₂.set _ _
  · have h₁ : Synced h { d.set .preMsgId d.ext.lastMsgId with
        ext := d.ext.put .preMsgId d.ext.lastMsgId } := hd.set _ _
    exact h₁.set _ _

theorem move : Synced h (d.move domain all) := by
  unfold Draft.move
  split_ifs
  · exact hd.moveDepth.moveOffset.moveIds
  · exact hd.moveDepth.moveOffset

end Draft.Synced

/-! ## One call -/

def ExtServices.Healthy (svc : ExtServices) : Prop :=
  svc.fails .extRead = false ∧ svc.fails .extFill = false

def ExtServices.current (svc : ExtServices) : Option Hash → ExtRecord
  | some x => .read x
  | none => svc.record

def Draft.written (d : Draft) (hasUpdate : Bool) (out : Int64) : ExtRecord :=
  { d.ext with hasUpdate, outEventOffset := out }

theorem attempt_eq_ok {σ : Type} {c : StoreCall} {s t : σ} {u : Unit} :
    attempt svc c s = (.ok u, t) ↔ svc.fails c = false ∧ s = t := by
  unfold attempt
  split_ifs with hc
  · exact ⟨nofun, fun ⟨hn, _⟩ => absurd hn (by rw [hc]; decide)⟩
  · refine ⟨fun he => ⟨Bool.eq_false_iff.mpr hc, (pure_eq_ok.mp he).2⟩, fun ⟨_, he⟩ => ?_⟩
    exact pure_eq_ok.mpr ⟨rfl, he⟩

theorem attempt_bind_eq_ok {σ β : Type} {c : StoreCall} {f : Unit → Proc σ ProcessFailure β}
    {s t : σ} {b : β} :
    (attempt svc c >>= f) s = (.ok b, t) ↔ svc.fails c = false ∧ f () s = (.ok b, t) := by
  rw [Proc.bind_eq_ok]
  simp only [attempt_eq_ok]
  exact ⟨fun ⟨_, _, ⟨hc, rfl⟩, hf⟩ => ⟨hc, hf⟩, fun ⟨hc, hf⟩ => ⟨(), s, ⟨hc, rfl⟩, hf⟩⟩

theorem getRoomStateExt_spec (hsvc : svc.Healthy) (hr : getRoomStateExt svc o = (.ok ext, o')) :
    ext = svc.current o ∧ ∃ x, o' = some x ∧ .read x = ext := by
  unfold getRoomStateExt at hr
  rw [query_bind_eq_ok, hsvc.1] at hr
  cases o with
  | some x =>
    obtain ⟨rfl, rfl⟩ := pure_eq_ok.mp hr
    exact ⟨rfl, x, rfl, rfl⟩
  | none =>
    obtain ⟨ext', o₁, hdb, hr⟩ := bind_eq_ok.mp hr
    obtain ⟨-, hdb⟩ := attempt_bind_eq_ok.mp hdb
    obtain ⟨-, hdb⟩ := attempt_bind_eq_ok.mp hdb
    obtain ⟨rfl, rfl⟩ := pure_eq_ok.mp hdb
    obtain ⟨rfl, rfl⟩ := pure_eq_ok.mp hr
    refine ⟨rfl, hmset .empty svc.record.fields, ?_, read_fields _⟩
    rw [hsvc.2]
    rfl

theorem updateRoomStateExt_spec (hsvc : svc.Healthy)
    (hu : updateRoomStateExt svc all rsExt event o = (.ok (event', rsExt'), o')) :
    ∃ domain out x, (cut ':' event.sender).map Prod.snd = some domain ∧
      (svc.current o).outEventOffset < out ∧
      event' = (move ⟨event, svc.current o, .empty⟩ domain all).event ∧
      rsExt' = passed all rsExt (move ⟨event, svc.current o, .empty⟩ domain all).ext out ∧
      o' = some x ∧
      read x = (move ⟨event, svc.current o, .empty⟩ domain all).written rsExt.hasUpdate out := by
  obtain ⟨⟨_, domain⟩, hc, hu⟩ := require_bind_eq_ok.mp hu
  obtain ⟨-, hu⟩ := attempt_bind_eq_ok.mp hu
  obtain ⟨ext, o₁, hext, hu⟩ := bind_eq_ok.mp hu
  obtain ⟨rfl, x₁, rfl, hx₁⟩ := getRoomStateExt_spec hsvc hext
  obtain ⟨out, hout, hu⟩ := require_bind_eq_ok.mp hu
  obtain ⟨-, hu⟩ := attempt_bind_eq_ok.mp hu
  obtain ⟨he, rfl⟩ := pure_eq_ok.mp hu
  obtain ⟨rfl, rfl⟩ := Prod.mk.inj he
  refine ⟨domain, out, _, by rw [hc]; rfl, by simpa using List.find?_some hout, rfl, rfl, rfl, ?_⟩
  have hsynced : Draft.Synced x₁ (move ⟨event, svc.current o, .empty⟩ domain all) :=
    Draft.Synced.move hx₁
  have hflag : Draft.Synced x₁ { (move ⟨event, svc.current o, .empty⟩ domain all).set
      .hasUpdate (boolText rsExt.hasUpdate) with
        ext := (move ⟨event, svc.current o, .empty⟩ domain all).ext.put .hasUpdate
          (boolText rsExt.hasUpdate) } := hsynced.set _ _
  refine (hflag.set .outEventOffset (int64Text out)).trans ?_
  simp only [put, readInt64_int64Text, readBool_boolText]
  rfl

/-! ## What moves on -/

theorem moveDepth_frame : d.moveDepth.ext.domains = d.ext.domains ∧
    d.moveDepth.event.domainOffset = d.event.domainOffset := by
  unfold moveDepth
  split_ifs <;> exact ⟨rfl, rfl⟩

theorem moveIds_frame : d.moveIds.event = d.event ∧ d.moveIds.ext.depth = d.ext.depth ∧
    d.moveIds.ext.domains = d.ext.domains := by
  unfold moveIds
  split_ifs <;> exact ⟨rfl, rfl, rfl⟩

theorem move_frame : (d.move domain all).event = (d.moveDepth.moveOffset domain).event ∧
    (d.move domain all).ext.depth = d.moveDepth.ext.depth ∧
    (d.move domain all).ext.domains = (d.moveDepth.moveOffset domain).ext.domains := by
  have hoffset : ∀ d : Draft, (d.moveOffset domain).ext.depth = d.ext.depth := by
    intro d
    unfold moveOffset
    dsimp only
    split_ifs <;> rfl
  unfold move
  split_ifs
  · obtain ⟨hevent, hdepth, hdomains⟩ := moveIds_frame (d := d.moveDepth.moveOffset domain)
    exact ⟨hevent, hdepth.trans (hoffset _), hdomains⟩
  · exact ⟨rfl, hoffset _, rfl⟩

theorem ids_move : (d.move domain false).ext.toRoomStateExt = d.ext.toRoomStateExt := by
  have hdepth : d.moveDepth.ext.toRoomStateExt = d.ext.toRoomStateExt := by
    unfold moveDepth
    split_ifs <;> rfl
  have hoffset : (d.moveDepth.moveOffset domain).ext.toRoomStateExt =
      d.moveDepth.ext.toRoomStateExt := by
    unfold moveOffset
    dsimp only
    split_ifs <;> rfl
  exact hoffset.trans hdepth

theorem event_move : (d.move domain all).event.toEvent = d.event.toEvent ∧
    (d.move domain all).event.eventNID = d.event.eventNID := by
  have hdepth : d.moveDepth.event.toEvent = d.event.toEvent ∧
      d.moveDepth.event.eventNID = d.event.eventNID := by
    unfold moveDepth
    split_ifs <;> exact ⟨rfl, rfl⟩
  have hoffset : ∀ d : Draft, (d.moveOffset domain).event.toEvent = d.event.toEvent ∧
      (d.moveOffset domain).event.eventNID = d.event.eventNID := by
    intro d
    unfold moveOffset
    dsimp only
    split_ifs <;> exact ⟨rfl, rfl⟩
  rw [move_frame.1]
  exact ⟨(hoffset _).1.trans hdepth.1, (hoffset _).2.trans hdepth.2⟩

theorem yields_updateRoomStateExt : Yields (updateRoomStateExt svc all rsExt event) fun p =>
    p.1.toEvent = event.toEvent ∧ p.1.eventNID = event.eventNID :=
  yields_bind_of fun _ => yields_bind_of fun _ => yields_bind_of fun _ => yields_bind_of fun _ =>
    yields_bind_of fun _ => yields_bind_of fun _ => yields_pure event_move

theorem lt_add_one {v : Int64} (hv : v ≠ Int64.maxValue) : v < v + 1 := by
  have hne : v.toInt ≠ Int64.maxValue.toInt := fun he => hv (Int64.toInt_inj.mp he)
  have hlo := v.le_toInt
  have hhi := v.toInt_lt
  rw [Int64.toInt_maxValue] at hne
  rw [Int64.lt_iff_toInt_lt, Int64.toInt_add, show (1 : Int64).toInt = 1 from rfl,
    Int.bmod_eq_of_le (by omega) (by omega)]
  omega

theorem le_depth_move (h : d.event.depth = 0 → d.ext.depth ≠ Int64.maxValue) :
    d.ext.depth ≤ (d.move domain all).ext.depth := by
  rw [move_frame.2.1]
  unfold moveDepth
  split_ifs with h₀ hlt
  · exact Int64.le_of_lt (lt_add_one (h h₀))
  · exact Int64.le_of_lt hlt
  · exact Int64.le_refl _

theorem domainOffset_move (h₀ : d.event.domainOffset = 0) :
    (d.move domain all).event.domainOffset = (d.ext.domains domain).getD 0 + 1 := by
  rw [move_frame.1]
  unfold moveOffset
  rw [moveDepth_frame.2, if_pos h₀, moveDepth_frame.1]

theorem le_domains_move
    (h : d.event.domainOffset = 0 → (d.ext.domains domain).getD 0 ≠ Int64.maxValue) {d' : String}
    {v : Int64} (hv : d.ext.domains d' = some v) :
    ∃ v', (d.move domain all).ext.domains d' = some v' ∧ v ≤ v' := by
  rw [move_frame.2.2]
  unfold moveOffset setDomain
  dsimp only
  rw [moveDepth_frame.1, moveDepth_frame.2]
  by_cases hd : d' = domain
  · subst hd
    rw [hv, getD_some] at h ⊢
    split_ifs with h₀ hlt
    · exact ⟨v + 1, update_self .., Int64.le_of_lt (lt_add_one (h h₀))⟩
    · exact ⟨_, update_self .., Int64.le_of_lt hlt⟩
    · exact ⟨v, by rw [moveDepth_frame.1, hv], Int64.le_refl v⟩
  · refine ⟨v, ?_, Int64.le_refl v⟩
    split_ifs
    · exact (update_of_ne hd ..).trans hv
    · exact (update_of_ne hd ..).trans hv
    · rw [moveDepth_frame.1, hv]

/-! ## Runs of calls -/

structure ExtCall where
  svc : ExtServices
  all : Bool
  rsExt : ExtRecord
  event : NewEvent

namespace ExtCall

def sender (c : ExtCall) : Option String := (cut ':' c.event.sender).map Prod.snd

def step (o : Option Hash) (c : ExtCall) : Option (Option Hash) :=
  match updateRoomStateExt c.svc c.all c.rsExt c.event o with
  | (.ok _, o') => some o'
  | (.error _, _) => none

/-- The hash behaves as a map, and a number that is assigned is not beyond the largest one. -/
structure Regular (o : Option Hash) (c : ExtCall) : Prop where
  healthy : c.svc.Healthy
  depth : c.event.depth = 0 → (c.svc.current o).depth ≠ Int64.maxValue
  offset : ∀ domain, c.sender = some domain → c.event.domainOffset = 0 →
    ((c.svc.current o).domains domain).getD 0 ≠ Int64.maxValue

end ExtCall

/-- The numbers of a record are not beyond those of a later one. -/
structure ExtRecord.Le (ext ext' : ExtRecord) : Prop where
  depth : ext.depth ≤ ext'.depth
  outEventOffset : ext.outEventOffset ≤ ext'.outEventOffset
  domains : ∀ d v, ext.domains d = some v → ∃ v', ext'.domains d = some v' ∧ v ≤ v'

theorem ExtRecord.Le.refl (ext : ExtRecord) : ext.Le ext :=
  ⟨Int64.le_refl _, Int64.le_refl _, fun _ v hv => ⟨v, hv, Int64.le_refl v⟩⟩

theorem ExtRecord.Le.trans {ext₁ ext₂ ext₃ : ExtRecord} (h₁ : ext₁.Le ext₂) (h₂ : ext₂.Le ext₃) :
    ext₁.Le ext₃ where
  depth := Int64.le_trans h₁.depth h₂.depth
  outEventOffset := Int64.le_trans h₁.outEventOffset h₂.outEventOffset
  domains d v hv := by
    obtain ⟨v₂, hv₂, hle₂⟩ := h₁.domains d v hv
    obtain ⟨v₃, hv₃, hle₃⟩ := h₂.domains d v₂ hv₂
    exact ⟨v₃, hv₃, Int64.le_trans hle₂ hle₃⟩

variable {c : ExtCall}

theorem ExtCall.Regular.le (hc : c.Regular o)
    (hu : updateRoomStateExt c.svc c.all c.rsExt c.event o = (.ok (event', rsExt'), o')) :
    ∃ x, o' = some x ∧ (c.svc.current o).Le (.read x) ∧
      (c.svc.current o).outEventOffset < (read x).outEventOffset := by
  obtain ⟨domain, out, x, hd, hout, -, -, rfl, hx⟩ := updateRoomStateExt_spec hc.healthy hu
  refine ⟨x, rfl, ⟨?_, ?_, fun d' v hv => ?_⟩, ?_⟩
  · rw [hx]
    exact le_depth_move hc.depth
  · rw [hx]
    exact Int64.le_of_lt hout
  · rw [hx]
    exact le_domains_move (hc.offset domain hd) hv
  · rw [hx]
    exact hout

theorem ExtCall.le_run {cs : List ExtCall} (hcs : RunMeets step ExtCall.Regular (some h) cs)
    (hrun : run step (some h) cs = some o) :
    ∃ x, o = some x ∧ (read h).Le (.read x) := by
  refine run_invariant (I := fun o => ∃ x, o = some x ∧ (read h).Le (.read x)) ?_
    ⟨h, rfl, .refl _⟩ hcs hrun
  rintro o c o' ⟨x, rfl, hle⟩ hc hstep
  unfold step at hstep
  split at hstep
  · next res o₂ hu =>
    obtain rfl := some.inj hstep
    obtain ⟨x', rfl, hle', -⟩ := hc.le hu
    exact ⟨x', rfl, hle.trans hle'⟩
  · cases hstep

/-- **Offsets and depth do not go back**, from any content of the cache, as long as the hash behaves
as a map and no assigned number is beyond the largest one; and the record that is read back is the
one that the room state has been given. -/
theorem ext_monotone {cs : List ExtCall} {o₁ o₂ o₃ : Option Hash}
    (hrun : run ExtCall.step o₁ cs = some o₂) (hcs : RunMeets ExtCall.step ExtCall.Regular o₁ cs)
    (hc : c.Regular o₂)
    (hu : updateRoomStateExt c.svc c.all c.rsExt c.event o₂ = (.ok (event', rsExt'), o₃)) :
    ∃ x₃, o₃ = some x₃ ∧
      (∀ x₁, o₁ = some x₁ →
        (∀ domain v, c.sender = some domain → c.event.domainOffset = 0 →
          (ExtRecord.read x₁).domains domain = some v → v < event'.domainOffset) ∧
        (ExtRecord.read x₁).depth ≤ (ExtRecord.read x₃).depth ∧
        (ExtRecord.read x₁).outEventOffset < (ExtRecord.read x₃).outEventOffset) ∧
      rsExt'.hasUpdate = c.rsExt.hasUpdate ∧
      ExtRecord.read x₃ =
        if c.all then rsExt'
        else { rsExt' with
          preStateId := (c.svc.current o₂).preStateId
          lastStateId := (c.svc.current o₂).lastStateId
          preMsgId := (c.svc.current o₂).preMsgId
          lastMsgId := (c.svc.current o₂).lastMsgId } := by
  obtain ⟨domain, out, x₃, hd, hout, hevent, hrs, rfl, hx⟩ := updateRoomStateExt_spec hc.healthy hu
  refine ⟨x₃, rfl, ?_, ?_, ?_⟩
  · rintro x₁ rfl
    obtain ⟨x₂, rfl, hle⟩ := ExtCall.le_run hcs hrun
    obtain ⟨x, hx', hle', hlt⟩ := hc.le hu
    obtain rfl := some.inj hx'
    refine ⟨fun domain' v hd' h₀ hv => ?_, (hle.trans hle').depth,
      Int64.lt_of_le_of_lt hle.outEventOffset hlt⟩
    obtain rfl := some.inj (hd.symm.trans hd')
    obtain ⟨v', hv', hle⟩ := hle.domains domain v hv
    rw [hevent, domainOffset_move h₀]
    have hmax := hc.offset domain hd h₀
    have hcur : ((c.svc.current (some x₂)).domains domain).getD 0 = v' := by
      rw [show (c.svc.current (some x₂)).domains domain = some v' from hv']
      rfl
    rw [hcur] at hmax ⊢
    exact Int64.lt_of_le_of_lt hle (lt_add_one hmax)
  · rw [hrs]
    unfold passed
    split_ifs <;> rfl
  · rw [hx, hrs]
    unfold passed Draft.written
    dsimp only
    split_ifs with hall
    · rfl
    · rw [Bool.not_eq_true] at hall
      rw [hall, ids_move]

def newEvent (ev : Event) (depth domainOffset : Int64) : NewEvent := ⟨ev, 0, depth, domainOffset⟩

def createEvent : Event := Room.event "$1:x" "@a:x" MRoomCreate "" [("creator", "@a:x")]
def helloEvent : Event := Room.event "$2:x" "@a:x" "m.room.message" "" [("body", "hello")]

/-- Services without failures for a room that the database does not have; the generator gives the
one number. -/
def extServices (n : Int64) : ExtServices := ⟨fun _ => false, none, [], [n]⟩

def extCall (n : Int64) (hasUpdate : Bool) (event : NewEvent) : ExtCall :=
  ⟨extServices n, true, { ExtRecord.empty with hasUpdate }, event⟩

def hashAfter (cs : List ExtCall) : Option Hash := (run ExtCall.step none cs).getD none

theorem ext_monotone_hello :
    ∃ x₁ x₃, hashAfter [extCall 1 true (newEvent createEvent 0 0)] = some x₁ ∧
      hashAfter [extCall 1 true (newEvent createEvent 0 0),
        extCall 2 false (newEvent helloEvent 0 0)] = some x₃ ∧
      (ExtRecord.read x₁).depth ≤ (ExtRecord.read x₃).depth ∧
      (ExtRecord.read x₁).outEventOffset < (ExtRecord.read x₃).outEventOffset := by
  have hrun : run ExtCall.step (hashAfter [extCall 1 true (newEvent createEvent 0 0)]) [] =
      some (hashAfter [extCall 1 true (newEvent createEvent 0 0)]) := rfl
  have hc : (extCall 2 false (newEvent helloEvent 0 0)).Regular
      (hashAfter [extCall 1 true (newEvent createEvent 0 0)]) := by
    refine ⟨⟨rfl, rfl⟩, fun _ => by decide, fun domain hd _ => ?_⟩
    obtain rfl : "x" = domain := some.inj hd
    decide
  obtain ⟨x₃, ho, hx, -⟩ := ext_monotone hrun trivial hc rfl
  exact ⟨_, x₃, rfl, ho, (hx _ rfl).2⟩

/-- A message after the creation takes the flag away that the creation has set. After an event of
depth and offset 2⁶³ - 1 the next one gets the smallest number for both. -/
theorem ext_goes_back :
    (∃ x₁ x₂, hashAfter [extCall 1 true (newEvent createEvent 0 0)] = some x₁ ∧
      ExtCall.step (some x₁) (extCall 2 false (newEvent helloEvent 0 0)) = some (some x₂) ∧
      (ExtRecord.read x₁).hasUpdate = true ∧ (ExtRecord.read x₂).hasUpdate = false) ∧
    ∃ x₁ x₂ event' rsExt', hashAfter [extCall 1 true (newEvent createEvent 0 0),
        extCall 2 false (newEvent helloEvent Int64.maxValue Int64.maxValue)] = some x₁ ∧
      updateRoomStateExt (extServices 3) true .empty (newEvent helloEvent 0 0) (some x₁) =
        (.ok (event', rsExt'), some x₂) ∧
      (ExtRecord.read x₁).domains "x" = some Int64.maxValue ∧
      event'.domainOffset = Int64.minValue ∧ (ExtRecord.read x₁).depth = Int64.maxValue ∧
      (ExtRecord.read x₂).depth = Int64.minValue := by
  refine ⟨⟨_, _, rfl, rfl, ?_, ?_⟩, _, _, _, _, rfl, rfl, ?_, ?_, ?_, ?_⟩
  all_goals decide +kernel

end Ligase.Room

import Ligase.Client.Membership
import Ligase.Lib.Proc

/-!
# Events with transaction ids

`PostEvent` answers a request whose transaction id has been seen in the last seconds with the id of
the event that was sent then, and sends nothing. What has been seen is kept by room, event type and
transaction id.

* **`txn_scoped_iff`**: when the answers to two users name events of their own.
-/

namespace Ligase.Client

open Lib Auth Proc List Function Option

/-! ## The cache -/

def txnDuration : Int := 30

structure World where
  hashes : String → String → Option String
  submitted : List RawEvent

def World.set (w : World) (key field : String) (value : Option String) : World :=
  { w with hashes := update w.hashes key (update (w.hashes key) field value) }

def txnKey (roomID : String) : String := "msgid:" ++ roomID

/-- The event id of a value, unless the value is older than `txnDuration` or cannot be read. -/
def liveID (now : Int) (value : String) : Option String :=
  match cut ':' value with
  | none => none
  | some (s, eventID) =>
    match atoi s with
    | none => none
    | some ts => if now - ts > txnDuration then none else some eventID

def getTxnID (now : Int) (roomID msgID : String) : Proc World Stop (Option String) := fun w =>
  match w.hashes (txnKey roomID) msgID with
  | none => (.ok none, w)
  | some value =>
    match liveID now value with
    | some eventID => (.ok (some eventID), w)
    | none => (.ok none, w.set (txnKey roomID) msgID none)

def txnValue (now : Int) (eventID : String) : String := itoa now ++ ":" ++ eventID

/-! ## Requests -/

structure PostRequest where
  userID : String
  deviceID : String
  roomID : String
  eventType : String
  txnID : Option String
  stateKey : Option String
  content : Json

structure Call where
  svc : Services
  req : PostRequest
  now : Int
  putAt : Int
  now_le : now ≤ putAt
  range : minInt64 ≤ putAt ∧ putAt ≤ maxInt64
  read : Bool
  write : Bool

/-- The content as it is sent: a membership `kick` is a `leave`. -/
def postContent : Json → Json
  | .obj fields =>
    .obj (((Json.obj fields).asMap some []).getD [] |>.map fun
      | ("membership", .string "kick") => ("membership", .string "leave")
      | field => field)
  | _ => .null

def PostRequest.field (req : PostRequest) (txnID : String) : String :=
  req.roomID ++ req.eventType ++ txnID

def PostRequest.builder (req : PostRequest) : EventBuilder where
  sender := req.userID
  roomID := req.roomID
  type := req.eventType
  stateKey := req.stateKey
  content := postContent req.content
  redacts := ""
  redactsSender := ""

def PostRequest.rawEvent (req : PostRequest) (e : Event) : RawEvent where
  roomID := req.roomID
  deviceID := req.deviceID
  trust := true
  events := [e]
  svrName := domainOf req.userID
  query := ["post_event", req.eventType]

variable (c : Call)

def lookupTxn : Proc World Stop (Option String) :=
  match c.req.txnID with
  | some txnID => if c.read then getTxnID c.now c.req.roomID (c.req.field txnID) else pure none
  | none => pure none

/-- `PutTxnID`, for a request with a transaction id; its error is ignored. -/
def storeTxn (eventID : String) : Proc World Stop Unit :=
  match c.req.txnID with
  | some txnID => .write fun w =>
      if c.write then
        w.set (txnKey c.req.roomID) (c.req.field txnID) (some (txnValue c.putAt eventID))
      else w
  | none => pure ()

def checkPost (e : Event) : Proc World Stop Unit :=
  match allowed c.svc.auth e (c.svc.queryRoomState c.req.roomID).1.authEvents with
  | .ok () => pure ()
  | .error .crash => .fail .crash
  | .error err => .fail (.reply 403 (.forbidden (.auth err)))

def submitPost (e : Event) : Proc World Stop String := do
  .write fun w => { w with submitted := w.submitted ++ [c.req.rawEvent e] }
  .require logThenError
    (if c.svc.inputRoomEvents (c.req.rawEvent e) = none then some () else none)
  storeTxn c e.eventID
  return e.eventID

def sendPost : Proc World Stop String := do
  .require (.reply 404 (.notFound (.text "QueryRoomState")))
    (if (c.svc.queryRoomState c.req.roomID).2 then some () else none)
  let e ← .require logThenError
    (buildEvent c.req.builder c.svc.eventNID (domainOf c.req.userID))
  checkPost c e
  submitPost c e

/-- `PostEvent`; the value is the event id of the answer. -/
def postEvent : Proc World Stop String := do
  match ← lookupTxn c with
  | some eventID => return eventID
  | none => sendPost c

/-! ## What a request does -/

section
variable {w w' w₁ w₂ : World} {c a b : Call} {r : Except Stop String} {id id' : String}

def found (w : World) (c : Call) : Option String :=
  match c.req.txnID with
  | some txnID =>
    if c.read then (w.hashes (txnKey c.req.roomID) (c.req.field txnID)).bind (liveID c.now)
    else none
  | none => none

def Own (w : World) (req : PostRequest) (id : String) : Prop :=
  ∃ raw ∈ w.submitted, ∃ e ∈ raw.events,
    e.eventID = id ∧ e.sender = req.userID ∧ e.type = req.eventType

def afterLookup (w : World) (c : Call) : World :=
  match c.req.txnID with
  | some txnID =>
    if c.read = true ∧ found w c = none then
      w.set (txnKey c.req.roomID) (c.req.field txnID) none
    else w
  | none => w

theorem World.set_self {key field : String} (h : w.hashes key field = none) :
    w.set key field none = w := by
  have hf : update (w.hashes key) field none = w.hashes key := by
    rw [← h, update_eq_self]
  unfold set
  rw [hf, update_eq_self]

theorem lookupTxn_eq : lookupTxn c w = (.ok (found w c), afterLookup w c) := by
  unfold lookupTxn afterLookup found
  cases htxn : c.req.txnID with
  | none => rfl
  | some txnID =>
    by_cases hread : c.read = true
    · simp only [hread, if_true, true_and]
      unfold getTxnID
      cases hval : w.hashes (txnKey c.req.roomID) (c.req.field txnID) with
      | none => simp [World.set_self hval]
      | some value => cases hl : liveID c.now value <;> simp [hl]
    · simp only [hread]
      rfl

theorem postEvent_of_found (h : found w c = some id) : postEvent c w = (.ok id, w) := by
  have hl : lookupTxn c w = (.ok (some id), w) := by
    rw [lookupTxn_eq, h]
    unfold afterLookup
    split
    · rw [if_neg fun hc => by rw [h] at hc; exact absurd hc.2 (by simp)]
    · rfl
  exact bind_of_ok hl

theorem postEvent_of_not_found (h : found w c = none) :
    postEvent c w = sendPost c (afterLookup w c) := by
  have hl : lookupTxn c w = (.ok none, afterLookup w c) := by rw [lookupTxn_eq, h]
  exact bind_of_ok hl

def World.submit (w : World) (c : Call) (e : Event) : World :=
  { w with submitted := w.submitted ++ [c.req.rawEvent e] }

def World.remember (w : World) (c : Call) (id : String) : World :=
  match c.req.txnID with
  | some txnID =>
    if c.write then w.set (txnKey c.req.roomID) (c.req.field txnID) (some (txnValue c.putAt id))
    else w
  | none => w

def Call.event (c : Call) : Event := c.req.builder.event c.svc.eventNID (domainOf c.req.userID)

def Call.Accepted (c : Call) (e : Event) : Prop := c.svc.inputRoomEvents (c.req.rawEvent e) = none

theorem submitPost_cases {e : Event} (h : submitPost c e w = (r, w')) :
    (¬ c.Accepted e ∧ ∃ stop, r = .error stop ∧ w' = w.submit c e) ∨
      c.Accepted e ∧ r = .ok e.eventID ∧ w' = (w.submit c e).remember c e.eventID := by
  unfold submitPost at h
  by_cases hin : c.svc.inputRoomEvents (c.req.rawEvent e) = none
  · rw [if_pos hin] at h
    have hstore : storeTxn c e.eventID (w.submit c e) =
        (.ok (), (w.submit c e).remember c e.eventID) := by
      unfold storeTxn World.remember
      cases c.req.txnID <;> rfl
    have hrest : (storeTxn c e.eventID >>= fun _ => pure e.eventID) (w.submit c e) = (r, w') := h
    rw [bind_of_ok hstore] at hrest
    obtain ⟨rfl, rfl⟩ := Prod.mk.inj hrest
    exact .inr ⟨hin, rfl, rfl⟩
  · rw [if_neg hin] at h
    obtain ⟨rfl, rfl⟩ := Prod.mk.inj (show (Except.error _, w.submit c e) = (r, w') from h)
    exact .inl ⟨hin, _, rfl, rfl⟩

def Call.Allowed (c : Call) (e : Event) : Prop :=
  allowed c.svc.auth e (c.svc.queryRoomState c.req.roomID).1.authEvents = .ok ()

theorem checkPost_cases {e : Event} : (c.Allowed e ∧ checkPost c e w = (.ok (), w)) ∨
    ¬ c.Allowed e ∧ ∃ stop, checkPost c e w = (.error stop, w) := by
  unfold checkPost Call.Allowed
  cases allowed c.svc.auth e (c.svc.queryRoomState c.req.roomID).1.authEvents with
  | ok _ => exact .inl ⟨rfl, rfl⟩
  | error err => cases err <;> exact .inr ⟨nofun, _, rfl⟩

/-- The checks of `sendPost`: the room is found, the event is well formed and allowed, and the room
server takes it. -/
def Call.Sends (c : Call) : Prop :=
  (c.svc.queryRoomState c.req.roomID).2 = true ∧
    checkFields c.event (domainOf c.req.userID) = true ∧ c.Allowed c.event ∧ c.Accepted c.event

theorem sendPost_cases (h : sendPost c w = (r, w')) :
    (¬ c.Sends ∧ ∃ stop, r = .error stop ∧ (w' = w ∨ w' = w.submit c c.event)) ∨
      c.Sends ∧ r = .ok c.event.eventID ∧
        w' = (w.submit c c.event).remember c c.event.eventID := by
  unfold sendPost at h
  cases hq : (c.svc.queryRoomState c.req.roomID).2 with
  | false =>
    rw [hq] at h
    obtain ⟨rfl, rfl⟩ := Prod.mk.inj (show (Except.error _, w) = (r, w') from h)
    exact .inl ⟨fun hs => (nomatch hq.symm.trans hs.1), _, rfl, .inl rfl⟩
  | true =>
    rw [hq] at h
    cases he : buildEvent c.req.builder c.svc.eventNID (domainOf c.req.userID) with
    | none =>
      rw [he] at h
      obtain ⟨rfl, rfl⟩ := Prod.mk.inj (show (Except.error _, w) = (r, w') from h)
      exact .inl ⟨fun hs => (nomatch he.symm.trans (buildEvent_eq_some.mpr ⟨rfl, hs.2.1⟩)), _, rfl,
        .inl rfl⟩
    | some e =>
      obtain ⟨rfl, hfields⟩ : e = c.event ∧ _ := buildEvent_eq_some.mp he
      rw [he] at h
      have h : (checkPost c c.event >>= fun _ => submitPost c c.event) w = (r, w') := h
      rcases checkPost_cases with ⟨hall, hok⟩ | ⟨hall, stop, herr⟩
      · rw [bind_of_ok hok] at h
        rcases submitPost_cases h with ⟨hin, stop, hr, hw⟩ | ⟨hin, hr, hw⟩
        · exact .inl ⟨fun hs => hin hs.2.2.2, stop, hr, .inr hw⟩
        · exact .inr ⟨⟨hq, hfields, hall, hin⟩, hr, hw⟩
      · rw [bind_eq_error herr] at h
        obtain ⟨rfl, rfl⟩ := Prod.mk.inj h
        exact .inl ⟨fun hs => hall hs.2.2.1, _, rfl, .inl rfl⟩

/-! ## Two requests -/

theorem cut_append {sep : Char} {s t : String} (hs : sep ∉ s.toList) :
    cut sep (s ++ String.singleton sep ++ t) = some (s, t) := by
  have hpred : ∀ x ∈ s.toList, decide (x ≠ sep) = true := by
    intro x hx
    exact decide_eq_true fun he => hs (he ▸ hx)
  have hlist : (s ++ String.singleton sep ++ t).toList = s.toList ++ sep :: t.toList := by simp
  unfold cut
  rw [hlist, if_pos (by simp), takeWhile_append_of_pos hpred, dropWhile_append_of_pos hpred]
  simp

theorem liveID_txnValue {now t : Int} (ht : minInt64 ≤ t ∧ t ≤ maxInt64) :
    liveID now (txnValue t id) = if now - t > txnDuration then none else some id := by
  have hcolon : ':' ∉ (itoa t).toList := by
    intro h
    rcases mem_toList_itoa h with h | h
    all_goals exact absurd h (by decide)
  have hcut : cut ':' (txnValue t id) = some (itoa t, id) := cut_append hcolon
  rw [liveID, hcut]
  dsimp only
  rw [atoi_itoa ht]

theorem liveID_mono {now now' : Int} {value : String} (h : liveID now value = none)
    (hle : now ≤ now') : liveID now' value = none := by
  unfold liveID at h ⊢
  split
  · rfl
  · rename_i hcut
    rw [hcut] at h
    dsimp only at h ⊢
    split
    · rfl
    · rename_i hatoi
      rw [hatoi] at h
      dsimp only at h ⊢
      split_ifs at h with hold
      rw [if_pos (by omega)]

/-- Both requests have a transaction id, with the same text made of event type and transaction
id. -/
def SameTxn (a b : Call) : Prop :=
  ∃ s t, a.req.txnID = some s ∧ b.req.txnID = some t ∧
    a.req.eventType ++ s = b.req.eventType ++ t

/-- The first one's event is sent and remembered under the text that the second one looks up. -/
def Collides (w : World) (a b : Call) : Prop :=
  SameTxn a b ∧ found w a = none ∧ a.Sends ∧ a.write = true ∧ b.read = true

theorem set_hashes {key field key' field' : String} {value : Option String} :
    (w.set key field value).hashes key' field' =
      if key' = key ∧ field' = field then value else w.hashes key' field' := by
  unfold World.set
  by_cases hk : key' = key
  · subst hk
    by_cases hf : field' = field
    · simp [hf]
    · simp [hf]
  · simp [hk]

theorem field_inj {s t : String} (hroom : a.req.roomID = b.req.roomID) :
    a.req.field s = b.req.field t ↔ a.req.eventType ++ s = b.req.eventType ++ t := by
  unfold PostRequest.field
  rw [hroom, String.append_assoc, String.append_assoc]
  constructor
  · intro h
    have hl : b.req.roomID.toList ++ (a.req.eventType ++ s).toList =
        b.req.roomID.toList ++ (b.req.eventType ++ t).toList := by
      rw [← String.toList_append, ← String.toList_append, h]
    exact String.toList_inj.mp (append_cancel_left hl)
  · intro h
    rw [h]

theorem found_eq {t : String} (ht : b.req.txnID = some t) (hread : b.read = true) :
    found w b = (w.hashes (txnKey b.req.roomID) (b.req.field t)).bind (liveID b.now) := by
  simp only [found, ht, hread, if_true]

theorem found_afterLookup (hroom : a.req.roomID = b.req.roomID) (htime : a.now ≤ b.now)
    (ha : found w a = none) : found (afterLookup w a) b = found w b := by
  cases htb : b.req.txnID with
  | none => simp only [found, htb]
  | some t =>
    by_cases hread : b.read = true
    · rw [found_eq htb hread, found_eq htb hread]
      unfold afterLookup
      split
      case h_2 => rfl
      case h_1 s hta =>
        split_ifs with hra
        · rw [set_hashes]
          split_ifs with hkey
          · -- the entry is not live for the first request, nor later
            rw [found_eq hta hra.1, hroom, ← hkey.2] at ha
            cases hval : w.hashes (txnKey b.req.roomID) (b.req.field t) with
            | none => rfl
            | some value =>
              rw [hval] at ha
              exact (liveID_mono ha htime).symm
          · rfl
        · rfl
    · simp only [found, htb, hread]
      rfl

theorem found_after (hroom : a.req.roomID = b.req.roomID) (htime : a.putAt ≤ b.now)
    (hlife : b.now - a.putAt ≤ txnDuration) (ha : postEvent a w = (r, w₁)) :
    (Collides w a b → found w₁ b = some a.event.eventID) ∧
      (¬ Collides w a b → found w₁ b = found w b) := by
  have hnow : a.now ≤ b.now := Int.le_trans a.now_le htime
  cases hfa : found w a with
  | some id =>
    rw [postEvent_of_found hfa] at ha
    obtain ⟨rfl, rfl⟩ := Prod.mk.inj ha
    exact ⟨fun hc => (nomatch hc.2.1.symm.trans hfa), fun _ => rfl⟩
  | none =>
    rw [postEvent_of_not_found hfa] at ha
    have hlook := found_afterLookup hroom hnow hfa
    rcases sendPost_cases ha with ⟨hsends, stop, rfl, hw⟩ | ⟨hsends, rfl, rfl⟩
    · refine ⟨fun hc => absurd hc.2.2.1 hsends, fun _ => ?_⟩
      rcases hw with rfl | rfl
      · exact hlook
      · exact hlook
    · by_cases hc : Collides w a b
      · refine ⟨fun _ => ?_, fun hn => absurd hc hn⟩
        obtain ⟨⟨s, t, hta, htb, heq⟩, -, -, hwrite, hread⟩ := hc
        have hkey := ((field_inj hroom).mpr heq).symm
        rw [found_eq htb hread]
        simp only [World.remember, hta, hwrite, if_true]
        rw [set_hashes, if_pos ⟨by rw [hroom], hkey⟩, bind_some, liveID_txnValue a.range,
          if_neg (by omega)]
      · refine ⟨fun h => absurd h hc, fun _ => ?_⟩
        rw [← hlook]
        cases htb : b.req.txnID with
        | none => simp only [found, htb]
        | some t =>
          by_cases hread : b.read = true
          · rw [found_eq htb hread, found_eq htb hread]
            have hsame : (((afterLookup w a).submit a a.event).remember a a.event.eventID).hashes
                (txnKey b.req.roomID) (b.req.field t) =
                  (afterLookup w a).hashes (txnKey b.req.roomID) (b.req.field t) := by
              unfold World.remember
              split
              case h_2 => rfl
              case h_1 s hta =>
                split_ifs with hwrite
                · rw [set_hashes, if_neg]
                  · rfl
                  · rintro ⟨-, hkey⟩
                    exact hc ⟨⟨s, t, hta, htb, (field_inj hroom).mp hkey.symm⟩, hfa, hsends,
                      hwrite, hread⟩
                · rfl
            rw [hsame]
          · simp only [found, htb, hread]
            rfl

/-! ## Scope -/

def Scoped (w : World) (c : Call) (r : Except Stop String) : Prop :=
  ∀ id, r = .ok id → Own w c.req id

section
variable {req : PostRequest} {raws : List RawEvent} (hsub : w'.submitted = w.submitted ++ raws)
include hsub

theorem Own.mono (h : Own w req id) : Own w' req id := by
  obtain ⟨raw, hraw, h⟩ := h
  exact ⟨raw, by rw [hsub]; exact mem_append_left _ hraw, h⟩

theorem Own.of_append (hraws : ∀ raw ∈ raws, ∀ e ∈ raw.events, e.sender ≠ req.userID)
    (h : Own w' req id) : Own w req id := by
  obtain ⟨raw, hraw, e, he, hid, hsender, htype⟩ := h
  rw [hsub] at hraw
  rcases mem_append.mp hraw with hraw | hraw
  · exact ⟨raw, hraw, e, he, hid, hsender, htype⟩
  · exact absurd hsender (hraws raw hraw e he)

end

@[simp]
theorem submitted_afterLookup : (afterLookup w c).submitted = w.submitted := by
  unfold afterLookup
  split
  · split_ifs <;> rfl
  · rfl

@[simp]
theorem submitted_remember : (w.remember c id).submitted = w.submitted := by
  unfold World.remember
  split
  · split_ifs <;> rfl
  · rfl

theorem postEvent_submitted (h : postEvent c w = (r, w')) : ∃ raws,
    w'.submitted = w.submitted ++ raws ∧ ∀ raw ∈ raws, raw = c.req.rawEvent c.event := by
  cases hf : found w c with
  | some id =>
    rw [postEvent_of_found hf] at h
    obtain ⟨-, rfl⟩ := Prod.mk.inj h
    exact ⟨[], by simp, by simp⟩
  | none =>
    rw [postEvent_of_not_found hf] at h
    rcases sendPost_cases h with ⟨-, _, -, rfl | rfl⟩ | ⟨-, -, rfl⟩
    · exact ⟨[], by simp, by simp⟩
    all_goals exact ⟨[c.req.rawEvent c.event], by simp [World.submit], by simp⟩

theorem own_of_not_found (hf : found w c = none) (h : postEvent c w = (.ok id, w')) :
    id = c.event.eventID ∧ Own w' c.req id := by
  rw [postEvent_of_not_found hf] at h
  rcases sendPost_cases h with ⟨-, _, hr, -⟩ | ⟨-, hr, rfl⟩
  · cases hr
  · obtain rfl := Except.ok.inj hr
    refine ⟨rfl, c.req.rawEvent c.event, ?_, c.event, mem_singleton_self _, rfl, rfl, rfl⟩
    rw [submitted_remember]
    exact mem_append_right _ (mem_singleton_self _)

def FindsOwn (w : World) (c : Call) : Prop := ∀ id, found w c = some id → Own w c.req id

theorem scoped_iff (h : postEvent c w = (r, w')) : Scoped w' c r ↔ FindsOwn w c := by
  cases hf : found w c with
  | some id =>
    rw [postEvent_of_found hf] at h
    obtain ⟨rfl, rfl⟩ := Prod.mk.inj h
    simp [Scoped, FindsOwn, hf]
  | none =>
    refine ⟨fun _ id hid => (nomatch hf.symm.trans hid), fun _ id hid => ?_⟩
    subst hid
    exact (own_of_not_found hf h).2

/-- **Transaction ids of two users.** Their answers name submitted events of their own if and only
if neither finds an earlier entry that is not its own, and the second one does not find the first
one's event. -/
theorem txn_scoped_iff (hroom : a.req.roomID = b.req.roomID) (huser : a.req.userID ≠ b.req.userID)
    (htime : a.putAt ≤ b.now) (hlife : b.now - a.putAt ≤ txnDuration)
    (hnew : ∀ raw ∈ w.submitted, ∀ e ∈ raw.events, e.eventID ≠ a.event.eventID)
    {rb : Except Stop String} (ha : postEvent a w = (r, w₁)) (hb : postEvent b w₁ = (rb, w₂)) :
    Scoped w₂ a r ∧ Scoped w₂ b rb ↔
      FindsOwn w a ∧ FindsOwn w b ∧ ¬ Collides w a b := by
  obtain ⟨ra, hsa, hra⟩ := postEvent_submitted ha
  obtain ⟨rb', hsb, hrb⟩ := postEvent_submitted hb
  have hforA : ∀ id, Own w₂ a.req id ↔ Own w₁ a.req id := by
    refine fun id => ⟨Own.of_append hsb fun raw hraw e he => ?_, Own.mono hsb⟩
    obtain rfl := hrb raw hraw
    obtain rfl := mem_singleton.mp he
    exact huser.symm
  have hforB : ∀ id, Own w₁ b.req id ↔ Own w b.req id := by
    refine fun id => ⟨Own.of_append hsa fun raw hraw e he => ?_, Own.mono hsa⟩
    obtain rfl := hra raw hraw
    obtain rfl := mem_singleton.mp he
    exact huser
  have hA : Scoped w₂ a r ↔ FindsOwn w a := by
    rw [← scoped_iff ha]
    exact forall₂_congr fun id _ => hforA id
  rw [hA, scoped_iff hb]
  obtain ⟨hcol, hfree⟩ := found_after hroom htime hlife ha
  by_cases hc : Collides w a b
  · -- the second request gets the id of the first one's event
    refine and_congr_right fun _ => ⟨fun h => ?_, fun h => absurd hc h.2⟩
    obtain ⟨raw, hraw, e, he, hid, -⟩ := (hforB _).mp (h _ (hcol hc))
    exact absurd hid (hnew raw hraw e he)
  · have hB : FindsOwn w₁ b ↔ FindsOwn w b := by
      unfold FindsOwn
      rw [hfree hc]
      exact forall₂_congr fun id _ => hforB id
    rw [hB]
    exact and_congr_right fun _ => (and_iff_left hc).symm

end

/-! ## Alice and Bob in a room -/

def sharedRoom : QueryRoomStateResponse :=
  { publicRoom with
    join := publicRoom.join.insert "@b:x" (Room.memberEvent "$4" "@b:x" "@b:x" "join")
    leave := ∅ }

def post (nid : Int) (userID eventType txnID : String) : Call where
  svc := { services with
    queryRoomState := fun _ => (sharedRoom, true)
    eventNID := nid }
  req := ⟨userID, "phone", "!r:x", eventType, some txnID, none, .obj [("body", .string userID)]⟩
  now := 1000
  putAt := 1000
  now_le := Int.le_refl _
  range := by decide
  read := true
  write := true

def quiet : World := ⟨fun _ _ => none, []⟩

def aliceFirst : Call := post 6 "@a:x" "m.room.message" "1"

def afterAlice : World := (postEvent aliceFirst quiet).2

theorem txn_scoped_iff_differ :
    Scoped (postEvent (post 7 "@b:x" "m.room.message" "2") afterAlice).2 aliceFirst (.ok "$6:x") ∧
      Scoped (postEvent (post 7 "@b:x" "m.room.message" "2") afterAlice).2
        (post 7 "@b:x" "m.room.message" "2") (.ok "$7:x") := by
  have ha : postEvent aliceFirst quiet = (.ok "$6:x", afterAlice) := rfl
  have hb : postEvent (post 7 "@b:x" "m.room.message" "2") afterAlice =
      (.ok "$7:x", (postEvent (post 7 "@b:x" "m.room.message" "2") afterAlice).2) := rfl
  have hroom : aliceFirst.req.roomID = (post 7 "@b:x" "m.room.message" "2").req.roomID := rfl
  have hnew : ∀ raw ∈ quiet.submitted, ∀ e ∈ raw.events, e.eventID ≠ aliceFirst.event.eventID :=
    fun raw hraw => absurd hraw not_mem_nil
  refine (txn_scoped_iff hroom (by decide) (by decide) (by decide) hnew ha hb).mpr
    ⟨nofun, nofun, ?_⟩
  rintro ⟨⟨s, t, hs, ht, he⟩, -⟩
  obtain rfl := some.inj hs
  obtain rfl := some.inj ht
  exact absurd he (by decide)

/-- Alice and Bob send a message each, with the same transaction id, or with ids that continue their
event types to the same text; one message is lost. -/
theorem txn_shared :
    (postEvent aliceFirst quiet).1 = .ok "$6:x" ∧
      (postEvent (post 7 "@b:x" "m.room.message" "1") quiet).1 = .ok "$7:x" ∧
      ∀ b ∈ [post 7 "@b:x" "m.room.message" "1", post 7 "@b:x" "m.room.messag" "e1"],
        (postEvent b afterAlice).1 = .ok "$6:x" ∧
          ((postEvent b afterAlice).2.submitted.flatMap fun raw =>
            raw.events.map fun e => (e.eventID, e.sender)) = [("$6:x", "@a:x")] := by
  refine ⟨rfl, rfl, ?_⟩
  rintro b (_ | ⟨_, _ | ⟨_, _ | _⟩⟩)
  · exact ⟨rfl, rfl⟩
  · exact ⟨rfl, rfl⟩

end Ligase.Client

import Mathlib.Data.List.Dedup
import Ligase.Lib.GoMap
import Ligase.Lib.Run
import Ligase.Lib.Text

/-!
# Receipts between broadcasts

`OnReceipt` collects the receipts of the users of a room for the last message; a timer broadcasts
what has been collected. There is one container for each room, for one message: with the first
receipt for a newer message it starts again, and what it held is gone.

* **`none_lost_at_fire`**: the runs in which every accepted receipt is broadcast or followed by one
  of the same user.
-/

namespace Ligase.Receipt

open Lib Option List

/-! ## Receipts -/

structure ReceiptContent where
  userID : String
  deviceID : String
  receiptType : String
  eventID : String
  source : String

structure RoomReceipt where
  evID : String
  evOffSet : Int
  content : List (String × Int)

structure Edu where
  origin : String
  destination : String
  content : ReceiptContent

/-- What `OnReceipt` reads elsewhere: the members of the room, if its state is there; the last
message; the offset of the receipt's event; the clock; the domains of this server. -/
structure Situation where
  joined : Option (List String)
  lastEventID : Option String
  offset : Option Int
  now : Int
  serverName : List String

structure Accepted where
  eventID : String
  userID : String
  ts : Int

structure Broadcast where
  evID : String
  evOffSet : Int
  users : List (String × Int)

/-- A room; the unread counts of its users are `(readCount, hlCount)`. -/
structure State where
  container : Option RoomReceipt
  notifyRoom : Bool
  counts : String → Int × Int
  edus : List Edu
  /-- the receipts accepted since the last broadcast -/
  accepted : List Accepted

def State.init : State := ⟨none, false, fun _ => (0, 0), [], []⟩

variable (req : ReceiptContent)

/-- The receipt for the servers of the other members, from a user of this server. -/
def federate (e : Situation) (joined : List String) : List Edu :=
  let senderDomain := domainFromID req.userID
  if senderDomain ∈ e.serverName then
    ((joined.map domainFromID).filter (· ∉ e.serverName)).dedup.map fun domain =>
      ⟨senderDomain, domain, req⟩
  else []

namespace State

variable (s : State) (req : ReceiptContent)

def accept (e : Situation) (joined : List String) (c : RoomReceipt) : State where
  container := some { c with content := Json.setKey req.userID (e.now * 1000) c.content }
  notifyRoom := true
  counts := Function.update s.counts req.userID (0, 0)
  edus := s.edus ++ federate req e joined
  accepted := s.accepted ++ [⟨req.eventID, req.userID, e.now * 1000⟩]

/-- A receipt for the last message. One that is already held is dropped if the user has nothing
unread. -/
def collect (e : Situation) (joined : List String) : State :=
  let receiptOffSet := e.offset.getD (-1)
  let c := s.container.getD ⟨req.eventID, receiptOffSet, []⟩
  let s := { s with container := some c }
  if c.evID = req.eventID then
    if (c.content.lookup req.userID).isSome ∧ s.counts req.userID = (0, 0) then s
    else s.accept req e joined c
  else s.accept req e joined ⟨req.eventID, receiptOffSet, []⟩

def onReceipt (e : Situation) : State :=
  match e.joined with
  | none => s
  | some joined =>
    if req.userID ∉ joined then s
    else
      let lastEventID := e.lastEventID.getD ""
      let req := if req.eventID = "" then { req with eventID := lastEventID } else req
      if req.eventID = "" then s
      else if lastEventID = req.eventID ∨ lastEventID = "" then s.collect req e joined
      else s

/-- The broadcast empties the container; without a container it is a panic. -/
def fireRoomReceipt : Option (State × Broadcast) :=
  s.container.map fun c =>
    ({ s with container := some { c with content := [] }, notifyRoom := false, accepted := [] },
      ⟨c.evID, c.evOffSet, c.content⟩)

end State

/-! ## Runs -/

inductive Act where
  | receipt (req : ReceiptContent) (e : Situation)
  /-- messages arrive or are read elsewhere -/
  | count (userID : String) (counts : Int × Int)
  | fire

def step (s : State) : Act → Option State
  | .receipt req e => some (s.onReceipt req e)
  | .count userID counts => some { s with counts := Function.update s.counts userID counts }
  | .fire => s.fireRoomReceipt.map Prod.fst

/-- The receipt is in the container. -/
def Held (c : Option RoomReceipt) (r : Accepted) : Prop :=
  ∃ c', c = some c' ∧ c'.evID = r.eventID ∧ c'.content.lookup r.userID = some r.ts

/-- Every receipt has `P` or is followed by one of the same user. -/
def Last (P : Accepted → Prop) (accepted : List Accepted) : Prop :=
  ∀ before r after, accepted = before ++ r :: after → P r ∨ ∃ r' ∈ after, r'.userID = r.userID

def Appears (b : Broadcast) (r : Accepted) : Prop :=
  b.evID = r.eventID ∧ b.users.lookup r.userID = some r.ts

/-- The message that a receipt is for: its event, or else the last message. -/
def eventOf (e : Situation) : String :=
  if req.eventID = "" then e.lastEventID.getD "" else req.eventID

/-- The receipt of a member for the last message, or for any if there is none. -/
def Counts (e : Situation) : Prop :=
  (∃ joined ∈ e.joined, req.userID ∈ joined) ∧ eventOf req e ≠ "" ∧
    (e.lastEventID.getD "" = eventOf req e ∨ e.lastEventID.getD "" = "")

/-- A receipt that counts is for the message of the container, unless that holds nothing of other
users. -/
def Renews (s : State) : Act → Prop
  | .receipt req e => Counts req e → ∀ c ∈ s.container, eventOf req e ≠ c.evID →
      ∀ p ∈ c.content, p.1 = req.userID
  | _ => True

instance (req : ReceiptContent) (e : Situation) : Decidable (Counts req e) := by
  unfold Counts
  infer_instance

instance (s : State) (a : Act) : Decidable (Renews s a) := by
  unfold Renews
  split <;> infer_instance

/-! ## What a step keeps -/

section
variable {P Q : Accepted → Prop} {l : List Accepted} {r : Accepted} {s t : State}

theorem last_nil : Last P [] := by
  intro before r after h
  simp at h

theorem Last.snoc (h : Last P l) (hr : Q r)
    (hkeep : ∀ x, x.userID ≠ r.userID → P x → Q x) : Last Q (l ++ [r]) := by
  intro before x after hx
  rcases eq_nil_or_concat after with rfl | ⟨after, y, rfl⟩
  · obtain ⟨-, hxr⟩ := append_inj' hx rfl
    cases hxr
    exact .inl hr
  · have hx' : l ++ [r] = (before ++ x :: after) ++ [y] := by simpa using hx
    obtain ⟨hl, hy⟩ := append_inj' hx' rfl
    cases hy
    by_cases huser : x.userID = r.userID
    · exact .inr ⟨r, by simp, huser.symm⟩
    · refine (h before x after hl).imp (hkeep x huser) ?_
      rintro ⟨y, hy, hyx⟩
      exact ⟨y, by simp [hy], hyx⟩

/-- What `OnReceipt` does with a receipt that counts: nothing, or it is accepted into the container,
or into a new one. -/
inductive Collects (s : State) (r : Accepted) : State → Prop
  | same {t : State} (hcontainer : t.container = s.container)
      (haccepted : t.accepted = s.accepted) : Collects s r t
  | accept {t : State} {c : RoomReceipt} (hc : c.evID = r.eventID)
      (hold : s.container = some c ∨ c.content = [] ∧ ∀ c' ∈ s.container, c'.evID ≠ r.eventID)
      (hcontainer : t.container =
        some { c with content := Json.setKey r.userID r.ts c.content })
      (haccepted : t.accepted = s.accepted ++ [r]) : Collects s r t

theorem collects_collect (s : State) (req : ReceiptContent) (e : Situation)
    (joined : List String) :
    Collects s ⟨req.eventID, req.userID, e.now * 1000⟩ (s.collect req e joined) := by
  unfold State.collect
  cases hc : s.container with
  | none =>
    simp only [getD_none, if_true, lookup_nil, isSome_none, Bool.false_eq_true,
      false_and, if_false]
    exact .accept rfl (.inr ⟨rfl, by simp [hc]⟩) rfl rfl
  | some c =>
    simp only [getD_some]
    split_ifs with hev hread
    · exact .same hc.symm rfl
    · exact .accept hev (.inl hc) rfl rfl
    · refine .accept rfl (.inr ⟨rfl, ?_⟩) rfl rfl
      intro c' hc'
      cases hc.symm.trans hc'
      exact hev

theorem collects_onReceipt (s : State) (req : ReceiptContent) (e : Situation) :
    s.onReceipt req e = s ∨ Counts req e ∧
      Collects s ⟨eventOf req e, req.userID, e.now * 1000⟩ (s.onReceipt req e) := by
  unfold State.onReceipt
  split
  · exact .inl rfl
  · rename_i joined hjoined
    have hreq : (if req.eventID = "" then { req with eventID := e.lastEventID.getD "" }
        else req) = { req with eventID := eventOf req e } := by
      unfold eventOf
      split_ifs <;> rfl
    dsimp only
    rw [hreq]
    split_ifs with hmem hempty hlast
    · exact .inl rfl
    · exact .inr ⟨⟨⟨joined, hjoined, hmem⟩, hempty, hlast⟩,
        collects_collect s { req with eventID := eventOf req e } e joined⟩
    · exact .inl rfl
    · exact .inl rfl

/-- The container holds every accepted receipt that is not followed by another of its user. -/
def Kept (s : State) : Prop := Last (Held s.container) s.accepted

theorem Held.accept {c : RoomReceipt} {userID : String} {ts : Int} {x : Accepted}
    (h : Held (some c) x) (hx : x.userID ≠ userID) :
    Held (some { c with content := Json.setKey userID ts c.content }) x := by
  obtain ⟨c', hc', hev, hts⟩ := h
  cases hc'
  refine ⟨_, rfl, hev, ?_⟩
  rw [lookup_setKey, if_neg hx]
  exact hts

theorem Kept.receipt {req : ReceiptContent} {e : Situation} (h : Kept s)
    (hc : Renews s (.receipt req e)) : Kept (s.onReceipt req e) := by
  rcases collects_onReceipt s req e with hsame | ⟨hcounts, hcol⟩
  · rwa [hsame]
  unfold Kept at h ⊢
  cases hcol with
  | same hcontainer haccepted =>
    rw [hcontainer, haccepted]
    exact h
  | accept hev hold hcontainer haccepted =>
    rw [hcontainer, haccepted]
    refine h.snoc ⟨_, rfl, hev, by rw [lookup_setKey, if_pos rfl]⟩ fun x hx hheld => ?_
    rcases hold with hold | ⟨hempty, hnew⟩
    · rw [hold] at hheld
      exact hheld.accept hx
    · -- the container starts again, and it held the receipt of another user
      obtain ⟨c', hc', hx', hts⟩ := hheld
      obtain ⟨l₁, l₂, hl, -⟩ := lookup_eq_some_iff.mp hts
      exact absurd (hc hcounts c' hc' (hnew c' hc').symm (x.userID, x.ts) (by simp [hl])) hx

theorem Kept.step {a : Act} (h : Kept s) (hc : Renews s a) (ht : step s a = some t) : Kept t := by
  cases a with
  | receipt req e =>
    cases ht
    exact h.receipt hc
  | count userID counts =>
    cases ht
    exact h
  | fire =>
    obtain ⟨⟨t', b⟩, hb, rfl⟩ := map_eq_some_iff.mp ht
    obtain ⟨c, -, hc⟩ := map_eq_some_iff.mp hb
    cases hc
    exact last_nil

/-- **No receipt is lost between broadcasts**, in every run in which a receipt for another message
than that of the container comes only when nothing of other users is held. -/
theorem none_lost_at_fire {as : List Act} (hm : RunMeets step Renews .init as)
    (hr : run Receipt.step .init as = some s) {b : Broadcast}
    (hf : s.fireRoomReceipt = some (t, b)) : Last (Appears b) s.accepted := by
  have hkept : Kept s := run_invariant (fun hu hc ht => hu.step hc ht) (last_nil : Kept .init) hm hr
  obtain ⟨c, hc, hb⟩ := map_eq_some_iff.mp hf
  cases hb
  intro before r after hsplit
  refine (hkept before r after hsplit).imp_left ?_
  rintro ⟨c', hc', hev, hts⟩
  cases hc.symm.trans hc'
  exact ⟨hev, hts⟩

end

/-! ## Alice and Bob -/

def reads (userID eventID : String) (now : Int) : Act :=
  .receipt ⟨userID, "phone", "m.read", eventID, ""⟩
    ⟨some ["@a:x", "@b:x"], some eventID, some 1, now, ["x"]⟩

theorem none_lost_at_fire_both :
    ∃ s t b, run step .init [reads "@a:x" "$1" 10, reads "@b:x" "$1" 11] = some s ∧
      s.fireRoomReceipt = some (t, b) ∧ b.users = [("@b:x", 11000), ("@a:x", 10000)] ∧
      Last (Appears b) s.accepted := by
  have hm : RunMeets step Renews .init [reads "@a:x" "$1" 10, reads "@b:x" "$1" 11] := by decide
  exact ⟨_, _, _, rfl, rfl, rfl, none_lost_at_fire hm rfl rfl⟩

/-- Alice has read the first message; Bob reads the second one before the broadcast. -/
theorem receipt_lost :
    ∃ s t b, run step .init [reads "@a:x" "$1" 10, reads "@b:x" "$2" 11] = some s ∧
      s.fireRoomReceipt = some (t, b) ∧
      s.accepted = [⟨"$1", "@a:x", 10000⟩, ⟨"$2", "@b:x", 11000⟩] ∧
      b = ⟨"$2", 1, [("@b:x", 11000)]⟩ ∧ ¬ Last (Appears b) s.accepted := by
  refine ⟨_, _, _, rfl, rfl, rfl, rfl, fun h => ?_⟩
  rcases h [] _ _ rfl with happears | ⟨r, hr, huser⟩
  · exact absurd happears.1 (by decide)
  · obtain rfl := mem_singleton.mp hr
    exact absurd huser (by decide)

end Ligase.Receipt

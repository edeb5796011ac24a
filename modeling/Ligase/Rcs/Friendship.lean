import Ligase.Client.Request
import Ligase.Lib.Proc

/-!
# Friendships

The friendship server keeps one row for each direct room: the creator of the room, the user they
chat with, and the membership of both. It is asked before a creation or a member event enters a
direct room, and answers with the events that are to be entered instead. When two users invite each
other at the same time (*glare*), one of the two rooms is given up.

* `Store`: the table, with its unique room ids.
* `transitions`: the state machine of a membership.
* `handleCreate`, `handleMembership`: the two kinds of events.
-/

namespace Ligase.Rcs

open Lib Auth List Option

/-! ## The table -/

inductive St where
  | init
  | invite
  | join
  | leave
  deriving DecidableEq

structure RCSFriendship where
  id : String
  roomID : String
  fcID : String
  toFcID : String
  fcIDState : St
  toFcIDState : St
  fcIDIsBot : Bool
  toFcIDIsBot : Bool
  fcIDRemark : String
  toFcIDRemark : String
  fcIDOnceJoined : Bool
  toFcIDOnceJoined : Bool
  fcIDDomain : String
  toFcIDDomain : String
  eventID : String
  deriving DecidableEq

structure Store where
  rows : List RCSFriendship
  nodup : (rows.map RCSFriendship.roomID).Nodup

namespace Store

def empty : Store := ⟨[], nodup_nil⟩

def getFriendshipByRoomID (st : Store) (roomID : String) : Option RCSFriendship :=
  st.rows.find? fun f => f.roomID = roomID

theorem getFriendshipByRoomID_eq_some {st : Store} {roomID : String} {f : RCSFriendship} :
    st.getFriendshipByRoomID roomID = some f ↔ f ∈ st.rows ∧ f.roomID = roomID := by
  unfold getFriendshipByRoomID
  constructor
  · intro h
    exact ⟨mem_of_find?_eq_some h, by simpa using find?_some h⟩
  · rintro ⟨hmem, hroom⟩
    cases h : st.rows.find? fun f => f.roomID = roomID with
    | none => exact absurd hroom (by simpa using find?_eq_none.mp h f hmem)
    | some g =>
      have hg : g.roomID = roomID := by simpa using find?_some h
      rw [inj_on_of_nodup_map st.nodup (mem_of_find?_eq_some h) hmem (hg.trans hroom.symm)]

/-- A row with these parties in this order, the first one the table gives. -/
def getFriendshipByFcIDAndToFcID (st : Store) (fcID toFcID : String) : Option RCSFriendship :=
  st.rows.find? fun f => f.fcID = fcID ∧ f.toFcID = toFcID

theorem nodup_map_of_roomID {rows : List RCSFriendship} {g : RCSFriendship → RCSFriendship}
    (hg : ∀ f, (g f).roomID = f.roomID) (h : (rows.map RCSFriendship.roomID).Nodup) :
    ((rows.map g).map RCSFriendship.roomID).Nodup := by
  rw [List.map_map, show RCSFriendship.roomID ∘ g = RCSFriendship.roomID from funext hg]
  exact h

def insertFriendship (f : RCSFriendship) (st : Store) : Option Store :=
  if h : ∀ g ∈ st.rows, g.id ≠ f.id ∧ g.roomID ≠ f.roomID then
    some ⟨f :: st.rows, nodup_cons.mpr ⟨fun hm => by
      obtain ⟨g, hg, he⟩ := mem_map.mp hm
      exact (h g hg).2 he, st.nodup⟩⟩
  else none

/-- Replace the row of a room, if there is one; its id must not be that of another row. -/
def updateFriendshipByRoomID (f : RCSFriendship) (st : Store) : Option Store :=
  if (∃ g ∈ st.rows, g.roomID = f.roomID) ∧ ∃ g ∈ st.rows, g.roomID ≠ f.roomID ∧ g.id = f.id then
    none
  else
    some ⟨st.rows.map fun g => if g.roomID = f.roomID then f else g,
      nodup_map_of_roomID (fun g => by split_ifs with h; exacts [h.symm, rfl]) st.nodup⟩

def deleteFriendshipByRoomID (roomID : String) (st : Store) : Store :=
  ⟨st.rows.filter fun f => f.roomID ≠ roomID,
    st.nodup.sublist (filter_sublist.map _)⟩

end Store

/-- There is no row, a unique column would repeat, the database cannot be reached, the state key is
nil, the content is unreadable, an event cannot be built, the membership cannot change so, or a user
name is cut out of nothing. -/
inductive RcsError where
  | notFound
  | notUnique
  | unavailable
  | noStateKey
  | unparsable
  | notBuilt
  | noTransition
  | crash

abbrev Handler := Proc Store RcsError

/-! ### The rows after a write -/

namespace Store

variable {st st' : Store} {f g : RCSFriendship} {roomID : String}

theorem getFriendshipByFcIDAndToFcID_eq_some {fcID toFcID : String}
    (h : st.getFriendshipByFcIDAndToFcID fcID toFcID = some f) :
    st.getFriendshipByRoomID f.roomID = some f ∧ f.fcID = fcID ∧ f.toFcID = toFcID :=
  ⟨getFriendshipByRoomID_eq_some.mpr ⟨mem_of_find?_eq_some h, rfl⟩, by simpa using find?_some h⟩

theorem mem_insert (h : st.insertFriendship f = some st') :
    (∀ g ∈ st.rows, g.roomID ≠ f.roomID) ∧ ∀ g, g ∈ st'.rows ↔ g = f ∨ g ∈ st.rows := by
  unfold insertFriendship at h
  split_ifs at h with hnew
  cases h
  exact ⟨fun g hg => (hnew g hg).2, fun g => mem_cons⟩

theorem mem_update (h : st.updateFriendshipByRoomID f = some st') :
    g ∈ st'.rows ↔ (g = f ∧ ∃ g' ∈ st.rows, g'.roomID = f.roomID) ∨
      (g ∈ st.rows ∧ g.roomID ≠ f.roomID) := by
  unfold updateFriendshipByRoomID at h
  split_ifs at h
  cases h
  rw [List.mem_map]
  constructor
  · rintro ⟨g', hg', he⟩
    split_ifs at he with hr
    · exact .inl ⟨he.symm, g', hg', hr⟩
    · exact .inr ⟨he ▸ hg', he ▸ hr⟩
  · rintro (⟨rfl, g', hg', hr⟩ | ⟨hg, hr⟩)
    · exact ⟨g', hg', if_pos hr⟩
    · exact ⟨g, hg, if_neg hr⟩

theorem mem_delete : g ∈ (st.deleteFriendshipByRoomID roomID).rows ↔
    g ∈ st.rows ∧ g.roomID ≠ roomID := by
  simp [deleteFriendshipByRoomID]

def IDsUnique (st : Store) : Prop := (st.rows.map RCSFriendship.id).Nodup

theorem idsUnique_insert (h : st.insertFriendship f = some st') (hu : st.IDsUnique) :
    st'.IDsUnique := by
  unfold insertFriendship at h
  split_ifs at h with hnew
  cases h
  refine nodup_cons.mpr ⟨fun hm => ?_, hu⟩
  obtain ⟨g, hg, he⟩ := mem_map.mp hm
  exact (hnew g hg).1 he

theorem idsUnique_update (h : st.updateFriendshipByRoomID f = some st') (hu : st.IDsUnique) :
    st'.IDsUnique := by
  unfold updateFriendshipByRoomID at h
  split_ifs at h with hother
  cases h
  have hother : ∀ g₁ ∈ st.rows, g₁.roomID = f.roomID → ∀ g₂ ∈ st.rows, g₂.roomID ≠ f.roomID →
      g₂.id ≠ f.id := fun g₁ h₁ hr₁ g₂ h₂ hr₂ he => hother ⟨⟨g₁, h₁, hr₁⟩, g₂, h₂, hr₂, he⟩
  unfold IDsUnique
  rw [List.map_map]
  refine (nodup_map_iff_inj_on (List.Nodup.of_map _ hu)).mpr fun g₁ h₁ g₂ h₂ he => ?_
  simp only [Function.comp] at he
  split_ifs at he with hr₁ hr₂ hr₂
  · exact inj_on_of_nodup_map st.nodup h₁ h₂ (hr₁.trans hr₂.symm)
  · exact absurd he.symm (hother g₁ h₁ hr₁ g₂ h₂ hr₂)
  · exact absurd he (hother g₂ h₂ hr₂ g₁ h₁ hr₁)
  · exact inj_on_of_nodup_map hu h₁ h₂ he

theorem idsUnique_delete (hu : st.IDsUnique) : (st.deleteFriendshipByRoomID roomID).IDsUnique :=
  hu.sublist (filter_sublist.map _)

theorem get_insert (h : st.insertFriendship f = some st') (roomID : String) :
    st'.getFriendshipByRoomID roomID =
      if f.roomID = roomID then some f else st.getFriendshipByRoomID roomID := by
  obtain ⟨hnew, hmem⟩ := mem_insert h
  refine ext fun g => ?_
  rw [getFriendshipByRoomID_eq_some, hmem]
  split_ifs with hr
  · rw [some.injEq]
    exact ⟨fun hg => hg.1.elim Eq.symm fun hg' => absurd (hg.2.trans hr.symm) (hnew g hg'),
      fun he => he ▸ ⟨.inl rfl, hr⟩⟩
  · rw [getFriendshipByRoomID_eq_some]
    exact ⟨fun hg => ⟨hg.1.resolve_left fun he => hr (he ▸ hg.2), hg.2⟩,
      fun hg => ⟨.inr hg.1, hg.2⟩⟩

theorem get_update (h : st.updateFriendshipByRoomID f = some st') (roomID : String) :
    st'.getFriendshipByRoomID roomID =
      if f.roomID = roomID then (st.getFriendshipByRoomID roomID).map fun _ => f
      else st.getFriendshipByRoomID roomID := by
  refine ext fun g => ?_
  rw [getFriendshipByRoomID_eq_some, mem_update h]
  split_ifs with hr
  · simp only [map_eq_some_iff, getFriendshipByRoomID_eq_some]
    constructor
    · rintro ⟨⟨rfl, g', hg', he⟩ | ⟨-, hne⟩, hg⟩
      · exact ⟨g', ⟨hg', he.trans hr⟩, rfl⟩
      · exact absurd (hg.trans hr.symm) hne
    · rintro ⟨g', ⟨hg', he⟩, rfl⟩
      exact ⟨.inl ⟨rfl, g', hg', he.trans hr.symm⟩, hr⟩
  · rw [getFriendshipByRoomID_eq_some]
    constructor
    · rintro ⟨⟨rfl, -⟩ | ⟨hg, -⟩, he⟩
      · exact absurd he hr
      · exact ⟨hg, he⟩
    · rintro ⟨hg, he⟩
      exact ⟨.inr ⟨hg, fun h => hr (h.symm.trans he)⟩, he⟩

theorem get_delete (roomID' : String) :
    (st.deleteFriendshipByRoomID roomID).getFriendshipByRoomID roomID' =
      if roomID = roomID' then none else st.getFriendshipByRoomID roomID' := by
  refine ext fun g => ?_
  rw [getFriendshipByRoomID_eq_some, mem_delete]
  split_ifs with hr
  · exact ⟨fun hg => absurd (hg.2.trans hr.symm) hg.1.2, nofun⟩
  · rw [getFriendshipByRoomID_eq_some]
    exact ⟨fun hg => ⟨hg.1.1, hg.2⟩, fun hg => ⟨⟨hg.1, fun h => hr (h.symm.trans hg.2)⟩, hg.2⟩⟩

end Store

/-! ## Rows -/

def isBot (account : String) : Bool := contains account "-bot:"

def getUsername (account : String) : Option String :=
  match cut ':' account with
  | none => some ""
  | some (name, _) =>
    match name.toList with
    | [] => none
    | _ :: cs => some (String.ofList cs)

/-- The display name of a member content, or else the name in the account. -/
def remark (account : String) (ev : Event) : Option String :=
  let displayName := ev.content.decodeAll
    (fun name v old => if name = "displayname" then v.asStringOr old else some old) ""
  if displayName ≠ "" then some displayName else getUsername account

def getDomain (account : String) : String := Client.domainOf account

def getID (fcID toFcID : String) : String :=
  if fcID < toFcID then fcID ++ toFcID else toFcID ++ fcID

def friendship (id roomID fcID toFcID : String) (fcIDState toFcIDState : St)
    (fcIDRemark toFcIDRemark : String) (fcIDOnceJoined toFcIDOnceJoined : Bool)
    (eventID : String) : RCSFriendship where
  id := id
  roomID := roomID
  fcID := fcID
  toFcID := toFcID
  fcIDState := fcIDState
  toFcIDState := toFcIDState
  fcIDIsBot := isBot fcID
  toFcIDIsBot := isBot toFcID
  fcIDRemark := fcIDRemark
  toFcIDRemark := toFcIDRemark
  fcIDOnceJoined := fcIDOnceJoined
  toFcIDOnceJoined := toFcIDOnceJoined
  fcIDDomain := getDomain fcID
  toFcIDDomain := getDomain toFcID
  eventID := eventID

def update (f : RCSFriendship) : Handler Unit :=
  .commit .notUnique (Store.updateFriendshipByRoomID f)

def delete (roomID : String) : Handler Unit :=
  .commit .notFound fun st => some (st.deleteFriendshipByRoomID roomID)

/-! ## The state machine -/

inductive Action where
  | default
  | ignore
  | join
  | invite
  deriving DecidableEq

structure Transition where
  start : St
  event : String
  next : St
  action : Action

def transitions : List Transition :=
  [⟨.init, "join", .join, .join⟩, ⟨.init, "invite", .invite, .invite⟩,
    ⟨.join, "leave", .leave, .default⟩, ⟨.invite, "join", .join, .join⟩,
    ⟨.invite, "leave", .leave, .default⟩, ⟨.leave, "invite", .invite, .invite⟩,
    ⟨.join, "join", .join, .ignore⟩, ⟨.invite, "invite", .invite, .ignore⟩,
    ⟨.leave, "leave", .leave, .ignore⟩]

/-- Write the new state of the state key. Who is not the creator of the room is taken for the other
party. -/
def operation (id : String) (onceJoined : Bool → Bool) (toState : St) (stateKey : String)
    (isCreator : Bool) (f : RCSFriendship) (ev : Event) : Handler Unit := do
  let r ← .require .crash (remark stateKey ev)
  if isCreator then
    update (friendship id f.roomID stateKey f.toFcID toState f.toFcIDState r f.toFcIDRemark
      (onceJoined f.fcIDOnceJoined) f.toFcIDOnceJoined ev.eventID)
  else
    update (friendship id f.roomID f.fcID stateKey f.fcIDState toState f.fcIDRemark r
      f.fcIDOnceJoined (onceJoined f.toFcIDOnceJoined) ev.eventID)

def handleJoinOperation (toState : St) (stateKey : String) (isCreator : Bool) (f : RCSFriendship)
    (ev : Event) : Handler Unit :=
  operation f.id (fun _ => true) toState stateKey isCreator f ev

def handleInviteOperation (toState : St) (sender stateKey : String) (isCreator : Bool)
    (f : RCSFriendship) (ev : Event) : Handler Unit :=
  operation (if sender ≠ stateKey then getID sender stateKey else f.id) (fun b => b) toState
    stateKey isCreator f ev

def handleNormalOperation (toState : St) (stateKey : String) (isCreator : Bool)
    (f : RCSFriendship) (ev : Event) : Handler Unit :=
  operation f.id (fun b => b) toState stateKey isCreator f ev

def trigger (st : St) (op sender stateKey : String) (isCreator : Bool) (f : RCSFriendship)
    (ev : Event) : Handler Unit :=
  match transitions.find? fun t => t.start = st ∧ t.event = op with
  | none => .fail .noTransition
  | some t =>
    match t.action with
    | .ignore => pure ()
    | .join => handleJoinOperation t.next stateKey isCreator f ev
    | .invite => handleInviteOperation t.next sender stateKey isCreator f ev
    | .default => handleNormalOperation t.next stateKey isCreator f ev

/-! ## Events -/

/-- The domains of the server, and the numbers drawn for the events that the call builds. -/
structure Processor where
  serverName : List String
  nid : Nat → Int

variable (p : Processor)

def Processor.isLocal (user : String) : Bool := Client.domainOf user ∈ p.serverName

/-- The member event that the call builds as its `i`-th. -/
def Processor.buildEvent (i : Nat) (sender roomID stateKey membership : String) :
    Handler Event :=
  .require .notBuilt (Client.buildEvent
    { sender, roomID, type := MRoomMember, stateKey := some stateKey,
      content := Client.memberContent membership ("", "") "", redacts := "", redactsSender := "" }
    (p.nid i) (Client.domainOf sender))

variable (ev : Event)

def membership : Handler String :=
  if ev.type ≠ MRoomMember then .fail .unparsable
  else
    match newMemberContentFromEvent ev with
    | .ok c => pure c.membership
    | .error _ => .fail .unparsable

def handleCreate : Handler (List Event) := do
  .commit .notUnique (Store.insertFriendship
    ⟨ev.eventID, ev.roomID, ev.sender, "", .init, .init, false, false, "", "", false, false, "", "",
      ev.eventID⟩)
  return [ev]

/-- The state of a user in a room; who is not its creator is taken for the other party. -/
def stateOf (f : RCSFriendship) (user : String) : St :=
  if user = f.fcID then f.fcIDState else f.toFcIDState

def inviteIfLeft (stateKey : String) (stateKeySt : St) : Handler (List Event) :=
  if stateKeySt = .leave then do
    let e ← p.buildEvent 2 ev.sender ev.roomID stateKey "invite"
    return [e]
  else return []

/-- One who has left invites the other party: they invite themselves, join, and invite the other one
too if that one has left. -/
def rejoin (stateKey : String) (f : RCSFriendship) : Handler (List Event) := do
  let e₁ ← p.buildEvent 0 ev.sender ev.roomID ev.sender "invite"
  let e₂ ← p.buildEvent 1 ev.sender ev.roomID ev.sender "join"
  let invites ← inviteIfLeft p ev stateKey (stateOf f stateKey)
  let newStateKeySt := if stateOf f stateKey = .leave then .invite else stateOf f stateKey
  let states := if ev.sender = f.fcID then (St.join, newStateKeySt) else (newStateKeySt, St.join)
  update (friendship f.id f.roomID f.fcID f.toFcID states.1 states.2 f.fcIDRemark f.toFcIDRemark
    f.fcIDOnceJoined f.toFcIDOnceJoined ev.eventID)
  return e₁ :: e₂ :: invites

def handleNormalMembership : Handler (List Event) :=
  match ev.stateKey with
  | none => .fail .noStateKey
  | some stateKey => do
    let op ← membership ev
    match ← .query (Store.getFriendshipByRoomID · ev.roomID) with
    | none =>
      -- the leave of a user of another server may come when the room has been given up
      if op = "leave" ∧ !p.isLocal ev.sender then return [ev] else .fail .notFound
    | some f =>
      if p.isLocal ev.sender ∧ stateOf f ev.sender = .leave ∧ op = "invite" ∧ ev.sender ≠ stateKey
      then rejoin p ev stateKey f
      else
        trigger (stateOf f stateKey) op ev.sender stateKey (stateKey = f.fcID) f ev
        return [ev]

/-- An invite by a user of another server. If its target has a room with the sender already, the
room with the smaller id stays. -/
def handleFedInvite (stateKey : String) : Handler (List Event) := do
  match ← .query (Store.getFriendshipByFcIDAndToFcID · stateKey ev.sender) with
  | some f₂ =>
    if f₂.roomID ≠ ev.roomID then
      if ev.roomID < f₂.roomID then
        delete f₂.roomID
        let f₁ ← .require .notFound (← .query (Store.getFriendshipByRoomID · ev.roomID))
        let r ← .require .crash (remark stateKey ev)
        update (friendship (getID ev.sender stateKey) ev.roomID ev.sender stateKey f₁.fcIDState
          .join f₁.fcIDRemark r true true ev.eventID)
        let e₁ ← p.buildEvent 0 stateKey f₂.roomID stateKey "leave"
        let e₂ ← p.buildEvent 1 stateKey ev.roomID stateKey "join"
        return [e₁, e₂]
      else
        delete ev.roomID
        let e ← p.buildEvent 0 stateKey ev.roomID stateKey "leave"
        return [e]
    else handleNormalMembership p ev
  | none => handleNormalMembership p ev

/-- An invite by a user of this server. If its target has invited the sender, the sender joins that
room; if the sender is invited to this one, they join it. -/
def handleLocalInvite (stateKey : String) : Handler (List Event) := do
  let f₂ ← .query (Store.getFriendshipByFcIDAndToFcID · stateKey ev.sender)
  match f₂.filter fun f₂ => f₂.roomID ≠ ev.roomID with
  | some f₂ =>
    delete ev.roomID
    let e₁ ← p.buildEvent 0 ev.sender ev.roomID ev.sender "leave"
    let r ← .require .crash (getUsername f₂.toFcID)
    update (friendship f₂.id f₂.roomID f₂.fcID f₂.toFcID f₂.fcIDState .join f₂.fcIDRemark r
      f₂.fcIDOnceJoined true ev.eventID)
    let e₂ ← p.buildEvent 1 ev.sender f₂.roomID ev.sender "join"
    return [e₁, e₂]
  | none =>
    let f₁ ← .require .notFound (← .query (Store.getFriendshipByRoomID · ev.roomID))
    if ev.sender = f₁.fcID then
      if f₁.fcIDState = .invite then
        update (friendship f₁.id f₁.roomID f₁.fcID f₁.toFcID .join f₁.toFcIDState f₁.fcIDRemark
          f₁.toFcIDRemark true f₁.toFcIDOnceJoined ev.eventID)
        let e ← p.buildEvent 0 ev.sender ev.roomID ev.sender "join"
        return [e]
      else handleNormalMembership p ev
    else
      if f₁.toFcIDState = .invite then
        update (friendship f₁.id f₁.roomID f₁.fcID f₁.toFcID f₁.fcIDState .join f₁.fcIDRemark
          f₁.toFcIDRemark f₁.fcIDOnceJoined true ev.eventID)
        let e ← p.buildEvent 0 ev.sender ev.roomID ev.sender "join"
        return [e]
      else handleNormalMembership p ev

def handleInvite : Handler (List Event) :=
  match ev.stateKey with
  | none => .fail .noStateKey
  | some stateKey =>
    if p.isLocal ev.sender then handleLocalInvite p ev stateKey else handleFedInvite p ev stateKey

def handleMembership : Handler (List Event) := do
  let m ← membership ev
  if m = "invite" then handleInvite p ev else handleNormalMembership p ev

/-- `handleEvent`: an event with which the room server asks. -/
def handleEvent : Handler (List Event) :=
  if ev.type = MRoomCreate then handleCreate ev
  else if ev.type = MRoomMember then handleMembership p ev
  else pure [ev]

end Ligase.Rcs

import Mathlib.Logic.Function.Basic
import Ligase.Lib.Cover

/-!
# Visibility of a room's history

The sync server replays the state events of a room. The room has a list of shared ranges, during
which everybody may read the history; each user has a view, a list of ranges of positions. A view
holds ranges of its own and pointers to shared ranges, so that a shared range that is open when it
enters a view ends there when it ends in the room.

* `RoomState.onMembership`, `RoomState.onHistoryVisibility`: the effect of the two kinds of events.
* `RoomState.checkEventVisibility`: the answer to a query, which arranges the view when it is the
  user's first.
-/

namespace Ligase.Sync

open Lib Function

/-! ## Ranges and views -/

/-- A range of positions; `stop = -1` while it is open. -/
structure RangeItem where
  start : Int
  stop : Int
  deriving DecidableEq

def RangeItem.has (item : RangeItem) (pos : Int) : Bool :=
  (pos ≥ item.start && item.stop = -1) || (pos ≥ item.start && pos ≤ item.stop)

/-- The test by which a range counts as part of another; every open range passes it that does not
start before `cur`. -/
def RangeItem.covers (cur item : RangeItem) : Bool :=
  cur.start ≤ item.start && (cur.stop = -1 || cur.stop ≥ item.stop)

/-- An entry of a view: a range of the user's own, or the shared range at an index. -/
inductive Entry where
  | own (item : RangeItem)
  | tl (i : Nat)

def deref (visiableTl : List RangeItem) : Entry → RangeItem
  | .own item => item
  | .tl i => (visiableTl[i]?).getD ⟨0, -1⟩

/-! ## Members -/

structure Members where
  join : String → Option Int
  leave : String → Option Int
  invite : String → Option Int

namespace Members

variable (m : Members)

def preMembership (user : String) : String :=
  if (m.join user).isSome then "join"
  else if (m.leave user).isSome then "leave"
  else if (m.invite user).isSome then "invite"
  else ""

def store (user membership : String) (offset : Int) : Members :=
  if membership = "join" then { m with join := Function.update m.join user (some offset) }
  else if membership = "invite" then
    { m with invite := Function.update m.invite user (some offset) }
  else if membership = "leave" ∨ membership = "ban" then
    { m with leave := Function.update m.leave user (some offset) }
  else m

def drop (user pre : String) : Members :=
  if pre = "join" then { m with join := Function.update m.join user none }
  else if pre = "invite" then { m with invite := Function.update m.invite user none }
  else if pre = "leave" then { m with leave := Function.update m.leave user none }
  else m

/-- The maps after a member event. A ban of a user who has left is stored with the leaves and
dropped again. -/
def update (user membership : String) (offset : Int) : Members :=
  let pre := m.preMembership user
  if membership ≠ pre then (m.store user membership offset).drop user pre
  else m.store user membership offset

theorem preMembership_eq_join {m : Members} {user : String} :
    m.preMembership user = "join" ↔ (m.join user).isSome = true := by
  unfold preMembership
  split_ifs <;> simp_all

theorem join_store (user membership : String) (offset : Int) :
    (m.store user membership offset).join =
      if membership = "join" then Function.update m.join user (some offset) else m.join := by
  unfold store
  split_ifs <;> rfl

theorem join_drop (user pre : String) : (m.drop user pre).join =
    if pre = "join" then Function.update m.join user none else m.join := by
  unfold drop
  split_ifs <;> rfl

theorem join_update (user membership : String) (offset : Int) :
    (m.update user membership offset).join =
      Function.update m.join user (if membership = "join" then some offset else none) := by
  have hnone : m.preMembership user ≠ "join" → m.join user = none := by
    rw [Ne, preMembership_eq_join]
    simp
  unfold update
  by_cases hm : membership = m.preMembership user
  · simp only [hm, ne_eq, not_true, if_false, join_store]
    by_cases hj : m.preMembership user = "join"
    · simp only [hj, if_true]
    · simp only [hj, if_false, ← hnone hj, update_eq_self]
  · simp only [ne_eq, hm, not_false_iff, if_true, join_drop, join_store]
    by_cases hj : m.preMembership user = "join"
    · rw [if_pos hj, if_neg (fun h => hm (h.trans hj.symm)),
        if_neg (fun h => hm (h.trans hj.symm))]
    · split_ifs
      · rfl
      · rw [← hnone hj, update_eq_self]

end Members

/-! ## The state of a room -/

structure RoomState where
  createPos : Int
  historyVisibility : String
  historyVisibilityPos : Int
  members : Members
  visiableTl : List RangeItem
  userMemberView : String → Option (List Entry)
  userMemberViewOk : String → Bool

namespace RoomState

def created (createPos : Int) : RoomState where
  createPos := createPos
  historyVisibility := ""
  historyVisibilityPos := 0
  members := ⟨fun _ => none, fun _ => none, fun _ => none⟩
  visiableTl := []
  userMemberView := fun _ => none
  userMemberViewOk := fun _ => false

variable (rs : RoomState) (user : String)

/-- The shared ranges that a list of entries does not cover are appended to it. -/
def addHistory (items : List Entry) : List Entry :=
  extend (fun cur item => (deref rs.visiableTl cur).covers (deref rs.visiableTl item)) items
    ((List.range rs.visiableTl.length).map .tl)

def items : List Entry := (rs.userMemberView user).getD []

def storeView (items : List Entry) : RoomState :=
  { rs with userMemberView := Function.update rs.userMemberView user (some items) }

/-- End the last range of a view, which may be a shared one. -/
def endLast (items : List Entry) (offset : Int) : RoomState :=
  match items.getLast? with
  | none => rs.storeView user items
  | some (.own item) =>
    rs.storeView user (items.dropLast ++ [.own { item with stop := offset }])
  | some (.tl i) =>
    let visiableTl := rs.visiableTl.modify i fun item => { item with stop := offset }
    { rs with visiableTl := visiableTl }.storeView user items

/-- The shared history is added and a range is opened, from the beginning of the shared one if there
is one. -/
def joinView (offset : Int) : List Entry :=
  let items := rs.items user
  let items := if items.isEmpty then [.own ⟨rs.createPos, rs.createPos⟩] else items
  let start := if rs.historyVisibility = "shared" then rs.historyVisibilityPos else offset
  rs.addHistory items ++ [.own ⟨start, -1⟩]

def onUserMembershipChange (preMembership membership : String) (offset : Int) : RoomState :=
  let items := rs.items user
  if membership = "leave" ∨ membership = "ban" then
    if preMembership = "join" then
      rs.endLast user (if items.isEmpty then [.own ⟨rs.createPos, -1⟩] else items) offset
    else rs
  else if membership = "join" then rs.storeView user (rs.joinView user offset)
  else rs

def onMembership (membership : String) (pos offset : Int) : RoomState :=
  let pre := rs.members.preMembership user
  let rs := { rs with members := rs.members.update user membership offset }
  if membership ≠ pre then rs.onUserMembershipChange user pre membership pos else rs

def onHistoryVisibility (value : String) (pos : Int) : RoomState :=
  if rs.historyVisibility ≠ value then
    let visiableTl :=
      if value = "shared" then rs.visiableTl ++ [⟨pos, -1⟩]
      else if value = "joined" then
        rs.visiableTl.modify (rs.visiableTl.length - 1) fun item => { item with stop := pos - 1 }
      else rs.visiableTl
    { rs with
      visiableTl := visiableTl, historyVisibility := value, historyVisibilityPos := pos }
  else rs

def arrangeVisibilityRange : RoomState :=
  rs.storeView user (rs.addHistory (rs.items user))

def queried : RoomState :=
  if rs.userMemberViewOk user then rs
  else { rs.arrangeVisibilityRange user with
    userMemberViewOk := Function.update rs.userMemberViewOk user true }

/-- The position is in some range of the view, or there is no view. -/
def sees (pos : Int) : Bool :=
  match rs.userMemberView user with
  | none => true
  | some items => items.any fun e => (deref rs.visiableTl e).has pos

/-- May the user read the event at the position? The first query of a user arranges the view. -/
def checkEventVisibility (pos : Int) : Bool × RoomState :=
  let rs := rs.queried user
  (rs.sees user pos, rs)

end RoomState

end Ligase.Sync

import Ligase.Lib.GoMap

/-!
# The rooms of a user

The rooms a user has joined are loaded from the database into a map of untyped values. A room is
stored with -1 first and then with the offset of the join, if that is found; the readers take every
value for an `int64`.

* **`runCalls_safe`**: no call panics if the offset of every joined room is found.
-/

namespace Ligase.Aggregate

open Lib List Option

inductive Dyn where
  | int (n : Int)
  | int64 (n : Int)

def Dyn.asInt64 : Dyn → Option Int
  | .int64 n => some n
  | .int _ => none

structure Db where
  getRidsForUser : Nat → Option (List (String × String))
  getJoinRoomOffsets : Nat → List String → Option (List (String × Int))
  getRoomLastOffsets : Nat → List String → Option (List (String × Int))
  getInviteRidsForUser : Nat → Option (List (String × Int))
  getLeaveRidsForUser : Nat → Option (List String)

/-- What is kept of one user; a list that is not ready is `none`. -/
structure UserTimeLineRepo where
  join : Option (List (String × Dyn))
  invite : Option (List (String × Int))
  leave : Option (List (String × Int))
  roomOffsets : List (String × Int)
  calls : Nat

def UserTimeLineRepo.new : UserTimeLineRepo := ⟨none, none, none, [], 0⟩

/-- A call; a panic is `none`. -/
abbrev CallM := StateT UserTimeLineRepo Option

inductive Membership where
  | join
  | invite
  | leave
  | unknown
  deriving DecidableEq

def storeAll {β : Type} (values : List (String × β)) (map : List (String × β)) :
    List (String × β) :=
  values.foldl (fun map p => Json.setKey p.1 p.2 map) map

def updateRoomOffset (offsets : List (String × Int)) (p : String × Int) : List (String × Int) :=
  match offsets.lookup p.1 with
  | some last => if last < p.2 then Json.setKey p.1 p.2 offsets else offsets
  | none => Json.setKey p.1 p.2 offsets

section
variable (db : Db)

def loadedJoins (calls : Nat) (rooms : List (String × String)) : List (String × Dyn) :=
  let res := storeAll (rooms.map fun r => (r.1, .int (-1))) []
  let loadEvents := rooms.map Prod.snd
  if loadEvents.length > 0 then
    match db.getJoinRoomOffsets calls loadEvents with
    | some offsets => storeAll (offsets.map fun o => (o.1, .int64 o.2)) res
    | none => res
  else res

def loadRoomLatest (calls : Nat) (rooms : List String) (offsets : List (String × Int)) :
    List (String × Int) :=
  if rooms.length > 0 then
    ((db.getRoomLastOffsets calls rooms).getD []).foldl updateRoomOffset offsets
  else offsets

/-- The map, and whether there was no error. -/
def getJoinRooms : CallM (List (String × Dyn) × Bool) := fun s =>
  match s.join with
  | some joins => some ((joins, true), s)
  | none =>
    match db.getRidsForUser s.calls with
    | none => some (([], false), { s with calls := s.calls + 1 })
    | some rooms =>
      let joins := loadedJoins db s.calls rooms
      let loadrooms := (rooms.map Prod.fst).filter fun id =>
        (s.roomOffsets.lookup id).getD (-1) = -1
      some ((joins, true), { s with
        join := some joins
        roomOffsets := loadRoomLatest db s.calls loadrooms s.roomOffsets
        calls := s.calls + 1 })

def getInviteRooms : CallM (Option (List (String × Int))) := fun s =>
  match s.invite with
  | some rooms => some (some rooms, s)
  | none =>
    match db.getInviteRidsForUser s.calls with
    | none => some (none, { s with calls := s.calls + 1 })
    | some rooms =>
      let res := storeAll rooms []
      some (some res, { s with invite := some res, calls := s.calls + 1 })

def getLeaveRooms : CallM (Option (List (String × Int))) := fun s =>
  match s.leave with
  | some rooms => some (some rooms, s)
  | none =>
    match db.getLeaveRidsForUser s.calls with
    | none => some (none, { s with calls := s.calls + 1 })
    | some rooms =>
      let res := storeAll (rooms.map fun id => (id, -1)) []
      some (some res, { s with leave := some res, calls := s.calls + 1 })

def getUserRoomMembership (room : String) : CallM Membership := do
  let (joined, _) ← getJoinRooms db
  if (joined.lookup room).isSome then return .join
  let invited ← getInviteRooms db
  if ((invited.getD []).lookup room).isSome then return .invite
  let leaved ← getLeaveRooms db
  if ((leaved.getD []).lookup room).isSome then return .leave
  return .unknown

def getJoinMembershipOffset (roomID : String) : CallM Int := do
  let (joins, ok) ← getJoinRooms db
  if !ok then return -1
  match joins.lookup roomID with
  | some offset => StateT.lift offset.asInt64
  | none => return -1

def getRoomOffset (roomID : String) : Membership → CallM Int
  | .join => do return ((← get).roomOffsets.lookup roomID).getD (-1)
  | .invite => do return (((← getInviteRooms db).getD []).lookup roomID).getD (-1)
  | .leave => do return (((← getLeaveRooms db).getD []).lookup roomID).getD (-1)
  | .unknown => return -1

def tokenUpdate : List (String × Int) → CallM Bool
  | [] => return false
  | (roomID, offset) :: token => do
    let membership ← getUserRoomMembership db roomID
    let roomOffset ← getRoomOffset db roomID membership
    if roomOffset ≠ -1 ∧ offset < roomOffset then
      if membership = .join then
        if (← getJoinMembershipOffset db roomID) > 0 then return true
        tokenUpdate token
      else return true
    else tokenUpdate token

def newJoined (token : List (String × Int)) : List String → CallM Bool
  | [] => return false
  | roomID :: rooms => do
    if (token.lookup roomID).isSome then newJoined token rooms
    else if (← getJoinMembershipOffset db roomID) > 0 then return true
    else newJoined token rooms

/-- `loaded` is what is read of the token: an error, or the position with the rooms. -/
def existsUserEventUpdate (utl : Int) (loaded : Option (Int × Option (List (String × Int)))) :
    CallM (Bool × Int) :=
  match loaded with
  | none => return (false, utl)
  | some (curUtl, none) => return (true, curUtl)
  | some (curUtl, some token) => do
    let (joinedRooms, _) ← getJoinRooms db
    if ← tokenUpdate db token then return (true, curUtl)
    if ← newJoined db token (joinedRooms.map Prod.fst) then return (true, curUtl)
    let invited ← getInviteRooms db
    if (invited.getD []).any fun p => (token.lookup p.1).isNone then return (true, curUtl)
    let leaved ← getLeaveRooms db
    if (leaved.getD []).any fun p => (token.lookup p.1).isNone && p.2 ≠ -1 then
      return (true, curUtl)
    return (false, curUtl)

inductive JoinCall where
  | getJoinRooms
  | getJoinMembershipOffset (roomID : String)
  | existsUserEventUpdate (utl : Int) (loaded : Option (Int × Option (List (String × Int))))

def JoinCall.call : JoinCall → CallM Unit
  | .getJoinRooms => do let _ ← Aggregate.getJoinRooms db
  | .getJoinMembershipOffset roomID => do let _ ← Aggregate.getJoinMembershipOffset db roomID
  | .existsUserEventUpdate utl loaded => do let _ ← Aggregate.existsUserEventUpdate db utl loaded

def runCalls : List JoinCall → CallM Unit
  | [] => return
  | c :: calls => do
    c.call db
    runCalls calls

end

/-! ## Calls that do not panic -/

def AllInt64 (joins : List (String × Dyn)) : Prop := ∀ p ∈ joins, p.2.asInt64.isSome = true

def UserTimeLineRepo.Typed (s : UserTimeLineRepo) : Prop := ∀ joins ∈ s.join, AllInt64 joins

/-- The call returns, keeps the types and gives a value with the property. -/
def Safe {β : Type} (m : CallM β) (P : β → Prop) : Prop :=
  ∀ s : UserTimeLineRepo, s.Typed → ∃ b s', m s = some (b, s') ∧ s'.Typed ∧ P b

variable {β γ : Type} {P : β → Prop} {Q : γ → Prop}

theorem Safe.bind {m : CallM β} {f : β → CallM γ} (hm : Safe m P) (hf : ∀ b, P b → Safe (f b) Q) :
    Safe (m >>= f) Q := by
  intro s hs
  obtain ⟨b, s', hms, hs', hb⟩ := hm s hs
  obtain ⟨c, s'', hfs, hs'', hc⟩ := hf b hb s' hs'
  refine ⟨c, s'', ?_, hs'', hc⟩
  show (m s).bind _ = _
  rw [hms]
  exact hfs

theorem safe_pure {b : β} (h : P b) : Safe (pure b) P := fun s hs => ⟨b, s, rfl, hs, h⟩

theorem mem_storeAll {values map : List (String × β)} {p : String × β}
    (h : p ∈ storeAll values map) : p ∈ values ∨ p ∈ map ∧ p.1 ∉ values.map Prod.fst := by
  induction values generalizing map with
  | nil => exact .inr ⟨h, not_mem_nil⟩
  | cons v values ih =>
    rcases ih h with h | ⟨h, hv⟩
    · exact .inl (mem_cons_of_mem _ h)
    · rcases mem_cons.mp h with rfl | h
      · exact .inl mem_cons_self
      · obtain ⟨hmap, hne⟩ := mem_filter.mp h
        refine .inr ⟨hmap, fun hmem => ?_⟩
        rcases mem_cons.mp hmem with he | hmem
        · exact of_decide_eq_true hne he
        · exact hv hmem

def Complete (db : Db) : Prop :=
  ∀ n rooms, db.getRidsForUser n = some rooms → rooms ≠ [] → ∃ offsets,
    db.getJoinRoomOffsets n (rooms.map Prod.snd) = some offsets ∧
      ∀ r ∈ rooms, r.1 ∈ offsets.map Prod.fst

section
variable {db : Db} (hdb : Complete db)
include hdb

theorem Complete.allInt64 {n : Nat} {rooms : List (String × String)}
    (h : db.getRidsForUser n = some rooms) : AllInt64 (loadedJoins db n rooms) := by
  unfold loadedJoins
  dsimp only
  split_ifs with hlen
  · obtain ⟨offsets, hoff, hall⟩ := hdb n rooms h (by rintro rfl; exact absurd hlen (by simp))
    rw [hoff]
    intro p hp
    rcases mem_storeAll hp with hp | ⟨hp, hno⟩
    · obtain ⟨o, -, rfl⟩ := mem_map.mp hp
      rfl
    · obtain ⟨r, hr, rfl⟩ := mem_map.mp ((mem_storeAll hp).resolve_right (by simp))
      exact absurd (hall r hr) (by simpa using hno)
  · have hnil : rooms = [] := by simpa using hlen
    subst hnil
    exact nofun

theorem Complete.getJoinRooms : Safe (getJoinRooms db) fun r => AllInt64 r.1 := by
  intro s hs
  unfold Aggregate.getJoinRooms
  cases hj : s.join with
  | some joins => exact ⟨_, _, rfl, hs, hs joins hj⟩
  | none =>
    cases hr : db.getRidsForUser s.calls with
    | none => exact ⟨_, _, rfl, nofun, nofun⟩
    | some rooms =>
      refine ⟨_, _, rfl, fun joins h => ?_, hdb.allInt64 hr⟩
      obtain rfl := some.inj h
      exact hdb.allInt64 hr

omit hdb in
theorem safe_getInviteRooms : Safe (getInviteRooms db) fun _ => True := by
  intro s hs
  unfold getInviteRooms
  cases s.invite with
  | some rooms => exact ⟨_, _, rfl, hs, trivial⟩
  | none => cases db.getInviteRidsForUser s.calls <;> exact ⟨_, _, rfl, hs, trivial⟩

omit hdb in
theorem safe_getLeaveRooms : Safe (getLeaveRooms db) fun _ => True := by
  intro s hs
  unfold getLeaveRooms
  cases s.leave with
  | some rooms => exact ⟨_, _, rfl, hs, trivial⟩
  | none => cases db.getLeaveRidsForUser s.calls <;> exact ⟨_, _, rfl, hs, trivial⟩

theorem Complete.getUserRoomMembership (room : String) :
    Safe (getUserRoomMembership db room) fun _ => True := by
  refine hdb.getJoinRooms.bind fun r _ => ?_
  dsimp only
  split_ifs
  · exact safe_pure trivial
  · refine safe_getInviteRooms.bind fun invited _ => ?_
    split_ifs
    · exact safe_pure trivial
    · refine safe_getLeaveRooms.bind fun leaved _ => ?_
      split_ifs <;> exact safe_pure trivial

theorem Complete.getJoinMembershipOffset (roomID : String) :
    Safe (getJoinMembershipOffset db roomID) fun _ => True := by
  refine hdb.getJoinRooms.bind fun r hr => ?_
  dsimp only
  split_ifs
  · exact safe_pure trivial
  · cases hl : r.1.lookup roomID with
    | none => exact safe_pure trivial
    | some offset =>
      obtain ⟨l₁, l₂, heq, -⟩ := lookup_eq_some_iff.mp hl
      obtain ⟨n, hn⟩ := isSome_iff_exists.mp (hr (roomID, offset) (by simp [heq]))
      have hlift : Safe (StateT.lift offset.asInt64) fun _ => True := fun s hs =>
        ⟨n, s, by rw [show offset.asInt64 = some n from hn]; rfl, hs, trivial⟩
      exact hlift

omit hdb in
theorem safe_getRoomOffset (roomID : String) (membership : Membership) :
    Safe (getRoomOffset db roomID membership) fun _ => True := by
  cases membership with
  | join => exact fun s hs => ⟨_, s, rfl, hs, trivial⟩
  | invite => exact safe_getInviteRooms.bind fun _ _ => safe_pure trivial
  | leave => exact safe_getLeaveRooms.bind fun _ _ => safe_pure trivial
  | unknown => exact safe_pure trivial

theorem Complete.tokenUpdate (token : List (String × Int)) :
    Safe (tokenUpdate db token) fun _ => True := by
  induction token with
  | nil => exact safe_pure trivial
  | cons p token ih =>
    refine (hdb.getUserRoomMembership p.1).bind fun membership _ => ?_
    refine (safe_getRoomOffset p.1 membership).bind fun roomOffset _ => ?_
    split_ifs
    · refine (hdb.getJoinMembershipOffset p.1).bind fun offset _ => ?_
      split_ifs
      · exact safe_pure trivial
      · exact ih
    · exact safe_pure trivial
    · exact ih

theorem Complete.newJoined (token : List (String × Int)) (rooms : List String) :
    Safe (newJoined db token rooms) fun _ => True := by
  induction rooms with
  | nil => exact safe_pure trivial
  | cons roomID rooms ih =>
    unfold Aggregate.newJoined
    split_ifs
    · exact ih
    · refine (hdb.getJoinMembershipOffset roomID).bind fun offset _ => ?_
      split_ifs
      · exact safe_pure trivial
      · exact ih

theorem Complete.existsUserEventUpdate (utl : Int)
    (loaded : Option (Int × Option (List (String × Int)))) :
    Safe (existsUserEventUpdate db utl loaded) fun _ => True := by
  unfold Aggregate.existsUserEventUpdate
  split
  · exact safe_pure trivial
  · exact safe_pure trivial
  · rename_i token
    refine hdb.getJoinRooms.bind fun r _ => (hdb.tokenUpdate token).bind fun b _ => ?_
    split_ifs
    · exact safe_pure trivial
    refine (hdb.newJoined token _).bind fun b _ => ?_
    split_ifs
    · exact safe_pure trivial
    refine safe_getInviteRooms.bind fun invited _ => ?_
    split_ifs
    · exact safe_pure trivial
    refine safe_getLeaveRooms.bind fun leaved _ => ?_
    split_ifs <;> exact safe_pure trivial

theorem Complete.call (c : JoinCall) : Safe (c.call db) fun _ => True := by
  cases c with
  | getJoinRooms => exact hdb.getJoinRooms.bind fun _ _ => safe_pure trivial
  | getJoinMembershipOffset roomID =>
    exact (hdb.getJoinMembershipOffset roomID).bind fun _ _ => safe_pure trivial
  | existsUserEventUpdate utl loaded =>
    exact (hdb.existsUserEventUpdate utl loaded).bind fun _ _ => safe_pure trivial

/-- **No call panics**, whatever is asked, if the database finds the offset of the join of every
room it lists. -/
theorem runCalls_safe (calls : List JoinCall) :
    ∃ s, runCalls db calls .new = some ((), s) ∧ s.Typed := by
  have hsafe : Safe (runCalls db calls) fun _ => True := by
    induction calls with
    | nil => exact safe_pure trivial
    | cons c calls ih => exact (hdb.call c).bind fun _ _ => ih
  obtain ⟨_, s, hrun, hs, -⟩ := hsafe .new nofun
  exact ⟨s, hrun, hs⟩

end

def oneRoom (offsets : Option (List (String × Int))) : Db where
  getRidsForUser _ := some [("!r:x", "$e")]
  getJoinRoomOffsets _ _ := offsets
  getRoomLastOffsets _ _ := some []
  getInviteRidsForUser _ := some []
  getLeaveRidsForUser _ := some []

theorem runCalls_safe_found : ∃ s, runCalls (oneRoom (some [("!r:x", 7)]))
    [.getJoinMembershipOffset "!r:x", .existsUserEventUpdate 1 (some (1, some []))] .new =
      some ((), s) ∧ s.Typed := by
  refine runCalls_safe (fun n rooms h _ => ?_) _
  obtain rfl := some.inj h
  exact ⟨_, rfl, by decide⟩

/-- The offset is not found, and the -1 that was stored first is read. -/
theorem offset_not_found :
    (runCalls (oneRoom none) [.getJoinMembershipOffset "!r:x"] .new).isNone = true := by
  decide

end Ligase.Aggregate

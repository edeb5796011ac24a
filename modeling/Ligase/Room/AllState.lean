import Ligase.Room.Slots

/-!
# The full state of a room

`GetAllState` collects the events of the settings and of the maps and sorts them by their numbers.
Other servers get it with an invite.

* **`allState_complete_iff`**: when the result is exactly what the state holds.
-/

namespace Ligase.Room

open Lib Auth RoomServerState Option List

variable {rs : RoomServerState} {localDomains : List String} {e : Event}

/-! ## Collecting events -/

structure Holdings where
  setting : Setting → Option Event
  member : MemberMap → String → Option Event
  thirdInvite : String → Option Event

def Holdings.get (x : Holdings) : Place → Option Event
  | .setting s => x.setting s
  | .member m user => x.member m user
  | .thirdInvite stateKey => x.thirdInvite stateKey

def RoomServerState.holdings (rs : RoomServerState) : Holdings :=
  ⟨rs.setting, rs.map, rs.thirdInvite⟩

@[simp] theorem get_holdings (p : Place) : rs.holdings.get p = rs.held p := by
  cases p <;> rfl

structure Ranges (x : Holdings) where
  member : (m : MemberMap) → Range (x.member m)
  thirdInvite : Range x.thirdInvite

variable {x : Holdings} (settings : List Setting)

def eventsAt (r : Ranges x) : List Event :=
  settings.filterMap x.setting ++ (r.member .join).values ++ (r.member .leave).values ++
    (r.member .invite).values ++ r.thirdInvite.values

def Ranges.places (r : Ranges x) : List Place :=
  settings.map .setting ++ (r.member .join).keys.map (.member .join) ++
    (r.member .leave).keys.map (.member .leave) ++ (r.member .invite).keys.map (.member .invite) ++
    r.thirdInvite.keys.map .thirdInvite

theorem eventsAt_eq (r : Ranges x) : eventsAt settings r = (r.places settings).filterMap x.get := by
  simp only [eventsAt, Ranges.places, Range.values, filterMap_append, filterMap_map]
  rfl

variable {settings : List Setting}

theorem nodup_places (hs : settings.Nodup) (r : Ranges x) : (r.places settings).Nodup := by
  have hmap : ∀ {α : Type} {l : List α} (f : α → Place), (∀ a b, f a = f b → a = b) → l.Nodup →
      (l.map f).Nodup := fun f hf hl => hl.map fun a b => hf a b
  simp only [Ranges.places, nodup_append, mem_append, List.mem_map]
  refine ⟨⟨⟨⟨hmap _ (by simp) hs, hmap _ (by simp) (r.member .join).nodup, ?_⟩,
    hmap _ (by simp) (r.member .leave).nodup, ?_⟩, hmap _ (by simp) (r.member .invite).nodup, ?_⟩,
    hmap _ (by simp) r.thirdInvite.nodup, ?_⟩
  all_goals grind

theorem mem_eventsAt {r : Ranges x} : e ∈ eventsAt settings r ↔
      ∃ p, x.get p = some e ∧ ∀ s, p = .setting s → s ∈ settings := by
  simp only [eventsAt, mem_append, Range.mem_values, mem_filterMap]
  constructor
  · rintro ((((⟨s, hs, h⟩ | ⟨k, h⟩) | ⟨k, h⟩) | ⟨k, h⟩) | ⟨k, h⟩)
    · exact ⟨.setting s, h, fun s' he => by cases he; exact hs⟩
    · exact ⟨.member .join k, h, nofun⟩
    · exact ⟨.member .leave k, h, nofun⟩
    · exact ⟨.member .invite k, h, nofun⟩
    · exact ⟨.thirdInvite k, h, nofun⟩
  · rintro ⟨p, h, hs⟩
    cases p with
    | setting s => exact .inl (.inl (.inl (.inl ⟨s, hs s rfl, h⟩)))
    | member m k =>
      cases m with
      | join => exact .inl (.inl (.inl (.inr ⟨k, h⟩)))
      | leave => exact .inl (.inl (.inr ⟨k, h⟩))
      | invite => exact .inl (.inr ⟨k, h⟩)
    | thirdInvite k => exact .inr ⟨k, h⟩

theorem nodup_eventsAt (hrs : Filed rs) (hs : settings.Nodup) (r : Ranges rs.holdings) :
    (eventsAt settings r).Nodup := by
  rw [eventsAt_eq]
  refine (nodup_places hs r).filterMap fun p q e hp hq => ?_
  exact some.inj ((hrs.place p e hp).symm.trans (hrs.place q e hq))

theorem Filed.nonempty_ranges (hrs : Filed rs) : Nonempty (Ranges rs.holdings) := by
  have hmember : ∀ m, Nonempty (Range (rs.map m)) := fun m =>
    Range.nonempty (hrs.finite.preimage (f := Place.member m) fun a _ b _ h => by cases h; rfl)
  have hthird := Range.nonempty (hrs.finite.preimage (f := Place.thirdInvite) fun a _ b _ h => by
    cases h; rfl)
  exact ⟨⟨fun m => (hmember m).some, hthird.some⟩⟩

/-! ## `GetAllState` -/

/-- The settings after the creation, in the order of the code. -/
def allStateSettings : List Setting :=
  [.joinRule, .historyVisibility, .visibility, .name, .topic, .canonicalAlias, .aliases, .power,
    .avatar, .pin, .guestAccess]

/-- `GetAllState`; it reads the creation without looking whether there is one. -/
def getAllState {eventNID : Event → Int} (S : SortBy eventNID) (r : Ranges rs.holdings) :
    Option (List Event) :=
  rs.creator.map fun _ => S.sort (eventsAt (.creator :: allStateSettings) r)

/-- The list has the events that the state holds, each once, ordered by number. -/
structure IsFullState (rs : RoomServerState) (eventNID : Event → Int) (l : List Event) : Prop where
  nodup : l.Nodup
  mem : ∀ e, e ∈ l ↔ ∃ p, rs.held p = some e
  sorted : l.Pairwise fun a b => eventNID a ≤ eventNID b

theorem mem_visited (s : Setting) : s ∈ Setting.creator :: allStateSettings ↔ s ≠ .desc := by
  cases s <;> decide

theorem desc_not_mem (hrs : Filed rs) (hd : rs.desc = some e) (r : Ranges rs.holdings) :
    e ∉ eventsAt (.creator :: allStateSettings) r := by
  intro hmem
  obtain ⟨p, hp, hs⟩ := mem_eventsAt.mp hmem
  have hplace := hrs.place (.setting .desc) e hd
  obtain rfl := some.inj ((hrs.place p e hp).symm.trans hplace)
  exact (mem_visited .desc).mp (hs .desc rfl) rfl

/-- **The full state**: `GetAllState` gives exactly the held events if and only if the room has a
creation and no description. -/
theorem allState_complete_iff {eventNID : Event → Int} (h : Reachable localDomains rs)
    (S : SortBy eventNID) (r : Ranges rs.holdings) :
    (∃ l, getAllState S r = some l ∧ IsFullState rs eventNID l) ↔
      rs.creator.isSome = true ∧ rs.desc = none := by
  have hrs := filed_of_reachable h
  constructor
  · rintro ⟨l, hl, hfull⟩
    obtain ⟨c, hc, rfl⟩ := map_eq_some_iff.mp hl
    refine ⟨isSome_iff_exists.mpr ⟨c, hc⟩, ?_⟩
    cases hd : rs.desc with
    | none => rfl
    | some d =>
      have hmem := (hfull.mem d).mpr ⟨.setting .desc, hd⟩
      exact absurd ((S.perm _).mem_iff.mp hmem) (desc_not_mem hrs hd r)
  · rintro ⟨hc, hd⟩
    obtain ⟨c, hc⟩ := isSome_iff_exists.mp hc
    refine ⟨_, map_eq_some_iff.mpr ⟨c, hc, rfl⟩, ?_, fun e => ?_, S.sorted _⟩
    · exact (S.perm _).nodup_iff.mpr (nodup_eventsAt hrs (by decide) r)
    · rw [(S.perm _).mem_iff, mem_eventsAt]
      refine ⟨fun ⟨p, hp, _⟩ => ⟨p, hp⟩, fun ⟨p, hp⟩ => ⟨p, hp, fun s hs => ?_⟩⟩
      rw [mem_visited]
      rintro rfl
      rw [hs] at hp
      exact some_ne_none e (hp.symm.trans hd)

def aliceNID (ev : Event) : Int :=
  if ev.eventID = "$1" then 1 else if ev.eventID = "$2" then 2 else 3

theorem reachable_of_run (evs : List Event)
    (h : run (fun rs ev => rs.onEvent localDomains false ev) init evs = some rs) :
    Reachable localDomains rs := by
  refine ⟨evs.map (Prod.mk false), ?_⟩
  rw [← h]
  clear h
  generalize init = s
  induction evs generalizing s with
  | nil => rfl
  | cons ev evs ih => exact congrArg _ (funext ih)

theorem allState_complete_alice : ∃ r : Ranges room₀.holdings, ∃ l,
    getAllState (SortBy.insertion aliceNID) r = some l ∧ IsFullState room₀ aliceNID l := by
  have h : Reachable ["x"] room₀ := reachable_of_run aliceRoom rfl
  obtain ⟨r⟩ := (filed_of_reachable h).nonempty_ranges
  exact ⟨r, (allState_complete_iff h (SortBy.insertion aliceNID) r).mpr ⟨rfl, rfl⟩⟩

def description : Event := event "$3" "@a:x" "m.room.desc" "" [("desc", "a room")]

def describedRoom : RoomServerState :=
  (run (step env₀ ["x"] false) init (aliceRoom ++ [description])).getD init

/-- The three events are allowed and entered, and two come back. -/
theorem description_missing :
    run (step env₀ ["x"] false) init (aliceRoom ++ [description]) = some describedRoom ∧
      Reachable ["x"] describedRoom ∧ describedRoom.held (.setting .desc) = some description ∧
      ∃ r : Ranges describedRoom.holdings, ∀ S : SortBy aliceNID, ∃ l,
        getAllState S r = some l ∧ description ∉ l := by
  have h : Reachable ["x"] describedRoom :=
    reachable_of_run (aliceRoom ++ [description]) rfl
  have hrs := filed_of_reachable h
  obtain ⟨r⟩ := hrs.nonempty_ranges
  refine ⟨rfl, h, rfl, r, fun S => ⟨_, rfl, fun hmem => ?_⟩⟩
  exact desc_not_mem hrs rfl r ((S.perm _).mem_iff.mp hmem)

end Ligase.Room

import Mathlib.Data.List.Induction
import Ligase.Sync.TimeLine

/-!
# State time lines

The state events of a room are kept in the order in which they came; an event that is added marks
those it replaces as deleted. State that the time line does not have is read from the database.

* **`addEv_latest`**: what is not marked is the latest event of each key, if only member events use
  different state keys for one type.
* **`getStateEvents_content_iff`**: what is read from the database is all the last event.
-/

namespace Ligase.Sync

open Lib List Option

/-! ## Adding events -/

structure StateFeed where
  offset : Int
  ev : ClientEvent
  isDeleted : Bool

/-- What an event does to one that may be replaced; the keys of two member events are
dereferenced. -/
def mark (ev : ClientEvent) (stream : StateFeed) : Option StateFeed :=
  if stream.isDeleted then some stream
  else if stream.ev.type = ev.type ∧ stream.ev.eventID ≠ ev.eventID then
    if ev.type = "m.room.member" then
      match stream.ev.stateKey, ev.stateKey with
      | some k, some k' => some (if k = k' then { stream with isDeleted := true } else stream)
      | _, _ => none
    else some { stream with isDeleted := true }
  else some stream

/-- The event is live if `load`, and otherwise one that is loaded. -/
def addEv (feeds : List StateFeed) (load : Bool) (offset : Int) (ev : ClientEvent) :
    Option (List StateFeed) :=
  if ev.isStateClientEv then
    let feeds := feeds ++ [⟨offset, ev, false⟩]
    if load then feeds.mapM (mark ev) else some feeds
  else some feeds

def addEvs (evs : List (Int × ClientEvent)) : Option (List StateFeed) :=
  run (fun feeds e => addEv feeds true e.1 e.2) [] evs

/-! ## The latest events -/

def SameKey (a b : ClientEvent) : Prop := a.type = b.type ∧ a.stateKey = b.stateKey

instance (a b : ClientEvent) : Decidable (SameKey a b) := inferInstanceAs (Decidable (_ ∧ _))

/-- The feeds in which exactly the events that have a later one of their key are marked. -/
def latest : List (Int × ClientEvent) → List StateFeed
  | [] => []
  | (offset, ev) :: evs => ⟨offset, ev, evs.any fun e => SameKey ev e.2⟩ :: latest evs

def StateFeed.replaced (ev : ClientEvent) (f : StateFeed) : StateFeed :=
  { f with isDeleted := f.isDeleted || SameKey f.ev ev }

theorem latest_concat (evs : List (Int × ClientEvent)) (offset : Int) (ev : ClientEvent) :
    latest (evs ++ [(offset, ev)]) =
      (latest evs).map (StateFeed.replaced ev) ++ [⟨offset, ev, false⟩] := by
  induction evs with
  | nil => rfl
  | cons e evs ih =>
    rw [cons_append, latest, latest, ih, map_cons, cons_append]
    simp [StateFeed.replaced]

variable {evs : List (Int × ClientEvent)}

theorem mem_latest {offset : Int} {ev : ClientEvent} :
    ⟨offset, ev, false⟩ ∈ latest evs ↔ ∃ pre post, evs = pre ++ (offset, ev) :: post ∧
      ∀ e ∈ post, ¬ SameKey ev e.2 := by
  induction evs with
  | nil => simp [latest]
  | cons e evs ih =>
    rw [latest, mem_cons, ih]
    constructor
    · rintro (h | ⟨pre, post, rfl, hpost⟩)
      · obtain ⟨rfl, rfl, h⟩ := StateFeed.mk.inj h
        exact ⟨[], evs, rfl, by simpa using h⟩
      · exact ⟨e :: pre, post, rfl, hpost⟩
    · rintro ⟨pre, post, h, hpost⟩
      cases pre with
      | nil =>
        obtain ⟨rfl, rfl⟩ := cons.inj h
        exact .inl (by simpa using hpost)
      | cons a pre =>
        obtain ⟨rfl, rfl⟩ := cons.inj h
        exact .inr ⟨pre, post, rfl, hpost⟩

theorem ev_of_mem_latest {f : StateFeed} (h : f ∈ latest evs) : (f.offset, f.ev) ∈ evs := by
  induction evs with
  | nil => cases h
  | cons e evs ih =>
    rcases mem_cons.mp h with rfl | h
    · exact mem_cons_self
    · exact mem_cons_of_mem _ (ih h)

/-- State events of which only those of members share their type and not their key. -/
structure Keyed (evs : List (Int × ClientEvent)) : Prop where
  state : ∀ e ∈ evs, e.2.isStateClientEv = true ∧ e.2.stateKey.isSome = true
  ids : evs.Pairwise fun a b => a.2.eventID ≠ b.2.eventID
  single : ∀ a ∈ evs, ∀ b ∈ evs, a.2.type = b.2.type → a.2.type ≠ "m.room.member" →
    a.2.stateKey = b.2.stateKey

theorem mark_eq {ev : ClientEvent} {f : StateFeed} (hid : f.ev.eventID ≠ ev.eventID)
    (hk : f.ev.stateKey.isSome = true) (hk' : ev.stateKey.isSome = true)
    (hsingle : f.ev.type = ev.type → f.ev.type ≠ "m.room.member" →
      f.ev.stateKey = ev.stateKey) : mark ev f = some (f.replaced ev) := by
  obtain ⟨k, hk⟩ := isSome_iff_exists.mp hk
  obtain ⟨k', hk'⟩ := isSome_iff_exists.mp hk'
  obtain ⟨offset, fev, isDeleted⟩ := f
  unfold mark StateFeed.replaced SameKey
  dsimp only at hid hk hsingle ⊢
  split_ifs with hd ht hm
  · simp [hd]
  · by_cases hkk : k = k' <;> simp_all
  · simp [hsingle ht.1 (ht.1 ▸ hm), ht.1]
  · have hne : fev.type ≠ ev.type := fun he => ht ⟨he, hid⟩
    simp [hne]

theorem mapM_eq_map {α β : Type} {f : α → Option β} {g : α → β} {l : List α}
    (h : ∀ a ∈ l, f a = some (g a)) : l.mapM f = some (l.map g) := by
  induction l with
  | nil => rfl
  | cons a l ih =>
    rw [mapM_cons, h a mem_cons_self, ih fun b hb => h b (mem_cons_of_mem _ hb)]
    rfl

theorem addEvs_eq (h : Keyed evs) : addEvs evs = some (latest evs) := by
  induction evs using reverseRecOn with
  | nil => rfl
  | append_singleton evs e ih =>
    obtain ⟨offset, ev⟩ := e
    have hin : ∀ e ∈ evs, e ∈ evs ++ [(offset, ev)] := fun e he => mem_append_left _ he
    have hlast : (offset, ev) ∈ evs ++ [(offset, ev)] := by simp
    obtain ⟨hids, -, hid⟩ := pairwise_append.mp h.ids
    have hrun := ih ⟨fun e he => h.state e (hin e he), hids,
      fun a ha b hb => h.single a (hin a ha) b (hin b hb)⟩
    refine run_append_eq_some.mpr ⟨_, hrun, run_cons_eq_some.mpr ⟨_, ?_, rfl⟩⟩
    rw [addEv, if_pos (h.state _ hlast).1, latest_concat]
    have hold : ∀ f ∈ latest evs, mark ev f = some (f.replaced ev) := fun f hf => by
      have hmem := ev_of_mem_latest hf
      exact mark_eq (hid _ hmem _ mem_cons_self) (h.state _ (hin _ hmem)).2 (h.state _ hlast).2
        (h.single _ (hin _ hmem) _ hlast)
    have hnew : mark ev ⟨offset, ev, false⟩ = some ⟨offset, ev, false⟩ := by simp [mark]
    simp only [if_true, mapM_append, mapM_eq_map hold]
    simp [hnew]

/-- **The latest event of each key is not marked**, and nothing else is left, if the ids of the
events differ and only member events use several state keys for their type. -/
theorem addEv_latest {evs : List (Int × ClientEvent)} (h : Keyed evs) :
    ∃ feeds, addEvs evs = some feeds ∧ ∀ offset ev, ⟨offset, ev, false⟩ ∈ feeds ↔
      ∃ pre post, evs = pre ++ (offset, ev) :: post ∧ ∀ e ∈ post, ¬ SameKey ev e.2 :=
  ⟨_, addEvs_eq h, fun _ _ => mem_latest⟩

def stateEvent (id type key : String) : ClientEvent := ⟨id, "!r", type, some key, .null, 0, 0⟩

def named : List (Int × ClientEvent) :=
  [(1, stateEvent "$1" "m.room.name" ""), (2, stateEvent "$2" "m.room.member" "@a"),
    (3, stateEvent "$3" "m.room.name" "")]

theorem addEv_latest_named : ∃ feeds, addEvs named = some feeds ∧
    ⟨3, stateEvent "$3" "m.room.name" "", false⟩ ∈ feeds := by
  obtain ⟨feeds, hrun, hlive⟩ := addEv_latest
    (show Keyed named from ⟨by decide, by decide, by decide⟩)
  exact ⟨feeds, hrun, (hlive _ _).mpr ⟨named.take 2, [], rfl, nofun⟩⟩

/-- Two invites by address, of which the first is marked. -/
theorem invite_marked : ∃ feeds, addEvs [(1, stateEvent "$1" "m.room.third_party_invite" "t"),
      (2, stateEvent "$2" "m.room.third_party_invite" "u")] = some feeds ∧
    feeds.map StateFeed.isDeleted = [true, false] ∧
    ¬ SameKey (stateEvent "$1" "m.room.third_party_invite" "t")
      (stateEvent "$2" "m.room.third_party_invite" "u") :=
  ⟨_, rfl, by decide, by decide⟩

/-! ## Reading from the database -/

section
variable {α : Type}

structure FeedPtr where
  ev : Nat
  offset : Int

/-- The loop over the rows: its variable is one place of the memory, which each row overwrites. -/
def readRows (ev : Nat) (heap : Nat → α) (feeds : List FeedPtr) :
    List (α × Int) → (Nat → α) × List FeedPtr
  | [] => (heap, feeds)
  | (value, offset) :: rows =>
    readRows ev (Function.update heap ev value) (feeds ++ [⟨ev, offset⟩]) rows

/-- `streams` are the feeds of the time line up to the position, if there is one, and `ev` is the
place of the loop's variable. The events that are returned are what the feeds point to. -/
def getStateEvents (ev : Nat) (heap : Nat → α) (streams : Option (List FeedPtr))
    (db : Option (List (α × Int))) : (Nat → α) × List FeedPtr :=
  match streams with
  | none => (heap, [])
  | some feeds =>
    if feeds.length ≤ 0 then
      match db with
      | none => (heap, feeds)
      | some rows => readRows ev heap feeds rows
    else (heap, feeds)

theorem readRows_eq (ev : Nat) (heap : Nat → α) (feeds : List FeedPtr) (rows : List (α × Int)) :
    (readRows ev heap feeds rows).2 = feeds ++ rows.map (fun r => ⟨ev, r.2⟩) ∧
      ∀ r, rows.getLast? = some r → (readRows ev heap feeds rows).1 ev = r.1 := by
  induction rows generalizing heap feeds with
  | nil => exact ⟨(append_nil _).symm, nofun⟩
  | cons r rows ih =>
    obtain ⟨hfeeds, hlast⟩ := ih (Function.update heap ev r.1) (feeds ++ [⟨ev, r.2⟩])
    refine ⟨by rw [readRows, hfeeds]; simp, fun r' hr' => ?_⟩
    cases rows with
    | nil =>
      obtain rfl := some.inj hr'
      exact Function.update_self ..
    | cons a rows => exact hlast r' (by simpa using hr')

/-- **Every feed from the database has the last event**: the feeds hold the rows if and only if all
rows have the same event. The offsets are right. -/
theorem getStateEvents_content_iff (ev : Nat) (heap : Nat → α) (rows : List (α × Int)) :
    (getStateEvents ev heap (some []) (some rows)).2.map FeedPtr.offset = rows.map Prod.snd ∧
    ((getStateEvents ev heap (some []) (some rows)).2.map
        (fun f => ((getStateEvents ev heap (some []) (some rows)).1 f.ev, f.offset)) = rows ↔
      ∀ a ∈ rows, ∀ b ∈ rows, a.1 = b.1) := by
  obtain ⟨hfeeds, hlast⟩ := readRows_eq ev heap [] rows
  simp only [getStateEvents, length_nil, Nat.le_refl, if_true, hfeeds, nil_append,
    List.map_map]
  have hmap : ∀ g : α × Int → α × Int, rows.map g = rows ↔ ∀ a ∈ rows, g a = a := fun g => by
    simpa using map_inj_left (l := rows) (f := g) (g := id)
  rw [hmap]
  refine ⟨rfl, fun h a ha b hb => ?_, fun h a ha => Prod.ext ?_ rfl⟩
  · rw [← h a ha, ← h b hb]
    rfl
  · cases hr : rows.getLast? with
    | none => simp_all
    | some r => exact (hlast r hr).trans (h r (mem_of_getLast? hr) a ha)

theorem getStateEvents_two : (getStateEvents 0 (fun _ => "") (some [])
      (some [("a", 1), ("b", 2)])).2.map (fun f => ((getStateEvents 0 (fun _ => "") (some [])
        (some [("a", 1), ("b", 2)])).1 f.ev, f.offset)) = [("b", 1), ("b", 2)] := by
  decide

end

end Ligase.Sync

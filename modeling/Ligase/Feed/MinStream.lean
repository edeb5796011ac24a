import Mathlib.Tactic.Common
import Ligase.Lib.Text

/-!
# The minimum stream position of a room

Every server numbers its own events of a room. When the newest event of a domain does not follow
the one before it, something is missing in between and the sync server no longer serves from its
memory what is older than the newest event.

* `Positions`: the records of a room; `getDomainMaxStream`, `getRoomMinStream` and their setters.
* `onNewRoomEvent_eq`, `onNewRoomEvent_of_ne`: what a live event does to the records of a room.
* `Recorded.step`, **`no_gap_above_minStream`**: at or above the minimum no domain has a gap.
-/

namespace Ligase.Feed

open Lib List Function

/-! ## Live events and the records -/

structure LiveEvent where
  roomID : String
  sender : String
  type : String
  eventOffset : Int
  domainOffset : Int
  deriving DecidableEq

/-- `DomainFromID` of the sender; its error is not looked at. -/
def LiveEvent.domain (ev : LiveEvent) : String := ((cut ':' ev.sender).map Prod.snd).getD ""

/-- The queries to the database, `none` for an error. -/
structure Persist where
  selectOutputMinStream : String → Option Int
  selectDomainMaxOffset : String → Option (List (String × Int))

structure Positions where
  roomMinStream : String → Option Int
  domainMaxOffset : String → Option (String → Option Int)

namespace Positions

def empty : Positions := ⟨fun _ => none, fun _ => none⟩

variable (p : Positions) (db : Persist) (roomID domain : String)

def getRoomMinStream : Int × Positions :=
  match p.roomMinStream roomID with
  | some pos => (pos, p)
  | none =>
    match db.selectOutputMinStream roomID with
    | none => (-1, p)
    | some pos =>
      (pos, { p with roomMinStream := update p.roomMinStream roomID (some pos) })

def setRoomMinStream (minStream : Int) : Positions :=
  { p with roomMinStream := update p.roomMinStream roomID (some minStream) }

def getDomainMaxStream : Int × Positions :=
  match p.domainMaxOffset roomID with
  | some domainMap => ((domainMap domain).getD (-1), p)
  | none =>
    match db.selectDomainMaxOffset roomID with
    | none => (-1, p)
    | some rows =>
      let domainMap : String → Option Int :=
        rows.foldl (fun m row => update m row.1 (some row.2)) fun _ => none
      ((domainMap domain).getD (-1),
        { p with domainMaxOffset := update p.domainMaxOffset roomID (some domainMap) })

def setDomainMaxStream (offset : Int) : Positions :=
  let domainMap := (p.domainMaxOffset roomID).getD fun _ => none
  { p with
    domainMaxOffset := update p.domainMaxOffset roomID
      (some (update domainMap domain (some offset))) }

def onNewRoomEvent (ev : LiveEvent) : Positions :=
  let p' :=
    if ev.type ≠ "m.room.create" then
      let (preOffset, p) := p.getDomainMaxStream db ev.roomID ev.domain
      if preOffset ≠ -1 ∧ preOffset + 1 ≠ ev.domainOffset then
        p.setRoomMinStream ev.roomID ev.eventOffset
      else p
    else p
  p'.setDomainMaxStream ev.roomID ev.domain ev.domainOffset

def handle (evs : List LiveEvent) : Positions := evs.foldl (fun p ev => p.onNewRoomEvent db ev) p

/-! ## What a live event does to a room -/

variable {p db roomID} {ev : LiveEvent}

theorem getDomainMaxStream_snd_of_ne (h : ev.roomID ≠ roomID) :
    (p.getDomainMaxStream db ev.roomID domain).2.roomMinStream = p.roomMinStream ∧
      (p.getDomainMaxStream db ev.roomID domain).2.domainMaxOffset roomID =
        p.domainMaxOffset roomID := by
  unfold getDomainMaxStream
  split
  · exact ⟨rfl, rfl⟩
  · split
    · exact ⟨rfl, rfl⟩
    · exact ⟨rfl, update_of_ne (Ne.symm h) _ _⟩

theorem onNewRoomEvent_of_ne (h : ev.roomID ≠ roomID) :
    (p.onNewRoomEvent db ev).roomMinStream roomID = p.roomMinStream roomID ∧
      (p.onNewRoomEvent db ev).domainMaxOffset roomID = p.domainMaxOffset roomID := by
  obtain ⟨hmin, hmax⟩ :
      (p.getDomainMaxStream db ev.roomID ev.domain).2.roomMinStream = p.roomMinStream ∧ _ :=
    getDomainMaxStream_snd_of_ne ev.domain h
  simp only [onNewRoomEvent, setDomainMaxStream]
  split
  · split
    · simp [setRoomMinStream, update_of_ne (Ne.symm h), hmin, hmax]
    · simp [update_of_ne (Ne.symm h), hmin, hmax]
  · simp [update_of_ne (Ne.symm h)]

theorem onNewRoomEvent_create (hty : ev.type = "m.room.create") :
    (p.onNewRoomEvent db ev).roomMinStream = p.roomMinStream ∧
      (p.onNewRoomEvent db ev).domainMaxOffset ev.roomID =
        some (update ((p.domainMaxOffset ev.roomID).getD fun _ => none) ev.domain
          (some ev.domainOffset)) := by
  simp [onNewRoomEvent, setDomainMaxStream, hty]

theorem onNewRoomEvent_eq {domainMap : String → Option Int} (hty : ev.type ≠ "m.room.create")
    (h : p.domainMaxOffset ev.roomID = some domainMap) :
    (p.onNewRoomEvent db ev).roomMinStream ev.roomID = (if (domainMap ev.domain).getD (-1) ≠ -1 ∧
            (domainMap ev.domain).getD (-1) + 1 ≠ ev.domainOffset then some ev.eventOffset
          else p.roomMinStream ev.roomID) ∧
      (p.onNewRoomEvent db ev).domainMaxOffset ev.roomID =
        some (update domainMap ev.domain (some ev.domainOffset)) := by
  have hget : p.getDomainMaxStream db ev.roomID ev.domain =
      ((domainMap ev.domain).getD (-1), p) := by rw [getDomainMaxStream, h]
  simp only [onNewRoomEvent, if_pos hty, hget, setDomainMaxStream]
  split
  · simp [setRoomMinStream, h]
  · simp [h]

end Positions

/-! ## The events of a room -/

variable (roomID domain : String) (evs : List LiveEvent)

def ofRoom : List LiveEvent := evs.filter (·.roomID = roomID)

def ofDomain : List LiveEvent :=
  (ofRoom roomID evs).filter (·.domain = domain)

/-- The first event and no other creates the room, the offsets grow, and no domain counts below 0.
-/
structure LiveStream : Prop where
  created : ∀ ev ∈ (ofRoom roomID evs).head?, ev.type = "m.room.create"
  once : ∀ ev ∈ (ofRoom roomID evs).tail, ev.type ≠ "m.room.create"
  increasing : (ofRoom roomID evs).Pairwise (·.eventOffset < ·.eventOffset)
  nonneg : ∀ ev ∈ ofRoom roomID evs, 0 ≤ ev.domainOffset

variable {roomID domain} {evs : List LiveEvent} {ev a b : LiveEvent}

theorem ofRoom_concat_self (h : ev.roomID = roomID) :
    ofRoom roomID (evs ++ [ev]) = ofRoom roomID evs ++ [ev] := by
  simp [ofRoom, h]

theorem ofRoom_concat_of_ne (h : ev.roomID ≠ roomID) :
    ofRoom roomID (evs ++ [ev]) = ofRoom roomID evs := by
  simp [ofRoom, h]

theorem ofDomain_concat_self (h : ev.roomID = roomID) :
    ofDomain roomID ev.domain (evs ++ [ev]) = ofDomain roomID ev.domain evs ++ [ev] := by
  simp [ofDomain, ofRoom_concat_self h]

theorem ofDomain_concat_of_ne (h : ev.roomID = roomID) (hd : domain ≠ ev.domain) :
    ofDomain roomID domain (evs ++ [ev]) = ofDomain roomID domain evs := by
  simp [ofDomain, ofRoom_concat_self h, Ne.symm hd]

theorem pair_infix_concat {l : List LiveEvent} (h : [a, b] <:+: l ++ [ev]) :
    [a, b] <:+: l ∨ l.getLast? = some a ∧ b = ev := by
  rcases infix_concat_iff.mp h with h | h
  · obtain h | ⟨t, ht, hl⟩ := suffix_concat_iff.mp h
    · exact absurd h (by simp)
    · obtain ⟨rfl, rfl⟩ : t = [a] ∧ b = ev := by
        have ht' : [a] ++ [b] = t ++ [ev] := ht
        have := append_inj' ht' rfl
        exact ⟨this.1.symm, by simpa using this.2⟩
      obtain ⟨u, rfl⟩ := hl
      exact .inr ⟨by simp, rfl⟩
  · exact .inl h

theorem LiveStream.of_append {evs' : List LiveEvent} (h : LiveStream roomID (evs ++ evs')) :
    LiveStream roomID evs := by
  have heq : ofRoom roomID (evs ++ evs') = ofRoom roomID evs ++ ofRoom roomID evs' := by
    simp [ofRoom]
  obtain ⟨h1, h2, h3, h4⟩ := h
  rw [heq] at h1 h2 h3 h4
  refine ⟨fun e he => h1 e ?_, fun e he => h2 e ?_, (pairwise_append.mp h3).1,
    fun e he => h4 e (mem_append_left _ he)⟩
  all_goals cases hl : ofRoom roomID evs <;> simp_all

/-! ## No gap at or above the minimum -/

variable (roomID)

/-- The records of a room against the events processed so far. -/
structure Recorded (p : Positions) (evs : List LiveEvent) : Prop where
  /-- the last number of each domain, once there is an event -/
  domains : ofRoom roomID evs ≠ [] → p.domainMaxOffset roomID =
    some fun d => (ofDomain roomID d evs).getLast?.map (·.domainOffset)
  /-- nothing is recorded before the first event -/
  fresh : ofRoom roomID evs = [] → p.domainMaxOffset roomID = none
  /-- the event before a gap is below the minimum -/
  below : ∀ d a b, [a, b] <:+: ofDomain roomID d evs → b.domainOffset ≠ a.domainOffset + 1 →
    ∃ m, p.roomMinStream roomID = some m ∧ a.eventOffset < m

variable {roomID} {p : Positions} {db : Persist}

theorem ofDomain_of_ofRoom_nil (h : ofRoom roomID evs = []) : ofDomain roomID domain evs = [] := by
  rw [ofDomain, h, filter_nil]

theorem recorded_empty : Recorded roomID .empty [] where
  domains h := absurd rfl h
  fresh _ := rfl
  below _ _ _ h := absurd h (by simp [ofDomain, ofRoom])

theorem update_last (h : ev.roomID = roomID) :
    update (fun d => (ofDomain roomID d evs).getLast?.map (·.domainOffset)) ev.domain
        (some ev.domainOffset) =
      fun d => (ofDomain roomID d (evs ++ [ev])).getLast?.map (·.domainOffset) := by
  funext d
  by_cases hd : d = ev.domain
  · rw [hd, update_self, ofDomain_concat_self h]
    simp
  · rw [update_of_ne hd, ofDomain_concat_of_ne h hd]

section
variable (h : Recorded roomID p evs)
include h

theorem Recorded.other (hne : ev.roomID ≠ roomID) :
    Recorded roomID (p.onNewRoomEvent db ev) (evs ++ [ev]) := by
  obtain ⟨hmin, hmax⟩ := Positions.onNewRoomEvent_of_ne hne
  have hdom : ∀ d, ofDomain roomID d (evs ++ [ev]) = ofDomain roomID d evs := fun d => by
    rw [ofDomain, ofDomain, ofRoom_concat_of_ne hne]
  constructor
  · rw [ofRoom_concat_of_ne hne, hmax]
    simpa only [hdom] using h.domains
  · rw [ofRoom_concat_of_ne hne, hmax]
    exact h.fresh
  · simpa only [hdom, hmin] using h.below

theorem Recorded.first (heq : ev.roomID = roomID) (hnil : ofRoom roomID evs = [])
    (hty : ev.type = "m.room.create") : Recorded roomID (p.onNewRoomEvent db ev) (evs ++ [ev]) := by
  obtain ⟨-, hmax⟩ := Positions.onNewRoomEvent_create hty
  have hempty : (fun _ => none : String → Option Int) =
      fun d => (ofDomain roomID d evs).getLast?.map (·.domainOffset) := by
    funext d
    rw [ofDomain_of_ofRoom_nil hnil]
    rfl
  constructor
  · intro _
    rw [← heq, hmax, heq, h.fresh hnil, Option.getD_none, hempty, update_last heq]
  · simp [ofRoom_concat_self heq]
  · intro d a b hab
    have hroom : ofRoom roomID (evs ++ [ev]) = [ev] := by rw [ofRoom_concat_self heq, hnil]; rfl
    have hlen : (ofDomain roomID d (evs ++ [ev])).length ≤ 1 := by
      rw [ofDomain, hroom]
      exact length_filter_le _ _
    exact absurd (hab.length_le.trans hlen) (by simp)

theorem Recorded.later (heq : ev.roomID = roomID) (hne : ofRoom roomID evs ≠ [])
    (hty : ev.type ≠ "m.room.create")
    (hoff : ∀ e ∈ ofRoom roomID evs, e.eventOffset < ev.eventOffset)
    (hpos : ∀ e ∈ ofRoom roomID evs, 0 ≤ e.domainOffset) :
    Recorded roomID (p.onNewRoomEvent db ev) (evs ++ [ev]) := by
  have hdoms := h.domains hne
  obtain ⟨hmin, hmax⟩ :=
    Positions.onNewRoomEvent_eq hty (heq ▸ hdoms : p.domainMaxOffset ev.roomID = _)
  have hmem : ∀ {d e}, e ∈ ofDomain roomID d evs → e ∈ ofRoom roomID evs :=
    fun he => mem_of_mem_filter he
  -- a minimum that moves is above everything before it
  have hraise : ∀ a ∈ ofRoom roomID evs,
      (∃ m, p.roomMinStream roomID = some m ∧ a.eventOffset < m) →
      ∃ m, (p.onNewRoomEvent db ev).roomMinStream roomID = some m ∧ a.eventOffset < m := by
    rintro a ha ⟨m, hm, hlt⟩
    rw [← heq, hmin]
    split
    · exact ⟨_, rfl, hoff a ha⟩
    · exact ⟨m, heq ▸ hm, hlt⟩
  constructor
  · intro _
    rw [← heq, hmax, heq, update_last heq]
  · simp [ofRoom_concat_self heq]
  · intro d a b hab hgap
    by_cases hd : d = ev.domain
    · subst hd
      rw [ofDomain_concat_self heq] at hab
      rcases pair_infix_concat hab with hold | ⟨hlast, rfl⟩
      · exact hraise a (hmem (hold.subset (by simp))) (h.below _ a b hold hgap)
      · have ha := hmem (mem_of_getLast? hlast)
        have hrec : (((ofDomain roomID b.domain evs).getLast?.map (·.domainOffset)).getD (-1)) =
            a.domainOffset := by rw [hlast]; rfl
        refine ⟨b.eventOffset, ?_, hoff a ha⟩
        rw [← heq, hmin, heq, if_pos]
        have := hpos a ha
        omega
    · rw [ofDomain_concat_of_ne heq hd] at hab
      exact hraise a (hmem (hab.subset (by simp))) (h.below d a b hab hgap)

theorem Recorded.step (hs : LiveStream roomID (evs ++ [ev])) :
    Recorded roomID (p.onNewRoomEvent db ev) (evs ++ [ev]) := by
  by_cases heq : ev.roomID = roomID
  · obtain ⟨hcreated, honce, hinc, hpos⟩ := hs
    rw [ofRoom_concat_self heq] at hcreated honce hinc hpos
    by_cases hnil : ofRoom roomID evs = []
    · exact h.first heq hnil (hcreated ev (by simp [hnil]))
    · refine h.later heq hnil (honce ev ?_) (fun e he => ?_)
        fun e he => hpos e (mem_append_left _ he)
      · rw [tail_append_of_ne_nil hnil]
        simp
      · exact (pairwise_append.mp hinc).2.2 e he ev (by simp)
  · exact h.other heq

end

theorem recorded_handle (hs : LiveStream roomID evs) :
    Recorded roomID (Positions.empty.handle db evs) evs := by
  induction evs using reverseRecOn with
  | nil => exact recorded_empty
  | append_singleton evs ev ih =>
    have h := ih hs.of_append
    rw [Positions.handle, foldl_append]
    exact h.step hs

/-- **No gap at or above the minimum**: after each live event, two neighbours among the events of a
domain are numbered one after the other if the older one is at or above the minimum of the room. -/
theorem no_gap_above_minStream {all : List LiveEvent} (hs : LiveStream roomID all) (n : ℕ)
    (hab : [a, b] <:+: ofDomain roomID domain (all.take n))
    (ha : ((Positions.empty.handle db (all.take n)).getRoomMinStream db roomID).1 ≤ a.eventOffset) :
    b.domainOffset = a.domainOffset + 1 := by
  have hs' : LiveStream roomID (all.take n) := by
    rw [← take_append_drop n all] at hs
    exact hs.of_append
  by_contra hgap
  obtain ⟨m, hm, hlt⟩ := (recorded_handle hs').below domain a b hab hgap
  rw [Positions.getRoomMinStream, hm] at ha
  exact absurd ha (by simpa using hlt)

def annWrites (eventOffset domainOffset : Int) : LiveEvent :=
  ⟨"!r", "@ann:x", "m.room.message", eventOffset, domainOffset⟩

/-- Events of two servers; one of the first server is missing before the fourth event. -/
def twoServers : List LiveEvent :=
  [⟨"!r", "@ann:x", "m.room.create", 1, 0⟩, ⟨"!r", "@ann:x", "m.room.member", 2, 1⟩,
    ⟨"!r", "@bob:y", "m.room.member", 3, 7⟩, annWrites 4 3, annWrites 5 4]

def noRows : Persist := ⟨fun _ => some (-1), fun _ => some []⟩

theorem no_gap_above_minStream_twoServers :
    LiveStream "!r" twoServers ∧
      ((Positions.empty.handle noRows twoServers).getRoomMinStream noRows "!r").1 = 4 ∧
      (annWrites 5 4).domainOffset = (annWrites 4 3).domainOffset + 1 := by
  have hs : LiveStream "!r" twoServers := ⟨by decide, by decide, by decide, by decide⟩
  have hab : [annWrites 4 3, annWrites 5 4] <:+: ofDomain "!r" "x" (twoServers.take 5) := by decide
  have hmin : ((Positions.empty.handle noRows (twoServers.take 5)).getRoomMinStream noRows "!r").1 ≤
      4 := by decide
  exact ⟨hs, by decide, no_gap_above_minStream hs 5 hab hmin⟩

end Ligase.Feed

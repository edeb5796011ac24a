import Ligase.Lib.Run
import Ligase.Lib.Text

/-!
# Backfilling a room

`Process` starts a goroutine for each of the other servers that have users in the room, which
fetches the events of the room from that server page by page, and writes the record of the backfill.
The goroutines say in a channel that they have ended or that they fail; the channel is not read.

* **`finished_after_fetches_iff`**: of which jobs the record is marked only after every fetch loop.
-/

namespace Ligase.FedBackfill

open Lib List

/-! ## Jobs -/

structure Event where
  eventID : String
  eventNID : Int
  sender : String
  depth : Int

structure BackfillJobFinishItem where
  eventID : String
  startEventID : String
  startOffset : Int
  finished : Bool

structure Job where
  serverName : List String
  pdus : List Event
  finishedDomains : List (String × BackfillJobFinishItem)

namespace Job

variable (job : Job)

def entry (domain : String) : BackfillJobFinishItem :=
  (job.finishedDomains.lookup domain).getD ⟨"", "", 0, job.serverName.contains domain⟩

def idMap : List (String × BackfillJobFinishItem) :=
  job.pdus.foldl (fun m ev =>
    let domain := domainFromID ev.sender
    if (m.lookup domain).isSome then m else m ++ [(domain, job.entry domain)]) []

def fetches (p : String × BackfillJobFinishItem) : Bool :=
  !p.2.finished && !job.serverName.contains p.1

def toFetch : List String := (job.idMap.filter job.fetches).map Prod.fst

/-- The events that the job came with. -/
def isState (ev : Event) : Bool := job.pdus.any (·.eventID = ev.eventID)

end Job

/-! ## State -/

structure BackfillItem where
  domain : String
  done : Bool
  err : Bool

/-- A goroutine is not there, has been started, is in its loop, or its loop has ended. -/
inductive Fetch where
  | idle
  | started (eventID : String)
  | fetching (eventID : String) (failedTimes : Nat)
  | ended

def respChSize : Nat := 1000

structure State where
  /-- the domains that the loop of `Process` has not reached yet -/
  pending : List (String × BackfillJobFinishItem)
  /-- has `Process` returned? -/
  returned : Bool
  fetch : String → Fetch
  respCh : List BackfillItem
  /-- is the record marked in the database, and in the cache? -/
  db : Bool
  cache : Bool
  submitted : List Event

/-- A record that is not finished. The order is the one in which the map is iterated. -/
def State.init (order : List (String × BackfillJobFinishItem)) : State where
  pending := order
  returned := false
  fetch := fun _ => .idle
  respCh := []
  db := false
  cache := false
  submitted := []

def State.Marked (s : State) : Prop := s.db = true ∨ s.cache = true

/-! ## Steps -/

inductive Act where
  /-- the loop of `Process` goes to the next domain -/
  | next
  /-- the record is written -/
  | update (dbOk cacheOk : Bool)
  /-- a goroutine looks up its domain -/
  | connect (domain : String) (known : Bool)
  /-- a goroutine gets an error, or a page in the order in which it sorts it -/
  | answer (domain : String) (resp : Option (List Event))

namespace State

variable (s : State)

def setFetch (domain : String) (f : Fetch) : State :=
  { s with fetch := Function.update s.fetch domain f }

def send (item : BackfillItem) : Option State :=
  if s.respCh.length < respChSize then some { s with respCh := s.respCh ++ [item] } else none

/-- An error: the first one is told, and the request is made again. -/
def failed (domain eventID : String) (failedTimes : Nat) : Option State :=
  if failedTimes = 0 then
    (s.send ⟨domain, false, true⟩).map (·.setFetch domain (.fetching eventID (failedTimes + 1)))
  else some (s.setFetch domain (.fetching eventID (failedTimes + 1)))

def finish (domain : String) : Option State :=
  (s.send ⟨domain, true, false⟩).map (·.setFetch domain .ended)

/-- A page: the events are submitted, unless it ends where the last one ended. -/
def page (job : Job) (domain eventID : String) (pdus : List Event) (last : Event) : State :=
  if last.eventID = "" ∨ last.eventID = eventID then s.setFetch domain .ended
  else
    let pdus := (pdus.filter (!job.isState ·)).map fun ev => { ev with depth := -1 }
    { s with submitted := s.submitted ++ pdus }.setFetch domain (.fetching last.eventID 0)

end State

/-- One step of `Process` or of a goroutine. Without an event to take the room from `Process` panics
and the record is not written. -/
def step (job : Job) (s : State) : Act → Option State
  | .next =>
    match s.pending with
    | p :: pending =>
      let s := { s with pending := pending }
      some (if job.fetches p then s.setFetch p.1 (.started p.2.eventID) else s)
    | [] => none
  | .update dbOk cacheOk =>
    if job.pdus ≠ [] ∧ s.pending = [] ∧ s.returned = false then
      some { s with
        returned := true
        db := s.db || dbOk
        cache := s.cache || dbOk && cacheOk }
    else none
  | .connect domain known =>
    match s.fetch domain with
    | .started eventID =>
      if known then some (s.setFetch domain (.fetching eventID 0)) else s.finish domain
    | _ => none
  | .answer domain resp =>
    match s.fetch domain with
    | .fetching eventID failedTimes =>
      match resp with
      | none => s.failed domain eventID failedTimes
      | some pdus =>
        if pdus.Pairwise (fun a b => a.eventNID ≥ b.eventNID) then
          match pdus.getLast? with
          | none => s.finish domain
          | some last => some (s.page job domain eventID pdus last)
        else none
    | _ => none

/-! ## The record -/

def AllEnded (job : Job) (s : State) : Prop := ∀ domain ∈ job.toFetch, s.fetch domain = .ended

variable {job : Job} {s : State}

variable {t : State} {domain : String}

theorem run_next (job : Job) {order : List (String × BackfillJobFinishItem)}
    (hp : s.pending = order) :
    ∃ t, run (step job) s (replicate order.length .next) = some t ∧ t.pending = [] ∧
      t.returned = s.returned ∧
      ∀ domain, ((∃ p ∈ order, p.1 = domain ∧ job.fetches p = true) ∨
        ∃ eventID, s.fetch domain = .started eventID) →
          ∃ eventID, t.fetch domain = .started eventID := by
  induction order generalizing s with
  | nil =>
    refine ⟨s, rfl, hp, rfl, fun domain h => ?_⟩
    rcases h with ⟨p, hp, -⟩ | h
    · exact absurd hp not_mem_nil
    · exact h
  | cons p order ih =>
    -- the state after the first domain
    obtain ⟨u, hu, hpend, hret, hfetch⟩ : ∃ u, step job s .next = some u ∧ u.pending = order ∧
        u.returned = s.returned ∧ ∀ domain, ((p.1 = domain ∧ job.fetches p = true) ∨
          ∃ eventID, s.fetch domain = .started eventID) →
            ∃ eventID, u.fetch domain = .started eventID := by
      simp only [step, hp]
      refine ⟨_, rfl, ?_, ?_, fun domain h => ?_⟩
      · split_ifs <;> rfl
      · split_ifs <;> rfl
      · split_ifs with hf
        · by_cases hd : domain = p.1
          · subst hd
            exact ⟨_, Function.update_self _ _ _⟩
          · obtain ⟨he, -⟩ | h := h
            · exact absurd he.symm hd
            · obtain ⟨eventID, he⟩ := h
              exact ⟨eventID, (Function.update_of_ne hd _ _).trans he⟩
        · exact h.resolve_left fun h => hf h.2
    obtain ⟨t, ht, htp, htr, htf⟩ := ih hpend
    refine ⟨t, ?_, htp, htr.trans hret, fun domain h => htf domain ?_⟩
    · exact run_cons_eq_some.mpr ⟨u, hu, ht⟩
    · rcases h with ⟨q, hq, hd, hf⟩ | h
      · rcases mem_cons.mp hq with rfl | hq
        · exact .inr (hfetch domain (.inl ⟨hd, hf⟩))
        · exact .inl ⟨q, hq, hd, hf⟩
      · exact .inr (hfetch domain (.inr h))

theorem update_waits_for_nothing (hpdus : job.pdus ≠ []) (hp : s.pending = [])
    (hr : s.returned = false) :
    ∃ t, step job s (.update true true) = some t ∧ t.Marked ∧ t.fetch = s.fetch := by
  simp only [step]
  rw [if_pos ⟨hpdus, hp, hr⟩]
  exact ⟨_, rfl, .inl (by simp), rfl⟩

/-- **A record is marked only after every fetch loop has ended**, in every interleaving, if and only
if there is no domain to be fetched from. -/
theorem finished_after_fetches_iff {order : List (String × BackfillJobFinishItem)}
    (hperm : order.Perm job.idMap) :
    (∀ acts s, run (step job) (.init order) acts = some s → s.Marked → AllEnded job s) ↔
      job.toFetch = [] := by
  refine ⟨fun h => ?_, fun h acts s _ _ domain hd => ?_⟩
  · by_contra hne
    obtain ⟨domain, hd⟩ := exists_mem_of_ne_nil _ hne
    obtain ⟨p, hp, hpd⟩ := mem_map.mp hd
    obtain ⟨hmem, hfetches⟩ := mem_filter.mp hp
    have hpdus : job.pdus ≠ [] := fun he => by simp [Job.idMap, he] at hmem
    obtain ⟨t, ht, hpend, hret, hfetch⟩ := run_next job (s := .init order) rfl
    obtain ⟨u, hu, hmarked, hsame⟩ := update_waits_for_nothing hpdus hpend hret
    obtain ⟨eventID, hstarted⟩ :=
      hfetch domain (.inl ⟨p, hperm.mem_iff.mpr hmem, hpd, hfetches⟩)
    have hrun : run (step job) (.init order)
        (replicate order.length .next ++ [.update true true]) = some u :=
      run_append_eq_some.mpr ⟨t, ht, run_cons_eq_some.mpr ⟨u, hu, rfl⟩⟩
    have hended := h _ u hrun hmarked domain hd
    rw [hsame, hstarted] at hended
    cases hended
  · rw [h] at hd
    exact absurd hd not_mem_nil

/-- Of three servers one is this one, and the others are finished. -/
def finishedJob : Job where
  serverName := ["x"]
  pdus := [⟨"$1:x", 1, "@a:x", 0⟩, ⟨"$2:y", 2, "@b:y", 0⟩, ⟨"$3:z", 3, "@c:z", 0⟩]
  finishedDomains := [("y", ⟨"$2:y", "$2:y", 2, true⟩), ("z", ⟨"$3:z", "$3:z", 3, true⟩)]

theorem finished_after_fetches_three : finishedJob.toFetch = [] ∧ ∀ acts s,
    run (step finishedJob) (.init finishedJob.idMap.reverse) acts = some s → s.Marked →
      AllEnded finishedJob s :=
  ⟨by decide, (finished_after_fetches_iff (reverse_perm _)).mpr (by decide)⟩

/-! ## A room with another server -/

/-- The room was made by Alice of this server; Bob of the server `y` is in it. -/
def bobsJob : Job where
  serverName := ["x"]
  pdus := [⟨"$1:x", 1, "@a:x", 0⟩, ⟨"$2:y", 2, "@b:y", 0⟩]
  finishedDomains := []

theorem marked_before_fetch :
    ∃ s, run (step bobsJob) (.init bobsJob.idMap) [.next, .next, .update true true] = some s ∧
      s.Marked ∧ s.fetch "y" = .started "" ∧ s.submitted = [] :=
  ⟨_, rfl, .inl rfl, rfl, rfl⟩

end Ligase.FedBackfill

import Ligase.Lib.Run

/-!
# Locks in the cache

A lock is a key of the cache whose value is a random token, set with an expiry time if the key is
not there. `UnLock` compares the value with its token and then deletes the key, with two commands.

* **`deletes_own_lock`**: which runs release locks only by their holder.
-/

namespace Ligase.Cache

open Lib Function

structure Redis where
  value : Option String
  tokens : List String

/-- Where a call stands: `Lock` has made `retry` attempts, or has returned; `UnLock` is about to
read the key, or to delete it. -/
inductive Call where
  | idle
  | locking (token : String) (wait : Int) (retry : Nat)
  | locked (token : String)
  | unlocking (token : String)
  | deleting (token : String)
  | returned

inductive Act where
  | lock (token : String) (wait : Int)
  | set (executed answered : Bool)
  | giveUp
  | unlock (token : String) (force : Bool)
  | get (answered : Bool)
  | del (executed : Bool)
  | expire

def Redis.setNX (r : Redis) (token : String) : Redis :=
  match r.value with
  | none => { r with value := some token }
  | some _ => r

/-- May `Lock` make another attempt? Without waiting it makes one. -/
def mayTry (wait : Int) (retry : Nat) : Bool := 0 ≤ wait || retry = 0

/-- May `Lock` return an error? With no time limit it does not. -/
def mayGiveUp (wait : Int) (retry : Nat) : Bool := 0 < wait || wait < 0 && 0 < retry

def callStep (r : Redis) (c : Call) : Act → Option (Redis × Call)
  | .lock token wait =>
    match c with
    | .idle =>
      if token ∈ r.tokens then none
      else some ({ r with tokens := token :: r.tokens }, .locking token wait 0)
    | _ => none
  | .set executed answered =>
    match c with
    | .locking token wait retry =>
      if mayTry wait retry then
        let r' := if executed then r.setNX token else r
        some (r', if executed && answered && r.value.isNone then .locked token
          else .locking token wait (retry + 1))
      else none
    | _ => none
  | .giveUp =>
    match c with
    | .locking _ wait retry => if mayGiveUp wait retry then some (r, .returned) else none
    | _ => none
  | .unlock token force =>
    match c with
    | .idle => some (r, if force then .deleting token else .unlocking token)
    | _ => none
  | .get answered =>
    match c with
    | .unlocking token =>
      some (r, if answered && r.value = some token then .deleting token else .returned)
    | _ => none
  | .del executed =>
    match c with
    | .deleting _ => some (if executed then { r with value := none } else r, .returned)
    | _ => none
  | .expire => some ({ r with value := none }, c)

abbrev State := Procs Nat Redis Call

def State.init : State := ⟨⟨none, []⟩, fun _ => .idle⟩

def step : State → Nat × Act → Option State := procsStep callStep

def Deleting (s : State) (i : Nat) (token : String) : Prop := s.proc i = .deleting token

/-- No `UnLock` is forced, and no lock is taken while one is about to delete the key. -/
def Apart (s : State) (a : Nat × Act) : Prop :=
  match a.2 with
  | .unlock _ force => force = false
  | .set true _ => s.store.value = none → ∀ i token, ¬ Deleting s i token
  | _ => True

def Owned (s : State) : Prop :=
  ∀ i token, Deleting s i token → s.store.value = none ∨ s.store.value = some token

variable {s t : State}

/-- The commands of a call: the value stays, or it goes, or the key is set by a `Lock`. A call is
about to delete the key if it was so before, is forced, or has read its token. -/
theorem callStep_cases {r r' : Redis} {c c' : Call} {a : Act}
    (h : callStep r c a = some (r', c')) :
    (r'.value = r.value ∨ r'.value = none ∨ r.value = none ∧ ∃ answered, a = .set true answered) ∧
      ∀ token, c' = .deleting token → c = .deleting token ∨ (∃ t, a = .unlock t true) ∨
        r'.value = some token := by
  cases a with
  | lock token wait | giveUp =>
    simp only [callStep] at h
    split at h
    · split_ifs at h
      cases h
      exact ⟨.inl rfl, fun _ he => by cases he⟩
    · cases h
  | set executed answered =>
    simp only [callStep] at h
    split at h
    · rename_i token wait retry
      by_cases htry : mayTry wait retry = true
      · rw [if_pos htry] at h
        obtain ⟨rfl, rfl⟩ := Prod.mk.inj (Option.some.inj h)
        refine ⟨?_, fun _ he => by split_ifs at he⟩
        cases executed with
        | false => exact .inl rfl
        | true =>
          cases hv : r.value with
          | none => exact .inr (.inr ⟨rfl, answered, rfl⟩)
          | some v => exact .inl (by simp [Redis.setNX, hv])
      · rw [if_neg htry] at h
        cases h
    · cases h
  | unlock token force =>
    simp only [callStep] at h
    split at h
    · cases h
      refine ⟨.inl rfl, fun _ he => .inr (.inl ?_)⟩
      cases force with
      | false => simp at he
      | true => exact ⟨token, rfl⟩
    · cases h
  | get answered =>
    simp only [callStep] at h
    split at h
    · cases h
      refine ⟨.inl rfl, fun token he => .inr (.inr ?_)⟩
      split_ifs at he with hv
      obtain rfl := Call.deleting.inj he
      simp only [Bool.and_eq_true, decide_eq_true_eq] at hv
      exact hv.2
    · cases h
  | del executed =>
    simp only [callStep] at h
    split at h
    · cases h
      refine ⟨?_, fun _ he => by cases he⟩
      split_ifs
      · exact .inr (.inl rfl)
      · exact .inl rfl
    · cases h
  | expire =>
    cases h
    exact ⟨.inr (.inl rfl), fun _ he => .inl he⟩

theorem Owned.step {a : Nat × Act} (h : Owned s) (hC : Apart s a) (ht : step s a = some t) :
    Owned t := by
  obtain ⟨i, a⟩ := a
  obtain ⟨hstep, hother⟩ := procsStep_eq_some ht
  obtain ⟨hvalue, hdel⟩ := callStep_cases hstep
  -- who is about to delete the key after the command was so before, or has read its token
  have hbefore : ∀ j token, Deleting t j token →
      Deleting s j token ∨ t.store.value = some token := by
    intro j token hj
    by_cases hji : j = i
    · subst hji
      rcases hdel token hj with hj | ⟨tok, rfl⟩ | hv
      · exact .inl hj
      · exact absurd hC (by simp [Apart])
      · exact .inr hv
    · exact .inl ((hother j hji).symm.trans hj)
  intro j token hj
  rcases hbefore j token hj with hs | hv
  · rcases hvalue with hv | hv | ⟨hv, answered, rfl⟩
    · rw [hv]
      exact h j token hs
    · exact .inl hv
    · exact absurd hs (hC hv j token)
  · exact .inr hv

/-- **Locks are released only by their holder** in the runs without a forced release in which no
lock is taken between the two commands of an `UnLock`. One that is taken there is deleted if the
second command comes next. -/
theorem deletes_own_lock {acts : List (Nat × Act)} (hr : run step .init acts = some s) :
    (RunMeets step Apart .init acts → ∀ i token, Deleting s i token →
      step s (i, .del true) = some t → s.store.value = none ∨ s.store.value = some token) ∧
    ∀ i j token other wait retry, Deleting s i token → s.proc j = .locking other wait retry →
      other ≠ token → s.store.value = none → mayTry wait retry = true →
      ∃ u v, step s (j, .set true true) = some u ∧ u.store.value = some other ∧
        step u (i, .del true) = some v ∧ v.store.value = none := by
  refine ⟨fun hm i token hi _ => ?_, fun i j token other wait retry hi hj hne hv htry => ?_⟩
  · have hinit : Owned .init := fun i token h => by simp [Deleting, State.init] at h
    exact run_invariant Owned.step hinit hm hr i token hi
  · have hij : i ≠ j := by
      rintro rfl
      rw [Deleting, hj] at hi
      cases hi
    refine ⟨⟨{ s.store with value := some other }, update s.proc j (.locked other)⟩,
      ⟨{ s.store with value := none },
        update (update s.proc j (.locked other)) i .returned⟩, ?_, rfl, ?_, rfl⟩
    · simp [step, procsStep, callStep, hj, htry, Redis.setNX, hv]
    · have hi' : update s.proc j (.locked other) i = .deleting token := by
        rw [update_of_ne hij]
        exact hi
      simp [step, procsStep, callStep, hi']

/-! ## Two calls -/

def aboutToRelease : List (Nat × Act) :=
  [(0, .lock "a" 0), (0, .set true true), (1, .unlock "a" false), (1, .get true)]

def held : State := (run step .init aboutToRelease).getD .init

theorem deletes_own_lock_alone :
    Deleting held 1 "a" ∧ (held.store.value = none ∨ held.store.value = some "a") := by
  have hm : RunMeets step Apart .init aboutToRelease := by
    refine ⟨trivial, fun _ i token h => ?_, rfl, trivial, trivial⟩
    by_cases hi : i = 0
    · subst hi
      cases h
    · have hidle : update State.init.proc 0 (.locking "a" 0 0) i = .idle :=
        update_of_ne hi _ _
      exact absurd (hidle.symm.trans h) (by simp)
  have hr : run step .init aboutToRelease = some held := rfl
  exact ⟨rfl, (deletes_own_lock hr).1 hm 1 "a" rfl rfl⟩

/-- The lock expires after the holder has read its token; another call takes it, and the first one
deletes it. -/
theorem foreign_lock_deleted : ∃ s, run step .init (aboutToRelease ++
      [(0, .expire), (2, .lock "b" 0), (2, .set true true)]) = some s ∧ Deleting s 1 "a" ∧
    s.proc 2 = .locked "b" ∧ s.store.value = some "b" ∧
    (step s (1, .del true)).map (·.store.value) = some none :=
  ⟨_, rfl, rfl, rfl, rfl, rfl⟩

end Ligase.Cache

import Mathlib.Logic.Function.Basic
import Mathlib.Tactic.Common

/-!
# Runs

A system is a partial step function `step : σ → α → Option σ` over states and labels; a run takes a
list of labels.

* **`run_invariant`**: what the steps preserve where a condition holds is preserved by the runs all
  of whose steps meet the condition.
* `run_isSome`: runs that can be taken.
* `Procs`, `procsStep`: processes that take turns on a shared store.
* `bind_eq_ok`: taking apart a computation that did not fail.
-/

namespace Ligase.Lib

open Option List

/-! ## Runs of a step function -/

section
variable {σ α : Type*} (step : σ → α → Option σ)

def run : σ → List α → Option σ
  | s, [] => some s
  | s, a :: as => (step s a).bind fun t => run t as

/-- Every step of the run from `s` is taken where `C` holds. -/
def RunMeets (C : σ → α → Prop) : σ → List α → Prop
  | _, [] => True
  | s, a :: as =>
    C s a ∧
      match step s a with
      | some t => RunMeets C t as
      | none => True

instance RunMeets.decidable {C : σ → α → Prop} [∀ s a, Decidable (C s a)] :
    ∀ (s : σ) (as : List α), Decidable (RunMeets step C s as)
  | _, [] => .isTrue trivial
  | s, a :: as =>
    have : Decidable (match step s a with | some t => RunMeets step C t as | none => True) :=
      match step s a with
      | some t => RunMeets.decidable t as
      | none => .isTrue trivial
    inferInstanceAs (Decidable (C s a ∧ match step s a with
      | some t => RunMeets step C t as | none => True))

variable {step}

variable {C : σ → α → Prop} {s t : σ} {as : List α} {I : σ → Prop}

theorem RunMeets.tail {a : α}
    (h : RunMeets step C s (a :: as)) (ht : step s a = some t) : RunMeets step C t as := by
  have h2 := h.2
  rwa [ht] at h2

theorem run_cons_eq_some {u : σ} {a : α} :
    run step s (a :: as) = some u ↔ ∃ t, step s a = some t ∧ run step t as = some u := by
  simp [run, bind_eq_some_iff]

theorem run_append_eq_some {u : σ} {bs : List α} :
    run step s (as ++ bs) = some u ↔ ∃ t, run step s as = some t ∧ run step t bs = some u := by
  induction as generalizing s with
  | nil => simp [run]
  | cons a as ih =>
    simp only [cons_append, run_cons_eq_some, ih]
    constructor
    · rintro ⟨t, ht, v, hv, hu⟩
      exact ⟨v, ⟨t, ht, hv⟩, hu⟩
    · rintro ⟨v, ⟨t, ht, hv⟩, hu⟩
      exact ⟨t, ht, v, hv, hu⟩

theorem RunMeets.append {bs : List α} (h : RunMeets step C s (as ++ bs)) :
    RunMeets step C s as ∧ ∀ t, run step s as = some t → RunMeets step C t bs := by
  induction as generalizing s with
  | nil => exact ⟨trivial, fun t ht => some.inj ht ▸ h⟩
  | cons a as ih =>
    refine ⟨⟨h.1, ?_⟩, fun t ht => ?_⟩
    · cases hu : step s a with
      | none => trivial
      | some u => exact (ih (h.tail hu)).1
    · obtain ⟨u, hu, ht⟩ := run_cons_eq_some.mp ht
      exact (ih (h.tail hu)).2 t ht

theorem RunMeets.and_mem {D : α → Prop} (h : RunMeets step C s as) (hD : ∀ a ∈ as, D a) :
    RunMeets step (fun s a => C s a ∧ D a) s as := by
  induction as generalizing s with
  | nil => trivial
  | cons a as ih =>
    refine ⟨⟨h.1, hD a mem_cons_self⟩, ?_⟩
    cases hu : step s a with
    | none => trivial
    | some u => exact ih (h.tail hu) fun b hb => hD b (mem_cons_of_mem _ hb)

theorem run_invariant (hstep : ∀ {s a t}, I s → C s a → step s a = some t → I t) (hs : I s)
    (hm : RunMeets step C s as) (h : run step s as = some t) : I t := by
  induction as generalizing s with
  | nil =>
    obtain rfl := some.inj h
    exact hs
  | cons a as ih =>
    obtain ⟨u, hu, ht⟩ := run_cons_eq_some.mp h
    exact ih (hstep hs hm.1 hu) (hm.tail hu) ht

theorem run_preserves (hstep : ∀ {s a t}, I s → step s a = some t → I t) (hs : I s)
    (h : run step s as = some t) : I t := by
  induction as generalizing s with
  | nil =>
    obtain rfl := some.inj h
    exact hs
  | cons a as ih =>
    obtain ⟨u, hu, ht⟩ := run_cons_eq_some.mp h
    exact ih (hstep hs hu) ht

theorem runMeets_congr {D : σ → α → Prop} (hCD : ∀ {s a t}, step s a = some t → (C s a ↔ D s a))
    (h : run step s as = some t) : RunMeets step C s as ↔ RunMeets step D s as := by
  induction as generalizing s with
  | nil => exact Iff.rfl
  | cons a as ih =>
    obtain ⟨u, hu, ht⟩ := run_cons_eq_some.mp h
    simp only [RunMeets, hu]
    rw [hCD hu, ih ht]

theorem run_isSome {D : α → Prop} (hstep : ∀ {s a}, I s → D a → ∃ t ∈ step s a, I t)
    (hs : I s) (has : ∀ a ∈ as, D a) : (run step s as).isSome := by
  induction as generalizing s with
  | nil => rfl
  | cons a as ih =>
    obtain ⟨t, ht, hI⟩ := hstep hs (has a mem_cons_self)
    rw [run, mem_def.mp ht]
    exact ih hI fun b hb => has b (mem_cons_of_mem _ hb)

end

/-! ## Processes on a shared store -/

section
variable {ι σ π α : Type*} [DecidableEq ι]

structure Procs (ι σ π : Type*) where
  store : σ
  proc : ι → π

def procsStep (step : σ → π → α → Option (σ × π)) (s : Procs ι σ π) (a : ι × α) :
    Option (Procs ι σ π) :=
  (step s.store (s.proc a.1) a.2).map fun r => ⟨r.1, Function.update s.proc a.1 r.2⟩

theorem procsStep_eq_some {step : σ → π → α → Option (σ × π)} {s t : Procs ι σ π} {i : ι} {a : α}
    (h : procsStep step s (i, a) = some t) :
    step s.store (s.proc i) a = some (t.store, t.proc i) ∧ ∀ j ≠ i, t.proc j = s.proc j := by
  obtain ⟨⟨st, p⟩, hr, rfl⟩ := map_eq_some_iff.mp h
  refine ⟨?_, fun j hj => Function.update_of_ne hj _ _⟩
  simpa using hr

end

/-! ## Computations that may fail -/

section
variable {ε ε' α β : Type}

theorem bind_eq_ok {x : Except ε α} {f : α → Except ε β} {b : β} :
    (x >>= f) = .ok b ↔ ∃ a, x = .ok a ∧ f a = .ok b := by
  cases x with
  | error e => exact ⟨nofun, fun ⟨_, h, _⟩ => nomatch h⟩
  | ok a => exact ⟨fun h => ⟨a, rfl, h⟩, fun ⟨_, h, h'⟩ => Except.ok.inj h ▸ h'⟩

theorem forM_eq_ok {f : α → Except ε Unit} {l : List α} :
    l.forM f = .ok () ↔ ∀ a ∈ l, f a = .ok () := by
  induction l with
  | nil => exact ⟨fun _ => nofun, fun _ => rfl⟩
  | cons a l ih =>
    show (f a >>= fun _ => l.forM f) = .ok () ↔ _
    rw [bind_eq_ok]
    constructor
    · rintro ⟨_, ha, hl⟩ b hb
      rcases mem_cons.mp hb with rfl | hb
      · exact ha
      · exact ih.mp hl b hb
    · intro h
      exact ⟨_, h a mem_cons_self, ih.mpr fun b hb => h b (mem_cons_of_mem _ hb)⟩

theorem mapError_eq_ok {x : Except ε α} {f : ε → ε'} {a : α} :
    x.mapError f = .ok a ↔ x = .ok a := by
  cases x with
  | error e => exact ⟨nofun, nofun⟩
  | ok b => exact ⟨fun h => Except.ok.inj h ▸ rfl, fun h => Except.ok.inj h ▸ rfl⟩

end

end Ligase.Lib

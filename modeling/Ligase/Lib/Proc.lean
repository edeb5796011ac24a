import Mathlib.Tactic.Common

/-!
# Computations on a store that may fail

A `Proc σ ε α` reads and writes a store of type `σ` and ends with a value or an error. What it has
written before an error stays written.

* `bind_eq_ok`, `query_bind_eq_ok`, …: taking apart a computation that did not fail.
* `Ensures`: what holds of the store at the end, failed or not; one rule for each combinator.
* `Reads`, `Keeps`: what is not written; `Depends`: what is not read.
* `FailsWith`, `FailsClean`: what holds of an error; `Yields`: what holds of the value.
-/

namespace Ligase.Lib

open Option

def Proc (σ ε α : Type) : Type := σ → Except ε α × σ

namespace Proc

variable {σ ε α β : Type} {s t : σ} {b : β}

instance : Monad (Proc σ ε) where
  pure a s := (.ok a, s)
  bind x f s :=
    match x s with
    | (.ok a, t) => f a t
    | (.error e, t) => (.error e, t)

def fail (e : ε) : Proc σ ε α := fun s => (.error e, s)

def query (g : σ → α) : Proc σ ε α := fun s => (.ok (g s), s)

def require (e : ε) : Option α → Proc σ ε α
  | some a => pure a
  | none => fail e

def ofExcept (r : Except ε α) : Proc σ ε α := fun s => (r, s)

/-- Write the store, or fail and leave it. -/
def commit (e : ε) (g : σ → Option σ) : Proc σ ε Unit := fun s =>
  match g s with
  | some t => (.ok (), t)
  | none => (.error e, s)

def write (g : σ → σ) : Proc σ ε Unit := fun s => (.ok (), g s)

/-! ## Computations that do not fail -/

variable {a : α} {e : ε} {x : Proc σ ε α} {f : α → Proc σ ε β} {g : σ → Option σ} {o : Option α}

theorem pure_eq_ok {a : β} : (pure a : Proc σ ε β) s = (.ok b, t) ↔ a = b ∧ s = t := by
  show (Except.ok a, s) = (Except.ok b, t) ↔ _
  rw [Prod.mk.injEq, Except.ok.injEq]

theorem fail_ne_ok : (fail e : Proc σ ε β) s ≠ (.ok b, t) := nofun

theorem bind_eq_ok : (x >>= f) s = (.ok b, t) ↔ ∃ a u, x s = (.ok a, u) ∧ f a u = (.ok b, t) := by
  show (match x s with
    | (.ok a, t) => f a t
    | (.error e, t) => (.error e, t)) = (Except.ok b, t) ↔ _
  cases h : x s with
  | mk r u =>
    cases r with
    | ok a =>
      refine ⟨fun hf => ⟨a, u, rfl, hf⟩, ?_⟩
      rintro ⟨a', u', he, hf⟩
      cases he
      exact hf
    | error e => exact ⟨nofun, fun ⟨_, _, he, _⟩ => nomatch he⟩

theorem bind_of_ok (h : x s = (.ok a, t)) : (x >>= f) s = f a t := by
  show (match x s with
    | (.ok a, t) => f a t
    | (.error e, t) => (.error e, t)) = _
  rw [h]

theorem bind_eq_error (h : x s = (.error e, t)) : (x >>= f) s = (.error e, t) := by
  show (match x s with
    | (.ok a, t) => f a t
    | (.error e, t) => (.error e, t)) = _
  rw [h]

theorem query_bind_apply {g : σ → α} : (query g >>= f) s = f (g s) s := rfl

theorem require_bind_apply : (require e (some a) >>= f) s = f a s := rfl

theorem query_bind_eq_ok {g : σ → α} : (query g >>= f) s = (.ok b, t) ↔ f (g s) s = (.ok b, t) :=
  Iff.rfl

theorem require_bind_eq_ok :
    (require e o >>= f) s = (.ok b, t) ↔ ∃ a, o = some a ∧ f a s = (.ok b, t) := by
  cases o with
  | none => exact ⟨nofun, fun ⟨_, h, _⟩ => nomatch h⟩
  | some a => exact ⟨fun h => ⟨a, rfl, h⟩, fun ⟨_, h, hf⟩ => some.inj h ▸ hf⟩

theorem commit_eq_ok {b : Unit} : commit e g s = (.ok b, t) ↔ g s = some t := by
  unfold commit
  cases g s with
  | none => exact ⟨nofun, nofun⟩
  | some u => exact ⟨fun h => by cases h; rfl, fun h => by cases h; rfl⟩

theorem commit_bind_eq_ok {f : Unit → Proc σ ε β} :
    (commit e g >>= f) s = (.ok b, t) ↔ ∃ u, g s = some u ∧ f () u = (.ok b, t) := by
  rw [bind_eq_ok]
  simp only [commit_eq_ok]
  exact ⟨fun ⟨_, u, h⟩ => ⟨u, h⟩, fun ⟨u, h⟩ => ⟨(), u, h⟩⟩

theorem write_bind_eq_ok {g : σ → σ} {f : Unit → Proc σ ε β} :
    (write g >>= f) s = (.ok b, t) ↔ f () (g s) = (.ok b, t) :=
  Iff.rfl

theorem forM_cons_eq_ok {f : α → Proc σ ε Unit} {l : List α} {b : Unit} :
    (a :: l).forM f s = (.ok b, t) ↔ ∃ u, f a s = (.ok (), u) ∧ l.forM f u = (.ok (), t) := by
  show (f a >>= fun _ => l.forM f) s = (.ok b, t) ↔ _
  rw [bind_eq_ok]
  exact ⟨fun ⟨_, u, h⟩ => ⟨u, h⟩, fun ⟨u, h⟩ => ⟨(), u, h⟩⟩

theorem forM_singleton {f : α → Proc σ ε Unit} : [a].forM f s = f a s := by
  cases h : f a s with
  | mk r u =>
    cases r with
    | ok b => exact bind_eq_ok.mpr ⟨b, u, h, rfl⟩
    | error e => exact bind_eq_error h

/-! ## What holds at the end -/

/-- The store at the end of the computation, failed or not, satisfies `Q`. -/
def Ensures (x : Proc σ ε α) (s : σ) (Q : σ → Prop) : Prop := Q (x s).2

variable {Q : σ → Prop}

theorem ensures_query_bind {g : σ → α} : Ensures (query g >>= f) s Q ↔ Ensures (f (g s)) s Q :=
  Iff.rfl

theorem ensures_require_bind : Ensures (require e o >>= f) s Q ↔
      (o = none → Q s) ∧ ∀ a, o = some a → Ensures (f a) s Q := by
  cases o with
  | none => exact ⟨fun h => ⟨fun _ => h, nofun⟩, fun h => h.1 rfl⟩
  | some a =>
    exact ⟨fun h => ⟨nofun, fun _ he => some.inj he ▸ h⟩, fun h => h.2 a rfl⟩

theorem ensures_commit :
    Ensures (commit e g) s Q ↔ (g s = none → Q s) ∧ ∀ t, g s = some t → Q t := by
  unfold Ensures commit
  cases g s with
  | none => exact ⟨fun h => ⟨fun _ => h, nofun⟩, fun h => h.1 rfl⟩
  | some t =>
    exact ⟨fun h => ⟨nofun, fun _ he => some.inj he ▸ h⟩, fun h => h.2 t rfl⟩

theorem ensures_bind : Ensures (x >>= f) s Q ↔
      (∀ e t, x s = (.error e, t) → Q t) ∧ ∀ a t, x s = (.ok a, t) → Ensures (f a) t Q := by
  show Q (match x s with
    | (.ok a, t) => f a t
    | (.error e, t) => (.error e, t)).2 ↔ _
  cases h : x s with
  | mk r u =>
    cases r with
    | ok a =>
      refine ⟨fun hq => ⟨nofun, fun a' t ht => ?_⟩, fun hq => hq.2 a u rfl⟩
      cases ht
      exact hq
    | error e =>
      refine ⟨fun hq => ⟨fun e' t ht => ?_, nofun⟩, fun hq => hq.1 e u rfl⟩
      cases ht
      exact hq

theorem ensures_commit_bind {f : Unit → Proc σ ε β} : Ensures (commit e g >>= f) s Q ↔
      (g s = none → Q s) ∧ ∀ t, g s = some t → Ensures (f ()) t Q := by
  rw [ensures_bind]
  simp only [commit_eq_ok]
  unfold commit
  cases g s with
  | none =>
    exact ⟨fun h => ⟨fun _ => h.1 e s rfl, nofun⟩,
      fun h => ⟨fun e' t he => by cases he; exact h.1 rfl, nofun⟩⟩
  | some u => exact ⟨fun h => ⟨nofun, fun t ht => h.2 () t ht⟩, fun h => ⟨nofun, fun _ => h.2⟩⟩

theorem ensures_bind_pure {g : α → β} :
    Ensures (x >>= fun a => pure (g a)) s Q ↔ Ensures x s Q := by
  rw [ensures_bind]
  unfold Ensures
  cases h : x s with
  | mk r u =>
    cases r with
    | ok a =>
      refine ⟨fun hq => hq.2 a u rfl, fun hq => ⟨nofun, fun a' t ht => ?_⟩⟩
      cases ht
      exact hq
    | error e =>
      refine ⟨fun hq => hq.1 e u rfl, fun hq => ⟨fun e' t ht => ?_, nofun⟩⟩
      cases ht
      exact hq

/-- The computation writes nothing. -/
def Reads (x : Proc σ ε α) : Prop := ∀ s, (x s).2 = s

theorem Reads.ensures_bind_of_ok (hx : Reads x) (hs : Q s)
    (hf : ∀ a, x s = (.ok a, s) → Ensures (f a) s Q) : Ensures (x >>= f) s Q := by
  rw [ensures_bind]
  refine ⟨fun e t h => ?_, fun a t h => ?_⟩
  · obtain rfl : s = t := (hx s).symm.trans (congrArg Prod.snd h)
    exact hs
  · obtain rfl : s = t := (hx s).symm.trans (congrArg Prod.snd h)
    exact hf a h

theorem Reads.ensures_bind (hx : Reads x) (hs : Q s)
    (hf : ∀ a, Ensures (f a) s Q) : Ensures (x >>= f) s Q :=
  hx.ensures_bind_of_ok hs fun a _ => hf a

theorem reads_require : Reads (require e o : Proc σ ε α) := by
  cases o <;> exact fun _ => rfl

theorem reads_pure : Reads (pure a : Proc σ ε α) := fun _ => rfl

theorem reads_fail : Reads (fail e : Proc σ ε α) := fun _ => rfl

theorem reads_ofExcept {r : Except ε α} : Reads (ofExcept r : Proc σ ε α) := fun _ => rfl

theorem reads_query {g : σ → α} : Reads (query g : Proc σ ε α) := fun _ => rfl

theorem Reads.bind (hx : Reads x) (hf : ∀ a, Reads (f a)) : Reads (x >>= f) := by
  intro s
  show (match x s with
    | (.ok a, t) => f a t
    | (.error e, t) => (.error e, t)).2 = s
  have hs := hx s
  cases h : x s with
  | mk r u =>
    obtain rfl : u = s := by rwa [h] at hs
    cases r with
    | ok a => exact hf a u
    | error e => rfl

theorem Reads.eq {r : Except ε α} (hx : Reads x) (h : x s = (r, t)) : t = s :=
  (congrArg Prod.snd h).symm.trans (hx s)

/-! ## What is not written -/

/-- The computation leaves the part `f` of the store. -/
def Keeps {γ : Type} (f : σ → γ) (x : Proc σ ε α) : Prop := ∀ s, f (x s).2 = f s

section
variable {γ : Type} {f : σ → γ}

theorem Reads.keeps {x : Proc σ ε α} (hx : Reads x) : Keeps f x := fun s => congrArg f (hx s)

theorem keeps_pure {a : α} : Keeps f (pure a : Proc σ ε α) := fun _ => rfl

theorem keeps_write {g : σ → σ} (hg : ∀ s, f (g s) = f s) : Keeps f (write g : Proc σ ε Unit) := hg

theorem Keeps.bind {x : Proc σ ε α} {y : α → Proc σ ε β} (hx : Keeps f x)
    (hy : ∀ a, Keeps f (y a)) : Keeps f (x >>= y) := by
  intro s
  show f (match x s with
    | (.ok a, t) => y a t
    | (.error e, t) => (.error e, t)).2 = f s
  have hs := hx s
  cases h : x s with
  | mk r u =>
    rw [h] at hs
    cases r with
    | ok a => exact (hy a u).trans hs
    | error e => exact hs

theorem Keeps.eq {x : Proc σ ε α} {r : Except ε α} (hx : Keeps f x) (h : x s = (r, t)) :
    f t = f s :=
  (congrArg (fun p => f p.2) h).symm.trans (hx s)

end

/-- The outcome and the part `f` of the store at the end depend on this part only. -/
def Depends {γ : Type} (f : σ → γ) (x : Proc σ ε α) : Prop :=
  ∀ s t, f s = f t → (x s).1 = (x t).1 ∧ f (x s).2 = f (x t).2

section
variable {γ : Type} {f : σ → γ}

theorem depends_pure {a : α} : Depends f (pure a : Proc σ ε α) := fun _ _ h => ⟨rfl, h⟩

theorem depends_fail {e : ε} : Depends f (fail e : Proc σ ε α) := fun _ _ h => ⟨rfl, h⟩

theorem depends_write {g : σ → σ} (hg : ∀ s t, f s = f t → f (g s) = f (g t)) :
    Depends f (write g : Proc σ ε Unit) := fun s t h => ⟨rfl, hg s t h⟩

theorem Depends.bind {x : Proc σ ε α} {y : α → Proc σ ε β} (hx : Depends f x)
    (hy : ∀ a, Depends f (y a)) : Depends f (x >>= y) := by
  intro s t hst
  obtain ⟨hres, hf⟩ := hx s t hst
  cases hs : x s with
  | mk r u =>
    cases ht : x t with
    | mk r' v =>
      rw [hs, ht] at hres hf
      obtain rfl : r = r' := hres
      cases r with
      | ok a =>
        rw [bind_of_ok hs, bind_of_ok ht]
        exact hy a u v hf
      | error e =>
        rw [bind_eq_error hs, bind_eq_error ht]
        exact ⟨rfl, hf⟩

end

/-! ## Errors -/

theorem bind_error_iff :
    (x >>= f) s = (.error e, t) ↔
      x s = (.error e, t) ∨ ∃ a u, x s = (.ok a, u) ∧ f a u = (.error e, t) := by
  show (match x s with
    | (.ok a, t) => f a t
    | (.error e, t) => (.error e, t)) = (Except.error e, t) ↔ _
  cases h : x s with
  | mk r u =>
    cases r with
    | ok a =>
      refine ⟨fun hf => .inr ⟨a, u, rfl, hf⟩, ?_⟩
      rintro (he | ⟨a', u', he, hf⟩)
      · cases he
      · cases he
        exact hf
    | error e' =>
      refine ⟨fun he => .inl (by cases he; rfl), ?_⟩
      rintro (he | ⟨_, _, he, _⟩)
      · cases he
        rfl
      · cases he

theorem require_bind_error {e' : ε} (h : (require e o >>= f) s = (.error e', t)) :
    (o = none ∧ t = s) ∨ ∃ a, o = some a ∧ f a s = (.error e', t) := by
  cases o with
  | none =>
    cases h
    exact .inl ⟨rfl, rfl⟩
  | some a => exact .inr ⟨a, rfl, h⟩

theorem commit_bind_error {e' : ε} {f : Unit → Proc σ ε β}
    (h : (commit e g >>= f) s = (.error e', t)) :
    (g s = none ∧ t = s) ∨ ∃ u, g s = some u ∧ f () u = (.error e', t) := by
  rcases bind_error_iff.mp h with hc | ⟨_, u, hc, hf⟩
  · unfold commit at hc
    split at hc
    · cases hc
    · cases hc
      exact .inl ⟨‹_›, rfl⟩
  · exact .inr ⟨u, commit_eq_ok.mp hc, hf⟩

/-- Every error of the computation satisfies `E`. -/
def FailsWith (x : Proc σ ε α) (E : ε → Prop) : Prop := ∀ s e t, x s = (.error e, t) → E e

section
variable {E : ε → Prop}

theorem failsWith_pure {a : α} : FailsWith (pure a : Proc σ ε α) E := fun _ _ _ => nofun

theorem failsWith_write {g : σ → σ} : FailsWith (write g : Proc σ ε Unit) E := fun _ _ _ => nofun

theorem failsWith_fail {e : ε} (he : E e) : FailsWith (fail e : Proc σ ε α) E := by
  intro s e' t h
  cases h
  exact he

theorem failsWith_require {e : ε} {o : Option α} (he : E e) :
    FailsWith (require e o : Proc σ ε α) E := by
  cases o with
  | none => exact failsWith_fail he
  | some a => exact failsWith_pure

theorem FailsWith.bind {x : Proc σ ε α} {y : α → Proc σ ε β} (hx : FailsWith x E)
    (hy : ∀ a, FailsWith (y a) E) : FailsWith (x >>= y) E := by
  intro s e t h
  rcases bind_error_iff.mp h with h | ⟨a, u, -, h⟩
  · exact hx s e t h
  · exact hy a u e t h

theorem failsWith_forM {f : α → Proc σ ε Unit} {l : List α} (hf : ∀ a ∈ l, FailsWith (f a) E) :
    FailsWith (l.forM f) E := by
  induction l with
  | nil => exact failsWith_pure
  | cons a l ih =>
    exact (hf a List.mem_cons_self).bind fun _ => ih fun b hb => hf b (List.mem_cons_of_mem _ hb)

end

/-- An error leaves the store as it is. -/
def FailsClean (x : Proc σ ε α) : Prop := ∀ s e t, x s = (.error e, t) → t = s

theorem Reads.failsClean (hx : Reads x) : FailsClean x := fun _ _ _ h => hx.eq h

theorem failsClean_commit : FailsClean (commit e g) := by
  intro s e' t h
  unfold commit at h
  split at h
  · cases h
  · cases h
    rfl

theorem Reads.bind_failsClean {y : α → Proc σ ε β} (hx : Reads x)
    (hy : ∀ a, FailsClean (y a)) : FailsClean (x >>= y) := by
  intro s e t h
  rcases bind_error_iff.mp h with hxe | ⟨a, u, hxo, hye⟩
  · exact hx.eq hxe
  · exact (hy a u e t hye).trans (hx.eq hxo)

theorem FailsClean.bind_pure {g : α → β} (hx : FailsClean x) :
    FailsClean (x >>= fun a => pure (g a)) := by
  intro s e t h
  rcases bind_error_iff.mp h with hxe | ⟨a, u, -, hye⟩
  · exact hx s e t hxe
  · cases hye

/-! ## Values -/

/-- The value of a computation that does not fail satisfies `P`. -/
def Yields (x : Proc σ ε α) (P : α → Prop) : Prop := ∀ s a t, x s = (.ok a, t) → P a

variable {P : α → Prop}

theorem yields_pure (ha : P a) : Yields (pure a : Proc σ ε α) P := by
  intro s b t h
  exact (pure_eq_ok.mp h).1 ▸ ha

theorem yields_bind {Q : β → Prop} (hx : Yields x P)
    (hf : ∀ a, P a → Yields (f a) Q) : Yields (x >>= f) Q := by
  intro s b t h
  obtain ⟨a, u, ha, hb⟩ := bind_eq_ok.mp h
  exact hf a (hx s a u ha) u b t hb

theorem yields_any : Yields x fun _ => True := fun _ _ _ _ => trivial

theorem Ensures.bind (hx : Ensures x s Q) (hy : Yields x P)
    (hf : ∀ a, P a → ∀ t, Q t → Ensures (f a) t Q) : Ensures (x >>= f) s Q := by
  rw [ensures_bind]
  refine ⟨fun e t h => ?_, fun a t h => ?_⟩
  · rwa [Ensures, h] at hx
  · rw [Ensures, h] at hx
    exact hf a (hy s a t h) t hx

theorem yields_bind_of {Q : β → Prop} (hf : ∀ a, Yields (f a) Q) : Yields (x >>= f) Q :=
  yields_bind yields_any fun a _ => hf a

end Proc

end Ligase.Lib

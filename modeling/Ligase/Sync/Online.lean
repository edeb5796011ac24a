import Mathlib.Data.Finset.Card
import Ligase.Lib.Run

/-!
# Users and devices that are online

A device is offline, in the foreground or in the background; a change of its state, and of the state
of its user, is reported to a handler.

* **`notes_follow_state`**: while every removal is reported, the reports are a faithful log.
-/

namespace Ligase.Sync.Online

open Lib Function Option List

def offline : Int := 0
def foreGround : Int := 1
def userOnline : Int := 1

structure Note where
  last : Int
  cur : Int
  deriving DecidableEq

structure Device where
  ts : Int
  curState : Int

variable {U D : Type} [DecidableEq U] [DecidableEq D]

structure User (D : Type) where
  ts : Int
  curState : Int
  keys : Finset D
  dev : D → Device

/-- What the repository has of a user, and what the handler was told of the user and of each of the
devices. -/
structure Entry (D : Type) where
  user : Option (User D)
  userNotes : List Note
  notes : D → List Note

namespace Entry

def noted (l : List Note) (last cur : Int) : List Note :=
  if last ≠ cur then l ++ [⟨last, cur⟩] else l

section
variable (e : Entry D)

def userState : Int := (e.user.map User.curState).getD offline

def state (d : D) : Int :=
  match e.user with
  | some u => if d ∈ u.keys then (u.dev d).curState else offline
  | none => offline

def load : User D := e.user.getD ⟨0, offline, ∅, fun _ => ⟨0, offline⟩⟩

def store (u : User D) (d : D) (dev : Device) : User D :=
  { u with keys := insert d u.keys, dev := update u.dev d dev }

def updateState (d : D) (state now : Int) : Entry D :=
  { e with
    user := some (store e.load d ⟨now, state⟩)
    notes := update e.notes d (noted (e.notes d) (e.state d) state) }

def seen (now : Int) : User D := { e.load with ts := now, curState := userOnline }

/-- The clock is read for the user, for the device and for the new state. -/
def pet (d : D) (t₁ t₂ t₃ : Int) : Entry D :=
  let e' : Entry D :=
    { user := some (store (e.seen t₁) d ⟨t₂, e.state d⟩)
      userNotes := noted e.userNotes e.load.curState userOnline
      notes := e.notes }
  if e.state d = offline then e'.updateState d foreGround t₃ else e'

def release (d : D) : Entry D :=
  { e with user := e.user.map fun u => { u with keys := u.keys.erase d } }

end

def expired (u : User D) (now ttl : Int) (d : D) : Bool := (u.dev d).ts + ttl < now

/-- The user and the devices that have not been seen for `ttl` go offline. -/
def checkDeviceTtl (u : User D) (userNotes : List Note) (notes : D → List Note) (now ttl : Int) :
    Entry D :=
  let cur := if u.ts + ttl < now then offline else u.curState
  { user := some { u with curState := cur, keys := u.keys.filter fun d => !expired u now ttl d }
    userNotes := noted userNotes u.curState cur
    notes := fun d =>
      if d ∈ u.keys ∧ expired u now ttl d then noted (notes d) (u.dev d).curState offline
      else notes d }

/-- The clean-up at a user; one without devices is removed. -/
def clean (e : Entry D) (now ttl : Int) : Entry D :=
  match e.user with
  | none => e
  | some u =>
    let e := checkDeviceTtl u e.userNotes e.notes now ttl
    if e.load.keys.card = 0 then { e with user := none } else e

end Entry

/-- The steps; the timer's clean-up takes the users one after the other. -/
inductive Op (U D : Type) where
  | pet (uid : U) (d : D) (t₁ t₂ t₃ : Int)
  | updateState (uid : U) (d : D) (state now : Int)
  | release (uid : U) (d : D)
  | clean (uid : U) (now : Int)

abbrev Repo (U D : Type) := U → Entry D

def newOnlineUserRepo : Repo U D := fun _ => ⟨none, [], fun _ => []⟩

variable (ttl : Int)

def step (r : Repo U D) : Op U D → Option (Repo U D)
  | .pet uid d t₁ t₂ t₃ => some (update r uid ((r uid).pet d t₁ t₂ t₃))
  | .updateState uid d state now => some (update r uid ((r uid).updateState d state now))
  | .release uid d => some (update r uid ((r uid).release d))
  | .clean uid now => some (update r uid ((r uid).clean now ttl))

/-! ## The log -/

def implied (l : List Note) : Int := (l.getLast?.map Note.cur).getD offline

/-- The reports lead to the state, each from the state before it. -/
def Follows (l : List Note) (state : Int) : Prop :=
  implied l = state ∧ ∀ pre n post, l = pre ++ n :: post → n.last = implied pre

theorem follows_nil : Follows [] offline :=
  ⟨rfl, fun _ _ _ h => absurd h.symm (append_ne_nil_of_right_ne_nil _ nofun)⟩

theorem Follows.noted {l : List Note} {last cur : Int} (h : Follows l last) :
    Follows (Entry.noted l last cur) cur := by
  unfold Entry.noted
  split_ifs with hne
  · refine ⟨by simp [implied], fun pre n post he => ?_⟩
    rcases eq_nil_or_concat post with rfl | ⟨post, m, rfl⟩
    · obtain ⟨rfl, hn⟩ := append_inj' he rfl
      rw [← head_eq_of_cons_eq hn]
      exact h.1.symm
    · rw [concat_eq_append, ← cons_append, ← append_assoc] at he
      exact h.2 pre n post (append_inj' he rfl).1
  · exact not_not.mp hne ▸ h

namespace Entry

variable {e : Entry D} {d : D}

def Faithful (e : Entry D) : Prop :=
  Follows e.userNotes e.userState ∧ ∀ d, Follows (e.notes d) (e.state d)

omit [DecidableEq D] in
theorem load_curState : e.load.curState = e.userState := by
  unfold load userState
  cases e.user <;> rfl

theorem state_eq_load :
    e.state d = if d ∈ e.load.keys then (e.load.dev d).curState else offline := by
  unfold state load
  cases e.user <;> simp

theorem state_store (u : User D) {dev : Device} {userNotes : List Note} {notes : D → List Note}
    (hu : u.keys = e.load.keys ∧ u.dev = e.load.dev) (d' : D) :
    state ⟨some (store u d dev), userNotes, notes⟩ d' =
      if d' = d then dev.curState else e.state d' := by
  rw [state_eq_load (e := e), ← hu.1, ← hu.2]
  by_cases h : d' = d
  · simp [state, store, h]
  · simp [state, store, h]

theorem Faithful.updateState (h : e.Faithful) (state now : Int) :
    (e.updateState d state now).Faithful := by
  refine ⟨?_, fun d' => ?_⟩
  · have : (e.updateState d state now).userState = e.userState := load_curState
    exact this ▸ h.1
  · have hs : (e.updateState d state now).state d' = if d' = d then state else e.state d' :=
      state_store e.load ⟨rfl, rfl⟩ d'
    rw [hs]
    simp only [Entry.updateState, update_apply]
    split_ifs with hd
    · exact (h.2 d).noted
    · exact h.2 d'

theorem Faithful.pet (h : e.Faithful) (t₁ t₂ t₃ : Int) : (e.pet d t₁ t₂ t₃).Faithful := by
  have hpet : Faithful ⟨some (store (e.seen t₁) d ⟨t₂, e.state d⟩),
      noted e.userNotes e.load.curState userOnline, e.notes⟩ := by
    refine ⟨(load_curState ▸ h.1).noted, fun d' => ?_⟩
    rw [state_store (e := e) (e.seen t₁) ⟨rfl, rfl⟩ d']
    split_ifs with hd
    · exact hd ▸ h.2 d
    · exact h.2 d'
  unfold Entry.pet
  split_ifs
  · exact hpet.updateState ..
  · exact hpet

theorem Faithful.release (h : e.Faithful) (hd : e.state d = offline) :
    (e.release d).Faithful := by
  have huser : (e.release d).userState = e.userState := by
    unfold userState Entry.release
    cases e.user <;> rfl
  have hstate : ∀ d', (e.release d).state d' = e.state d' := by
    intro d'
    by_cases hd' : d' = d
    · rw [hd', hd]
      unfold state Entry.release
      cases e.user <;> simp
    · unfold state Entry.release
      cases e.user <;> simp [hd']
  exact ⟨huser ▸ h.1, fun d' => hstate d' ▸ h.2 d'⟩

theorem faithful_checkDeviceTtl {u : User D} {now ttl : Int} (hu : e.user = some u)
    (h : e.Faithful) : (checkDeviceTtl u e.userNotes e.notes now ttl).Faithful := by
  refine ⟨?_, fun d => ?_⟩
  · have huser : e.userState = u.curState := by
      unfold userState
      rw [hu]
      rfl
    exact (huser ▸ h.1).noted
  · have hd := h.2 d
    simp only [state, hu] at hd
    simp only [state, checkDeviceTtl, Finset.mem_filter]
    by_cases hk : d ∈ u.keys
    · cases hx : expired u now ttl d
      · simpa [hk] using hd
      · simpa [hk] using hd.noted
    · simpa [hk] using hd

theorem Faithful.clean (h : e.Faithful) {now ttl : Int}
    (hu : ∀ u, e.user = some u → (∀ d ∈ u.keys, expired u now ttl d) →
      u.ts + ttl < now ∨ u.curState = offline) : (e.clean now ttl).Faithful := by
  unfold Entry.clean
  split
  · exact h
  · rename_i u hsome
    have hcheck : (checkDeviceTtl u e.userNotes e.notes now ttl).Faithful :=
      faithful_checkDeviceTtl hsome h
    dsimp only
    split_ifs with hempty
    · have hall : ∀ d ∈ u.keys, expired u now ttl d := by
        simpa [load, checkDeviceTtl, Finset.filter_eq_empty_iff] using hempty
      refine ⟨?_, fun d => ?_⟩
      · have hoff : (checkDeviceTtl u e.userNotes e.notes now ttl).userState = offline := by
          rcases hu u hsome hall with hlt | hoff
          · exact if_pos hlt
          · exact (congrArg (ite _ _) hoff).trans (ite_self _)
        have huser := hcheck.1
        rwa [hoff] at huser
      · have hd := hcheck.2 d
        rwa [state_eq_load, Finset.card_eq_zero.mp hempty, if_neg (Finset.notMem_empty d)] at hd
    · exact hcheck

end Entry

/-- A device that is released is offline, and so is a user that is removed. -/
def Told (r : Repo U D) : Op U D → Prop
  | .release uid d => (r uid).state d = offline
  | .clean uid now => ∀ u ∈ (r uid).user, (∀ d ∈ u.keys, Entry.expired u now ttl d) →
      u.ts + ttl < now ∨ u.curState = offline
  | _ => True

theorem Told.step {r r' : Repo U D} {op : Op U D} (h : ∀ uid, (r uid).Faithful)
    (ht : Told ttl r op) (hs : step ttl r op = some r') (uid : U) : (r' uid).Faithful := by
  have hupd : ∀ {uid' e}, Entry.Faithful e → (update r uid' e uid).Faithful := by
    intro uid' e he
    rw [update_apply]
    split_ifs
    · exact he
    · exact h uid
  cases op with
  | pet uid' d t₁ t₂ t₃ => exact some.inj hs ▸ hupd ((h uid').pet ..)
  | updateState uid' d state now => exact some.inj hs ▸ hupd ((h uid').updateState ..)
  | release uid' d => exact some.inj hs ▸ hupd ((h uid').release ht)
  | clean uid' now => exact some.inj hs ▸ hupd ((h uid').clean ht)

/-- **The reports are a faithful log** of every run that releases no device and removes no user that
is not offline. -/
theorem notes_follow_state {ops : List (Op U D)} {r : Repo U D}
    (h : run (step ttl) newOnlineUserRepo ops = some r)
    (ht : RunMeets (step ttl) (Told ttl) newOnlineUserRepo ops) (uid : U) :
    Follows (r uid).userNotes (r uid).userState ∧
      ∀ d, Follows ((r uid).notes d) ((r uid).state d) :=
  run_invariant (I := fun r : Repo U D => ∀ uid, (r uid).Faithful) (Told.step ttl)
    (fun _ => ⟨follows_nil, fun _ => follows_nil⟩) ht h uid

def petted : List (Op String String) :=
  [.pet "u" "d" 0 0 0, .updateState "u" "d" 2 5, .clean "u" 1000]

theorem notes_follow_state_petted : ∃ r, run (step 60) newOnlineUserRepo petted = some r ∧
    (r "u").notes "d" = [⟨0, 1⟩, ⟨1, 2⟩, ⟨2, 0⟩] ∧
    Follows ((r "u").notes "d") ((r "u").state "d") := by
  have h : run (step 60) newOnlineUserRepo petted = some _ := rfl
  exact ⟨_, h, by decide, (notes_follow_state 60 h (by
    refine ⟨trivial, trivial, fun u hu _ => .inl ?_, trivial⟩
    obtain rfl := some.inj hu
    decide) "u").2 "d"⟩

/-- A device is released while it is in the foreground, and nothing is reported. -/
theorem release_not_reported : ∃ r : Repo String String,
    run (step 60) newOnlineUserRepo [.pet "u" "d" 0 0 0, .release "u" "d"] = some r ∧
      implied ((r "u").notes "d") = foreGround ∧ (r "u").state "d" = offline :=
  ⟨_, rfl, by decide, by decide⟩

end Ligase.Sync.Online

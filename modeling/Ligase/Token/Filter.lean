import Mathlib.Logic.Function.Basic
import Mathlib.Tactic.Common
import Ligase.Lib.Text

/-!
# The token filter

`SimpleFilter` holds the live sessions: for each `user:mac` the set of the keys `user:device` of
that machine. A device id is `mac:suffix`; the mac `virtual` stands for any number of sessions,
every other one for a single session.

* **`lookup_iff_live`**: when a lookup finds the live sessions.
-/

namespace Ligase.Token

open Lib List Function

/-! ## The filter -/

/-- The part of a device id before its last colon, or all of it. -/
def getMac (deviceID : String) : String := (beforeLast ':' deviceID).getD deviceID

def isVirtual (mac : String) : Bool := mac = "virtual"

structure DevMap where
  devMap : String → Bool

structure SimpleFilter where
  repo : String → Option DevMap
  ready : Bool

def newSimpleFilter : SimpleFilter := { repo := fun _ => none, ready := false }

def repoKey (userId deviceId : String) : String := userId ++ ":" ++ getMac deviceId

def devKey (userId deviceId : String) : String := userId ++ ":" ++ deviceId

namespace SimpleFilter

variable (sf : SimpleFilter)

def insert (userId deviceId : String) : SimpleFilter :=
  let mac := repoKey userId deviceId
  let key := devKey userId deviceId
  match sf.repo mac with
  | some dev =>
    let stored := update dev.devMap key true
    -- a machine that is not virtual keeps the new key only
    let kept :=
      if !isVirtual (getMac deviceId) then fun k => if k ≠ key then false else stored k else stored
    { sf with repo := update sf.repo mac (some ⟨kept⟩) }
  | none =>
    let dev : DevMap := ⟨update (fun _ => false) key true⟩
    { sf with repo := update sf.repo mac (some dev) }

def delete (userId deviceId : String) : SimpleFilter :=
  let mac := repoKey userId deviceId
  let key := devKey userId deviceId
  match sf.repo mac with
  | some dev =>
    if dev.devMap key then
      { sf with repo := update sf.repo mac (some ⟨update dev.devMap key false⟩) }
    else sf
  | none => sf

def lookup (userId deviceId : String) : Bool :=
  if !sf.ready then true
  else
    match sf.repo (repoKey userId deviceId) with
    | some dev => dev.devMap (devKey userId deviceId)
    | none => false

/-! ## One operation -/

def keys (mac : String) : String → Bool :=
  match sf.repo mac with
  | some dev => dev.devMap
  | none => fun _ => false

def Has (userId deviceId : String) : Prop :=
  sf.keys (repoKey userId deviceId) (devKey userId deviceId) = true

instance (u d : String) : Decidable (sf.Has u d) :=
  inferInstanceAs (Decidable (_ = _))

variable {sf} {u d d' : String} {op : Op}

theorem keys_eq_of_repo_eq {mac : String} {dev : DevMap}
    (h : sf.repo mac = some dev) : sf.keys mac = dev.devMap := by
  simp [keys, h]

theorem keys_update (sf : SimpleFilter) (mac : String) (dev : DevMap) :
    keys { sf with repo := update sf.repo mac (some dev) } = update sf.keys mac dev.devMap := by
  funext m
  by_cases hm : m = mac
  · subst hm
    simp [keys]
  · simp [keys, hm]

theorem keys_insert (sf : SimpleFilter) (u d : String) :
    (sf.insert u d).keys = update sf.keys (repoKey u d) fun k =>
      k = devKey u d || isVirtual (getMac d) && sf.keys (repoKey u d) k := by
  unfold insert
  cases hr : sf.repo (repoKey u d) with
  | none =>
    simp only [hr, keys_update]
    congr 1
    funext k
    by_cases hk : k = devKey u d <;> simp [hk, keys, hr]
  | some dev =>
    simp only [hr, keys_update, keys_eq_of_repo_eq hr]
    congr 1
    funext k
    by_cases hk : k = devKey u d <;> cases isVirtual (getMac d) <;> simp [hk]

theorem keys_delete (sf : SimpleFilter) (u d : String) :
    (sf.delete u d).keys = update sf.keys (repoKey u d)
      (update (sf.keys (repoKey u d)) (devKey u d) false) := by
  -- without the key there is nothing to take out
  have habs : sf.keys (repoKey u d) (devKey u d) = false → update sf.keys (repoKey u d)
        (update (sf.keys (repoKey u d)) (devKey u d) false) = sf.keys := by
    intro h
    rw [← h, update_eq_self, update_eq_self]
  unfold delete
  cases hr : sf.repo (repoKey u d) with
  | none => simp only [hr, habs (by simp [keys, hr])]
  | some dev =>
    simp only [hr]
    split_ifs with hd
    · rw [keys_update, keys_eq_of_repo_eq hr]
    · rw [habs (by simpa [keys_eq_of_repo_eq hr] using hd)]

theorem lookup_eq_true_iff (h : sf.ready = true) (u d : String) :
    sf.lookup u d = true ↔ sf.Has u d := by
  unfold lookup Has keys
  cases sf.repo (repoKey u d) <;> simp [h]

@[simp] theorem ready_insert (sf : SimpleFilter) (u d : String) :
    (sf.insert u d).ready = sf.ready := by
  simp only [insert]
  split <;> rfl

@[simp] theorem ready_delete (sf : SimpleFilter) (u d : String) :
    (sf.delete u d).ready = sf.ready := by
  simp only [delete]
  split
  · split_ifs <;> rfl
  · rfl

theorem has_insert {u' : String} : (sf.insert u d).Has u' d' ↔
      if repoKey u' d' = repoKey u d then
        devKey u' d' = devKey u d ∨ isVirtual (getMac d) = true ∧ sf.Has u' d'
      else sf.Has u' d' := by
  unfold Has
  rw [keys_insert]
  by_cases hm : repoKey u' d' = repoKey u d
  · rw [if_pos hm, hm, update_self]
    simp
  · rw [if_neg hm, update_of_ne hm]

theorem has_delete {u' : String} :
    (sf.delete u d).Has u' d' ↔
      sf.Has u' d' ∧ ¬ (repoKey u' d' = repoKey u d ∧ devKey u' d' = devKey u d) := by
  unfold Has
  rw [keys_delete]
  by_cases hm : repoKey u' d' = repoKey u d
  · rw [hm, update_self]
    by_cases hk : devKey u' d' = devKey u d
    · simp [hk]
    · simp [hk]
  · simp [hm]

/-! ## Runs -/

inductive Op where
  | insert (userId deviceId : String)
  | delete (userId deviceId : String)

def apply (sf : SimpleFilter) : Op → SimpleFilter
  | .insert u d => sf.insert u d
  | .delete u d => sf.delete u d

@[simp] theorem ready_apply (sf : SimpleFilter) (op : Op) : (sf.apply op).ready = sf.ready := by
  cases op <;> simp [apply]

/-! ## The live sessions -/

def Op.userId : Op → String
  | .insert u _ => u
  | .delete u _ => u

def Op.deviceId : Op → String
  | .insert _ d => d
  | .delete _ d => d

/-- The operation closes the session of `u` on `d`, or opens the next one on its machine. -/
def Op.Closes (u d : String) : Op → Prop
  | .insert u' d' => u' = u ∧ d' ≠ d ∧ getMac d' = getMac d ∧ isVirtual (getMac d) = false
  | .delete u' d' => u' = u ∧ d' = d

def Live (u d : String) (ops : List Op) : Prop :=
  ∃ before after, ops = before ++ .insert u d :: after ∧ ∀ op ∈ after, ¬ op.Closes u d

theorem not_live_nil : ¬ Live u d [] := by
  rintro ⟨before, after, h, -⟩
  exact absurd h.symm (append_ne_nil_of_right_ne_nil _ (cons_ne_nil _ _))

theorem live_concat {ops : List Op} :
    Live u d (ops ++ [op]) ↔ op = .insert u d ∨ Live u d ops ∧ ¬ op.Closes u d := by
  constructor
  · rintro ⟨before, after, h, hall⟩
    rcases eq_nil_or_concat after with rfl | ⟨after, last, rfl⟩
    · exact .inl (head_eq_of_cons_eq (append_inj' h rfl).2)
    · rw [concat_eq_append, ← cons_append, ← append_assoc] at h
      obtain ⟨rfl, hlast⟩ := append_inj' h rfl
      obtain rfl := head_eq_of_cons_eq hlast
      exact .inr ⟨⟨before, after, rfl, fun o ho => hall o (by simp [ho])⟩, hall _ (by simp)⟩
  · rintro (rfl | ⟨⟨before, after, rfl, hall⟩, hop⟩)
    · exact ⟨ops, [], rfl, nofun⟩
    · refine ⟨before, after ++ [op], by simp, fun o ho => ?_⟩
      rcases mem_append.mp ho with ho | ho
      · exact hall o ho
      · exact mem_singleton.mp ho ▸ hop

/-- No other user's operation has the key of the machine. -/
def Op.Apart (u d : String) (op : Op) : Prop :=
  op.userId ≠ u → repoKey u d ≠ repoKey op.userId op.deviceId

theorem repoKey_inj : repoKey u d = repoKey u d' ↔ getMac d = getMac d' :=
  String.append_right_inj _

theorem devKey_inj : devKey u d = devKey u d' ↔ d = d' :=
  String.append_right_inj _

theorem has_apply (h : op.Apart u d) :
    (sf.apply op).Has u d ↔ op = .insert u d ∨ sf.Has u d ∧ ¬ op.Closes u d := by
  cases op with
  | insert u' d' =>
    rw [apply, has_insert]
    by_cases hu : u' = u
    · subst hu
      simp only [repoKey_inj, devKey_inj]
      by_cases hd : d = d'
      · simp [hd]
      · by_cases hm : getMac d = getMac d'
        · simp [Op.Closes, hm, hd, Ne.symm hd, and_comm]
        · simp [Op.Closes, hm, Ne.symm hd, Ne.symm hm]
    · have hne : repoKey u d ≠ repoKey u' d' := h hu
      simp [Op.Closes, hu, hne]
  | delete u' d' =>
    rw [apply, has_delete]
    by_cases hu : u' = u
    · subst hu
      rw [repoKey_inj, devKey_inj]
      by_cases hd : d = d'
      · simp [Op.Closes, hd]
      · simp [Op.Closes, hd, Ne.symm hd]
    · have hne : repoKey u d ≠ repoKey u' d' := h hu
      simp [Op.Closes, hu, hne]

def loaded : SimpleFilter := { newSimpleFilter with ready := true }

theorem ready_run (ops : List Op) : (ops.foldl apply sf).ready = sf.ready := by
  induction ops generalizing sf with
  | nil => rfl
  | cons op ops ih => rw [foldl_cons, ih, ready_apply]

/-- **A lookup finds the live sessions** if no operation of another user has the same key of a
machine. -/
theorem lookup_iff_live (u d : String) (ops : List Op) (h : ∀ op ∈ ops, op.Apart u d) :
    (ops.foldl apply loaded).lookup u d = true ↔ Live u d ops := by
  rw [lookup_eq_true_iff ((ready_run ops).trans rfl)]
  induction ops using List.reverseRecOn with
  | nil => exact ⟨nofun, fun hl => absurd hl not_live_nil⟩
  | append_singleton ops op ih =>
    rw [foldl_append, foldl_cons, foldl_nil, has_apply (h op (by simp)),
      live_concat, ih fun o ho => h o (by simp [ho])]

theorem lookup_iff_live_replaced :
    ([Op.insert "@a:x" "m:1", .insert "@b:x" "m:1", .insert "@a:x" "m:2"].foldl apply
      loaded).lookup "@a:x" "m:1" = true ↔
    Live "@a:x" "m:1" [.insert "@a:x" "m:1", .insert "@b:x" "m:1", .insert "@a:x" "m:2"] :=
  lookup_iff_live _ _ _ (by
    simp only [forall_mem_cons, Op.Apart, Op.userId, Op.deviceId]
    decide)

/-- The keys of two users are the same. -/
theorem lookup_other_user :
    ([Op.insert "a:b" "c:x"].foldl apply loaded).lookup "a" "b:c:x" = true ∧
      ¬ Live "a" "b:c:x" [.insert "a:b" "c:x"] := by
  refine ⟨by decide, fun h => ?_⟩
  rcases live_concat.mp (show Live _ _ ([] ++ [_]) from h) with h | ⟨h, -⟩
  · exact absurd (Op.insert.inj h).1 (by decide)
  · exact not_live_nil h

end SimpleFilter

end Ligase.Token

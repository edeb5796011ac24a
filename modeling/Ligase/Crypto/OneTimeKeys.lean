import Mathlib.Data.Fintype.Basic
import Mathlib.Data.List.Perm.Basic
import Ligase.Lib.Run
import Ligase.Lib.Text

/-!
# Claims of one-time keys

`ClaimOneTimeKeys` takes one key for each device of a request. For a device it reads the list of the
stored keys, reads them one by one until it finds one, deletes that one and returns it. The cache
executes one command at a time; the calls of any number of clients interleave between the commands.

* **`returned_disjoint`**: the runs in which two calls never return the same key.
-/

namespace Ligase.Crypto

open Lib Option Function List

/-! ## The cache -/

structure KeyHolder where
  DeviceID : String
  UserID : String
  KeyID : String
  Key : String
  KeyAlgorithm : String
  Signature : String

def KeyHolder.ident (key : KeyHolder) : String × String × String :=
  (key.UserID, key.DeviceID, key.KeyID)

structure Cache where
  keys : String → Option KeyHolder
  lists : String → List String

def listKey (userID deviceID : String) : String := "one_time_key_list:" ++ userID ++ ":" ++ deviceID

def KeyHolder.keyKey (key : KeyHolder) : String :=
  "one_time_key:" ++ key.UserID ++ ":" ++ key.DeviceID ++ ":" ++ key.KeyID ++ ":" ++
    key.KeyAlgorithm

def Cache.empty : Cache := ⟨fun _ => none, fun _ => []⟩

variable (cache : Cache)

def Cache.setOneTimeKey (key : KeyHolder) : Cache :=
  let list := listKey key.UserID key.DeviceID
  { keys := update cache.keys key.keyKey (some key)
    lists := update cache.lists list ((cache.lists list).insert key.keyKey) }

def Cache.del (key : KeyHolder) : Cache :=
  { cache with keys := update cache.keys key.keyKey none }

def Cache.hdel (key : KeyHolder) : Cache :=
  let list := listKey key.UserID key.DeviceID
  { cache with lists := update cache.lists list ((cache.lists list).erase key.keyKey) }

/-! ## A call -/

structure Item where
  uid : String
  deviceID : String
  al : String

/-- Between two devices, at the names left to read, with a key it has fetched, or with one it has
deleted but not taken off the list. -/
inductive Pc where
  | next
  | scan (keyIDs : List String)
  | picked (key : KeyHolder)
  | deleted (key : KeyHolder)

structure Claim where
  todo : List Item
  pc : Pc
  returned : List (Item × KeyHolder)

def Claim.start (todo : List Item) : Claim := ⟨todo, .next, []⟩

/-- The cache commands of a call. `hgetall` comes with the order in which the names are then read; a
read may also fail. -/
inductive Cmd where
  | hgetall (keyIDs : List String)
  | hgetallMiss
  | hmget
  | hmgetMiss
  | del
  | hdel

/-- Go on with the names left; with none left nothing is returned for the device. -/
def Claim.resume (c : Claim) : List String → Claim
  | [] => { c with todo := c.todo.tail, pc := .next }
  | keyIDs => { c with pc := .scan keyIDs }

/-- One command of `ClaimOneTimeKeys` with its `pickOne`. -/
def claimStep (c : Claim) : Cmd → Option (Cache × Claim)
  | .hgetall keyIDs =>
    match c.pc, c.todo with
    | .next, item :: _ =>
      if keyIDs.Perm (cache.lists (listKey item.uid item.deviceID)) then
        some (cache, c.resume keyIDs)
      else none
    | _, _ => none
  | .hgetallMiss =>
    match c.pc, c.todo with
    | .next, _ :: _ => some (cache, c.resume [])
    | _, _ => none
  | .hmget =>
    match c.pc with
    | .scan (keyID :: keyIDs) =>
      -- a name without a hash reads as a key without a user
      match cache.keys keyID with
      | some key =>
        if key.UserID ≠ "" then some (cache, { c with pc := .picked key })
        else some (cache, c.resume keyIDs)
      | none => some (cache, c.resume keyIDs)
    | _ => none
  | .hmgetMiss =>
    match c.pc with
    | .scan (_ :: keyIDs) => some (cache, c.resume keyIDs)
    | _ => none
  | .del =>
    match c.pc with
    | .picked key => some (cache.del key, { c with pc := .deleted key })
    | _ => none
  | .hdel =>
    match c.pc, c.todo with
    | .deleted key, item :: todo =>
      some (cache.hdel key, ⟨todo, .next, c.returned ++ [(item, key)]⟩)
    | _, _ => none

/-! ## What a command does -/

def Claim.Took (c : Claim) (key : KeyHolder) : Prop :=
  c.pc = .picked key ∨ c.pc = .deleted key ∨ ∃ r ∈ c.returned, r.2 = key

def Claim.Done (c : Claim) (key : KeyHolder) : Prop :=
  c.pc = .deleted key ∨ ∃ r ∈ c.returned, r.2 = key

variable {c : Claim} {key : KeyHolder} {keys : List KeyHolder} {keyID : String}

theorem Claim.took_iff : c.Took key ↔ c.pc = .picked key ∨ c.Done key := Iff.rfl

theorem Claim.took_resume {keyIDs : List String} :
    (c.resume keyIDs).Took key ↔ (c.resume keyIDs).Done key := by
  cases keyIDs <;> simp [took_iff, resume]

theorem Claim.done_resume {keyIDs : List String} :
    (c.resume keyIDs).Done key ↔ ∃ r ∈ c.returned, r.2 = key := by
  cases keyIDs <;> simp [Done, resume]

/-- **What a command does.** It reads; or it fetches a key; or it deletes the key that was fetched;
or it takes the deleted key off the list and returns it. -/
theorem claimStep_eq_some {cache cache' : Cache} {c' : Claim} {cmd : Cmd}
    (h : claimStep cache c cmd = some (cache', c')) :
    (cache' = cache ∧ (∀ key, c'.Took key → c.Done key) ∧ ∀ key, c'.Done key → c.Done key) ∨
      (∃ keyID keyIDs key, cmd = .hmget ∧ c.pc = .scan (keyID :: keyIDs) ∧
        cache.keys keyID = some key ∧ cache' = cache ∧ c' = { c with pc := .picked key }) ∨
      (∃ key, c.pc = .picked key ∧ cache' = cache.del key ∧ c' = { c with pc := .deleted key }) ∨
      ∃ key, c.pc = .deleted key ∧ cache'.keys = cache.keys ∧ ∀ k, c'.Took k ↔ c.Done k := by
  have hresume : ∀ {keyIDs}, some (cache, c.resume keyIDs) = some (cache', c') →
      cache' = cache ∧ (∀ key, c'.Took key → c.Done key) ∧ ∀ key, c'.Done key → c.Done key := by
    intro keyIDs heq
    obtain ⟨rfl, rfl⟩ := Prod.mk.inj (some.inj heq)
    have hd : ∀ key, (c.resume keyIDs).Done key → c.Done key := fun key hk =>
      .inr (Claim.done_resume.mp hk)
    exact ⟨rfl, fun key hk => hd key (Claim.took_resume.mp hk), hd⟩
  cases cmd with
  | hgetall keyIDs =>
    simp only [claimStep] at h
    split at h
    · split_ifs at h
      exact .inl (hresume h)
    · cases h
  | hmget =>
    simp only [claimStep] at h
    split at h
    · rename_i keyID keyIDs hpc
      split at h
      · rename_i key hkey
        split_ifs at h
        · cases h
          exact .inr (.inl ⟨keyID, keyIDs, key, rfl, hpc, hkey, rfl, rfl⟩)
        · exact .inl (hresume h)
      · exact .inl (hresume h)
    · cases h
  | hgetallMiss | hmgetMiss =>
    simp only [claimStep] at h
    split at h
    · exact .inl (hresume h)
    · cases h
  | del =>
    simp only [claimStep] at h
    split at h
    · cases h
      exact .inr (.inr (.inl ⟨_, ‹_›, rfl, rfl⟩))
    · cases h
  | hdel =>
    simp only [claimStep] at h
    split at h
    · rename_i key item todo hpc _
      cases h
      refine .inr (.inr (.inr ⟨key, hpc, rfl, fun k => ?_⟩))
      simp only [Claim.Took, Claim.Done, hpc, reduceCtorEq, false_or, mem_append,
        mem_singleton, or_and_right, exists_or, exists_eq_left, Pc.deleted.injEq]
      exact or_comm
    · cases h

/-! ## Runs of many calls -/

def Cache.ofKeys (keys : List KeyHolder) : Cache := keys.foldl Cache.setOneTimeKey Cache.empty

theorem mem_of_keys_foldl {cache : Cache}
    (h : (keys.foldl Cache.setOneTimeKey cache).keys keyID = some key) :
    key ∈ keys ∧ key.keyKey = keyID ∨ cache.keys keyID = some key := by
  induction keys generalizing cache with
  | nil => exact .inr h
  | cons k keys ih =>
    rcases ih h with ⟨hm, hk⟩ | hc
    · exact .inl ⟨mem_cons_of_mem _ hm, hk⟩
    · by_cases hk : keyID = k.keyKey
      · subst hk
        simp only [Cache.setOneTimeKey, update_self, some.injEq] at hc
        subst hc
        exact .inl ⟨mem_cons_self, rfl⟩
      · exact .inr (by simpa [Cache.setOneTimeKey, hk] using hc)

theorem mem_of_keys
    (h : (Cache.ofKeys keys).keys keyID = some key) : key ∈ keys ∧ key.keyKey = keyID := by
  rcases mem_of_keys_foldl h with h | h
  · exact h
  · cases h

/-- No two stored keys share user, device and key id under different algorithms. -/
def OneAlgorithm (keys : List KeyHolder) : Prop :=
  ∀ key ∈ keys, ∀ key' ∈ keys, key.ident = key'.ident → key.KeyAlgorithm = key'.KeyAlgorithm

instance (keys : List KeyHolder) : Decidable (OneAlgorithm keys) := by
  unfold OneAlgorithm
  infer_instance

theorem OneAlgorithm.keyID_eq (hd : OneAlgorithm keys)
    {keyID' : String} {key' : KeyHolder} (h : (Cache.ofKeys keys).keys keyID = some key)
    (h' : (Cache.ofKeys keys).keys keyID' = some key') (hi : key.ident = key'.ident) :
    keyID = keyID' := by
  obtain ⟨hm, hk⟩ := mem_of_keys h
  obtain ⟨hm', hk'⟩ := mem_of_keys h'
  have hu : key.UserID = key'.UserID := congrArg (·.1) hi
  have hv : key.DeviceID = key'.DeviceID := congrArg (·.2.1) hi
  have hw : key.KeyID = key'.KeyID := congrArg (·.2.2) hi
  rw [← hk, ← hk']
  unfold KeyHolder.keyKey
  rw [hu, hv, hw, hd key hm key' hm' hi]

section
variable {ι : Type*}

def startState (cache : Cache) (todo : ι → List Item) : Procs ι Cache Claim :=
  ⟨cache, fun i => .start (todo i)⟩

/-- The call has not fetched the key, or has deleted it. -/
def Pc.Spares (key : KeyHolder) : Pc → Prop
  | .picked key' => key'.ident ≠ key.ident
  | _ => True

instance (key : KeyHolder) : DecidablePred (Pc.Spares key)
  | .picked key' => inferInstanceAs (Decidable (key'.ident ≠ key.ident))
  | .next | .scan _ | .deleted _ => .isTrue trivial

/-- A command fetches a key only while no other call has fetched it and not yet deleted it. -/
def FetchesAlone (s : Procs ι Cache Claim) (a : ι × Cmd) : Prop :=
  match a.2, (s.proc a.1).pc with
  | .hmget, .scan (keyID :: _) => ∀ key ∈ s.store.keys keyID, ∀ j ≠ a.1, (s.proc j).pc.Spares key
  | _, _ => True

instance [Fintype ι] [DecidableEq ι] (s : Procs ι Cache Claim) (a : ι × Cmd) :
    Decidable (FetchesAlone s a) := by
  unfold FetchesAlone
  split <;> infer_instance

/-- The calls hold and have returned stored keys, no two the same, and a key that has been deleted
is not stored any more. -/
structure Exclusive (cache₀ : Cache) (s : Procs ι Cache Claim) : Prop where
  stored : ∀ {keyID key}, s.store.keys keyID = some key → cache₀.keys keyID = some key
  took : ∀ {i key}, (s.proc i).Took key → cache₀.keys key.keyKey = some key
  gone : ∀ {i key keyID key'}, (s.proc i).Done key → s.store.keys keyID = some key' →
    key'.ident ≠ key.ident
  disjoint : ∀ {i j key key'}, i ≠ j → (s.proc i).Took key → (s.proc j).Took key' →
    key.ident ≠ key'.ident

theorem exclusive_start (cache : Cache) (todo : ι → List Item) :
    Exclusive cache (startState cache todo) := by
  refine ⟨fun h => h, fun h => ?_, fun h => ?_, fun _ h => ?_⟩
  all_goals simp [startState, Claim.start, Claim.Took, Claim.Done] at h

theorem Exclusive.of_moved {cache₀ : Cache} {s t : Procs ι Cache Claim} (hs : Exclusive cache₀ s)
    {i : ι} (hother : ∀ j ≠ i, t.proc j = s.proc j)
    (hstore : ∀ {keyID key}, t.store.keys keyID = some key → s.store.keys keyID = some key)
    (htook : ∀ {key}, (t.proc i).Took key → cache₀.keys key.keyKey = some key)
    (hgone : ∀ {key keyID key'}, (t.proc i).Done key → t.store.keys keyID = some key' →
      key'.ident ≠ key.ident)
    (hdisj : ∀ {j key key'}, j ≠ i → (t.proc i).Took key → (s.proc j).Took key' →
      key.ident ≠ key'.ident) : Exclusive cache₀ t := by
  have took_of_ne : ∀ {j key}, j ≠ i → (t.proc j).Took key → (s.proc j).Took key := by
    intro j key hj hk
    rwa [← hother j hj]
  refine ⟨fun hk => hs.stored (hstore hk), fun {j key} hk => ?_, fun {j key _ _} hk hk' => ?_,
    fun {j j' key key'} hjj hk hk' => ?_⟩
  · by_cases hj : j = i
    · subst hj
      exact htook hk
    · exact hs.took (took_of_ne hj hk)
  · by_cases hj : j = i
    · subst hj
      exact hgone hk hk'
    · rw [hother j hj] at hk
      exact hs.gone hk (hstore hk')
  · by_cases hj : j = i
    · subst hj
      exact hdisj hjj.symm hk (took_of_ne hjj.symm hk')
    · by_cases hj' : j' = i
      · subst hj'
        exact (hdisj hj hk' (took_of_ne hj hk)).symm
      · exact hs.disjoint hjj (took_of_ne hj hk) (took_of_ne hj' hk')

variable {s t : Procs ι Cache Claim} {i : ι}

/-- A fetched key is stored, so nobody has deleted it; the condition says nobody else holds it. -/
theorem Exclusive.fetch (hs : Exclusive (.ofKeys keys) s) {keyID : String} {key : KeyHolder}
    (hk : s.store.keys keyID = some key) (halone : ∀ j ≠ i, (s.proc j).pc.Spares key)
    (hc : t.store = s.store) (hp : t.proc i = { s.proc i with pc := .picked key })
    (hother : ∀ j ≠ i, t.proc j = s.proc j) : Exclusive (.ofKeys keys) t := by
  have hdone : ∀ {key'}, (t.proc i).Done key' → (s.proc i).Done key' := by
    intro key' h
    rw [hp] at h
    exact h.elim (fun e => by cases e) .inr
  have htook : ∀ {key'}, (t.proc i).Took key' → key' = key ∨ (s.proc i).Done key' := by
    intro key' h
    refine h.imp (fun e => ?_) hdone
    rw [hp] at e
    exact (Pc.picked.inj e).symm
  refine hs.of_moved hother (fun h => by rwa [← hc]) (fun h => ?_) (fun h hk' => ?_)
    fun {j _ _} hj h h' => ?_
  · rcases htook h with rfl | h
    · rw [(mem_of_keys (hs.stored hk)).2]
      exact hs.stored hk
    · exact hs.took (.inr h)
  · rw [hc] at hk'
    exact hs.gone (hdone h) hk'
  · rcases htook h with rfl | h
    · rcases h' with h' | h'
      · have hsp := halone j hj
        rw [h'] at hsp
        exact hsp.symm
      · exact hs.gone h' hk
    · exact hs.disjoint hj.symm (.inr h) h'

theorem Exclusive.delete (hd : OneAlgorithm keys) (hs : Exclusive (.ofKeys keys) s)
    {key : KeyHolder} (hpc : (s.proc i).pc = .picked key) (hc : t.store = s.store.del key)
    (hp : t.proc i = { s.proc i with pc := .deleted key })
    (hother : ∀ j ≠ i, t.proc j = s.proc j) : Exclusive (.ofKeys keys) t := by
  have htook : ∀ {key'}, (t.proc i).Took key' → (s.proc i).Took key' := by
    intro key' h
    rw [hp] at h
    rcases h with e | e | e
    · cases e
    · obtain rfl := Pc.deleted.inj e
      exact .inl hpc
    · exact .inr (.inr e)
  have hstore : ∀ {keyID key'}, t.store.keys keyID = some key' →
      keyID ≠ key.keyKey ∧ s.store.keys keyID = some key' := by
    intro keyID key' h
    rw [hc] at h
    by_cases e : keyID = key.keyKey
    · simp [Cache.del, e] at h
    · exact ⟨e, by simpa [Cache.del, e] using h⟩
  refine hs.of_moved hother (fun h => (hstore h).2) (fun h => hs.took (htook h)) (fun h hk' => ?_)
    fun hj h h' => hs.disjoint hj.symm (htook h) h'
  obtain ⟨hne, hk'⟩ := hstore hk'
  rw [hp] at h
  rcases h with e | e
  · obtain rfl := Pc.deleted.inj e
    intro hi
    exact hne (hd.keyID_eq (hs.stored hk') (hs.took (.inl hpc)) hi)
  · exact hs.gone (.inr e) hk'

theorem Exclusive.step [DecidableEq ι] (hd : OneAlgorithm keys) {a : ι × Cmd}
    (hs : Exclusive (.ofKeys keys) s) (ha : FetchesAlone s a)
    (h : procsStep claimStep s a = some t) : Exclusive (.ofKeys keys) t := by
  obtain ⟨i, cmd⟩ := a
  obtain ⟨hstep, hother⟩ := procsStep_eq_some h
  rcases claimStep_eq_some hstep with ⟨hc, htd, hdd⟩ | ⟨keyID, keyIDs, key, rfl, hpc, hk, hc, hp⟩ |
    ⟨key, hpc, hc, hp⟩ | ⟨key, hpc, hc, htd⟩
  · refine hs.of_moved hother (fun h => by rwa [← hc]) (fun h => hs.took (.inr (htd _ h)))
      (fun h hk' => ?_) fun hj h h' => hs.disjoint hj.symm (.inr (htd _ h)) h'
    rw [hc] at hk'
    exact hs.gone (hdd _ h) hk'
  · simp only [FetchesAlone, hpc] at ha
    exact hs.fetch hk (ha key hk) hc hp hother
  · exact hs.delete hd hpc hc hp hother
  · refine hs.of_moved hother (fun h => by rwa [← hc]) (fun h => hs.took (.inr ((htd _).mp h)))
      (fun h hk' => ?_) fun hj h h' => hs.disjoint hj.symm (.inr ((htd _).mp h)) h'
    rw [hc] at hk'
    exact hs.gone ((htd _).mp (.inr h)) hk'

/-- **One-time keys are returned once** in the runs whose fetches are alone. -/
theorem returned_disjoint [DecidableEq ι] (hd : OneAlgorithm keys) {todo : ι → List Item}
    {cmds : List (ι × Cmd)}
    (ha : RunMeets (procsStep claimStep) FetchesAlone (startState (.ofKeys keys) todo) cmds)
    (h : run (procsStep claimStep) (startState (.ofKeys keys) todo) cmds = some t) :
    ∀ i j, i ≠ j → ∀ r ∈ (t.proc i).returned, ∀ r' ∈ (t.proc j).returned,
      r.2.ident ≠ r'.2.ident := by
  have ht := run_invariant (fun hs hc hst => hs.step hd hc hst) (exclusive_start _ _) ha h
  intro i j hij r hr r' hr'
  exact ht.disjoint hij (.inr (.inr ⟨r, hr, rfl⟩)) (.inr (.inr ⟨r', hr', rfl⟩))

end

/-! ## The race -/

def aliceKey (keyID : String) : KeyHolder := ⟨"D", "@a", keyID, "k", "c", ""⟩

def twoClaims : Bool → List Item := fun _ => [⟨"@a", "D", "c"⟩]

def turns : List (Bool × Cmd) :=
  [(false, .hgetall ["one_time_key:@a:D:1:c", "one_time_key:@a:D:2:c"]), (false, .hmget),
    (true, .hgetall ["one_time_key:@a:D:2:c", "one_time_key:@a:D:1:c"]), (false, .del),
    (true, .hmget), (true, .del), (true, .hdel), (false, .hdel)]

theorem returned_disjoint_turns :
    ∃ t, run (procsStep claimStep) (startState (.ofKeys [aliceKey "1", aliceKey "2"]) twoClaims)
        turns = some t ∧
      ∀ i j, i ≠ j → ∀ r ∈ (t.proc i).returned, ∀ r' ∈ (t.proc j).returned,
        r.2.ident ≠ r'.2.ident := by
  have h : run (procsStep claimStep) (startState (.ofKeys [aliceKey "1", aliceKey "2"]) twoClaims)
      turns = some _ := rfl
  exact ⟨_, h, returned_disjoint (by decide) (by decide) h⟩

/-- **Two calls return one key** when both fetch it before either deletes it. -/
theorem claims_race :
    ∃ t, run (procsStep claimStep) (startState (.ofKeys [aliceKey "1"]) twoClaims)
        [(false, .hgetall ["one_time_key:@a:D:1:c"]), (true, .hgetall ["one_time_key:@a:D:1:c"]),
          (false, .hmget), (true, .hmget), (false, .del), (false, .hdel), (true, .del),
          (true, .hdel)] = some t ∧
      (t.proc false).returned.map Prod.snd = [aliceKey "1"] ∧
      (t.proc true).returned.map Prod.snd = [aliceKey "1"] := by
  refine ⟨_, rfl, ?_, ?_⟩ <;> rfl

end Ligase.Crypto

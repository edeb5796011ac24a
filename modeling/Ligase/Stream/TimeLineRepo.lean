import Mathlib.Data.List.Nodup
import Mathlib.Logic.Function.Basic

/-!
# The repository of time lines

Time lines are kept in buckets by their key, and the keys in a list by their last use. A key that is
added to a full list drives out the one that was not used for the longest time, and its time line is
deleted.

* **`timeLineRepo_evicts_oldest`**: what holds after any calls, and which key is driven out next.
-/

namespace Ligase.Stream

open Function List

/-! ## The keys -/

section
variable {κ : Type*} [DecidableEq κ]

/-- The keys from the one used last on; the map has for a key its element of the list. -/
structure Lru (κ : Type*) where
  list : List κ
  maxEntries : Nat
  cache : κ → Bool

namespace Lru

def newLru (maxEntries : Nat) : Lru κ := ⟨[], maxEntries, fun _ => false⟩

def moveToFront (lru : Lru κ) (key : κ) : Lru κ := { lru with list := key :: lru.list.erase key }

/-- The key that is driven out, if one is, and the list after the call. -/
def add (lru : Lru κ) (key : κ) : Option κ × Lru κ :=
  if lru.cache key then (none, lru.moveToFront key)
  else
    let lru := { lru with list := key :: lru.list, cache := update lru.cache key true }
    if lru.maxEntries ≠ 0 ∧ lru.list.length > lru.maxEntries then
      match lru.list.getLast? with
      | none => (none, lru)
      | some kv =>
        (some kv, { lru with list := lru.list.dropLast, cache := update lru.cache kv false })
    else (none, lru)

def get (lru : Lru κ) (key : κ) : Lru κ := if lru.cache key then lru.moveToFront key else lru

/-- The list and the map agree, and the list is in the order of `used`, the keys of all calls from
the newest on. -/
structure Ordered (lru : Lru κ) (used : List κ) : Prop where
  recent : lru.list.Pairwise fun a b => used.idxOf a < used.idxOf b
  subset : lru.list ⊆ used
  cache : ∀ k, lru.cache k = true ↔ k ∈ lru.list

variable {lru : Lru κ} {used : List κ} {key : κ} {l : List κ}

theorem Ordered.nodup (h : lru.Ordered used) : lru.list.Nodup :=
  h.recent.imp fun hlt heq => absurd hlt (by rw [heq]; exact Nat.lt_irrefl _)

theorem pairwise_use (h : l.Pairwise fun a b => used.idxOf a < used.idxOf b) (hkey : key ∉ l) :
    (key :: l).Pairwise fun a b => (key :: used).idxOf a < (key :: used).idxOf b := by
  have hidx : ∀ a ∈ l, (key :: used).idxOf a = used.idxOf a + 1 :=
    fun a ha => idxOf_cons_ne _ fun heq => hkey (heq ▸ ha)
  refine pairwise_cons.mpr ⟨fun a ha => ?_, h.imp_of_mem fun ha hb hab => ?_⟩
  · rw [idxOf_cons_self, hidx a ha]
    exact Nat.succ_pos _
  · rw [hidx _ ha, hidx _ hb]
    exact Nat.succ_lt_succ hab

theorem Ordered.moveToFront (h : lru.Ordered used) (hkey : lru.cache key = true) :
    (lru.moveToFront key).Ordered (key :: used) ∧ (lru.moveToFront key).list.Perm lru.list := by
  have hperm := (perm_cons_erase ((h.cache key).mp hkey)).symm
  refine ⟨⟨?_, fun k hk => mem_cons_of_mem _ (h.subset (hperm.mem_iff.mp hk)), fun k => ?_⟩, hperm⟩
  · exact pairwise_use (h.recent.sublist erase_sublist) (h.nodup.not_mem_erase)
  · exact (h.cache k).trans hperm.mem_iff.symm

theorem Ordered.push (h : lru.Ordered used) (hkey : lru.cache key = false) :
    Ordered { lru with list := key :: lru.list, cache := update lru.cache key true }
      (key :: used) := by
  have hmem : key ∉ lru.list := fun hk => by simp [(h.cache key).mpr hk] at hkey
  refine ⟨pairwise_use h.recent hmem, cons_subset_cons _ h.subset, fun k => ?_⟩
  dsimp only
  rw [update_apply, mem_cons, ← h.cache]
  split_ifs with hk
  · exact iff_of_true rfl (.inl hk)
  · exact (or_iff_right hk).symm

theorem Ordered.pop (h : lru.Ordered used) (hlist : lru.list = l ++ [key]) :
    Ordered { lru with list := l, cache := update lru.cache key false } used ∧
      ∀ k ∈ l, used.idxOf k < used.idxOf key := by
  have hrecent := h.recent
  rw [hlist, pairwise_append] at hrecent
  have hlt : ∀ k ∈ l, used.idxOf k < used.idxOf key :=
    fun k hk => hrecent.2.2 k hk key mem_cons_self
  refine ⟨⟨hrecent.1, fun k hk => h.subset (hlist ▸ mem_append_left _ hk), fun k => ?_⟩, hlt⟩
  dsimp only
  rw [update_apply]
  split_ifs with hk
  · exact iff_of_false nofun fun hmem => Nat.lt_irrefl _ (hk ▸ hlt k hmem)
  · rw [h.cache, hlist, mem_append, mem_singleton]
    exact or_iff_left hk

structure Added (lru : Lru κ) (used : List κ) (key : κ) (out : Option κ) (lru' : Lru κ) :
    Prop where
  ordered : lru'.Ordered (key :: used)
  maxEntries : lru'.maxEntries = lru.maxEntries
  le : lru'.list.length ≤ lru.maxEntries
  front : key ∈ lru'.list
  mem_list : ∀ k, k ∈ key :: lru.list ↔ k ∈ lru'.list ∨ out = some k
  oldest : ∀ old, out = some old → ∀ k ∈ lru'.list, (key :: used).idxOf k < (key :: used).idxOf old

theorem Ordered.added (h : lru.Ordered used) (hmax : 1 ≤ lru.maxEntries)
    (hle : lru.list.length ≤ lru.maxEntries) :
    Added lru used key (lru.add key).1 (lru.add key).2 := by
  unfold add
  dsimp only
  split_ifs with hkey hfull
  · obtain ⟨hordered, hperm⟩ := h.moveToFront hkey
    refine ⟨hordered, rfl, hperm.length_eq ▸ hle, mem_cons_self, fun k => ?_, nofun⟩
    have hmem : k = key → k ∈ lru.list := fun hk => hk ▸ (h.cache key).mp hkey
    simp [hperm.mem_iff, or_iff_right_of_imp hmem]
  · have hpush := h.push (Bool.eq_false_iff.mpr hkey)
    obtain ⟨l, kv, hlist⟩ : ∃ l kv, key :: lru.list = l ++ [kv] :=
      ⟨_, _, (dropLast_append_getLast (cons_ne_nil _ _)).symm⟩
    obtain ⟨hpop, holdest⟩ := hpush.pop hlist
    have hlen : lru.list.length = l.length := by
      simpa using congrArg length hlist
    -- the list has at least two keys, so the last one is not the new one
    have hfront : key ∈ l := by
      obtain _ | ⟨k, l⟩ := l
      · have hlong : lru.list.length + 1 > lru.maxEntries := hfull.2
        rw [hlen, length_nil] at hlong
        omega
      · exact (cons.inj hlist).1 ▸ mem_cons_self
    rw [hlist, getLast?_concat, dropLast_concat]
    refine ⟨hpop, rfl, hlen ▸ hle, hfront, fun k => ?_, ?_⟩
    · rw [hlist, mem_append, mem_singleton, eq_comm (a := k)]
      exact or_congr_right (Option.some_inj).symm
    · rintro old ⟨⟩
      exact holdest
  · refine ⟨h.push (Bool.eq_false_iff.mpr hkey), rfl, ?_, mem_cons_self, fun k => ?_, nofun⟩
    · rw [not_and, Nat.not_lt] at hfull
      exact hfull (Nat.ne_of_gt hmax)
    · exact (or_iff_left nofun).symm

theorem Ordered.get (h : lru.Ordered used) (key : κ) :
    (lru.get key).Ordered (key :: used) ∧ (lru.get key).maxEntries = lru.maxEntries ∧
      (lru.get key).list.Perm lru.list := by
  unfold Lru.get
  split_ifs with hkey
  · exact ⟨(h.moveToFront hkey).1, rfl, (h.moveToFront hkey).2⟩
  · have hrecent := pairwise_use h.recent (mt (h.cache key).mpr hkey)
    exact ⟨⟨hrecent.of_cons, fun k hk => mem_cons_of_mem _ (h.subset hk), h.cache⟩, rfl, .refl _⟩

end Lru
end

/-! ## The repository -/

/-- FNV-1a over the bytes of the text. -/
def calcStringHashCode (str : String) : UInt32 :=
  str.toUTF8.data.toList.foldl (fun hash b => (hash ^^^ b.toUInt32) * 16777619) 2166136261

variable {τ φ : Type*}

/-- The buckets by their slot, and the keys if their number is limited. The time lines are of any
type `τ`. -/
structure TimeLineRepo (τ : Type*) where
  bukSize : Nat
  buks : Nat → String → Option τ
  lru : Option (Lru String)

namespace TimeLineRepo

def newTimeLineRepo (bukSize maxEntries : Nat) : TimeLineRepo τ :=
  ⟨bukSize, fun _ _ => none, if maxEntries > 0 then some (.newLru maxEntries) else none⟩

section
variable (tl : TimeLineRepo τ) (key : String)

def getSlot : Nat := (calcStringHashCode key).toNat % tl.bukSize

def set (val : Option τ) : TimeLineRepo τ :=
  { tl with buks := update tl.buks (tl.getSlot key) (update (tl.buks (tl.getSlot key)) key val) }

def load : Option τ := tl.buks (tl.getSlot key) key

def remove : TimeLineRepo τ := tl.set key none

def use : TimeLineRepo τ :=
  match tl.lru with
  | none => tl
  | some lru =>
    let (out, lru) := lru.add key
    let tl := { tl with lru := some lru }
    match out with
    | none => tl
    | some toRemove => tl.remove toRemove

/-- The repository, and the entry that was dropped from the time line. -/
def add (newEvTimeLines : τ) (addFeed : τ → φ → τ × Option φ) (feed : φ) :
    TimeLineRepo τ × Option φ :=
  let tl := tl.use key
  let (tls, removed) := addFeed ((tl.load key).getD newEvTimeLines) feed
  (tl.set key (some tls), removed)

def setDefault (newEvTimeLines : τ) : TimeLineRepo τ :=
  let tl := tl.use key
  if (tl.load key).isSome then tl else tl.set key (some newEvTimeLines)

def getTimeLine : TimeLineRepo τ × Option τ :=
  let tl := { tl with lru := tl.lru.map (·.get key) }
  (tl, tl.load key)

end

inductive Op (φ : Type*) where
  | add (key : String) (feed : φ)
  | setDefault (key : String)
  | getTimeLine (key : String)
  | remove (key : String)

/-- The keys that were added to the list or got from it, from the newest on, after a call. -/
def note (used : List String) : Op φ → List String
  | .add key _ | .setDefault key | .getTimeLine key => key :: used
  | .remove _ => used

def uses (ops : List (Op φ)) : List String := ops.foldl note []

section
variable (newEvTimeLines : τ) (addFeed : τ → φ → τ × Option φ)

def step (tl : TimeLineRepo τ) : Op φ → TimeLineRepo τ
  | .add key feed => (tl.add key newEvTimeLines addFeed feed).1
  | .setDefault key => tl.setDefault key newEvTimeLines
  | .getTimeLine key => (tl.getTimeLine key).1
  | .remove key => tl.remove key

end

/-! ## Calls -/

/-- The keys are in the order of their uses, and every time line is in its bucket and has its key
among them. -/
structure Kept (n : Nat) (tl : TimeLineRepo τ) (lru : Lru String) (used : List String) :
    Prop where
  lru_eq : tl.lru = some lru
  ordered : lru.Ordered used
  maxEntries : lru.maxEntries = n
  le : lru.list.length ≤ n
  stored : ∀ slot k, (tl.buks slot k).isSome → slot = tl.getSlot k ∧ k ∈ lru.list

variable {n : Nat} {tl : TimeLineRepo τ} {lru : Lru String} {used : List String}

theorem isSome_buks_set {key k : String} {val : Option τ} {slot : Nat}
    (h : ((tl.set key val).buks slot k).isSome) :
    (slot = tl.getSlot key ∧ k = key ∧ val.isSome) ∨
      ((tl.buks slot k).isSome ∧ ¬ (slot = tl.getSlot key ∧ k = key)) := by
  simp only [set, update_apply] at h
  split_ifs at h with hslot
  · rw [update_apply] at h
    split_ifs at h with hkey
    · exact .inl ⟨hslot, hkey, h⟩
    · exact .inr ⟨hslot ▸ h, fun hk => hkey hk.2⟩
  · exact .inr ⟨h, fun hk => hslot hk.1⟩

theorem Kept.set {key : String} {val : Option τ} (h : Kept n tl lru used)
    (hkey : val.isSome → key ∈ lru.list) : Kept n (tl.set key val) lru used := by
  refine ⟨h.lru_eq, h.ordered, h.maxEntries, h.le, fun slot k hk => ?_⟩
  rcases isSome_buks_set hk with ⟨rfl, rfl, hval⟩ | ⟨hold, -⟩
  · exact ⟨rfl, hkey hval⟩
  · exact h.stored slot k hold

theorem Kept.added (h : Kept n tl lru used) (hn : 1 ≤ n) (key : String) :
    lru.Added used key (lru.add key).1 (lru.add key).2 :=
  h.ordered.added (h.maxEntries ▸ hn) (h.maxEntries ▸ h.le)

theorem Kept.use (h : Kept n tl lru used) (hn : 1 ≤ n) (key : String) :
    Kept n (tl.use key) (lru.add key).2 (key :: used) := by
  have hadd := h.added hn key
  have hmax := hadd.maxEntries.trans h.maxEntries
  have hle := h.maxEntries ▸ hadd.le
  rw [TimeLineRepo.use, h.lru_eq]
  dsimp only
  cases hout : (lru.add key).1 with
  | none =>
    refine ⟨rfl, hadd.ordered, hmax, hle, fun slot k hk => ⟨(h.stored slot k hk).1, ?_⟩⟩
    have hmem := (hadd.mem_list k).mp (mem_cons_of_mem _ (h.stored slot k hk).2)
    exact hmem.resolve_right (by rw [hout]; nofun)
  | some old =>
    refine ⟨rfl, hadd.ordered, hmax, hle, fun slot k hk => ?_⟩
    rcases isSome_buks_set hk with ⟨-, -, hval⟩ | ⟨hk, hne⟩
    · cases hval
    · obtain ⟨hslot, hmem⟩ := h.stored slot k hk
      refine ⟨hslot, ((hadd.mem_list k).mp (mem_cons_of_mem _ hmem)).resolve_right ?_⟩
      rw [hout]
      rintro ⟨⟩
      exact hne ⟨hslot, rfl⟩

section
variable (newEvTimeLines : τ) (addFeed : τ → φ → τ × Option φ)

theorem Kept.after_step (h : Kept n tl lru used) (hn : 1 ≤ n) (op : Op φ) :
    ∃ lru', Kept n (step newEvTimeLines addFeed tl op) lru' (note used op) := by
  cases op with
  | add key feed => exact ⟨_, (h.use hn key).set fun _ => (h.added hn key).front⟩
  | setDefault key =>
    refine ⟨(lru.add key).2, ?_⟩
    simp only [step, setDefault]
    split_ifs
    · exact h.use hn key
    · exact (h.use hn key).set fun _ => (h.added hn key).front
  | getTimeLine key =>
    obtain ⟨hget, hmax, hperm⟩ := h.ordered.get key
    refine ⟨lru.get key, ?_, hget, hmax.trans h.maxEntries, hperm.length_eq ▸ h.le, fun slot k hk =>
      ⟨(h.stored slot k hk).1, hperm.mem_iff.mpr (h.stored slot k hk).2⟩⟩
    exact congrArg (Option.map (·.get key)) h.lru_eq
  | remove key => exact ⟨lru, h.set nofun⟩

theorem Kept.after_run (hn : 1 ≤ n) : ∀ (ops : List (Op φ)) {tl : TimeLineRepo τ}
    {lru : Lru String} {used : List String}, Kept n tl lru used →
      ∃ lru', Kept n (ops.foldl (step newEvTimeLines addFeed) tl) lru' (ops.foldl note used)
  | [], _, lru, _, h => ⟨lru, h⟩
  | op :: ops, _, _, _, h => by
    obtain ⟨lru₁, h₁⟩ := h.after_step newEvTimeLines addFeed hn op
    exact after_run hn ops h₁

/-- What is to hold of the keys and the time lines, and of a key that is driven out next. -/
structure Sound (n : Nat) (tl : TimeLineRepo τ) (lru : Lru String) (used : List String) :
    Prop where
  nodup : lru.list.Nodup
  agree : ∀ k, lru.cache k = true ↔ k ∈ lru.list
  le : lru.list.length ≤ n
  stored : ∀ slot k, (tl.buks slot k).isSome → k ∈ lru.list
  subset : lru.list ⊆ used
  mem_list : ∀ key k, k ∈ key :: lru.list ↔ k ∈ (lru.add key).2.list ∨ (lru.add key).1 = some k
  oldest : ∀ key old, (lru.add key).1 = some old → ∀ k ∈ (lru.add key).2.list,
    (key :: used).idxOf k < (key :: used).idxOf old

/-- **After any calls** the list and the map of the keys agree, every time line has its key among
them, and a call that drives a key out takes the one whose last use is the oldest. -/
theorem timeLineRepo_evicts_oldest (bukSize maxEntries : Nat) (hmax : 1 ≤ maxEntries)
    (ops : List (Op φ)) :
    let tl := ops.foldl (step newEvTimeLines addFeed) (newTimeLineRepo bukSize maxEntries)
    ∃ lru, tl.lru = some lru ∧ Sound maxEntries tl lru (uses ops) := by
  have hnew : Kept maxEntries (newTimeLineRepo bukSize maxEntries : TimeLineRepo τ)
      (.newLru maxEntries) [] :=
    ⟨if_pos hmax, ⟨.nil, nofun, fun _ => iff_of_false nofun not_mem_nil⟩, rfl, Nat.zero_le _, nofun⟩
  obtain ⟨lru, h⟩ := Kept.after_run newEvTimeLines addFeed hmax ops hnew
  exact ⟨lru, h.lru_eq, h.ordered.nodup, h.ordered.cache, h.le,
    fun slot k hk => (h.stored slot k hk).2, h.ordered.subset,
    fun key => (h.added hmax key).mem_list, fun key => (h.added hmax key).oldest⟩

end

theorem timeLineRepo_evicts_oldest_two :
    let tl := [Op.add "a" 1, .setDefault "b", .getTimeLine "a", .add "c" 2, .remove "a"].foldl
      (step ([] : List Nat) fun l n => (n :: l, none)) (newTimeLineRepo 16 2)
    ∃ lru, tl.lru = some lru ∧ Sound 2 tl lru ["c", "a", "b", "a"] :=
  timeLineRepo_evicts_oldest _ _ 16 2 (by decide) _

end TimeLineRepo

end Ligase.Stream

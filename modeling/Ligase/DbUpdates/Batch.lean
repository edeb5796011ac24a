import Ligase.Lib.Run

/-!
# Batches of database events

The writer of a table takes the events of its queue one after the other. Events of certain keys are
collected and handed to the processor of the table together; a timer bounds how long they wait.

* **`finish_iff`**: which runs hand on every event once, in order and with its own kind only.
-/

namespace Ligase.DbUpdates

open Lib List Option

/-! ## Processors -/

inductive Field where
  | syncEventInsert | syncEventUpdate | syncEventUpdateContent
  | syncUserTimeLineInsert
  | syncStdEventInsert | syncStdEventDelete | syncMacStdEventDelete
  | eventJsonInsert
  | eventInsert | roomEventUpdate
  | eventRoomInsert | eventRoomUpdate | roomDepthUpdate
  | eventInviteInsert | eventInviteUpdate
  | eventMembershipInsert | eventMembershipUpdate | eventMembershipForgetUpdate
  | aliaseInsert | aliaseDelete
  deriving DecidableEq

structure DBEvent (P : Type) where
  key : Int
  data : Field → Option P

/-- The keys whose events are collected, nil without batches, and the payload that the function for
a key reads. -/
structure Processor where
  batchKeys : Option (List Int)
  reads : Int → Option Field

namespace Processor

def dbSyncapiEventProcessor : Processor where
  batchKeys := some [0]
  reads
    | 0 => some .syncEventInsert
    | 13 => some .syncEventUpdate
    | 14 => some .syncEventUpdateContent
    | _ => none

variable {P : Type} (p : Processor)

/-- `Process`: the payloads that are written, read according to the key of the first event. A nil
payload is a panic; a key without a function is only logged. -/
def process (inputs : List (DBEvent P)) : Option (List P) :=
  match inputs with
  | [] => some []
  | first :: _ =>
    match p.reads first.key with
    | none => some []
    | some field => inputs.mapM (·.data field)

def Carries (ev : DBEvent P) : Prop := ∀ field ∈ p.reads ev.key, (ev.data field).isSome

theorem process_isSome {inputs : List (DBEvent P)} {key : Int}
    (hkey : ∀ ev ∈ inputs, ev.key = key) (h : ∀ ev ∈ inputs, p.Carries ev) :
    (p.process inputs).isSome := by
  unfold process
  split
  · rfl
  · rename_i first rest
    split
    · rfl
    · rename_i field hfield
      rw [hkey first mem_cons_self] at hfield
      have hsome : ∀ ev ∈ first :: rest, (ev.data field).isSome := fun ev hev =>
        h ev hev field (by rw [hkey ev hev]; exact hfield)
      generalize first :: rest = l at hsome
      induction l with
      | nil => rfl
      | cons ev l ih =>
        obtain ⟨a, ha⟩ := isSome_iff_exists.mp (hsome ev mem_cons_self)
        obtain ⟨as, has⟩ := isSome_iff_exists.mp
          (ih fun e he => hsome e (mem_cons_of_mem _ he))
        simp [ha, has]

end Processor

/-! ## The worker -/

inductive Signal (P : Type) where
  | tick
  | msg (ev : DBEvent P)

structure Worker (P : Type) where
  inputSeq : List (DBEvent P)
  lastKey : Int
  handed : List (List (DBEvent P))

namespace Worker

variable {P : Type} (p : Processor) (w : Worker P)

def start : Worker P := ⟨[], 0, []⟩

def processInputs : Option (Worker P) :=
  if w.inputSeq = [] then some w
  else (p.process w.inputSeq).map fun _ =>
    { w with inputSeq := [], handed := w.handed ++ [w.inputSeq] }

def close : Option (Worker P) := (w.processInputs p).map fun w => { w with lastKey := 0 }

variable (ev : DBEvent P)

def collect : Worker P :=
  { w with inputSeq := w.inputSeq ++ [ev], lastKey := ev.key }

def changes : Bool := ev.key ≠ w.lastKey ∧ w.lastKey ≠ 0

def complete : Bool :=
  w.inputSeq.length ≥ 30 || match p.batchKeys with
    | none => true
    | some keys => !keys.contains ev.key

def makeRoom : Option (Worker P) :=
  if w.changes ev then w.processInputs p else some w

def add : Option (Worker P) :=
  if (w.collect ev).complete p ev then (w.collect ev).close p else some (w.collect ev)

/-- One turn of the loop of `startWorker`, `none` after a panic. -/
def step : Signal P → Option (Worker P)
  | .tick => if w.inputSeq.length > 0 then w.close p else some w
  | .msg ev => (w.makeRoom p ev).bind fun w => w.add p ev

end Worker

def received {P : Type} (signals : List (Signal P)) : List (DBEvent P) :=
  signals.filterMap fun
    | .tick => none
    | .msg ev => some ev

structure Consumer where
  enableBatch : Bool
  processor : Processor

/-- The batches of a run and what is left of it, `none` after a panic. -/
def Consumer.finish {P : Type} (c : Consumer) (signals : List (Signal P)) :
    Option (List (List (DBEvent P))) :=
  if c.enableBatch then
    (run (Worker.step c.processor) .start signals).bind fun w =>
      (w.processInputs c.processor).map (·.handed)
  else (received signals).mapM fun ev => (c.processor.process [ev]).map fun _ => [ev]

/-! ## Batches of one key -/

section
variable {P : Type}

def SingleKey (batch : List (DBEvent P)) : Prop := ∃ key, ∀ ev ∈ batch, ev.key = key

theorem singleKey_nil : SingleKey ([] : List (DBEvent P)) := ⟨0, by simp⟩

theorem SingleKey.mono {b b' : List (DBEvent P)} (h : SingleKey b') (hsub : b ⊆ b') :
    SingleKey b := by
  obtain ⟨key, hkey⟩ := h
  exact ⟨key, fun ev hev => hkey ev (hsub hev)⟩

namespace Worker

variable {p : Processor} {w w' : Worker P} {past : List (DBEvent P)} {ev : DBEvent P}

/-- What has been handed on and what waits is what has been received. -/
structure Sound (w : Worker P) (past : List (DBEvent P)) : Prop where
  all : w.handed.flatten ++ w.inputSeq = past
  small : ∀ b ∈ w.handed, b.length ≤ 30
  single : ∀ b ∈ w.handed, SingleKey b
  room : w.inputSeq.length ≤ 30
  keys : ∀ ev ∈ w.inputSeq, ev.key = w.lastKey

structure Ready (w : Worker P) (past : List (DBEvent P)) : Prop extends w.Sound past where
  short : w.inputSeq.length < 30
  idle : w.inputSeq = [] → w.lastKey = 0

theorem ready_start : (start : Worker P).Ready [] := by
  constructor
  · constructor <;> simp [start]
  · simp [start]
  · simp [start]

theorem Sound.processInputs (h : w.Sound past) (hc : ∀ ev ∈ past, p.Carries ev) :
    ∃ w', w.processInputs p = some w' ∧ w'.Sound past ∧ w'.inputSeq = [] := by
  by_cases hnil : w.inputSeq = []
  · exact ⟨w, by rw [Worker.processInputs, if_pos hnil], h, hnil⟩
  · have hmem : ∀ ev ∈ w.inputSeq, ev ∈ past := fun ev hev =>
      h.all ▸ mem_append_right _ hev
    obtain ⟨rows, hrows⟩ := isSome_iff_exists.mp
      (p.process_isSome h.keys fun ev hev => hc ev (hmem ev hev))
    refine ⟨_, by rw [Worker.processInputs, if_neg hnil, hrows]; rfl, ?_, rfl⟩
    refine ⟨by simpa using h.all, ?_, ?_, by simp, by simp⟩
    · intro b hb
      rcases mem_append.mp hb with hb | hb
      · exact h.small b hb
      · exact (mem_singleton.mp hb) ▸ h.room
    · intro b hb
      rcases mem_append.mp hb with hb | hb
      · exact h.single b hb
      · exact (mem_singleton.mp hb) ▸ ⟨w.lastKey, h.keys⟩

theorem Sound.close (h : w.Sound past) (hc : ∀ ev ∈ past, p.Carries ev) :
    ∃ w', w.close p = some w' ∧ w'.Ready past := by
  obtain ⟨w', hw', hs, hnil⟩ := h.processInputs hc
  refine ⟨{ w' with lastKey := 0 }, by rw [Worker.close, hw']; rfl, ?_⟩
  refine ⟨⟨hs.all, hs.small, hs.single, hs.room, ?_⟩, ?_, fun _ => rfl⟩
  · simp [hnil]
  · simp [hnil]

theorem Sound.collect (h : w.Sound past) (hshort : w.inputSeq.length < 30)
    (hkey : w.inputSeq = [] ∨ ev.key = w.lastKey) : (w.collect ev).Sound (past ++ [ev]) := by
  refine ⟨by simp [Worker.collect, ← h.all], h.small, h.single, ?_, ?_⟩
  · simp only [Worker.collect, length_append, length_singleton]
    omega
  · intro e he
    rcases mem_append.mp he with he | he
    · rcases hkey with hnil | hkey
      · simp [hnil] at he
      · exact (h.keys e he).trans hkey.symm
    · rw [mem_singleton.mp he]
      rfl

theorem Sound.add (h : w.Sound past) (hc : ∀ e ∈ past ++ [ev], p.Carries e)
    (hshort : w.inputSeq.length < 30) (hkey : w.inputSeq = [] ∨ ev.key = w.lastKey) :
    ∃ w', w.add p ev = some w' ∧ w'.Ready (past ++ [ev]) := by
  have hcol := h.collect hshort hkey
  unfold Worker.add
  split
  · exact hcol.close hc
  · rename_i hcomplete
    refine ⟨_, rfl, hcol, ?_, by simp [Worker.collect]⟩
    have : ¬ 30 ≤ (w.collect ev).inputSeq.length := fun hle => hcomplete (by simp [complete, hle])
    omega

def Apart (w : Worker P) : Signal P → Prop
  | .tick => True
  | .msg ev => w.inputSeq ≠ [] → w.lastKey = 0 → ev.key = 0

theorem Ready.makeRoom (h : w.Ready past) (hc : ∀ e ∈ past, p.Carries e) (ha : w.Apart (.msg ev)) :
    ∃ v, w.makeRoom p ev = some v ∧ v.Sound past ∧ v.inputSeq.length < 30 ∧
      (v.inputSeq = [] ∨ ev.key = v.lastKey) := by
  unfold Worker.makeRoom
  split
  · obtain ⟨v, hv, hs, hnil⟩ := h.processInputs hc
    exact ⟨v, hv, hs, by simp [hnil], .inl hnil⟩
  · rename_i hch
    refine ⟨w, rfl, h.toSound, h.short, ?_⟩
    by_cases hnil : w.inputSeq = []
    · exact .inl hnil
    · by_cases h0 : w.lastKey = 0
      · exact .inr ((ha hnil h0).trans h0.symm)
      · exact .inr (by simpa [changes, h0] using hch)

theorem Ready.step {sig : Signal P} (h : w.Ready past)
    (hc : ∀ ev ∈ past ++ received [sig], p.Carries ev) (ha : w.Apart sig) :
    ∃ w', w.step p sig = some w' ∧ w'.Ready (past ++ received [sig]) := by
  cases sig with
  | tick =>
    have hpast : past ++ received [.tick] = past := by simp [received]
    rw [hpast] at hc ⊢
    simp only [Worker.step]
    split
    · exact h.close hc
    · exact ⟨w, rfl, h⟩
  | msg ev =>
    obtain ⟨v, hv, hs, hshort, hkey⟩ :=
      h.makeRoom (fun e he => hc e (mem_append_left _ he)) ha
    obtain ⟨w', hw', hr⟩ := hs.add hc hshort hkey
    exact ⟨w', by rw [Worker.step, hv, bind_some, hw'], hr⟩

/-- A batch with two keys has been handed on or is going to be. -/
def Mixed (w : Worker P) : Prop := ∃ b ∈ w.handed ++ [w.inputSeq], ¬ SingleKey b

theorem Mixed.processInputs (h : w.Mixed) (hw : w.processInputs p = some w') :
    ∃ b ∈ w'.handed, ¬ SingleKey b := by
  obtain ⟨b, hb, hmix⟩ := h
  unfold Worker.processInputs at hw
  split at hw
  · rename_i hnil
    obtain rfl := some.inj hw
    rcases mem_append.mp hb with hb | hb
    · exact ⟨b, hb, hmix⟩
    · rw [mem_singleton.mp hb, hnil] at hmix
      exact absurd singleKey_nil hmix
  · obtain ⟨_, -, rfl⟩ := map_eq_some_iff.mp hw
    exact ⟨b, hb, hmix⟩

theorem Mixed.close (h : w.Mixed) (hw : w.close p = some w') : w'.Mixed := by
  obtain ⟨v, hv, rfl⟩ := map_eq_some_iff.mp hw
  obtain ⟨b, hb, hmix⟩ := h.processInputs hv
  exact ⟨b, mem_append_left _ hb, hmix⟩

theorem Mixed.collect (h : w.Mixed) : (w.collect ev).Mixed := by
  obtain ⟨b, hb, hmix⟩ := h
  rcases mem_append.mp hb with hb | hb
  · exact ⟨b, mem_append_left _ hb, hmix⟩
  · refine ⟨w.inputSeq ++ [ev], mem_append_right _ (by simp [Worker.collect]), ?_⟩
    refine fun hs => hmix ?_
    rw [mem_singleton.mp hb]
    exact hs.mono (subset_append_left _ _)

theorem Mixed.add (h : (w.collect ev).Mixed) (hw : w.add p ev = some w') : w'.Mixed := by
  unfold Worker.add at hw
  split at hw
  · exact h.close hw
  · exact some.inj hw ▸ h

theorem Mixed.step {sig : Signal P} (h : w.Mixed) (hw : w.step p sig = some w') : w'.Mixed := by
  cases sig with
  | tick =>
    simp only [Worker.step] at hw
    split at hw
    · exact h.close hw
    · exact some.inj hw ▸ h
  | msg ev =>
    obtain ⟨v, hv, hw⟩ := bind_eq_some_iff.mp hw
    have hvm : v.Mixed := by
      unfold makeRoom at hv
      split at hv
      · obtain ⟨b, hb, hmix⟩ := h.processInputs hv
        exact ⟨b, mem_append_left _ hb, hmix⟩
      · exact some.inj hv ▸ h
    exact hvm.collect.add hw

theorem Ready.mixed {sig : Signal P} (h : w.Ready past) (ha : ¬ w.Apart sig)
    (hw : w.step p sig = some w') : w'.Mixed := by
  cases sig with
  | tick => exact absurd trivial ha
  | msg ev =>
    simp only [Apart, Classical.not_imp] at ha
    obtain ⟨hne, h0, hev⟩ := ha
    have hroom : w.makeRoom p ev = some w := if_neg (by simp [changes, h0])
    have hmix : (w.collect ev).Mixed := by
      refine ⟨w.inputSeq ++ [ev], mem_append_right _ (by simp [collect]), ?_⟩
      rintro ⟨key, hkey⟩
      obtain ⟨e, he⟩ := exists_mem_of_ne_nil _ hne
      have h1 := hkey e (mem_append_left _ he)
      have h2 := hkey ev (mem_append_right _ (by simp))
      exact hev (h2.trans (h1.symm.trans ((h.keys e he).trans h0)))
    rw [Worker.step, hroom, bind_some] at hw
    exact hmix.add hw

theorem append_received_cons {sig : Signal P} {signals : List (Signal P)} :
    past ++ received (sig :: signals) = past ++ received [sig] ++ received signals := by
  simp [received, ← filterMap_append]

variable {signals : List (Signal P)} (h : w.Ready past)
  (hc : ∀ ev ∈ past ++ received signals, p.Carries ev)
include h hc

theorem Ready.run (hm : RunMeets (Worker.step p) Apart w signals) :
    ∃ w', Lib.run (Worker.step p) w signals = some w' ∧ w'.Ready (past ++ received signals) := by
  induction signals generalizing w past with
  | nil => exact ⟨w, rfl, by simpa [received] using h⟩
  | cons sig signals ih =>
    rw [append_received_cons] at hc ⊢
    obtain ⟨v, hv, hr⟩ := h.step (fun e he => hc e (mem_append_left _ he)) hm.1
    obtain ⟨w', hw', hr'⟩ := ih hr hc (hm.tail hv)
    exact ⟨w', run_cons_eq_some.mpr ⟨v, hv, hw'⟩, hr'⟩

theorem Ready.meets (hw : Lib.run (Worker.step p) w signals = some w') (hgood : ¬ w'.Mixed) :
    RunMeets (Worker.step p) Apart w signals := by
  induction signals generalizing w past with
  | nil => trivial
  | cons sig signals ih =>
    rw [append_received_cons] at hc
    obtain ⟨v, hv, hrun⟩ := run_cons_eq_some.mp hw
    by_cases ha : w.Apart sig
    · obtain ⟨v', hv', hr⟩ := h.step (fun e he => hc e (mem_append_left _ he)) ha
      obtain rfl := some.inj (hv.symm.trans hv')
      refine ⟨ha, ?_⟩
      rw [hv]
      exact ih hr hc hrun
    · exact absurd (run_preserves Mixed.step (h.mixed ha hv) hrun) hgood

end Worker

theorem mapM_single {p : Processor} {evs : List (DBEvent P)} (hc : ∀ ev ∈ evs, p.Carries ev) :
    (evs.mapM fun ev => (p.process [ev]).map fun _ => [ev]) = some (evs.map ([·])) := by
  induction evs with
  | nil => rfl
  | cons ev evs ih =>
    have hkey : ∀ e ∈ [ev], e.key = ev.key := by simp
    obtain ⟨rows, hrows⟩ := isSome_iff_exists.mp
      (p.process_isSome hkey (by simpa using hc ev mem_cons_self))
    simp [hrows, ih fun e he => hc e (mem_cons_of_mem _ he)]

/-- **Every event once, in order and with its own kind only**, and no nil payload is read, exactly
if no event of another key comes while events of key `0` wait. -/
theorem finish_iff (c : Consumer) (signals : List (Signal P))
    (hc : ∀ ev ∈ received signals, c.processor.Carries ev) :
    (∃ batches, c.finish signals = some batches ∧ batches.flatten = received signals ∧
        ∀ b ∈ batches, b.length ≤ 30 ∧ SingleKey b) ↔
      (c.enableBatch = true → RunMeets (Worker.step c.processor) Worker.Apart .start signals) := by
  cases hb : c.enableBatch with
  | false =>
    have hmap : c.finish signals = some ((received signals).map ([·])) :=
      (if_neg (by simp [hb])).trans (mapM_single hc)
    refine ⟨fun _ h => absurd h (by simp), fun _ => ⟨_, hmap, flatMap_singleton' _, ?_⟩⟩
    intro b hbm
    obtain ⟨ev, -, rfl⟩ := mem_map.mp hbm
    exact ⟨by simp, ev.key, by simp⟩
  | true =>
    have hfin : c.finish signals = (run (Worker.step c.processor) .start signals).bind fun w =>
        (w.processInputs c.processor).map (·.handed) := if_pos hb
    have hc' := hc
    constructor
    · rintro ⟨batches, hfinish, -, hgood⟩ -
      rw [hfin] at hfinish
      obtain ⟨w, hw, hlast⟩ := bind_eq_some_iff.mp hfinish
      obtain ⟨w', hw', rfl⟩ := map_eq_some_iff.mp hlast
      refine Worker.ready_start.meets hc' hw fun hmix => ?_
      obtain ⟨b, hb, hnot⟩ := hmix.processInputs hw'
      exact hnot (hgood b hb).2
    · intro hm
      obtain ⟨w, hw, hr⟩ := Worker.ready_start.run hc' (hm rfl)
      obtain ⟨w', hw', hs, hnil⟩ := hr.processInputs hc'
      refine ⟨w'.handed, by rw [hfin, hw, bind_some, hw']; rfl, ?_,
        fun b hb => ⟨hs.small b hb, hs.single b hb⟩⟩
      simpa [hnil] using hs.all

end

/-! ## The events of a room -/

def eventOf (key : Int) (field : Field) : DBEvent Unit :=
  ⟨key, fun f => if f = field then some () else none⟩

def inserted : DBEvent Unit := eventOf 0 .syncEventInsert

def updated : DBEvent Unit := eventOf 13 .syncEventUpdate

def roomEvents : Consumer := ⟨true, .dbSyncapiEventProcessor⟩

theorem carries_inserted_updated :
    ∀ ev ∈ received [.msg inserted, .msg updated], roomEvents.processor.Carries ev := by
  intro ev hev
  simp only [received, filterMap_cons, filterMap_nil, mem_cons, not_mem_nil,
    or_false] at hev
  rcases hev with rfl | rfl
  all_goals
    rintro _ ⟨⟩
    rfl

theorem finish_iff_timer :
    (∃ batches, roomEvents.finish [.msg inserted, .tick, .msg updated] = some batches ∧
        batches.flatten = [inserted, updated] ∧ ∀ b ∈ batches, b.length ≤ 30 ∧ SingleKey b) ∧
      RunMeets (Worker.step .dbSyncapiEventProcessor) Worker.Apart .start
        [.msg inserted, .tick, .msg updated] := by
  have hm : RunMeets (Worker.step .dbSyncapiEventProcessor) Worker.Apart .start
      [.msg inserted, .tick, .msg updated] :=
    ⟨fun h => absurd rfl h, trivial, fun h => absurd rfl h, trivial⟩
  exact ⟨(finish_iff roomEvents [.msg inserted, .tick, .msg updated]
    carries_inserted_updated).mpr fun _ => hm, hm⟩

/-- An update right after an insertion: the payload of an insertion is read of both. -/
theorem finish_insert_update :
    (∀ ev ∈ received [.msg inserted, .msg updated], roomEvents.processor.Carries ev) ∧
      (Worker.mk [inserted, updated] 13 []).processInputs .dbSyncapiEventProcessor = none ∧
      roomEvents.finish [.msg inserted, .msg updated] = none :=
  ⟨carries_inserted_updated, rfl, rfl⟩

end Ligase.DbUpdates

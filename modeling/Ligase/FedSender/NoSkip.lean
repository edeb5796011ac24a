import Ligase.FedSender.Queue
import Ligase.Lib.Numbered

/-!
# No event is skipped

The offset of the record moves past the last event of a transaction that was acknowledged. What is
before it has been sent if the events of a batch go on from the offset without a gap. The query does
so; the events in memory are only compared with the offset at their head. And the offsets are those
of one domain of this server, while the record has no domain of this server in its key.

* **`none_skipped`**: the runs in which no event is skipped.
-/

namespace Ligase.FedSender

open Lib List

variable {tg : Target} {s t : State} {a : Act}

/-! ## The statement -/

/-- A copy of the record that is stored: the row, the entry of the cache or the item of the map. -/
def SendRecRepo.Stored (r : SendRecRepo) (it : RecordItem) : Prop :=
  r.db = some it ∨ r.cache = some it ∨ ∃ p, r.repo = some p ∧ r.item p = it

section
variable (s : State)

/-- The events from the offset of the first record on and before `d` are in a list. -/
def Covers (l : List Event) (d : Int) : Prop :=
  ∀ d₀, s.record.created = some d₀ →
    ∀ e ∈ s.journal, d₀ ≤ e.domainOffset → e.domainOffset < d → e ∈ l

def NoneSkipped : Prop :=
  ∀ it, s.record.Stored it → Covers s s.acknowledged it.domainOffset

def Follows (l : List Event) (ev : Event) : Prop :=
  match l.getLast? with
  | some last => ev.domainOffset = last.domainOffset + 1
  | none => True

def Worker.InOrder : Worker → Prop
  | .holds (.event ev) n => Follows (s.queue n).pendingEvents ev
  | _ => True

/-- All events are of one domain of this server, and they come to a queue without gaps. -/
def Steady : Act → Prop
  | .create _ _ domain => ∀ e ∈ s.journal, e.domain = domain
  | .enqueue j => (s.worker j).InOrder s
  | _ => True

instance (l : List Event) (ev : Event) : Decidable (Follows l ev) := by
  unfold Follows
  split <;> infer_instance

instance (s : State) (w : Worker) : Decidable (w.InOrder s) := by
  unfold Worker.InOrder
  split <;> infer_instance

instance (s : State) : (a : Act) → Decidable (Steady s a)
  | .create _ _ domain => inferInstanceAs (Decidable (∀ e ∈ s.journal, e.domain = domain))
  | .enqueue j => inferInstanceAs (Decidable ((s.worker j).InOrder s))
  | .receive .. | .receiveEdu .. | .getQueue .. | .assign .. | .locate .. | .next .. | .check ..
  | .send .. | .trim .. | .commit .. => .isTrue trivial

/-! ## Offsets -/

/-- The offset `d` is not past the end of the journal, and the events before it are in a list. -/
structure Within (l : List Event) (d : Int) : Prop where
  le : d ≤ s.journal.length + 1
  covers : Covers s l d

structure Good (d : Int) : Prop where
  pos : 1 ≤ d
  within : Within s s.acknowledged d

end

/-- Nothing of what was known gets lost: the journal only gets events after its last one. -/
structure Extends (s t : State) : Prop where
  created : t.record.created = s.record.created
  count : s.record.count ≤ t.record.count
  length : s.journal.length ≤ t.journal.length
  journal : s.journal ⊆ t.journal
  later : ∀ e ∈ t.journal, e ∈ s.journal ∨ (s.journal.length : Int) < e.domainOffset
  acknowledged : s.acknowledged ⊆ t.acknowledged

variable {l : List Event} {d : Int} {it : RecordItem} {q : DestinationQueue}

theorem Extends.of_eq (hc : t.record.created = s.record.created)
    (hn : s.record.count ≤ t.record.count) (hj : t.journal = s.journal)
    (ha : t.acknowledged = s.acknowledged) : Extends s t where
  created := hc
  count := hn
  length := Nat.le_of_eq (congrArg List.length hj.symm)
  journal := by rw [hj]; exact fun _ he => he
  later := fun e he => .inl (hj ▸ he)
  acknowledged := by rw [ha]; exact fun _ he => he

theorem Within.mono {m : List Event} (h : Within s l d) (hst : Extends s t)
    (hlm : l ⊆ m) : Within t m d where
  le := by
    have h₁ := h.le
    have h₂ := hst.length
    omega
  covers := by
    intro d₀ hd₀ e he hge hlt
    rcases hst.later e he with hold | hnew
    · exact hlm (h.covers d₀ (hst.created ▸ hd₀) e hold hge hlt)
    · have := h.le
      omega

theorem Within.anti {d' : Int} (h : Within s l d) (hd : d' ≤ d) : Within s l d' where
  le := Int.le_trans hd h.le
  covers := fun d₀ hd₀ e he hge hlt => h.covers d₀ hd₀ e he hge (Int.lt_of_lt_of_le hlt hd)

theorem Good.mono (h : Good s d) (hst : Extends s t) : Good t d :=
  ⟨h.pos, h.within.mono hst hst.acknowledged⟩

/-! ## The invariant -/

structure Waits (s : State) (l : List Event) : Prop where
  numbered : ∃ c, Numbered Event.domainOffset c l
  journal : l ⊆ s.journal

def Worker.Ok (s : State) : Worker → Prop
  | .has (.event ev) => ev ∈ s.journal
  | .holds (.event ev) _ => ev ∈ s.journal
  | _ => True

def HasItem (tg : Target) (s : State) : Option Nat → Prop
  | some p => p < s.record.count
  | none => tg.hasRoom = false

/-- With an item, the offset after a transaction is one at which the record may stand once the
events of `l` are acknowledged. -/
def MayMove (s : State) (l : List Event) (it : Option Nat) (x : Taken) : Prop :=
  ∀ p, it = some p → p < s.record.count ∧
    ∀ last, x.pdus.getLast? = some last → Within s l (last.domainOffset + 1)

def Pc.Ok (tg : Target) (s : State) : Pc → Prop
  | .located it => HasItem tg s it
  | .ready it => HasItem tg s it
  | .sending it x => MayMove s (s.acknowledged ++ x.pdus) it x
  | .acked it x => MayMove s s.acknowledged it x
  | .trimmed it x => MayMove s s.acknowledged it x
  | _ => True

structure Sound (tg : Target) (s : State) : Prop where
  numbered : Numbered Event.domainOffset 1 s.journal
  domain : ∀ e ∈ s.journal, ∀ e' ∈ s.journal, e.domain = e'.domain
  copies : Copies (Good s) s.record
  queue : ∀ n, Waits s (s.queue n).pendingEvents
  worker : ∀ j, (s.worker j).Ok s
  proc : ∀ i, (s.proc i).Ok tg s

theorem sound_start (tg : Target) : Sound tg .start where
  numbered := .nil
  domain := fun _ he => (nomatch he)
  copies := .start
  queue := fun _ => ⟨⟨0, .nil⟩, fun _ he => (nomatch he)⟩
  worker := fun _ => trivial
  proc := fun _ => trivial

theorem Sound.noneSkipped (h : Sound tg s) : NoneSkipped s := by
  intro it hit
  have hgood : Good s it.domainOffset := by
    rcases hit with hdb | hcache | ⟨p, hp, rfl⟩
    · exact h.copies.db it hdb
    · exact h.copies.cache it hcache
    · exact h.copies.item p (h.copies.repo p hp)
  exact hgood.within.covers

theorem Waits.mono (h : Waits s l) (hst : Extends s t) : Waits t l :=
  ⟨h.numbered, fun _ he => hst.journal (h.journal he)⟩

theorem Worker.Ok.mono {w : Worker} (h : w.Ok s) (hst : Extends s t) : w.Ok t := by
  cases w with
  | idle => trivial
  | has msg | holds msg n =>
    cases msg with
    | event ev => exact hst.journal h
    | edu origin edu => trivial

theorem HasItem.mono {it : Option Nat} (h : HasItem tg s it) (hst : Extends s t) :
    HasItem tg t it := by
  cases it with
  | none => exact h
  | some p => exact Nat.lt_of_lt_of_le h hst.count

variable {x : Taken}

theorem MayMove.mono {m : List Event} {it : Option Nat} (h : MayMove s l it x) (hst : Extends s t)
    (hlm : l ⊆ m) : MayMove t m it x := by
  intro p hp
  obtain ⟨hlt, hlast⟩ := h p hp
  exact ⟨Nat.lt_of_lt_of_le hlt hst.count, fun last hl => (hlast last hl).mono hst hlm⟩

theorem MayMove.acknowledge {it : Option Nat} (h : MayMove s (s.acknowledged ++ x.pdus) it x) :
    MayMove { s with acknowledged := s.acknowledged ++ x.pdus } (s.acknowledged ++ x.pdus) it x :=
  h.mono ⟨rfl, Nat.le_refl _, Nat.le_refl _, fun _ he => he, fun _ he => .inl he,
    subset_append_left _ _⟩ fun _ he => he

theorem Pc.Ok.mono {pc : Pc} (h : pc.Ok tg s) (hst : Extends s t) : pc.Ok tg t := by
  cases pc with
  | located it => exact HasItem.mono h hst
  | ready it => exact HasItem.mono h hst
  | sending it x =>
    refine MayMove.mono h hst ?_
    exact append_subset.mpr ⟨fun _ he => mem_append_left _ (hst.acknowledged he),
      subset_append_right _ _⟩
  | acked it x | trimmed it x => exact MayMove.mono h hst hst.acknowledged
  | top => trivial
  | empty => trivial
  | done => trivial

theorem Pc.Ok.of_count {pc : Pc} (h : pc.Ok tg s) (h0 : s.record.count = 0) : pc.Ok tg t := by
  have hnone : ∀ {l : List Event} {it : Option Nat} {x : Taken}, MayMove s l it x →
      ∀ m, MayMove t m it x := by
    intro l it x hx m p hp
    have := (hx p hp).1
    omega
  have hitem : ∀ {it : Option Nat}, HasItem tg s it → HasItem tg t it := by
    intro it hit
    cases it with
    | none => exact hit
    | some p =>
      have : p < s.record.count := hit
      omega
  cases pc with
  | located it => exact hitem h
  | ready it => exact hitem h
  | sending it x | acked it x | trimmed it x => exact hnone h _
  | top => trivial
  | empty => trivial
  | done => trivial

/-! ## Transactions -/

theorem numbered_getPendingEvs (h : Sound tg s) (hd : 1 ≤ d) (origin eventID : String)
    (limit : Nat) :
    Numbered Event.domainOffset d (getPendingEvs s.journal origin d eventID limit) ∧
      getPendingEvs s.journal origin d eventID limit ⊆ s.journal := by
  have hd0 : ¬ (d = 0 ∧ eventID ≠ "") := fun h0 => by omega
  simp only [getPendingEvs, if_neg hd0]
  refine ⟨?_, fun e he => (mem_filter.mp (mem_of_mem_take he)).1⟩
  apply Numbered.take
  by_cases hany : ∃ e ∈ s.journal, e.domain = origin
  · obtain ⟨e₀, he₀, horigin⟩ := hany
    have hfilter : s.journal.filter (fun e => e.domain = origin ∧ d ≤ e.domainOffset) =
        s.journal.filter (fun e => d ≤ e.domainOffset) := by
      apply filter_congr
      intro e he
      simp [h.domain e he e₀ he₀, horigin]
    rw [hfilter, h.numbered.filter_le hd]
    have hdrop := h.numbered.drop (d - 1).toNat
    have hfrom : 1 + ((d - 1).toNat : Int) = d := by omega
    rwa [hfrom] at hdrop
  · have hfilter : s.journal.filter (fun e => e.domain = origin ∧ d ≤ e.domainOffset) = [] := by
      rw [filter_eq_nil_iff]
      intro e he
      simp only [decide_eq_true_eq]
      exact fun hbad => hany ⟨e, he, hbad.1⟩
    rw [hfilter]
    exact .nil

theorem numbered_waiting (h : Sound tg s) (hq : Waits s q.pendingEvents)
    (w : World) (hpos : 1 ≤ it.domainOffset) :
    Numbered Event.domainOffset it.domainOffset (q.waiting s.journal w it).1 ∧
      (q.waiting s.journal w it).1 ⊆ s.journal := by
  unfold DestinationQueue.waiting
  split_ifs with hhead
  · obtain ⟨c, hc⟩ := hq.numbered
    obtain ⟨ev, hev, hoff⟩ := Option.map_eq_some_iff.mp hhead
    have hfrom : c = it.domainOffset := (hc.head? hev).symm.trans hoff
    subst hfrom
    exact ⟨hc.take _, fun e he => hq.journal (mem_of_mem_take he)⟩
  · exact numbered_getPendingEvs h hpos _ _ _
  · exact ⟨.nil, fun _ he => (nomatch he)⟩

theorem within_of_numbered (h : Sound tg s) (hgood : Good s d) {pdus : List Event}
    (hnum : Numbered Event.domainOffset d pdus) (hsub : pdus ⊆ s.journal) {last : Event}
    (hlast : pdus.getLast? = some last) :
    Within s (s.acknowledged ++ pdus) (last.domainOffset + 1) := by
  refine ⟨?_, fun d₀ hd₀ e he hge hlt => ?_⟩
  · have := (h.numbered.bounds (hsub (mem_of_getLast? hlast))).2
    omega
  · by_cases hold : e.domainOffset < d
    · exact mem_append_left _ (hgood.within.covers d₀ hd₀ e he hge hold)
    · have hend := hnum.getLast? hlast
      exact mem_append_right _
        (h.numbered.mem_of_between hnum hsub he (by omega) (by omega))

theorem within_of_takes (h : Sound tg s) (hq : Waits s q.pendingEvents) {w : World}
    (hgood : Good s it.domainOffset) (hx : q.Takes s.journal w (some it) (some x)) {last : Event}
    (hlast : x.pdus.getLast? = some last) :
    Within s (s.acknowledged ++ x.pdus) (last.domainOffset + 1) := by
  cases hx with
  | edus hpdus =>
    rw [hpdus] at hlast
    exact (nomatch hlast)
  | @state pdus d hd =>
    have hle : last.domainOffset + 1 ≤ it.domainOffset := by
      have hkept := (mem_filter.mp (mem_of_getLast? hlast)).2
      have hpos := hgood.pos
      have hoff : d = it.domainOffset := hd
      simp only [decide_eq_true_eq] at hkept
      omega
    exact (hgood.within.anti hle).mono (.of_eq rfl (Nat.le_refl _) rfl rfl) (subset_append_left _ _)
  | events hr hw =>
    cases hr
    obtain ⟨hnum, hsub⟩ := numbered_waiting h hq w hgood.pos
    rw [hw] at hnum hsub
    exact within_of_numbered h hgood hnum hsub hlast

/-! ## Changes of the state -/

namespace Sound

variable {msg : Msg} {i : Nat} {it : Option Nat}

section
variable (h : Sound tg s) (hj : t.journal = s.journal) (ha : t.acknowledged = s.acknowledged)
  (hr : t.record = s.record)
include h hj ha hr

theorem frame (hqueue : ∀ n, Waits s (t.queue n).pendingEvents) (hworker : ∀ j, (t.worker j).Ok s)
    (hproc : ∀ i, (t.proc i).Ok tg s) : Sound tg t := by
  have hst : Extends s t :=
    .of_eq (by rw [hr]) (Nat.le_of_eq (congrArg SendRecRepo.count hr.symm)) hj ha
  refine ⟨hj ▸ h.numbered, hj ▸ h.domain, ?_, fun n => (hqueue n).mono hst,
    fun j => (hworker j).mono hst, fun i => (hproc i).mono hst⟩
  rw [hr]
  exact h.copies.mono fun d hd => hd.mono hst

theorem same (hq : t.queue = s.queue) (hw : t.worker = s.worker) (hp : t.proc = s.proc) :
    Sound tg t :=
  h.frame hj ha hr (hq ▸ h.queue) (hw ▸ h.worker) (hp ▸ h.proc)

end

variable (h : Sound tg s)
include h

theorem setRecord {r : SendRecRepo} (hr : Copies (Good s) r) (hn : s.record.count ≤ r.count)
    (hc : r.created = s.record.created) : Sound tg { s with record := r } := by
  have hst : Extends s { s with record := r } := .of_eq hc hn rfl rfl
  exact ⟨h.numbered, h.domain, hr.mono fun d hd => hd.mono hst, fun n => (h.queue n).mono hst,
    fun j => (h.worker j).mono hst, fun i => (h.proc i).mono hst⟩

theorem setPc (i : Nat) (pc : Pc) (hpc : pc.Ok tg s) : Sound tg (s.setPc i pc) :=
  h.frame rfl rfl rfl h.queue h.worker
    ((Function.forall_update_iff s.proc fun _ pc => pc.Ok tg s).mpr ⟨hpc, fun k _ => h.proc k⟩)

theorem setWorker (j : Nat) (w : Worker) (hw : w.Ok s) : Sound tg (s.setWorker j w) :=
  h.frame rfl rfl rfl h.queue
    ((Function.forall_update_iff s.worker fun _ w => w.Ok s).mpr ⟨hw, fun k _ => h.worker k⟩)
    h.proc

theorem setQueue (n : Nat) (q : DestinationQueue) (hq : Waits s q.pendingEvents) :
    Sound tg (s.setQueue n q) :=
  h.frame rfl rfl rfl ((Function.forall_update_iff s.queue fun _ q => Waits s q.pendingEvents).mpr
      ⟨hq, fun k _ => h.queue k⟩)
    h.worker h.proc

theorem unassign : Sound tg s.unassign :=
  (h.setRecord h.copies.unassign (Nat.le_refl _) rfl).same rfl rfl rfl rfl rfl rfl

theorem fail : Sound tg (s.fail tg) := by
  unfold State.fail
  split_ifs
  · exact h.unassign
  · exact h

theorem release (i : Nat) : Sound tg (s.release i) :=
  h.unassign.same rfl rfl rfl rfl rfl rfl

theorem go (n : Nat) : Sound tg (s.go n) :=
  (h.setPc s.procCount .top trivial).same rfl rfl rfl rfl rfl rfl

theorem acknowledge (l : List Event) : Sound tg { s with acknowledged := s.acknowledged ++ l } := by
  have hst : Extends s { s with acknowledged := s.acknowledged ++ l } :=
    ⟨rfl, Nat.le_refl _, Nat.le_refl _, fun _ he => he, fun _ he => .inl he, subset_append_left _ _⟩
  exact ⟨h.numbered, h.domain, h.copies.mono fun d hd => hd.mono hst,
    fun n => (h.queue n).mono hst, fun j => (h.worker j).mono hst, fun i => (h.proc i).mono hst⟩

/-! ## Steps -/

theorem create {domain : String} (hc : ∀ e ∈ s.journal, e.domain = domain) (eventID type : String) :
    Sound tg { s with journal := s.journal ++ [⟨eventID, type, domain, s.nextOffset domain⟩] } := by
  have hoff : s.nextOffset domain = 1 + s.journal.length := by
    have hall : s.journal.filter (·.domain = domain) = s.journal := by
      rw [filter_eq_self]
      intro e he
      exact decide_eq_true (hc e he)
    rw [State.nextOffset, hall]
    omega
  have hst : Extends s
      { s with journal := s.journal ++ [⟨eventID, type, domain, s.nextOffset domain⟩] } := by
    refine ⟨rfl, Nat.le_refl _, ?_, subset_append_left _ _, fun e he => ?_, fun _ he => he⟩
    · simp
    · rcases mem_append.mp he with hold | hnew
      · exact .inl hold
      · rw [mem_singleton.mp hnew]
        dsimp only
        omega
  have hdomain : ∀ e ∈ s.journal ++ [⟨eventID, type, domain, s.nextOffset domain⟩],
      e.domain = domain := by
    intro e he
    rcases mem_append.mp he with hold | hnew
    · exact hc e hold
    · rw [mem_singleton.mp hnew]
  exact ⟨h.numbered.concat hoff, fun e he e' he' => (hdomain e he).trans (hdomain e' he').symm,
    h.copies.mono fun d hd => hd.mono hst, fun n => (h.queue n).mono hst,
    fun j => (h.worker j).mono hst, fun i => (h.proc i).mono hst⟩

theorem incrPendingSize {ev : Event} (hev : ev ∈ s.journal) (f : Faults) :
    Sound tg { s with record := s.record.incrPendingSize f 1 ev.domainOffset } := by
  obtain ⟨hcount, ⟨hcreated, hcopies⟩ | ⟨h0, hcreated, hcopies⟩⟩ :=
    h.copies.incrPendingSize f 1 ev.domainOffset
  · exact h.setRecord hcopies (Nat.le_of_eq hcount.symm) hcreated
  · have hbounds := h.numbered.bounds hev
    refine ⟨h.numbered, h.domain, hcopies _ ⟨hbounds.1, ?_, ?_⟩, fun n => ⟨(h.queue n).numbered,
      (h.queue n).journal⟩, fun j => h.worker j, fun i => (h.proc i).of_count h0⟩
    · show ev.domainOffset ≤ s.journal.length + 1
      omega
    · intro d₀ hd₀ e he hge hlt
      have : ev.domainOffset = d₀ := Option.some.inj (hcreated.symm.trans hd₀)
      omega

theorem getDestinationQueue {j : Nat} (hmsg : ∀ n, (Worker.holds msg n).Ok s) :
    Sound tg (s.getDestinationQueue j msg) := by
  unfold State.getDestinationQueue
  split
  · exact h.setWorker j _ (hmsg _)
  · have hqueue := (h.setWorker j (.holds msg s.queueCount) (hmsg _)).setQueue s.queueCount
      ⟨msg.origin, false, [], []⟩ ⟨⟨0, .nil⟩, fun _ he => (nomatch he)⟩
    exact hqueue.same rfl rfl rfl rfl rfl rfl

theorem sendMsg {n : Nat} (hq : Waits s (State.addMsg (s.queue n) msg).pendingEvents) :
    Sound tg (s.sendMsg msg n) := by
  unfold State.sendMsg
  dsimp only
  split_ifs
  · exact h.setQueue n _ hq
  · exact go (h.setQueue n { State.addMsg (s.queue n) msg with running := true } hq) n

theorem waits_addMsg {n : Nat} (hmsg : (Worker.holds msg n).Ok s)
    (hc : ∀ ev, msg = .event ev → Follows (s.queue n).pendingEvents ev) :
    Waits s (State.addMsg (s.queue n) msg).pendingEvents := by
  obtain ⟨⟨c, hnum⟩, hsub⟩ := h.queue n
  cases msg with
  | edu origin edu => exact ⟨⟨c, hnum⟩, hsub⟩
  | event ev =>
    refine ⟨?_, append_subset.mpr ⟨hsub, fun e he => mem_singleton.mp he ▸ hmsg⟩⟩
    cases hlast : (s.queue n).pendingEvents.getLast? with
    | none =>
      have hnil := getLast?_eq_none_iff.mp hlast
      refine ⟨ev.domainOffset, ?_⟩
      show Numbered _ _ ((s.queue n).pendingEvents ++ [ev])
      rw [hnil]
      exact Numbered.nil.concat (by simp)
    | some last =>
      refine ⟨c, hnum.concat ?_⟩
      have hnext := hc ev rfl
      rw [Follows, hlast] at hnext
      have hend := hnum.getLast? hlast
      omega

theorem assign (f : Faults) (i : Nat) {p : Nat} (hp : (s.record.getRec f).2 = some p) :
    Sound tg ({ s with record := (s.record.getRec f).1, assigned := true }.setPc i
      (.located (some p))) := by
  obtain ⟨hcopies, hitem, hcount, hcreated⟩ := h.copies.getRec f
  have hrecord := h.setRecord hcopies hcount hcreated
  exact (hrecord.setPc i (.located (some p)) (hitem p hp)).same rfl rfl rfl rfl rfl rfl

theorem next (hit : HasItem tg s it) (w : World) (f : Faults) : Sound tg (s.next tg i it w f) := by
  obtain ⟨hpending, htakes, hstored⟩ :=
    (s.queue (s.queueOf i)).next_takes s.journal w (it.map s.record.item) tg
  have hnone : it.map s.record.item = none → tg.hasRoom = false := by
    cases it with
    | none => exact fun _ => hit
    | some p => nofun
  unfold State.next
  dsimp only
  rw [hstored hnone]
  have hq := h.queue (s.queueOf i)
  rw [← hpending] at hq
  refine (h.setQueue _ _ hq).setPc i _ ?_
  refine Pc.Ok.mono (s := s) ?_ (.of_eq rfl (Nat.le_refl _) rfl rfl)
  generalize ((s.queue (s.queueOf i)).next tg s.journal w (it.map s.record.item)).2.1 = x at htakes
  unfold State.afterNext
  split
  · split_ifs
    · trivial
    · intro p hp
      subst hp
      exact ⟨hit, fun last => within_of_takes h (h.queue _) (h.copies.item p hit) htakes⟩
  · trivial

theorem trim (hx : MayMove s s.acknowledged it x) (ht : s.trim i it x = some t) : Sound tg t := by
  obtain ⟨⟨c, hnum⟩, hsub⟩ := h.queue (s.queueOf i)
  unfold State.trim at ht
  dsimp only at ht
  split_ifs at ht
  cases ht
  have hq : Waits s ((s.queue (s.queueOf i)).pendingEvents.drop x.usePDUSize) :=
    ⟨⟨_, hnum.drop x.usePDUSize⟩, fun e he => hsub (mem_of_mem_drop he)⟩
  refine (h.setQueue _ _ hq).setPc i (.trimmed it x) ?_
  exact hx.mono (.of_eq rfl (Nat.le_refl _) rfl rfl) fun _ he => he

theorem commit (hx : MayMove s s.acknowledged it x) (f : Faults) :
    Sound tg (s.commit i it x f) := by
  unfold State.commit
  split
  · rename_i p last hlast
    obtain ⟨hp, hwithin⟩ := hx p rfl
    have hold := h.copies.item p hp
    have hnew : Good s (State.newOffset (s.record.item p) last) := by
      unfold State.newOffset
      split_ifs with hgt
      · have := hold.pos
        exact ⟨by omega, hwithin last hlast⟩
      · exact hold
    obtain ⟨hcopies, hcount, hcreated⟩ := h.copies.updateDomainOffset f x.eventID hnew
      x.decrementSize
    exact (h.setRecord hcopies (Nat.le_of_eq hcount.symm) hcreated).setPc i .top trivial
  · exact h.setPc i .top trivial

end Sound

theorem Sound.step (h : Sound tg s) (hc : Steady s a) (ht : Steps tg s a t) : Sound tg t := by
  have hproc : ∀ {i pc}, s.proc i = pc → pc.Ok tg s := fun hpc => hpc ▸ h.proc _
  have hworker : ∀ {j w}, s.worker j = w → w.Ok s := fun hw => hw ▸ h.worker _
  cases ht with
  | create eventID type domain => exact h.create hc eventID type
  | receive f hev => exact (h.incrPendingSize hev f).setWorker _ (.has (.event _)) hev
  | receiveEdu j origin edu => exact h.setWorker j (.has (.edu origin edu)) trivial
  | @getQueue j msg hw =>
    have hmsg := hworker hw
    exact h.getDestinationQueue fun n => by cases msg <;> exact hmsg
  | @enqueue j n msg hw =>
    have hq : Waits s (State.addMsg (s.queue n) msg).pendingEvents := by
      refine h.waits_addMsg (hworker hw) fun ev hev => ?_
      subst hev
      simpa only [Steady, Worker.InOrder, hw] using hc
    exact (h.sendMsg hq).setWorker j .idle trivial
  | pass hpc hroom => exact h.setPc _ (.located none) hroom
  | assign hpc hp => exact h.assign _ _ hp
  | unassigned hpc | finish hpc => exact (h.release _).setPc _ .done trivial
  | locate hpc =>
    have hit : HasItem tg s _ := hproc hpc
    exact h.setPc _ (.ready _) hit
  | unlocated hpc | again hpc | unsent hpc => exact h.fail.setPc _ .top trivial
  | next w f hpc => exact h.next (hproc hpc) w f
  | send hpc =>
    exact (h.acknowledge _).setPc _ (.acked _ _) (MayMove.acknowledge (hproc hpc))
  | trim hpc ht => exact h.trim (hproc hpc) ht
  | commit f hpc => exact h.commit (hproc hpc) f

/-- **No event is skipped**, in every run with one domain of this server in which the events come
without gaps. -/
theorem none_skipped {as : List Act} (hm : RunMeets (step tg) Steady .start as)
    (h : run (step tg) .start as = some t) : NoneSkipped t := by
  have hsound : Sound tg t :=
    run_invariant (fun hs hc ht => hs.step hc (.of_step ht)) (sound_start tg) hm h
  exact hsound.noneSkipped

/-! ### Two domains of this server -/

def fromA (n : Nat) : Event := ⟨"$a" ++ toString n, "m.room.message", "a", n⟩

def fromB (n : Nat) : Event := ⟨"$b" ++ toString n, "m.room.message", "b", n⟩

theorem none_skipped_two :
    ∃ t, run (step serverY) .start (submit (fromA 1) ++ takes 0 ++ sends 0 ++ submit (fromA 2) ++
        takes 0 ++ [.send 0 false] ++ takes 0 ++ sends 0) = some t ∧
      t.record.db.map RecordItem.domainOffset = some 3 ∧ NoneSkipped t := by
  have hm : RunMeets (step serverY) Steady .start (submit (fromA 1) ++ takes 0 ++ sends 0 ++
    submit (fromA 2) ++ takes 0 ++ [.send 0 false] ++ takes 0 ++ sends 0) := by decide
  exact ⟨_, rfl, rfl, none_skipped hm rfl⟩

/-- With the event of one domain sent, the record is past the first event of the other; the query
brings only the second one. And in one queue an event between two others is not looked for. -/
theorem skipped :
    (∃ t, run (step serverY) .start (submit (fromA 1) ++ takes 0 ++ sends 0 ++ submit (fromB 1) ++
        submit (fromB 2) ++ takes 1 ++ sends 1) = some t ∧
      t.record.db.map RecordItem.domainOffset = some 3 ∧ t.acknowledged = [fromA 1, fromB 2] ∧
      ¬ NoneSkipped t) ∧
    ∃ t, run (step serverY) .start (([1, 2, 3].map fun n => .create (fromA n).eventID
          "m.room.message" "a") ++ bring (fromA 1) ++ bring (fromA 3) ++ takes 0 ++ sends 0) =
        some t ∧
      t.record.db.map RecordItem.domainOffset = some 4 ∧ t.acknowledged = [fromA 1, fromA 3] ∧
      ¬ NoneSkipped t := by
  refine ⟨⟨_, rfl, rfl, rfl, fun h => ?_⟩, ⟨_, rfl, rfl, rfl, fun h => ?_⟩⟩
  · have hmem := h _ (.inl rfl) 1 rfl (fromB 1) (by decide) (by decide) (by decide)
    exact absurd hmem (by decide)
  · have hmem := h _ (.inl rfl) 1 rfl (fromA 2) (by decide) (by decide) (by decide)
    exact absurd hmem (by decide)

end Ligase.FedSender

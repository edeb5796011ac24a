import Ligase.FedSender.InFlight

/-!
# What stays in the queue

An acknowledged transaction is taken off `pendingEvents` by its number of events. That number is 0
if the events came from the room server and not from the list, so that an event may be sent and stay
in the list, below the offset of the record.

* **`queue_holds_unsent`**: the runs in which only events that were not sent stay.
-/

namespace Ligase.FedSender

open Lib List Function State Option

variable {tg : Target} {n : Nat} {origin : String}

/-! ## Watching a queue -/

def Worker.gives (n : Nat) : Worker → List Event
  | .holds (.event ev) m => if m = n then [ev] else []
  | _ => []

structure Watched where
  state : State
  /-- the events given to the queue -/
  sent : List Event

def gives (n : Nat) (s : State) : Act → List Event
  | .enqueue j => (s.worker j).gives n
  | _ => []

def watchedStep (tg : Target) (n : Nat) (w : Watched) (a : Act) : Option Watched :=
  (step tg w.state a).map fun t => ⟨t, w.sent ++ gives n w.state a⟩

/-- The process has just started; the record and what was sent before may be anything. -/
structure Fresh (s : State) : Prop where
  queue : ∀ m, (s.queue m).pendingEvents = []
  queues : ∀ d, s.queues d = none
  worker : ∀ j, s.worker j = .idle
  proc : ∀ i, s.proc i = .done

variable {s t : State} {x : Taken} {i : Nat} {it : Option Nat}

theorem fresh_start : Fresh .start := ⟨fun _ => rfl, fun _ => rfl, fun _ => rfl, fun _ => rfl⟩

/-! ## Conditions -/

def Increasing (n : Nat) (w : Watched) (a : Act) : Prop :=
  ∀ ev ∈ gives n w.state a, ∀ e ∈ w.sent, e.domainOffset < ev.domainOffset

instance (w : Watched) (a : Act) : Decidable (Increasing n w a) :=
  inferInstanceAs (Decidable (∀ ev ∈ gives n w.state a, ∀ e ∈ w.sent, _ < _))

def Pc.transaction : Pc → Option (Option Nat × Taken)
  | .sending it x => some (it, x)
  | .acked it x => some (it, x)
  | .trimmed it x => some (it, x)
  | _ => none

/-- The event comes after those of the transaction, and it is not below the offset of the record. -/
def Succeeds (s : State) (it : Option Nat) (x : Taken) (ev : Event) : Prop :=
  (∀ e ∈ x.pdus, e.domainOffset < ev.domainOffset) ∧
    ∀ p ∈ it, (s.record.item p).domainOffset ≤ ev.domainOffset

instance (s : State) (it : Option Nat) (x : Taken) (ev : Event) : Decidable (Succeeds s it x ev) :=
  inferInstanceAs (Decidable (_ ∧ _))

/-- When a transaction is taken, the list starts where the record stands, and not at 0; an event
that is given to the queue was not sent before and follows the transaction under way. -/
def Consecutive (n : Nat) (s : State) : Act → Prop
  | .enqueue j =>
    ∀ ev ∈ (s.worker j).gives n, ev ∉ s.acknowledged ∧
      ∀ i < s.procCount, s.queueOf i = n → ∀ y ∈ (s.proc i).transaction, Succeeds s y.1 y.2 ev
  | .next i _ _ =>
    ∀ it ∈ (s.proc i).taking, s.queueOf i = n → ∀ e ∈ (s.queue n).pendingEvents.head?,
      e.domainOffset ≠ 0 ∧ ∀ p ∈ it, (s.record.item p).domainOffset = e.domainOffset
  | _ => True

instance (s : State) : (a : Act) → Decidable (Consecutive n s a)
  | .enqueue j => inferInstanceAs (Decidable (∀ ev ∈ (s.worker j).gives n, _))
  | .next i _ _ => inferInstanceAs (Decidable (∀ it ∈ (s.proc i).taking, _))
  | .create .. | .receive .. | .receiveEdu .. | .getQueue _ | .assign .. | .locate .. | .check _
  | .send .. | .trim _ | .commit .. => .isTrue trivial

theorem Succeeds.newOffset_le {p : Nat} {ev last : Event} (h : Succeeds s (some p) x ev)
    (hlast : x.pdus.getLast? = some last) :
    newOffset (s.record.item p) last ≤ ev.domainOffset := by
  have hpdus := h.1 last (mem_of_getLast? hlast)
  have hrec := h.2 p rfl
  unfold newOffset
  split_ifs <;> omega

theorem Succeeds.congr {ev : Event} (h : Succeeds s it x ev) (hitem : ∀ p, it = some p →
      (t.record.item p).domainOffset = (s.record.item p).domainOffset) : Succeeds t it x ev :=
  ⟨h.1, fun p hp => hitem p hp ▸ h.2 p hp⟩

/-! ## Transactions -/

theorem succeeds_of_takes {q : DestinationQueue} {w : World}
    (hq : q.pendingEvents.Pairwise fun d e => d.domainOffset < e.domainOffset)
    (hhead : ∀ e ∈ q.pendingEvents.head?,
      e.domainOffset ≠ 0 ∧ ∀ p ∈ it, (s.record.item p).domainOffset = e.domainOffset)
    (hx : q.Takes s.journal w (it.map s.record.item) (some x)) :
    x.usePDUSize ≤ q.pendingEvents.length ∧
      ∀ ev ∈ q.pendingEvents.drop x.usePDUSize, Succeeds s it x ev := by
  cases hpending : q.pendingEvents with
  | nil =>
    cases hx with
    | edus _ huse => simp [huse]
    | state => simp [DestinationQueue.stateTransaction]
    | events _ hw =>
      unfold DestinationQueue.waiting at hw
      rw [hpending] at hw
      have huse : 0 = x.usePDUSize := by
        split_ifs at hw with hhead
        · cases hhead
        · exact (Prod.mk.inj hw).2
        · exact (Prod.mk.inj hw).2
      simp [← huse]
  | cons e es =>
    rw [hpending] at hq hhead
    obtain ⟨hpos, hrec⟩ := hhead e rfl
    have hle : ∀ ev ∈ e :: es, e.domainOffset ≤ ev.domainOffset :=
      forall_mem_cons.mpr ⟨Int.le_refl _, fun ev hev => Int.le_of_lt (rel_of_pairwise_cons hq hev)⟩
    have hit : ∀ ev ∈ e :: es, ∀ p ∈ it, (s.record.item p).domainOffset ≤ ev.domainOffset :=
      fun ev hev p hp => hrec p hp ▸ hle ev hev
    cases hx with
    | edus hpdus huse =>
      rw [huse]
      exact ⟨Nat.zero_le _, fun ev hev => ⟨by simp [hpdus], hit ev hev⟩⟩
    | @state pdus d hd =>
      refine ⟨Nat.zero_le _, fun ev hev => ⟨fun e' he' => ?_, hit ev hev⟩⟩
      have hd : d = e.domainOffset := by
        rw [hd, hpending]
        cases it with
        | none => rfl
        | some p => exact hrec p rfl
      have hkept := (mem_filter.mp he').2
      have hev' := hle ev hev
      simp only [decide_eq_true_eq] at hkept
      omega
    | @events r _ hr hw =>
      obtain ⟨p, rfl, rfl⟩ := map_eq_some_iff.mp hr
      unfold DestinationQueue.waiting at hw
      rw [hpending, if_pos (by simp [hrec p rfl])] at hw
      obtain ⟨hpdus, huse⟩ := Prod.mk.inj hw
      obtain ⟨front, back, hl, hfront⟩ : ∃ front back, e :: es = front ++ back ∧
          take batchSize (e :: es) = front := ⟨_, _, (take_append_drop _ _).symm, rfl⟩
      rw [← huse, hfront]
      rw [hfront] at hpdus
      rw [hl] at hq hit ⊢
      rw [drop_left]
      exact ⟨by simp, fun ev hev => ⟨fun e' he' => (pairwise_append.mp hq).2.2 e' (hpdus ▸ he') ev
        hev, hit ev (mem_append_right _ hev)⟩⟩

/-! ## The order of the list -/

def Placed (s : State) (pending : List Event) : Pc → Prop
  | .sending it x | .acked it x =>
    x.usePDUSize ≤ pending.length ∧ ∀ ev ∈ pending.drop x.usePDUSize, Succeeds s it x ev
  | .trimmed it x => ∀ ev ∈ pending, Succeeds s it x ev
  | _ => True

/-- The list is what was given last; what was sent stays in it until it is taken off. -/
structure Lined (origin : String) (n : Nat) (w : Watched) : Prop where
  sole : Sole origin w.state
  increasing : w.sent.Pairwise fun d e => d.domainOffset < e.domainOffset
  last : (w.state.queue n).pendingEvents <:+ w.sent
  proc : ∀ i, w.state.queueOf i = n →
    Placed w.state (w.state.queue n).pendingEvents (w.state.proc i)
  unsent : w.state.queues origin = some n → ∀ ev ∈ (w.state.queue n).pendingEvents,
    ev ∈ w.state.acknowledged → ∃ i it x, w.state.queueOf i = n ∧ w.state.proc i = .acked it x ∧
      ev ∉ (w.state.queue n).pendingEvents.drop x.usePDUSize

namespace Lined

variable {w : Watched} {pc : Pc} (h : Lined origin n w)
include h

theorem not_acknowledged (hn : w.state.queueOf i = n) (hlive : w.state.proc i ≠ .done)
    (hpc : ∀ it x, w.state.proc i ≠ .acked it x) {ev : Event}
    (hev : ev ∈ (w.state.queue n).pendingEvents) : ev ∉ w.state.acknowledged := by
  intro hack
  obtain ⟨k, it, x, -, hk, -⟩ := h.unsent (hn ▸ h.sole.live i hlive) ev hev hack
  have hki : k = i := h.sole.one k i (by rw [hk]; exact nofun) hlive
  rw [hki] at hk
  exact hpc it x hk

variable (ht : Turn w.state t i pc) (hsole : Sole origin t)
include ht hsole

theorem turn (hown : w.state.queueOf i = n → (t.queue n).pendingEvents <:+ w.sent ∧
      Placed t (t.queue n).pendingEvents pc ∧
      ∀ ev ∈ (t.queue n).pendingEvents, ev ∈ t.acknowledged →
        ∃ it x, pc = .acked it x ∧ ev ∉ (t.queue n).pendingEvents.drop x.usePDUSize) :
    Lined origin n ⟨t, w.sent⟩ := by
  refine ⟨hsole, h.increasing, ?_, fun k hk => ?_, fun hn ev hev hack => ?_⟩
  · by_cases hn : w.state.queueOf i = n
    · exact (hown hn).1
    · exact (ht.other n (Ne.symm hn)).symm ▸ h.last
  · rw [ht.proc]
    rw [ht.queueOf] at hk
    by_cases hki : k = i
    · subst hki
      rw [update_self]
      exact (hown hk).2.1
    · have hdone : w.state.proc k = .done := by
        by_contra hne
        exact hki (h.sole.one k i hne ht.live)
      rw [update_of_ne hki, hdone]
      trivial
  · have hi : w.state.queueOf i = n := by
      have hs : w.state.queues origin = some n := by
        rcases ht.queues with heq | ⟨-, hsub⟩
        · exact heq ▸ hn
        · exact hsub _ _ hn
      exact some.inj ((h.sole.live i ht.live).symm.trans hs)
    obtain ⟨it, x, hx, hnot⟩ := (hown hi).2.2 ev hev hack
    exact ⟨i, it, x, ht.queueOf ▸ hi, by rw [ht.proc, update_self, hx], hnot⟩

theorem rest (hq : (t.queue n).pendingEvents = (w.state.queue n).pendingEvents)
    (hack : t.acknowledged = w.state.acknowledged)
    (hnot : ∀ it x, w.state.proc i ≠ .acked it x) (hpc : pc.transaction = none) :
    Lined origin n ⟨t, w.sent⟩ := by
  refine h.turn ht hsole fun hn => ⟨hq ▸ h.last, ?_, fun ev hev hev' => ?_⟩
  · cases pc <;> trivial
  · rw [hq] at hev
    rw [hack] at hev'
    exact absurd hev' (h.not_acknowledged hn ht.live hnot hev)

end Lined

/-! ## Goroutines -/

namespace Lined

variable {w : Watched} (h : Lined origin n w)
include h

theorem next {wd : World} {f : Faults} (hpc : w.state.proc i = .ready it)
    (hsole : Sole origin (w.state.next tg i it wd f))
    (hc : Consecutive n w.state (.next i wd f)) :
    Lined origin n ⟨w.state.next tg i it wd f, w.sent⟩ := by
  obtain ⟨hturn, hrec, hack, hqueue⟩ := next_turn tg wd f (hpc ▸ nofun : w.state.proc i ≠ .done)
  obtain ⟨hpending, htakes, -⟩ := (w.state.queue (w.state.queueOf i)).next_takes w.state.journal wd
    (it.map w.state.record.item) tg
  refine h.turn hturn hsole fun hn => ?_
  subst hn
  have hq : ((w.state.next tg i it wd f).queue (w.state.queueOf i)).pendingEvents =
      (w.state.queue (w.state.queueOf i)).pendingEvents := by
    rw [hqueue, update_self]
    exact hpending
  rw [hq, hack]
  refine ⟨h.last, ?_, fun ev hev hev' =>
    absurd hev' (h.not_acknowledged rfl hturn.live (by simp [hpc]) hev)⟩
  cases hx : (w.state.taken tg i it wd).2.1 with
  | none => trivial
  | some x =>
    simp only [afterNext]
    split_ifs
    · trivial
    · unfold taken at hx
      rw [hx] at htakes
      obtain ⟨hlen, hsucceeds⟩ := succeeds_of_takes (h.increasing.sublist h.last.sublist)
        (hc it (by simp [hpc, Pc.taking]) rfl) htakes
      exact ⟨hlen, fun ev hev => (hsucceeds ev hev).congr fun p hp => by rw [hrec p hp]⟩

theorem send (hpc : w.state.proc i = .sending it x)
    (hturn : Turn w.state (setPc { w.state with acknowledged := w.state.acknowledged ++ x.pdus } i
      (.acked it x)) i (.acked it x))
    (hsole : Sole origin (setPc { w.state with acknowledged := w.state.acknowledged ++ x.pdus } i
      (.acked it x))) :
    Lined origin n ⟨setPc { w.state with acknowledged := w.state.acknowledged ++ x.pdus } i
      (.acked it x), w.sent⟩ := by
  refine h.turn hturn hsole fun hn => ?_
  have hplaced := h.proc i hn
  rw [hpc] at hplaced
  refine ⟨h.last, hplaced, fun ev hev hack => ⟨it, x, rfl, fun hdrop => ?_⟩⟩
  have hold : ev ∉ w.state.acknowledged :=
    h.not_acknowledged hn hturn.live (by simp [hpc]) hev
  -- what is left behind comes after the events that were sent
  have hmem : ev ∈ x.pdus := (mem_append.mp hack).resolve_left hold
  exact absurd ((hplaced.2 ev hdrop).1 ev hmem) (Int.lt_irrefl _)

theorem trim (hpc : w.state.proc i = .acked it x) (hsole : Sole origin t)
    (ht : w.state.trim i it x = some t) : Lined origin n ⟨t, w.sent⟩ := by
  obtain ⟨hturn, hrec, hack, -, hq⟩ := trim_turn (hpc ▸ nofun : w.state.proc i ≠ .done) ht
  refine h.turn hturn hsole fun hn => ?_
  subst hn
  have hplaced := h.proc i rfl
  rw [hpc] at hplaced
  rw [hq, hack]
  refine ⟨(drop_suffix _ _).trans h.last, fun ev hev => (hplaced.2 ev hev).congr fun p _ => by
    rw [hrec], fun ev hev hev' => ?_⟩
  obtain ⟨k, it', x', -, hk, hnot⟩ := h.unsent (h.sole.live i hturn.live) ev
    (mem_of_mem_drop hev) hev'
  obtain rfl : k = i := h.sole.one k i (by simp [hk]) hturn.live
  obtain ⟨-, rfl⟩ : it' = it ∧ x' = x := by simpa [hpc, eq_comm] using hk
  exact absurd hev hnot

end Lined

/-! ## Workers -/

theorem incrPendingSize_offset (r : SendRecRepo) (f : Faults) (amt d : Int) (p : Nat) :
    ((r.incrPendingSize f amt d).item p).domainOffset = (r.item p).domainOffset := by
  have hitem : ((r.changeItem (RecordItem.wait amt)).item p).domainOffset =
      (r.item p).domainOffset := by
    unfold SendRecRepo.changeItem
    split
    · rename_i q _
      by_cases hpq : p = q
      · subst hpq
        simp [RecordItem.wait]
      · simp [update_of_ne hpq]
    · rfl
  have hcache : ∀ r : SendRecRepo, (r.changeCache f (RecordItem.wait amt)).item = r.item := by
    intro r
    unfold SendRecRepo.changeCache
    split_ifs <;> rfl
  have hrow : ∀ (r : SendRecRepo) (it : RecordItem), (r.insertRow it).item = r.item := by
    intro r it
    unfold SendRecRepo.insertRow
    split <;> rfl
  unfold SendRecRepo.incrPendingSize
  dsimp only
  split_ifs
  · split <;> simp only [hrow, hcache, hitem]
  · rw [hcache, hitem]

theorem Placed.give {pending evs : List Event} {pc : Pc} (h : Placed s pending pc)
    (hitem : ∀ p, (t.record.item p).domainOffset = (s.record.item p).domainOffset)
    (hevs : ∀ ev ∈ evs, ∀ y ∈ pc.transaction, Succeeds s y.1 y.2 ev) :
    Placed t (pending ++ evs) pc := by
  cases pc with
  | sending it x | acked it x =>
    obtain ⟨hlen, hsucceeds⟩ := h
    refine ⟨by rw [length_append]; omega, fun ev hev => ?_⟩
    rw [drop_append_of_le_length hlen] at hev
    rcases mem_append.mp hev with hev | hev
    · exact (hsucceeds ev hev).congr fun p _ => hitem p
    · exact (hevs ev hev _ rfl).congr fun p _ => hitem p
  | trimmed it x =>
    intro ev hev
    rcases mem_append.mp hev with hev | hev
    · exact (h ev hev).congr fun p _ => hitem p
    · exact (hevs ev hev _ rfl).congr fun p _ => hitem p
  | _ => trivial

theorem sendMsg_pendingEvents (s : State) (msg : Msg) (m n : Nat) :
    ((s.sendMsg msg m).queue n).pendingEvents =
      (s.queue n).pendingEvents ++ (Worker.holds msg m).gives n := by
  have hadd : (addMsg (s.queue m) msg).pendingEvents =
      (s.queue m).pendingEvents ++ (Worker.holds msg m).gives m := by
    cases msg <;> simp [addMsg, Worker.gives]
  have hself : ∀ q : DestinationQueue, q.pendingEvents = (addMsg (s.queue m) msg).pendingEvents →
      (update s.queue m q n).pendingEvents =
        (s.queue n).pendingEvents ++ (Worker.holds msg m).gives n := by
    intro q hq
    by_cases hnm : n = m
    · subst hnm
      rw [update_self, hq, hadd]
    · rw [update_of_ne hnm]
      cases msg <;> simp [Worker.gives, Ne.symm hnm]
  unfold sendMsg
  dsimp only
  split_ifs
  · exact hself _ rfl
  · exact hself _ rfl

theorem sendMsg_proc (s : State) (msg : Msg) (m i : Nat) :
    i = s.procCount ∧ (s.sendMsg msg m).proc i = .top ∨
      (s.sendMsg msg m).proc i = s.proc i ∧ (s.sendMsg msg m).queueOf i = s.queueOf i := by
  unfold sendMsg
  dsimp only
  split_ifs
  · exact Or.inr ⟨rfl, rfl⟩
  · by_cases hi : i = s.procCount
    · subst hi
      exact Or.inl ⟨rfl, by simp [go, setQueue]⟩
    · exact Or.inr ⟨update_of_ne hi _ _, update_of_ne hi _ _⟩

theorem sendMsg_rest (s : State) (msg : Msg) (m : Nat) :
    (s.sendMsg msg m).record = s.record ∧ (s.sendMsg msg m).acknowledged = s.acknowledged ∧
      (s.sendMsg msg m).queues = s.queues := by
  unfold sendMsg
  dsimp only
  split_ifs <;> exact ⟨rfl, rfl, rfl⟩

namespace Lined

variable {w : Watched} (h : Lined origin n w)
include h

theorem give (evs : List Event) (hsole : Sole origin t)
    (hlater : ∀ ev ∈ evs, ∀ e ∈ w.sent, e.domainOffset < ev.domainOffset)
    (hone : evs.Pairwise fun d e => d.domainOffset < e.domainOffset)
    (hnew : ∀ ev ∈ evs, ev ∉ w.state.acknowledged ∧ ∀ i < w.state.procCount,
      w.state.queueOf i = n → ∀ y ∈ (w.state.proc i).transaction, Succeeds w.state y.1 y.2 ev)
    (hproc : ∀ i, t.proc i = .top ∨ t.proc i = w.state.proc i ∧ t.queueOf i = w.state.queueOf i)
    (hlive : ∀ i, w.state.proc i ≠ .done →
      t.proc i = w.state.proc i ∧ t.queueOf i = w.state.queueOf i)
    (hqueues : t.queues origin = some n → w.state.queues origin = some n)
    (hq : (t.queue n).pendingEvents = (w.state.queue n).pendingEvents ++ evs)
    (hack : t.acknowledged = w.state.acknowledged)
    (hitem : ∀ p, (t.record.item p).domainOffset = (w.state.record.item p).domainOffset) :
    Lined origin n ⟨t, w.sent ++ evs⟩ where
  sole := hsole
  increasing := pairwise_append.mpr
    ⟨h.increasing, hone, fun e he ev hev => hlater ev hev e he⟩
  last := by
    obtain ⟨l, hl⟩ := h.last
    refine ⟨l, ?_⟩
    rw [hq, ← append_assoc, hl]
  proc := by
    intro i hi
    rcases hproc i with htop | ⟨hpc, hqo⟩
    · rw [htop]
      trivial
    · rw [hpc, hq]
      refine (h.proc i (hqo ▸ hi)).give hitem fun ev hev y hy => ?_
      by_cases hi' : i < w.state.procCount
      · exact (hnew ev hev).2 i hi' (hqo ▸ hi) y hy
      · rw [h.sole.started i (Nat.not_lt.mp hi')] at hy
        cases hy
  unsent := by
    intro hn ev hev hev'
    rw [hack] at hev'
    have hold : ev ∉ evs := fun hmem => (hnew ev hmem).1 hev'
    rw [hq] at hev ⊢
    obtain ⟨i, it, x, hi, hpc, hnot⟩ :=
      h.unsent (hqueues hn) ev ((mem_append.mp hev).resolve_right hold) hev'
    obtain ⟨hpc', hqo⟩ := hlive i (by simp [hpc])
    have hplaced := h.proc i hi
    rw [hpc] at hplaced
    refine ⟨i, it, x, hqo.trans hi, hpc'.trans hpc, ?_⟩
    rw [drop_append_of_le_length hplaced.1]
    exact fun hmem => (mem_append.mp hmem).elim hnot hold

theorem same (hsole : Sole origin t) (hproc : t.proc = w.state.proc)
    (hqueueOf : t.queueOf = w.state.queueOf)
    (hqueues : t.queues origin = some n → w.state.queues origin = some n)
    (hq : (t.queue n).pendingEvents = (w.state.queue n).pendingEvents)
    (hack : t.acknowledged = w.state.acknowledged)
    (hitem : ∀ p, (t.record.item p).domainOffset = (w.state.record.item p).domainOffset) :
    Lined origin n ⟨t, w.sent⟩ := by
  have hkeep : ∀ i, t.proc i = w.state.proc i ∧ t.queueOf i = w.state.queueOf i :=
    fun i => ⟨by rw [hproc], by rw [hqueueOf]⟩
  have hlined := h.give [] hsole (by simp) .nil (by simp) (fun i => Or.inr (hkeep i))
    (fun i _ => hkeep i) hqueues (by simpa using hq) hack hitem
  simpa using hlined

theorem getDestinationQueue (j : Nat) (msg : Msg) :
    Lined origin n ⟨w.state.getDestinationQueue j msg, w.sent⟩ := by
  have hsole := h.sole.getDestinationQueue j msg
  unfold State.getDestinationQueue at hsole ⊢
  cases hm : w.state.queues msg.origin with
  | some m =>
    rw [hm] at hsole
    exact h.same hsole rfl rfl id rfl rfl fun _ => rfl
  | none =>
    rw [hm] at hsole
    by_cases hn : n = w.state.queueCount
    · subst hn
      refine ⟨hsole, h.increasing, by simp [setWorker], fun i hi => ?_, fun _ ev hev => ?_⟩
      · have hdone : w.state.proc i = .done := by
          by_contra hne
          exact absurd (h.sole.known _ (h.sole.live i hne)) (hi ▸ Nat.lt_irrefl _)
        show Placed _ _ (w.state.proc i)
        rw [hdone]
        trivial
      · simp [setWorker] at hev
    · refine h.same hsole rfl rfl (fun hq => ?_) ?_ rfl fun _ => rfl
      · by_cases horigin : origin = msg.origin
        · subst horigin
          exact absurd (some.inj ((update_self _ _ w.state.queues).symm.trans hq)).symm hn
        · exact (update_of_ne horigin _ _).symm.trans hq
      · simp [setWorker, update_of_ne hn]

theorem sendMsg {j m : Nat} {msg : Msg} (hw : w.state.worker j = .holds msg m)
    (hsole : Sole origin ((w.state.sendMsg msg m).setWorker j .idle))
    (hi : Increasing n w (.enqueue j)) (hc : Consecutive n w.state (.enqueue j)) :
    Lined origin n ⟨(w.state.sendMsg msg m).setWorker j .idle,
      w.sent ++ gives n w.state (.enqueue j)⟩ := by
  have hgives : gives n w.state (.enqueue j) = (Worker.holds msg m).gives n := by
    rw [gives, hw]
  obtain ⟨hrec, hack, hqueues⟩ := sendMsg_rest w.state msg m
  have hone : (gives n w.state (.enqueue j)).Pairwise
      fun d e => d.domainOffset < e.domainOffset := by
    rw [hgives, Worker.gives.eq_def]
    split
    · split_ifs <;> simp
    · exact .nil
  refine h.give _ hsole hi hone hc (fun i => (sendMsg_proc w.state msg m i).imp_left And.right)
    (fun i hlive => ?_) (fun hn => ?_) (hgives ▸ sendMsg_pendingEvents w.state msg m n) hack
    fun p => by rw [setWorker, hrec]
  · rcases sendMsg_proc w.state msg m i with ⟨rfl, -⟩ | hsame
    · exact absurd (h.sole.started _ (Nat.le_refl _)) hlive
    · exact hsame
  · exact (congrFun hqueues origin).symm.trans hn

theorem step_other {a : Act} (ha : ∀ j, a ≠ .enqueue j) (hsole : Sole origin t)
    (hc : Consecutive n w.state a) (ht : Steps tg w.state a t) :
    Lined origin n ⟨t, w.sent⟩ := by
  obtain ⟨hqueue, hack⟩ := fail_queue w.state tg
  cases ht with
  | enqueue => exact absurd rfl (ha _)
  | create | receiveEdu => exact h.same hsole rfl rfl id rfl rfl fun _ => rfl
  | receive => exact h.same hsole rfl rfl id rfl rfl fun p => incrPendingSize_offset _ _ _ _ _
  | getQueue hw => exact h.getDestinationQueue _ _
  | pass hpc | assign hpc =>
    exact h.rest (.same (by simp [hpc]) _ _ _) hsole rfl rfl (by simp [hpc]) rfl
  | unassigned hpc | finish hpc =>
    exact h.rest (turn_release (by simp [hpc])) hsole rfl rfl (by simp [hpc]) rfl
  | locate hpc =>
    exact h.rest (.same (by simp [hpc]) w.state.record w.state.assigned
      w.state.acknowledged) hsole rfl rfl (by simp [hpc]) rfl
  | unlocated hpc | again hpc | unsent hpc =>
    exact h.rest (turn_fail (by simp [hpc])) hsole (by rw [setPc, hqueue]) hack (by simp [hpc]) rfl
  | next wd f hpc => exact h.next hpc hsole hc
  | send hpc => exact h.send hpc (.same (by simp [hpc]) w.state.record w.state.assigned _) hsole
  | trim hpc ht => exact h.trim hpc hsole ht
  | commit f hpc =>
    unfold commit at hsole ⊢
    split at hsole
    · exact h.rest (.same (by simp [hpc]) _ _ _) hsole rfl rfl (by simp [hpc]) rfl
    · exact h.rest (.same (by simp [hpc]) w.state.record w.state.assigned
        w.state.acknowledged) hsole rfl rfl (by simp [hpc]) rfl

theorem step {a : Act} (hi : Increasing n w a)
    (hs : Serial tg origin w.state a) (hc : Consecutive n w.state a)
    (ht : Steps tg w.state a t) : Lined origin n ⟨t, w.sent ++ gives n w.state a⟩ := by
  have hsole := h.sole.step hs ht
  by_cases ha : ∃ j, a = .enqueue j
  · obtain ⟨j, rfl⟩ := ha
    cases ht with
    | enqueue hw => exact h.sendMsg hw hsole hi hc
  · have hgives : gives n w.state a = [] := by
      cases a <;> first | rfl | exact absurd ⟨_, rfl⟩ ha
    rw [hgives, append_nil]
    exact h.step_other (fun j hj => ha ⟨j, hj⟩) hsole hc ht

end Lined

/-! ## The list after a transaction -/

theorem lined_of_fresh (h : Fresh s) : Lined origin n ⟨s, []⟩ where
  sole :=
    { known := fun m hm => (nomatch (h.queues origin).symm.trans hm)
      live := fun i hi => absurd (h.proc i) hi
      flag := fun i hi => absurd (h.proc i) hi
      one := fun i _ hi => absurd (h.proc i) hi
      started := fun i _ => h.proc i }
  increasing := .nil
  last := by
    simp [h.queue n]
  proc := by
    intro i _
    rw [h.proc i]
    trivial
  unsent := fun hn => (nomatch (h.queues origin).symm.trans hn)

/-- A step in which the offsets given to the queue increase, the queue has the only goroutine, and
the list goes on where the record stands. -/
def InLine (tg : Target) (origin : String) (n : Nat) (w : Watched) (a : Act) : Prop :=
  Increasing n w a ∧ Serial tg origin w.state a ∧ Consecutive n w.state a

instance (w : Watched) (a : Act) : Decidable (InLine tg origin n w a) :=
  inferInstanceAs (Decidable (_ ∧ _ ∧ _))

section
variable {s₀ : State} (hs : Fresh s₀) {as : List Act} {w : Watched}
  (hm : RunMeets (watchedStep tg n) (InLine tg origin n) ⟨s₀, []⟩ as)
  (hr : run (watchedStep tg n) ⟨s₀, []⟩ as = some w)
include hs hm hr

theorem lined_of_run : Lined origin n w := by
  refine run_invariant (fun hv hc ht => ?_) (lined_of_fresh hs) hm hr
  obtain ⟨u, hu, rfl⟩ := map_eq_some_iff.mp ht
  exact hv.step hc.1 hc.2.1 hc.2.2 (.of_step hu)

/-- **The queue holds only unsent events.** When the record is updated after a transaction, no event
of the list is below the new offset, and there are at most as many as were given to the queue and
are not acknowledged. -/
theorem queue_holds_unsent {i p : Nat} {x : Taken} {last : Event}
    (hi : w.state.queueOf i = n) (hpc : w.state.proc i = .trimmed (some p) x)
    (hlast : x.pdus.getLast? = some last) {f : Faults} {t : State}
    (ht : step tg w.state (.commit i f) = some t) :
    (∀ ev ∈ (t.queue n).pendingEvents,
        State.newOffset (w.state.record.item p) last ≤ ev.domainOffset) ∧
      (t.queue n).pendingEvents.length ≤
        (w.sent.filter fun ev => ev ∉ t.acknowledged).length := by
  have h := lined_of_run hs hm hr
  have hsame : t.queue = w.state.queue ∧ t.acknowledged = w.state.acknowledged := by
    simp only [step, hpc, State.commit, hlast, some.injEq] at ht
    rw [← ht]
    exact ⟨rfl, rfl⟩
  rw [hsame.1, hsame.2]
  have hplaced := h.proc i hi
  rw [hpc] at hplaced
  refine ⟨fun ev hev => (hplaced ev hev).newOffset_le hlast, ?_⟩
  have hnot : ∀ ev ∈ (w.state.queue n).pendingEvents, ev ∉ w.state.acknowledged := fun ev hev =>
    h.not_acknowledged hi (by simp [hpc]) (by simp [hpc]) hev
  have hall := filter_eq_self.mpr fun ev hev => decide_eq_true (hnot ev hev)
  calc (w.state.queue n).pendingEvents.length
      = ((w.state.queue n).pendingEvents.filter fun ev => ev ∉ w.state.acknowledged).length := by
        rw [hall]
    _ ≤ (w.sent.filter fun ev => ev ∉ w.state.acknowledged).length :=
        (h.last.sublist.filter _).length_le

end

/-- The second event comes while the first is sent. -/
def twoInTurn : List Act :=
  submit (event 1) ++ takes 0 ++ submit (event 2) ++ [.send 0 true, .trim 0]

theorem queue_holds_unsent_two :
    ∃ w t, run (watchedStep serverY 0) ⟨.start, []⟩ twoInTurn = some w ∧
      w.sent = [event 1, event 2] ∧ step serverY w.state (.commit 0 .none) = some t ∧
      (t.queue 0).pendingEvents = [event 2] ∧
      (∀ ev ∈ (t.queue 0).pendingEvents,
        State.newOffset (w.state.record.item 0) (event 1) ≤ ev.domainOffset) ∧
      (t.queue 0).pendingEvents.length ≤
        (w.sent.filter fun ev => ev ∉ t.acknowledged).length := by
  have hm : RunMeets (watchedStep serverY 0) (InLine serverY "x" 0) ⟨.start, []⟩ twoInTurn := by
    decide
  obtain ⟨hoff, hlen⟩ := queue_holds_unsent (i := 0) (f := .none) fresh_start hm rfl rfl rfl rfl rfl
  exact ⟨_, _, rfl, rfl, rfl, rfl, hoff, hlen⟩

/-- For the second event there is a new queue; the record stands before its list, so that both
events come from the room server and the second stays in the list. -/
theorem sent_event_stays :
    ∃ w t x, run (watchedStep serverY 1) ⟨.start, []⟩
        (submit (event 1) ++ [.assign 0 false .none] ++ submit (event 2) ++ takes 1 ++
          [.send 1 true, .trim 1]) = some w ∧
      w.sent = [event 2] ∧ w.state.proc 1 = .trimmed (some 0) x ∧
      x.pdus = [event 1, event 2] ∧ step serverY w.state (.commit 1 .none) = some t ∧
      t.record.db.map RecordItem.domainOffset = some 3 ∧
      (t.queue 1).pendingEvents = [event 2] ∧ (event 2).domainOffset < 3 ∧
      event 2 ∈ t.acknowledged :=
  ⟨_, _, _, rfl, rfl, rfl, rfl, rfl, rfl, rfl, by decide, by decide⟩

end Ligase.FedSender

import Ligase.FedSender.Queue

/-!
# One transaction in flight

`running` is to say that the queue has a goroutine. But `next` clears it before the EDUs that it
returns are sent, the flag is read again outside of the mutex, a queue that has been released may
still be held by a worker while another one is made in its place, and each domain of this server has
a queue of its own.

* **`one_in_flight`**: at most one transaction is in flight in every run without these.
-/

namespace Ligase.FedSender

open Lib Function State

variable {tg : Target} {s t : State} {a : Act} {origin : String}

def InFlight : Pc → Prop
  | .sending _ _ => True
  | _ => False

def OneInFlight (s : State) : Prop :=
  ∀ i j, InFlight (s.proc i) → InFlight (s.proc j) → i = j

def Worker.holding : Worker → Option Nat
  | .holds _ n => some n
  | _ => none

def Pc.taking : Pc → Option (Option Nat)
  | .ready it => some it
  | _ => none

/-- Messages go to the queue that the map has for one domain of this server, and not between a
`next` that has cleared the flag and the check of it; and `next` finds no EDUs without events to
send. -/
def Serial (tg : Target) (origin : String) (s : State) : Act → Prop
  | .enqueue j =>
    ∀ n ∈ (s.worker j).holding, s.queues origin = some n ∧
      ∀ i < s.procCount, s.queueOf i = n → s.proc i = .empty → (s.queue n).running = true
  | .next i w _ =>
    ∀ it ∈ (s.proc i).taking, tg.hasRoom → (s.queue (s.queueOf i)).pendingEDUs ≠ [] →
      HasEvents tg w (it.map s.record.item)
  | _ => True

instance (s : State) : (a : Act) → Decidable (Serial tg origin s a)
  | .enqueue j => inferInstanceAs (Decidable (∀ n ∈ (s.worker j).holding, _))
  | .next i _ _ => inferInstanceAs (Decidable (∀ it ∈ (s.proc i).taking, _))
  | .create .. | .receive .. | .receiveEdu .. | .getQueue _ | .assign .. | .locate .. | .check _
  | .send .. | .trim _ | .commit .. => .isTrue trivial

/-- The queue of the map has the only goroutine, and its flag is set until `next` has returned
nothing. -/
structure Sole (origin : String) (s : State) : Prop where
  known : ∀ n, s.queues origin = some n → n < s.queueCount
  live : ∀ i, s.proc i ≠ .done → s.queues origin = some (s.queueOf i)
  flag : ∀ i, s.proc i ≠ .done → s.proc i = .empty ∨ (s.queue (s.queueOf i)).running = true
  one : ∀ i j, s.proc i ≠ .done → s.proc j ≠ .done → i = j
  started : ∀ i, s.procCount ≤ i → s.proc i = .done

theorem Sole.oneInFlight (h : Sole origin s) : OneInFlight s := by
  have hlive : ∀ i, InFlight (s.proc i) → s.proc i ≠ .done := by
    intro i hi hdone
    rw [hdone] at hi
    exact hi
  intro i j hi hj
  exact h.one i j (hlive i hi) (hlive j hj)

/-! ## Goroutines -/

/-- A goroutine goes to `pc`; only its own queue may change. -/
structure Turn (s t : State) (i : Nat) (pc : Pc) : Prop where
  live : s.proc i ≠ .done
  proc : t.proc = update s.proc i pc
  queueOf : t.queueOf = s.queueOf
  count : t.procCount = s.procCount
  queueCount : t.queueCount = s.queueCount
  queues : t.queues = s.queues ∨
    pc = .done ∧ ∀ d m, t.queues d = some m → s.queues d = some m
  other : ∀ m, m ≠ s.queueOf i → t.queue m = s.queue m

section
variable {i : Nat} {pc : Pc}

theorem Sole.turn (h : Sole origin s) (ht : Turn s t i pc)
    (hflag : pc ≠ .done → pc = .empty ∨ (t.queue (s.queueOf i)).running = true) :
    Sole origin t := by
  have hlive : ∀ k, t.proc k ≠ .done → k = i ∧ pc ≠ .done := by
    intro k hk
    rw [ht.proc] at hk
    by_cases hki : k = i
    · subst hki
      rw [update_self] at hk
      exact ⟨rfl, hk⟩
    · rw [update_of_ne hki] at hk
      exact absurd (h.one k i hk ht.live) hki
  have hpc : t.proc i = pc := by rw [ht.proc, update_self]
  refine ⟨fun n hn => ?_, fun k hk => ?_, fun k hk => ?_, fun j k hj hk => ?_, fun k hk => ?_⟩
  · rw [ht.queueCount]
    rcases ht.queues with heq | ⟨-, hsub⟩
    · exact h.known n (heq ▸ hn)
    · exact h.known n (hsub _ _ hn)
  · obtain ⟨rfl, hne⟩ := hlive k hk
    rcases ht.queues with heq | ⟨hdone, -⟩
    · rw [heq, ht.queueOf]
      exact h.live k ht.live
    · exact absurd hdone hne
  · obtain ⟨rfl, hne⟩ := hlive k hk
    rw [hpc, ht.queueOf]
    exact hflag hne
  · rw [(hlive j hj).1, (hlive k hk).1]
  · by_contra hne
    obtain ⟨rfl, -⟩ := hlive k hne
    exact ht.live (h.started k (ht.count ▸ hk))

variable (hlive : s.proc i ≠ .done)
include hlive

theorem Turn.same (record : SendRecRepo) (assigned : Bool) (acknowledged : List Event) :
    Turn s (setPc { s with record, assigned, acknowledged } i pc) i pc :=
  ⟨hlive, rfl, rfl, rfl, rfl, .inl rfl, fun _ _ => rfl⟩

theorem turn_fail : Turn s ((s.fail tg).setPc i pc) i pc := by
  unfold fail
  split_ifs
  · exact .same hlive _ _ _
  · exact .same hlive s.record s.assigned s.acknowledged

theorem turn_release : Turn s ((s.release i).setPc i .done) i .done := by
  refine ⟨hlive, rfl, rfl, rfl, rfl, .inr ⟨rfl, ?_⟩, fun _ _ => rfl⟩
  exact (forall_update_iff s.queues fun d q => ∀ m, q = some m → s.queues d = some m).mpr
    ⟨nofun, fun _ _ _ h => h⟩

theorem turn_setQueue (record : SendRecRepo) (q : DestinationQueue) :
    Turn s ((setQueue { s with record } (s.queueOf i) q).setPc i pc) i pc :=
  ⟨hlive, rfl, rfl, rfl, rfl, .inl rfl, fun _ hm => update_of_ne hm _ _⟩

end

theorem fail_queue (s : State) (tg : Target) :
    (s.fail tg).queue = s.queue ∧ (s.fail tg).acknowledged = s.acknowledged := by
  unfold fail
  split_ifs <;> exact ⟨rfl, rfl⟩

section
variable {i : Nat} {it : Option Nat} {x : Taken}

def State.taken (s : State) (tg : Target) (i : Nat) (it : Option Nat) (w : World) :
    DestinationQueue × Option Taken × Option Int :=
  (s.queue (s.queueOf i)).next tg s.journal w (it.map s.record.item)

theorem next_turn (tg : Target) (w : World) (f : Faults) (hlive : s.proc i ≠ .done) :
    Turn s (s.next tg i it w f) i (afterNext it (s.taken tg i it w).2.1) ∧
      (∀ p, it = some p → (s.next tg i it w f).record = s.record) ∧
      (s.next tg i it w f).acknowledged = s.acknowledged ∧
      (s.next tg i it w f).queue = update s.queue (s.queueOf i) (s.taken tg i it w).1 := by
  obtain ⟨-, -, hstored⟩ :=
    (s.queue (s.queueOf i)).next_takes s.journal w (it.map s.record.item) tg
  unfold State.next State.taken
  dsimp only
  cases hst : ((s.queue (s.queueOf i)).next tg s.journal w (it.map s.record.item)).2.2 with
  | none => exact ⟨turn_setQueue hlive s.record _, fun _ _ => rfl, rfl, rfl⟩
  | some d =>
    refine ⟨turn_setQueue hlive _ _, fun p hp => ?_, rfl, rfl⟩
    rw [hstored (by simp [hp])] at hst
    cases hst

theorem trim_turn (hlive : s.proc i ≠ .done) (ht : s.trim i it x = some t) :
    Turn s t i (.trimmed it x) ∧ t.record = s.record ∧ t.acknowledged = s.acknowledged ∧
      (t.queue (s.queueOf i)).running = (s.queue (s.queueOf i)).running ∧
      (t.queue (s.queueOf i)).pendingEvents =
        (s.queue (s.queueOf i)).pendingEvents.drop x.usePDUSize := by
  unfold trim at ht
  dsimp only at ht
  split_ifs at ht
  cases ht
  refine ⟨turn_setQueue hlive s.record _, rfl, rfl, ?_⟩
  simp [setPc, setQueue]

end

/-! ## Steps -/

namespace Sole

variable {i : Nat} {pc : Pc} (h : Sole origin s)
include h

theorem running (hlive : s.proc i ≠ .done) (hne : s.proc i ≠ .empty) :
    (s.queue (s.queueOf i)).running = true :=
  (h.flag i hlive).resolve_left hne

theorem move (ht : Turn s t i pc) (hne : s.proc i ≠ .empty)
    (hq : (t.queue (s.queueOf i)).running = (s.queue (s.queueOf i)).running) : Sole origin t :=
  h.turn ht fun _ => .inr (hq.trans (h.running ht.live hne))

theorem next {it : Option Nat} {w : World} {f : Faults} (hpc : s.proc i = .ready it)
    (hc : Serial tg origin s (.next i w f)) : Sole origin (s.next tg i it w f) := by
  obtain ⟨hturn, -, -, hqueue⟩ := next_turn tg w f (hpc ▸ nofun : s.proc i ≠ .done)
  refine h.turn hturn fun _ => ?_
  rw [hqueue, update_self]
  have hrun : (s.taken tg i it w).1 = s.queue (s.queueOf i) ∨ (s.taken tg i it w).2.1 = none :=
    DestinationQueue.next_running _ _ _ _ (hc it (by rw [hpc]; rfl))
  refine hrun.symm.imp (fun hnone => ?_) fun hsame => ?_
  · rw [hnone]
    rfl
  · rw [hsame]
    exact h.running hturn.live (by simp [hpc])

theorem not_live (hnone : s.queues origin = none) (i : Nat) : s.proc i = .done := by
  by_contra hlive
  exact absurd (hnone.symm.trans (h.live i hlive)) (by simp)

theorem getDestinationQueue (j : Nat) (msg : Msg) : Sole origin (s.getDestinationQueue j msg) := by
  unfold State.getDestinationQueue
  cases hm : s.queues msg.origin with
  | some n => exact ⟨h.known, h.live, h.flag, h.one, h.started⟩
  | none =>
    by_cases horigin : msg.origin = origin
    · subst horigin
      have hdone := h.not_live hm
      refine ⟨fun n hn => ?_, fun i hi => absurd (hdone i) hi, fun i hi => absurd (hdone i) hi,
        h.one, h.started⟩
      obtain rfl : s.queueCount = n := by simpa [setWorker] using hn
      exact Nat.lt_succ_self _
    · have hsame : update s.queues msg.origin (some s.queueCount) origin = s.queues origin :=
        update_of_ne (Ne.symm horigin) _ _
      refine ⟨fun n hn => Nat.lt_succ_of_lt (h.known n (hsame ▸ hn)),
        fun i hi => hsame.trans (h.live i hi), fun i hi => ?_, h.one, h.started⟩
      have hlt := h.known _ (h.live i hi)
      have hother : update s.queue s.queueCount ⟨msg.origin, false, [], []⟩ (s.queueOf i) =
        s.queue (s.queueOf i) := update_of_ne (Nat.ne_of_lt hlt) _ _
      exact (h.flag i hi).imp_right fun hr => (congrArg _ hother).trans hr

theorem sendMsg {j n : Nat} {msg : Msg} (hw : s.worker j = .holds msg n)
    (hc : Serial tg origin s (.enqueue j)) : Sole origin (s.sendMsg msg n) := by
  obtain ⟨hn, hempty⟩ := hc n (by rw [hw]; rfl)
  have hrun : (addMsg (s.queue n) msg).running = (s.queue n).running := by
    cases msg <;> rfl
  have hqueue : ∀ i, s.proc i ≠ .done → s.queueOf i = n := by
    intro i hi
    exact (Option.some.inj (hn.symm.trans (h.live i hi))).symm
  unfold State.sendMsg
  dsimp only
  split_ifs with hr
  · refine ⟨h.known, h.live, fun i hi => .inr ?_, h.one, h.started⟩
    show (update s.queue n _ (s.queueOf i)).running = true
    rw [hqueue i hi, update_self, hr]
  · have hoff : (s.queue n).running ≠ true := hrun ▸ hr
    have hdone : ∀ i, s.proc i = .done := by
      intro i
      by_contra hi
      have hlt : i < s.procCount := by
        by_contra hge
        exact hi (h.started i (Nat.not_lt.mp hge))
      rcases h.flag i hi with he | hflag
      · exact hoff (hempty i hlt (hqueue i hi) he)
      · exact hoff (hqueue i hi ▸ hflag)
    have hnew : ∀ i, update s.proc s.procCount .top i ≠ .done → i = s.procCount := by
      intro i hi
      by_contra hne
      exact hi ((update_of_ne hne _ _).trans (hdone i))
    refine ⟨h.known, fun i hi => ?_, fun i hi => .inr ?_,
      fun i j hi hj => (hnew i hi).trans (hnew j hj).symm, fun i hi => ?_⟩
    · obtain rfl := hnew i hi
      simp [go, setQueue, hn]
    · obtain rfl := hnew i hi
      simp [go, setQueue]
    · by_contra hlive
      have hlt : s.procCount < i := hi
      exact absurd (hnew i hlive) (Nat.ne_of_gt hlt)

theorem step (hc : Serial tg origin s a) (ht : Steps tg s a t) : Sole origin t := by
  have hqueue := (fail_queue s tg).1
  cases ht with
  | create | receive | receiveEdu => exact ⟨h.known, h.live, h.flag, h.one, h.started⟩
  | getQueue => exact h.getDestinationQueue _ _
  | enqueue hw =>
    have h' := h.sendMsg hw hc
    exact ⟨h'.known, h'.live, h'.flag, h'.one, h'.started⟩
  | pass hpc | assign hpc | locate hpc | send hpc =>
    exact h.move (.same (by simp [hpc]) _ _ _) (by simp [hpc]) rfl
  | unassigned hpc | finish hpc =>
    exact h.turn (turn_release (by simp [hpc])) fun hne => absurd rfl hne
  | unlocated hpc | unsent hpc =>
    exact h.move (turn_fail (by simp [hpc])) (by simp [hpc]) (by rw [setPc, hqueue])
  | again hpc hrun =>
    exact h.turn (turn_fail (by simp [hpc])) fun _ => .inr (by rw [setPc, hqueue, hrun])
  | next w f hpc => exact h.next hpc hc
  | trim hpc ht =>
    obtain ⟨hturn, -, -, hrun, -⟩ := trim_turn (hpc ▸ nofun : s.proc _ ≠ .done) ht
    exact h.move hturn (by simp [hpc]) hrun
  | commit f hpc =>
    unfold commit
    split
    · exact h.move (.same (by simp [hpc]) _ _ _) (by simp [hpc]) rfl
    · exact h.move (.same (by simp [hpc]) s.record s.assigned s.acknowledged) (by simp [hpc]) rfl

end Sole

/-- **One transaction in flight**, in every run in which messages go to the queue of the map, not
while its goroutine is about to end, and no EDUs are sent without events. -/
theorem one_in_flight {as : List Act} (hm : RunMeets (step tg) (Serial tg origin) .start as)
    (h : run (step tg) .start as = some t) : OneInFlight t := by
  have hstart : Sole origin State.start :=
    ⟨nofun, fun i hi => absurd rfl hi, fun i hi => absurd rfl hi, fun i j hi => absurd rfl hi,
      fun i _ => rfl⟩
  have hsole : Sole origin t := run_invariant (fun hs hc ht => hs.step hc (.of_step ht)) hstart hm h
  exact hsole.oneInFlight

/-! ### Two goroutines -/

def event (n : Nat) : Event := ⟨"$" ++ toString n, "m.room.message", "x", n⟩

theorem one_in_flight_event :
    ∃ t, run (step serverY) .start (submit (event 1) ++ takes 0) = some t ∧ InFlight (t.proc 0) ∧
      OneInFlight t := by
  have hm : RunMeets (step serverY) (Serial serverY "x") .start (submit (event 1) ++ takes 0) := by
    decide
  exact ⟨_, rfl, trivial, one_in_flight hm rfl⟩

/-- After the first event nothing waits; `next` clears the flag and returns the typing notification,
and the next event starts another goroutine before that is sent. -/
theorem two_in_flight :
    ∃ t, run (step serverY) .start (submit (event 1) ++ takes 0 ++ sends 0 ++
        [.receiveEdu 0 "x" "typing", .getQueue 0, .enqueue 0] ++ takes 0 ++ submit (event 2) ++
        takes 1) = some t ∧ InFlight (t.proc 0) ∧ InFlight (t.proc 1) :=
  ⟨_, rfl, trivial, trivial⟩

end Ligase.FedSender

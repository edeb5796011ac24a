import Ligase.Client.PostEvent

/-!
# Redactions

`RedactEvent` looks the request up in the cache of `PostEvent`, submits a redaction if it is not
there, and remembers the id of the redaction. Without a transaction id the request is looked up by
the event that is redacted, but is remembered by the redaction.

* **`redact_idempotent`**: which runs submit one redaction, that all answers name.
-/

namespace Ligase.Client.Redact

open Lib Auth Option

/-! ## Requests -/

structure RedactRequest where
  userID : String
  deviceID : String
  roomID : String
  txnID : Option String
  stateKey : Option String
  redacts : String
  eventType : String
  content : Json

variable (req : RedactRequest)

namespace RedactRequest

def lookupField : String := req.roomID ++ req.eventType ++ req.txnID.getD req.redacts

def storeField (eventID : String) : String :=
  req.roomID ++ req.eventType ++ req.txnID.getD eventID

def builder (redactsSender : String) : EventBuilder where
  sender := req.userID
  roomID := req.roomID
  type := req.eventType
  stateKey := req.stateKey
  content := req.content
  redacts := req.redacts
  redactsSender := redactsSender

def rawEvent (e : Event) : RawEvent where
  roomID := req.roomID
  deviceID := if req.txnID.isSome then req.deviceID else ""
  trust := true
  events := [e]
  svrName := domainOf req.userID
  query := ["redact", ""]

/-- The redaction is built and checked. `target` is the answer about the event that is redacted: an
error, no event, or the event. An event that cannot be built is used before the error is looked at.
-/
def prepare (svc : Services) (target : Except String (Option Event)) : Except Stop Event :=
  match target with
  | .error err => .error (.reply 404 (.unknown (.text err)))
  | .ok none => .error (.reply 404 (.notFound (.text "can't find original event")))
  | .ok (some target) =>
    match svc.queryRoomState req.roomID with
    | (_, false) => .error logThenError
    | (q, true) =>
      if !q.roomExists then .error (.reply 404 (.notFound (.text "Room does not exist")))
      else
        match buildEvent (req.builder target.sender) svc.eventNID (domainOf req.userID) with
        | none => .error .crash
        | some e =>
          match allowed svc.auth e q.authEvents with
          | .ok () => .ok e
          | .error .crash => .error .crash
          | .error err => .error (.reply 403 (.forbidden (.auth err)))

end RedactRequest

/-! ## Steps -/

/-- Before the lookup, after a lookup that found nothing, after the submission, at the end. -/
inductive Pc where
  | start
  | missed
  | submitted (eventID : String)
  | answered (r : Except Stop String)

/-- The sections of a request, with the time, whether the cache answers, and the services. -/
inductive Act where
  | lookup (now : Int) (read : Bool)
  | submit (svc : Services) (target : Except String (Option Event))
  | store (now : Int) (write : Bool)

variable (w : World)

def lookup (now : Int) (read : Bool) : World × Pc :=
  match if read then getTxnID now req.roomID req.lookupField w else (.ok none, w) with
  | (.ok (some eventID), w) => (w, .answered (.ok eventID))
  | (.ok none, w) => (w, .missed)
  | (.error stop, w) => (w, .answered (.error stop))

def submit (svc : Services) (target : Except String (Option Event)) : World × Pc :=
  match req.prepare svc target with
  | .error stop => (w, .answered (.error stop))
  | .ok e =>
    ({ w with submitted := w.submitted ++ [req.rawEvent e] },
      if svc.inputRoomEvents (req.rawEvent e) = none then .submitted e.eventID
      else .answered (.error logThenError))

/-- `PutTxnID`; its error is ignored. -/
def store (now : Int) (write : Bool) (eventID : String) : World × Pc :=
  (if write then
      w.set (txnKey req.roomID) (req.storeField eventID) (some (txnValue now eventID))
    else w,
    .answered (.ok eventID))

def redactStep (pc : Pc) : Act → Option (World × Pc)
  | .lookup now read =>
    match pc with
    | .start => some (lookup req w now read)
    | _ => none
  | .submit svc target =>
    match pc with
    | .missed => some (submit req w svc target)
    | _ => none
  | .store now write =>
    match pc with
    | .submitted eventID => some (store req w now write eventID)
    | _ => none

/-- Any number of requests, all of them the same. -/
abbrev State := Procs Nat World Pc

def State.init : State := ⟨w, fun _ => .start⟩

def step : State → Nat × Act → Option State := procsStep (redactStep req)

/-! ## Conditions -/

def Within (t₀ : Int) : Act → Prop
  | .lookup now _ => t₀ ≤ now ∧ now ≤ t₀ + txnDuration
  | .submit .. => True
  | .store now _ => t₀ ≤ now ∧ now ≤ t₀ + txnDuration

def Open : Pc → Prop
  | .missed => True
  | .submitted _ => True
  | _ => False

/-- The cache answers and the room server takes what is submitted; no request is looked up while
another one is open; what is remembered is what was looked up. -/
def Orderly (s : State) (a : Nat × Act) : Prop :=
  match a.2 with
  | .lookup _ read => read = true ∧ ∀ j, ¬ Open (s.proc j)
  | .submit svc target =>
    ∀ e, req.prepare svc target = .ok e → svc.inputRoomEvents (req.rawEvent e) = none
  | .store _ write =>
    write = true ∧ ∀ eventID, s.proc a.1 = .submitted eventID →
      req.storeField eventID = req.lookupField

theorem storeField_of_txnID {txnID : String} (h : req.txnID = some txnID) (eventID : String) :
    req.storeField eventID = req.lookupField := by
  simp [RedactRequest.storeField, RedactRequest.lookupField, h]

/-- All answers name the one redaction that was submitted. -/
def Idempotent (w₀ : World) (s : State) : Prop :=
  (∀ i j id id', s.proc i = .answered (.ok id) → s.proc j = .answered (.ok id') → id = id') ∧
    ∃ raws, s.store.submitted = w₀.submitted ++ raws ∧ raws.length ≤ 1 ∧
      ∀ i id, s.proc i = .answered (.ok id) → ∃ e, raws = [req.rawEvent e] ∧ e.eventID = id

/-! ## One request at a time -/

section
variable {req} {w : World} {t₀ now : Int}

def Absent (req : RedactRequest) (t₀ : Int) (w : World) : Prop :=
  (w.hashes (txnKey req.roomID) req.lookupField).bind (liveID t₀) = none

def Remembered (req : RedactRequest) (t₀ : Int) (w : World) (eventID : String) : Prop :=
  ∃ t, t₀ ≤ t ∧ (minInt64 ≤ t ∧ t ≤ maxInt64) ∧
    w.hashes (txnKey req.roomID) req.lookupField = some (txnValue t eventID)

theorem lookup_remembered {eventID : String} (h : Remembered req t₀ w eventID)
    (hnow : now ≤ t₀ + txnDuration) : lookup req w now true = (w, .answered (.ok eventID)) := by
  obtain ⟨t, ht, hrange, hval⟩ := h
  have hlive : liveID now (txnValue t eventID) = some eventID := by
    rw [liveID_txnValue hrange, if_neg (by omega)]
  simp only [lookup, if_true, getTxnID, hval, hlive]

theorem lookup_absent (h : Absent req t₀ w) (hnow : t₀ ≤ now) :
    (lookup req w now true).2 = .missed ∧ Absent req t₀ (lookup req w now true).1 ∧
      (lookup req w now true).1.submitted = w.submitted := by
  unfold Absent at h ⊢
  cases hval : w.hashes (txnKey req.roomID) req.lookupField with
  | none =>
    have hget : lookup req w now true = (w, .missed) := by
      simp only [lookup, if_true, getTxnID, hval]
    rw [hget]
    exact ⟨rfl, by simp [hval], rfl⟩
  | some value =>
    rw [hval] at h
    have hdead := liveID_mono h hnow
    have hget : lookup req w now true =
        (w.set (txnKey req.roomID) req.lookupField none, .missed) := by
      simp only [lookup, if_true, getTxnID, hval, hdead]
    rw [hget]
    exact ⟨rfl, by simp [set_hashes], rfl⟩

def NoneAnswered (s : State) : Prop := ∀ i id, s.proc i ≠ .answered (.ok id)

/-- Nothing is submitted; the one open request has submitted its redaction; the redaction is
remembered. -/
inductive Phase (req : RedactRequest) (t₀ : Int) (w₀ : World) (s : State) : Prop
  | waiting (habsent : Absent req t₀ s.store) (hsub : s.store.submitted = w₀.submitted)
      (hnone : NoneAnswered s) (hpc : ∀ i id, s.proc i ≠ .submitted id)
      (hone : ∀ i j, Open (s.proc i) → Open (s.proc j) → i = j)
  | sent (i : Nat) (e : Event) (hpc : s.proc i = .submitted e.eventID)
      (hsub : s.store.submitted = w₀.submitted ++ [req.rawEvent e]) (hnone : NoneAnswered s)
      (hone : ∀ j, Open (s.proc j) → j = i)
  | stored (e : Event) (hrem : Remembered req t₀ s.store e.eventID)
      (hsub : s.store.submitted = w₀.submitted ++ [req.rawEvent e])
      (hans : ∀ i id, s.proc i = .answered (.ok id) → id = e.eventID)
      (hclosed : ∀ j, ¬ Open (s.proc j))

variable {w₀ : World} {s t : State}

theorem phase_init (h : Absent req t₀ w₀) : Phase req t₀ w₀ (.init w₀) :=
  .waiting h rfl (fun _ _ => nofun) (fun _ _ => nofun) fun _ _ h => h.elim

theorem Phase.idempotent (h : Phase req t₀ w₀ s) : Idempotent req w₀ s := by
  cases h with
  | waiting habsent hsub hnone hpc hone =>
    exact ⟨fun i j id id' hi => absurd hi (hnone i id), [], by simp [hsub], by simp,
      fun i id hi => absurd hi (hnone i id)⟩
  | sent i e hpc hsub hnone hone =>
    exact ⟨fun i j id id' hi => absurd hi (hnone i id), [req.rawEvent e], hsub, by simp,
      fun i id hi => absurd hi (hnone i id)⟩
  | stored e hrem hsub hans hclosed =>
    exact ⟨fun i j id id' hi hj => (hans i id hi).trans (hans j id' hj).symm, [req.rawEvent e],
      hsub, by simp, fun i id hi => ⟨e, rfl, (hans i id hi).symm⟩⟩

theorem forall_proc {P : Pc → Prop} {i : Nat} (hother : ∀ j ≠ i, t.proc j = s.proc j)
    (hs : ∀ j, P (s.proc j)) (hi : P (t.proc i)) (j : Nat) : P (t.proc j) := by
  by_cases hj : j = i
  · rwa [hj]
  · rw [hother j hj]
    exact hs j

section
variable (h : Phase req t₀ w₀ s)
include h

theorem Phase.lookup {i : Nat} {now : Int} (hw : t₀ ≤ now ∧ now ≤ t₀ + txnDuration)
    (hopen : ∀ j, ¬ Open (s.proc j)) (hr : lookup req s.store now true = (t.store, t.proc i))
    (hother : ∀ j ≠ i, t.proc j = s.proc j) : Phase req t₀ w₀ t := by
  cases h with
  | waiting habsent hsub hnone hpc hone =>
    obtain ⟨hmiss, habsent', hsub'⟩ := lookup_absent habsent hw.1
    rw [hr] at hmiss habsent' hsub'
    dsimp only at hmiss habsent' hsub'
    refine .waiting habsent' (hsub'.trans hsub) (fun j id => ?_) (fun j id => ?_)
      fun j k hj hk => ?_
    · exact forall_proc (P := fun pc => pc ≠ .answered (.ok id)) hother (fun j => hnone j id)
        (by rw [hmiss]; exact nofun) j
    · exact forall_proc (P := fun pc => pc ≠ .submitted id) hother (fun j => hpc j id)
        (by rw [hmiss]; exact nofun) j
    · have honly : ∀ j, Open (t.proc j) → j = i := by
        intro j hj
        by_contra hne
        rw [hother j hne] at hj
        exact hopen j hj
      rw [honly j hj, honly k hk]
  | sent k e hpc hsub hnone hone => exact absurd (hpc ▸ trivial) (hopen k)
  | stored e hrem hsub hans hclosed =>
    rw [lookup_remembered hrem hw.2] at hr
    obtain ⟨hstore, hans'⟩ := Prod.mk.inj hr
    rw [hstore] at hrem hsub
    refine .stored e hrem hsub (fun j id => ?_) fun j => ?_
    · exact forall_proc (P := fun pc => pc = .answered (.ok id) → id = e.eventID) hother
        (fun j => hans j id) (fun hj => by rw [← hans'] at hj; cases hj; rfl) j
    · exact forall_proc (P := fun pc => ¬ Open pc) hother hclosed (by rw [← hans']; exact id) j

theorem Phase.submit {i : Nat} {svc : Services} {target : Except String (Option Event)}
    (hi : s.proc i = .missed)
    (hin : ∀ e, req.prepare svc target = .ok e → svc.inputRoomEvents (req.rawEvent e) = none)
    (hr : submit req s.store svc target = (t.store, t.proc i))
    (hother : ∀ j ≠ i, t.proc j = s.proc j) : Phase req t₀ w₀ t := by
  have hopen : Open (s.proc i) := hi ▸ trivial
  cases h with
  | waiting habsent hsub hnone hpc hone =>
    unfold Redact.submit at hr
    cases hprep : req.prepare svc target with
    | error stop =>
      rw [hprep] at hr
      obtain ⟨hstore, hans⟩ := Prod.mk.inj hr
      refine .waiting (hstore ▸ habsent) (hstore ▸ hsub) (fun j id => ?_) (fun j id => ?_)
        fun j k hj hk => ?_
      · exact forall_proc (P := fun pc => pc ≠ .answered (.ok id)) hother (fun j => hnone j id)
          (by rw [← hans]; exact nofun) j
      · exact forall_proc (P := fun pc => pc ≠ .submitted id) hother (fun j => hpc j id)
          (by rw [← hans]; exact nofun) j
      · have hwas : ∀ j, Open (t.proc j) → Open (s.proc j) := by
          intro j hj
          by_cases hji : j = i
          · rw [hji, ← hans] at hj
            exact hj.elim
          · rwa [hother j hji] at hj
        exact hone j k (hwas j hj) (hwas k hk)
    | ok e =>
      rw [hprep] at hr
      dsimp only at hr
      rw [if_pos (hin e hprep)] at hr
      obtain ⟨hstore, hsent⟩ := Prod.mk.inj hr
      refine .sent i e hsent.symm (by rw [← hstore, ← hsub]) (fun j id => ?_) fun j hj => ?_
      · exact forall_proc (P := fun pc => pc ≠ .answered (.ok id)) hother (fun j => hnone j id)
          (by rw [← hsent]; exact nofun) j
      · by_contra hne
        rw [hother j hne] at hj
        exact hne (hone j i hj hopen)
  | sent k e hpc hsub hnone hone =>
    obtain rfl := hone i hopen
    rw [hpc] at hi
    cases hi
  | stored e hrem hsub hans hclosed => exact absurd hopen (hclosed i)

theorem Phase.store {i : Nat} {now : Int} {eventID : String} (hi : s.proc i = .submitted eventID)
    (hnow : t₀ ≤ now) (hrange : minInt64 ≤ now ∧ now ≤ maxInt64)
    (hfield : req.storeField eventID = req.lookupField)
    (hr : store req s.store now true eventID = (t.store, t.proc i))
    (hother : ∀ j ≠ i, t.proc j = s.proc j) : Phase req t₀ w₀ t := by
  have hopen : Open (s.proc i) := hi ▸ trivial
  cases h with
  | waiting habsent hsub hnone hpc hone => exact absurd hi (hpc i eventID)
  | sent k e hpc hsub hnone hone =>
    obtain rfl := hone i hopen
    obtain rfl : eventID = e.eventID := by
      rw [hpc] at hi
      cases hi
      rfl
    obtain ⟨hstore, hans⟩ := Prod.mk.inj hr
    rw [if_pos rfl, hfield] at hstore
    refine .stored e ⟨now, hnow, hrange, ?_⟩ (by rw [← hstore]; exact hsub) (fun j id => ?_)
      fun j hj => ?_
    · rw [← hstore, set_hashes, if_pos ⟨rfl, rfl⟩]
    · exact forall_proc (P := fun pc => pc = .answered (.ok id) → id = e.eventID) hother
        (fun j hj => absurd hj (hnone j id)) (fun hj => by rw [← hans] at hj; cases hj; rfl) j
    · by_cases hji : j = i
      · rw [hji, ← hans] at hj
        exact hj
      · rw [hother j hji] at hj
        exact hji (hone j hj)
  | stored e hrem hsub hans hclosed => exact absurd hopen (hclosed i)

theorem Phase.step {a : Nat × Act} (ht₀ : minInt64 ≤ t₀ ∧ t₀ + txnDuration ≤ maxInt64)
    (hw : Within t₀ a.2) (hc : Orderly req s a) (hr : step req s a = some t) :
    Phase req t₀ w₀ t := by
  obtain ⟨i, a⟩ := a
  obtain ⟨hstep, hother⟩ := procsStep_eq_some hr
  cases a with
  | lookup now read =>
    obtain ⟨rfl, hopen⟩ := hc
    simp only [redactStep] at hstep
    split at hstep
    · exact h.lookup hw hopen (some.inj hstep) hother
    · cases hstep
  | submit svc target =>
    simp only [redactStep] at hstep
    split at hstep
    · rename_i hi
      exact h.submit hi hc (some.inj hstep) hother
    · cases hstep
  | store now write =>
    obtain ⟨rfl, hfield⟩ := hc
    simp only [redactStep] at hstep
    split at hstep
    · rename_i eventID hi
      obtain ⟨hlow, hhigh⟩ := hw
      exact h.store hi hlow ⟨by omega, by omega⟩ (hfield eventID hi) (some.inj hstep) hother
    · cases hstep

end

/-- **Redactions are idempotent** within `txnDuration` seconds, if the requests do not overlap,
nothing fails, and what is remembered is what is looked up. -/
theorem redact_idempotent (ht₀ : minInt64 ≤ t₀ ∧ t₀ + txnDuration ≤ maxInt64)
    (habsent : Absent req t₀ w₀) {as : List (Nat × Act)} (hw : ∀ a ∈ as, Within t₀ a.2)
    (hm : RunMeets (Redact.step req) (Orderly req) (.init w₀) as)
    (hr : run (Redact.step req) (.init w₀) as = some s) : Idempotent req w₀ s := by
  have hphase := run_invariant (fun hu hc ht => hu.step ht₀ hc.2 hc.1 ht) (phase_init habsent)
    (hm.and_mem hw) hr
  exact hphase.idempotent

end

/-! ## Alice redacts a message -/

def message : Event where
  eventID := "$5:x"
  roomID := "!r:x"
  sender := "@a:x"
  type := "m.room.message"
  stateKey := none
  content := .obj [("body", .string "hello")]
  originServerTS := 0
  redacts := ""
  redactsSender := ""

def redaction (txnID : Option String) : RedactRequest where
  userID := "@a:x"
  deviceID := "phone"
  roomID := "!r:x"
  txnID := txnID
  stateKey := none
  redacts := "$5:x"
  eventType := "m.room.redaction"
  content := .obj []

def request (i : Nat) (now nid : Int) : List (Nat × Act) :=
  [(i, .lookup now true), (i, .submit { services with
      queryRoomState := fun _ => (sharedRoom, true)
      eventNID := nid } (.ok (some message))), (i, .store now true)]

/-- Without a transaction id Alice gets two answers, and two redactions are submitted. -/
theorem redacted_twice :
    ∃ s, run (step (redaction none)) (.init quiet) (request 0 1000 6 ++ request 1 1001 7) = some s ∧
      s.proc 0 = .answered (.ok "$6:x") ∧ s.proc 1 = .answered (.ok "$7:x") ∧
      s.store.submitted.length = 2 :=
  ⟨_, rfl, rfl, rfl, rfl⟩

def withTxn : List (Nat × Act) := request 0 1000 6 ++ [(1, .lookup 1001 true)]

theorem redact_idempotent_txn :
    ∃ s, run (step (redaction (some "1"))) (.init quiet) withTxn = some s ∧
      s.proc 0 = .answered (.ok "$6:x") ∧ s.proc 1 = .answered (.ok "$6:x") ∧
      Idempotent (redaction (some "1")) quiet s := by
  have hw : ∀ a ∈ withTxn, Within 1000 a.2 := by
    simp [withTxn, request, Within, txnDuration]
  have hm : RunMeets (step (redaction (some "1"))) (Orderly (redaction (some "1"))) (.init quiet)
      withTxn := by
    refine ⟨⟨rfl, fun _ => id⟩, fun _ _ => rfl, ⟨rfl, fun id _ => storeField_of_txnID _ rfl id⟩,
      ⟨rfl, fun j => ?_⟩, trivial⟩
    cases j with
    | zero => exact id
    | succ j => exact id
  exact ⟨_, rfl, rfl, rfl, redact_idempotent (by decide) rfl hw hm rfl⟩

end Ligase.Client.Redact

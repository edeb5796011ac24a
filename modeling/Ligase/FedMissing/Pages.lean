import Mathlib.Data.List.Perm.Basic
import Ligase.Lib.Run
import Ligase.Lib.Text

/-!
# Fetching missing events

A request for the events before an event is a row of a table and an item of a list. One goroutine
takes the items off the list, fetches pages from the server of the event, in both directions, keeps
what was asked for, submits it to the room server and marks the row. When the service starts again,
the items are made from the rows that are not marked, which do not have the offset of the event.

* **`finished_when_done`**: when what was asked for is submitted before the record is marked.
-/

namespace Ligase.FedMissing

open Lib List Option

/-! ## Requests and pages -/

structure Event where
  eventID : String
  eventNID : Int
  domainOffset : Int
  depth : Int
  deriving DecidableEq

def Event.setDepth (depth : Int) (v : Event) : Event := { v with depth := depth }

structure GetMissingEventsInfo where
  roomID : String
  eventID : String
  limit : Int
  domainOffset : Int
  deriving DecidableEq

namespace GetMissingEventsInfo

variable (info : GetMissingEventsInfo)

def key : String × String := (info.roomID, info.eventID)

def wants (v : Event) : Bool :=
  v.domainOffset < info.domainOffset ∧ v.domainOffset ≥ int64 (info.domainOffset - info.limit)

def pageLimit : Int := if info.limit > 25 then 25 else info.limit

def rounds : Int := info.limit.tdiv info.pageLimit + 3

end GetMissingEventsInfo

def least (minEventID : String) (wanted : List Event) : String :=
  (wanted.foldl (fun m v => if m.1 > v.domainOffset then (v.domainOffset, v.eventID) else m)
    (maxInt64, minEventID)).2

def greatest (maxEventID : String) (wanted : List Event) : String :=
  (wanted.foldl (fun m v => if m.1 < v.domainOffset then (v.domainOffset, v.eventID) else m)
    (minInt64, maxEventID)).2

/-- What comes next: a page backwards, a page forwards, or the loop is over. -/
inductive Pc where
  | backward
  | forward
  | done
  deriving DecidableEq

structure Loop where
  info : GetMissingEventsInfo
  i : Nat
  minEventID : String
  maxEventID : String
  forwardFinished : Bool
  backwardFinished : Bool
  backfilPDUs : List Event
  pc : Pc
  deriving DecidableEq

namespace Loop

variable (l : Loop)

def goto (pc : Pc) : Loop := { l with pc := pc }

/-- The page that is asked for: from which event, how many, and the direction. -/
def request : Option (String × Int × String) :=
  match l.pc with
  | .backward => some (l.minEventID, l.info.pageLimit * 2, "b")
  | .forward => some (l.maxEventID, l.info.pageLimit, "f")
  | .done => none

def round : Loop :=
  if (l.i : Int) < l.info.rounds then
    if !l.backwardFinished then l.goto .backward
    else if !l.forwardFinished then l.goto .forward
    else l.goto .done
  else l.goto .done

def bottom : Loop :=
  if l.forwardFinished && l.backwardFinished then l.goto .done else { l with i := l.i + 1 }.round

def isFull : Bool := (l.backfilPDUs.length : Int) = l.info.limit

def readBackward (pdus : List Event) : Loop :=
  { l with
    backwardFinished := l.backwardFinished || pdus.isEmpty
    backfilPDUs := l.backfilPDUs ++ pdus.filter l.info.wants
    minEventID := least l.minEventID (pdus.filter l.info.wants) }

def readForward (pdus : List Event) : Loop :=
  { l with
    forwardFinished := l.forwardFinished || pdus.isEmpty
    backfilPDUs := l.backfilPDUs ++ pdus.filter l.info.wants
    maxEventID := greatest l.maxEventID (pdus.filter l.info.wants) }

def afterBackward : Loop :=
  if l.isFull then l.goto .done
  else if !l.forwardFinished then l.goto .forward
  else l.bottom

def afterForward : Loop := if l.isFull then l.goto .done else l.bottom

def page (pdus : List Event) : Loop :=
  match l.pc with
  | .backward => (l.readBackward pdus).afterBackward
  | .forward => (l.readForward pdus).afterForward
  | .done => l

/-- The loop begins; a limit of zero is a division by zero. -/
def start (info : GetMissingEventsInfo) : Option Loop :=
  if info.limit = 0 then none
  else some { info, i := 0, minEventID := info.eventID, maxEventID := info.eventID,
              forwardFinished := false, backwardFinished := false, backfilPDUs := [],
              pc := .done : Loop }.round

/-! ### The loop ends -/

def Ok : Prop := l.pc ≠ .done → (l.i : Int) < l.info.rounds

def left : Nat :=
  match l.pc with
  | .backward => 2 * (l.info.rounds - l.i).toNat
  | .forward => 2 * (l.info.rounds - l.i).toNat - 1
  | .done => 0

theorem left_le : l.left ≤ 2 * l.info.rounds.toNat := by
  unfold left
  cases l.pc <;> dsimp only <;> omega

variable {l}

theorem ok_done (h : l.pc = .done) : l.Ok := fun hne => absurd h hne

theorem round_spec : l.round.Ok ∧ l.round.left ≤ 2 * (l.info.rounds - l.i).toNat ∧
    l.round.info = l.info ∧ l.round.backfilPDUs = l.backfilPDUs := by
  unfold round
  split_ifs with hi
  · exact ⟨fun _ => hi, Nat.le_refl _, rfl, rfl⟩
  · exact ⟨fun _ => hi, Nat.sub_le _ _, rfl, rfl⟩
  all_goals exact ⟨ok_done rfl, Nat.zero_le _, rfl, rfl⟩

theorem bottom_spec : l.bottom.Ok ∧ l.bottom.left ≤ 2 * (l.info.rounds - l.i).toNat - 2 ∧
    l.bottom.info = l.info ∧ l.bottom.backfilPDUs = l.backfilPDUs := by
  unfold bottom
  split_ifs
  · exact ⟨ok_done rfl, Nat.zero_le _, rfl, rfl⟩
  · obtain ⟨hok, hleft, hinfo, hkeep⟩ := round_spec (l := { l with i := l.i + 1 })
    refine ⟨hok, hleft.trans ?_, hinfo, hkeep⟩
    dsimp only
    omega

theorem page_spec (hl : l.Ok) (hpc : l.pc ≠ .done) (pdus : List Event) :
    (l.page pdus).Ok ∧ (l.page pdus).left < l.left ∧ (l.page pdus).info = l.info ∧
      (l.page pdus).backfilPDUs = l.backfilPDUs ++ pdus.filter l.info.wants := by
  have hi := hl hpc
  unfold page
  cases hp : l.pc with
  | done => exact absurd hp hpc
  | backward =>
    have hleft : l.left = 2 * (l.info.rounds - l.i).toNat := by simp only [left, hp]
    unfold afterBackward
    split_ifs
    · refine ⟨ok_done rfl, ?_, rfl, rfl⟩
      show 0 < _
      omega
    · refine ⟨fun _ => hi, ?_, rfl, rfl⟩
      show 2 * (l.info.rounds - l.i).toNat - 1 < _
      omega
    · obtain ⟨hok, hb, hinfo, hkeep⟩ := bottom_spec (l := l.readBackward pdus)
      refine ⟨hok, Nat.lt_of_le_of_lt hb ?_, hinfo, hkeep⟩
      show 2 * (l.info.rounds - l.i).toNat - 2 < _
      omega
  | forward =>
    have hleft : l.left = 2 * (l.info.rounds - l.i).toNat - 1 := by simp only [left, hp]
    unfold afterForward
    split_ifs
    · refine ⟨ok_done rfl, ?_, rfl, rfl⟩
      show 0 < _
      omega
    · obtain ⟨hok, hb, hinfo, hkeep⟩ := bottom_spec (l := l.readForward pdus)
      refine ⟨hok, Nat.lt_of_le_of_lt hb ?_, hinfo, hkeep⟩
      show 2 * (l.info.rounds - l.i).toNat - 2 < _
      omega

theorem page_done (h : l.pc = .done) (pdus : List Event) : l.page pdus = l := by
  simp only [page, h]

theorem foldl_page_done (h : l.pc = .done) (pages : List (List Event)) :
    pages.foldl page l = l := by
  induction pages with
  | nil => rfl
  | cons pdus pages ih => rw [foldl_cons, page_done h, ih]

theorem ends (hl : l.Ok) {pages : List (List Event)} (hlen : l.left ≤ pages.length) :
    (pages.foldl page l).pc = .done := by
  induction pages generalizing l with
  | nil =>
    by_contra hpc
    have hi := hl hpc
    have h0 : l.left = 0 := Nat.le_zero.mp hlen
    unfold left at h0
    cases hp : l.pc with
    | done => exact hpc hp
    | backward => simp only [hp] at h0; omega
    | forward => simp only [hp] at h0; omega
  | cons pdus pages ih =>
    by_cases hpc : l.pc = .done
    · rw [foldl_page_done hpc, hpc]
    · obtain ⟨hok, hlt, -⟩ := page_spec hl hpc pdus
      exact ih hok (by rw [length_cons] at hlen; omega)

theorem bottom_done (hf : l.forwardFinished = true) (hb : l.backwardFinished = true) :
    l.bottom.pc = .done := by
  unfold bottom
  rw [hf, hb]
  rfl

theorem page_empty_done (hb : l.pc = .backward → l.forwardFinished = true)
    (hf : l.pc = .forward → l.backwardFinished = true) : (l.page []).pc = .done := by
  unfold page
  cases hp : l.pc with
  | done => exact hp
  | backward =>
    have hfin := hb hp
    unfold afterBackward
    split_ifs with hfull hnf
    · rfl
    · simp [readBackward, hfin] at hnf
    · exact bottom_done hfin (by simp [readBackward])
  | forward =>
    have hfin := hf hp
    unfold afterForward
    split_ifs
    · rfl
    · exact bottom_done (by simp [readForward]) hfin

theorem page_empty_backward (hp : l.pc = .backward) :
    (l.page []).pc ≠ .backward ∧ (l.page []).backwardFinished = true := by
  have hb : (l.readBackward []).backwardFinished = true := by simp [readBackward]
  simp only [page, hp]
  unfold afterBackward
  split_ifs with hfull hf
  · exact ⟨by simp [goto], hb⟩
  · exact ⟨by simp [goto], hb⟩
  · have hf' : (l.readBackward []).forwardFinished = true := by simpa using hf
    refine ⟨by simp [bottom_done hf' hb], ?_⟩
    unfold bottom
    rw [hf', hb]
    exact hb

theorem page_empty_forward (hp : l.pc = .forward) :
    (l.page []).pc ≠ .forward ∧ (l.page []).forwardFinished = true := by
  have hf : (l.readForward []).forwardFinished = true := by simp [readForward]
  simp only [page, hp]
  unfold afterForward
  split_ifs
  · exact ⟨by simp [goto], hf⟩
  · unfold bottom round
    rw [hf]
    split_ifs with hb hi hnb
    · exact ⟨by simp [goto], hf⟩
    · exact ⟨by simp [goto], rfl⟩
    · exact absurd (by simpa using hnb) (by simpa using hb)
    · exact absurd (by simpa using hnb) (by simpa using hb)
    · exact ⟨by simp [goto], rfl⟩

theorem ends_of_empty : ([[], []].foldl page l).pc = .done := by
  show ((l.page []).page []).pc = .done
  cases hp : l.pc with
  | done => rw [page_done hp, page_done hp, hp]
  | backward =>
    obtain ⟨hne, hb⟩ := page_empty_backward hp
    exact page_empty_done (fun h => absurd h hne) fun _ => hb
  | forward =>
    obtain ⟨hne, hf⟩ := page_empty_forward hp
    exact page_empty_done (fun _ => hf) fun h => absurd h hne

end Loop

/-! ## The processor -/

structure Row where
  roomID : String
  eventID : String
  amount : Int
  finished : Bool
  deriving DecidableEq

def Row.key (r : Row) : String × String := (r.roomID, r.eventID)

def Row.info (r : Row) : GetMissingEventsInfo := ⟨r.roomID, r.eventID, r.amount, 0⟩

/-- The table, the list and the item that is worked on; and for the statements the events that came,
what was submitted, and the keys of the records with an error in the log. -/
structure State where
  rows : List Row
  missings : List GetMissingEventsInfo
  current : Option Loop
  returned : List ((String × String) × Event)
  submitted : List ((String × String) × Event)
  reported : List (String × String)
  deriving DecidableEq

def State.init : State := ⟨[], [], none, [], [], []⟩

inductive Act where
  /-- a message, and whether the database answers -/
  | message (info : GetMissingEventsInfo) (dbOk : Bool)
  | restart
  /-- the next item, and whether the address of its server is known -/
  | pop (located : Bool)
  /-- the answer to the request for a page, or an error -/
  | page (resp : Option (List Event))
  /-- the submission, and whether it and the update of the row succeed -/
  | input (events : List Event) (ok dbOk : Bool)

namespace State

variable (s : State) (info : GetMissingEventsInfo)

/-- The insertion fails if there is a row with the key. -/
def insertMissingEvents : State :=
  if s.rows.any (·.key = info.key) then s
  else { s with rows := s.rows ++ [⟨info.roomID, info.eventID, info.limit, false⟩] }

def updateMissingEvents (key : String × String) : State :=
  { s with rows := s.rows.map fun r => if r.key = key then { r with finished := true } else r }

def selectMissingEvents : List Row := s.rows.filter (!·.finished)

def push : State := { s with missings := s.missings ++ [info] }

def report (key : String × String) : State :=
  { s with current := none, reported := s.reported ++ [key] }

def begin (located : Bool) : Option State :=
  match cut ':' info.eventID with
  | none => some (s.report info.key)
  | some _ =>
    if located then (Loop.start info).map fun l => { s with current := some l }
    else some (s.report info.key)

end State

/-- The kept events in the order of their numbers, which sorting need not keep stable. -/
def IsBatch (l : Loop) (events : List Event) : Prop :=
  events.Perm (l.backfilPDUs.map (Event.setDepth (-1))) ∧
    events.Pairwise fun a b => a.eventNID ≤ b.eventNID

instance (l : Loop) (events : List Event) : Decidable (IsBatch l events) :=
  inferInstanceAs (Decidable (_ ∧ _))

def step (s : State) : Act → Option State
  | .message info dbOk => some ((if dbOk then s.insertMissingEvents info else s).push info)
  | .restart => some { s with missings := s.selectMissingEvents.map Row.info, current := none }
  | .pop located =>
    match s.current, s.missings with
    | none, info :: missings => { s with missings := missings }.begin info located
    | _, _ => none
  | .page resp =>
    match s.current with
    | some l =>
      if l.pc = .done then none
      else
        match resp with
        | some pdus =>
          some { s with
            current := some (l.page pdus)
            returned := s.returned ++ pdus.map fun v => (l.info.key, v) }
        | none => some (s.report l.info.key)
    | none => none
  | .input events ok dbOk =>
    match s.current with
    | some l =>
      if l.pc = .done ∧ IsBatch l events then
        if ok then
          let s := { s with
            current := none
            submitted := s.submitted ++ events.map fun v => (l.info.key, v) }
          some (if dbOk then s.updateMissingEvents l.info.key else s)
        else some ((s.report l.info.key).push l.info)
      else none
    | none => none

/-! ## What came is submitted -/

/-- Of the work on a record: its messages say the same, and a restart does not cut it off. -/
def Undisturbed (info : GetMissingEventsInfo) (s : State) : Act → Prop
  | .message info' _ => info'.key = info.key → info' = info
  | .restart =>
    (∀ r ∈ s.selectMissingEvents, r.key ≠ info.key) ∧
      ∀ l, s.current = some l → l.info.key ≠ info.key
  | _ => True

/-- The items of a record are its request; what was asked for and came is submitted or kept, unless
an error was logged. -/
structure Tracked (info : GetMissingEventsInfo) (s : State) : Prop where
  missings : ∀ i ∈ s.missings, i.key = info.key → i = info
  current : ∀ l, s.current = some l → l.Ok ∧ (l.info.key = info.key → l.info = info)
  kept : info.key ∉ s.reported → ∀ v, (info.key, v) ∈ s.returned → info.wants v = true →
    (info.key, v.setDepth (-1)) ∈ s.submitted ∨
      ∃ l, s.current = some l ∧ l.info.key = info.key ∧ v ∈ l.backfilPDUs

variable {info : GetMissingEventsInfo} {s t : State}

theorem tracked_init : Tracked info .init where
  missings := fun _ hi => absurd hi not_mem_nil
  current := fun _ hl => by simp [State.init] at hl
  kept := fun _ _ hv => absurd hv not_mem_nil

section
variable (h : Tracked info s)
include h

theorem Tracked.message {info' : GetMissingEventsInfo} (hC : info'.key = info.key → info' = info)
    (dbOk : Bool) :
    Tracked info ((if dbOk then s.insertMissingEvents info' else s).push info') := by
  have hins : ∀ s' : State, s'.missings = s.missings → s'.current = s.current →
      s'.returned = s.returned → s'.submitted = s.submitted → s'.reported = s.reported →
      Tracked info (s'.push info') := by
    intro s' hm hc hr hs he
    refine ⟨fun i hi hk => ?_, by simpa only [State.push, hc] using h.current,
      by simpa only [State.push, hc, hr, hs, he] using h.kept⟩
    rcases mem_append.mp hi with hi | hi
    · exact h.missings i (hm ▸ hi) hk
    · obtain rfl := mem_singleton.mp hi
      exact hC hk
  split_ifs
  · unfold State.insertMissingEvents
    split_ifs <;> exact hins _ rfl rfl rfl rfl rfl
  · exact hins _ rfl rfl rfl rfl rfl

theorem Tracked.report {key : String × String} (hcur : ∀ l, s.current = some l → l.info.key = key) :
    Tracked info (s.report key) where
  missings := h.missings
  current := fun l hl => by simp [State.report] at hl
  kept := by
    intro hne v hv hw
    have hmem : info.key ∉ s.reported ∧ info.key ≠ key := by
      simpa [State.report, mem_append] using hne
    refine .inl ((h.kept hmem.1 v hv hw).resolve_right ?_)
    rintro ⟨l, hl, hk, -⟩
    exact hmem.2 (hk.symm.trans (hcur l hl))

theorem Tracked.report_current {l : Loop} (hl : s.current = some l) :
    Tracked info (s.report l.info.key) := by
  refine h.report fun l' hl' => ?_
  obtain rfl := some.inj (hl.symm.trans hl')
  rfl

theorem Tracked.begin (hnone : s.current = none) {i : GetMissingEventsInfo}
    (hi : i.key = info.key → i = info) {located : Bool} (ht : s.begin i located = some t) :
    Tracked info t := by
  have hcur : ∀ l, s.current = some l → l.info.key = i.key := by
    intro l hl
    rw [hnone] at hl
    cases hl
  unfold State.begin at ht
  split at ht
  · cases ht
    exact h.report hcur
  · split_ifs at ht
    · obtain ⟨l, hl, rfl⟩ := map_eq_some_iff.mp ht
      unfold Loop.start at hl
      split_ifs at hl
      obtain rfl := some.inj hl
      obtain ⟨hok, -, hinfo, -⟩ := Loop.round_spec (l := ⟨i, 0, i.eventID, i.eventID, false, false,
        [], .done⟩)
      refine ⟨h.missings, fun l hl => ?_, fun hne v hv hw => ?_⟩
      · obtain rfl := some.inj hl
        exact ⟨hok, fun hk => hinfo.trans (hi (by rwa [hinfo] at hk))⟩
      · refine .inl ((h.kept hne v hv hw).resolve_right ?_)
        rintro ⟨l, hl, -⟩
        rw [hnone] at hl
        cases hl
    · cases ht
      exact h.report hcur

theorem Tracked.page {l : Loop} (hl : s.current = some l) (hpc : l.pc ≠ .done) (pdus : List Event) :
    Tracked info { s with
      current := some (l.page pdus)
      returned := s.returned ++ pdus.map fun v => (l.info.key, v) } := by
  obtain ⟨hok, -, hinfo, hkeep⟩ := Loop.page_spec (h.current l hl).1 hpc pdus
  refine ⟨h.missings, fun l' hl' => ?_, fun hne v hv hw => ?_⟩
  · obtain rfl := some.inj hl'
    exact ⟨hok, fun hk => hinfo.trans ((h.current l hl).2 (hinfo ▸ hk))⟩
  · rcases mem_append.mp hv with hv | hv
    · -- what was kept before stays kept
      refine (h.kept hne v hv hw).imp id ?_
      rintro ⟨l', hl', hk, hmem⟩
      obtain rfl := some.inj (hl.symm.trans hl')
      exact ⟨_, rfl, by rw [hinfo]; exact hk, by rw [hkeep]; exact mem_append_left _ hmem⟩
    · obtain ⟨w, hwm, heq⟩ := mem_map.mp hv
      obtain ⟨hk, rfl⟩ := Prod.mk.inj heq
      have hsame := (h.current l hl).2 hk
      refine .inr ⟨_, rfl, by rw [hinfo]; exact hk, ?_⟩
      rw [hkeep, hsame]
      exact mem_append_right _ (mem_filter.mpr ⟨hwm, hw⟩)

theorem Tracked.input {l : Loop} (hl : s.current = some l) {events : List Event}
    (hb : IsBatch l events) :
    Tracked info { s with
      current := none
      submitted := s.submitted ++ events.map fun v => (l.info.key, v) } := by
  refine ⟨h.missings, fun l' hl' => by simp at hl', fun hne v hv hw => .inl ?_⟩
  rcases h.kept hne v hv hw with hsub | ⟨l', hl', hk, hmem⟩
  · exact mem_append_left _ hsub
  · obtain rfl := some.inj (hl.symm.trans hl')
    refine mem_append_right _ (mem_map.mpr ⟨v.setDepth (-1), ?_, by rw [hk]⟩)
    exact hb.1.mem_iff.mpr (mem_map_of_mem hmem)

theorem Tracked.restart (hC : Undisturbed info s .restart) :
    Tracked info { s with missings := s.selectMissingEvents.map Row.info, current := none } := by
  refine ⟨fun i hi hk => ?_, fun l hl => by simp at hl, fun hne v hv hw => .inl ?_⟩
  · obtain ⟨r, hr, rfl⟩ := mem_map.mp hi
    exact absurd hk (hC.1 r hr)
  · refine (h.kept hne v hv hw).resolve_right ?_
    rintro ⟨l, hl, hk, -⟩
    exact hC.2 l hl hk

end

theorem Tracked.step {a : Act} (h : Tracked info s) (hC : Undisturbed info s a)
    (ht : step s a = some t) : Tracked info t := by
  cases a with
  | message info' dbOk =>
    cases ht
    exact h.message hC dbOk
  | restart =>
    cases ht
    exact h.restart hC
  | pop located =>
    simp only [FedMissing.step] at ht
    split at ht
    · rename_i i missings hnone hmiss
      have hmem : i ∈ s.missings := hmiss ▸ mem_cons_self
      refine begin (s := { s with missings := missings }) ⟨fun j hj => ?_, h.current,
        h.kept⟩ hnone (h.missings i hmem) ht
      exact h.missings j (hmiss ▸ mem_cons_of_mem i hj)
    · cases ht
  | page resp =>
    simp only [FedMissing.step] at ht
    split at ht
    · rename_i l hl
      split_ifs at ht with hpc
      split at ht
      · cases ht
        exact h.page hl hpc _
      · cases ht
        exact h.report_current hl
    · cases ht
  | input events ok dbOk =>
    simp only [FedMissing.step] at ht
    split at ht
    · rename_i l hl
      split_ifs at ht with hb hok hdb
      · cases ht
        exact ⟨(h.input hl hb.2).missings, (h.input hl hb.2).current, (h.input hl hb.2).kept⟩
      · cases ht
        exact h.input hl hb.2
      · cases ht
        have hrep := h.report_current hl
        refine ⟨fun i hi hk => ?_, hrep.current, hrep.kept⟩
        rcases mem_append.mp hi with hi | hi
        · exact h.missings i hi hk
        · obtain rfl := mem_singleton.mp hi
          exact (h.current l hl).2 hk
    · cases ht

theorem step_input {events : List Event} (ht : step s (.input events true true) = some t) :
    t.current = none ∧ t.reported = s.reported := by
  simp only [step] at ht
  split at ht
  · split_ifs at ht
    · cases ht
      exact ⟨rfl, rfl⟩
  · cases ht

/-- The offset is one of the last `limit` ones before the event. -/
def GetMissingEventsInfo.InGap (info : GetMissingEventsInfo) (v : Event) : Prop :=
  info.domainOffset - info.limit ≤ v.domainOffset ∧ v.domainOffset ≤ info.domainOffset - 1

theorem wants_of_inGap (hD : IsInt64 info.domainOffset)
    (hn : minInt64 ≤ info.domainOffset - info.limit) {v : Event} (hv : info.InGap v) :
    info.wants v = true := by
  obtain ⟨hlow, hhigh⟩ := hv
  have hD := hD.2
  have h64 := int64_eq_self ⟨hn, by omega⟩
  unfold GetMissingEventsInfo.wants
  rw [h64]
  exact decide_eq_true ⟨by omega, hlow⟩

/-- **The work on a record is finished only when it is done**, as long as its messages say the same
and no restart cuts it off; and the loop over the pages ends. -/
theorem finished_when_done {acts : List Act} (hD : IsInt64 info.domainOffset)
    (hn : minInt64 ≤ info.domainOffset - info.limit)
    (hm : RunMeets step (Undisturbed info) .init acts) (hr : run step .init acts = some s) :
    (∀ l events, s.current = some l → l.info.key = info.key → info.key ∉ s.reported →
      step s (.input events true true) = some t →
      ∀ v, (info.key, v) ∈ t.returned → info.InGap v →
        (info.key, v.setDepth (-1)) ∈ t.submitted) ∧
    ∀ l, s.current = some l →
      (∀ pages : List (List Event), 2 * l.info.rounds ≤ pages.length →
        (pages.foldl Loop.page l).pc = .done) ∧
      ([[], []].foldl Loop.page l).pc = .done := by
  have hs : Tracked info s := run_invariant Tracked.step tracked_init hm hr
  refine ⟨fun l events hl hk hne ht v hv hgap => ?_, fun l hl => ⟨fun pages hlen => ?_, ?_⟩⟩
  · obtain ⟨hcur, hrep⟩ := step_input ht
    have ht' : Tracked info t := hs.step (a := .input events true true) trivial ht
    refine (ht'.kept (hrep ▸ hne) v hv (wants_of_inGap hD hn hgap)).resolve_right ?_
    rintro ⟨l', hl', -⟩
    rw [hcur] at hl'
    cases hl'
  · have hleft := l.left_le
    exact Loop.ends (hs.current l hl).1 (by omega)
  · exact Loop.ends_of_empty

/-! ## Two events before the seventh -/

def gapInfo : GetMissingEventsInfo := ⟨"!r:x", "$7:y", 2, 7⟩

def eventY (n : Int) : Event := ⟨"$" ++ toString n ++ ":y", n, n, 1⟩

def fetched : List Act := [.message gapInfo true, .pop true, .page (some [eventY 6, eventY 5])]

def afterPage : State := (run step .init fetched).getD .init

def afterInput : State :=
  (step afterPage (.input ([eventY 5, eventY 6].map (Event.setDepth (-1))) true true)).getD .init

theorem finished_when_done_two :
    (gapInfo.key, (eventY 5).setDepth (-1)) ∈ afterInput.submitted := by
  have hm : RunMeets step (Undisturbed gapInfo) .init fetched :=
    ⟨fun _ => rfl, trivial, trivial, trivial⟩
  have hr : run step .init fetched = some afterPage := by decide
  have ht : step afterPage (.input ([eventY 5, eventY 6].map (Event.setDepth (-1))) true true) =
      some afterInput := by decide
  exact (finished_when_done ⟨by decide, by decide⟩ (by decide) hm hr).1 _ _ rfl rfl (by decide) ht
    (eventY 5) (by decide) ⟨by decide, by decide⟩

/-- A restart after the first page; then the same page comes again, and two empty ones. -/
def restarted : List Act :=
  [.message gapInfo true, .pop true, .page (some [eventY 6]), .restart, .pop true,
    .page (some [eventY 6, eventY 5]), .page (some []), .page (some []), .input [] true true]

/-- **Nothing is submitted after a restart.** The item made from the row has no offset, so that none
of the events that come was asked for; the record is marked all the same. -/
theorem restart_loses : ∃ t, run step .init restarted = some t ∧
    t.rows = [⟨"!r:x", "$7:y", 2, true⟩] ∧ t.reported = [] ∧
    (gapInfo.key, eventY 5) ∈ t.returned ∧ gapInfo.InGap (eventY 5) ∧ t.submitted = [] := by
  refine ⟨(run step .init restarted).getD .init, by decide, by decide, by decide, by decide,
    ⟨by decide, by decide⟩, by decide⟩

end Ligase.FedMissing

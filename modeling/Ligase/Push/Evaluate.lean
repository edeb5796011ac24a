import Ligase.Lib.Proc
import Ligase.Push.Actions
import Ligase.Push.Glob

/-!
# Evaluating push rules

`processPush` goes through the rules of a user in their order and acts on the first enabled one
whose conditions hold. The conditions read the user id and the display name through pointers, and
`globalMatch` writes the text of its regular expression over what it is given: a condition on the
user id or the display name changes it for the conditions and the action that come after.

* **`processPush_first_match`**: when what is done is what the first rule says that holds for the
  original names.
-/

namespace Ligase.Push

open Lib List Proc

structure Gjson where
  raw : String
  str : String
  string : String

inductive Panic where
  | mustCompile (e : Regex.Error)
  | typeAssertion

structure Input where
  type : String
  roomID : String
  eventID : String

structure PushPubContent (π : Type) where
  userID : String
  pushers : List π
  action : TweakAction
  notifyCount : Int

/-- Two variables of the caller, the read counts, and what is to be published. -/
structure Evaluation (ρ π : Type) where
  userID : String
  displayName : String
  counts : ρ
  contents : List (PushPubContent π)

structure CountRepo (ρ : Type) where
  update : ρ → String → String → String → String → ρ
  get : ρ → String → String → Int

variable {c : PushCondition} {rules : List PushRule}

section
variable {ρ π : Type}

/-! ## Conditions -/

def matchUserID (req : String) (wordBoundary : Bool) : Proc (Evaluation ρ π) Panic Bool := fun s =>
  let r := globalMatch s.userID.toList req.toList wordBoundary
  (r.1.mapError .mustCompile, { s with userID := String.ofList r.2 })

def matchDisplayName (req : String) (wordBoundary : Bool) : Proc (Evaluation ρ π) Panic Bool :=
  fun s =>
    let r := globalMatch s.displayName.toList req.toList wordBoundary
    (r.1.mapError .mustCompile, { s with displayName := String.ofList r.2 })

def matchCopy (pattern req : String) (wordBoundary : Bool) : Proc (Evaluation ρ π) Panic Bool :=
  Proc.ofExcept ((globalMatch pattern.toList req.toList wordBoundary).1.mapError .mustCompile)

/-- `eventMatch`. The pattern of the condition is that of the loop's copy. -/
def eventMatch (event : String → Gjson) (condition : PushCondition) :
    Proc (Evaluation ρ π) Panic Bool := do
  let context := (event condition.key).string
  let wordBoundary : Bool := condition.key = "content.body"
  if condition.pattern = "" then return false
  else if condition.pattern = "user_id" then
    if context = "" then return false else matchUserID context wordBoundary
  else if condition.pattern = "user_localpart" then
    let userID ← Proc.query Evaluation.userID
    match Token.splitID '@' userID with
    | none => return false
    | some (localPart, _) =>
      if context = "" then return false else matchCopy localPart context wordBoundary
  else if context = "" then return false else matchCopy condition.pattern context wordBoundary

def containsDisplayName (event : String → Gjson) : Proc (Evaluation ρ π) Panic Bool := do
  let displayName ← Proc.query Evaluation.displayName
  if displayName = "" then return false
  else
    let value := (event "content.body").string
    if value = "" then return false else matchDisplayName value true

/-- `roomMemberCount`; a number that is too large is read as the largest. -/
def roomMemberCount (condition : PushCondition) (memCount : Int) : Except Panic Bool := do
  if condition.is = "" then return false
  let reg ← (Regex.compile "^([=<>]*)([0-9]*)$".toList).mapError .mustCompile
  match reg.submatch condition.is.toList with
  | none => return false
  | some s =>
    let num := (atoi (String.ofList (s 2))).getD (if s 2 = [] then 0 else maxInt64)
    match String.ofList (s 1) with
    | "" => return memCount = num
    | "==" => return memCount = num
    | "<" => return memCount < num
    | ">" => return memCount > num
    | "<=" => return memCount ≤ num
    | ">=" => return memCount ≥ num
    | _ => return false

def signal (event : String → Gjson) : Proc (Evaluation ρ π) Panic Bool := do
  let userID ← Proc.query Evaluation.userID
  let raw := (event "content.signals").raw
  if raw = "" then return false
  else if contains raw "@all" then return true
  else return contains raw userID

def isMatch (event : String → Gjson) (memCount : Int) (condition : PushCondition) :
    Proc (Evaluation ρ π) Panic Bool :=
  if condition.kind = "event_match" then eventMatch event condition
  else if condition.kind = "contains_display_name" then containsDisplayName event
  else if condition.kind = "room_member_count" then
    Proc.ofExcept (roomMemberCount condition memCount)
  else if condition.kind = "signal" then signal event
  else pure true

def checkCondition (event : String → Gjson) (memCount : Int) :
    List PushCondition → Proc (Evaluation ρ π) Panic Bool
  | [] => pure true
  | v :: conditions => do
    let found ← isMatch event memCount v
    if found then checkCondition event memCount conditions else return false

/-! ## Rules -/

section
variable (repo : CountRepo ρ) (rpcClient : Bool) (pushers : List π)

/-- What `processPush` does for a rule whose conditions hold. -/
def act (input : Input) (v : PushRule) : Proc (Evaluation ρ π) Panic Unit := do
  let action ← Proc.require .typeAssertion (getActions v.actions)
  let counted : Bool := input.type = "m.room.message" ∨ input.type = "m.room.encrypted"
  Proc.write fun s =>
    let counts := if counted then
        repo.update s.counts input.roomID input.eventID s.userID "increase"
      else s.counts
    let count := repo.get counts input.roomID s.userID
    let counts' := if action.highLight ∧ counted then
        repo.update counts input.roomID input.eventID s.userID "increase_hl"
      else counts
    let contents := if action.notify = "notify" ∧ rpcClient ∧ pushers ≠ [] then
        s.contents ++ [⟨s.userID, pushers, action, count⟩]
      else s.contents
    { s with counts := counts', contents := contents }

def processRules (input : Input) (memCount : Int) (event : String → Gjson) :
    List PushRule → Proc (Evaluation ρ π) Panic Unit
  | [] => pure ()
  | v :: rules =>
    if v.enabled = false then processRules input memCount event rules
    else do
      let found ← checkCondition event memCount v.conditions
      if found then act repo rpcClient pushers input v
      else processRules input memCount event rules

def processPush (rules : List PushRule) (input : Input) (memCount : Int)
    (event : String → Gjson) : Proc (Evaluation ρ π) Panic Unit :=
  if (event "content.msgtype").str = "m.notice" then pure ()
  else processRules repo rpcClient pushers input memCount event rules

end

/-! ## What a condition writes -/

/-- The condition gives one of the caller's variables to `globalMatch`. -/
def Writes (event : String → Gjson) (s : Evaluation ρ π) (c : PushCondition) : Prop :=
  c.kind = "event_match" ∧ c.pattern = "user_id" ∧ (event c.key).string ≠ "" ∨
    c.kind = "contains_display_name" ∧ s.displayName ≠ "" ∧ (event "content.body").string ≠ ""

instance (event : String → Gjson) (s : Evaluation ρ π) (c : PushCondition) :
    Decidable (Writes event s c) :=
  inferInstanceAs (Decidable (_ ∨ _))

/-- One of the names is the text of an expression as `globalMatch` writes it. -/
def Rewritten (s : Evaluation ρ π) : Prop :=
  (∃ wordBoundary text, s.userID.toList = delimit wordBoundary text) ∨
    ∃ text, s.displayName.toList = delimit true text

variable {event : String → Gjson}

theorem globalMatch_writes (global req : List Char) (wordBoundary : Bool) :
    ∃ text, (globalMatch global req wordBoundary).2 = delimit wordBoundary text :=
  ⟨body global, by rw [globalMatch_eq]⟩

theorem eventMatch_userID (hc : c.pattern = "user_id") (hcontext : (event c.key).string ≠ "") :
    (eventMatch event c : Proc (Evaluation ρ π) Panic Bool) =
      matchUserID (event c.key).string (c.key = "content.body") := by
  simp only [eventMatch, hc, hcontext, if_false, if_true, String.reduceEq]

theorem reads_eventMatch (hc : ¬ (c.pattern = "user_id" ∧ (event c.key).string ≠ "")) :
    Proc.Reads (eventMatch event c : Proc (Evaluation ρ π) Panic Bool) := by
  by_cases hempty : c.pattern = ""
  · rw [eventMatch, if_pos hempty]
    exact reads_pure
  by_cases hid : c.pattern = "user_id"
  · have hcontext : (event c.key).string = "" := by
      by_contra h
      exact hc ⟨hid, h⟩
    rw [eventMatch, if_neg hempty, if_pos hid, if_pos hcontext]
    exact reads_pure
  by_cases hlocal : c.pattern = "user_localpart"
  · rw [eventMatch, if_neg hempty, if_neg hid, if_pos hlocal]
    refine reads_query.bind fun userID => ?_
    split
    · exact reads_pure
    · split_ifs
      · exact reads_pure
      · exact reads_ofExcept
  · rw [eventMatch, if_neg hempty, if_neg hid, if_neg hlocal]
    split_ifs
    · exact reads_pure
    · exact reads_ofExcept

theorem containsDisplayName_apply {s : Evaluation ρ π} : containsDisplayName event s =
      if s.displayName ≠ "" ∧ (event "content.body").string ≠ "" then
        matchDisplayName (event "content.body").string true s
      else (.ok false, s) := by
  unfold containsDisplayName
  rw [query_bind_apply]
  by_cases hname : s.displayName = ""
  · simp [hname, pure]
  · by_cases hvalue : (event "content.body").string = ""
    · simp [hname, hvalue, pure]
    · simp [hname, hvalue]

theorem reads_signal (event : String → Gjson) :
    Proc.Reads (signal event : Proc (Evaluation ρ π) Panic Bool) := by
  refine reads_query.bind fun userID => ?_
  dsimp only
  split_ifs <;> exact reads_pure

theorem isMatch_cases (event : String → Gjson) (memCount : Int) (c : PushCondition)
    (s : Evaluation ρ π) :
    ¬ Writes event s c ∧ (isMatch event memCount c s).2 = s ∨
      Writes event s c ∧
        ((∃ wordBoundary text, (isMatch event memCount c s).2 =
          { s with userID := String.ofList (delimit wordBoundary text) }) ∨
        ∃ text, (isMatch event memCount c s).2 =
          { s with displayName := String.ofList (delimit true text) }) := by
  by_cases hevent : c.kind = "event_match"
  · rw [isMatch, if_pos hevent]
    by_cases hid : c.pattern = "user_id" ∧ (event c.key).string ≠ ""
    · obtain ⟨text, htext⟩ := globalMatch_writes s.userID.toList (event c.key).string.toList
        (c.key = "content.body")
      refine .inr ⟨.inl ⟨hevent, hid⟩, .inl ⟨decide (c.key = "content.body"), text, ?_⟩⟩
      rw [eventMatch_userID hid.1 hid.2, matchUserID, ← htext]
    · refine .inl ⟨?_, reads_eventMatch hid s⟩
      rintro (⟨-, h⟩ | ⟨h, -⟩)
      · exact hid h
      · rw [hevent] at h
        exact absurd h (by decide)
  by_cases hname : c.kind = "contains_display_name"
  · rw [isMatch, if_neg hevent, if_pos hname, containsDisplayName_apply]
    by_cases hvalue : s.displayName ≠ "" ∧ (event "content.body").string ≠ ""
    · obtain ⟨text, htext⟩ := globalMatch_writes s.displayName.toList
        (event "content.body").string.toList true
      refine .inr ⟨.inr ⟨hname, hvalue⟩, .inr ⟨text, ?_⟩⟩
      rw [if_pos hvalue, matchDisplayName, ← htext]
    · refine .inl ⟨?_, by rw [if_neg hvalue]⟩
      rintro (⟨h, -⟩ | ⟨-, h⟩)
      · exact hevent h
      · exact hvalue h
  · refine .inl ⟨?_, ?_⟩
    · rintro (⟨h, -⟩ | ⟨h, -⟩)
      · exact hevent h
      · exact hname h
    · rw [isMatch, if_neg hevent, if_neg hname]
      by_cases hcount : c.kind = "room_member_count"
      · rw [if_pos hcount]
        exact reads_ofExcept s
      · rw [if_neg hcount]
        by_cases hsignal : c.kind = "signal"
        · rw [if_pos hsignal]
          exact reads_signal event s
        · rw [if_neg hsignal]
          rfl

/-! ## The first rule that holds -/

section
variable (event : String → Gjson) (memCount : Int) (s : Evaluation ρ π)

def holds (c : PushCondition) : Bool :=
  match (isMatch event memCount c s).1 with
  | .ok found => found
  | .error _ => false

def ruleHolds (v : PushRule) : Bool :=
  v.enabled && v.conditions.all (holds event memCount s)

/-- What push evaluation is for: the action of the first rule that holds for the names of the
caller. -/
def firstMatch (repo : CountRepo ρ) (rpcClient : Bool) (pushers : List π) (input : Input)
    (memCount : Int) (event : String → Gjson) (rules : List PushRule) :
    Proc (Evaluation ρ π) Panic Unit := fun s =>
  match rules.find? (ruleHolds event memCount s) with
  | none => (.ok (), s)
  | some v => act repo rpcClient pushers input v s

def reached : List PushCondition → List PushCondition
  | [] => []
  | c :: cs => c :: if holds event memCount s c then reached cs else []

def evaluated : List PushRule → List PushCondition
  | [] => []
  | v :: rules =>
    if v.enabled = false then evaluated rules
    else reached event memCount s v.conditions ++
      if v.conditions.all (holds event memCount s) then [] else evaluated rules

/-- Each condition can be evaluated: its pattern, or the name in its place, compiles. -/
def Compiles (cs : List PushCondition) : Prop :=
  ∀ c ∈ cs, (isMatch event memCount c s).1.isOk = true

instance (cs : List PushCondition) : Decidable (Compiles event memCount s cs) :=
  inferInstanceAs (Decidable (∀ c ∈ cs, _))

end

section
variable {event : String → Gjson} {memCount : Int} {s : Evaluation ρ π}

theorem isMatch_eq_of_not_writes (h : ¬ Writes event s c)
    (hok : (isMatch event memCount c s).1.isOk = true) :
    isMatch event memCount c s = (.ok (holds event memCount s c), s) := by
  obtain ⟨found, hok⟩ : ∃ found, (isMatch event memCount c s).1 = .ok found := by
    cases hr : (isMatch event memCount c s).1 with
    | ok found => exact ⟨found, rfl⟩
    | error e =>
      rw [hr] at hok
      cases hok
  have hkeep : (isMatch event memCount c s).2 = s := by
    rcases isMatch_cases event memCount c s with ⟨-, h'⟩ | ⟨h', -⟩
    · exact h'
    · exact absurd h' h
  rw [holds, hok]
  exact Prod.ext hok hkeep

theorem checkCondition_eq {cs : List PushCondition} (hok : Compiles event memCount s cs)
    (h : ∀ c ∈ reached event memCount s cs, ¬ Writes event s c) :
    checkCondition event memCount cs s = (.ok (cs.all (holds event memCount s)), s) := by
  induction cs with
  | nil => rfl
  | cons c cs ih =>
    have hc := isMatch_eq_of_not_writes (h c mem_cons_self) (hok c mem_cons_self)
    rw [checkCondition, bind_of_ok hc, all_cons]
    cases hholds : holds event memCount s c with
    | true =>
      refine ih (fun d hd => hok d (mem_cons_of_mem _ hd)) fun d hd => h d ?_
      rw [reached, hholds, if_pos rfl]
      exact mem_cons_of_mem _ hd
    | false => rfl

theorem processRules_eq {repo : CountRepo ρ} {rpcClient : Bool} {pushers : List π} {input : Input}
    (hok : ∀ v ∈ rules, Compiles event memCount s v.conditions)
    (h : ∀ c ∈ evaluated event memCount s rules, ¬ Writes event s c) :
    processRules repo rpcClient pushers input memCount event rules s =
      firstMatch repo rpcClient pushers input memCount event rules s := by
  induction rules with
  | nil => rfl
  | cons v rules ih =>
    obtain ⟨hv, hok⟩ := forall_mem_cons.mp hok
    rw [processRules, firstMatch, find?_cons, ruleHolds]
    rw [evaluated] at h
    cases hen : v.enabled with
    | false =>
      rw [hen, if_pos rfl] at h
      exact ih hok h
    | true =>
      rw [hen, if_neg (by simp)] at h
      have hcheck := checkCondition_eq hv fun c hc => h c (mem_append_left _ hc)
      rw [if_neg (by simp), Bool.true_and, bind_of_ok hcheck]
      cases hall : v.conditions.all (holds event memCount s) with
      | true => rfl
      | false =>
        rw [hall] at h
        exact ih hok fun c hc => h c (mem_append_right _ hc)

/-! ## Names that are written over -/

theorem rewritten_isMatch_of_writes (h : Writes event s c) :
    Rewritten (isMatch event memCount c s).2 := by
  rcases isMatch_cases event memCount c s with ⟨h', -⟩ | ⟨-, ⟨wordBoundary, text, hs⟩ | ⟨text, hs⟩⟩
  · exact absurd h h'
  · rw [hs]
    exact .inl ⟨wordBoundary, text, String.toList_ofList⟩
  · rw [hs]
    exact .inr ⟨text, String.toList_ofList⟩

theorem rewritten_isMatch (c : PushCondition) (hs : Rewritten s) :
    Rewritten (isMatch event memCount c s).2 := by
  by_cases h : Writes event s c
  · exact rewritten_isMatch_of_writes h
  · rcases isMatch_cases event memCount c s with ⟨-, h'⟩ | ⟨h', -⟩
    · rwa [h']
    · exact absurd h' h

theorem rewritten_checkCondition (cs : List PushCondition) (hs : Rewritten s) :
    Proc.Ensures (checkCondition event memCount cs) s Rewritten := by
  induction cs generalizing s with
  | nil => exact hs
  | cons c cs ih =>
    refine Proc.Ensures.bind (rewritten_isMatch c hs) yields_any fun found _ t ht => ?_
    cases found with
    | true => exact ih ht
    | false => exact ht

variable {repo : CountRepo ρ} {rpcClient : Bool} {pushers : List π} {input : Input}

theorem act_names {v : PushRule} : (act repo rpcClient pushers input v s).2.userID = s.userID ∧
      (act repo rpcClient pushers input v s).2.displayName = s.displayName := by
  unfold act
  cases getActions v.actions with
  | none => exact ⟨rfl, rfl⟩
  | some action => exact ⟨rfl, rfl⟩

theorem rewritten_act (v : PushRule) (hs : Rewritten s) :
    Proc.Ensures (act repo rpcClient pushers input v) s Rewritten := by
  rw [Proc.Ensures, Rewritten, act_names.1, act_names.2]
  exact hs

theorem rewritten_rule {v : PushRule} {rest : Proc (Evaluation ρ π) Panic Unit}
    (hcheck : Proc.Ensures (checkCondition event memCount v.conditions) s Rewritten)
    (hrest : ∀ t, Rewritten t → Proc.Ensures rest t Rewritten) :
    Proc.Ensures (checkCondition event memCount v.conditions >>= fun found =>
      if found then act repo rpcClient pushers input v else rest) s Rewritten := by
  refine Proc.Ensures.bind hcheck yields_any fun found _ t ht => ?_
  cases found with
  | true => exact rewritten_act v ht
  | false => exact hrest t ht

theorem rewritten_processRules (rules : List PushRule) (hs : Rewritten s) :
    Proc.Ensures (processRules repo rpcClient pushers input memCount event rules) s Rewritten := by
  induction rules generalizing s with
  | nil => exact hs
  | cons v rules ih =>
    rw [processRules]
    split_ifs
    · exact ih hs
    · exact rewritten_rule (rewritten_checkCondition v.conditions hs) fun t => ih

theorem rewritten_of_reached {cs : List PushCondition} (hok : Compiles event memCount s cs)
    (hc : c ∈ reached event memCount s cs) (hw : Writes event s c) :
    Proc.Ensures (checkCondition event memCount cs) s Rewritten := by
  induction cs with
  | nil => simp [reached] at hc
  | cons d cs ih =>
    by_cases hd : Writes event s d
    · refine Proc.Ensures.bind (rewritten_isMatch_of_writes hd) yields_any fun found _ t ht => ?_
      cases found with
      | true => exact rewritten_checkCondition cs ht
      | false => exact ht
    · have hmatch := isMatch_eq_of_not_writes hd (hok d mem_cons_self)
      have hc := (mem_cons.mp hc).resolve_left (by rintro rfl; exact hd hw)
      split_ifs at hc with hholds
      · rw [Proc.Ensures, checkCondition, bind_of_ok hmatch, hholds, if_pos rfl]
        exact ih (fun e he => hok e (mem_cons_of_mem _ he)) hc
      · simp at hc

theorem rewritten_of_evaluated (hok : ∀ v ∈ rules, Compiles event memCount s v.conditions)
    (hc : c ∈ evaluated event memCount s rules) (hw : Writes event s c) :
    Proc.Ensures (processRules repo rpcClient pushers input memCount event rules) s Rewritten := by
  induction rules with
  | nil => simp [evaluated] at hc
  | cons v rules ih =>
    obtain ⟨hv, hok⟩ := forall_mem_cons.mp hok
    rw [processRules]
    rw [evaluated] at hc
    split_ifs at hc ⊢ with hen hall
    · exact ih hok hc
    · -- the rule holds, so the condition is one of its own
      rw [append_nil] at hc
      exact rewritten_rule (rewritten_of_reached hv hc hw) fun t => rewritten_processRules rules
    · by_cases hr : ∃ d ∈ reached event memCount s v.conditions, Writes event s d
      · obtain ⟨d, hd, hdw⟩ := hr
        exact rewritten_rule (rewritten_of_reached hv hd hdw) fun t => rewritten_processRules rules
      · have hcheck := checkCondition_eq hv fun d hd hdw => hr ⟨d, hd, hdw⟩
        rw [Proc.Ensures, bind_of_ok hcheck, if_neg hall]
        refine ih hok ((mem_append.mp hc).resolve_left fun hd => hr ⟨c, hd, hw⟩)

theorem firstMatch_names :
    (firstMatch repo rpcClient pushers input memCount event rules s).2.userID = s.userID ∧
      (firstMatch repo rpcClient pushers input memCount event rules s).2.displayName =
        s.displayName := by
  unfold firstMatch
  cases rules.find? (ruleHolds event memCount s) with
  | none => exact ⟨rfl, rfl⟩
  | some v => exact act_names

end

/-! ## Push evaluation -/

variable (repo : CountRepo ρ) (rpcClient : Bool) (pushers : List π) (rules : List PushRule)
  (input : Input) (memCount : Int) (event : String → Gjson) (s : Evaluation ρ π)

/-- The evaluation does what the first rule that holds for the names of the caller says, and leaves
the names. -/
def ActsOnFirst : Prop :=
  processPush repo rpcClient pushers rules input memCount event s =
      firstMatch repo rpcClient pushers input memCount event rules s ∧
    (processPush repo rpcClient pushers rules input memCount event s).2.userID = s.userID ∧
    (processPush repo rpcClient pushers rules input memCount event s).2.displayName =
      s.displayName

/-- **Push rules are evaluated on the names of the caller** if no condition that is evaluated writes
over one of them; and only then, unless a name is itself the text of an expression as `globalMatch`
writes it. -/
theorem processPush_first_match (hnotice : (event "content.msgtype").str ≠ "m.notice")
    (hok : ∀ v ∈ rules, Compiles event memCount s v.conditions) :
    ((∀ c ∈ evaluated event memCount s rules, ¬ Writes event s c) →
      ActsOnFirst repo rpcClient pushers rules input memCount event s) ∧
    (¬ Rewritten s →
      (ActsOnFirst repo rpcClient pushers rules input memCount event s ↔
        ∀ c ∈ evaluated event memCount s rules, ¬ Writes event s c)) := by
  have hrules : processPush repo rpcClient pushers rules input memCount event s =
      processRules repo rpcClient pushers input memCount event rules s := by
    rw [processPush, if_neg hnotice]
  have hacts : (∀ c ∈ evaluated event memCount s rules, ¬ Writes event s c) →
      ActsOnFirst repo rpcClient pushers rules input memCount event s := by
    intro h
    rw [ActsOnFirst, hrules, processRules_eq hok h]
    exact ⟨rfl, firstMatch_names⟩
  refine ⟨hacts, fun hs => ⟨fun h c hc hw => hs ?_, hacts⟩⟩
  obtain ⟨-, huser, hname⟩ := h
  have hend : Rewritten (processPush repo rpcClient pushers rules input memCount event s).2 := by
    rw [hrules]
    exact rewritten_of_evaluated hok hc hw
  rw [Rewritten, huser, hname] at hend
  exact hend

end

/-! ## Two rules on the display name -/

def logRepo : CountRepo (List String) := ⟨fun log _ _ user op => log ++ [user, op], fun _ _ _ => 0⟩

def message (text : String) : String → Gjson := fun key =>
  if key = "content.body" then ⟨text, text, text⟩ else ⟨"", "", ""⟩

def messageInput : Input := ⟨"m.room.message", "!r:x", "$e:x"⟩

def notifyIf (conditions : List PushCondition) : PushRule :=
  ⟨[.string "notify"], false, true, "", conditions, ""⟩

def onDisplayName : PushCondition := ⟨"contains_display_name", "", "", ""⟩

def onTwoMembers : PushCondition := ⟨"room_member_count", "", "", "2"⟩

def bob : Evaluation (List String) Unit := ⟨"@bob:x", "Bob", [], []⟩

def onHello : PushCondition := ⟨"event_match", "content.body", "hello", ""⟩

theorem processPush_hello :
    let rules := [notifyIf [onTwoMembers, onDisplayName], notifyIf [onHello]]
    ActsOnFirst logRepo true [()] rules messageInput 3 (message "hello Bob") bob ∧
      (processPush logRepo true [()] rules messageInput 3 (message "hello Bob") bob).2.counts =
        ["@bob:x", "increase"] :=
  ⟨(processPush_first_match logRepo true [()] [notifyIf [onTwoMembers, onDisplayName],
    notifyIf [onHello]] messageInput 3 (message "hello Bob") bob (by decide) (by decide)).1
    (by decide), by decide⟩

/-- The first rule is for rooms of two; it leaves an expression in the place of the name, which the
second rule does not find in the message. -/
theorem second_rule_missed :
    let rules := [notifyIf [onDisplayName, onTwoMembers], notifyIf [onDisplayName]]
    (firstMatch logRepo true [()] messageInput 3 (message "hi Bob") rules bob).2.counts =
        ["@bob:x", "increase"] ∧
      (processPush logRepo true [()] rules messageInput 3 (message "hi Bob") bob).2.counts = [] ∧
      (processPush logRepo true [()] rules messageInput 3 (message "hi Bob") bob).2.displayName ≠
        "Bob" := by
  decide

end Ligase.Push

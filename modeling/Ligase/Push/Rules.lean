import Ligase.Lib.Enumerate
import Ligase.Lib.Json
import Ligase.Token.Verify

/-!
# Push rules

A user's rules are kept in the cache, each with a class for its kind and a priority within it; the
built-in rules are part of the code. `GetUserPushRules` sorts the stored rules and puts the built-in
ones between them.

* **`getUserPushRules_order`**: the order of the rules of a kind.
-/

namespace Ligase.Push

open Lib List

/-! ## Rules -/

structure PushCondition where
  kind : String
  key : String
  pattern : String
  is : String

structure Tweak where
  setTweak : String
  value : Json

/-- An action of a rule, by its type at run time: a text, a tweak of a built-in rule, or another
JSON value. -/
inductive Action where
  | string (s : String)
  | tweak (t : Tweak)
  | any (j : Json)

structure PushRule where
  actions : List Action
  default : Bool
  enabled : Bool
  ruleId : String
  conditions : List PushCondition
  pattern : String

inductive Kind where
  | underride
  | sender
  | room
  | content
  | override
  deriving DecidableEq

namespace Kind

def text : Kind → String
  | underride => "underride"
  | sender => "sender"
  | room => "room"
  | content => "content"
  | override => "override"

def priorityClass : Kind → Int
  | underride => 1
  | sender => 2
  | room => 3
  | content => 4
  | override => 5

def ofClass (c : Int) : Option Kind :=
  if c = 1 then some underride
  else if c = 2 then some sender
  else if c = 3 then some room
  else if c = 4 then some content
  else if c = 5 then some override
  else none

theorem ofClass_priorityClass (k : Kind) : ofClass k.priorityClass = some k := by
  cases k <;> rfl

theorem ofClass_eq_some {c : Int} {k : Kind} : ofClass c = some k ↔ c = k.priorityClass := by
  constructor
  · intro h
    unfold ofClass at h
    split_ifs at h <;> cases h <;> assumption
  · rintro rfl
    exact ofClass_priorityClass k

theorem priorityClass_pos (k : Kind) : 0 < k.priorityClass := by
  cases k <;> decide

theorem priorityClass_le (k : Kind) : k.priorityClass ≤ override.priorityClass := by
  cases k <;> decide

end Kind

structure Rules where
  content : List PushRule
  override : List PushRule
  room : List PushRule
  sender : List PushRule
  underRide : List PushRule

namespace Rules

def get (rules : Rules) : Kind → List PushRule
  | .content => rules.content
  | .override => rules.override
  | .room => rules.room
  | .sender => rules.sender
  | .underride => rules.underRide

def empty : Rules := ⟨[], [], [], [], []⟩

end Rules

/-- `AddRules`; a class that is not of a kind has no list. -/
def addRules (kind : Option Kind) (rule : PushRule) (rules : Rules) : Rules :=
  match kind with
  | some .underride => { rules with underRide := rules.underRide ++ [rule] }
  | some .sender => { rules with sender := rules.sender ++ [rule] }
  | some .room => { rules with room := rules.room ++ [rule] }
  | some .content => { rules with content := rules.content ++ [rule] }
  | some .override => { rules with override := rules.override ++ [rule] }
  | none => rules

/-! ## Built-in rules -/

def getAction : List Action := [.string "dont_notify"]

def notifyWith (tweaks : List Tweak) : List Action := .string "notify" :: tweaks.map .tweak

def getAction1 : List Action :=
  notifyWith [⟨"sound", .string "default"⟩, ⟨"highlight", .bool false⟩]

def getAction2 : List Action := notifyWith [⟨"sound", .string "default"⟩, ⟨"highlight", .null⟩]

def getAction4 : List Action :=
  notifyWith [⟨"sound", .string "ring"⟩, ⟨"highlight", .bool false⟩]

def getAction5 : List Action := notifyWith [⟨"highlight", .bool false⟩]

def getAction6 : List Action := notifyWith [⟨"sound", .string "default"⟩]

def eventMatchCondition (key pattern : String) : PushCondition := ⟨"event_match", key, pattern, ""⟩

def baseRule (ruleId : String) (enabled : Bool) (conditions : List PushCondition)
    (actions : List Action) : PushRule :=
  { actions, default := true, enabled, ruleId, conditions, pattern := "" }

def basePreOverrideRules : List PushRule :=
  [baseRule "global/override/.m.rule.master" false [] getAction]

def baseOverrideRules : List PushRule :=
  [baseRule "global/override/.m.rule.suppress_notices" true
      [eventMatchCondition "content.msgtype" "m.notice"] getAction,
    baseRule "global/override/.m.rule.invite_for_me" true
      [eventMatchCondition "type" "m.room.member",
        eventMatchCondition "content.membership" "invite",
        eventMatchCondition "state_key" "user_id"] getAction1,
    baseRule "global/override/.m.rule.member_event" true
      [eventMatchCondition "type" "m.room.member"] getAction,
    baseRule "global/override/.m.rule.signals" true
      [eventMatchCondition "content.msgtype" "m.alert", ⟨"signal", "", "", ""⟩] getAction2,
    baseRule "global/override/.m.rule.contains_display_name" false
      [⟨"contains_display_name", "", "", ""⟩] getAction2]

def baseContentRules : List PushRule :=
  [baseRule "global/content/.m.rule.contains_user_name" false
      [eventMatchCondition "content.body" "user_localpart"] getAction2]

def baseUnderRideRules : List PushRule :=
  [baseRule "global/underride/.m.rule.call" true
      [eventMatchCondition "type" "m.call.invite"] getAction4,
    baseRule "global/underride/.m.rule.room_one_to_one" true
      [⟨"room_member_count", "", "", "2"⟩] getAction1,
    baseRule "global/underride/.m.rule.message" true
      [eventMatchCondition "type" "m.room.message"] getAction6,
    baseRule "global/underride/.m.rule.encrypted" true
      [eventMatchCondition "type" "m.room.encrypted"] getAction5,
    baseRule "global/underride/.m.rule.video" true
      [eventMatchCondition "type" "m.modular.video",
        eventMatchCondition "content.data.isCreate" "true"] getAction5]

def baseRuleIds : List (String × Kind) :=
  [("global/override/.m.rule.master", .override),
    ("global/override/.m.rule.suppress_notices", .override),
    ("global/override/.m.rule.invite_for_me", .override),
    ("global/override/.m.rule.member_event", .override),
    ("global/override/.m.rule.signals", .override),
    ("global/override/.m.rule.contains_display_name", .override),
    ("global/content/.m.rule.contains_user_name", .content),
    ("global/underride/.m.rule.call", .underride),
    ("global/underride/.m.rule.room_one_to_one", .underride),
    ("global/underride/.m.rule.message", .underride),
    ("global/underride/.m.rule.video", .underride),
    ("global/underride/.m.rule.encrypted", .underride)]

def getBasePushRule (ruleID : String) : Option PushRule :=
  let baseRules := match baseRuleIds.lookup ruleID with
    | some .override =>
      if ruleID = "global/override/.m.rule.master" then basePreOverrideRules else baseOverrideRules
    | some .content => baseContentRules
    | some .underride => baseUnderRideRules
    | _ => []
  (baseRules.filter fun v => v.ruleId = ruleID).getLast?

/-! ## The cache -/

/-- A stored rule. Its conditions and actions are JSON texts; an empty text is no JSON. -/
structure PushRuleCacheData where
  userName : String
  ruleId : String
  priorityClass : Int
  priority : Int
  conditions : Option Json
  actions : Option Json

structure RuleCache where
  data : String → Option PushRuleCacheData
  lists : String → List String
  enabled : String → String → Option String

def ruleKey (userID ruleID : String) : String := "push_rule:" ++ userID ++ ":" ++ ruleID

namespace RuleCache

variable (cache : RuleCache)

def getPushRuleCacheData (ruleKey : String) : PushRuleCacheData :=
  (cache.data ruleKey).getD ⟨"", "", 0, 0, none, none⟩

def getPushRuleCacheDataByID (userID ruleID : String) : PushRuleCacheData :=
  cache.getPushRuleCacheData (ruleKey userID ruleID)

/-- A rule is stored under its user and its id, in the place of the one that is there. -/
def addPushRule (rule : PushRuleCacheData) : RuleCache :=
  let key := ruleKey rule.userName rule.ruleId
  { cache with
    data := Function.update cache.data key (some rule)
    lists := Function.update cache.lists rule.userName
      ((cache.lists rule.userName).insert key) }

theorem getPushRuleCacheDataByID_addPushRule (rule : PushRuleCacheData) :
    (cache.addPushRule rule).getPushRuleCacheDataByID rule.userName rule.ruleId = rule := by
  simp [getPushRuleCacheDataByID, getPushRuleCacheData, addPushRule]

end RuleCache

/-! ## Reading a rule -/

def Action.ofJson : Json → Action
  | .string s => .string s
  | j => .any j

def readActions (bytes : Option Json) (old : List Action) : List Action × Bool :=
  match bytes.bind fun j => j.asList fun v => v.asAny.map Action.ofJson with
  | some actions => (actions, true)
  | none => (old, false)

def PushCondition.set (name : String) (v : Json) (c : PushCondition) : Option PushCondition :=
  match name with
  | "kind" => v.asString.map fun x => { c with kind := x }
  | "key" => v.asString.map fun x => { c with key := x }
  | "pattern" => v.asString.map fun x => { c with pattern := x }
  | "is" => v.asString.map fun x => { c with is := x }
  | _ => some c

def readConditions (bytes : Option Json) : Option (List PushCondition) :=
  bytes.bind fun j => j.asList fun v => v.decode? PushCondition.set ⟨"", "", "", ""⟩

/-- A stored rule as far as it can be read, and whether that is all of it. -/
def convertPushRule (data : PushRuleCacheData) (defaultRule : Bool) : PushRule × Bool :=
  let read := readActions data.actions []
  let pushRule : PushRule :=
    { actions := read.1, default := defaultRule, enabled := false, ruleId := data.ruleId
      conditions := [], pattern := "" }
  if read.2 = false then (pushRule, false)
  else if defaultRule then (pushRule, true)
  else
    match readConditions data.conditions with
    | some conditions => ({ pushRule with conditions }, true)
    | none => (pushRule, false)

/-! ## The rules of a user -/

def formatRuleId (kind ruleID : String) : String := "global/" ++ kind ++ "/" ++ ruleID

def getOriginalRuleId (ruleID : String) : String :=
  String.ofList ((ruleID.toList.splitOn '/').getLastD [])

/-- The part of a rule id before the last one; without one it is a panic. -/
def getKindFromRuleId (ruleID : String) : Option String :=
  ((ruleID.toList.splitOn '/').dropLast.getLast?).map String.ofList

def getRuleEnabled (userName ruleID : String) (cache : RuleCache) : Bool :=
  match cache.enabled userName ruleID with
  | some enabledCache => enabledCache = "1"
  | none =>
    if (getOriginalRuleId ruleID).toList.head? ≠ some '.' then true
    else ((getBasePushRule ruleID).map PushRule.enabled).getD false

def convertPattern (userID : String) (c : PushCondition) : PushCondition :=
  if c.pattern = "user_id" then { c with pattern := userID }
  else if c.pattern = "user_localpart" then
    { c with pattern := ((Token.splitID '@' userID).map Prod.fst).getD "" }
  else c

/-- `ConvertConditions`: the loop ends after the first condition if that leaves none. -/
def convertConditions (userID kind : String) (pushRule : PushRule) (forRequest : Bool) : PushRule :=
  match pushRule.conditions with
  | [] => pushRule
  | c :: cs =>
    let first := convertPattern userID c
    let pushRule :=
      if kind = "content" then { pushRule with pattern := first.pattern } else pushRule
    if forRequest && (kind = "content" || kind = "sender" || kind = "room") then
      { pushRule with conditions := [] }
    else { pushRule with conditions := first :: cs.map (convertPattern userID) }

def formatRule (userID : String) (cache : RuleCache) (forRequest : Bool) (rule : PushRule) :
    Option PushRule :=
  (getKindFromRuleId rule.ruleId).map fun kind =>
    { convertConditions userID kind
        { rule with enabled := getRuleEnabled userID rule.ruleId cache } forRequest with
      ruleId := getOriginalRuleId rule.ruleId }

def formatRules (userID : String) (cache : RuleCache) (global : Rules) (forRequest : Bool) :
    Option Rules := do
  let underRide ← global.underRide.mapM (formatRule userID cache forRequest)
  let content ← global.content.mapM (formatRule userID cache forRequest)
  let override ← global.override.mapM (formatRule userID cache forRequest)
  let room ← global.room.mapM (formatRule userID cache forRequest)
  let sender ← global.sender.mapM (formatRule userID cache forRequest)
  return { content, override, room, sender, underRide }

/-- The built-in rules with the actions that are stored for them. -/
def modifyRules (modified : List (String × PushRuleCacheData)) (rules : List PushRule) :
    List PushRule :=
  rules.map fun rule =>
    match modified.lookup rule.ruleId with
    | some data => { rule with actions := (readActions data.actions rule.actions).1 }
    | none => rule

def makeBaseAppendRule (kind : Option Kind) (modified : List (String × PushRuleCacheData)) :
    List PushRule :=
  modifyRules modified
    (match kind with
      | some .underride => baseUnderRideRules
      | some .content => baseContentRules
      | some .override => baseOverrideRules
      | _ => [])

def makeBasePreAppendRule (kind : Option Kind) (modified : List (String × PushRuleCacheData)) :
    List PushRule :=
  modifyRules modified (if kind = some .override then basePreOverrideRules else [])

/-- The comparison of the sort: by class, then by priority, from the highest down. -/
def PushRuleCacheData.less (a b : PushRuleCacheData) : Bool :=
  if a.priorityClass > b.priorityClass then true
  else if a.priorityClass < b.priorityClass then false
  else a.priority > b.priority

section
variable (bases : List (String × PushRuleCacheData))

def addBaseRules (currentClass : Int) (global : Rules) : Rules :=
  let kind1 := Kind.ofClass currentClass
  (makeBaseAppendRule kind1 bases).foldl (fun global val => addRules kind1 val global) global

def addBaseRulesDown : Nat → Int → Rules → Rules
  | 0, _, global => global
  | n + 1, currentClass, global =>
    addBaseRulesDown n (currentClass - 1) (addBaseRules bases currentClass global)

/-- The loop over the sorted rules, with the classes that are left in the end. -/
def placeRules : Int → List PushRuleCacheData → Rules → Rules
  | currentClass, [], global => addBaseRulesDown bases currentClass.toNat currentClass global
  | currentClass, v :: rules, global =>
    let n := (currentClass - v.priorityClass).toNat
    let global := addBaseRulesDown bases n currentClass global
    let curRule := (convertPushRule v false).1
    placeRules (currentClass - n) rules (addRules (Kind.ofClass v.priorityClass) curRule global)

end

variable (S : SortLess PushRuleCacheData.less) (ruleIDs : List String) (cache : RuleCache)

/-- The rules before they are formatted. The keys come in any order, and the sort may be any. -/
def collectRules : Rules :=
  let read := ruleIDs.map fun rid => (rid, cache.getPushRuleCacheData rid)
  let bases := read.filter fun p => p.2.priorityClass = -1
  let rules := (read.map Prod.snd).filter fun rule => rule.priorityClass ≠ -1
  let currentClass := Kind.override.priorityClass
  let preRules := makeBasePreAppendRule (Kind.ofClass currentClass) bases
  let global :=
    preRules.foldl (fun global v => addRules (Kind.ofClass currentClass) v global) .empty
  placeRules bases currentClass (S.sort rules) global

def getUserPushRules (userID : String) (cache : RuleCache) (forRequest : Bool) : Option Rules :=
  formatRules userID cache (collectRules S ruleIDs cache) forRequest

/-! ## The order of the rules -/

theorem get_addRules (kind : Option Kind) (rule : PushRule) (rules : Rules) (k : Kind) :
    (addRules kind rule rules).get k = rules.get k ++ if kind = some k then [rule] else [] := by
  rcases kind with _ | kind
  · simp [addRules]
  · cases kind <;> cases k <;> simp [addRules, Rules.get]

theorem get_foldl_addRules (kind : Option Kind) (rules : List PushRule) (global : Rules)
    (k : Kind) : (rules.foldl (fun global v => addRules kind v global) global).get k =
      global.get k ++ if kind = some k then rules else [] := by
  induction rules generalizing global with
  | nil => simp
  | cons v rules ih =>
    rw [foldl_cons, ih, get_addRules]
    split_ifs <;> simp

variable (bases : List (String × PushRuleCacheData))

def appended (k : Kind) : List PushRule :=
  makeBaseAppendRule (some k) bases

def prepended (k : Kind) : List PushRule :=
  makeBasePreAppendRule (some k) bases

section
variable (bases : List (String × PushRuleCacheData)) (k : Kind)

theorem get_addBaseRules (c : Int) (global : Rules) : (addBaseRules bases c global).get k =
      global.get k ++ if c = k.priorityClass then appended bases k else [] := by
  rw [addBaseRules, get_foldl_addRules]
  by_cases h : c = k.priorityClass
  · rw [if_pos h, if_pos (Kind.ofClass_eq_some.mpr h), Kind.ofClass_eq_some.mpr h, appended]
  · rw [if_neg h, if_neg fun hk => h (Kind.ofClass_eq_some.mp hk)]

theorem get_addBaseRulesDown (n : Nat) (c : Int) (global : Rules) :
    (addBaseRulesDown bases n c global).get k =
      global.get k ++ if c - n < k.priorityClass ∧ k.priorityClass ≤ c then appended bases k
        else [] := by
  induction n generalizing c global with
  | zero =>
    rw [addBaseRulesDown, if_neg (by omega), append_nil]
  | succ n ih =>
    rw [addBaseRulesDown, ih, get_addBaseRules, append_assoc]
    congr 1
    by_cases hc : c = k.priorityClass
    · rw [if_pos hc, if_neg (by omega), if_pos (by omega), append_nil]
    · rw [if_neg hc, nil_append]
      exact if_congr (by omega) rfl rfl

def ofKind (rules : List PushRuleCacheData) : List PushRuleCacheData :=
  rules.filter fun v => v.priorityClass = k.priorityClass

/-- **What the loop adds to a kind**: its rules and then the built-in ones, once its class has been
reached. -/
theorem get_placeRules {rules : List PushRuleCacheData} {c : Int} (hc : 0 ≤ c)
    (hpos : ∀ v ∈ rules, 0 < v.priorityClass ∧ v.priorityClass ≤ c)
    (hsorted : rules.Pairwise fun a b => b.priorityClass ≤ a.priorityClass) (global : Rules) :
    (placeRules bases c rules global).get k = global.get k ++ if k.priorityClass ≤ c then
      (ofKind k rules).map (fun v => (convertPushRule v false).1) ++ appended bases k else [] := by
  induction rules generalizing c global with
  | nil =>
    have hk := k.priorityClass_pos
    rw [placeRules, get_addBaseRulesDown]
    congr 1
    exact if_congr (by omega) rfl rfl
  | cons v rules ih =>
    obtain ⟨hv, hvc⟩ := hpos v mem_cons_self
    obtain ⟨hle, hsorted⟩ := pairwise_cons.mp hsorted
    have hclass : c - ((c - v.priorityClass).toNat : Int) = v.priorityClass := by omega
    have hrest : ∀ w ∈ rules, 0 < w.priorityClass ∧ w.priorityClass ≤ v.priorityClass :=
      fun w hw => ⟨(hpos w (mem_cons_of_mem _ hw)).1, hle w hw⟩
    rw [placeRules]
    simp only [hclass]
    rw [ih (by omega) hrest hsorted, get_addRules, get_addBaseRulesDown, hclass]
    rcases lt_trichotomy k.priorityClass v.priorityClass with hk | hk | hk
    · -- the class of the kind is still to come
      have hne : Kind.ofClass v.priorityClass ≠ some k := fun h => by
        have := Kind.ofClass_eq_some.mp h
        omega
      rw [if_neg (by omega), if_neg hne, if_pos (by omega), if_pos (by omega), ofKind, ofKind,
        filter_cons_of_neg (by simpa using hk.ne'), append_nil, append_nil]
    · rw [if_neg (by omega), if_pos (Kind.ofClass_eq_some.mpr hk.symm), if_pos (by omega),
        if_pos (by omega), ofKind, ofKind, filter_cons_of_pos (by simpa using hk.symm)]
      simp
    · -- the class of the kind is passed on the way to this rule
      have hne : Kind.ofClass v.priorityClass ≠ some k := fun h => by
        have := Kind.ofClass_eq_some.mp h
        omega
      have hnone : ofKind k (v :: rules) = [] := by
        rw [ofKind, filter_eq_nil_iff]
        intro w hw
        rw [decide_eq_true_eq]
        rcases mem_cons.mp hw with rfl | hw
        · exact hk.ne
        · exact ((hrest w hw).2.trans_lt hk).ne
      rw [if_neg hne, if_neg (show ¬ k.priorityClass ≤ v.priorityClass by omega), hnone,
        append_nil, append_nil, map_nil, nil_append]
      exact congrArg _ (if_congr (by omega) rfl rfl)

end

def RuleCache.rulesOf (userID : String) : List PushRuleCacheData :=
  ((cache.lists userID).map cache.getPushRuleCacheData).filter fun v => v.priorityClass ≠ -1

def RuleCache.basesOf (ruleIDs : List String) : List (String × PushRuleCacheData) :=
  (ruleIDs.map fun rid => (rid, cache.getPushRuleCacheData rid)).filter fun p =>
    p.2.priorityClass = -1

theorem collectRules_eq :
    collectRules S ruleIDs cache = placeRules (cache.basesOf ruleIDs) Kind.override.priorityClass
        (S.sort ((ruleIDs.map cache.getPushRuleCacheData).filter fun v => v.priorityClass ≠ -1))
        ((prepended (cache.basesOf ruleIDs) .override).foldl
          (fun global v => addRules (some .override) v global) .empty) := by
  simp only [collectRules, RuleCache.basesOf, prepended, map_map]
  rfl

theorem PushRuleCacheData.priorityClass_le {a b : PushRuleCacheData} (h : b.less a = false) :
    b.priorityClass ≤ a.priorityClass := by
  unfold less at h
  split_ifs at h
  · omega
  · omega

theorem PushRuleCacheData.priority_le {a b : PushRuleCacheData} (h : b.less a = false)
    (hclass : a.priorityClass = b.priorityClass) : b.priority ≤ a.priority := by
  unfold less at h
  rw [if_neg (by omega), if_neg (by omega)] at h
  simpa using h

theorem get_foldl_prepended (k : Kind) :
    ((prepended bases .override).foldl (fun global v => addRules (some .override) v global)
      .empty).get k = prepended bases k := by
  cases k <;> rfl

def PlacedApart (a b : PushRuleCacheData) : Prop :=
  ¬ (a.priorityClass = b.priorityClass ∧ a.priority = b.priority)

theorem collectRules_order {cache : RuleCache}
    {userID : String} {ruleIDs : List String} (hids : ruleIDs.Perm (cache.lists userID))
    (hclass : ∀ v ∈ cache.rulesOf userID, ∃ k : Kind, v.priorityClass = k.priorityClass)
    (hapart : (cache.rulesOf userID).Pairwise PlacedApart) (k : Kind) :
    ∃ mine : List PushRuleCacheData,
      mine.Perm ((cache.rulesOf userID).filter fun v => v.priorityClass = k.priorityClass) ∧
      mine.Pairwise (fun a b => b.priority < a.priority) ∧
      (collectRules S ruleIDs cache).get k = prepended (cache.basesOf ruleIDs) k ++
        mine.map (fun v => (convertPushRule v false).1) ++ appended (cache.basesOf ruleIDs) k := by
  have hperm : (S.sort ((ruleIDs.map cache.getPushRuleCacheData).filter
      fun v => v.priorityClass ≠ -1)).Perm (cache.rulesOf userID) :=
    (S.perm _).trans ((hids.map _).filter _)
  have hsorted := S.sorted ((ruleIDs.map cache.getPushRuleCacheData).filter
    fun v => v.priorityClass ≠ -1)
  rw [collectRules_eq]
  generalize S.sort ((ruleIDs.map cache.getPushRuleCacheData).filter
    fun v => v.priorityClass ≠ -1) = sorted at hperm hsorted
  have hsame : sorted.Pairwise PlacedApart :=
    (hperm.pairwise_iff fun hab hba => hab ⟨hba.1.symm, hba.2.symm⟩).mpr hapart
  refine ⟨ofKind k sorted, hperm.filter _, ?_, ?_⟩
  · refine pairwise_filter.mpr ((hsorted.and hsame).imp fun {a b} h ha hb => ?_)
    have heq : a.priorityClass = b.priorityClass := by
      rw [decide_eq_true_eq] at ha hb
      rw [ha, hb]
    have hle := PushRuleCacheData.priority_le h.1 heq
    have hne : a.priority ≠ b.priority := fun hp => h.2 ⟨heq, hp⟩
    omega
  · have hpos : ∀ v ∈ sorted,
        0 < v.priorityClass ∧ v.priorityClass ≤ Kind.override.priorityClass := by
      intro v hv
      obtain ⟨kind, hkind⟩ := hclass v (hperm.mem_iff.mp hv)
      rw [hkind]
      exact ⟨kind.priorityClass_pos, kind.priorityClass_le⟩
    rw [get_placeRules _ k (by decide) hpos (hsorted.imp PushRuleCacheData.priorityClass_le),
      get_foldl_prepended, if_pos k.priorityClass_le, append_assoc]

/-! ## Formatting -/

theorem isSome_getKindFromRuleId {ruleID : String} (h : '/' ∈ ruleID.toList) :
    (getKindFromRuleId ruleID).isSome := by
  obtain ⟨first, second, parts, hsplit⟩ := splitOn_of_mem h
  simp [getKindFromRuleId, hsplit, dropLast_cons_of_ne_nil]

theorem exists_mapM {α β : Type*} {f : α → Option β} {l : List α} (h : ∀ a ∈ l, (f a).isSome) :
    ∃ l', l.mapM f = some l' ∧ List.Forall₂ (fun a b => f a = some b) l l' := by
  induction l with
  | nil => exact ⟨[], rfl, .nil⟩
  | cons a l ih =>
    obtain ⟨b, hb⟩ := Option.isSome_iff_exists.mp (h a mem_cons_self)
    obtain ⟨l', hl', hall⟩ := ih fun c hc => h c (mem_cons_of_mem _ hc)
    exact ⟨b :: l', by simp [mapM_cons, hb, hl'], .cons hb hall⟩

theorem exists_formatRules (userID : String) (cache : RuleCache) {global : Rules}
    (forRequest : Bool) (h : ∀ k, ∀ rule ∈ global.get k, '/' ∈ rule.ruleId.toList) :
    ∃ out, formatRules userID cache global forRequest = some out ∧
      ∀ k, List.Forall₂ (fun rule rule' => formatRule userID cache forRequest rule = some rule')
        (global.get k) (out.get k) := by
  have hkind : ∀ k, ∃ l', (global.get k).mapM (formatRule userID cache forRequest) = some l' ∧
      List.Forall₂ (fun rule rule' => formatRule userID cache forRequest rule = some rule')
        (global.get k) l' := by
    intro k
    refine exists_mapM fun rule hrule => ?_
    simpa [formatRule] using isSome_getKindFromRuleId (h k rule hrule)
  obtain ⟨underRide, hu, hu'⟩ := hkind .underride
  obtain ⟨content, hc, hc'⟩ := hkind .content
  obtain ⟨override, ho, ho'⟩ := hkind .override
  obtain ⟨room, hr, hr'⟩ := hkind .room
  obtain ⟨sender, hs, hs'⟩ := hkind .sender
  simp only [Rules.get] at hu hc ho hr hs
  refine ⟨⟨content, override, room, sender, underRide⟩, ?_, fun k => ?_⟩
  · simp [formatRules, hu, hc, ho, hr, hs]
  · cases k
    · exact hu'
    · exact hs'
    · exact hr'
    · exact hc'
    · exact ho'

theorem slash_modifyRules {bases : List (String × PushRuleCacheData)} {rules : List PushRule}
    (h : ∀ rule ∈ rules, '/' ∈ rule.ruleId.toList) :
    ∀ rule ∈ modifyRules bases rules, '/' ∈ rule.ruleId.toList := by
  intro rule hrule
  obtain ⟨rule, hmem, rfl⟩ := mem_map.mp hrule
  split
  · exact h rule hmem
  · exact h rule hmem

theorem slash_base (k : Kind) : (∀ rule ∈ prepended bases k, '/' ∈ rule.ruleId.toList) ∧
      ∀ rule ∈ appended bases k, '/' ∈ rule.ruleId.toList := by
  constructor
  all_goals
    refine slash_modifyRules ?_
    cases k <;> decide

theorem ruleId_convertPushRule (v : PushRuleCacheData) (defaultRule : Bool) :
    (convertPushRule v defaultRule).1.ruleId = v.ruleId := by
  simp only [convertPushRule]
  split_ifs
  · rfl
  · rfl
  · split <;> rfl

/-- **The rules of a kind** are the built-in rules that come first, the stored rules from the
highest priority down, and the other built-in rules. Formatting needs a slash in the ids, which all
stored ones have. -/
theorem getUserPushRules_order (S : SortLess PushRuleCacheData.less) (cache : RuleCache)
    (userID : String) (forRequest : Bool) (ruleIDs : List String)
    (hids : ruleIDs.Perm (cache.lists userID))
    (hclass : ∀ v ∈ cache.rulesOf userID, ∃ k : Kind, v.priorityClass = k.priorityClass)
    (hapart : (cache.rulesOf userID).Pairwise PlacedApart) :
    ∃ global : Rules,
      (∀ k : Kind, ∃ mine : List PushRuleCacheData,
        mine.Perm ((cache.rulesOf userID).filter fun v => v.priorityClass = k.priorityClass) ∧
        mine.Pairwise (fun a b => b.priority < a.priority) ∧
        global.get k = prepended (cache.basesOf ruleIDs) k ++
          mine.map (fun v => (convertPushRule v false).1) ++ appended (cache.basesOf ruleIDs) k) ∧
      getUserPushRules S ruleIDs userID cache forRequest =
        formatRules userID cache global forRequest ∧
      ((∀ v ∈ cache.rulesOf userID, '/' ∈ v.ruleId.toList) →
        ∃ out, getUserPushRules S ruleIDs userID cache forRequest = some out ∧
          ∀ k, List.Forall₂ (fun rule rule' => formatRule userID cache forRequest rule = some rule')
            (global.get k) (out.get k)) := by
  have hkinds := collectRules_order S hids hclass hapart
  refine ⟨collectRules S ruleIDs cache, hkinds, rfl, fun hslash => ?_⟩
  refine exists_formatRules userID cache forRequest fun k rule hrule => ?_
  obtain ⟨mine, hmine, -, hget⟩ := hkinds k
  rw [hget, append_assoc] at hrule
  rcases mem_append.mp hrule with hrule | hrule
  · exact (slash_base _ k).1 rule hrule
  rcases mem_append.mp hrule with hrule | hrule
  · obtain ⟨v, hv, rfl⟩ := mem_map.mp hrule
    rw [ruleId_convertPushRule]
    exact hslash v (mem_filter.mp (hmine.mem_iff.mp hv)).1
  · exact (slash_base _ k).2 rule hrule

def insertionByClass : SortLess PushRuleCacheData.less where
  sort := List.insertionSort fun a b => b.less a = false
  perm := perm_insertionSort _
  sorted := fun l =>
    have : Std.Total fun a b : PushRuleCacheData => b.less a = false := ⟨fun a b => by
      simp only [PushRuleCacheData.less]
      split_ifs <;> simp <;> omega⟩
    have : IsTrans PushRuleCacheData fun a b => b.less a = false := ⟨fun a b c hab hbc => by
      simp only [PushRuleCacheData.less] at hab hbc ⊢
      split_ifs at hab hbc ⊢ <;> simp_all <;> omega⟩
    pairwise_insertionSort _ l

def roomRule (ruleID : String) (priority : Int) : PushRuleCacheData where
  userName := "@a:x"
  ruleId := formatRuleId "room" ruleID
  priorityClass := Kind.room.priorityClass
  priority := priority
  conditions := some (.arr [])
  actions := some (.arr [.string "notify"])

def twoRoomRules : RuleCache where
  data key := if key = "1" then some (roomRule "!low" 1) else if key = "2" then
    some (roomRule "!high" 2) else none
  lists _ := ["1", "2"]
  enabled _ _ := none

theorem getUserPushRules_twoRoomRules :
    ∃ (global : Rules) (mine : List PushRuleCacheData) (out : Rules),
      mine.Perm [roomRule "!low" 1, roomRule "!high" 2] ∧
      mine.Pairwise (fun a b => b.priority < a.priority) ∧
      global.get .room = mine.map (fun v => (convertPushRule v false).1) ∧
      getUserPushRules insertionByClass ["1", "2"] "@a:x" twoRoomRules false = some out ∧
      List.Forall₂ (fun rule rule' => formatRule "@a:x" twoRoomRules false rule = some rule')
        (global.get .room) (out.get .room) := by
  have hrules : twoRoomRules.rulesOf "@a:x" = [roomRule "!low" 1, roomRule "!high" 2] := rfl
  obtain ⟨global, hkinds, -, hout⟩ := getUserPushRules_order insertionByClass twoRoomRules "@a:x"
    false ["1", "2"] (.refl _)
    (by
      rw [hrules]
      simp only [forall_mem_cons, not_mem_nil, false_implies, implies_true, and_true]
      exact ⟨⟨.room, rfl⟩, ⟨.room, rfl⟩⟩)
    (by
      rw [hrules]
      simp [PlacedApart, roomRule])
  obtain ⟨out, hsome, hformat⟩ := hout (by rw [hrules]; decide)
  obtain ⟨mine, hperm, hsorted, hget⟩ := hkinds .room
  refine ⟨global, mine, out, ?_, hsorted, ?_, hsome, hformat .room⟩
  · exact hperm
  · rw [hget]
    simp [prepended, appended, makeBasePreAppendRule, makeBaseAppendRule, modifyRules]

end Ligase.Push

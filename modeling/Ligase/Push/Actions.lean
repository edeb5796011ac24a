import Ligase.Push.Rules

/-!
# Actions of a rule

The actions of a rule are a list of values whose types are known at run time only. The built-in
rules have their tweaks as structures; a stored rule is written as JSON and its tweaks are read back
as maps. `getActions` looks for texts and for the structures.

* **`stored_actions_iff`**: which actions say the same after they have been stored.
-/

namespace Ligase.Push

open Lib List

/-! ## Storing actions -/

/-- An action as JSON; empty fields of a tweak are left out. -/
def Action.toJson : Action → Json
  | .string s => .string s
  | .tweak t =>
    .obj ((if t.setTweak = "" then [] else [("set_tweak", .string t.setTweak)]) ++
      match t.value with
      | .null => []
      | value => [("value", value)])
  | .any j => j

def marshalActions (actions : List Action) : Json := .arr (actions.map Action.toJson)

structure Answer where
  code : Nat
  error : String

def Answer.ok : Answer := ⟨200, ""⟩

def isKind (kind : String) : Bool :=
  [Kind.underride, .sender, .room, .content, .override].any fun k => k.text = kind

/-- `PutPushRuleActions`; the actions of a built-in rule are stored with class -1. -/
def putPushRuleActions (cache : RuleCache) (userID scope kind ruleID : String)
    (actions : List Action) : Answer × RuleCache :=
  if scope ≠ "global" ∨ kind = "" then (⟨400, "Unrecognized request"⟩, cache)
  else if ruleID = "" then (⟨400, "Unrecognized rule id"⟩, cache)
  else if isKind kind = false then (⟨400, "Unrecognized kind"⟩, cache)
  else
    let defaultRule : Bool := ruleID.toList.head? = some '.'
    let insertRuleID := formatRuleId kind ruleID
    if defaultRule ∧ baseRuleIds.lookup insertRuleID = none then
      (⟨400, "No rule found with rule id"⟩, cache)
    else
      let cacheData := cache.getPushRuleCacheDataByID userID insertRuleID
      if cacheData.userName = "" then
        if defaultRule = false then (⟨400, "No rule found with rule id"⟩, cache)
        else
          (.ok, cache.addPushRule
            { userName := userID, ruleId := insertRuleID, priorityClass := -1, priority := 1
              conditions := some (.obj []), actions := some (marshalActions actions) })
      else
        (.ok, cache.addPushRule { cacheData with actions := some (marshalActions actions) })

theorem putPushRuleActions_eq_ok {cache cache' : RuleCache} {userID scope kind ruleID : String}
    {actions : List Action}
    (h : putPushRuleActions cache userID scope kind ruleID actions = (.ok, cache')) :
    ∃ rule : PushRuleCacheData,
      cache' = cache.addPushRule { rule with actions := some (marshalActions actions) } := by
  simp only [putPushRuleActions] at h
  split_ifs at h <;>
    simp only [Answer.ok, Prod.mk.injEq, Answer.mk.injEq, Nat.reduceEqDiff, false_and,
      true_and] at h
  · exact ⟨⟨userID, formatRuleId kind ruleID, -1, 1, some (.obj []), none⟩, h.symm⟩
  · exact ⟨_, h.symm⟩

/-! ## What actions say -/

structure TweakAction where
  notify : String
  sound : String
  highLight : Bool

/-- One action; a tweak whose value has the wrong type is a panic. -/
def applyAction (action : TweakAction) : Action → Option TweakAction
  | .string v => some { action with notify := v }
  | .tweak t =>
    if t.setTweak = "sound" then
      match t.value with
      | .string value => some { action with sound := value }
      | _ => none
    else if t.setTweak = "highlight" then
      match t.value with
      | .null => some { action with highLight := true }
      | .bool value => some { action with highLight := value }
      | _ => none
    else some action
  | .any _ => some action

def getActions (actions : List Action) : Option TweakAction :=
  actions.foldlM applyAction ⟨"", "", false⟩

/-! ## Lists of actions -/

inductive RuleAction where
  | action (s : String)
  | sound (value : String)
  | highlight (value : Option Bool)

namespace RuleAction

def value : RuleAction → Action
  | action s => .string s
  | sound v => .tweak ⟨"sound", .string v⟩
  | highlight none => .tweak ⟨"highlight", .null⟩
  | highlight (some b) => .tweak ⟨"highlight", .bool b⟩

def notify? : RuleAction → Option String
  | action s => some s
  | _ => none

def sound? : RuleAction → Option String
  | sound v => some v
  | _ => none

def highlight? : RuleAction → Option Bool
  | highlight v => some (v.getD true)
  | _ => none

end RuleAction

variable (actions : List RuleAction) (a : TweakAction)

def outcome : TweakAction where
  notify := (actions.filterMap RuleAction.notify?).getLastD a.notify
  sound := (actions.filterMap RuleAction.sound?).getLastD a.sound
  highLight := (actions.filterMap RuleAction.highlight?).getLastD a.highLight

open RuleAction

theorem outcome_cons (x : RuleAction) (actions : List RuleAction) (a : TweakAction) :
    outcome (x :: actions) a = outcome actions (outcome [x] a) := by
  cases x <;>
    simp only [outcome, filterMap_cons, filterMap_nil, notify?,
      sound?, highlight?, getLastD_cons, getLastD_nil]

theorem applyAction_value (x : RuleAction) : applyAction a x.value = some (outcome [x] a) := by
  rcases x with s | v | _ | b <;> rfl

theorem foldlM_applyAction :
    (actions.map value).foldlM applyAction a = some (outcome actions a) := by
  induction actions generalizing a with
  | nil => rfl
  | cons x actions ih =>
    rw [map_cons, foldlM_cons, applyAction_value, outcome_cons x actions]
    exact ih _

/-! ## After storing -/

def RuleAction.reread : RuleAction → Action
  | action s => .string s
  | x => .any x.value.toJson

theorem ofJson_toJson (x : RuleAction) :
    x.value.toJson.asAny.map Action.ofJson = some x.reread := by
  rcases x with s | v | _ | b
  · rfl
  · rfl
  · rfl
  · cases b <;> rfl

theorem readActions_marshal (old : List Action) :
    readActions (some (marshalActions (actions.map value))) old = (actions.map reread, true) := by
  have hread : ((actions.map value).map Action.toJson).mapM
      (fun v => v.asAny.map Action.ofJson) = some (actions.map reread) := by
    induction actions with
    | nil => rfl
    | cons x actions ih =>
      simp only [map_cons, mapM_cons, ofJson_toJson, ih]
      rfl
  simp only [readActions, marshalActions, Option.bind_some, Json.asList, hread]

theorem actions_convertPushRule (data : PushRuleCacheData) (defaultRule : Bool) :
    (convertPushRule data defaultRule).1.actions = (readActions data.actions []).1 := by
  simp only [convertPushRule]
  split_ifs
  · rfl
  · rfl
  · split <;> rfl

theorem foldlM_applyAction_reread : (actions.map reread).foldlM applyAction a =
      some { a with notify := (outcome actions a).notify } := by
  induction actions generalizing a with
  | nil => rfl
  | cons x actions ih =>
    have hstep : applyAction a x.reread = some { a with notify := (outcome [x] a).notify } := by
      rcases x with s | v | _ | b <;> rfl
    rw [map_cons, foldlM_cons, hstep, outcome_cons x actions]
    exact ih _

/-- **A list of actions says the same after it has been stored and read back if and only if it sets
no sound and no highlight.** -/
theorem stored_actions_iff (cache : RuleCache) (rule : PushRuleCacheData)
    (actions : List RuleAction) :
    ∃ before after, getActions (actions.map RuleAction.value) = some before ∧
      getActions (convertPushRule ((cache.addPushRule
        { rule with actions := some (marshalActions (actions.map RuleAction.value)) }
          ).getPushRuleCacheDataByID rule.userName rule.ruleId) false).1.actions = some after ∧
      (after = before ↔ (actions.filterMap RuleAction.sound?).getLastD "" = "" ∧
        (actions.filterMap RuleAction.highlight?).getLastD false = false) := by
  refine ⟨outcome actions ⟨"", "", false⟩,
    ⟨(outcome actions ⟨"", "", false⟩).notify, "", false⟩, foldlM_applyAction actions _, ?_, ?_⟩
  · have hget := cache.getPushRuleCacheDataByID_addPushRule
      { rule with actions := some (marshalActions (actions.map RuleAction.value)) }
    rw [hget, actions_convertPushRule, readActions_marshal]
    exact foldlM_applyAction_reread actions _
  · simp only [outcome, TweakAction.mk.injEq, true_and]
    exact and_congr eq_comm eq_comm

theorem stored_sound_lost :
    getActions ([RuleAction.action "notify", .sound "default"].map RuleAction.value) =
        some ⟨"notify", "default", false⟩ ∧
      (readActions (some (marshalActions
        ([RuleAction.action "notify", .sound "default"].map RuleAction.value))) []).2 = true ∧
      getActions (readActions (some (marshalActions
        ([RuleAction.action "notify", .sound "default"].map RuleAction.value))) []).1 =
          some ⟨"notify", "", false⟩ := by
  refine ⟨rfl, rfl, rfl⟩

end Ligase.Push

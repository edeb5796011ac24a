import Ligase.Lib.Run
import Ligase.Push.Actions

/-!
# Inserting push rules

A rule is put before or after another one, or nowhere in particular. Its place is its priority: next
to another rule it takes the priority that places it there and the rules from there up move up by
one, otherwise it is to come first and gets a priority above all others of its class.

* **`related_adjacent`**: a rule with an anchor is placed next to it.
* **`newest_on_top_iff`**: when a rule without an anchor comes first.
-/

namespace Ligase.Push

open Lib List Option Function RuleCache PushRuleCacheData

/-! ## The requests -/

/-- The higher one of a priority and that of a rule, if the rule is of the class. -/
def higher (cache : RuleCache) (priorityClass priority : Int) (rid : String) : Int :=
  let rule := cache.getPushRuleCacheData rid
  if rule.priorityClass = priorityClass ∧ rule.priority > priority then rule.priority else priority

def topPriority (cache : RuleCache) (priorityClass : Int) (ruleIDs : List String) : Int :=
  ruleIDs.foldl (higher cache priorityClass) 0

/-- A rule and where it is put: next to the rule `beforeID` or `afterID`, if one is given. The keys
come in any order. -/
structure Insertion where
  order : List String
  ruleID : String
  beforeID : String
  afterID : String
  priorityClass : Int
  conditions : Option Json
  actions : Option Json

section
variable (cache : RuleCache) (userID : String) (ins : Insertion)

def Insertion.rule (priority : Int) : PushRuleCacheData :=
  ⟨userID, ins.ruleID, ins.priorityClass, priority, ins.conditions, ins.actions⟩

def addPushRuleWithoutRelated : Answer × RuleCache :=
  let priority := topPriority cache ins.priorityClass ins.order
  let priority := if priority > 0 then priority + 1 else priority
  (.ok, cache.addPushRule (ins.rule userID priority))

def moveUp (priorityClass priority : Int) (cache : RuleCache) (rid : String) : RuleCache :=
  let rule := cache.getPushRuleCacheData rid
  if rule.priorityClass = priorityClass ∧ rule.priority ≥ priority then
    cache.addPushRule { rule with priority := rule.priority + 1 }
  else cache

def addPushRuleWithRelated : Answer × RuleCache :=
  let relatedID := if ins.beforeID ≠ "" then ins.beforeID else ins.afterID
  let cacheData := cache.getPushRuleCacheDataByID userID relatedID
  if cacheData.userName = "" then (⟨400, "before/after rule not found"⟩, cache)
  else if cacheData.priorityClass ≠ ins.priorityClass then
    (⟨400, "Given priority class does not match class of relative rule"⟩, cache)
  else
    let priority := if ins.beforeID ≠ "" then cacheData.priority + 1 else cacheData.priority
    let cache := ins.order.foldl (moveUp ins.priorityClass priority) cache
    (.ok, cache.addPushRule (ins.rule userID priority))

end

def insertRule (userID : String) (cache : RuleCache) (ins : Insertion) : Option RuleCache :=
  if ins.order.Perm (cache.lists userID) then
    if ins.beforeID ≠ "" ∨ ins.afterID ≠ "" then some (addPushRuleWithRelated cache userID ins).2
    else some (addPushRuleWithoutRelated cache userID ins).2
  else none

/-! ## The rules of a user -/

variable {cache : RuleCache} {userID : String} {p : Int}

theorem ruleKey_injective (userID : String) : Function.Injective (ruleKey userID) := by
  intro a b h
  have h := congrArg String.toList h
  simp only [ruleKey, String.toList_append] at h
  exact String.toList_inj.mp (append_cancel_left h)

def RuleCache.rule? (cache : RuleCache) (userID ruleID : String) : Option PushRuleCacheData :=
  cache.data (ruleKey userID ruleID)

variable {rule : PushRuleCacheData}

theorem getPushRuleCacheDataByID_eq {ruleID : String} (h : cache.rule? userID ruleID = some rule) :
    cache.getPushRuleCacheDataByID userID ruleID = rule := by
  rw [rule?] at h
  rw [getPushRuleCacheDataByID, getPushRuleCacheData, h]
  rfl

theorem addPushRuleWithRelated_cases (cache : RuleCache) (userID : String) (ins : Insertion) :
    (addPushRuleWithRelated cache userID ins).2 = cache ∨
      ∃ a rule p, cache.rule? userID a = some rule ∧ (p = rule.priority ∨ p = rule.priority + 1) ∧
        (addPushRuleWithRelated cache userID ins).2 =
          (ins.order.foldl (moveUp ins.priorityClass p) cache).addPushRule (ins.rule userID p) := by
  obtain ⟨a, ha⟩ : ∃ a, a = if ins.beforeID ≠ "" then ins.beforeID else ins.afterID := ⟨_, rfl⟩
  simp only [addPushRuleWithRelated, ← ha]
  cases hrule : cache.rule? userID a with
  | none =>
    -- a rule that is not stored reads as one without a user
    have hname : (cache.getPushRuleCacheDataByID userID a).userName = "" := by
      rw [rule?] at hrule
      rw [getPushRuleCacheDataByID, getPushRuleCacheData, hrule]
      rfl
    exact .inl (by rw [if_pos hname])
  | some rule =>
    rw [getPushRuleCacheDataByID_eq hrule]
    by_cases hname : rule.userName = ""
    · exact .inl (by rw [if_pos hname])
    · by_cases hclass : rule.priorityClass ≠ ins.priorityClass
      · exact .inl (by rw [if_neg hname, if_pos hclass])
      · rw [if_neg hname, if_neg hclass]
        refine .inr ⟨a, rule, _, hrule, ?_, rfl⟩
        split_ifs
        · exact .inr rfl
        · exact .inl rfl

structure Stored (userID : String) (cache : RuleCache) : Prop where
  nodup : (cache.lists userID).Nodup
  rule : ∀ key ∈ cache.lists userID, ∃ rule, cache.data key = some rule ∧
    rule.userName = userID ∧ key = ruleKey userID rule.ruleId
  listed : ∀ ruleID rule, cache.rule? userID ruleID = some rule →
    ruleKey userID ruleID ∈ cache.lists userID

namespace Stored

theorem rule_eq (h : Stored userID cache) {ruleID : String}
    (hrule : cache.rule? userID ruleID = some rule) :
    rule.userName = userID ∧ rule.ruleId = ruleID := by
  obtain ⟨rule', hdata, huser, hkey⟩ := h.rule _ (h.listed ruleID rule hrule)
  obtain rfl : rule' = rule := some.inj (hdata.symm.trans hrule)
  exact ⟨huser, (ruleKey_injective userID hkey).symm⟩

theorem addPushRule (h : Stored userID cache) (huser : rule.userName = userID) :
    Stored userID (cache.addPushRule rule) := by
  subst huser
  refine ⟨?_, ?_, ?_⟩
  · simpa [addPushRule] using h.nodup.insert
  · intro key hkey
    simp only [addPushRule, update_self, mem_insert_iff] at hkey ⊢
    by_cases hne : key = ruleKey rule.userName rule.ruleId
    · exact ⟨rule, by rw [hne, update_self], rfl, hne⟩
    · rw [update_of_ne hne]
      exact h.rule key (hkey.resolve_left hne)
  · intro ruleID rule' hrule'
    simp only [addPushRule, update_self, mem_insert_iff]
    by_cases hne : ruleKey rule.userName ruleID = ruleKey rule.userName rule.ruleId
    · exact .inl hne
    · simp only [rule?, addPushRule, update_of_ne hne] at hrule'
      exact .inr (h.listed ruleID rule' hrule')

end Stored

theorem rule?_addPushRule (cache : RuleCache) (rule : PushRuleCacheData) (ruleID : String) :
    (cache.addPushRule rule).rule? rule.userName ruleID =
      if ruleID = rule.ruleId then some rule else cache.rule? rule.userName ruleID := by
  simp only [rule?, addPushRule, update_apply, (ruleKey_injective rule.userName).eq_iff]

/-! ## Making room -/

def PushRuleCacheData.movedUp (priorityClass priority : Int) (rule : PushRuleCacheData) :
    PushRuleCacheData :=
  if rule.priorityClass = priorityClass ∧ rule.priority ≥ priority then
    { rule with priority := rule.priority + 1 }
  else rule

theorem PushRuleCacheData.userName_movedUp (c p : Int) (rule : PushRuleCacheData) :
    (rule.movedUp c p).userName = rule.userName := by
  unfold movedUp
  split_ifs <;> rfl

theorem PushRuleCacheData.ruleId_movedUp (c p : Int) (rule : PushRuleCacheData) :
    (rule.movedUp c p).ruleId = rule.ruleId := by
  unfold movedUp
  split_ifs <;> rfl

theorem moveUp_eq {key : String} (hrule : cache.data key = some rule)
    (hkey : key = ruleKey rule.userName rule.ruleId) (hlisted : key ∈ cache.lists rule.userName)
    (c p : Int) :
    moveUp c p cache key =
      { cache with data := update cache.data key (some (rule.movedUp c p)) } := by
  have hget : cache.getPushRuleCacheData key = rule := by
    rw [getPushRuleCacheData, hrule]
    rfl
  simp only [moveUp, hget, movedUp]
  split_ifs with h
  · simp only [addPushRule, ← hkey, insert_of_mem hlisted, update_eq_self]
  · rw [← hrule, update_eq_self]

variable {order : List String}

/-- **The loop moves each rule once**, in whatever order it goes through them. -/
theorem foldl_moveUp (hnodup : order.Nodup)
    (h : ∀ key ∈ order, ∃ rule, cache.data key = some rule ∧ key = ruleKey rule.userName
      rule.ruleId ∧ key ∈ cache.lists rule.userName) (c p : Int) :
    order.foldl (moveUp c p) cache = { cache with
      data := fun key => if key ∈ order then
        Option.map (PushRuleCacheData.movedUp c p) (cache.data key) else cache.data key } := by
  induction order generalizing cache with
  | nil => simp
  | cons key order ih =>
    obtain ⟨hkey, hnodup⟩ := nodup_cons.mp hnodup
    obtain ⟨rule, hrule, hname, hlisted⟩ := h key mem_cons_self
    have hne : ∀ {key'}, key' ∈ order → key' ≠ key := fun hmem he => hkey (he ▸ hmem)
    rw [foldl_cons, moveUp_eq hrule hname hlisted, ih hnodup]
    · congr 1
      funext key'
      by_cases he : key' = key
      · simp [he, hkey, hrule]
      · simp [he, mem_cons]
    · intro key' hmem
      obtain ⟨rule', hrule', hrest⟩ := h key' (mem_cons_of_mem _ hmem)
      exact ⟨rule', by simp [hne hmem, hrule'], hrest⟩

namespace Stored

theorem foldl_moveUp (h : Stored userID cache) (horder : order.Perm (cache.lists userID))
    (c p : Int) :
    Stored userID (order.foldl (moveUp c p) cache) ∧ ∀ ruleID,
      (order.foldl (moveUp c p) cache).rule? userID ruleID =
        (cache.rule? userID ruleID).map (PushRuleCacheData.movedUp c p) := by
  have hstored : ∀ key ∈ order, ∃ rule, cache.data key = some rule ∧
      key = ruleKey rule.userName rule.ruleId ∧ key ∈ cache.lists rule.userName := by
    intro key hkey
    obtain ⟨rule, hrule, huser, hname⟩ := h.rule key (horder.mem_iff.mp hkey)
    rw [← huser] at hname
    exact ⟨rule, hrule, hname, huser ▸ horder.mem_iff.mp hkey⟩
  have hfold := Push.foldl_moveUp (horder.nodup_iff.mpr h.nodup) hstored c p
  have hrule? : ∀ ruleID, (order.foldl (moveUp c p) cache).rule? userID ruleID =
      (cache.rule? userID ruleID).map (PushRuleCacheData.movedUp c p) := by
    intro ruleID
    rw [hfold]
    simp only [RuleCache.rule?]
    split_ifs with hmem
    · rfl
    · cases hrule : cache.data (ruleKey userID ruleID) with
      | none => rfl
      | some rule => exact absurd (horder.mem_iff.mpr (h.listed ruleID rule hrule)) hmem
  refine ⟨⟨?_, fun key hkey => ?_, fun ruleID rule hrule => ?_⟩, hrule?⟩
  · rw [hfold]
    exact h.nodup
  · rw [hfold] at hkey ⊢
    obtain ⟨rule, hrule, huser, hname⟩ := h.rule key hkey
    refine ⟨rule.movedUp c p, by simp [horder.mem_iff.mpr hkey, hrule], ?_, ?_⟩
    · rw [PushRuleCacheData.userName_movedUp, huser]
    · rw [PushRuleCacheData.ruleId_movedUp, ← hname]
  · rw [hrule?, map_eq_some_iff] at hrule
    obtain ⟨rule, hrule, -⟩ := hrule
    rw [hfold]
    exact h.listed ruleID rule hrule

end Stored

/-! ## A rule with an anchor -/

def RuleCache.priority? (cache : RuleCache) (userID : String) (c : Int) (ruleID : String) :
    Option Int :=
  (cache.rule? userID ruleID).bind fun rule =>
    if rule.priorityClass = c then some rule.priority else none

def Distinct (userID : String) (c : Int) (cache : RuleCache) : Prop :=
  ∀ a b p, cache.priority? userID c a = some p → cache.priority? userID c b = some p → a = b

/-- The rule `high` comes right before the rule `low`: no rule of the class is in between. -/
def RightBefore (userID : String) (c : Int) (cache : RuleCache) (high low : String) : Prop :=
  ∃ ph pl, cache.priority? userID c high = some ph ∧ cache.priority? userID c low = some pl ∧
    pl < ph ∧ ∀ a p, cache.priority? userID c a = some p → ¬ (pl < p ∧ p < ph)

theorem rightBefore_of_succ {c : Int} {high low : String}
    (hhigh : cache.priority? userID c high = some (p + 1))
    (hlow : cache.priority? userID c low = some p) : RightBefore userID c cache high low :=
  ⟨p + 1, p, hhigh, hlow, by omega, fun _ _ _ h => by omega⟩

/-- The rules that were there are kept but for their priorities, and their order stays. -/
structure KeepsOrder (userID : String) (c : Int) (cache cache' : RuleCache) : Prop where
  kept : ∀ a rule, cache.rule? userID a = some rule →
    ∃ p, cache'.rule? userID a = some { rule with priority := p } ∧
      (rule.priorityClass ≠ c → p = rule.priority)
  order : ∀ a b pa pb pa' pb', cache.priority? userID c a = some pa →
    cache.priority? userID c b = some pb → cache'.priority? userID c a = some pa' →
    cache'.priority? userID c b = some pb' → (pa < pb ↔ pa' < pb')

def shift (priority p : Int) : Int := if p ≥ priority then p + 1 else p

theorem shift_lt_shift_iff {priority p q : Int} : shift priority p < shift priority q ↔ p < q := by
  unfold shift
  split_ifs <;> omega

theorem shift_ne (priority p : Int) : shift priority p ≠ priority := by
  unfold shift
  split_ifs <;> omega

theorem priority?_map_movedUp {rule? : Option PushRuleCacheData} {c : Int} :
    ((rule?.map (movedUp c p)).bind fun rule =>
      if rule.priorityClass = c then some rule.priority else none) =
      (rule?.bind fun rule => if rule.priorityClass = c then some rule.priority else none).map
        (shift p) := by
  cases rule? with
  | none => rfl
  | some rule =>
    simp only [map_some, bind_some, movedUp]
    by_cases hc : rule.priorityClass = c
    · by_cases hp : rule.priority ≥ p <;> simp [hc, hp, shift]
    · simp [hc]

section
variable {ins : Insertion}

theorem rule?_insertion (cache : RuleCache) (p : Int) (a : String) :
    (cache.addPushRule (ins.rule userID p)).rule? userID a =
      if a = ins.ruleID then some (ins.rule userID p) else cache.rule? userID a :=
  rule?_addPushRule cache (ins.rule userID p) a

theorem priority?_insertion (cache : RuleCache) (p : Int) (a : String) :
    (cache.addPushRule (ins.rule userID p)).priority? userID ins.priorityClass a =
      if a = ins.ruleID then some p else cache.priority? userID ins.priorityClass a := by
  rw [priority?, rule?_insertion]
  split_ifs
  · simp [Insertion.rule]
  · rfl

/-- The rules after an insertion at a priority. -/
def RuleCache.inserted (cache : RuleCache) (userID : String) (ins : Insertion) (p : Int) :
    RuleCache :=
  (ins.order.foldl (moveUp ins.priorityClass p) cache).addPushRule (ins.rule userID p)

section
variable (h : Stored userID cache) (horder : ins.order.Perm (cache.lists userID))
include h horder

theorem rule?_inserted (p : Int) (a : String) : (cache.inserted userID ins p).rule? userID a =
    if a = ins.ruleID then some (ins.rule userID p)
    else (cache.rule? userID a).map (movedUp ins.priorityClass p) := by
  rw [inserted, rule?_insertion, (h.foldl_moveUp horder _ _).2 a]

theorem priority?_inserted (p : Int) (a : String) :
    (cache.inserted userID ins p).priority? userID ins.priorityClass a =
      if a = ins.ruleID then some p
      else (cache.priority? userID ins.priorityClass a).map (shift p) := by
  rw [inserted, priority?_insertion, priority?,
    (h.foldl_moveUp horder _ _).2 a, priority?_map_movedUp]
  rfl

theorem distinct_inserted (hdistinct : Distinct userID ins.priorityClass cache) (p : Int) :
    Distinct userID ins.priorityClass (cache.inserted userID ins p) := by
  intro a b q ha hb
  rw [priority?_inserted h horder] at ha hb
  split_ifs at ha hb with hca hcb hcb
  · rw [hca, hcb]
  · obtain ⟨pb, -, hpb⟩ := map_eq_some_iff.mp hb
    exact absurd (hpb.trans (some.inj ha).symm) (shift_ne p pb)
  · obtain ⟨pa, -, hpa⟩ := map_eq_some_iff.mp ha
    exact absurd (hpa.trans (some.inj hb).symm) (shift_ne p pa)
  · obtain ⟨pa, ha, hpa⟩ := map_eq_some_iff.mp ha
    obtain ⟨pb, hb, hpb⟩ := map_eq_some_iff.mp hb
    have hlt := @shift_lt_shift_iff p pa pb
    have hgt := @shift_lt_shift_iff p pb pa
    obtain rfl : pa = pb := by omega
    exact hdistinct a b pa ha hb

theorem keepsOrder_inserted (hnew : cache.rule? userID ins.ruleID = none) (p : Int) :
    KeepsOrder userID ins.priorityClass cache (cache.inserted userID ins p) := by
  have hne : ∀ {a rule}, cache.rule? userID a = some rule → a ≠ ins.ruleID := by
    rintro a rule hrule rfl
    rw [hnew] at hrule
    cases hrule
  have hne' : ∀ {a q}, cache.priority? userID ins.priorityClass a = some q → a ≠ ins.ruleID := by
    intro a q ha
    obtain ⟨rule, hrule, -⟩ := bind_eq_some_iff.mp ha
    exact hne hrule
  refine ⟨fun a rule hrule => ?_, fun a b pa pb pa' pb' ha hb ha' hb' => ?_⟩
  · refine ⟨(rule.movedUp ins.priorityClass p).priority, ?_, fun hc => ?_⟩
    · rw [rule?_inserted h horder, if_neg (hne hrule), hrule, map_some]
      unfold movedUp
      split_ifs <;> rfl
    · rw [movedUp, if_neg fun hmove => hc hmove.1]
  · rw [priority?_inserted h horder, if_neg (hne' ha), ha] at ha'
    rw [priority?_inserted h horder, if_neg (hne' hb), hb] at hb'
    obtain rfl := some.inj ha'
    obtain rfl := some.inj hb'
    exact shift_lt_shift_iff.symm

end

/-- **A rule with an anchor is placed next to it on the side asked for**, the priorities of the
class stay distinct and the other rules keep their order. -/
theorem related_adjacent (huser : userID ≠ "") (h : Stored userID cache) (ins : Insertion)
    (horder : ins.order.Perm (cache.lists userID))
    (hdistinct : Distinct userID ins.priorityClass cache)
    (hnew : cache.rule? userID ins.ruleID = none) (anchorID : String) (hid : anchorID ≠ "")
    (hanchor : (cache.priority? userID ins.priorityClass anchorID).isSome)
    (hside : ins.beforeID = anchorID ∨ ins.beforeID = "" ∧ ins.afterID = anchorID) :
    ∃ cache', addPushRuleWithRelated cache userID ins = (.ok, cache') ∧
      Distinct userID ins.priorityClass cache' ∧
      KeepsOrder userID ins.priorityClass cache cache' ∧
      (∃ p, cache'.rule? userID ins.ruleID = some (ins.rule userID p)) ∧
      (ins.beforeID = anchorID →
        RightBefore userID ins.priorityClass cache' ins.ruleID anchorID) ∧
      (ins.beforeID ≠ anchorID →
        RightBefore userID ins.priorityClass cache' anchorID ins.ruleID) := by
  obtain ⟨pa, hpa⟩ := isSome_iff_exists.mp hanchor
  obtain ⟨anchor, hrule, hclass⟩ := bind_eq_some_iff.mp hpa
  have hne : anchorID ≠ ins.ruleID := by
    rintro rfl
    rw [hnew] at hrule
    cases hrule
  split_ifs at hclass with hc
  obtain rfl := some.inj hclass
  have hrelated : (if ins.beforeID ≠ "" then ins.beforeID else ins.afterID) = anchorID := by
    rcases hside with hb | ⟨hb, ha⟩
    · rw [if_pos (hb ▸ hid), hb]
    · rw [if_neg (not_not.mpr hb), ha]
  have hget := getPushRuleCacheDataByID_eq hrule
  have hname := (h.rule_eq hrule).1 ▸ huser
  obtain ⟨p, hp⟩ : ∃ p, p = if ins.beforeID ≠ "" then anchor.priority + 1 else anchor.priority :=
    ⟨_, rfl⟩
  refine ⟨cache.inserted userID ins p, ?_, distinct_inserted h horder hdistinct p,
    keepsOrder_inserted h horder hnew p, ⟨p, by rw [rule?_inserted h horder, if_pos rfl]⟩,
    fun hb => ?_, fun hb => ?_⟩
  · simp only [addPushRuleWithRelated, hrelated, hget, hname, hc, ← hp, if_false, ne_eq,
      not_true_eq_false, RuleCache.inserted]
  · -- the anchor stays where it is
    rw [if_pos (hb ▸ hid)] at hp
    refine rightBefore_of_succ (p := anchor.priority) ?_ ?_
    · rw [priority?_inserted h horder, if_pos rfl, hp]
    · rw [priority?_inserted h horder, if_neg hne, hpa, map_some, shift, if_neg (by omega)]
  · -- the anchor moves up with the others
    obtain ⟨hempty, -⟩ := hside.resolve_left hb
    rw [if_neg (not_not.mpr hempty)] at hp
    refine rightBefore_of_succ (p := anchor.priority) ?_ ?_
    · rw [priority?_inserted h horder, if_neg hne, hpa, map_some, shift, if_pos (by omega)]
    · rw [priority?_inserted h horder, if_pos rfl, hp]

end

def RuleCache.empty : RuleCache := ⟨fun _ => none, fun _ => [], fun _ _ => none⟩

def roomInsertion (order : List String) (ruleID beforeID : String) : Insertion where
  order := order
  ruleID := ruleID
  beforeID := beforeID
  afterID := ""
  priorityClass := Kind.room.priorityClass
  conditions := none
  actions := none

def firstRoomRule : Insertion := roomInsertion [] "global/room/1" ""

theorem stored_empty (userID : String) : Stored userID .empty :=
  ⟨nodup_nil, by simp [empty], by simp [empty, rule?]⟩

def secondRoomRule : Insertion := roomInsertion [] "global/room/2" ""

def bothRoomRules : RuleCache :=
  (RuleCache.empty.addPushRule (firstRoomRule.rule "@a:x" 0)).addPushRule
    (secondRoomRule.rule "@a:x" 1)

def betweenThem : Insertion :=
  roomInsertion [ruleKey "@a:x" "global/room/1", ruleKey "@a:x" "global/room/2"] "global/room/3"
    "global/room/1"

theorem distinct_bothRoomRules : Distinct "@a:x" Kind.room.priorityClass bothRoomRules := by
  have hboth : ∀ a, bothRoomRules.rule? "@a:x" a =
      if a = "global/room/2" then some (secondRoomRule.rule "@a:x" 1)
      else if a = "global/room/1" then some (firstRoomRule.rule "@a:x" 0) else none := fun a =>
    (rule?_addPushRule _ (secondRoomRule.rule "@a:x" 1) a).trans
      (if_congr Iff.rfl rfl (rule?_addPushRule .empty (firstRoomRule.rule "@a:x" 0) a))
  intro a b p ha hb
  simp only [RuleCache.priority?, hboth] at ha hb
  split_ifs at ha hb with hca hcb hcb' hca' hcb hcb'
  · rw [hca, hcb]
  · exact absurd (ha.trans hb.symm) (by decide)
  · cases hb
  · exact absurd (ha.trans hb.symm) (by decide)
  · rw [hca', hcb']
  · cases hb
  all_goals cases ha

theorem related_adjacent_before : ∃ cache',
    addPushRuleWithRelated bothRoomRules "@a:x" betweenThem = (.ok, cache') ∧
      RightBefore "@a:x" Kind.room.priorityClass cache' "global/room/3" "global/room/1" ∧
      RightBefore "@a:x" Kind.room.priorityClass cache' "global/room/2" "global/room/3" := by
  have hfirst : Stored "@a:x" (RuleCache.empty.addPushRule (firstRoomRule.rule "@a:x" 0)) :=
    (stored_empty _).addPushRule rfl
  have hstored : Stored "@a:x" bothRoomRules := hfirst.addPushRule rfl
  obtain ⟨cache', hadd, -, -, -, hbefore, -⟩ := related_adjacent (by decide) hstored betweenThem
    (by decide) distinct_bothRoomRules rfl "global/room/1" (by decide) rfl (.inl rfl)
  refine ⟨cache', hadd, hbefore rfl, ?_⟩
  obtain rfl : (addPushRuleWithRelated bothRoomRules "@a:x" betweenThem).2 = cache' := by rw [hadd]
  exact rightBefore_of_succ (p := 1) rfl rfl

/-! ## A rule without an anchor -/

theorem higher_spec (cache : RuleCache) (c p : Int) (rid : String) : p ≤ higher cache c p rid ∧
      ((cache.getPushRuleCacheData rid).priorityClass = c →
        (cache.getPushRuleCacheData rid).priority ≤ higher cache c p rid) ∧
      (higher cache c p rid = p ∨ (cache.getPushRuleCacheData rid).priorityClass = c ∧
        (cache.getPushRuleCacheData rid).priority = higher cache c p rid) := by
  simp only [higher]
  split_ifs with h
  · exact ⟨by omega, fun _ => le_refl _, .inr ⟨h.1, rfl⟩⟩
  · exact ⟨le_refl _, fun hc => by omega, .inl rfl⟩

theorem foldl_higher_spec (cache : RuleCache) (c : Int) (ruleIDs : List String) (p : Int) :
    p ≤ ruleIDs.foldl (higher cache c) p ∧
      (∀ rid ∈ ruleIDs, (cache.getPushRuleCacheData rid).priorityClass = c →
        (cache.getPushRuleCacheData rid).priority ≤ ruleIDs.foldl (higher cache c) p) ∧
      (ruleIDs.foldl (higher cache c) p = p ∨
        ∃ rid ∈ ruleIDs, (cache.getPushRuleCacheData rid).priorityClass = c ∧
          (cache.getPushRuleCacheData rid).priority = ruleIDs.foldl (higher cache c) p) := by
  induction ruleIDs generalizing p with
  | nil => exact ⟨le_refl _, by simp, .inl rfl⟩
  | cons rid ruleIDs ih =>
    obtain ⟨hstep, hrule, hone⟩ := higher_spec cache c p rid
    obtain ⟨hle, hmax, hattained⟩ := ih (higher cache c p rid)
    rw [foldl_cons]
    refine ⟨hstep.trans hle, ?_, ?_⟩
    · intro rid' hrid' hclass
      rcases mem_cons.mp hrid' with rfl | hrid'
      · exact (hrule hclass).trans hle
      · exact hmax rid' hrid' hclass
    · rcases hattained with heq | ⟨rid', hrid', hattained⟩
      · rw [heq]
        exact hone.imp id fun h => ⟨rid, mem_cons_self, h⟩
      · exact .inr ⟨rid', mem_cons_of_mem _ hrid', hattained⟩

theorem Stored.topPriority_spec (h : Stored userID cache)
    {ruleIDs : List String} (hids : ruleIDs.Perm (cache.lists userID)) (c : Int) :
    0 ≤ topPriority cache c ruleIDs ∧
      (∀ a p, cache.priority? userID c a = some p → p ≤ topPriority cache c ruleIDs) ∧
      (topPriority cache c ruleIDs = 0 ∨
        ∃ a, cache.priority? userID c a = some (topPriority cache c ruleIDs)) := by
  obtain ⟨hnonneg, hmax, hattained⟩ := foldl_higher_spec cache c ruleIDs 0
  refine ⟨hnonneg, fun a p ha => ?_, hattained.imp id ?_⟩
  · obtain ⟨rule, hrule, hclass⟩ := bind_eq_some_iff.mp ha
    split_ifs at hclass with hc
    obtain rfl := some.inj hclass
    have hget : cache.getPushRuleCacheData (ruleKey userID a) = rule :=
      getPushRuleCacheDataByID_eq hrule
    have hle := hmax _ (hids.mem_iff.mpr (h.listed a rule hrule)) (by rw [hget, hc])
    rw [hget] at hle
    exact hle
  · rintro ⟨rid, hrid, hclass, hp⟩
    obtain ⟨rule, hrule, -, hname⟩ := h.rule rid (hids.mem_iff.mp hrid)
    subst hname
    have hget : cache.getPushRuleCacheData (ruleKey userID rule.ruleId) = rule :=
      getPushRuleCacheDataByID_eq hrule
    rw [hget] at hclass hp
    refine ⟨rule.ruleId, bind_eq_some_iff.mpr ⟨rule, hrule, ?_⟩⟩
    rw [if_pos hclass, hp]
    rfl

/-- The rules of a user after some insertions: stored under their keys, no priority negative. -/
structure Inserted (userID : String) (cache : RuleCache) : Prop where
  stored : Stored userID cache
  nonneg : ∀ a rule, cache.rule? userID a = some rule → 0 ≤ rule.priority

theorem inserted_empty (userID : String) : Inserted userID .empty :=
  ⟨stored_empty userID, by simp [empty, rule?]⟩

namespace Inserted

variable {cache' : RuleCache} {ins : Insertion} (h : Inserted userID cache)
include h

theorem addPushRule (huser : rule.userName = userID) (hp : 0 ≤ rule.priority) :
    Inserted userID (cache.addPushRule rule) := by
  refine ⟨h.stored.addPushRule huser, fun a rule' hrule' => ?_⟩
  subst huser
  rw [rule?_addPushRule] at hrule'
  split_ifs at hrule'
  · exact some.inj hrule' ▸ hp
  · exact h.nonneg a rule' hrule'

theorem foldl_moveUp (horder : order.Perm (cache.lists userID)) (c p : Int) :
    Inserted userID (order.foldl (moveUp c p) cache) := by
  obtain ⟨hstored, hrule?⟩ := h.stored.foldl_moveUp horder c p
  refine ⟨hstored, fun a rule hrule => ?_⟩
  rw [hrule?, map_eq_some_iff] at hrule
  obtain ⟨rule, hrule, rfl⟩ := hrule
  have hp := h.nonneg a rule hrule
  unfold movedUp
  split_ifs
  · exact Int.add_nonneg hp (by decide)
  · exact hp

theorem step (hstep : insertRule userID cache ins = some cache') : Inserted userID cache' := by
  unfold insertRule at hstep
  split_ifs at hstep with horder hrelated
  · obtain rfl := some.inj hstep
    rcases addPushRuleWithRelated_cases cache userID ins with heq | ⟨a, rule, p, hrule, hp, heq⟩
    · rw [heq]
      exact h
    · have hrule := h.nonneg a rule hrule
      rw [heq]
      exact (h.foldl_moveUp horder _ _).addPushRule rfl (by simp only [Insertion.rule]; omega)
  · obtain rfl := some.inj hstep
    refine h.addPushRule rfl ?_
    have htop := (h.stored.topPriority_spec horder ins.priorityClass).1
    simp only [Insertion.rule]
    split_ifs
    · omega
    · exact htop

end Inserted

theorem run_inserted {inss : List Insertion}
    (h : run (insertRule userID) .empty inss = some cache) : Inserted userID cache :=
  run_preserves (fun hs hstep => hs.step hstep) (inserted_empty userID) h

/-- **A rule without an anchor comes before all others of its class if and only if it is the only
one or the class has a rule with a positive priority.** -/
theorem newest_on_top_iff {userID : String} {cache : RuleCache} {inss : List Insertion}
    (hrun : run (insertRule userID) .empty inss = some cache) (ins : Insertion)
    (horder : ins.order.Perm (cache.lists userID)) :
    ∃ cache' new, addPushRuleWithoutRelated cache userID ins = (.ok, cache') ∧
      cache'.priority? userID ins.priorityClass ins.ruleID = some new ∧
      ((∀ a p, a ≠ ins.ruleID → cache'.priority? userID ins.priorityClass a = some p → p < new) ↔
        (∃ a p, cache.priority? userID ins.priorityClass a = some p ∧ 0 < p) ∨
          ∀ a, a ≠ ins.ruleID → cache.priority? userID ins.priorityClass a = none) := by
  obtain ⟨hstored, hnonneg⟩ := run_inserted hrun
  obtain ⟨h0, hmax, hattained⟩ := hstored.topPriority_spec horder ins.priorityClass
  have hprio : ∀ {a p}, cache.priority? userID ins.priorityClass a = some p → 0 ≤ p := by
    intro a p ha
    obtain ⟨rule, hrule, hclass⟩ := bind_eq_some_iff.mp ha
    split_ifs at hclass
    exact some.inj hclass ▸ hnonneg a rule hrule
  generalize htop : topPriority cache ins.priorityClass ins.order = top at h0 hmax hattained
  obtain ⟨new, hnew⟩ : ∃ new, new = if top > 0 then top + 1 else top := ⟨_, rfl⟩
  refine ⟨cache.addPushRule (ins.rule userID new), new, ?_, ?_, ?_, ?_⟩
  · simp only [addPushRuleWithoutRelated, htop, ← hnew]
  · rw [priority?_insertion, if_pos rfl]
  · -- with no positive priority the new one is 0, which no other is below
    intro hall
    by_contra hcond
    rw [not_or, not_exists, not_forall] at hcond
    obtain ⟨hpos, a, ha⟩ := hcond
    rw [Classical.not_imp] at ha
    obtain ⟨hne, ha⟩ := ha
    obtain ⟨p, hp⟩ := ne_none_iff_exists'.mp ha
    have hzero : top = 0 := by
      rcases hattained with h | ⟨b, hb⟩
      · exact h
      · by_contra hne
        exact hpos b ⟨top, hb, by omega⟩
    have hlt := hall a p hne (by rw [priority?_insertion, if_neg hne, hp])
    have hle := hprio hp
    rw [hnew, hzero] at hlt
    omega
  · rintro (⟨b, q, hb, hq⟩ | hnone) a p hne ha
    · rw [priority?_insertion, if_neg hne] at ha
      have hqtop := hmax b q hb
      have hptop := hmax a p ha
      omega
    · rw [priority?_insertion, if_neg hne, hnone a hne] at ha
      cases ha

theorem newest_on_top_second : ∃ cache cache' new,
    run (insertRule "@a:x") .empty [firstRoomRule] = some cache ∧
      addPushRuleWithoutRelated cache "@a:x"
        (roomInsertion [ruleKey "@a:x" "global/room/1"] "global/room/2" "") = (.ok, cache') ∧
      cache'.priority? "@a:x" Kind.room.priorityClass "global/room/2" = some new ∧
      ((∀ a p, a ≠ "global/room/2" →
          cache'.priority? "@a:x" Kind.room.priorityClass a = some p → p < new) ↔
        (∃ a p, cache.priority? "@a:x" Kind.room.priorityClass a = some p ∧ 0 < p) ∨
          ∀ a, a ≠ "global/room/2" → cache.priority? "@a:x" Kind.room.priorityClass a = none) := by
  have hrun : run (insertRule "@a:x") .empty [firstRoomRule] = some _ := rfl
  obtain ⟨cache', new, h⟩ := newest_on_top_iff hrun
    (roomInsertion [ruleKey "@a:x" "global/room/1"] "global/room/2" "") (.refl _)
  exact ⟨_, cache', new, hrun, h⟩

/-- **The second rule of a class gets the priority of the first.** -/
theorem second_rule_ties :
    ∃ cache, run (insertRule "@a:x") .empty [firstRoomRule,
        roomInsertion [ruleKey "@a:x" "global/room/1"] "global/room/2" ""] = some cache ∧
      cache.priority? "@a:x" Kind.room.priorityClass "global/room/1" = some 0 ∧
      cache.priority? "@a:x" Kind.room.priorityClass "global/room/2" = some 0 :=
  ⟨_, rfl, rfl, rfl⟩

end Ligase.Push

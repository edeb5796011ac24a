import Ligase.Token.Verify
import Mathlib.Data.List.TakeWhile

/-!
# The caveats of a token

`buildToken` writes the fields of a device into the caveats of a macaroon, as texts of the form
`name = value`; `extractToken` splits every caveat at its blanks and takes the third part.

* **`extractToken_buildToken`**, **`extractToken_buildToken_iff`**: what is read from a token that
  was built.
-/

namespace Ligase.Token

open Lib List Option

variable {τ : Type*}

/-- A token keeps the caveats it is made with. `verify` decodes a token and checks its signature. -/
structure Macaroon (τ : Type*) where
  marshal : (key id loc : String) → (caveats : List String) → τ
  verify : (key : String) → τ → Option (List String)
  verify_marshal : ∀ key id loc caveats, verify key (marshal key id loc caveats) = some caveats

def caveat (field : String × String) : String := field.1 ++ " = " ++ field.2

/-- `random` is the nonce that is drawn and `now` the time in seconds. -/
def buildToken (mac : Macaroon τ) (key id loc userId deviceIdentifier : String) (guest : Bool)
    (deviceID deviceType : String) (human : Bool) (random : String) (now : Int) : τ :=
  mac.marshal key id loc
    (([("gen", "1"), ("user_id", userId), ("type", "access"), ("nonce", random), ("did", deviceID),
      ("didType", deviceType), ("deviceIdentifier", deviceIdentifier), ("ts", itoa now),
      ("human", if human then "true" else "false")] ++
      if guest then [("guest", "true")] else []).map caveat)

/-- `strconv.ParseBool`, with its error dropped. -/
def parseBool (s : String) : Bool := ["1", "t", "T", "TRUE", "true", "True"].contains s

/-- One round of the loop over the caveats; `none` is an index out of range. -/
def readCaveat : Device × Bool → String → Option (Device × Bool)
  | (dev, guest), val =>
    let res := (val.toList.splitOn ' ').map String.ofList
    if res[0]? = some "user_id" then res[2]?.map fun v => ({ dev with UserID := v }, guest)
    else if res[0]? = some "did" then res[2]?.map fun v => ({ dev with ID := v }, guest)
    else if res[0]? = some "didType" then res[2]?.map fun v => ({ dev with DeviceType := v }, guest)
    else if res[0]? = some "human" then
      res[2]?.map fun v => ({ dev with IsHuman := parseBool v }, guest)
    else if res[0]? = some "deviceIdentifier" then
      res[2]?.map fun v => ({ dev with Identifier := v }, guest)
    else if res[0]? = some "guest" then some ({ dev with IsHuman := true }, true)
    else some (dev, guest)

/-- The device, none of them if the token is refused, and whether it is a guest's. -/
def extractToken (mac : Macaroon τ) (key : String) (token : τ) : Option (Option Device × Bool) :=
  match mac.verify key token with
  | none => some (none, false)
  | some caveats =>
    (caveats.foldlM readCaveat (⟨"", "", "", false, ""⟩, false)).map fun r => (some r.1, r.2)

/-! ## Reading back -/

def firstWord (s : String) : String := String.ofList (s.toList.takeWhile (· ≠ ' '))

theorem firstWord_eq_self_iff {s : String} : firstWord s = s ↔ ' ' ∉ s.toList := by
  rw [firstWord, ← String.toList_inj, String.toList_ofList, takeWhile_eq_self_iff]
  constructor
  · intro h hmem
    simpa using h ' ' hmem
  · intro h c hc
    exact decide_eq_true fun hblank => h (hblank ▸ hc)

theorem exists_splitOn_eq (s : String) :
    ∃ parts, (s.toList.splitOn ' ').map String.ofList = firstWord s :: parts := by
  by_cases h : ' ' ∈ s.toList
  · obtain ⟨first, rest, hs, hfirst⟩ := eq_append_cons_of_mem h
    have hpos : ∀ c ∈ first, decide (c ≠ ' ') = true :=
      fun c hc => decide_eq_true fun hblank => hfirst (hblank ▸ hc)
    refine ⟨(rest.splitOn ' ').map String.ofList, ?_⟩
    rw [firstWord, hs, splitOn_append_cons hfirst, takeWhile_append_of_pos hpos]
    simp
  · refine ⟨[], ?_⟩
    rw [firstWord_eq_self_iff.mpr h, splitOn_of_notMem h, map_singleton, String.ofList_toList]

theorem splitOn_caveat {name : String} (hname : ' ' ∉ name.toList) (value : String) :
    ∃ parts, ((caveat (name, value)).toList.splitOn ' ').map String.ofList =
      name :: "=" :: firstWord value :: parts := by
  have htext : (caveat (name, value)).toList =
      name.toList ++ ' ' :: (['='] ++ ' ' :: value.toList) := by
    simp [caveat]
  obtain ⟨parts, hvalue⟩ := exists_splitOn_eq value
  refine ⟨parts, ?_⟩
  rw [htext, splitOn_append_cons hname, splitOn_append_cons (by decide), map_cons, map_cons,
    String.ofList_toList, hvalue]

def store : Device × Bool → String × String → Device × Bool
  | (dev, guest), (name, v) =>
    if name = "user_id" then ({ dev with UserID := v }, guest)
    else if name = "did" then ({ dev with ID := v }, guest)
    else if name = "didType" then ({ dev with DeviceType := v }, guest)
    else if name = "human" then ({ dev with IsHuman := parseBool v }, guest)
    else if name = "deviceIdentifier" then ({ dev with Identifier := v }, guest)
    else if name = "guest" then ({ dev with IsHuman := true }, true)
    else (dev, guest)

theorem readCaveat_caveat {name : String} (hname : ' ' ∉ name.toList) (value : String)
    (s : Device × Bool) :
    readCaveat s (caveat (name, value)) = some (store s (name, firstWord value)) := by
  obtain ⟨parts, hparts⟩ := splitOn_caveat hname value
  simp only [readCaveat, store, hparts, getElem?_cons_zero, getElem?_cons_succ, some.injEq,
    map_some]
  split_ifs
  all_goals rfl

theorem foldlM_readCaveat {fields : List (String × String)} (h : ∀ f ∈ fields, ' ' ∉ f.1.toList)
    (s : Device × Bool) : (fields.map caveat).foldlM readCaveat s =
      some ((fields.map fun f => (f.1, firstWord f.2)).foldl store s) := by
  induction fields generalizing s with
  | nil => rfl
  | cons f fields ih =>
    rw [forall_mem_cons] at h
    rw [map_cons, foldlM_cons, readCaveat_caveat h.1]
    exact ih h.2 _

section
variable (mac : Macaroon τ) (key id loc userId deviceIdentifier : String) (guest : Bool)
  (deviceID deviceType : String) (human : Bool) (random : String) (now : Int)
include mac key id loc userId deviceIdentifier guest deviceID deviceType human random now

/-- **What is read from a token that was built**: of every text what is before its first blank, and
every guest as a human. -/
theorem extractToken_buildToken :
    extractToken mac key (buildToken mac key id loc userId deviceIdentifier guest deviceID
        deviceType human random now) =
      some (some ⟨firstWord deviceID, firstWord userId, firstWord deviceType, guest || human,
        firstWord deviceIdentifier⟩, guest) := by
  rw [extractToken, buildToken, mac.verify_marshal]
  dsimp only
  have htrue : parseBool (firstWord "true") = true := by decide
  have hfalse : parseBool (firstWord "false") = false := by decide
  rw [foldlM_readCaveat]
  · cases guest <;> cases human <;> simp [store, htrue, hfalse]
  · cases guest <;> simp

/-- **A token is read back exactly when** no text has a blank and a guest is human. -/
theorem extractToken_buildToken_iff :
    extractToken mac key (buildToken mac key id loc userId deviceIdentifier guest deviceID
        deviceType human random now) =
      some (some ⟨deviceID, userId, deviceType, human, deviceIdentifier⟩, guest) ↔
    (∀ s ∈ [userId, deviceID, deviceType, deviceIdentifier], ' ' ∉ s.toList) ∧
      (guest = true → human = true) := by
  rw [extractToken_buildToken]
  simp only [some.injEq, Prod.mk.injEq, Device.mk.injEq, firstWord_eq_self_iff, and_true,
    forall_mem_cons, not_mem_nil, false_implies, implies_true, Bool.or_eq_right_iff_imp]
  tauto

end

def plain : Macaroon (String × List String) where
  marshal key _ _ caveats := (key, caveats)
  verify key token := if token.1 = key then some token.2 else none
  verify_marshal _ _ _ _ := if_pos rfl

/-- **A blank cuts a user id short, and a guest that is not human becomes one.** -/
theorem extractToken_cuts_at_blank :
    extractToken plain "key" (buildToken plain "key" "id" "loc" "@a b:x" "mac" false "dev" "actual"
        true "nonce" 1) = some (some ⟨"dev", "@a", "actual", true, "mac"⟩, false) ∧
      extractToken plain "key" (buildToken plain "key" "id" "loc" "@a:x" "mac" true "dev" "actual"
        false "nonce" 1) = some (some ⟨"dev", "@a:x", "actual", true, "mac"⟩, true) := by
  decide

end Ligase.Token

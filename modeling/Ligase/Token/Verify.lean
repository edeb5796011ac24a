import Ligase.Token.Filter

/-!
# Access tokens

`verifyToken` decides whether a request may act for the device its token names. The token decoder
(macaroon signature and caveats) is a parameter; the two cache entries the decision reads are state.

* **`verifyToken_accepts_only_turnServer_iff`**: when a closed session is refused everywhere but on
  the TURN endpoint.
-/

namespace Ligase.Token

open Lib

/-! ## Users and endpoints -/

/-- `SplitID`: the local part and the domain of an identifier. -/
def splitID (sigil : Char) (id : String) : Option (String × String) :=
  match id.toList with
  | [] => none
  | c :: cs => if c ≠ sigil then none else cut ':' (String.ofList cs)

def filterTokenCheck (userId : String) : Bool :=
  contains userId "-qq:" || contains userId "-bot:" || contains userId "@qq_"

def turnServer : String := "/_matrix/client/r0/voip/turnServer"

/-! ## Requests and answers -/

/-- The path and the query of a request. -/
structure Request where
  path : String
  rawQuery : Option String
  path_noQuery : '?' ∉ path.toList

def Request.requestURI (req : Request) : String :=
  match req.rawQuery with
  | some q => req.path ++ "?" ++ q
  | none => req.path

structure Device where
  ID : String
  UserID : String
  DeviceType : String
  IsHuman : Bool
  Identifier : String
  deriving DecidableEq

structure MatrixError where
  ErrCode : String
  Err : String
  deriving DecidableEq

structure JSONResponse where
  Code : Nat
  JSON : MatrixError
  deriving DecidableEq

def unknownToken : JSONResponse := ⟨401, ⟨"M_UNKNOWN_TOKEN", "Unknown token"⟩⟩
def pwdChangeKick : JSONResponse := ⟨401, ⟨"M_PWD_CHANGE_KICK", "kick password change device"⟩⟩

/-- `crash` is a dereferenced nil device. -/
inductive Verdict where
  | accept (device : Device)
  | refuse (res : JSONResponse)
  | crash
  deriving DecidableEq

/-- The cache entries read here: migrated tokens and the devices kicked by a password change. -/
structure Cache where
  migToken : String → Option String
  pwdChange : String → String → Bool

def Cache.delPwdChangeDevice (cache : Cache) (deviceID userID : String) : Cache :=
  { cache with
    pwdChange := fun d u => if d = deviceID ∧ u = userID then false else cache.pwdChange d u }

/-! ## The decision -/

section
variable (extractToken : String → Option Device × Bool)

def checkFilter (device : Device) (guest : Bool) (requestURI : String) (cache : Cache)
    (devFilter : Option SimpleFilter) : Verdict × Cache :=
  match devFilter with
  | none => (.accept device, cache)
  | some sf =>
    if guest = false ∧ filterTokenCheck device.UserID = false then
      if sf.lookup device.UserID device.ID then (.accept device, cache)
      else if contains requestURI turnServer then (.accept device, cache)
      else if cache.pwdChange device.ID device.UserID then
        (.refuse pwdChangeKick, cache.delPwdChangeDevice device.ID device.UserID)
      else (.refuse unknownToken, cache)
    else (.accept device, cache)

def migrate (token : String) (device : Device) (cache : Cache) : Verdict ⊕ Option Device :=
  let localPart := ((splitID '@' device.UserID).map Prod.fst).getD ""
  let isAnonymous := (atoi localPart).isSome
  let mig := (cache.migToken token).getD ""
  if mig = "" then
    if isAnonymous then .inl (.accept { device with IsHuman := true })
    else .inl (.refuse unknownToken)
  else
    match (extractToken mig).1 with
    | some device => .inr (some (if isAnonymous then { device with IsHuman := true } else device))
    | none => if isAnonymous then .inl .crash else .inr none

def verifyToken (token requestURI : String) (cache : Cache) (devFilter : Option SimpleFilter) :
    Verdict × Cache :=
  match extractToken token with
  | (none, _) => (.refuse unknownToken, cache)
  | (some device, guest) =>
    if device.ID = "" ∧ guest = false then
      match migrate extractToken token device cache with
      | .inl v => (v, cache)
      | .inr none => (.refuse unknownToken, cache)
      | .inr (some device) => checkFilter device guest requestURI cache devFilter
    else checkFilter device guest requestURI cache devFilter

/-! ## Closed sessions -/

variable {extractToken} {token : String} {device : Device}

theorem verifyToken_of_not_has {sf : SimpleFilter} (hx : extractToken token = (some device, false))
    (hid : device.ID ≠ "") (hf : filterTokenCheck device.UserID = false) (hr : sf.ready = true)
    (hn : ¬ sf.Has device.UserID device.ID) (uri : String) (cache : Cache) :
    (verifyToken extractToken token uri cache (some sf)).1 =
      if contains uri turnServer then .accept device
      else if cache.pwdChange device.ID device.UserID then .refuse pwdChangeKick
      else .refuse unknownToken := by
  have hl : sf.lookup device.UserID device.ID = false := by
    rw [← Bool.not_eq_true, SimpleFilter.lookup_eq_true_iff hr]
    exact hn
  simp only [verifyToken, hx, hid, false_and, if_false, checkFilter, hf, hl, and_self, if_true,
    Bool.false_eq_true]
  split_ifs <;> rfl

/-- **Closed sessions are refused everywhere but on the TURN endpoint exactly** for the requests
that do not carry its text elsewhere in their target. -/
theorem verifyToken_accepts_only_turnServer_iff {sf : SimpleFilter} {cache : Cache} (req : Request)
    (hx : extractToken token = (some device, false)) (hid : device.ID ≠ "")
    (hf : filterTokenCheck device.UserID = false) (hr : sf.ready = true)
    (hn : ¬ sf.Has device.UserID device.ID) :
    ((∃ dev, (verifyToken extractToken token req.requestURI cache (some sf)).1 = .accept dev) →
        req.path = turnServer) ↔
      contains req.requestURI turnServer = false ∨ req.path = turnServer := by
  rw [verifyToken_of_not_has hx hid hf hr hn]
  cases hc : contains req.requestURI turnServer with
  | true => simp
  | false =>
    simp only [Bool.false_eq_true, if_false, true_or, iff_true]
    rintro ⟨dev, h⟩
    split_ifs at h

def aliceDevice : Device := ⟨"phone:1", "@alice:x", "actual", true, ""⟩

def emptyCache : Cache := ⟨fun _ => none, fun _ _ => false⟩

def whoami (query : Option String) : Request :=
  ⟨"/_matrix/client/r0/account/whoami", query, by decide⟩

theorem verifyToken_accepts_only_turnServer_iff_whoami :
    ((∃ dev, (verifyToken (fun _ => (some aliceDevice, false)) "t" (whoami none).requestURI
        emptyCache (some { newSimpleFilter with ready := true })).1 = .accept dev) →
        (whoami none).path = turnServer) ↔
      contains (whoami none).requestURI turnServer = false ∨ (whoami none).path = turnServer :=
  verifyToken_accepts_only_turnServer_iff (whoami none) rfl (by decide) (by decide) rfl (by decide)

/-- **A query that spells the TURN endpoint opens every other one** to a closed session. -/
theorem verifyToken_accepts_query :
    (verifyToken (fun _ => (some aliceDevice, false)) "t"
        (whoami (some "next=/_matrix/client/r0/voip/turnServer")).requestURI emptyCache
        (some { newSimpleFilter with ready := true })).1 = .accept aliceDevice ∧
      aliceDevice.ID ≠ "" ∧ filterTokenCheck aliceDevice.UserID = false ∧
      ¬ SimpleFilter.Has { newSimpleFilter with ready := true } aliceDevice.UserID aliceDevice.ID ∧
      (whoami (some "next=/_matrix/client/r0/voip/turnServer")).path ≠ turnServer := by
  decide

end

end Ligase.Token

import Ligase.Crypto.OneTimeKeys
import Ligase.Lib.GoMap
import Ligase.Lib.Proc

/-!
# Uploads of keys

A client uploads the keys of its device: device keys by algorithm and one-time keys by name, where a
name is an algorithm and an id with a colon between them. The values of the one-time keys are read
without a type; a text is a plain key, an object a signed one, anything else is passed over.

* **`postUploadKeys_returns_iff`**: which requests return whatever the stores answer.
-/

namespace Ligase.Crypto

open Lib List Proc

/-! ## The body -/

abbrev Signatures : Type := List (String × List (String × String))

structure DeviceKeys where
  userID : String
  deviceID : String
  algorithm : List String
  keys : List (String × String)
  signature : Signatures

structure KeyObject where
  key : String
  signature : Signatures

structure UploadEncrypt where
  deviceKeys : DeviceKeys
  oneTimeKey : List (String × Json)

def readSignatures (j : Json) (old : Signatures) : Option Signatures :=
  j.asMap (fun j => j.asMap Json.asString []) old

def DeviceKeys.set (name : String) (v : Json) (d : DeviceKeys) : Option DeviceKeys :=
  match name with
  | "user_id" => v.asString.map fun x => { d with userID := x }
  | "device_id" => v.asString.map fun x => { d with deviceID := x }
  | "algorithms" => (v.asList Json.asString).map fun x => { d with algorithm := x }
  | "keys" => (v.asMap Json.asString d.keys).map fun x => { d with keys := x }
  | "signatures" => (readSignatures v d.signature).map fun x => { d with signature := x }
  | _ => some d

-- read by `encoding/json`, which returns the first error although it goes on after it
def KeyObject.set (name : String) (v : Json) (k : KeyObject) : Option KeyObject :=
  match foldName name with
  | "key" => (v.asStringOr k.key).map fun x => { k with key := x }
  | "signatures" => (readSignatures v k.signature).map fun x => { k with signature := x }
  | _ => some k

def KeyObject.unmarshal (j : Json) : Option KeyObject := j.decode? KeyObject.set ⟨"", []⟩

def UploadEncrypt.set (name : String) (v : Json) (u : UploadEncrypt) : Option UploadEncrypt :=
  match name with
  | "device_keys" => (v.decode? DeviceKeys.set u.deviceKeys).map fun x => { u with deviceKeys := x }
  | "one_time_keys" => (v.asMap Json.asAny u.oneTimeKey).map fun x => { u with oneTimeKey := x }
  | _ => some u

def UploadEncrypt.unmarshal (body : Json) : Option UploadEncrypt :=
  body.decode? UploadEncrypt.set ⟨⟨"", "", [], [], []⟩, []⟩

/-! ## The stores -/

inductive Fault where
  | error (text : String)
  | panic

inductive KeyUpdateContent where
  | deviceKeyUpdate (changedUserID : String) (offset : Int)
  | oneTimeKeyUpdate (userID deviceID : String)

inductive Op where
  | onDeleteDeviceOneTimeKey (deviceID userID : String)
  | deleteDeviceOneTimeKey (userID deviceID : String)
  | setDeviceAlgorithm (userID deviceID algorithm : String)
  | insertAl (uid device al identifier : String)
  | setOneTimeKey (key : KeyHolder)
  | insertOneTimeKey (key : KeyHolder) (identifier : String)
  | setDeviceKey (userID deviceID keyInfo al sig : String)
  | insertDeviceKey (deviceID userID keyInfo al sig identifier : String)
  | insertKeyChange (userID : String) (offset : Int)

/-- The stores the request works on: every write may be refused, every read may fail. -/
structure Backend (σ : Type) where
  exec : Op → σ → Option String × σ
  pub : KeyUpdateContent → σ → σ
  next : σ → Int × σ
  getOneTimeKeyIDs : String → String → σ → Option (List String)
  getOneTimeKey : String → σ → Option KeyHolder

structure Orders where
  body : List (String × Json) → List (String × Json)
  strings : List (String × String) → List (String × String)
  objects : List (String × KeyObject) → List (String × KeyObject)
  devices : List (String × String) → List (String × String)
  body_perm : ∀ l, (body l).Perm l
  strings_perm : ∀ l, (strings l).Perm l
  objects_perm : ∀ l, (objects l).Perm l
  devices_perm : ∀ l, (devices l).Perm l

/-! ## The request -/

structure UploadEncryptSpecific where
  deviceKeys : DeviceKeys
  keyString : GoMap String
  keyObject : GoMap KeyObject

variable (spec : UploadEncryptSpecific)

def specifyKey (p : String × Json) : Option UploadEncryptSpecific :=
  match p.2 with
  | .string value => (spec.keyString.set p.1 value).map fun m => { spec with keyString := m }
  | val =>
    match KeyObject.unmarshal val with
    | some valueObject =>
      (spec.keyObject.set p.1 valueObject).map fun m => { spec with keyObject := m }
    | none => some spec

def turnSpecific (o : Orders) (cont : UploadEncrypt) : Option UploadEncryptSpecific :=
  (o.body cont.oneTimeKey).foldlM specifyKey ⟨cont.deviceKeys, .make, .make⟩

inductive BodyType where
  | deviceKey
  | oneTimeKey

def checkUpload (req : UploadEncryptSpecific) : BodyType → Bool
  | .deviceKey => req.deviceKeys.userID ≠ ""
  | .oneTimeKey =>
    match req.keyString, req.keyObject with
    | .entries _, .entries _ => true
    | _, _ => false

def getDeviceMac (deviceID : String) : String := (beforeLast ':' deviceID).getD deviceID

def algorithmOf (name : String) : String := String.ofList ((name.toList.splitOn ':').headD [])

def keyIDOf (name : String) : Option String :=
  ((name.toList.splitOn ':').tail.head?).map String.ofList

def signatureOf (signature : Signatures) (userID deviceID : String) : String :=
  (((signature.lookup userID).getD []).lookup ("ed25519:" ++ deviceID)).getD ""

section
variable {σ : Type} (B : Backend σ) (o : Orders) (userID deviceID : String)

def Backend.write (op : Op) : Proc σ Fault Unit := fun s =>
  match B.exec op s with
  | (none, t) => (.ok (), t)
  | (some e, t) => (.error (.error e), t)

def Backend.nextOffset : Proc σ Fault Int := fun s => (.ok (B.next s).1, (B.next s).2)

/-- One one-time key, which is written to the cache and to the table. -/
def storeOneTimeKey (alKeyID keyInfo sig : String) : Proc σ Fault Unit := do
  let keyID ← Proc.require .panic (keyIDOf alKeyID)
  let key : KeyHolder :=
    { DeviceID := deviceID, UserID := userID, KeyID := keyID, Key := keyInfo
      KeyAlgorithm := algorithmOf alKeyID, Signature := sig }
  B.write (.setOneTimeKey key)
  B.write (.insertOneTimeKey key (getDeviceMac deviceID))

variable (body : UploadEncryptSpecific)

def otmKeyProcess : Proc σ Fault Unit := do
  (o.strings body.keyString.toList).forM fun p => storeOneTimeKey B userID deviceID p.1 p.2 ""
  (o.objects body.keyObject.toList).forM fun p =>
    storeOneTimeKey B userID deviceID p.1 p.2.key (signatureOf p.2.signature userID deviceID)

def deviceKeyProcess (deviceKeys : DeviceKeys) : Proc σ Fault Unit :=
  (o.devices deviceKeys.keys).forM fun p => do
    let al := algorithmOf p.1
    let sig := signatureOf deviceKeys.signature userID deviceID
    B.write (.setDeviceKey userID deviceID p.2 al sig)
    B.write (.insertDeviceKey deviceID userID p.2 al sig (getDeviceMac deviceID))

def bothKeyProcess (deviceKeys : DeviceKeys) : Proc σ Fault Unit := do
  otmKeyProcess B o userID deviceID body
  deviceKeyProcess B o userID deviceID deviceKeys

def persistKeys : Proc σ Fault Unit :=
  if checkUpload body .deviceKey then do
    B.write (.onDeleteDeviceOneTimeKey deviceID userID)
    B.write (.deleteDeviceOneTimeKey userID deviceID)
    let al := ",".intercalate body.deviceKeys.algorithm
    B.write (.setDeviceAlgorithm userID deviceID al)
    B.write (.insertAl userID deviceID al (getDeviceMac deviceID))
    (if checkUpload body .oneTimeKey then bothKeyProcess B o userID deviceID body body.deviceKeys
      else deviceKeyProcess B o userID deviceID body.deviceKeys)
    let offset ← B.nextOffset
    B.write (.insertKeyChange userID offset)
    Proc.write (B.pub (.deviceKeyUpdate userID offset))
    Proc.write (B.pub (.oneTimeKeyUpdate userID deviceID))
  else if checkUpload body .oneTimeKey then do
    otmKeyProcess B o userID deviceID body
    Proc.write (B.pub (.oneTimeKeyUpdate userID deviceID))
  else Proc.fail (.error "failed to touch keys")

end

/-! ## The answer -/

structure Device where
  userID : String
  id : String
  deviceType : String

def isActualDevice (deviceType : String) : Bool :=
  deviceType = "actual" || deviceType = "internal"

def defaultKeyCount : List (String × Nat) := [("curve25519", 50), ("signed_curve25519", 50)]

def initKeyCount : List (String × Nat) := [("curve25519", 0), ("signed_curve25519", 0)]

section
variable {σ : Type} (B : Backend σ) (o : Orders) (device : Device)

def queryOneTimeKeys (userID deviceID : String) (s : σ) : List (String × Nat) :=
  ((B.getOneTimeKeyIDs userID deviceID s).getD []).foldl
    (fun result keyID =>
      match B.getOneTimeKey keyID s with
      | some key =>
        if key.UserID ≠ "" then
          Json.setKey key.KeyAlgorithm ((result.lookup key.KeyAlgorithm).getD 0 + 1) result
        else result
      | none => result)
    initKeyCount

inductive UploadReply where
  | unknown
  | keyCounts (code : Nat) (oneTimeKeyCounts : List (String × Nat))

def uploadPKeys (keyBody : UploadEncrypt) : Proc σ Fault UploadReply := fun s =>
  if isActualDevice device.deviceType = false then (.ok (.keyCounts 200 defaultKeyCount), s)
  else
    match turnSpecific o keyBody with
    | none => (.error .panic, s)
    | some keySpecific =>
      match persistKeys B o device.userID device.id keySpecific s with
      | (.ok (), t) => (.ok (.keyCounts 200 (queryOneTimeKeys B device.userID device.id t)), t)
      | (.error (.error _), t) =>
        (.ok (.keyCounts 502 (queryOneTimeKeys B device.userID device.id t)), t)
      | (.error .panic, t) => (.error .panic, t)

def postUploadKeys (body : Json) : Proc σ Fault UploadReply :=
  match UploadEncrypt.unmarshal body with
  | some keyBody => uploadPKeys B o device keyBody
  | none => pure .unknown

end

/-! ## Names -/

/-- A value that is kept: a text, or what can be read as an object. -/
def Kept (v : Json) : Prop := (∃ value, v = .string value) ∨ (KeyObject.unmarshal v).isSome

theorem isSome_keyIDOf_iff (name : String) : (keyIDOf name).isSome ↔ ':' ∈ name.toList := by
  unfold keyIDOf
  by_cases h : ':' ∈ name.toList
  · obtain ⟨al, keyID, parts, hsplit⟩ := splitOn_of_mem h
    simp [hsplit, h]
  · simp [splitOn_of_notMem h, h]

def UploadEncryptSpecific.names : List String :=
  spec.keyString.toList.map Prod.fst ++ spec.keyObject.toList.map Prod.fst

structure UploadEncryptSpecific.Made : Prop where
  keyString : spec.keyString ≠ .nil
  keyObject : spec.keyObject ≠ .nil

theorem mem_keys_setKey {α : Type} {key name : String} {a : α} {l : List (String × α)} :
    name ∈ (Json.setKey key a l).map Prod.fst ↔ name = key ∨ name ∈ l.map Prod.fst := by
  rw [Json.setKey, map_cons, mem_cons]
  by_cases h : name = key
  · simp [h]
  · simp [h, mem_map, mem_filter]

theorem exists_set {α : Type} {m : GoMap α} (h : m ≠ .nil) (key : String) (a : α) :
    ∃ m', m.set key a = some m' ∧ m' ≠ .nil ∧
      ∀ name, name ∈ m'.toList.map Prod.fst ↔ name = key ∨ name ∈ m.toList.map Prod.fst := by
  cases m with
  | nil => exact absurd rfl h
  | entries l =>
    exact ⟨.entries (Json.setKey key a l), rfl, by simp, fun name => mem_keys_setKey⟩

variable {spec : UploadEncryptSpecific}

theorem specifyKey_spec (h : spec.Made) (p : String × Json) :
    ∃ spec', specifyKey spec p = some spec' ∧ spec'.Made ∧
      ∀ name, name ∈ spec'.names ↔ name ∈ spec.names ∨ name = p.1 ∧ Kept p.2 := by
  obtain ⟨key, val⟩ := p
  by_cases hs : ∃ value, val = .string value
  · obtain ⟨value, rfl⟩ := hs
    obtain ⟨m, hm, hne, hnames⟩ := exists_set h.keyString key value
    refine ⟨{ spec with keyString := m }, by simp [specifyKey, hm], ⟨hne, h.keyObject⟩, fun n => ?_⟩
    have hkept : Kept (.string value) := .inl ⟨value, rfl⟩
    simp only [UploadEncryptSpecific.names, mem_append, hnames, hkept, and_true]
    tauto
  · have heq : specifyKey spec (key, val) =
        match KeyObject.unmarshal val with
        | some valueObject =>
          (spec.keyObject.set key valueObject).map fun m => { spec with keyObject := m }
        | none => some spec := by
      unfold specifyKey
      split
      · rename_i value hval
        exact absurd ⟨value, hval⟩ hs
      · rfl
    cases hobj : KeyObject.unmarshal val with
    | none => exact ⟨spec, by rw [heq, hobj], h, fun n => by simp [Kept, hs, hobj]⟩
    | some valueObject =>
      obtain ⟨m, hm, hne, hnames⟩ := exists_set h.keyObject key valueObject
      refine ⟨{ spec with keyObject := m }, by simp [heq, hobj, hm], ⟨h.keyString, hne⟩,
        fun n => ?_⟩
      have hkept : Kept val := .inr (by rw [hobj]; rfl)
      simp only [UploadEncryptSpecific.names, mem_append, hnames, hkept, and_true]
      tauto

theorem foldlM_specifyKey (l : List (String × Json)) (h : spec.Made) :
    ∃ spec', l.foldlM specifyKey spec = some spec' ∧ spec'.Made ∧
      ∀ name, name ∈ spec'.names ↔ name ∈ spec.names ∨ ∃ v, (name, v) ∈ l ∧ Kept v := by
  induction l generalizing spec with
  | nil => exact ⟨spec, rfl, h, by simp⟩
  | cons p l ih =>
    obtain ⟨spec₁, h₁, hmade₁, hnames₁⟩ := specifyKey_spec h p
    obtain ⟨spec₂, h₂, hmade₂, hnames₂⟩ := ih hmade₁
    refine ⟨spec₂, by rw [foldlM_cons, h₁]; exact h₂, hmade₂, fun name => ?_⟩
    rw [hnames₂, hnames₁, or_assoc]
    refine or_congr_right ?_
    constructor
    · rintro (⟨rfl, hkept⟩ | ⟨v, hv, hkept⟩)
      · exact ⟨p.2, mem_cons_self, hkept⟩
      · exact ⟨v, mem_cons_of_mem _ hv, hkept⟩
    · rintro ⟨v, hv, hkept⟩
      rcases mem_cons.mp hv with rfl | hv
      · exact .inl ⟨rfl, hkept⟩
      · exact .inr ⟨v, hv, hkept⟩

theorem turnSpecific_spec (o : Orders) (cont : UploadEncrypt) :
    ∃ spec, turnSpecific o cont = some spec ∧ spec.Made ∧
      ∀ name, name ∈ spec.names ↔ ∃ v, (name, v) ∈ cont.oneTimeKey ∧ Kept v := by
  have hmake : UploadEncryptSpecific.Made ⟨cont.deviceKeys, .make, .make⟩ :=
    ⟨by simp [GoMap.make], by simp [GoMap.make]⟩
  obtain ⟨spec, hspec, hmade, hnames⟩ := foldlM_specifyKey (o.body cont.oneTimeKey) hmake
  refine ⟨spec, hspec, hmade, fun name => (hnames name).trans ?_⟩
  simp [UploadEncryptSpecific.names, GoMap.make, GoMap.toList,
    (o.body_perm cont.oneTimeKey).mem_iff]

theorem UploadEncryptSpecific.Made.checkUpload (h : spec.Made) :
    checkUpload spec .oneTimeKey = true := by
  obtain ⟨deviceKeys, keyString, keyObject⟩ := spec
  cases keyString with
  | nil => exact absurd rfl h.keyString
  | entries l =>
    cases keyObject with
    | nil => exact absurd rfl h.keyObject
    | entries l' => rfl

/-! ## Requests that return -/

variable {body : UploadEncryptSpecific}

section
variable {σ : Type} {B : Backend σ} {o : Orders} {userID deviceID : String}

theorem failsWith_write (op : Op) : (B.write op).FailsWith (· ≠ .panic) := by
  intro s e t h
  unfold Backend.write at h
  split at h
  · cases h
  · cases h
    simp

theorem failsWith_storeOneTimeKey {alKeyID keyInfo sig : String} (h : ':' ∈ alKeyID.toList) :
    (storeOneTimeKey B userID deviceID alKeyID keyInfo sig).FailsWith (· ≠ .panic) := by
  obtain ⟨keyID, hkeyID⟩ := Option.isSome_iff_exists.mp ((isSome_keyIDOf_iff alKeyID).mpr h)
  unfold storeOneTimeKey
  rw [hkeyID]
  exact failsWith_pure.bind fun _ => (failsWith_write _).bind fun _ => failsWith_write _

theorem failsWith_otmKeyProcess (h : ∀ name ∈ body.names, ':' ∈ name.toList) :
    (otmKeyProcess B o userID deviceID body).FailsWith (· ≠ .panic) := by
  refine (failsWith_forM fun p hp => ?_).bind fun _ => failsWith_forM fun p hp => ?_
  · have hp := (o.strings_perm _).mem_iff.mp hp
    exact failsWith_storeOneTimeKey (h p.1 (mem_append_left _ (mem_map_of_mem hp)))
  · have hp := (o.objects_perm _).mem_iff.mp hp
    exact failsWith_storeOneTimeKey (h p.1 (mem_append_right _ (mem_map_of_mem hp)))

theorem failsWith_deviceKeyProcess (deviceKeys : DeviceKeys) :
    (deviceKeyProcess B o userID deviceID deviceKeys).FailsWith (· ≠ .panic) :=
  failsWith_forM fun _ _ => (failsWith_write _).bind fun _ => failsWith_write _

theorem failsWith_persistKeys (h : ∀ name ∈ body.names, ':' ∈ name.toList) :
    (persistKeys B o userID deviceID body).FailsWith (· ≠ .panic) := by
  have hotm : (otmKeyProcess B o userID deviceID body).FailsWith (· ≠ .panic) :=
    failsWith_otmKeyProcess h
  have hboth : (if checkUpload body .oneTimeKey then
      bothKeyProcess B o userID deviceID body body.deviceKeys
      else deviceKeyProcess B o userID deviceID body.deviceKeys).FailsWith (· ≠ .panic) := by
    split_ifs
    · exact hotm.bind fun _ => failsWith_deviceKeyProcess _
    · exact failsWith_deviceKeyProcess _
  have hnext : B.nextOffset.FailsWith (· ≠ .panic) := by
    intro s e t h
    cases h
  unfold persistKeys
  by_cases hdevice : checkUpload body .deviceKey = true
  · rw [if_pos hdevice]
    refine (failsWith_write _).bind fun _ => (failsWith_write _).bind fun _ => ?_
    refine (failsWith_write _).bind fun _ => (failsWith_write _).bind fun _ => ?_
    refine hboth.bind fun _ => hnext.bind fun _ => (failsWith_write _).bind fun _ => ?_
    exact Proc.failsWith_write.bind fun _ => Proc.failsWith_write
  · split_ifs
    · exact hotm.bind fun _ => Proc.failsWith_write
    · exact failsWith_fail (by simp)

theorem uploadPKeys_returns {device : Device} {keyBody : UploadEncrypt}
    (h : ∀ p ∈ keyBody.oneTimeKey, Kept p.2 → ':' ∈ p.1.toList) (s : σ) :
    ∃ reply t, uploadPKeys B o device keyBody s = (.ok reply, t) := by
  obtain ⟨spec, hspec, -, hnames⟩ := turnSpecific_spec o keyBody
  have hcolon : ∀ name ∈ spec.names, ':' ∈ name.toList := by
    intro name hname
    obtain ⟨v, hv, hkept⟩ := (hnames name).mp hname
    exact h (name, v) hv hkept
  simp only [uploadPKeys, hspec]
  split_ifs
  · exact ⟨_, _, rfl⟩
  · split
    · exact ⟨_, _, rfl⟩
    · exact ⟨_, _, rfl⟩
    · rename_i hpanic
      exact absurd rfl (failsWith_persistKeys hcolon _ _ _ hpanic)

end

/-! ## Requests that panic -/

def accepting : Backend Unit where
  exec _ _ := (none, ())
  pub _ _ := ()
  next _ := (0, ())
  getOneTimeKeyIDs _ _ _ := none
  getOneTimeKey _ _ := none

section
variable (o : Orders) (userID deviceID : String)

theorem storeOneTimeKey_accepting (alKeyID keyInfo sig : String) :
    storeOneTimeKey accepting userID deviceID alKeyID keyInfo sig () =
      (if ':' ∈ alKeyID.toList then .ok () else .error .panic, ()) := by
  unfold storeOneTimeKey
  simp only [← isSome_keyIDOf_iff]
  cases keyIDOf alKeyID with
  | none => rfl
  | some keyID => rfl

theorem forM_panics {α : Type} {f : α → Proc Unit Fault Unit} {name : α → String}
    (hf : ∀ a, f a () = (if ':' ∈ (name a).toList then .ok () else .error .panic, ()))
    (l : List α) :
    l.forM f () = (if ∀ a ∈ l, ':' ∈ (name a).toList then .ok () else .error .panic, ()) := by
  induction l with
  | nil => rfl
  | cons a l ih =>
    simp only [forall_mem_cons]
    by_cases ha : ':' ∈ (name a).toList
    · simp only [ha, true_and]
      exact (bind_of_ok (by rw [hf, if_pos ha])).trans ih
    · simp only [ha, false_and, if_false]
      exact bind_eq_error (by rw [hf, if_neg ha])

theorem otmKeyProcess_panics (h : ∃ name ∈ body.names, ':' ∉ name.toList) :
    otmKeyProcess accepting o userID deviceID body () = (.error .panic, ()) := by
  have hstrings := forM_panics (fun p : String × String =>
    storeOneTimeKey_accepting userID deviceID p.1 p.2 "")
    (o.strings body.keyString.toList)
  have hobjects := forM_panics (fun p : String × KeyObject =>
    storeOneTimeKey_accepting userID deviceID p.1 p.2.key
      (signatureOf p.2.signature userID deviceID)) (o.objects body.keyObject.toList)
  obtain ⟨name, hname, hcolon⟩ := h
  by_cases hall : ∀ p ∈ o.strings body.keyString.toList, ':' ∈ p.1.toList
  · rw [if_pos hall] at hstrings
    refine (bind_of_ok hstrings).trans (hobjects.trans ?_)
    rw [if_neg]
    intro hobj
    rcases mem_append.mp hname with hmem | hmem
    · obtain ⟨p, hp, rfl⟩ := mem_map.mp hmem
      exact hcolon (hall p ((o.strings_perm _).mem_iff.mpr hp))
    · obtain ⟨p, hp, rfl⟩ := mem_map.mp hmem
      exact hcolon (hobj p ((o.objects_perm _).mem_iff.mpr hp))
  · rw [if_neg hall] at hstrings
    exact bind_eq_error hstrings

theorem accepting_write_bind {α : Type} (op : Op) (f : Unit → Proc Unit Fault α) :
    (accepting.write op >>= f) () = f () () :=
  rfl

theorem persistKeys_panics (hmade : body.Made) (h : ∃ name ∈ body.names, ':' ∉ name.toList) :
    persistKeys accepting o userID deviceID body () = (.error .panic, ()) := by
  have hotm := otmKeyProcess_panics o userID deviceID h
  unfold persistKeys
  by_cases hdevice : checkUpload body .deviceKey = true
  · rw [if_pos hdevice]
    simp only [accepting_write_bind, if_pos hmade.checkUpload]
    exact bind_eq_error (bind_eq_error hotm)
  · rw [if_neg hdevice, if_pos hmade.checkUpload]
    exact bind_eq_error hotm

end

def NamesSplit (body : Json) : Prop :=
  ∀ keyBody, UploadEncrypt.unmarshal body = some keyBody →
    ∀ p ∈ keyBody.oneTimeKey, Kept p.2 → ':' ∈ p.1.toList

theorem postUploadKeys_panics (o : Orders) {device : Device} {body : Json}
    (hactual : isActualDevice device.deviceType = true) (h : ¬ NamesSplit body) :
    postUploadKeys accepting o device body () = (.error .panic, ()) := by
  simp only [NamesSplit, not_forall] at h
  obtain ⟨keyBody, hbody, p, hp, hkept, hcolon⟩ := h
  obtain ⟨spec, hspec, hmade, hnames⟩ := turnSpecific_spec o keyBody
  have hname : ∃ name ∈ spec.names, ':' ∉ name.toList :=
    ⟨p.1, (hnames p.1).mpr ⟨p.2, hp, hkept⟩, hcolon⟩
  simp only [postUploadKeys, hbody, uploadPKeys, hactual, hspec,
    persistKeys_panics o _ _ hmade hname]
  rfl

def inOrder : Orders where
  body l := l
  strings l := l
  objects l := l
  devices l := l
  body_perm _ := .refl _
  strings_perm _ := .refl _
  objects_perm _ := .refl _
  devices_perm _ := .refl _

/-- **An upload returns, whatever the stores answer and in every order of the maps, if and only if
the names of the keys that are kept have a colon.** The upload of a device that is not an actual one
is not looked at. -/
theorem postUploadKeys_returns_iff (device : Device) (body : Json) :
    (∀ (σ : Type) (B : Backend σ) (o : Orders) (s : σ),
        ∃ reply t, postUploadKeys B o device body s = (.ok reply, t)) ↔
      (isActualDevice device.deviceType = true → NamesSplit body) := by
  constructor
  · intro h hactual
    by_contra hsplit
    obtain ⟨reply, t, hreply⟩ := h Unit accepting inOrder ()
    rw [postUploadKeys_panics inOrder hactual hsplit] at hreply
    cases hreply
  · intro h σ B o s
    unfold postUploadKeys
    cases hbody : UploadEncrypt.unmarshal body with
    | none => exact ⟨.unknown, s, rfl⟩
    | some keyBody =>
      by_cases hactual : isActualDevice device.deviceType = true
      · exact uploadPKeys_returns (h hactual keyBody hbody) s
      · exact ⟨.keyCounts 200 defaultKeyCount, s, by simp [uploadPKeys, hactual]⟩

def bareName : Json :=
  .obj [("one_time_keys", .obj [("curve25519", .string "k")])]

theorem bareName_panics : postUploadKeys accepting inOrder ⟨"@a:x", "D", "actual"⟩ bareName () =
    (.error .panic, ()) := by
  rfl

end Ligase.Crypto

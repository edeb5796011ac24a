import Mathlib.Logic.Basic

/-!
# Messages between the front and the servers

A message is copied field by field into a Cap'n Proto struct, and from there into a new message.

* **`decode_encode_iff`**: which messages are read back.
-/

namespace Ligase.Common

structure Device where
  ID : String
  UserID : String
  DisplayName : String
  DeviceType : String
  IsHuman : Bool
  Identifier : String
  CreateTs : Int64
  LastActiveTs : Int64

structure InputMsg where
  Reply : Int64
  MsgType : Int32
  Device : Option Device
  Payload : List UInt8

structure OutputMsg where
  Reply : Int64
  MsgType : Int32
  Code : Int64
  Headers : List UInt8
  Body : List UInt8

/-! ## The structs of the library -/

structure DeviceCapn where
  id : String
  userID : String
  displayName : String
  deviceType : String
  isHuman : Bool
  identifier : String
  createTs : Int64
  lastActiveTs : Int64

structure InputMsgCapn where
  reply : Int64
  msgType : Int32
  device : Option DeviceCapn
  payload : List UInt8

structure OutputMsgCapn where
  reply : Int64
  msgType : Int32
  code : Int64
  headers : List UInt8
  body : List UInt8

/-- The library: what is marshalled is a struct with the fields that were set. -/
structure Capn (σ β : Type*) where
  marshal : σ → β
  unmarshal : β → Option σ
  unmarshal_marshal : ∀ s, unmarshal (marshal s) = some s

/-! ## Encoding and decoding -/

variable {β β' : Type*} (capn : Capn InputMsgCapn β)

def InputMsg.encode (m : InputMsg) : β :=
  capn.marshal
    { reply := m.Reply
      msgType := m.MsgType
      device := m.Device.map fun d =>
        { id := d.ID, userID := d.UserID, displayName := d.DisplayName, deviceType := d.DeviceType,
          isHuman := d.IsHuman, identifier := d.Identifier, createTs := d.CreateTs,
          lastActiveTs := d.LastActiveTs }
      payload := m.Payload }

/-- The message read into `m`; the device is a new one, and its identifier is not read. -/
def InputMsg.decode (m : InputMsg) (input : β) : Option InputMsg :=
  (capn.unmarshal input).map fun msg =>
    { Reply := msg.reply
      MsgType := msg.msgType
      Device := match msg.device with
        | none => m.Device
        | some d => some
          { ID := d.id, UserID := d.userID, DisplayName := d.displayName,
            DeviceType := d.deviceType, IsHuman := d.isHuman, Identifier := "",
            CreateTs := d.createTs, LastActiveTs := d.lastActiveTs }
      Payload := msg.payload }

def OutputMsg.encode (capn : Capn OutputMsgCapn β) (m : OutputMsg) : β :=
  capn.marshal
    { reply := m.Reply, msgType := m.MsgType, code := m.Code, headers := m.Headers, body := m.Body }

def OutputMsg.decode (capn : Capn OutputMsgCapn β) (input : β) : Option OutputMsg :=
  (capn.unmarshal input).map fun msg =>
    { Reply := msg.reply, MsgType := msg.msgType, Code := msg.code, Headers := msg.headers,
      Body := msg.body }

def newInputMsg : InputMsg := ⟨0, 0, none, []⟩

theorem InputMsg.decode_encode (m : InputMsg) : newInputMsg.decode capn (m.encode capn) =
      some { m with Device := m.Device.map ({ · with Identifier := "" }) } := by
  rw [decode, encode, capn.unmarshal_marshal]
  obtain ⟨reply, msgType, _ | d, payload⟩ := m
  · rfl
  · rfl

/-- **Every answer is read back, and a request if its device has no identifier.** -/
theorem decode_encode_iff (capnIn : Capn InputMsgCapn β) (capnOut : Capn OutputMsgCapn β')
    (m : InputMsg) (out : OutputMsg) :
    (newInputMsg.decode capnIn (m.encode capnIn) = some m ↔
        ∀ d, m.Device = some d → d.Identifier = "") ∧
      OutputMsg.decode capnOut (out.encode capnOut) = some out := by
  constructor
  · rw [InputMsg.decode_encode]
    obtain ⟨reply, msgType, _ | ⟨id, user, name, type, human, identifier, ts, active⟩, payload⟩ := m
    · simp
    · simp
  · rw [OutputMsg.decode, OutputMsg.encode, capnOut.unmarshal_marshal]
    rfl

def Capn.plain (σ : Type*) : Capn σ σ where
  marshal s := s
  unmarshal s := some s
  unmarshal_marshal _ := rfl

def phone : Device := ⟨"phone", "@a:x", "Alice", "actual", true, "mac", 1, 2⟩

theorem decode_loses_identifier :
    newInputMsg.decode (.plain _) (InputMsg.encode (.plain _) ⟨1, 2, some phone, [3]⟩) =
      some ⟨1, 2, some { phone with Identifier := "" }, [3]⟩ :=
  rfl

end Ligase.Common

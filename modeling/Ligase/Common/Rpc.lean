import Ligase.Lib.GoMap
import Mathlib.Data.List.Infix

/-!
# Requests with a tracing header

A request is sent as a frame: a magic number, the length of the header, the header in JSON and the
payload. The receiver takes anything that is not such a frame for a plain payload.

* **`parseNatsData_requestWithContext`**: a frame is read back.
-/

namespace Ligase.Common

open Lib List

abbrev HTTPHeadersCarrier := GoMap (List String)

/-- The JSON library on headers; it decodes what it has encoded. -/
structure HeaderCodec where
  marshal : HTTPHeadersCarrier → Option (List UInt8)
  unmarshal : List UInt8 → Option HTTPHeadersCarrier
  unmarshal_marshal : ∀ {header carrier}, marshal header = some carrier →
    unmarshal carrier = some header

def MagicNum : UInt32 := 0xF0F0F0F0
def MagicNumBytes : Nat := 4
def HeaderLengthBytes : Nat := 4
def MaxSpanBytesLength : Nat := 1024

def uint32ToBytes (i : UInt32) : List UInt8 :=
  [(i >>> 24).toUInt8, (i >>> 16).toUInt8, (i >>> 8).toUInt8, i.toUInt8]

def bytesToUint32 : List UInt8 → UInt32
  | [a, b, c, d] => d.toUInt32 ||| c.toUInt32 <<< 8 ||| b.toUInt32 <<< 16 ||| a.toUInt32 <<< 24
  | _ => 0

def requestWithContext (json : HeaderCodec) (header : HTTPHeadersCarrier) (bytes : List UInt8) :
    List UInt8 :=
  match json.marshal header with
  | none => bytes
  | some carrier =>
    if carrier.length > MaxSpanBytesLength then bytes
    else
      uint32ToBytes MagicNum ++ (uint32ToBytes (.ofNat carrier.length) ++ (carrier ++ bytes))

/-- A read of `n > 0` bytes that must all be there. -/
def readBytes (n : Nat) (buffer : List UInt8) : Option (List UInt8 × List UInt8) :=
  if buffer.length < n then none else some (buffer.take n, buffer.drop n)

/-- The length of the header of a frame and the header; `none` where data is returned as it is. -/
def parseHeader (json : HeaderCodec) (data : List UInt8) : Option (Nat × HTTPHeadersCarrier) := do
  let (magicNumBytes, buffer) ← readBytes MagicNumBytes data
  guard (bytesToUint32 magicNumBytes = MagicNum)
  let (headerLenBytes, buffer) ← readBytes HeaderLengthBytes buffer
  let headerLen := (bytesToUint32 headerLenBytes).toNat
  guard (¬ (headerLen ≤ 0 ∨ headerLen > MaxSpanBytesLength))
  let (headerBytes, _) ← readBytes headerLen buffer
  let header ← json.unmarshal headerBytes
  some (headerLen, header)

def parseNatsData (json : HeaderCodec) (data : List UInt8) : List UInt8 × HTTPHeadersCarrier :=
  match parseHeader json data with
  | none => (data, .nil)
  | some (headerLen, header) =>
    (data.drop (MagicNumBytes + HeaderLengthBytes + headerLen), header)

/-! ## Numbers in bytes -/

theorem bytesToUint32_uint32ToBytes (i : UInt32) : bytesToUint32 (uint32ToBytes i) = i := by
  apply UInt32.toBitVec_inj.mp
  simp only [uint32ToBytes, bytesToUint32, UInt32.toBitVec_or, UInt32.toBitVec_shiftLeft,
    UInt8.toBitVec_toUInt32, UInt32.toBitVec_toUInt8, UInt32.toBitVec_shiftRight]
  ext j hj
  simp
  grind

theorem uint32ToBytes_bytesToUint32 : ∀ {bytes : List UInt8}, bytes.length = 4 →
    uint32ToBytes (bytesToUint32 bytes) = bytes
  | [a, b, c, d], _ => by
    simp only [uint32ToBytes, bytesToUint32, cons.injEq, ← UInt8.toBitVec_inj, UInt32.toBitVec_or,
      UInt32.toBitVec_shiftLeft, UInt8.toBitVec_toUInt32, UInt32.toBitVec_toUInt8,
      UInt32.toBitVec_shiftRight, and_true]
    refine ⟨?_, ?_, ?_, ?_⟩
    all_goals
      ext j hj
      simp
    all_goals grind

/-! ## Frames -/

theorem readBytes_append {n : Nat} {front : List UInt8} (h : front.length = n)
    (rest : List UInt8) : readBytes n (front ++ rest) = some (front, rest) := by
  rw [readBytes, if_neg (by rw [length_append]; omega), take_left' h, drop_left' h]

variable {json : HeaderCodec} {header : HTTPHeadersCarrier} {carrier : List UInt8}

theorem parseHeader_of_not_magic {data : List UInt8} (h : ¬ uint32ToBytes MagicNum <+: data) :
    parseHeader json data = none := by
  delta parseHeader guard
  rw [readBytes]
  split_ifs with hshort
  · rfl
  · have hmagic : bytesToUint32 (data.take MagicNumBytes) ≠ MagicNum := by
      intro heq
      apply h
      have hlen := length_take_of_le (Nat.not_lt.mp hshort)
      rw [← heq, uint32ToBytes_bytesToUint32 hlen]
      exact take_prefix _ _
    simp only [Option.bind_eq_bind, Option.bind_some, if_neg hmagic]
    rfl

section
variable (hm : json.marshal header = some carrier) (hpos : 1 ≤ carrier.length)
  (hmax : carrier.length ≤ 1024) (payload : List UInt8)
include hm hpos hmax

theorem parseHeader_frame : parseHeader json (uint32ToBytes MagicNum ++
      (uint32ToBytes (.ofNat carrier.length) ++ (carrier ++ payload))) =
        some (carrier.length, header) := by
  have hlen : (UInt32.ofNat carrier.length).toNat = carrier.length :=
    UInt32.toNat_ofNat_of_lt' (hmax.trans_lt (by decide))
  have hbound : ¬ (carrier.length ≤ 0 ∨ carrier.length > MaxSpanBytesLength) := by
    unfold MaxSpanBytesLength
    omega
  have hnum : ∀ i, (uint32ToBytes i).length = 4 := fun _ => rfl
  delta parseHeader guard
  simp only [MagicNumBytes, HeaderLengthBytes, readBytes_append (hnum _), Option.bind_eq_bind,
    Option.bind_some, bytesToUint32_uint32ToBytes, hlen, if_true, if_pos hbound, Option.pure_def]
  rw [readBytes_append rfl, Option.bind_some, json.unmarshal_marshal hm, Option.bind_some]

/-- **A frame is read back**, whatever its payload is, **and data without the magic number is taken
as it is.** -/
theorem parseNatsData_requestWithContext {data : List UInt8}
    (hdata : ¬ uint32ToBytes MagicNum <+: data) :
    parseNatsData json (requestWithContext json header payload) = (payload, header) ∧
      parseNatsData json data = (data, .nil) := by
  constructor
  · have hsmall : ¬ carrier.length > MaxSpanBytesLength := Nat.not_lt.mpr hmax
    have hlen : (uint32ToBytes MagicNum ++ uint32ToBytes (.ofNat carrier.length) ++
        carrier).length = MagicNumBytes + HeaderLengthBytes + carrier.length := by
      simp only [length_append]
      rfl
    simp only [requestWithContext, hm, if_neg hsmall, parseNatsData,
      parseHeader_frame hm hpos hmax payload]
    rw [← append_assoc, ← append_assoc, drop_left' hlen]
  · rw [parseNatsData, parseHeader_of_not_magic hdata]

end

def oneHeader : HeaderCodec where
  marshal
    | .entries [("a", ["b"])] => some [123, 34, 97, 34, 58, 91, 34, 98, 34, 93, 125]
    | _ => none
  unmarshal bytes :=
    if bytes = [123, 34, 97, 34, 58, 91, 34, 98, 34, 93, 125] then some (.entries [("a", ["b"])])
    else none
  unmarshal_marshal {header carrier} h := by
    split at h
    · rw [← Option.some.inj h, if_pos rfl]
    · cases h

theorem parseNatsData_requestWithContext_nested :
    parseNatsData oneHeader (requestWithContext oneHeader (.entries [("a", ["b"])])
        [0xF0, 0xF0, 0xF0, 0xF0, 0, 0, 0, 1, 0]) =
        ([0xF0, 0xF0, 0xF0, 0xF0, 0, 0, 0, 1, 0], .entries [("a", ["b"])]) ∧
      parseNatsData oneHeader [0xF0, 0xF0, 0xF0] = ([0xF0, 0xF0, 0xF0], .nil) :=
  parseNatsData_requestWithContext rfl (by decide) (by decide) _ (by decide)

end Ligase.Common

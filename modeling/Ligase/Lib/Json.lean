import Mathlib.Tactic.Common

/-!
# JSON values and their decoding

Decoding as the Go decoders do it: an object is read field by field in its own order, names are
compared without case, a field that is repeated is overwritten, and the first field of a wrong type
ends the reading with an error, leaving what was read before.

* `Json.decode`: reading an object into a structure.
* `Json.asMap`, `Json.asList`: reading maps and lists.
* `Json.asAny`: reading without a type.
-/

namespace Ligase.Lib

/-- A JSON value. A number is given by its two readings, as a 64-bit integer and as a floating-point
number converted to one; `none` where the reading fails. -/
inductive Json where
  | null
  | bool (b : Bool)
  | num (int64 : Option Int) (float : Option Int)
  | string (s : String)
  | arr (elems : List Json)
  | obj (fields : List (String × Json))

def lower (s : String) : String := String.ofList (s.toList.map Char.toLower)

/-- Names in lower case as `encoding/json` compares them, for which the Kelvin sign is a `k` and the
long s an `s`. -/
def foldName (s : String) : String :=
  String.ofList (s.toList.map fun c =>
    if c = '\u212a' then 'k' else if c = '\u017f' then 's' else c)

/-- Read the fields in order with `set`, which takes a name and a value; the flag says that no field
was refused. -/
def decodeFields {α : Type*} (set : String → Json → α → Option α) :
    List (String × Json) → α → α × Bool
  | [], a => (a, true)
  | (name, v) :: fields, a =>
    match set (lower name) v a with
    | some a' => decodeFields set fields a'
    | none => (a, false)

namespace Json

variable {α β : Type*} (set : String → Json → α → Option α)

def decode (j : Json) (a : α) : α × Bool :=
  match j with
  | .obj fields => decodeFields set fields a
  | .null => (a, true)
  | _ => (a, false)

def decode? (j : Json) (a : α) : Option α :=
  match j.decode set a with
  | (a', true) => some a'
  | (_, false) => none

/-- `encoding/json` goes on after a field of a wrong type. -/
def decodeAll (j : Json) (a : α) : α :=
  match j with
  | .obj fields => fields.foldl (fun a (name, v) => (set (foldName (lower name)) v a).getD a) a
  | _ => a

def asString : Json → Option String
  | .string s => some s
  | .null => some ""
  | _ => none

def asStringOr (old : String) : Json → Option String
  | .null => some old
  | j => j.asString

def asBool (old : Bool) : Json → Option Bool
  | .bool b => some b
  | .null => some old
  | _ => none

def asInt : Json → Option Int
  | .num z _ => z
  | _ => none

def asIntOr (old : Int) : Json → Option Int
  | .null => some old
  | j => j.asInt

def asPtr (read : Json → Option α) : Json → Option (Option α)
  | .null => some none
  | j => (read j).map some

def setKey (key : String) (b : β) (map : List (String × β)) : List (String × β) :=
  (key, b) :: map.filter fun p => p.1 ≠ key

/-- Read an object into a map that may have entries already. -/
def asMap (read : Json → Option β) (j : Json) (map : List (String × β)) :
    Option (List (String × β)) :=
  match j with
  | .obj fields => fields.foldlM (fun map (name, v) => (read v).map fun b => setKey name b map) map
  | .null => some []
  | _ => none

def asList (read : Json → Option β) : Json → Option (List β)
  | .arr elems => elems.mapM read
  | .null => some []
  | _ => none

/-! ## Reading without a type -/

/-- Set a field of an object that has its names in order; a field that is there stays. -/
def insertField (name : String) (v : Json) : List (String × Json) → List (String × Json)
  | [] => [(name, v)]
  | (n, w) :: fields =>
    if name = n then (n, w) :: fields
    else if name < n then (name, v) :: (n, w) :: fields
    else (n, w) :: insertField name v fields

mutual

/-- A value read without a type and written again: the names of an object are in order and the last
of the fields with one name is kept. A number that is no floating-point number is refused. -/
def asAny : Json → Option Json
  | .null => some .null
  | .bool b => some (.bool b)
  | .num int64 float => if float.isSome then some (.num int64 float) else none
  | .string s => some (.string s)
  | .arr elems => (anyElems elems).map .arr
  | .obj fields => (anyFields fields).map .obj

def anyElems : List Json → Option (List Json)
  | [] => some []
  | j :: elems => (asAny j).bind fun v => (anyElems elems).map (v :: ·)

def anyFields : List (String × Json) → Option (List (String × Json))
  | [] => some []
  | (name, j) :: fields =>
    (asAny j).bind fun v => (anyFields fields).map (insertField name v)

end

end Json

end Ligase.Lib

import LiveMedia.Json.Value
import LiveMedia.Record

/-! # Typed reading of JSON trees

A record is an object whose known keys occur at most once, or an array with the fields in their
order. Keys that are not known are skipped with their values. -/

namespace LiveMedia.Json
set_option autoImplicit false

namespace Node

def string? : Node → Option String
  | .text raw => Text.decode? raw
  | _ => none

def int? (low high : Int) : Node → Option Int
  | .number n => n.int?.filter fun i => low ≤ i ∧ i ≤ high
  | _ => none

def int64? (v : Node) : Option Int64 := (v.int? (-2 ^ 63) (2 ^ 63 - 1)).map Int64.ofInt

def nat? (bits : Nat) (v : Node) : Option Nat := (v.int? 0 (2 ^ bits - 1)).map Int.toNat

/-- A double; integers are taken as doubles. -/
def float? : Node → Option Float
  | .number n =>
    match n.int? with
    | some i => some (if 0 ≤ i then i.toNat.toUInt64.toFloat else (Int64.ofInt i).toFloat)
    | none => n.float?
  | _ => none

def isNull : Node → Bool
  | .null => true
  | _ => false

/-- Null stands for nothing. -/
def nullable? {α : Type} (read : Node → Option α) (v : Node) : Option (Option α) :=
  if v.isNull then some none else (read v).map some

/-- Whether a node may stand beside the name of a choice that carries nothing. A buffered reader
also takes an empty object. -/
def isUnit (buffered : Bool) : Node → Bool
  | .null => true
  | .object [] => buffered
  | _ => false

/-- One of several names: the name as a string, or as the only key of an object. -/
def choice? {α : Type} (buffered : Bool) (all : List α) (name : α → String) (v : Node) : Option α :=
  let named := fun s => all.find? fun a => name a == s
  match v with
  | .text raw => (Text.decode? raw).bind named
  | .object [(key, v)] => if v.isUnit buffered then (Text.decode? key).bind named else none
  | _ => none

/-- Takes one member of an object; a known key must not occur again. -/
def takeMember (names : List String) (values : List (Option Node)) (member : List UInt8 × Node) :
    Option (List (Option Node)) := do
  let key ← Text.decode? member.1
  match names.idxOf? key with
  | none => return values
  | some i =>
    match values[i]? with
    | some none => return values.set i (some member.2)
    | _ => none

def fields? (names : List String) : Node → Option (Fields Node)
  | .object members =>
    (members.foldlM (takeMember names) (List.replicate names.length none)).map fun values =>
      ⟨false, values⟩
  | .array items =>
    if items.length ≤ names.length then
      some ⟨true, items.map some ++ List.replicate (names.length - items.length) none⟩
    else none
  | _ => none

def format : Format Node := ⟨fields?, string?, nat?, float?, isNull⟩

/-- Splits a record that names its own kind: the member with key `tag`, or the first array item. -/
def tagged? (tag : String) : Node → Option (String × Node)
  | .array (first :: rest) => first.string?.map (·, .array rest)
  | .object members =>
    let isTag := fun (m : List UInt8 × Node) => Text.decode? m.1 == some tag
    match members.filter isTag with
    | [m] => m.2.string?.map (·, .object (members.filter fun m => !isTag m))
    | _ => none
  | _ => none

end Node

end LiveMedia.Json

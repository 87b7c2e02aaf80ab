import LiveMedia.Builtin
import LiveMedia.Record

/-! # TOML values -/

namespace LiveMedia.Toml
set_option autoImplicit false

inductive Value where
  | text (s : String)
  | integer (i : Int)
  | float (x : Float)
  | boolean (b : Bool)
  /-- A date or a time. -/
  | moment
  | array (items : List Value)
  | table (members : List (String × Value))
deriving Inhabited

namespace Value

def string? : Value → Option String
  | text s => some s
  | _ => none

def nat? (bits : Nat) : Value → Option Nat
  | integer i => if 0 ≤ i ∧ i < 2 ^ bits then some i.toNat else none
  | _ => none

/-- A double; integers are taken as doubles. -/
def float? : Value → Option Float
  | float x => some x
  | integer i => some (Int64.ofInt i).toFloat
  | _ => none

/-- A record is a table, or an array with the fields in their order; what a table or an array has
beyond the known fields is skipped. -/
def fields? (names : List String) : Value → Option (Fields Value)
  | table members =>
    some ⟨false, names.map fun name => (members.find? fun m => m.1 == name).map Prod.snd⟩
  | array items =>
    some ⟨true, (items.take names.length).map some ++
      List.replicate (names.length - items.length) none⟩
  | _ => none

def format : Format Value := ⟨fields?, string?, nat?, float?, fun _ => false⟩

end Value

end LiveMedia.Toml

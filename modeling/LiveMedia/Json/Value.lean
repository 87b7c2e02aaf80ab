import LiveMedia.Json.Text

/-! # JSON values

The tree of a text with its strings and numbers read, and the text of such a tree, written without
white space. -/

namespace LiveMedia.Json
set_option autoImplicit false

inductive Value where
  | null
  | boolean (b : Bool)
  | int (n : Int)
  | float (x : Float)
  | text (s : String)
  | array (items : List Value)
  | object (members : List (String × Value))
deriving Inhabited

namespace Value

def ofOption {α : Type} (f : α → Value) : Option α → Value
  | none => null
  | some a => f a

def nat (n : Nat) : Value := int n

def intText (n : Int) : String :=
  if n < 0 then "-" ++ toString n.natAbs else toString n.natAbs

/-- A double that is not finite is written as null. -/
def floatText (x : Float) : String :=
  match floatText? x with
  | some chars => String.ofList chars
  | none => "null"

def commaSeparated : List String → String
  | [] => ""
  | first :: rest => rest.foldl (fun joined item => joined ++ "," ++ item) first

mutual

def render : Value → String
  | null => "null"
  | boolean b => if b then "true" else "false"
  | int n => intText n
  | float x => floatText x
  | text s => Text.encode s
  | array items => "[" ++ commaSeparated (renderItems items) ++ "]"
  | object members => "\x7b" ++ commaSeparated (renderMembers members) ++ "\x7d"

def renderItems : List Value → List String
  | [] => []
  | v :: rest => v.render :: renderItems rest

def renderMembers : List (String × Value) → List String
  | [] => []
  | (key, v) :: rest => (Text.encode key ++ ":" ++ v.render) :: renderMembers rest

end

/-- The value of a member; of several with one key, the last. -/
def get? (v : Value) (key : String) : Option Value :=
  match v with
  | object members => (members.reverse.find? fun m => m.1 == key).map Prod.snd
  | _ => none

end Value

namespace Number

def toValue? (n : Number) : Option Value :=
  match n.int? with
  | some i => some (.int i)
  | none => n.float?.map .float

end Number

namespace Node

/-- How deep containers may stand inside each other where a whole tree is read. -/
def maxDepth : Nat := 127

/-- Reads all strings and numbers of a tree. Nothing if one of them is invalid or if containers
stand deeper than `depth`. -/
def toValue? : (depth : Nat) → Node → Option Value
  | _, .null => some .null
  | _, .boolean b => some (.boolean b)
  | _, .number n => n.toValue?
  | _, .text raw => (Text.decode? raw).map .text
  | 0, .array _ => none
  | 0, .object _ => none
  | depth + 1, .array items => (items.mapM (toValue? depth)).map .array
  | depth + 1, .object members =>
    (members.mapM fun (key, v) =>
      (Text.decode? key).bind fun key => (toValue? depth v).map (key, ·)).map .object

end Node

def Value.parse? (text : List UInt8) : Option Value :=
  (Node.parse? text).bind (Node.toValue? Node.maxDepth)

end LiveMedia.Json

import LiveMedia.Json.Number

/-! # The structure of JSON text

Text is cut into tokens one byte at a time, and tokens are folded into a tree one at a time with an
explicit stack of open containers, so that nesting has no bound. Strings stay as written: their
escapes have the right form, but their characters are looked at only where the string is used. -/

namespace LiveMedia.Json
set_option autoImplicit false

inductive Token where
  | beginObject
  | endObject
  | beginArray
  | endArray
  | colon
  | comma
  | null
  | boolean (b : Bool)
  | number (n : Number)
  | text (raw : List UInt8)
deriving DecidableEq, Repr

namespace Token

def isSpace (b : UInt8) : Bool := b = 32 ∨ b = 9 ∨ b = 10 ∨ b = 13

def punctuation? (b : UInt8) : Option Token :=
  if b = 123 then some beginObject
  else if b = 125 then some endObject
  else if b = 91 then some beginArray
  else if b = 93 then some endArray
  else if b = 58 then some colon
  else if b = 44 then some comma
  else none

def ofWord? (word : List UInt8) : Option Token :=
  if word = [110, 117, 108, 108] then some null
  else if word = [116, 114, 117, 101] then some (boolean true)
  else if word = [102, 97, 108, 115, 101] then some (boolean false)
  else (Number.ofText? word).map number

def isHexDigit (b : UInt8) : Bool :=
  (48 ≤ b ∧ b ≤ 57) ∨ (65 ≤ b ∧ b ≤ 70) ∨ (97 ≤ b ∧ b ≤ 102)

/-- The letters that may follow a backslash alone. -/
def isEscapeLetter (b : UInt8) : Bool :=
  b = 34 ∨ b = 92 ∨ b = 47 ∨ b = 98 ∨ b = 102 ∨ b = 110 ∨ b = 114 ∨ b = 116

end Token

/-- Where the scanner stands; what it holds of the current token is in reverse. -/
inductive ScanMode where
  | between
  | word (held : List UInt8)
  | text (held : List UInt8)
  | escape (held : List UInt8)
  | hex (missing : Nat) (held : List UInt8)

/-- The tokens found so far are in reverse. -/
structure Scanner where
  found : List Token
  mode : ScanMode

namespace Scanner

def start : Scanner := ⟨[], .between⟩

/-- A byte that begins a token or separates two. -/
def fresh (found : List Token) (b : UInt8) : Scanner :=
  if Token.isSpace b then ⟨found, .between⟩
  else if b = 34 then ⟨found, .text []⟩
  else match Token.punctuation? b with
    | some t => ⟨t :: found, .between⟩
    | none => ⟨found, .word [b]⟩

def endsWord (b : UInt8) : Bool :=
  Token.isSpace b || b = 34 || (Token.punctuation? b).isSome

def step (s : Scanner) (b : UInt8) : Option Scanner :=
  match s.mode with
  | .between => some (fresh s.found b)
  | .word held =>
    if endsWord b then (Token.ofWord? held.reverse).map fun t => fresh (t :: s.found) b
    else some ⟨s.found, .word (b :: held)⟩
  | .text held =>
    if b = 34 then some ⟨.text held.reverse :: s.found, .between⟩
    else if b = 92 then some ⟨s.found, .escape (b :: held)⟩
    else if b < 32 then none
    else some ⟨s.found, .text (b :: held)⟩
  | .escape held =>
    if b = 117 then some ⟨s.found, .hex 4 (b :: held)⟩
    else if Token.isEscapeLetter b then some ⟨s.found, .text (b :: held)⟩
    else none
  | .hex missing held =>
    if Token.isHexDigit b then
      if missing ≤ 1 then some ⟨s.found, .text (b :: held)⟩
      else some ⟨s.found, .hex (missing - 1) (b :: held)⟩
    else none

def finish? (s : Scanner) : Option (List Token) :=
  match s.mode with
  | .between => some s.found.reverse
  | .word held => (Token.ofWord? held.reverse).map fun t => (t :: s.found).reverse
  | _ => none

end Scanner

def tokens? (text : List UInt8) : Option (List Token) :=
  (text.foldlM Scanner.step Scanner.start).bind Scanner.finish?

inductive Node where
  | null
  | boolean (b : Bool)
  | number (n : Number)
  | text (raw : List UInt8)
  | array (items : List Node)
  | object (members : List (List UInt8 × Node))
deriving Inhabited

/-- An open container with its contents in reverse. -/
inductive Frame where
  | array (items : List Node)
  | object (members : List (List UInt8 × Node))
  | member (members : List (List UInt8 × Node)) (key : List UInt8)

inductive Expect where
  | value
  | valueOrEnd
  | key
  | keyOrEnd
  | colon
  | separator
  | nothing (root : Node)

structure Builder where
  stack : List Frame
  expect : Expect

namespace Builder

def start : Builder := ⟨[], .value⟩

def put (stack : List Frame) (v : Node) : Option Builder :=
  match stack with
  | [] => some ⟨[], .nothing v⟩
  | .array items :: rest => some ⟨.array (v :: items) :: rest, .separator⟩
  | .member members key :: rest => some ⟨.object ((key, v) :: members) :: rest, .separator⟩
  | .object _ :: _ => none

/-- Closes the innermost open container if it is of the kind the token closes. -/
def close (stack : List Frame) (t : Token) : Option Builder :=
  match t, stack with
  | .endArray, .array items :: rest => put rest (.array items.reverse)
  | .endObject, .object members :: rest => put rest (.object members.reverse)
  | _, _ => none

def value (stack : List Frame) (t : Token) : Option Builder :=
  match t with
  | .null => put stack .null
  | .boolean b => put stack (.boolean b)
  | .number n => put stack (.number n)
  | .text raw => put stack (.text raw)
  | .beginArray => some ⟨.array [] :: stack, .valueOrEnd⟩
  | .beginObject => some ⟨.object [] :: stack, .keyOrEnd⟩
  | _ => none

def step (s : Builder) (t : Token) : Option Builder :=
  match s.expect with
  | .value => value s.stack t
  | .valueOrEnd => if t = .endArray then close s.stack t else value s.stack t
  | .key | .keyOrEnd =>
    match t, s.stack, s.expect with
    | .text raw, .object members :: rest, _ => some ⟨.member members raw :: rest, .colon⟩
    | .endObject, stack, .keyOrEnd => close stack .endObject
    | _, _, _ => none
  | .colon => if t = .colon then some ⟨s.stack, .value⟩ else none
  | .separator =>
    match t, s.stack with
    | .comma, .array items :: rest => some ⟨.array items :: rest, .value⟩
    | .comma, .object members :: rest => some ⟨.object members :: rest, .key⟩
    | t, stack => close stack t
  | .nothing _ => none

def finish? (s : Builder) : Option Node :=
  match s.expect with
  | .nothing root => some root
  | _ => none

end Builder

namespace Node

def ofTokens? (ts : List Token) : Option Node :=
  (ts.foldlM Builder.step Builder.start).bind Builder.finish?

/-- Reads one JSON value that fills the text, white space aside. -/
def parse? (text : List UInt8) : Option Node := (tokens? text).bind ofTokens?

end Node

end LiveMedia.Json

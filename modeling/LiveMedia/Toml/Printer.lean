import LiveMedia.Decimal.Layout

/-! # Text of TOML values

A string is written in the first form that needs no escapes: on one line in double quotes, on one
line in single quotes, over several lines in double quotes, over several lines in single quotes.
Where none of them does it is escaped. A float has a fraction and no exponent. -/

namespace LiveMedia.Toml
set_option autoImplicit false

namespace Printer

structure Traits where
  breaksLine : Bool
  hasBackslash : Bool
  /-- Has control characters other than tab and line feed. -/
  hasControl : Bool
  singleQuotes : Nat
  doubleQuotes : Nat

def longestRun (c : Char) : (current best : Nat) → List Char → Nat
  | current, best, [] => max current best
  | current, best, d :: rest =>
    if d = c then longestRun c (current + 1) (max (current + 1) best) rest
    else longestRun c 0 best rest

def isControl (c : Char) : Bool :=
  (c.toNat < 32 && c != '\t' && c != '\n') || c.toNat == 127

def traits (s : List Char) : Traits where
  breaksLine := s.contains '\n'
  hasBackslash := s.contains '\\'
  hasControl := s.any isControl
  singleQuotes := longestRun '\'' 0 0 s
  doubleQuotes := longestRun '"' 0 0 s

inductive Style where
  | basic
  | literal
  | longBasic
  | longLiteral
deriving DecidableEq, Repr

def style (t : Traits) : Style :=
  if !t.hasControl && !t.hasBackslash && t.doubleQuotes = 0 && !t.breaksLine then .basic
  else if !t.hasControl && t.singleQuotes = 0 && !t.breaksLine then .literal
  else if !t.hasControl && !t.hasBackslash && t.doubleQuotes ≤ 2 then .longBasic
  else if !t.hasControl && t.singleQuotes ≤ 2 then .longLiteral
  else if t.breaksLine then .longBasic
  else .basic

def hexDigit (n : Nat) : Char := if n < 10 then Char.ofNat (48 + n) else Char.ofNat (55 + n)

def escapeChar (long : Bool) (c : Char) : List Char :=
  if c = '\\' then ['\\', '\\']
  else if c.toNat = 8 then ['\\', 'b']
  else if c = '\t' then ['\\', 't']
  else if c = '\n' then if long then [c] else ['\\', 'n']
  else if c.toNat = 12 then ['\\', 'f']
  else if c = '\r' then ['\\', 'r']
  else if isControl c then
    ['\\', 'u', '0', '0', hexDigit (c.toNat / 16), hexDigit (c.toNat % 16)]
  else [c]

/-- Escapes a string. Quotes are kept as long as fewer than three of them stand together on several
lines, and none of them on one line. `run` counts the quotes kept since the last other character or
escape. -/
def escape (long : Bool) : (run : Nat) → List Char → List Char
  | _, [] => []
  | run, c :: rest =>
    if c = '"' then
      if long ∧ run < 2 then c :: escape long (run + 1) rest
      else '\\' :: '"' :: escape long 0 rest
    else escapeChar long c ++ escape long 0 rest

def string (s : String) : String :=
  let chars := s.toList
  let t := traits chars
  let first := if t.breaksLine then ['\n'] else []
  String.ofList <| match style t with
    | .basic => '"' :: escape false 0 chars ++ ['"']
    | .literal => '\'' :: chars ++ ['\'']
    | .longBasic => ['"', '"', '"'] ++ first ++ escape true 0 chars ++ ['"', '"', '"']
    | .longLiteral => ['\'', '\'', '\''] ++ first ++ chars ++ ['\'', '\'', '\'']

def float (x : Float) : String :=
  let sign := Decimal.isNegative x
  String.ofList <| Decimal.signed sign <| match Decimal.shape x with
    | .nan => ['n', 'a', 'n']
    | .infinite => ['i', 'n', 'f']
    | .finite a => Decimal.withFraction (a.shortest .up)

/-- An integer; what does not fit into 63 bits cannot be written. -/
def nat? (n : Nat) : Option String := if n < 2 ^ 63 then some (toString n) else none

end Printer

end LiveMedia.Toml

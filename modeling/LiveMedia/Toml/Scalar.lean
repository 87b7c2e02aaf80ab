import LiveMedia.Decimal.Reader
import LiveMedia.Toml.Value

/-! # Strings, numbers and dates in TOML text -/

namespace LiveMedia.Toml
set_option autoImplicit false

def isBlank (c : Char) : Bool := c == ' ' || c == '\t'

def skipBlanks (text : List Char) : List Char := text.dropWhile isBlank

/-- Control characters other than the tab have no place in comments and strings. -/
def isPlain (c : Char) : Bool := c == '\t' || (' ' ≤ c && c.toNat != 127)

def newline? : List Char → Option (List Char)
  | '\n' :: rest => some rest
  | '\r' :: '\n' :: rest => some rest
  | _ => none

abbrev Taken := Option (List Char × List Char)

namespace Taken

def push (c : Char) (t : Taken) : Taken := t.map fun (s, rest) => (c :: s, rest)

end Taken

section Strings

def hexValue? (c : Char) : Option Nat :=
  if '0' ≤ c ∧ c ≤ '9' then some (c.toNat - 48)
  else if 'a' ≤ c ∧ c ≤ 'f' then some (c.toNat - 87)
  else if 'A' ≤ c ∧ c ≤ 'F' then some (c.toNat - 55)
  else none

/-- The character with a code in hexadecimal digits; surrogates are not characters. -/
def scalar? (digits : List Char) : Option Char := do
  let code ← digits.foldlM (fun n c => (hexValue? c).map (n * 16 + ·)) 0
  if code < 0xD800 ∨ (0xE000 ≤ code ∧ code < 0x110000) then some (Char.ofNat code) else none

def escape? (c : Char) : Option Char :=
  match c with
  | 'b' => some (Char.ofNat 8)
  | 't' => some '\t'
  | 'n' => some '\n'
  | 'f' => some (Char.ofNat 12)
  | 'r' => some '\r'
  | '"' => some '"'
  | '\\' => some '\\'
  | _ => none

/-- The rest of a string on one line, behind its opening quote. -/
def basicString : List Char → Taken
  | '"' :: rest => some ([], rest)
  | '\\' :: 'u' :: a :: b :: c :: d :: rest =>
    (scalar? [a, b, c, d]).bind fun x => (basicString rest).push x
  | '\\' :: 'U' :: a :: b :: c :: d :: e :: f :: g :: h :: rest =>
    (scalar? [a, b, c, d, e, f, g, h]).bind fun x => (basicString rest).push x
  | '\\' :: c :: rest => (escape? c).bind fun x => (basicString rest).push x
  | c :: rest => if isPlain c then (basicString rest).push c else none
  | [] => none

def literalString : List Char → Taken
  | '\'' :: rest => some ([], rest)
  | c :: rest => if isPlain c then (literalString rest).push c else none
  | [] => none

/-- Up to two more quotes in front of the closing three belong to the string. -/
def closing (quote : Char) : List Char → List Char × List Char
  | a :: b :: rest =>
    if a == quote && b == quote then ([quote, quote], rest)
    else if a == quote then ([quote], b :: rest)
    else ([], a :: b :: rest)
  | a :: rest => if a == quote then ([quote], rest) else ([], a :: rest)
  | [] => ([], [])

def endsLine (text : List Char) : Bool := (newline? (skipBlanks text)).isSome

/-- The rest of a string over several lines. After a backslash at the end of a line all white space
is left out; `trimming` says that it is. -/
def longString (trimming : Bool) : List Char → Taken
  | '"' :: '"' :: '"' :: rest => some (closing '"' rest)
  | '\\' :: 'u' :: a :: b :: c :: d :: rest =>
    (scalar? [a, b, c, d]).bind fun x => (longString false rest).push x
  | '\\' :: 'U' :: a :: b :: c :: d :: e :: f :: g :: h :: rest =>
    (scalar? [a, b, c, d, e, f, g, h]).bind fun x => (longString false rest).push x
  | '\\' :: c :: rest =>
    if endsLine (c :: rest) then longString true (c :: rest)
    else (escape? c).bind fun x => (longString false rest).push x
  | '\r' :: '\n' :: rest =>
    if trimming then longString true rest else (longString false rest).push '\n'
  | c :: rest =>
    if trimming && (isBlank c || c == '\n') then longString true rest
    else if c == '\n' || isPlain c then (longString false rest).push c
    else none
  | [] => none

def longLiteral : List Char → Taken
  | '\'' :: '\'' :: '\'' :: rest => some (closing '\'' rest)
  | '\r' :: '\n' :: rest => (longLiteral rest).push '\n'
  | c :: rest => if c == '\n' || isPlain c then (longLiteral rest).push c else none
  | [] => none

/-- A line break right behind three opening quotes is left out. -/
def skipFirstBreak (text : List Char) : List Char := (newline? text).getD text

end Strings

section Numbers

/-- Digits with single underscores between them, without the underscores. -/
def separated? (isDigit : Char → Bool) : List Char → Option (List Char)
  | [] => none
  | [c] => if isDigit c then some [c] else none
  | c :: '_' :: rest => if isDigit c then (separated? isDigit rest).map (c :: ·) else none
  | c :: rest => if isDigit c then (separated? isDigit rest).map (c :: ·) else none

def decimalDigits? : List Char → Option (List Char) := separated? Char.isDigit

def splitSign : List Char → List Char × List Char
  | '+' :: rest => ([], rest)
  | '-' :: rest => (['-'], rest)
  | rest => ([], rest)

/-- Digits without a zero in front of others. -/
def wholeDigits? (text : List Char) : Option (List Char) :=
  (decimalDigits? text).filter fun ds => ds.length = 1 || ds.head? != some '0'

def radixNat? (radix : Nat) (text : List Char) : Option Nat := do
  let below := fun c => match hexValue? c with
    | some d => d < radix
    | none => false
  let ds ← separated? below text
  return ds.foldl (fun n c => n * radix + (hexValue? c).getD 0) 0

def integer? (word : List Char) : Option Int :=
  let value := match word with
    | '0' :: 'x' :: rest => (radixNat? 16 rest).map Int.ofNat
    | '0' :: 'o' :: rest => (radixNat? 8 rest).map Int.ofNat
    | '0' :: 'b' :: rest => (radixNat? 2 rest).map Int.ofNat
    | _ =>
      let (sign, body) := splitSign word
      (wholeDigits? body).map fun (ds : List Char) =>
        let n : Nat := ds.foldl (fun n (c : Char) => n * 10 + (c.toNat - 48)) 0
        if sign = [] then (n : Int) else -(n : Int)
  value.filter fun i => -2 ^ 63 ≤ i ∧ i < 2 ^ 63

/-- The exponent of a float, mark and sign included. -/
def exponent? : List Char → Option (List Char)
  | [] => some []
  | c :: rest =>
    if c = 'e' ∨ c = 'E' then
      let (sign, body) := splitSign rest
      (decimalDigits? body).map fun ds => 'e' :: sign ++ ds
    else none

def isExponentMark (c : Char) : Bool := c == 'e' || c == 'E'

/-- A float has a fraction or an exponent. One too large for a double is refused if it is
positive. -/
def float? (word : List Char) : Option Float :=
  let (sign, body) := splitSign word
  let negate := fun (x : Float) => if sign = [] then x else -x
  if body = ['i', 'n', 'f'] then some (negate (1.0 / 0.0))
  else if body = ['n', 'a', 'n'] then
    some (if sign = [] then Float.ofBits 0x7ff8000000000000 else Float.ofBits 0xfff8000000000000)
  else do
    let mantissa := body.takeWhile fun c => !isExponentMark c
    let exponent ← exponent? (body.dropWhile fun c => !isExponentMark c)
    let whole ← wholeDigits? (mantissa.takeWhile (· != '.'))
    let fraction ← match mantissa.dropWhile (· != '.') with
      | [] => if exponent = [] then none else some []
      | _ :: ds => (decimalDigits? ds).map ('.' :: ·)
    let x ← Decimal.float? (sign ++ whole ++ fraction ++ exponent)
    if x == 1.0 / 0.0 then none else some x

end Numbers

section Dates

def digits? (n : Nat) (text : List Char) : Option (Nat × List Char) :=
  let ds := text.take n
  if ds.length = n ∧ ds.all Char.isDigit then
    some (ds.foldl (fun v c => v * 10 + (c.toNat - 48)) 0, text.drop n)
  else none

def after? (c : Char) : List Char → Option (List Char)
  | d :: rest => if c = d then some rest else none
  | [] => none

def isLeap (year : Nat) : Bool := (year % 4 == 0 && year % 100 != 0) || year % 400 == 0

def monthLength (year month : Nat) : Nat :=
  if month = 2 then if isLeap year then 29 else 28
  else if month = 4 ∨ month = 6 ∨ month = 9 ∨ month = 11 then 30
  else 31

def date? (text : List Char) : Option (List Char) := do
  let (year, rest) ← digits? 4 text
  let (month, rest) ← digits? 2 (← after? '-' rest)
  let (day, rest) ← digits? 2 (← after? '-' rest)
  guard (1 ≤ month ∧ month ≤ 12 ∧ 1 ≤ day ∧ day ≤ monthLength year month)
  return rest

def time? (text : List Char) : Option (List Char) := do
  let (hour, rest) ← digits? 2 text
  let (minute, rest) ← digits? 2 (← after? ':' rest)
  let (second, rest) ← digits? 2 (← after? ':' rest)
  guard (hour ≤ 23 ∧ minute ≤ 59 ∧ second ≤ 60)
  match rest with
  | '.' :: part =>
    let tail := part.dropWhile Char.isDigit
    guard (tail.length < part.length)
    return tail
  | _ => return rest

/-- Nothing, or the distance from universal time. -/
def isOffset : List Char → Bool
  | [] => true
  | ['Z'] => true
  | ['z'] => true
  | c :: rest =>
    (c == '+' || c == '-') && ((do
      let (hour, rest) ← digits? 2 rest
      let (minute, rest) ← digits? 2 (← after? ':' rest)
      guard (hour ≤ 23 ∧ minute ≤ 59 ∧ rest = [])) : Option Unit).isSome

def isTimeWithOffset (word : List Char) : Bool :=
  match time? word with
  | some rest => isOffset rest
  | none => false

def isDate (word : List Char) : Bool := date? word == some []

def isMoment (word : List Char) : Bool :=
  time? word == some [] ||
    match date? word with
    | some [] => true
    | some (c :: rest) => (c == 'T' || c == 't') && isTimeWithOffset rest
    | none => false

end Dates

def isWordChar (c : Char) : Bool :=
  c.isAlphanum || c == '_' || c == '+' || c == '-' || c == '.' || c == ':'

def word? (word : List Char) : Option Value :=
  if word = "true".toList then some (.boolean true)
  else if word = "false".toList then some (.boolean false)
  else if isMoment word then some .moment
  else
    match integer? word with
    | some i => some (.integer i)
    | none => (float? word).map .float

/-- Takes such a value off a text. A time may stand a space apart from its date. -/
def takeWord? (text : List Char) : Option (Value × List Char) :=
  let word := text.takeWhile isWordChar
  let rest := text.dropWhile isWordChar
  let plain := (word? word).map (·, rest)
  match rest with
  | ' ' :: more =>
    let second := more.takeWhile isWordChar
    if isDate word && isTimeWithOffset second then some (.moment, more.dropWhile isWordChar)
    else plain
  | _ => plain

end LiveMedia.Toml

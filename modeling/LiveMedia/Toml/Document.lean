import LiveMedia.Toml.Scalar

/-! # TOML documents

Tables are opened by headers, which may not open one table twice, and extended by dotted keys,
which may not reach into a table that a header or braces have opened. -/

namespace LiveMedia.Toml
set_option autoImplicit false

inductive TableOrigin where
  | header
  /-- Only named on the way to another by a header. -/
  | onTheWay
  | dotted
deriving DecidableEq, Repr

inductive Item where
  | value (v : Value)
  | table (origin : TableOrigin) (entries : List (String × Item))
  /-- Tables under one name; headers work on the last. -/
  | tables (elements : List (List (String × Item)))
deriving Inhabited

abbrev Entries := List (String × Item)

namespace Entries

def alter (key : String) (f : Option Item → Option Item) : Entries → Option Entries
  | [] => (f none).map fun item => [(key, item)]
  | (k, item) :: rest =>
    if k = key then (f (some item)).map fun item => (k, item) :: rest
    else (alter key f rest).map ((k, item) :: ·)

/-- Goes down a path, opening tables on the way, and acts on the table at its end. -/
def descend (byDots : Bool) (act : TableOrigin → Entries → Option Entries) :
    (path : List String) → TableOrigin → Entries → Option Entries
  | [], origin, entries => act origin entries
  | key :: path, _, entries =>
    entries.alter key fun
      | none =>
        let origin := if byDots then .dotted else .onTheWay
        (descend byDots act path origin []).map (.table origin)
      | some (.value _) => none
      | some (.table origin inner) =>
        if byDots ∧ origin = .header then none
        else (descend byDots act path origin inner).map (.table origin)
      | some (.tables elements) =>
        (descend byDots act path .header (elements.getLast?.getD [])).map fun last =>
          .tables (elements.dropLast ++ [last])

def insertNew (key : String) (v : Value) (entries : Entries) : Option Entries :=
  entries.alter key fun
    | none => some (.value v)
    | some _ => none

/-- Adds a value under a dotted key. A table that dots reach must have come from dots. -/
def insertDotted (path : List String) (key : String) (v : Value) (entries : Entries) :
    Option Entries :=
  descend true (fun origin inner =>
    if path ≠ [] ∧ origin ≠ .dotted then none else inner.insertNew key v) path .header entries

def openTable (path : List String) (key : String) (entries : Entries) : Option Entries :=
  descend false (fun _ inner =>
    inner.alter key fun
      | none => some (.table .header [])
      | some (.table .onTheWay below) => some (.table .header below)
      | _ => none) path .header entries

def openElement (path : List String) (key : String) (entries : Entries) : Option Entries :=
  descend false (fun _ inner =>
    inner.alter key fun
      | none => some (.tables [[]])
      | some (.tables elements) => some (.tables (elements ++ [[]]))
      | _ => none) path .header entries

def insertUnder (header path : List String) (key : String) (v : Value) (entries : Entries) :
    Option Entries :=
  descend false (fun _ inner => inner.insertDotted path key v) header .header entries

end Entries

mutual

def Item.toValue : Item → Value
  | .value v => v
  | .table _ entries => .table (entriesToValues entries)
  | .tables elements => .array (elementsToValues elements)

def entriesToValues : List (String × Item) → List (String × Value)
  | [] => []
  | (key, item) :: rest => (key, item.toValue) :: entriesToValues rest

def elementsToValues : List (List (String × Item)) → List Value
  | [] => []
  | entries :: rest => .table (entriesToValues entries) :: elementsToValues rest

end

section Keys

def isBareKeyChar (c : Char) : Bool := c.isAlphanum || c == '_' || c == '-'

def simpleKey? : List Char → Option (String × List Char)
  | '"' :: rest => (basicString rest).map fun (s, rest) => (String.ofList s, rest)
  | '\'' :: rest => (literalString rest).map fun (s, rest) => (String.ofList s, rest)
  | text =>
    match text.takeWhile isBareKeyChar with
    | [] => none
    | word => some (String.ofList word, text.dropWhile isBareKeyChar)

/-- Keys with dots between them, with blanks around the dots. -/
def key? : (fuel : Nat) → List Char → Option (List String × List Char)
  | 0, _ => none
  | fuel + 1, text => do
    let (first, rest) ← simpleKey? (skipBlanks text)
    match skipBlanks rest with
    | '.' :: rest =>
      let (more, rest) ← key? fuel rest
      return (first :: more, rest)
    | rest => return ([first], rest)

/-- How deep arrays, braces and dotted keys may go. -/
def depthLimit : Nat := 80

def path? (text : List Char) : Option (List String × String × List Char) := do
  let (keys, rest) ← key? (text.length + 1) text
  guard (keys.length < depthLimit)
  let last ← keys.getLast?
  return (keys.dropLast, last, rest)

end Keys

def skipLines (inComment : Bool) : List Char → Option (List Char)
  | [] => some []
  | '\n' :: rest => skipLines false rest
  | '\r' :: '\n' :: rest => skipLines false rest
  | c :: rest =>
    if inComment then if isPlain c then skipLines true rest else none
    else if c == '#' then skipLines true rest
    else if isBlank c then skipLines false rest
    else some (c :: rest)

def skipComment? (text : List Char) : Option (List Char) :=
  let rest := text.dropWhile isPlain
  match rest, newline? rest with
  | [], _ => some []
  | _, some rest => some rest
  | _, none => none

/-- What may stand behind an entry: blanks, a comment, and the end of the line or of the text. -/
def lineEnd? (text : List Char) : Option (List Char) :=
  match skipBlanks text with
  | [] => some []
  | '#' :: rest => skipComment? rest
  | rest => newline? rest

section Values

mutual

/-- A value and what follows it. `depth` bounds the nesting and `fuel` the calls. -/
def value? : (fuel depth : Nat) → List Char → Option (Value × List Char)
  | 0, _, _ => none
  | fuel + 1, depth, text =>
    let string := fun (t : Taken) => t.map fun (s, rest) => (Value.text (String.ofList s), rest)
    match text with
    | '"' :: '"' :: '"' :: rest => string (longString false (skipFirstBreak rest))
    | '"' :: rest => string (basicString rest)
    | '\'' :: '\'' :: '\'' :: rest => string (longLiteral (skipFirstBreak rest))
    | '\'' :: rest => string (literalString rest)
    | '[' :: rest => if depth ≤ 1 then none else arrayItems? fuel (depth - 1) rest []
    | '\x7b' :: rest =>
      if depth ≤ 1 then none
      else
        match skipBlanks rest with
        | '\x7d' :: rest => some (.table [], rest)
        | rest => inlineEntries? fuel (depth - 1) rest []
    | text => takeWord? text

/-- The rest of an array; a comma may stand before the end. -/
def arrayItems? : (fuel depth : Nat) → List Char → List Value → Option (Value × List Char)
  | 0, _, _, _ => none
  | fuel + 1, depth, text, items => do
    match ← skipLines false text with
    | ']' :: rest => return (.array items.reverse, rest)
    | text =>
      let (v, rest) ← value? fuel depth text
      match ← skipLines false rest with
      | ',' :: rest => arrayItems? fuel depth rest (v :: items)
      | ']' :: rest => return (.array (v :: items).reverse, rest)
      | _ => none

def inlineEntries? : (fuel depth : Nat) → List Char → Entries → Option (Value × List Char)
  | 0, _, _, _ => none
  | fuel + 1, depth, text, entries => do
    let (path, key, rest) ← path? text
    let rest ← after? '=' rest
    let (v, rest) ← value? fuel depth (skipBlanks rest)
    let entries ← entries.insertDotted path key v
    match skipBlanks rest with
    | ',' :: rest => inlineEntries? fuel depth rest entries
    | '\x7d' :: rest => return (.table (entriesToValues entries), rest)
    | _ => none

end

end Values

/-- What has been read of a document, and the header under which its lines stand. -/
structure Draft where
  entries : Entries
  header : List String

namespace Draft

/-- A header, behind its first bracket. -/
def header? (d : Draft) (text : List Char) : Option (Draft × List Char) :=
  match text with
  | '[' :: rest => do
    let (path, key, rest) ← path? rest
    let rest ← after? ']' (← after? ']' rest)
    return (⟨← d.entries.openElement path key, path ++ [key]⟩, ← lineEnd? rest)
  | rest => do
    let (path, key, rest) ← path? rest
    let rest ← after? ']' rest
    return (⟨← d.entries.openTable path key, path ++ [key]⟩, ← lineEnd? rest)

def entry? (d : Draft) (text : List Char) : Option (Draft × List Char) := do
  let (path, key, rest) ← path? text
  let rest ← after? '=' rest
  let (v, rest) ← value? (rest.length + 1) depthLimit (skipBlanks rest)
  let entries ← d.entries.insertUnder d.header path key v
  return ({ d with entries := entries }, ← lineEnd? rest)

def lines? : (fuel : Nat) → Draft → List Char → Option Draft
  | 0, _, _ => none
  | fuel + 1, d, text => do
    match ← skipLines false text with
    | [] => return d
    | '[' :: rest =>
      let (d, rest) ← d.header? rest
      lines? fuel d rest
    | text =>
      let (d, rest) ← d.entry? text
      lines? fuel d rest

end Draft

/-- Reads a document, which may begin with a byte order mark. -/
def parse? (text : String) : Option Value :=
  let chars := match text.toList with
    | '\uFEFF' :: rest => rest
    | chars => chars
  (Draft.lines? (chars.length + 1) ⟨[], []⟩ chars).map fun d => .table (entriesToValues d.entries)

end LiveMedia.Toml

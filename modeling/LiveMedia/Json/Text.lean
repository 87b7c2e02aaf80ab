import LiveMedia.Json.Node

/-! # Strings in JSON text

Reading turns escapes into characters and then asks for valid UTF-8; an escape above `U+FFFF` takes
two units, and a unit of such a pair never stands alone. Writing escapes the quote, the backslash
and the control characters below the space. -/

namespace LiveMedia.Json
set_option autoImplicit false

namespace Text

def hexValue (b : UInt8) : Nat :=
  if b ≤ 57 then b.toNat - 48 else if b ≤ 70 then b.toNat - 55 else b.toNat - 87

def unit (a b c d : UInt8) : Nat :=
  ((hexValue a * 16 + hexValue b) * 16 + hexValue c) * 16 + hexValue d

def escapeByte (b : UInt8) : UInt8 :=
  if b = 98 then 8 else if b = 102 then 12 else if b = 110 then 10
  else if b = 114 then 13 else if b = 116 then 9 else b

def utf8 (n : Nat) : List UInt8 := String.utf8EncodeChar (Char.ofNat n)

/-- The bytes of a string with its escapes resolved. -/
def unescape? : List UInt8 → Option (List UInt8)
  | 92 :: 117 :: a :: b :: c :: d :: rest =>
    let u := unit a b c d
    if u < 0xD800 ∨ 0xE000 ≤ u then (unescape? rest).map (utf8 u ++ ·)
    else if u < 0xDC00 then
      match rest with
      | 92 :: 117 :: e :: f :: g :: h :: rest =>
        let v := unit e f g h
        if 0xDC00 ≤ v ∧ v < 0xE000 then
          (unescape? rest).map (utf8 (0x10000 + (u - 0xD800) * 0x400 + (v - 0xDC00)) ++ ·)
        else none
      | _ => none
    else none
  | 92 :: b :: rest => (unescape? rest).map (escapeByte b :: ·)
  | b :: rest => (unescape? rest).map (b :: ·)
  | [] => some []

def decode? (raw : List UInt8) : Option String :=
  (unescape? raw).bind fun bytes => String.fromUTF8? ⟨bytes.toArray⟩

def hexDigit (n : Nat) : Char := if n < 10 then Char.ofNat (48 + n) else Char.ofNat (87 + n)

def encodeChar (c : Char) : List Char :=
  if c = '"' then ['\\', '"']
  else if c = '\\' then ['\\', '\\']
  else if c.toNat = 8 then ['\\', 'b']
  else if c.toNat = 9 then ['\\', 't']
  else if c.toNat = 10 then ['\\', 'n']
  else if c.toNat = 12 then ['\\', 'f']
  else if c.toNat = 13 then ['\\', 'r']
  else if c.toNat < 32 then
    ['\\', 'u', '0', '0', hexDigit (c.toNat / 16), hexDigit (c.toNat % 16)]
  else [c]

def encode (s : String) : String :=
  String.ofList ('"' :: s.toList.flatMap encodeChar ++ ['"'])

end Text

end LiveMedia.Json

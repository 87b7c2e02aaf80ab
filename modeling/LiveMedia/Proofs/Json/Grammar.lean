import LiveMedia.Proofs.Json.Numbers
import LiveMedia.Proofs.Json.Tree

/-!
# The grammar of JSON text

A text of a tree is the tokens of the tree in their order, each in one of its spellings, with blanks
around them at will. The content of a string is well formed when all its escapes are, and it spells
characters when its escapes do too.
-/

namespace LiveMedia.Json
set_option autoImplicit false

namespace Text

/-- A byte that is the hexadecimal digit of this value. -/
def HexDigit (b : UInt8) (d : ℕ) : Prop :=
  d < 10 ∧ b.toNat = 48 + d ∨ 10 ≤ d ∧ d < 16 ∧ (b.toNat = 55 + d ∨ b.toNat = 87 + d)

/-- Four hexadecimal digits of a unit. -/
def HexUnit (bs : List UInt8) (u : ℕ) : Prop :=
  ∃ a b c d w x y z, bs = [a, b, c, d] ∧ HexDigit a w ∧ HexDigit b x ∧ HexDigit c y ∧
    HexDigit d z ∧ u = ((w * 16 + x) * 16 + y) * 16 + z

/-- The letters that stand for a character behind a backslash. -/
def shortEscapes : List (UInt8 × Char) :=
  [(34, '"'), (92, '\\'), (47, '/'), (98, Char.ofNat 8), (102, Char.ofNat 12), (110, Char.ofNat 10),
    (114, Char.ofNat 13), (116, Char.ofNat 9)]

/-- The content of a string in which every escape has the right form. -/
inductive WellFormed : List UInt8 → Prop where
  | nil : WellFormed []
  | plain {b : UInt8} {raw : List UInt8} (hquote : b ≠ 34) (hescape : b ≠ 92) (hcontrol : 32 ≤ b)
      (h : WellFormed raw) : WellFormed (b :: raw)
  | short {b : UInt8} {c : Char} {raw : List UInt8} (hb : (b, c) ∈ shortEscapes)
      (h : WellFormed raw) : WellFormed (92 :: b :: raw)
  | unit {bs raw : List UInt8} {u : ℕ} (hu : HexUnit bs u) (h : WellFormed raw) :
      WellFormed (92 :: 117 :: (bs ++ raw))

/-- The contents that spell a string: a character stands for itself or is escaped, by a letter, by
its unit or, above `U+FFFF`, by a pair of units. -/
inductive Spelling : List Char → List UInt8 → Prop where
  | nil : Spelling [] []
  | plain {c : Char} {cs : List Char} {raw : List UInt8} (hquote : c ≠ '"') (hescape : c ≠ '\\')
      (hcontrol : 32 ≤ c.toNat) (h : Spelling cs raw) :
      Spelling (c :: cs) (String.utf8EncodeChar c ++ raw)
  | short {b : UInt8} {c : Char} {cs : List Char} {raw : List UInt8} (hb : (b, c) ∈ shortEscapes)
      (h : Spelling cs raw) : Spelling (c :: cs) (92 :: b :: raw)
  | unit {bs raw : List UInt8} {cs : List Char} {u : ℕ} (hu : HexUnit bs u)
      (halone : u < 0xD800 ∨ 0xE000 ≤ u) (h : Spelling cs raw) :
      Spelling (Char.ofNat u :: cs) (92 :: 117 :: (bs ++ raw))
  | pair {bs ds raw : List UInt8} {cs : List Char} {u v : ℕ} (hu : HexUnit bs u)
      (hv : HexUnit ds v) (hhigh : 0xD800 ≤ u ∧ u < 0xDC00) (hlow : 0xDC00 ≤ v ∧ v < 0xE000)
      (h : Spelling cs raw) :
      Spelling (Char.ofNat (0x10000 + (u - 0xD800) * 0x400 + (v - 0xDC00)) :: cs)
        (92 :: 117 :: (bs ++ 92 :: 117 :: (ds ++ raw)))

end Text

/-- The texts of a token. -/
inductive TokenText : Token → List UInt8 → Prop where
  | beginObject : TokenText .beginObject [123]
  | endObject : TokenText .endObject [125]
  | beginArray : TokenText .beginArray [91]
  | endArray : TokenText .endArray [93]
  | colon : TokenText .colon [58]
  | comma : TokenText .comma [44]
  | null : TokenText .null [110, 117, 108, 108]
  | yes : TokenText (.boolean true) [116, 114, 117, 101]
  | no : TokenText (.boolean false) [102, 97, 108, 115, 101]
  | number {n : Number} {bs : List UInt8} (h : n.Spelling bs) : TokenText (.number n) bs
  | text {raw : List UInt8} (h : Text.WellFormed raw) : TokenText (.text raw) (34 :: raw ++ [34])

def Blank (ws : List UInt8) : Prop := ∀ b ∈ ws, b = 32 ∨ b = 9 ∨ b = 10 ∨ b = 13

instance (ws : List UInt8) : Decidable (Blank ws) := List.decidableBAll _ ws

/-- A text of these tokens, with blanks around each of them. -/
inductive Layout : List Token → List UInt8 → Prop where
  | nil {ws : List UInt8} (hws : Blank ws) : Layout [] ws
  | cons {t : Token} {ts : List Token} {ws w bs : List UInt8} (hws : Blank ws)
      (hw : TokenText t w) (h : Layout ts bs) : Layout (t :: ts) (ws ++ (w ++ bs))

end LiveMedia.Json

import LiveMedia.Proofs.Json.Reading

/-!
# Doubles in JSON text

The text of a finite double is one word of digits, signs, a point and an exponent mark. Where that
text is read as the double when it stands alone, it is so in the midst of other text too.
-/

namespace LiveMedia.Json
set_option autoImplicit false

/-- The characters that doubles are written with. -/
def numericChars : List Char :=
  ['+', '-', '.', '0', '1', '2', '3', '4', '5', '6', '7', '8', '9', 'e']

def Numeric (text : List Char) : Prop := ∀ c ∈ text, c ∈ numericChars

namespace Numeric

theorem cons {c : Char} (hc : c ∈ numericChars) {text : List Char} (h : Numeric text) :
    Numeric (c :: text) := List.forall_mem_cons.mpr ⟨hc, h⟩

theorem append {first second : List Char} (hfirst : Numeric first) (hsecond : Numeric second) :
    Numeric (first ++ second) := List.forall_mem_append.mpr ⟨hfirst, hsecond⟩

theorem toDigits (n : ℕ) : Numeric (Nat.toDigits 10 n) := by
  intro c hc
  have hdigit := Nat.isDigit_of_mem_toDigits (by decide) (by decide) hc
  unfold Char.isDigit at hdigit
  simp only [Bool.and_eq_true, decide_eq_true_eq] at hdigit
  have hlow : 48 ≤ c.toNat := hdigit.1
  have hhigh : c.toNat ≤ 57 := hdigit.2
  have hall : ∀ d : Fin 10, Char.ofNat (48 + d) ∈ numericChars := by decide
  have hchar := hall ⟨c.toNat - 48, by omega⟩
  rwa [Nat.add_sub_cancel' hlow, Char.ofNat_toNat] at hchar

theorem zeros (n : ℕ) : Numeric (Decimal.Scientific.zeros n) := by
  intro c hc
  rw [List.eq_of_mem_replicate hc]
  decide

theorem positional (s : Decimal.Scientific) : Numeric s.positional := by
  unfold Decimal.Scientific.positional
  dsimp only
  split
  · exact (toDigits _).append (zeros _)
  split
  · refine append (fun c hc => toDigits _ c (List.mem_of_mem_take hc)) (cons (by decide) ?_)
    exact fun c hc => toDigits _ c (List.mem_of_mem_drop hc)
  · exact cons (by decide) (cons (by decide) ((zeros _).append (toDigits _)))

theorem withFraction (s : Decimal.Scientific) : Numeric (Decimal.withFraction s) := by
  unfold Decimal.withFraction
  split
  · exact (positional s).append (cons (by decide) (cons (by decide) nofun))
  · exact positional s

theorem withExponent (s : Decimal.Scientific) : Numeric s.withExponent := by
  have hsign : (if s.pointPlace - 1 < 0 then '-' else '+') ∈ numericChars := by
    split <;> decide
  have hmark := cons (c := 'e') (by decide) (cons hsign (toDigits (s.pointPlace - 1).natAbs))
  have hdigits := toDigits s.digits
  unfold Decimal.Scientific.withExponent
  dsimp only
  split
  · exact hmark
  · rename_i hd
    rw [hd] at hdigits
    exact cons (hdigits _ List.mem_cons_self) hmark
  · rename_i hd
    rw [hd] at hdigits
    refine cons (hdigits _ List.mem_cons_self) (cons (by decide) (append ?_ hmark))
    exact fun c hc => hdigits c (List.mem_cons_of_mem _ hc)

theorem floatText? {x : Float} {text : List Char} (h : Json.floatText? x = some text) :
    Numeric text := by
  unfold Json.floatText? at h
  split at h
  · cases h
    have hbody : ∀ s : Decimal.Scientific, ∀ p : Prop, ∀ _ : Decidable p,
        Numeric (if p then Decimal.withFraction s else s.withExponent) := by
      intro s p _
      split
      · exact withFraction s
      · exact withExponent s
    unfold Decimal.signed
    split
    · exact cons (by decide) (hbody _ _ _)
    · exact hbody _ _ _
  · cases h

theorem bytes {text : List Char} (h : Numeric text) :
    ∀ b ∈ bytesOf (String.ofList text), b ∈ Number.numericBytes := by
  have hall : numericChars.all (fun c =>
      (String.utf8EncodeChar c).all Number.numericBytes.contains) = true := by decide
  unfold bytesOf
  rw [String.toUTF8_eq_toByteArray, String.toByteArray_ofList, List.utf8Encode,
    List.toList_data_toByteArray]
  intro b hb
  obtain ⟨c, hc, hb⟩ := List.mem_flatMap.mp hb
  have hbyte := List.all_eq_true.mp (List.all_eq_true.mp hall c (h c hc)) b hb
  exact List.contains_iff_mem.mp hbyte

end Numeric

/-- The text of a double, read as JSON, gives the double. -/
def ReadsBack (x : Float) : Prop :=
  (Node.parse? (bytesOf (Value.floatText x))).bind Node.float? = some x

/-- A word of numeric bytes is read as a number or not at all. -/
theorem parse?_numeric {w : List UInt8} (hne : w ≠ [])
    (hw : ∀ b ∈ w, b ∈ Number.numericBytes) :
    Node.parse? w = (Number.ofText? w).map .number := by
  unfold Node.parse?
  rw [tokens?_word hne fun b hb => Scanner.endsWord_numeric b (hw b hb),
    Token.ofWord?_numeric hw]
  cases Number.ofText? w <;> rfl

namespace ReadsBack

variable {x : Float}

/-- Only a finite double is read back, and its text is a number that is read as the double. -/
theorem exists_number (h : ReadsBack x) :
    ∃ n, Number.ofText? (bytesOf (Value.floatText x)) = some n ∧
      Node.float? (.number n) = some x ∧ Value.Legible x := by
  unfold ReadsBack at h
  obtain ⟨v, hparse, hfloat⟩ := Option.bind_eq_some_iff.mp h
  cases htext : floatText? x with
  | none =>
    have hnull : Value.floatText x = "null" := by
      unfold Value.floatText
      rw [htext]
    have hnode : Node.parse? (bytesOf "null") = some .null := rfl
    rw [hnull, hnode] at hparse
    cases hparse
    cases hfloat
  | some text =>
    have hwritten : Value.floatText x = String.ofList text := by
      unfold Value.floatText
      rw [htext]
    have hbytes : ∀ b ∈ bytesOf (Value.floatText x), b ∈ Number.numericBytes := by
      rw [hwritten]
      exact (Numeric.floatText? htext).bytes
    have hne : bytesOf (Value.floatText x) ≠ [] := by
      intro hnil
      rw [hnil] at hparse
      cases hparse
    rw [parse?_numeric hne hbytes] at hparse
    obtain ⟨n, hn, rfl⟩ := Option.map_eq_some_iff.mp hparse
    refine ⟨n, hn, hfloat, ?_⟩
    unfold Value.Legible Value.floatNode
    rw [hn]
    refine Spells.word ?_ hne fun b hb => Scanner.endsWord_numeric b (hbytes b hb)
    rw [Token.ofWord?_numeric hbytes, hn]
    rfl

theorem legible (h : ReadsBack x) : Value.Legible x := by
  obtain ⟨n, -, -, hlegible⟩ := h.exists_number
  exact hlegible

theorem float?_node (h : ReadsBack x) : Node.float? (Value.float x).node = some x := by
  obtain ⟨n, hn, hfloat, -⟩ := h.exists_number
  rw [Value.node, Value.floatNode, hn]
  exact hfloat

theorem within (h : ReadsBack x) (depth : ℕ) : (Value.float x).Within depth := by
  obtain ⟨n, hn, hfloat, -⟩ := h.exists_number
  unfold Value.Within
  rw [Value.node, Value.floatNode, hn]
  dsimp only [Option.elim]
  rw [Node.toValue?, Number.toValue?]
  unfold Node.float? at hfloat
  dsimp only at hfloat
  cases hint : n.int? with
  | some i => rfl
  | none =>
    rw [hint] at hfloat
    dsimp only at hfloat
    rw [hfloat]
    rfl

end ReadsBack

end LiveMedia.Json

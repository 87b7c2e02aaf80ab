import LiveMedia.Json.Text
import LiveMedia.Proofs.Json.Grammar

/-!
# Strings in JSON text

Whatever way a string is spelled, it is read as that string. Writing spells it with the fewest
escapes, so a string that was written is read back unchanged.
-/

namespace LiveMedia.Json
set_option autoImplicit false

namespace Text

/-- A character below `U+0080` is its own byte, and all other bytes lie above. -/
theorem toNat_of_mem_utf8EncodeChar {c : Char} {b : UInt8} (hb : b ∈ String.utf8EncodeChar c) :
    b.toNat = c.toNat ∨ 128 ≤ b.toNat := by
  have hlarge : ∀ n : ℕ, 128 ≤ n → n < 256 → 128 ≤ (UInt8.ofNat n).toNat := by
    intro n hlow hhigh
    rw [UInt8.toNat_ofNat', Nat.mod_eq_of_lt hhigh]
    exact hlow
  have hvalue : c.toNat = c.val.toNat := rfl
  unfold String.utf8EncodeChar at hb
  dsimp only at hb
  split at hb
  · rw [List.mem_singleton.mp hb, UInt8.toNat_ofNat']
    omega
  · right
    repeat' split at hb
    all_goals
      simp only [List.mem_cons, List.not_mem_nil, or_false] at hb
      rcases hb with rfl | rfl | rfl | rfl <;> exact hlarge _ (by omega) (by omega)

/-- The bytes of a character that needs no escape. -/
theorem plain_of_mem_utf8EncodeChar {c : Char} (hquote : c ≠ '"') (hescape : c ≠ '\\')
    (hcontrol : 32 ≤ c.toNat) {b : UInt8} (hb : b ∈ String.utf8EncodeChar c) :
    b ≠ 34 ∧ b ≠ 92 ∧ 32 ≤ b := by
  have hc : ∀ d : Char, c ≠ d → c.toNat ≠ d.toNat := fun d hd h => hd (Char.toNat_inj.mp h)
  have h34 : c.toNat ≠ 34 := hc '"' hquote
  have h92 : c.toNat ≠ 92 := hc '\\' hescape
  rw [ne_eq, ne_eq, UInt8.le_iff_toNat_le, ← UInt8.toNat_inj, ← UInt8.toNat_inj]
  have := toNat_of_mem_utf8EncodeChar hb
  refine ⟨?_, ?_, ?_⟩
  · change b.toNat ≠ 34
    omega
  · change b.toNat ≠ 92
    omega
  · change 32 ≤ b.toNat
    omega

theorem WellFormed.append_plain {bs raw : List UInt8}
    (hbs : ∀ b ∈ bs, b ≠ 34 ∧ b ≠ 92 ∧ 32 ≤ b) (h : WellFormed raw) : WellFormed (bs ++ raw) := by
  induction bs with
  | nil => exact h
  | cons b rest ih =>
    obtain ⟨hquote, hescape, hcontrol⟩ := hbs b List.mem_cons_self
    exact .plain hquote hescape hcontrol (ih fun c hc => hbs c (List.mem_cons_of_mem b hc))

theorem Spelling.wellFormed {cs : List Char} {raw : List UInt8} (h : Spelling cs raw) :
    WellFormed raw := by
  induction h with
  | nil => exact .nil
  | plain hquote hescape hcontrol h ih =>
    exact ih.append_plain fun b hb => plain_of_mem_utf8EncodeChar hquote hescape hcontrol hb
  | short hb h ih => exact ih.short hb
  | unit hu halone h ih => exact ih.unit hu
  | pair hu hv hhigh hlow h ih => exact (ih.unit hv).unit hu

theorem hexValue_of_hexDigit {b : UInt8} {d : ℕ} (h : HexDigit b d) : hexValue b = d := by
  unfold hexValue
  simp only [UInt8.le_iff_toNat_le]
  rcases h with ⟨hd, hb⟩ | ⟨hlow, hhigh, hb | hb⟩
  · rw [if_pos (by rw [hb]; change 48 + d ≤ 57; omega), hb]
    omega
  · rw [if_neg (by rw [hb]; change ¬ 55 + d ≤ 57; omega),
      if_pos (by rw [hb]; change 55 + d ≤ 70; omega), hb]
    omega
  · rw [if_neg (by rw [hb]; change ¬ 87 + d ≤ 57; omega),
      if_neg (by rw [hb]; change ¬ 87 + d ≤ 70; omega), hb]
    omega

theorem unescape?_of_ne {b : UInt8} (hb : b ≠ 92) (rest : List UInt8) :
    unescape? (b :: rest) = (unescape? rest).map (b :: ·) := by
  rw [unescape?.eq_def]
  split
  · rename_i heq
    exact absurd (List.cons.inj heq).1 hb
  · rename_i heq
    exact absurd (List.cons.inj heq).1 hb
  · rename_i heq
    cases heq
    rfl
  · rename_i heq
    cases heq

theorem unescape?_append {bs : List UInt8} (hbs : ∀ b ∈ bs, b ≠ 92) (rest : List UInt8) :
    unescape? (bs ++ rest) = (unescape? rest).map (bs ++ ·) := by
  induction bs with
  | nil => simp
  | cons b bs ih =>
    rw [List.cons_append, unescape?_of_ne (hbs b List.mem_cons_self),
      ih fun c hc => hbs c (List.mem_cons_of_mem b hc), Option.map_map]
    rfl

theorem unit_of_hexUnit {bs : List UInt8} {u : ℕ} (h : HexUnit bs u) :
    ∃ a b c d, bs = [a, b, c, d] ∧ unit a b c d = u := by
  obtain ⟨a, b, c, d, w, x, y, z, rfl, ha, hb, hc, hd, rfl⟩ := h
  refine ⟨a, b, c, d, rfl, ?_⟩
  unfold unit
  rw [hexValue_of_hexDigit ha, hexValue_of_hexDigit hb, hexValue_of_hexDigit hc,
    hexValue_of_hexDigit hd]

theorem unescape?_unit {bs : List UInt8} {u : ℕ} (hu : HexUnit bs u)
    (halone : u < 0xD800 ∨ 0xE000 ≤ u) (rest : List UInt8) :
    unescape? (92 :: 117 :: (bs ++ rest)) = (unescape? rest).map (utf8 u ++ ·) := by
  obtain ⟨a, b, c, d, rfl, rfl⟩ := unit_of_hexUnit hu
  change unescape? (92 :: 117 :: a :: b :: c :: d :: rest) = _
  rw [unescape?.eq_def]
  exact if_pos halone

theorem unescape?_pair {bs ds : List UInt8} {u v : ℕ} (hu : HexUnit bs u) (hv : HexUnit ds v)
    (hhigh : 0xD800 ≤ u ∧ u < 0xDC00) (hlow : 0xDC00 ≤ v ∧ v < 0xE000) (rest : List UInt8) :
    unescape? (92 :: 117 :: (bs ++ 92 :: 117 :: (ds ++ rest))) =
      (unescape? rest).map (utf8 (0x10000 + (u - 0xD800) * 0x400 + (v - 0xDC00)) ++ ·) := by
  obtain ⟨a, b, c, d, rfl, rfl⟩ := unit_of_hexUnit hu
  obtain ⟨e, f, g, h, rfl, rfl⟩ := unit_of_hexUnit hv
  change unescape? (92 :: 117 :: a :: b :: c :: d :: 92 :: 117 :: e :: f :: g :: h :: rest) = _
  rw [unescape?.eq_1]
  dsimp only
  rw [if_neg (by omega), if_pos hhigh.2, if_pos hlow]

theorem unescape?_short {b : UInt8} {c : Char} (h : (b, c) ∈ shortEscapes) (rest : List UInt8) :
    unescape? (92 :: b :: rest) = (unescape? rest).map (String.utf8EncodeChar c ++ ·) := by
  have hletter : ∀ e ∈ shortEscapes,
      e.1 ≠ 117 ∧ String.utf8EncodeChar e.2 = [escapeByte e.1] := by decide
  obtain ⟨hunit, hbyte⟩ := hletter _ h
  dsimp only at hunit hbyte
  rw [unescape?.eq_def]
  split
  · rename_i heq
    exact absurd (List.cons.inj (List.cons.inj heq).2).1 hunit
  · rename_i heq
    cases heq
    rw [hbyte]
    rfl
  · rename_i hshort heq
    cases heq
    exact absurd rfl (hshort _ _ rfl)
  · rename_i heq
    cases heq

theorem Spelling.unescape? {cs : List Char} {raw : List UInt8} (h : Spelling cs raw) :
    Text.unescape? raw = some (cs.flatMap String.utf8EncodeChar) := by
  induction h with
  | nil => rfl
  | plain hquote hescape hcontrol h ih =>
    have hbytes := fun b hb => (plain_of_mem_utf8EncodeChar hquote hescape hcontrol (b := b) hb).2.1
    rw [unescape?_append hbytes, ih]
    rfl
  | short hb h ih =>
    rw [unescape?_short hb, ih]
    rfl
  | unit hu halone h ih =>
    rw [unescape?_unit hu halone, ih]
    rfl
  | pair hu hv hhigh hlow h ih =>
    rw [unescape?_pair hu hv hhigh hlow, ih]
    rfl

/-- However a string is spelled, it is read as that string. -/
theorem Spelling.decode? {cs : List Char} {raw : List UInt8} (h : Spelling cs raw) :
    Text.decode? raw = some (String.ofList cs) := by
  have hbytes : (⟨(cs.flatMap String.utf8EncodeChar).toArray⟩ : ByteArray) = cs.utf8Encode := by
    apply ByteArray.ext
    rw [List.utf8Encode, List.data_toByteArray]
  unfold Text.decode? String.fromUTF8?
  rw [h.unescape?, Option.bind_some, hbytes, dif_pos ByteArray.isValidUTF8_utf8Encode]
  congr 1

/-- The bytes between the quotes of a string as it is written. -/
def content (s : String) : List UInt8 := (s.toList.flatMap encodeChar).flatMap String.utf8EncodeChar

theorem eq_ofNat_of_toNat {c : Char} {n : ℕ} (h : c.toNat = n) : c = Char.ofNat n := by
  rw [← h, Char.ofNat_toNat]

/-- The two digits that a control character is written with. -/
theorem hexUnit_of_lt {n : ℕ} (h : n < 32) :
    HexUnit ([48, 48] ++ (String.utf8EncodeChar (hexDigit (n / 16)) ++
      String.utf8EncodeChar (hexDigit (n % 16)))) n := by
  have hbyte : ∀ d : Fin 16, String.utf8EncodeChar (hexDigit d) =
      [UInt8.ofNat (if d.val < 10 then 48 + d else 87 + d)] := by decide
  have hdigit : ∀ d : Fin 16, HexDigit (UInt8.ofNat (if d.val < 10 then 48 + d else 87 + d)) d := by
    unfold HexDigit
    decide
  have hzero : HexDigit 48 0 := Or.inl ⟨by decide, rfl⟩
  rw [hbyte ⟨n / 16, by omega⟩, hbyte ⟨n % 16, by omega⟩]
  refine ⟨48, 48, _, _, 0, 0, n / 16, n % 16, rfl, hzero, hzero, hdigit ⟨n / 16, by omega⟩,
    hdigit ⟨n % 16, by omega⟩, by omega⟩

theorem Spelling.encodeChar {cs : List Char} {raw : List UInt8} (h : Spelling cs raw) (c : Char) :
    Spelling (c :: cs) ((Text.encodeChar c).flatMap String.utf8EncodeChar ++ raw) := by
  unfold Text.encodeChar
  split
  · rename_i hc
    subst hc
    exact h.short (b := 34) (by decide)
  split
  · rename_i hc
    subst hc
    exact h.short (b := 92) (by decide)
  split
  · rename_i hc
    rw [eq_ofNat_of_toNat hc]
    exact h.short (b := 98) (by decide)
  split
  · rename_i hc
    rw [eq_ofNat_of_toNat hc]
    exact h.short (b := 116) (by decide)
  split
  · rename_i hc
    rw [eq_ofNat_of_toNat hc]
    exact h.short (b := 110) (by decide)
  split
  · rename_i hc
    rw [eq_ofNat_of_toNat hc]
    exact h.short (b := 102) (by decide)
  split
  · rename_i hc
    rw [eq_ofNat_of_toNat hc]
    exact h.short (b := 114) (by decide)
  split
  · rename_i hcontrol
    have hunit := h.unit (hexUnit_of_lt hcontrol) (by omega)
    rw [Char.ofNat_toNat] at hunit
    convert hunit using 1
    simp
    rfl
  · rename_i hquote hescape _ _ _ _ _ hcontrol
    rw [List.flatMap_singleton]
    exact h.plain hquote hescape (Nat.not_lt.mp hcontrol)

theorem spelling_content (s : String) : Spelling s.toList (content s) := by
  unfold content
  induction s.toList with
  | nil => exact .nil
  | cons c rest ih =>
    rw [List.flatMap_cons, List.flatMap_append]
    exact ih.encodeChar c

theorem decode?_content (s : String) : decode? (content s) = some s := by
  rw [(spelling_content s).decode?, String.ofList_toList]

end Text

end LiveMedia.Json

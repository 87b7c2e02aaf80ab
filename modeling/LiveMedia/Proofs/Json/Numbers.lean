import Mathlib.Data.Nat.Notation
import LiveMedia.Json.Number

/-!
# Numbers in JSON text

A number is spelled by its sign, its digits without a zero in front of others, a fraction with at
least one digit and an exponent in one of several forms. Every spelling is read as the number.
-/

namespace LiveMedia.Json
set_option autoImplicit false

namespace Number

def digitByte (d : ℕ) : UInt8 := UInt8.ofNat (48 + d)

theorem digit?_digitByte {d : ℕ} (h : d < 10) : digit? (digitByte d) = some d := by
  have hall : ∀ d : Fin 10, digit? (digitByte d) = some d.val := by decide
  exact hall ⟨d, h⟩

def Digits (ds : List ℕ) : Prop := ∀ d ∈ ds, d < 10

theorem Digits.of_cons {d : ℕ} {ds : List ℕ} (h : Digits (d :: ds)) : d < 10 ∧ Digits ds :=
  List.forall_mem_cons.mp h

/-- A run of digits is taken up to a byte that is none. -/
theorem takeDigits_append {ds : List ℕ} (h : Digits ds) {tail : List UInt8}
    (htail : ∀ b ∈ tail.head?, digit? b = none) :
    takeDigits (ds.map digitByte ++ tail) = (ds, tail) := by
  induction ds with
  | nil =>
    cases tail with
    | nil => rfl
    | cons b rest =>
      change takeDigits (b :: rest) = _
      rw [takeDigits, htail b rfl]
  | cons d rest ih =>
    obtain ⟨hd, hrest⟩ := h.of_cons
    rw [List.map_cons, List.cons_append, takeDigits, digit?_digitByte hd]
    dsimp only
    rw [ih hrest]

theorem takeDigits_digitByte {ds : List ℕ} (h : Digits ds) :
    takeDigits (ds.map digitByte) = (ds, []) := by
  have htake : takeDigits (ds.map digitByte ++ []) = (ds, []) := takeDigits_append h nofun
  rwa [List.append_nil] at htake

/-- The texts of an exponent: a mark, a sign that may be left out in front of a positive one, and
digits. -/
inductive ExponentText : Option Exponent → List UInt8 → Prop where
  | missing : ExponentText none []
  | unsigned {mark : UInt8} {ds : List ℕ} (hmark : mark = 101 ∨ mark = 69) (hne : ds ≠ [])
      (hds : Digits ds) : ExponentText (some ⟨false, ds⟩) (mark :: ds.map digitByte)
  | signed {mark : UInt8} {ds : List ℕ} (negative : Bool) (hmark : mark = 101 ∨ mark = 69)
      (hne : ds ≠ []) (hds : Digits ds) :
      ExponentText (some ⟨negative, ds⟩)
        (mark :: (if negative then 45 else 43) :: ds.map digitByte)

def fractionBytes (ds : List ℕ) : List UInt8 := if ds = [] then [] else 46 :: ds.map digitByte

/-- The texts of a number. -/
structure Spelling (n : Number) (bs : List UInt8) : Prop where
  whole_ne_nil : n.whole ≠ []
  whole_digits : Digits n.whole
  /-- A zero stands in front of no other digit. -/
  zero_alone : n.whole.head? = some 0 → n.whole.length = 1
  fraction_digits : Digits n.fraction
  text : ∃ tail, ExponentText n.exponent tail ∧
    bs = (if n.negative then [45] else []) ++
      (n.whole.map digitByte ++ (fractionBytes n.fraction ++ tail))

theorem ExponentText.head {e : Option Exponent} {bs : List UInt8} (h : ExponentText e bs) :
    ∀ b ∈ bs.head?, b = 101 ∨ b = 69 := by
  rintro b hb
  cases h with
  | missing => cases hb
  | unsigned hmark hne hds =>
    cases hb
    exact hmark
  | signed negative hmark hne hds =>
    cases hb
    exact hmark

theorem exponent?_of_mark {mark : UInt8} (hmark : mark = 101 ∨ mark = 69) (rest : List UInt8) :
    exponent? (mark :: rest) =
      let (negative, body) := match rest with
        | 45 :: r => (true, r)
        | 43 :: r => (false, r)
        | r => (false, r)
      match takeDigits body with
      | (d :: ds, []) => some (some ⟨negative, d :: ds⟩)
      | _ => none := if_pos hmark

theorem ExponentText.read {e : Option Exponent} {bs : List UInt8} (h : ExponentText e bs) :
    exponent? bs = some e := by
  cases h with
  | missing => rfl
  | @unsigned mark ds hmark hne hds =>
    obtain ⟨d, rest, rfl⟩ := List.exists_cons_of_ne_nil hne
    have hsign : ∀ d : Fin 10, digitByte d ≠ 45 ∧ digitByte d ≠ 43 := by decide
    obtain ⟨hminus, hplus⟩ := hsign ⟨d, hds.of_cons.1⟩
    rw [exponent?_of_mark hmark, List.map_cons]
    split
    rename_i negative body hbody
    split at hbody
    · rename_i heq
      exact absurd (List.cons.inj heq).1 hminus
    · rename_i heq
      exact absurd (List.cons.inj heq).1 hplus
    · cases hbody
      rw [← List.map_cons, takeDigits_digitByte hds]
  | @signed mark ds negative hmark hne hds =>
    obtain ⟨d, rest, rfl⟩ := List.exists_cons_of_ne_nil hne
    rw [exponent?_of_mark hmark]
    cases negative
    · change (match takeDigits ((d :: rest).map digitByte) with
        | (d :: ds, []) => some (some (Exponent.mk false (d :: ds)))
        | _ => none) = _
      rw [takeDigits_digitByte hds]
    · change (match takeDigits ((d :: rest).map digitByte) with
        | (d :: ds, []) => some (some (Exponent.mk true (d :: ds)))
        | _ => none) = _
      rw [takeDigits_digitByte hds]

theorem fraction?_fractionBytes {ds : List ℕ} (hds : Digits ds) {tail : List UInt8}
    (htail : ∀ b ∈ tail.head?, b = 101 ∨ b = 69) :
    fraction? (fractionBytes ds ++ tail) = some (ds, tail) := by
  have hnodigit : ∀ b ∈ tail.head?, digit? b = none := by
    intro b hb
    rcases htail b hb with rfl | rfl <;> rfl
  cases ds with
  | nil =>
    cases tail with
    | nil => rfl
    | cons b rest =>
      have hpoint : b ≠ 46 := by
        rcases htail b rfl with rfl | rfl <;> decide
      change fraction? (b :: rest) = _
      unfold fraction?
      split
      · rename_i heq
        exact absurd (List.cons.inj heq).1 hpoint
      · rfl
  | cons d rest =>
    have htake := takeDigits_append hds hnodigit
    have hbytes : fractionBytes (d :: rest) ++ tail =
        46 :: ((d :: rest).map digitByte ++ tail) := rfl
    rw [hbytes, fraction?, htake]

theorem guard_of_true {p : Prop} [Decidable p] (h : p) : (guard p : Option Unit) = some () :=
  if_pos h

theorem Spelling.ofText? {n : Number} {bs : List UInt8} (h : n.Spelling bs) :
    Number.ofText? bs = some n := by
  obtain ⟨tail, hexponent, rfl⟩ := h.text
  have hhead := hexponent.head
  have hbehind : ∀ b ∈ (fractionBytes n.fraction ++ tail).head?, digit? b = none := by
    intro b hb
    cases hfraction : n.fraction with
    | nil =>
      rw [hfraction] at hb
      rcases hhead b hb with rfl | rfl <;> rfl
    | cons d rest =>
      rw [hfraction] at hb
      cases hb
      rfl
  have htake := takeDigits_append h.whole_digits hbehind
  obtain ⟨d, rest, hwhole⟩ := List.exists_cons_of_ne_nil h.whole_ne_nil
  have hsign : ∀ d : Fin 10, digitByte d ≠ 45 := by decide
  have hfirst : ∀ r, n.whole.map digitByte ++ (fractionBytes n.fraction ++ tail) ≠ 45 :: r := by
    intro r heq
    have hd := h.whole_digits
    rw [hwhole] at hd heq
    exact hsign ⟨d, hd.of_cons.1⟩ (List.cons.inj heq).1
  unfold Number.ofText?
  split
  rename_i negative body hbody
  have hsigned : negative = n.negative ∧
      body = n.whole.map digitByte ++ (fractionBytes n.fraction ++ tail) := by
    cases hnegative : n.negative with
    | true =>
      rw [hnegative] at hbody
      cases hbody
      exact ⟨rfl, rfl⟩
    | false =>
      rw [hnegative] at hbody
      split at hbody
      · rename_i heq
        exact absurd heq (hfirst _)
      · cases hbody
        exact ⟨rfl, rfl⟩
  obtain ⟨rfl, rfl⟩ := hsigned
  rw [htake]
  dsimp only
  rw [guard_of_true ⟨h.whole_ne_nil, h.zero_alone⟩]
  dsimp only [bind, Option.bind]
  rw [fraction?_fractionBytes h.fraction_digits hhead]
  dsimp only
  rw [hexponent.read]
  rfl

/-- The bytes that numbers are spelled with. -/
def numericBytes : List UInt8 := [43, 45, 46, 48, 49, 50, 51, 52, 53, 54, 55, 56, 57, 69, 101]

theorem mem_numericBytes_of_mem_digits {ds : List ℕ} (h : Digits ds) {b : UInt8}
    (hb : b ∈ ds.map digitByte) : b ∈ numericBytes := by
  obtain ⟨d, hd, rfl⟩ := List.mem_map.mp hb
  have hall : ∀ d : Fin 10, digitByte d ∈ numericBytes := by decide
  exact hall ⟨d, h d hd⟩

theorem mem_numericBytes_of_mark {mark : UInt8} (h : mark = 101 ∨ mark = 69) :
    mark ∈ numericBytes := by
  rcases h with rfl | rfl <;> decide

theorem ExponentText.mem_numericBytes {e : Option Exponent} {bs : List UInt8}
    (h : ExponentText e bs) : ∀ b ∈ bs, b ∈ numericBytes := by
  intro b hb
  cases h with
  | missing => cases hb
  | unsigned hmark hne hds =>
    rcases List.mem_cons.mp hb with rfl | hb
    · exact mem_numericBytes_of_mark hmark
    · exact mem_numericBytes_of_mem_digits hds hb
  | signed negative hmark hne hds =>
    rcases List.mem_cons.mp hb with rfl | hb
    · exact mem_numericBytes_of_mark hmark
    rcases List.mem_cons.mp hb with rfl | hb
    · cases negative <;> decide
    · exact mem_numericBytes_of_mem_digits hds hb

theorem Spelling.mem_numericBytes {n : Number} {bs : List UInt8} (h : n.Spelling bs) :
    ∀ b ∈ bs, b ∈ numericBytes := by
  obtain ⟨tail, hexponent, rfl⟩ := h.text
  intro b hb
  rcases List.mem_append.mp hb with hb | hb
  · split at hb
    · rw [List.mem_singleton.mp hb]
      decide
    · cases hb
  rcases List.mem_append.mp hb with hb | hb
  · exact mem_numericBytes_of_mem_digits h.whole_digits hb
  rcases List.mem_append.mp hb with hb | hb
  · unfold fractionBytes at hb
    split at hb
    · cases hb
    rcases List.mem_cons.mp hb with rfl | hb
    · decide
    · exact mem_numericBytes_of_mem_digits h.fraction_digits hb
  · exact hexponent.mem_numericBytes b hb

theorem Spelling.ne_nil {n : Number} {bs : List UInt8} (h : n.Spelling bs) : bs ≠ [] := by
  obtain ⟨tail, -, rfl⟩ := h.text
  have hwhole : n.whole.map digitByte ≠ [] :=
    fun hnil => h.whole_ne_nil (List.map_eq_nil_iff.mp hnil)
  exact List.append_ne_nil_of_right_ne_nil _ (List.append_ne_nil_of_left_ne_nil hwhole _)

end Number

end LiveMedia.Json

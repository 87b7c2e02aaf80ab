import LiveMedia.Json.Value
import LiveMedia.Proofs.Json.Numbers

/-!
# Integers in JSON text

An integer is written in decimal, with a sign in front if it is negative, and is read back as the
same integer as long as it lies in the range of 64-bit integers.
-/

namespace LiveMedia.Json
set_option autoImplicit false

def bytesOf (s : String) : List UInt8 := s.toUTF8.data.toList

theorem bytesOf_append (s t : String) : bytesOf (s ++ t) = bytesOf s ++ bytesOf t := by
  unfold bytesOf
  rw [String.toUTF8_eq_toByteArray, String.toByteArray_append, ByteArray.toList_data_append]
  rfl

namespace Number

def digitsOf (n : Nat) : List Nat :=
  if n < 10 then [n] else digitsOf (n / 10) ++ [n % 10]

theorem digitsOf_of_lt {n : Nat} (h : n < 10) : digitsOf n = [n] := by
  rw [digitsOf, if_pos h]

theorem digitsOf_of_le {n : Nat} (h : 10 ≤ n) : digitsOf n = digitsOf (n / 10) ++ [n % 10] := by
  rw [digitsOf, if_neg (Nat.not_lt.mpr h)]

theorem lt_of_mem_digitsOf {n d : Nat} (hd : d ∈ digitsOf n) : d < 10 := by
  induction n using Nat.strongRecOn with
  | ind n ih =>
    by_cases hn : n < 10
    · rw [digitsOf_of_lt hn, List.mem_singleton] at hd
      omega
    · rw [digitsOf_of_le (Nat.not_lt.mp hn)] at hd
      rcases List.mem_append.mp hd with hd | hd
      · exact ih (n / 10) (by omega) hd
      · rw [List.mem_singleton] at hd
        omega

theorem digitsOf_ne_nil (n : Nat) : digitsOf n ≠ [] := by
  by_cases hn : n < 10
  · rw [digitsOf_of_lt hn]
    exact List.cons_ne_nil n []
  · rw [digitsOf_of_le (Nat.not_lt.mp hn)]
    exact List.append_ne_nil_of_right_ne_nil _ (List.cons_ne_nil _ _)

theorem value_digitsOf (n : Nat) : value (digitsOf n) = n := by
  induction n using Nat.strongRecOn with
  | ind n ih =>
    by_cases hn : n < 10
    · rw [digitsOf_of_lt hn]
      exact Nat.zero_add n
    · have hrest := ih (n / 10) (by omega)
      unfold value at hrest ⊢
      rw [digitsOf_of_le (Nat.not_lt.mp hn), List.foldl_append, hrest]
      change n / 10 * 10 + n % 10 = n
      omega

theorem digitsOf_zero_first {n : Nat} (h : (digitsOf n).head? = some 0) : n = 0 := by
  induction n using Nat.strongRecOn with
  | ind n ih =>
    by_cases hn : n < 10
    · rw [digitsOf_of_lt hn] at h
      exact Option.some.inj h
    · have hhead : (digitsOf (n / 10)).head? = some 0 := by
        rw [digitsOf_of_le (Nat.not_lt.mp hn), List.head?_append] at h
        cases hd : (digitsOf (n / 10)).head? with
        | none => exact absurd (List.head?_eq_none_iff.mp hd) (digitsOf_ne_nil _)
        | some d => rwa [hd] at h
      have hzero := ih (n / 10) (by omega) hhead
      omega

theorem length_digitsOf_le {n k : Nat} (hk : 0 < k) (h : n < 10 ^ k) :
    (digitsOf n).length ≤ k := by
  induction k generalizing n with
  | zero => omega
  | succ k ih =>
    by_cases hn : n < 10
    · rw [digitsOf_of_lt hn]
      exact Nat.le_add_left 1 k
    · rw [digitsOf_of_le (Nat.not_lt.mp hn), List.length_append, List.length_singleton]
      have hkpos : 0 < k := by
        rcases Nat.eq_zero_or_pos k with rfl | hpos
        · omega
        · exact hpos
      have hrest : n / 10 < 10 ^ k := by
        rw [Nat.pow_succ] at h
        omega
      exact Nat.succ_le_succ (ih hkpos hrest)

def ofInt (n : Int) : Number := ⟨n < 0, digitsOf n.natAbs, [], none⟩

def signBytes (n : Int) : List UInt8 := if n < 0 then [45] else []

theorem spelling_ofInt (n : Int) :
    (ofInt n).Spelling (signBytes n ++ (digitsOf n.natAbs).map digitByte) where
  whole_ne_nil := digitsOf_ne_nil _
  whole_digits _ := lt_of_mem_digitsOf
  zero_alone h := by
    change (digitsOf n.natAbs).length = 1
    rw [digitsOf_zero_first h, digitsOf_of_lt (by decide)]
    rfl
  fraction_digits := nofun
  text := by
    refine ⟨[], .missing, ?_⟩
    unfold signBytes ofInt fractionBytes
    simp

theorem int?_ofInt {n : Int} (hlow : -2 ^ 63 ≤ n) (hhigh : n < 2 ^ 64) :
    (ofInt n).int? = some n := by
  unfold int? ofInt
  rw [if_pos ⟨rfl, rfl⟩, value_digitsOf]
  by_cases hn : n < 0
  · rw [decide_eq_true hn, if_pos rfl, if_pos (by omega)]
    exact congrArg some (by omega)
  · rw [decide_eq_false hn, if_neg Bool.false_ne_true, if_pos (by omega)]
    exact congrArg some (by omega)

end Number

theorem bytesOf_toString (n : Nat) :
    bytesOf (toString n) = (Number.digitsOf n).map Number.digitByte := by
  have hdigit : ∀ d : Fin 10, String.utf8EncodeChar (Nat.digitChar d) = [Number.digitByte d] := by
    decide
  have hencode : ∀ n, (Nat.toDigits 10 n).flatMap String.utf8EncodeChar =
      (Number.digitsOf n).map Number.digitByte := by
    intro n
    induction n using Nat.strongRecOn with
    | ind n ih =>
      by_cases hn : n < 10
      · rw [Nat.toDigits_of_lt_base hn, Number.digitsOf_of_lt hn]
        exact (List.append_nil _).trans (hdigit ⟨n, hn⟩)
      · rw [Nat.toDigits_of_base_le (by decide) (Nat.not_lt.mp hn),
          Number.digitsOf_of_le (Nat.not_lt.mp hn), List.flatMap_append, List.map_append,
          ih (n / 10) (by omega)]
        exact congrArg _ ((List.append_nil _).trans (hdigit ⟨n % 10, Nat.mod_lt n (by decide)⟩))
  rw [← hencode n]
  unfold bytesOf
  change (Nat.repr n).toUTF8.data.toList = _
  rw [Nat.repr_eq_ofList_toDigits, String.toUTF8_eq_toByteArray, String.toByteArray_ofList]
  simp [List.utf8Encode]

theorem bytesOf_intText (n : Int) :
    bytesOf (Value.intText n) =
      Number.signBytes n ++ (Number.digitsOf n.natAbs).map Number.digitByte := by
  unfold Value.intText Number.signBytes
  split
  · rw [bytesOf_append, bytesOf_toString]
    rfl
  · rw [bytesOf_toString]
    rfl

theorem length_intText_le {n : Int} (hlow : -2 ^ 63 ≤ n) (hhigh : n < 2 ^ 64) :
    (bytesOf (Value.intText n)).length ≤ 21 := by
  have hdigits := Number.length_digitsOf_le (n := n.natAbs) (k := 20) (by decide) (by omega)
  rw [bytesOf_intText, List.length_append, List.length_map]
  unfold Number.signBytes
  split
  · rw [List.length_singleton]
    omega
  · rw [List.length_nil]
    omega

end LiveMedia.Json

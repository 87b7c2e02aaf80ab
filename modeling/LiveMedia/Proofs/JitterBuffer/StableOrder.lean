import Mathlib.Data.List.Induction
import Mathlib.Data.List.Sort
import LiveMedia.Proofs.JitterBuffer.Order

/-!
# Entries in stable order

Placing entries one after the other sorts them by slot and leaves those of one slot in the order in
which they came: it is the stable sort of all of them. A stable order is settled by what it holds in
each slot.
-/

namespace LiveMedia
set_option autoImplicit false

section Keys

variable {β κ : Type} [LinearOrder κ] (key : β → κ)

theorem decide_key_trans (x y z : β) (hxy : decide (key x ≤ key y) = true)
    (hyz : decide (key y ≤ key z) = true) : decide (key x ≤ key z) = true :=
  decide_eq_true ((of_decide_eq_true hxy).trans (of_decide_eq_true hyz))

theorem decide_key_total (x y : β) :
    (decide (key x ≤ key y) || decide (key y ≤ key x)) = true := by
  simpa using le_total (key x) (key y)

theorem pairwise_mergeSort_key (l : List β) :
    (l.mergeSort fun x y => decide (key x ≤ key y)).Pairwise fun x y => key x ≤ key y :=
  (List.pairwise_mergeSort (decide_key_trans key) (decide_key_total key) l).imp
    fun hle => of_decide_eq_true hle

end Keys

namespace JitterBuffer

variable {α : Type}

/-- Entries by slot, those of one slot in the order in which they came. -/
def arranged (l : List (JitterEntry α)) : List (JitterEntry α) :=
  l.mergeSort fun x y => decide (x.slot ≤ y.slot)

@[simp] theorem arranged_nil : arranged ([] : List (JitterEntry α)) = [] := List.mergeSort_nil

theorem perm_arranged (l : List (JitterEntry α)) : (arranged l).Perm l := List.mergeSort_perm l _

theorem sorted_arranged (l : List (JitterEntry α)) : Sorted (arranged l) :=
  pairwise_mergeSort_key JitterEntry.slot l

section Slots

variable {l : List (JitterEntry α)}

def inSlot (s : Slot) (l : List (JitterEntry α)) : List (JitterEntry α) :=
  l.filter fun x => decide (x.slot = s)

theorem inSlot_cons (s : Slot) (x : JitterEntry α) (l : List (JitterEntry α)) :
    inSlot s (x :: l) = if x.slot = s then x :: inSlot s l else inSlot s l := by
  unfold inSlot
  by_cases h : x.slot = s <;> simp [h]

theorem inSlot_append (s : Slot) (l r : List (JitterEntry α)) :
    inSlot s (l ++ r) = inSlot s l ++ inSlot s r := List.filter_append ..

theorem inSlot_eq_nil {s : Slot} (h : ∀ x ∈ l, x.slot ≠ s) : inSlot s l = [] := by
  unfold inSlot
  rw [List.filter_eq_nil_iff]
  intro x hx
  simpa using h x hx

/-- The sort keeps the order of entries that share a slot. -/
theorem inSlot_arranged (s : Slot) (l : List (JitterEntry α)) :
    inSlot s (arranged l) = inSlot s l := by
  have hsame : (inSlot s l).Pairwise fun x y => decide (x.slot ≤ y.slot) = true := by
    apply List.pairwise_of_forall_mem_list
    intro x hx y hy
    have hxs : x.slot = s := by simpa using (List.mem_filter.mp hx).2
    have hys : y.slot = s := by simpa using (List.mem_filter.mp hy).2
    simp [hxs, hys]
  have hsub : (inSlot s l).Sublist (arranged l) :=
    List.sublist_mergeSort (decide_key_trans JitterEntry.slot) (decide_key_total JitterEntry.slot)
      hsame List.filter_sublist
  have hkept : (inSlot s l).Sublist (inSlot s (arranged l)) := by
    have hfilter := hsub.filter fun x => decide (x.slot = s)
    have hidem : (inSlot s l).filter (fun x => decide (x.slot = s)) = inSlot s l := by
      unfold inSlot
      rw [List.filter_filter]
      simp
    rwa [hidem] at hfilter
  exact (hkept.eq_of_length ((perm_arranged l).filter _).length_eq.symm).symm

/-- Two lists in the order of their slots are equal when they hold the same in each slot. -/
theorem eq_of_sorted_of_inSlot {l m : List (JitterEntry α)} (hl : Sorted l) (hm : Sorted m)
    (h : ∀ s, inSlot s l = inSlot s m) : l = m := by
  induction l generalizing m with
  | nil =>
    cases m with
    | nil => rfl
    | cons y m =>
      have hy := h y.slot
      rw [inSlot_cons, if_pos rfl] at hy
      cases hy
  | cons x l ih =>
    cases m with
    | nil =>
      have hx := h x.slot
      rw [inSlot_cons, if_pos rfl] at hx
      cases hx
    | cons y m =>
      obtain ⟨hxl, hltail⟩ := List.pairwise_cons.mp hl
      obtain ⟨hym, hmtail⟩ := List.pairwise_cons.mp hm
      -- The first slot of either list occurs in the other, so that the two are the same.
      have hslot : x.slot = y.slot := by
        rcases lt_trichotomy x.slot y.slot with hlt | heq | hgt
        · have hx := h x.slot
          rw [inSlot_cons, if_pos rfl, inSlot_cons, if_neg hlt.ne',
            inSlot_eq_nil fun z hz => (hlt.trans_le (hym z hz)).ne'] at hx
          cases hx
        · exact heq
        · have hy := h y.slot
          rw [inSlot_cons, inSlot_cons, if_pos rfl, if_neg hgt.ne',
            inSlot_eq_nil fun z hz => (hgt.trans_le (hxl z hz)).ne'] at hy
          cases hy
      have hhead := h x.slot
      rw [inSlot_cons, if_pos rfl, inSlot_cons, if_pos hslot.symm, List.cons.injEq] at hhead
      obtain ⟨rfl, _⟩ := hhead
      congr 1
      apply ih hltail hmtail
      intro s
      have hs := h s
      rw [inSlot_cons, inSlot_cons] at hs
      split at hs
      · exact (List.cons.inj hs).2
      · exact hs

end Slots

section Placing

theorem place_append {e : JitterEntry α} {l : List (JitterEntry α)}
    (h : ∀ x ∈ l, x.slot ≤ e.slot) (r : List (JitterEntry α)) :
    place e (l ++ r) = l ++ place e r := by
  induction l with
  | nil => rfl
  | cons x l ih =>
    have hx : e.slot.before x.slot = false := by
      rw [Bool.eq_false_iff, ne_eq, Slot.before_iff_lt]
      exact (h x List.mem_cons_self).not_gt
    rw [List.cons_append, place, hx, if_neg Bool.false_ne_true,
      ih fun y hy => h y (List.mem_cons_of_mem x hy), List.cons_append]

theorem place_of_lt {e : JitterEntry α} {l : List (JitterEntry α)}
    (h : ∀ x ∈ l, e.slot < x.slot) : place e l = e :: l := by
  cases l with
  | nil => rfl
  | cons x l => rw [place, if_pos ((Slot.before_iff_lt _ _).mpr (h x List.mem_cons_self))]

/-- An entry comes behind all that share its slot. -/
theorem inSlot_place {l : List (JitterEntry α)} (h : Sorted l) (s : Slot) (e : JitterEntry α) :
    inSlot s (place e l) = inSlot s l ++ inSlot s [e] := by
  induction l with
  | nil => rfl
  | cons x l ih =>
    obtain ⟨hx, hl⟩ := List.pairwise_cons.mp h
    simp only [place, Slot.before_iff_lt]
    split
    · rename_i hlt
      by_cases hes : e.slot = s
      · have hnone : inSlot s (x :: l) = [] := by
          apply inSlot_eq_nil
          intro y hy
          rw [← hes]
          rcases List.mem_cons.mp hy with rfl | hy
          · exact hlt.ne'
          · exact (hlt.trans_le (hx y hy)).ne'
        rw [inSlot_cons, if_pos hes, hnone, inSlot_cons, if_pos hes]
        rfl
      · rw [inSlot_cons, if_neg hes, inSlot_cons s e, if_neg hes]
        exact (List.append_nil _).symm
    · rw [inSlot_cons, inSlot_cons, ih hl]
      split <;> rfl

theorem arranged_append_singleton (l : List (JitterEntry α)) (e : JitterEntry α) :
    arranged (l ++ [e]) = place e (arranged l) := by
  apply eq_of_sorted_of_inSlot (sorted_arranged _) ((sorted_arranged l).place e)
  intro s
  rw [inSlot_arranged, inSlot_place (sorted_arranged l), inSlot_arranged, inSlot_append]

/-- A new entry drives out the first one, whether it goes in before the last entries or among
them. -/
theorem tail_place_drop {l : List (JitterEntry α)} (h : Sorted l) (e : JitterEntry α) (n : ℕ) :
    (place e (l.drop n)).tail = (place e l).drop (n + 1) := by
  induction l generalizing n with
  | nil => simp [place]
  | cons x l ih =>
    obtain ⟨hx, hl⟩ := List.pairwise_cons.mp h
    cases n with
    | zero => rw [List.drop_zero, List.drop_one]
    | succ n =>
      rw [List.drop_succ_cons]
      simp only [place, Slot.before_iff_lt]
      split
      · rename_i hlt
        rw [place_of_lt fun y hy => hlt.trans_le (hx y (List.mem_of_mem_drop hy)),
          List.tail_cons, List.drop_succ_cons, List.drop_succ_cons]
      · rw [List.drop_succ_cons]
        exact ih hl n

theorem place_concat_of_lt {e x : JitterEntry α} (h : e.slot < x.slot) (l : List (JitterEntry α)) :
    place e (l ++ [x]) = place e l ++ [x] := by
  induction l with
  | nil => exact place_of_lt (l := [x]) fun y hy => List.mem_singleton.mp hy ▸ h
  | cons y l ih =>
    rw [List.cons_append, place, place, ih]
    split <;> rfl

/-- Looks for the place of an entry from the end of a list to its beginning. -/
def seat (e : JitterEntry α) (l : List (JitterEntry α)) : ℕ → ℕ
  | 0 => 0
  | i + 1 => if l[i]?.any fun x => e.slot.before x.slot then seat e l i else i + 1

theorem seat_le (e : JitterEntry α) (l : List (JitterEntry α)) (i : ℕ) : seat e l i ≤ i := by
  induction i with
  | zero => exact Nat.le_refl 0
  | succ i ih =>
    rw [seat]
    split
    · exact ih.trans (Nat.le_succ i)
    · exact Nat.le_refl _

theorem seat_append (e : JitterEntry α) (l r : List (JitterEntry α)) {i : ℕ} (h : i ≤ l.length) :
    seat e (l ++ r) i = seat e l i := by
  induction i with
  | zero => rfl
  | succ i ih => rw [seat, seat, List.getElem?_append_left h, ih (Nat.le_of_succ_le h)]

/-- In sorted entries the search from the end finds where an entry belongs. -/
theorem place_eq_seat {l : List (JitterEntry α)} (h : Sorted l) (e : JitterEntry α) :
    place e l = l.take (seat e l l.length) ++ e :: l.drop (seat e l l.length) := by
  induction l using List.reverseRecOn with
  | nil => rfl
  | append_singleton l x ih =>
    obtain ⟨hl, _, hx⟩ := List.pairwise_append.mp h
    have hle := seat_le e l l.length
    rw [List.length_append, List.length_singleton, seat, List.getElem?_concat_length,
      Option.any_some, seat_append e l [x] (Nat.le_refl _)]
    split
    · rename_i hlt
      rw [place_concat_of_lt ((Slot.before_iff_lt _ _).mp hlt), ih hl,
        List.take_append_of_le_length hle, List.drop_append_of_le_length hle, List.append_assoc,
        List.cons_append]
    · rename_i hge
      rw [Slot.before_iff_lt] at hge
      have hbehind : ∀ y ∈ l ++ [x], y.slot ≤ e.slot := by
        intro y hy
        rcases List.mem_append.mp hy with hy | hy
        · exact (hx y hy x (List.mem_singleton_self x)).trans (not_lt.mp hge)
        · exact List.mem_singleton.mp hy ▸ not_lt.mp hge
      have hplaced := place_append hbehind []
      rw [List.append_nil] at hplaced
      rw [hplaced, ← List.length_singleton (a := x), ← List.length_append, List.take_length,
        List.drop_length]
      rfl

end Placing

end JitterBuffer

end LiveMedia

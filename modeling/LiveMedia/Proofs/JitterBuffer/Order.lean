import Mathlib.Data.Prod.Lex
import LiveMedia.JitterBuffer

/-!
# Order in the jitter buffer

Slots are ordered lexicographically. A buffer is in order when its entries are sorted by slot and
none of them lies before the slot released last. Every operation keeps this, so that entries leave
a buffer in the order of their slots as long as it is not cleared.
-/

namespace LiveMedia
set_option autoImplicit false

namespace Slot

/-- A slot as a pair of numbers in lexicographic order. -/
def key (s : Slot) : ℕ ×ₗ ℕ := toLex (s.group, s.object)

theorem key_injective : Function.Injective key := by
  intro a b h
  have hp : (a.group, a.object) = (b.group, b.object) := toLex.injective h
  cases a
  cases b
  simp_all

instance : LinearOrder Slot := LinearOrder.lift' key key_injective

theorem lt_def (a b : Slot) :
    a < b ↔ a.group < b.group ∨ a.group = b.group ∧ a.object < b.object :=
  Prod.Lex.toLex_lt_toLex

theorem before_iff_lt (a b : Slot) : a.before b = true ↔ a < b := by
  rw [before_iff, lt_def]

end Slot

namespace JitterBuffer

variable {α : Type}

def Sorted (l : List (JitterEntry α)) : Prop := l.Pairwise fun x y => x.slot ≤ y.slot

theorem perm_place (e : JitterEntry α) (l : List (JitterEntry α)) : (place e l).Perm (e :: l) := by
  induction l with
  | nil => exact List.Perm.refl _
  | cons x rest ih =>
    simp only [place]
    split
    · exact List.Perm.refl _
    · exact (ih.cons x).trans (List.Perm.swap e x rest)

theorem mem_place {a e : JitterEntry α} {l : List (JitterEntry α)} :
    a ∈ place e l ↔ a = e ∨ a ∈ l := by
  rw [(perm_place e l).mem_iff, List.mem_cons]

theorem Sorted.place {l : List (JitterEntry α)} (h : Sorted l) (e : JitterEntry α) :
    Sorted (place e l) := by
  induction l with
  | nil => exact List.pairwise_singleton _ e
  | cons x rest ih =>
    obtain ⟨hx, hrest⟩ := List.pairwise_cons.mp h
    simp only [JitterBuffer.place, Slot.before_iff_lt]
    split
    · rename_i hlt
      apply List.pairwise_cons.mpr ⟨?_, h⟩
      intro y hy
      rcases List.mem_cons.mp hy with rfl | hy
      · exact hlt.le
      · exact hlt.le.trans (hx y hy)
    · rename_i hge
      apply List.pairwise_cons.mpr ⟨?_, ih hrest⟩
      intro y hy
      rcases mem_place.mp hy with rfl | hy
      · exact not_lt.mp hge
      · exact hx y hy

theorem isLate_iff (b : JitterBuffer α) (s : Slot) :
    b.isLate s = true ↔ ∃ r, b.released = some r ∧ s < r := by
  unfold isLate
  cases b.released with
  | none => simp
  | some r => simp [Slot.before_iff_lt]

theorem push_cases (b : JitterBuffer α) (now : Nat) (slot : Slot) (payload : α) :
    (b.isLate slot = true ∧
      b.push now slot payload = (.late, { b with lateDrops := b.lateDrops + 1 })) ∨
    (b.isLate slot = false ∧ b.entries.length < b.capacity ∧
      b.push now slot payload =
        (.buffered, { b with entries := place ⟨slot, now, payload⟩ b.entries })) ∨
    (b.isLate slot = false ∧ b.capacity ≤ b.entries.length ∧
      ∃ oldest rest, place ⟨slot, now, payload⟩ b.entries = oldest :: rest ∧
        b.push now slot payload =
          (.evicted oldest,
            { b with entries := rest, overflowDrops := b.overflowDrops + 1 })) := by
  by_cases hl : b.isLate slot = true
  · exact Or.inl ⟨hl, by simp [push, hl]⟩
  · rw [Bool.not_eq_true] at hl
    by_cases hc : b.entries.length < b.capacity
    · refine Or.inr (Or.inl ⟨hl, hc, ?_⟩)
      simp [push, hl, Nat.not_lt.mpr (Nat.succ_le_of_lt hc)]
    · refine Or.inr (Or.inr ⟨hl, not_lt.mp hc, ?_⟩)
      have hlen := length_place ⟨slot, now, payload⟩ b.entries
      cases hp : place ⟨slot, now, payload⟩ b.entries with
      | nil => simp [hp] at hlen
      | cons oldest rest =>
        refine ⟨oldest, rest, rfl, ?_⟩
        have hover : b.capacity < rest.length + 1 := by
          rw [hp, List.length_cons] at hlen
          omega
        simp [push, hl, hp, hover]

theorem push_settings (b : JitterBuffer α) (now : Nat) (slot : Slot) (payload : α) :
    (b.push now slot payload).2.released = b.released ∧
      (b.push now slot payload).2.minDelay = b.minDelay ∧
      (b.push now slot payload).2.capacity = b.capacity := by
  rcases b.push_cases now slot payload with ⟨_, hp⟩ | ⟨_, _, hp⟩ | ⟨_, _, _, _, _, hp⟩
  all_goals rw [hp]; exact ⟨rfl, rfl, rfl⟩

theorem mem_push {b : JitterBuffer α} {now : Nat} {slot : Slot} {payload : α}
    {e : JitterEntry α} (h : e ∈ (b.push now slot payload).2.entries) :
    e = ⟨slot, now, payload⟩ ∨ e ∈ b.entries := by
  rcases b.push_cases now slot payload with ⟨_, hp⟩ | ⟨_, _, hp⟩ | ⟨_, _, oldest, rest, hpl, hp⟩
  · rw [hp] at h
    exact Or.inr h
  · rw [hp] at h
    exact mem_place.mp h
  · rw [hp] at h
    apply mem_place.mp
    rw [hpl]
    exact List.mem_cons_of_mem oldest h

theorem pop?_eq_some_iff {b b' : JitterBuffer α} {now : Nat} {e : JitterEntry α} :
    b.pop? now = some (e, b') ↔
      ∃ rest, b.entries = e :: rest ∧ b.minDelay ≤ now - e.enqueued ∧
        b' = { b with entries := rest, released := some e.slot } := by
  unfold pop?
  cases h : b.entries with
  | nil => simp
  | cons x rest =>
    constructor
    · intro hp
      simp only at hp
      split at hp
      · cases hp
      · rename_i hd
        cases hp
        exact ⟨rest, rfl, not_lt.mp hd, rfl⟩
    · rintro ⟨rest', heq, hd, rfl⟩
      cases heq
      simp [not_lt.mpr hd]

structure InOrder (b : JitterBuffer α) : Prop where
  sorted : Sorted b.entries
  released_le : ∀ r, b.released = some r → ∀ e ∈ b.entries, r ≤ e.slot

theorem inOrder_empty (capacity minDelay : Nat) :
    (empty capacity minDelay : JitterBuffer α).InOrder :=
  ⟨List.Pairwise.nil, fun _ h => by cases h⟩

theorem inOrder_clear (b : JitterBuffer α) : b.clear.InOrder :=
  ⟨List.Pairwise.nil, fun _ h => by cases h⟩

namespace InOrder

variable {b b' : JitterBuffer α}

/-- Placing an entry that is not late keeps the entries behind the slot released last. -/
theorem place (h : b.InOrder) {e : JitterEntry α} (hl : b.isLate e.slot = false) :
    ({ b with entries := JitterBuffer.place e b.entries } : JitterBuffer α).InOrder := by
  refine ⟨h.sorted.place e, ?_⟩
  intro r hr x hx
  rcases mem_place.mp hx with rfl | hx
  · apply not_lt.mp
    intro hlt
    exact Bool.false_ne_true (hl.symm.trans ((isLate_iff b x.slot).mpr ⟨r, hr, hlt⟩))
  · exact h.released_le r hr x hx

theorem push (h : b.InOrder) (now : Nat) (slot : Slot) (payload : α) :
    (b.push now slot payload).2.InOrder := by
  rcases b.push_cases now slot payload with ⟨_, hp⟩ | ⟨hl, _, hp⟩ | ⟨hl, _, oldest, rest, hpl, hp⟩
  · rw [hp]
    exact ⟨h.sorted, h.released_le⟩
  · rw [hp]
    exact h.place (e := ⟨slot, now, payload⟩) hl
  · rw [hp]
    have hplaced := h.place (e := ⟨slot, now, payload⟩) hl
    have hsorted := hplaced.sorted
    have hle := hplaced.released_le
    simp only [hpl] at hsorted hle
    exact ⟨(List.pairwise_cons.mp hsorted).2,
      fun r hr x hx => hle r hr x (List.mem_cons_of_mem oldest hx)⟩

theorem pop (h : b.InOrder) {now : Nat} {e : JitterEntry α} (hp : b.pop? now = some (e, b')) :
    b'.InOrder := by
  obtain ⟨rest, hent, _, rfl⟩ := pop?_eq_some_iff.mp hp
  have hsorted := h.sorted
  rw [hent] at hsorted
  obtain ⟨hle, hrest⟩ := List.pairwise_cons.mp hsorted
  refine ⟨hrest, ?_⟩
  intro r hr x hx
  cases hr
  exact hle x hx

theorem released_le_pop (h : b.InOrder) {now : Nat} {e : JitterEntry α}
    (hp : b.pop? now = some (e, b')) {r : Slot} (hr : b.released = some r) : r ≤ e.slot := by
  obtain ⟨rest, hent, _, _⟩ := pop?_eq_some_iff.mp hp
  exact h.released_le r hr e (hent ▸ List.mem_cons_self)

end InOrder

end JitterBuffer

end LiveMedia

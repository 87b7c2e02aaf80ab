import Mathlib.Data.List.DropRight
import Mathlib.Data.List.MinMax
import LiveMedia.Proofs.JitterBuffer.Delay
import LiveMedia.Proofs.JitterBuffer.StableOrder

/-!
# The jitter buffer as a priority queue

Seen from outside, the jitter buffer is a set of entries with numbers in the order of their arrival.
What leaves it is always the least one, by slot first and then by number. The buffer and the set are
two machines for the same calls; they give the same answers, and the buffer lists the entries of the
set in their order.
-/

namespace LiveMedia
set_option autoImplicit false

variable {α : Type}

/-- An entry with the number of its arrival. -/
structure Arrival (α : Type) where
  number : ℕ
  entry : JitterEntry α

def Arrival.rank (a : Arrival α) : Slot ×ₗ ℕ := toLex (a.entry.slot, a.number)

theorem Arrival.rank_lt_iff (a b : Arrival α) : a.rank < b.rank ↔
    a.entry.slot < b.entry.slot ∨ a.entry.slot = b.entry.slot ∧ a.number < b.number :=
  Prod.Lex.toLex_lt_toLex

/-- A call on a buffer: an operation, or a look at its first entry. -/
inductive Call (α : Type) where
  | op (o : JitterBuffer.Op α)
  | peek

inductive Answer (α : Type) where
  | pushed (outcome : PushOutcome α)
  | popped (e : Option (JitterEntry α))
  | peeked (e : Option (JitterEntry α))
  | cleared

namespace Answer

def isEviction : Answer α → Bool
  | pushed (.evicted _) => true
  | _ => false

def isRejection : Answer α → Bool
  | pushed .late => true
  | _ => false

end Answer

namespace Call

def isPop : Call α → Bool
  | op (.pop _) => true
  | _ => false

def isClear : Call α → Bool
  | op .clear => true
  | _ => false

def added? : Call α → Option (JitterEntry α)
  | op o => o.added?
  | peek => none

def sinceClear (calls : List (Call α)) : List (Call α) := calls.rtakeWhile fun c => !c.isClear

def added (calls : List (Call α)) : List (JitterEntry α) := calls.filterMap added?

end Call

/-- Goes through all calls, with the answers in their order. -/
def serveAll {S : Type} (serve : S → Call α → Answer α × S) : S → List (Call α) →
    List (Answer α) × S
  | s, [] => ([], s)
  | s, c :: rest =>
    let (answer, s) := serve s c
    let (answers, s) := serveAll serve s rest
    (answer :: answers, s)

/-- A set of numbered entries, the least of which comes first. -/
structure PriorityQueue (α : Type) where
  /-- In no particular order. -/
  live : List (Arrival α)
  /-- How many entries have been let in. -/
  arrivals : ℕ
  capacity : ℕ
  minDelay : ℕ
  released : Option Slot

namespace PriorityQueue

def empty (capacity minDelay : ℕ) : PriorityQueue α := ⟨[], 0, max capacity 1, minDelay, none⟩

def least? (q : PriorityQueue α) : Option (Arrival α) := q.live.argmin Arrival.rank

def insert (q : PriorityQueue α) (e : JitterEntry α) : PriorityQueue α :=
  { q with live := ⟨q.arrivals, e⟩ :: q.live, arrivals := q.arrivals + 1 }

def remove (q : PriorityQueue α) (a : Arrival α) : PriorityQueue α :=
  { q with live := q.live.filter fun x => decide (x.rank ≠ a.rank) }

def inOrder (q : PriorityQueue α) : List (Arrival α) :=
  q.live.mergeSort fun x y => decide (x.rank ≤ y.rank)

/-- An entry before the slot released last is refused. One too many drives out the least, be it the
new one. -/
def push (q : PriorityQueue α) (e : JitterEntry α) : PushOutcome α × PriorityQueue α :=
  if q.released.any (e.slot < ·) then (.late, q)
  else
    let q := q.insert e
    if q.capacity < q.live.length then
      match q.least? with
      | some a => (.evicted a.entry, q.remove a)
      | none => (.buffered, q)
    else (.buffered, q)

def pop (q : PriorityQueue α) (now : ℕ) : Option (JitterEntry α) × PriorityQueue α :=
  match q.least? with
  | some a =>
    if q.minDelay ≤ now - a.entry.enqueued then
      (some a.entry, { q.remove a with released := some a.entry.slot })
    else (none, q)
  | none => (none, q)

def serve (q : PriorityQueue α) : Call α → Answer α × PriorityQueue α
  | .op (.push now slot payload) => (q.push ⟨slot, now, payload⟩).map .pushed id
  | .op (.pop now) => (q.pop now).map .popped id
  | .op .clear => (.cleared, { q with live := [], released := none })
  | .peek => (.peeked (q.least?.map Arrival.entry), q)

end PriorityQueue

namespace JitterBuffer

def serve (b : JitterBuffer α) : Call α → Answer α × JitterBuffer α
  | .op (.push now slot payload) =>
    (.pushed (b.push now slot payload).1, b.step (.push now slot payload))
  | .op (.pop now) => (.popped ((b.pop? now).map Prod.fst), b.step (.pop now))
  | .op .clear => (.cleared, b.clear)
  | .peek => (.peeked b.first?, b)

section Representation

/-- The buffer lists the entries of the queue, from the least to the greatest. -/
structure Represents (b : JitterBuffer α) (q : PriorityQueue α) (order : List (Arrival α)) :
    Prop where
  perm : order.Perm q.live
  strict : order.Pairwise fun x y => x.rank < y.rank
  entries : b.entries = order.map Arrival.entry
  numbered : ∀ a ∈ q.live, a.number < q.arrivals
  capacity : b.capacity = q.capacity
  minDelay : b.minDelay = q.minDelay
  released : b.released = q.released

theorem represents_empty (capacity minDelay : ℕ) :
    (empty capacity minDelay).Represents (.empty capacity minDelay) ([] : List (Arrival α)) where
  perm := List.Perm.refl _
  strict := List.Pairwise.nil
  entries := rfl
  numbered := fun _ ha => absurd ha List.not_mem_nil
  capacity := rfl
  minDelay := rfl
  released := rfl

/-- Placing an entry by slot puts the latest arrival where its rank belongs. -/
theorem exists_place {order : List (Arrival α)}
    (hstrict : order.Pairwise fun x y => x.rank < y.rank) {a : Arrival α}
    (hlatest : ∀ x ∈ order, x.number < a.number) :
    ∃ order' : List (Arrival α), order'.Perm (a :: order) ∧
      order'.Pairwise (fun x y => x.rank < y.rank) ∧
      order'.map Arrival.entry = place a.entry (order.map Arrival.entry) := by
  induction order with
  | nil => exact ⟨[a], List.Perm.refl _, List.pairwise_singleton _ a, rfl⟩
  | cons x rest ih =>
    obtain ⟨hx, hrest⟩ := List.pairwise_cons.mp hstrict
    rw [List.map_cons, place]
    simp only [Slot.before_iff_lt]
    split
    · rename_i hlt
      refine ⟨a :: x :: rest, List.Perm.refl _, List.pairwise_cons.mpr ⟨?_, hstrict⟩, rfl⟩
      have hax : a.rank < x.rank := (a.rank_lt_iff x).mpr (Or.inl hlt)
      intro y hy
      rcases List.mem_cons.mp hy with rfl | hy
      · exact hax
      · exact hax.trans (hx y hy)
    · rename_i hge
      obtain ⟨order', hperm, hstrict', hmap⟩ :=
        ih hrest fun y hy => hlatest y (List.mem_cons_of_mem x hy)
      refine ⟨x :: order', (hperm.cons x).trans (List.Perm.swap a x rest),
        List.pairwise_cons.mpr ⟨?_, hstrict'⟩, congrArg (x.entry :: ·) hmap⟩
      have hxa : x.rank < a.rank := by
        rw [Arrival.rank_lt_iff]
        rcases (not_lt.mp hge).lt_or_eq with hlt | heq
        · exact Or.inl hlt
        · exact Or.inr ⟨heq, hlatest x List.mem_cons_self⟩
      intro y hy
      rcases List.mem_cons.mp (hperm.mem_iff.mp hy) with rfl | hy
      · exact hxa
      · exact hx y hy

theorem argmin_eq_head? {order live : List (Arrival α)}
    (hstrict : order.Pairwise fun x y => x.rank < y.rank) (hperm : order.Perm live) :
    live.argmin Arrival.rank = order.head? := by
  cases order with
  | nil => rw [List.nil_perm.mp hperm]; rfl
  | cons a rest =>
    obtain ⟨ha, _⟩ := List.pairwise_cons.mp hstrict
    have hmem : a ∈ live := hperm.mem_iff.mp List.mem_cons_self
    cases hmin : live.argmin Arrival.rank with
    | none =>
      rw [List.argmin_eq_none.mp hmin] at hmem
      exact absurd hmem List.not_mem_nil
    | some m =>
      have hle : m.rank ≤ a.rank := List.le_of_mem_argmin hmem hmin
      rcases List.mem_cons.mp (hperm.mem_iff.mpr (List.argmin_mem hmin)) with rfl | hm
      · rfl
      · exact absurd (ha m hm) hle.not_gt

theorem perm_filter_rank_ne {a : Arrival α} {rest live : List (Arrival α)}
    (hstrict : (a :: rest).Pairwise fun x y => x.rank < y.rank) (hperm : (a :: rest).Perm live) :
    rest.Perm (live.filter fun x => decide (x.rank ≠ a.rank)) := by
  obtain ⟨ha, _⟩ := List.pairwise_cons.mp hstrict
  have hrest : rest.filter (fun x => decide (x.rank ≠ a.rank)) = rest := by
    rw [List.filter_eq_self]
    intro x hx
    simpa using (ha x hx).ne'
  have hfilter := hperm.filter fun x => decide (x.rank ≠ a.rank)
  rw [List.filter_cons_of_neg (by simp), hrest] at hfilter
  exact hfilter

namespace Represents

variable {b : JitterBuffer α} {q : PriorityQueue α} {order : List (Arrival α)}

theorem inOrder_eq (h : b.Represents q order) : q.inOrder = order := by
  have hsorted : q.inOrder.Pairwise fun x y => x.rank ≤ y.rank :=
    pairwise_mergeSort_key Arrival.rank q.live
  have hperm : q.inOrder.Perm order := (List.mergeSort_perm _ _).trans h.perm.symm
  have hinj := List.inj_on_of_nodup_map (List.pairwise_map.mpr (h.strict.imp ne_of_lt))
  refine List.Perm.eq_of_pairwise ?_ hsorted (h.strict.imp le_of_lt) hperm
  intro x y hx hy hxy hyx
  exact hinj (hperm.mem_iff.mp hx) hy (le_antisymm hxy hyx)

theorem sorted (h : b.Represents q order) : Sorted b.entries := by
  rw [h.entries]
  apply List.pairwise_map.mpr
  apply h.strict.imp
  intro x y hxy
  rcases (x.rank_lt_iff y).mp hxy with hlt | ⟨heq, _⟩
  · exact hlt.le
  · exact heq.le

theorem least?_eq (h : b.Represents q order) : q.least? = order.head? :=
  argmin_eq_head? h.strict h.perm

theorem isLate_eq (h : b.Represents q order) (slot : Slot) :
    b.isLate slot = q.released.any (slot < ·) := by
  rw [Bool.eq_iff_iff, isLate_iff, h.released]
  cases q.released <;> simp

theorem insert (h : b.Represents q order) (e : JitterEntry α) :
    ∃ order', ({ b with entries := place e b.entries } : JitterBuffer α).Represents (q.insert e)
      order' := by
  obtain ⟨order', hperm, hstrict, hmap⟩ := exists_place h.strict (a := ⟨q.arrivals, e⟩)
    fun x hx => h.numbered x (h.perm.mem_iff.mp hx)
  refine ⟨order', hperm.trans (h.perm.cons _), hstrict, ?_, ?_, h.capacity, h.minDelay,
    h.released⟩
  · rw [hmap, h.entries]
  · intro a ha
    rcases List.mem_cons.mp ha with rfl | ha
    · exact Nat.lt_succ_self _
    · exact Nat.lt_succ_of_lt (h.numbered a ha)

/-- Without its first entry the buffer lists the queue without its least. -/
theorem remove {a : Arrival α} {rest : List (Arrival α)} (h : b.Represents q (a :: rest))
    (released : Option Slot) (overflowDrops : ℕ) :
    ({ b with
      entries := rest.map Arrival.entry
      released := released
      overflowDrops := overflowDrops } : JitterBuffer α).Represents
      { q.remove a with released := released } rest where
  perm := perm_filter_rank_ne h.strict h.perm
  strict := (List.pairwise_cons.mp h.strict).2
  entries := rfl
  numbered := fun x hx => h.numbered x (List.mem_filter.mp hx).1
  capacity := h.capacity
  minDelay := h.minDelay
  released := rfl

theorem push (h : b.Represents q order) (now : ℕ) (slot : Slot) (payload : α) :
    (b.push now slot payload).1 = (q.push ⟨slot, now, payload⟩).1 ∧
      ∃ order', (b.push now slot payload).2.Represents (q.push ⟨slot, now, payload⟩).2 order' := by
  have hlate := h.isLate_eq slot
  unfold PriorityQueue.push
  rcases b.push_cases now slot payload with ⟨hin, hp⟩ | ⟨hin, hroom, hp⟩ |
    ⟨hin, hfull, oldest, rest, hpl, hp⟩
  · rw [if_pos (hlate.symm.trans hin), hp]
    exact ⟨rfl, order, h.perm, h.strict, h.entries, h.numbered, h.capacity, h.minDelay, h.released⟩
  all_goals
    rw [if_neg (by rw [← hlate, hin]; exact Bool.false_ne_true), hp]
    obtain ⟨order', hinsert⟩ := h.insert ⟨slot, now, payload⟩
    have hlength : (q.insert ⟨slot, now, payload⟩).live.length = b.entries.length + 1 := by
      rw [← hinsert.perm.length_eq, ← List.length_map (f := Arrival.entry), ← hinsert.entries,
        length_place]
    have hcapacity : (q.insert ⟨slot, now, payload⟩).capacity = b.capacity := h.capacity.symm
    simp only [hlength, hcapacity]
  · rw [if_neg (Nat.not_lt.mpr hroom)]
    exact ⟨rfl, order', hinsert⟩
  · rw [if_pos (Nat.lt_succ_of_le hfull), hinsert.least?_eq]
    have hentries := hinsert.entries
    simp only [hpl] at hentries
    cases order' with
    | nil => cases hentries
    | cons a order' =>
      obtain ⟨hfirst, hrest⟩ := List.cons.inj hentries
      refine ⟨congrArg PushOutcome.evicted hfirst, order', ?_⟩
      rw [hrest]
      have hremoved := hinsert.remove b.released (b.overflowDrops + 1)
      rw [h.released] at hremoved ⊢
      exact hremoved

theorem pop (h : b.Represents q order) (now : ℕ) :
    (b.pop? now).map Prod.fst = (q.pop now).1 ∧
      ∃ order', (b.step (.pop now)).Represents (q.pop now).2 order' := by
  unfold PriorityQueue.pop
  rw [h.least?_eq, step]
  unfold pop?
  rw [h.entries]
  cases order with
  | nil => exact ⟨rfl, [], h⟩
  | cons a rest =>
    simp only [List.head?_cons, List.map_cons, h.minDelay]
    by_cases hdelay : q.minDelay ≤ now - a.entry.enqueued
    · simp only [if_pos hdelay, if_neg (Nat.not_lt.mpr hdelay)]
      refine ⟨rfl, rest, ?_⟩
      have hremoved := h.remove (some a.entry.slot) b.overflowDrops
      rw [h.minDelay] at hremoved
      exact hremoved
    · simp only [if_neg hdelay, if_pos (Nat.lt_of_not_le hdelay)]
      exact ⟨rfl, a :: rest, h⟩

theorem serve (h : b.Represents q order) (c : Call α) :
    (b.serve c).1 = (q.serve c).1 ∧
      ∃ order', (b.serve c).2.Represents (q.serve c).2 order' := by
  cases c with
  | op o =>
    cases o with
    | push now slot payload =>
      obtain ⟨houtcome, hnext⟩ := h.push now slot payload
      exact ⟨congrArg Answer.pushed houtcome, hnext⟩
    | pop now =>
      obtain ⟨hreleased, hnext⟩ := h.pop now
      exact ⟨congrArg Answer.popped hreleased, hnext⟩
    | clear =>
      exact ⟨rfl, [], List.Perm.refl _, List.Pairwise.nil, rfl,
        fun _ ha => absurd ha List.not_mem_nil, h.capacity, h.minDelay, rfl⟩
  | peek =>
    refine ⟨congrArg Answer.peeked ?_, order, h⟩
    rw [h.least?_eq, first?, h.entries, List.head?_map]

theorem serveAll (h : b.Represents q order) (calls : List (Call α)) :
    (LiveMedia.serveAll JitterBuffer.serve b calls).1 =
        (LiveMedia.serveAll PriorityQueue.serve q calls).1 ∧
      ∃ order', (LiveMedia.serveAll JitterBuffer.serve b calls).2.Represents
        (LiveMedia.serveAll PriorityQueue.serve q calls).2 order' := by
  induction calls generalizing b q order with
  | nil => exact ⟨rfl, order, h⟩
  | cons c rest ih =>
    obtain ⟨hanswer, _, hnext⟩ := h.serve c
    obtain ⟨hanswers, hlast⟩ := ih hnext
    exact ⟨congrArg₂ List.cons hanswer hanswers, hlast⟩

end Represents

end Representation

theorem serve_push (b : JitterBuffer α) (now : ℕ) (slot : Slot) (payload : α) :
    b.serve (.op (.push now slot payload)) =
      (.pushed (b.push now slot payload).1, (b.push now slot payload).2) := rfl

theorem serve_pop (b : JitterBuffer α) (now : ℕ) : b.serve (.op (.pop now)) =
    (.popped ((b.pop? now).map Prod.fst), b.step (.pop now)) := rfl

theorem serve_counts (b : JitterBuffer α) (c : Call α) :
    (b.serve c).2.overflowDrops =
        b.overflowDrops + (if (b.serve c).1.isEviction then 1 else 0) ∧
      (b.serve c).2.lateDrops = b.lateDrops + (if (b.serve c).1.isRejection then 1 else 0) := by
  cases c with
  | op o =>
    cases o with
    | push now slot payload =>
      rw [serve_push]
      rcases b.push_cases now slot payload with ⟨_, hp⟩ | ⟨_, _, hp⟩ | ⟨_, _, _, _, _, hp⟩
      all_goals rw [hp]; exact ⟨rfl, rfl⟩
    | pop now =>
      rw [serve_pop]
      obtain ⟨_, _, h⟩ := b.step_pop_footprint now
      rw [h]
      exact ⟨rfl, rfl⟩
    | clear => exact ⟨rfl, rfl⟩
  | peek => exact ⟨rfl, rfl⟩

theorem serveAll_counts (b : JitterBuffer α) (calls : List (Call α)) :
    (serveAll serve b calls).2.overflowDrops =
        b.overflowDrops + (serveAll serve b calls).1.countP Answer.isEviction ∧
      (serveAll serve b calls).2.lateDrops =
        b.lateDrops + (serveAll serve b calls).1.countP Answer.isRejection := by
  induction calls generalizing b with
  | nil => exact ⟨rfl, rfl⟩
  | cons c rest ih =>
    obtain ⟨hover, hlate⟩ := b.serve_counts c
    obtain ⟨hover', hlate'⟩ := ih (b.serve c).2
    rw [serveAll, List.countP_cons, List.countP_cons]
    simp only
    omega

/-! Without releases a buffer holds the last of what was put in, in stable order. -/

/-- Since it was empty and had released nothing, these entries were put into the buffer. -/
structure Topmost (b : JitterBuffer α) (past : List (JitterEntry α)) : Prop where
  released : b.released = none
  entries : b.entries = (arranged past).rtake (min past.length b.capacity)

namespace Topmost

variable {b : JitterBuffer α} {past : List (JitterEntry α)}

theorem of_empty (hentries : b.entries = []) (hreleased : b.released = none) : b.Topmost [] :=
  ⟨hreleased, by rw [hentries, arranged_nil, List.rtake_nil]⟩

theorem entries_eq_drop (h : b.Topmost past) :
    b.entries = (arranged past).drop (past.length - b.capacity) := by
  rw [h.entries, List.rtake, (perm_arranged past).length_eq]
  congr 1
  omega

theorem push (h : b.Topmost past) (now : ℕ) (slot : Slot) (payload : α) :
    (b.push now slot payload).2.Topmost (past ++ [⟨slot, now, payload⟩]) := by
  have hentries := h.entries_eq_drop
  have hlength := congrArg List.length hentries
  rw [List.length_drop, (perm_arranged past).length_eq] at hlength
  obtain ⟨hreleased, _, hcapacity⟩ := b.push_settings now slot payload
  refine ⟨hreleased.trans h.released, ?_⟩
  rw [hcapacity, List.rtake, (perm_arranged _).length_eq, arranged_append_singleton,
    List.length_append, List.length_singleton]
  rcases b.push_cases now slot payload with ⟨hlate, _⟩ | ⟨_, hroom, hp⟩ |
    ⟨_, hfull, oldest, rest, hpl, hp⟩
  · obtain ⟨r, hr, _⟩ := (isLate_iff b slot).mp hlate
    rw [h.released] at hr
    cases hr
  · rw [hp, hentries]
    have hall : past.length - b.capacity = 0 := by omega
    have hnone : past.length + 1 - min (past.length + 1) b.capacity = 0 := by omega
    rw [hall, hnone, List.drop_zero, List.drop_zero]
  · rw [hp]
    have htail := tail_place_drop (sorted_arranged past) ⟨slot, now, payload⟩
      (past.length - b.capacity)
    rw [← hentries, hpl, List.tail_cons] at htail
    have hone : past.length + 1 - min (past.length + 1) b.capacity =
        past.length - b.capacity + 1 := by omega
    rw [hone]
    exact htail

theorem serveAll (h : b.Topmost past) {calls : List (Call α)}
    (hpop : ∀ c ∈ calls, c.isPop = false) (hclear : ∀ c ∈ calls, c.isClear = false) :
    (LiveMedia.serveAll serve b calls).2.Topmost (past ++ Call.added calls) := by
  induction calls generalizing b past with
  | nil =>
    rw [Call.added, List.filterMap_nil, List.append_nil]
    exact h
  | cons c rest ih =>
    have hrest := fun {d : JitterBuffer α} {l : List (JitterEntry α)} (hd : d.Topmost l) =>
      ih hd (fun x hx => hpop x (List.mem_cons_of_mem c hx))
        (fun x hx => hclear x (List.mem_cons_of_mem c hx))
    cases c with
    | op o =>
      cases o with
      | push now slot payload =>
        have hlater := hrest (h.push now slot payload)
        rw [List.append_assoc] at hlater
        exact hlater
      | pop now => exact absurd (hpop _ List.mem_cons_self) (by simp [Call.isPop])
      | clear => exact absurd (hclear _ List.mem_cons_self) (by simp [Call.isClear])
    | peek => exact hrest h

end Topmost

theorem serveAll_append {S : Type} (serve : S → Call α → Answer α × S) (s : S)
    (first second : List (Call α)) :
    (serveAll serve s (first ++ second)).2 =
      (serveAll serve (serveAll serve s first).2 second).2 := by
  induction first generalizing s with
  | nil => rfl
  | cons c rest ih => exact ih (serve s c).2

theorem capacity_serveAll (b : JitterBuffer α) (calls : List (Call α)) :
    (serveAll serve b calls).2.capacity = b.capacity := by
  induction calls generalizing b with
  | nil => rfl
  | cons c rest ih =>
    apply (ih (b.serve c).2).trans
    cases c with
    | op o =>
      cases o with
      | push now slot payload => exact capacity_step b _
      | pop now => exact capacity_step b _
      | clear => rfl
    | peek => rfl

/-- What was put in since the buffer was last cleared, if nothing was released since then. -/
theorem topmost_sinceClear (capacity minDelay : ℕ) {calls : List (Call α)}
    (hpop : ∀ c ∈ Call.sinceClear calls, c.isPop = false) :
    (serveAll serve (empty capacity minDelay) calls).2.Topmost
      (Call.added (Call.sinceClear calls)) := by
  have hclear : ∀ c ∈ Call.sinceClear calls, c.isClear = false := by
    intro c hc
    simpa using List.mem_rtakeWhile_imp hc
  have hbefore : (serveAll serve (empty capacity minDelay)
      (calls.rdropWhile fun c => !c.isClear)).2.Topmost [] := by
    rcases List.eq_nil_or_concat (calls.rdropWhile fun c => !c.isClear) with hnil | ⟨first, c, hc⟩
    · rw [hnil]
      exact Topmost.of_empty rfl rfl
    · have hlast := List.rdropWhile_last_not (fun c : Call α => !c.isClear) calls (by rw [hc]; simp)
      simp only [hc, List.concat_eq_append, List.getLast_append_singleton] at hlast
      rw [hc, List.concat_eq_append, serveAll_append]
      cases c with
      | op o =>
        cases o with
        | push now slot payload => exact absurd rfl hlast
        | pop now => exact absurd rfl hlast
        | clear => exact Topmost.of_empty rfl rfl
      | peek => exact absurd rfl hlast
  have hsplit : (calls.rdropWhile fun c => !c.isClear) ++ Call.sinceClear calls = calls :=
    List.rdropWhile_append_rtakeWhile
  have hlast := hbefore.serveAll hpop hclear
  rw [← serveAll_append, hsplit] at hlast
  exact hlast

/-- The buffer answers every call as the queue does, and lists the entries of the queue in their
order; looking for a place from the end finds it. It counts what it drives out and what it refuses.
Where nothing has been released since it was last cleared, it holds as many of the last of all that
was put in, in stable order, as it can. -/
theorem refines_priority_queue (capacity minDelay : ℕ) (calls : List (Call α)) :
    let b := serveAll serve (empty capacity minDelay : JitterBuffer α) calls
    let q := serveAll PriorityQueue.serve (.empty capacity minDelay) calls
    b.1 = q.1 ∧ b.2.entries = q.2.inOrder.map Arrival.entry ∧
    (∀ e, place e b.2.entries = b.2.entries.take (seat e b.2.entries b.2.entries.length) ++
      e :: b.2.entries.drop (seat e b.2.entries b.2.entries.length)) ∧
    b.2.overflowDrops = b.1.countP Answer.isEviction ∧
    b.2.lateDrops = b.1.countP Answer.isRejection ∧
    ((∀ c ∈ Call.sinceClear calls, c.isPop = false) →
      b.2.entries = (arranged (Call.added (Call.sinceClear calls))).rtake
        (min (Call.added (Call.sinceClear calls)).length (max capacity 1))) := by
  intro b q
  obtain ⟨hanswers, order, hrepresents⟩ := (represents_empty capacity minDelay).serveAll calls
  obtain ⟨hover, hlate⟩ := serveAll_counts (empty capacity minDelay) calls
  refine ⟨hanswers, ?_, place_eq_seat hrepresents.sorted, ?_, ?_, ?_⟩
  · rw [hrepresents.inOrder_eq]
    exact hrepresents.entries
  · exact hover.trans (Nat.zero_add _)
  · exact hlate.trans (Nat.zero_add _)
  · intro hpop
    have hentries := (topmost_sinceClear capacity minDelay hpop).entries
    rw [capacity_serveAll] at hentries
    exact hentries

/-- A full buffer drives out the entry that has just come if it is the least, and what was released
before the buffer was cleared makes no entry late. -/
theorem least_arrival_driven_out :
    let calls : List (Call ℕ) := [.op (.push 0 ⟨9, 0⟩ 0), .op (.pop 5), .op (.push 5 ⟨8, 0⟩ 1),
      .op .clear, .op (.push 6 ⟨1, 0⟩ 2), .op (.push 6 ⟨1, 0⟩ 3), .op (.push 7 ⟨0, 4⟩ 4), .peek]
    let b := serveAll serve (empty 2 5) calls
    b.2.lateDrops = 1 ∧ b.1.countP Answer.isEviction = 1 ∧
    b.2.entries.map JitterEntry.payload = [2, 3] ∧
    (∀ c ∈ Call.sinceClear calls, c.isPop = false) ∧
    b.2.entries = (arranged [⟨⟨1, 0⟩, 6, 2⟩, ⟨⟨1, 0⟩, 6, 3⟩, ⟨⟨0, 4⟩, 7, 4⟩]).rtake 2 := by
  intro calls b
  have hpop : ∀ c ∈ Call.sinceClear calls, c.isPop = false := by decide
  obtain ⟨_, _, _, hover, _, hlast⟩ := refines_priority_queue 2 5 calls
  exact ⟨by decide, hover ▸ by decide, by decide, hpop, hlast hpop⟩

end JitterBuffer

end LiveMedia

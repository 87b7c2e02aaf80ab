import LiveMedia.Proofs.JitterBuffer.Order

/-!
# Delay in the jitter buffer

Nothing is released before it has waited for the least delay. An entry that is put in less than this
delay after every later one is therefore never too late, and as long as nothing overflows it comes
out again.
-/

namespace LiveMedia
set_option autoImplicit false

namespace JitterBuffer

variable {α : Type}

inductive Op (α : Type) where
  | push (now : Nat) (slot : Slot) (payload : α)
  | pop (now : Nat)
  | clear

namespace Op

def time? : Op α → Option Nat
  | push now _ _ => some now
  | pop now => some now
  | clear => none

def added? : Op α → Option (JitterEntry α)
  | push now slot payload => some ⟨slot, now, payload⟩
  | _ => none

end Op

def pushed (ops : List (Op α)) : List (JitterEntry α) := ops.filterMap Op.added?

theorem pushed_cons (op : Op α) (rest : List (Op α)) :
    pushed (op :: rest) = op.added?.toList ++ pushed rest := by
  unfold pushed
  cases hentry : op.added? with
  | none => rw [List.filterMap_cons_none hentry]; rfl
  | some e => rw [List.filterMap_cons_some hentry]; rfl

/-- The time of the first operation, or any time at hand if it has none. -/
theorem exists_time_of_cons {now : Nat} {op : Op α} {rest : List (Op α)}
    (htimes : (now :: (op :: rest).filterMap Op.time?).Pairwise (· ≤ ·)) :
    ∃ later, now ≤ later ∧ (∀ time, op.time? = some time → time = later) ∧
      (later :: rest.filterMap Op.time?).Pairwise (· ≤ ·) := by
  cases htime : op.time? with
  | none =>
    rw [List.filterMap_cons_none htime] at htimes
    exact ⟨now, Nat.le_refl now, fun _ ht => (Option.some_ne_none _ ht.symm).elim, htimes⟩
  | some time =>
    rw [List.filterMap_cons_some htime] at htimes
    obtain ⟨hle, htimes⟩ := List.pairwise_cons.mp htimes
    exact ⟨time, hle time List.mem_cons_self, fun _ ht => (Option.some.inj ht).symm, htimes⟩

def step (b : JitterBuffer α) : Op α → JitterBuffer α
  | .push now slot payload => (b.push now slot payload).2
  | .pop now =>
    match b.pop? now with
    | none => b
    | some (_, b) => b
  | .clear => b.clear

def run (b : JitterBuffer α) (ops : List (Op α)) : JitterBuffer α := ops.foldl step b

@[simp] theorem run_nil (b : JitterBuffer α) : b.run [] = b := rfl

@[simp] theorem run_cons (b : JitterBuffer α) (op : Op α) (rest : List (Op α)) :
    b.run (op :: rest) = (b.step op).run rest := rfl

def popped? (b : JitterBuffer α) : Op α → Option (JitterEntry α)
  | .pop now => (b.pop? now).map Prod.fst
  | _ => none

def popped (b : JitterBuffer α) : List (Op α) → List (JitterEntry α)
  | [] => []
  | op :: rest => (b.popped? op).toList ++ (b.step op).popped rest

theorem step_push (b : JitterBuffer α) (now : Nat) (slot : Slot) (payload : α) :
    b.step (.push now slot payload) = (b.push now slot payload).2 := rfl

theorem step_pop_cases (b : JitterBuffer α) (now : Nat) :
    (b.pop? now = none ∧ b.step (.pop now) = b) ∨
    ∃ e b', b.pop? now = some (e, b') ∧ b.step (.pop now) = b' := by
  have hstep : b.step (.pop now) = match b.pop? now with
      | none => b
      | some (_, b) => b := rfl
  rw [hstep]
  cases b.pop? now with
  | none => exact Or.inl ⟨rfl, rfl⟩
  | some released => exact Or.inr ⟨_, _, rfl, rfl⟩

theorem step_pop_footprint (b : JitterBuffer α) (now : Nat) :
    ∃ entries released,
      b.step (.pop now) = { b with entries := entries, released := released } := by
  rcases b.step_pop_cases now with ⟨_, hs⟩ | ⟨e, b', hp, hs⟩
  · exact ⟨b.entries, b.released, hs⟩
  · obtain ⟨_, _, _, hb⟩ := pop?_eq_some_iff.mp hp
    exact ⟨_, _, hs.trans hb⟩

theorem settings_step (b : JitterBuffer α) (op : Op α) :
    (b.step op).minDelay = b.minDelay ∧ (b.step op).capacity = b.capacity := by
  cases op with
  | push now slot payload => exact (b.push_settings now slot payload).2
  | pop now =>
    obtain ⟨_, _, h⟩ := b.step_pop_footprint now
    rw [h]
    exact ⟨rfl, rfl⟩
  | clear => exact ⟨rfl, rfl⟩

theorem minDelay_step (b : JitterBuffer α) (op : Op α) : (b.step op).minDelay = b.minDelay :=
  (b.settings_step op).1

theorem capacity_step (b : JitterBuffer α) (op : Op α) : (b.step op).capacity = b.capacity :=
  (b.settings_step op).2

theorem overflowDrops_le_step (b : JitterBuffer α) (op : Op α) :
    b.overflowDrops ≤ (b.step op).overflowDrops := by
  cases op with
  | push now slot payload =>
    rw [step_push]
    rcases b.push_cases now slot payload with ⟨_, hp⟩ | ⟨_, _, hp⟩ | ⟨_, _, _, _, _, hp⟩
    · rw [hp]
    · rw [hp]
    · rw [hp]
      exact Nat.le_succ _
  | pop now =>
    obtain ⟨_, _, h⟩ := b.step_pop_footprint now
    rw [h]
  | clear => exact Nat.le_refl _

theorem overflowDrops_le_run (b : JitterBuffer α) (ops : List (Op α)) :
    b.overflowDrops ≤ (b.run ops).overflowDrops := by
  induction ops generalizing b with
  | nil => exact Nat.le_refl _
  | cons op rest ih => exact (b.overflowDrops_le_step op).trans (ih (b.step op))

/-- The buffer at some time after these entries were put in. -/
structure Timed (b : JitterBuffer α) (past : List (JitterEntry α)) (now : Nat) : Prop where
  enqueued : ∀ e ∈ past, e.enqueued ≤ now
  entries : ∀ e ∈ b.entries, e ∈ past
  /-- What was released last had waited for the least delay. -/
  released : ∀ r, b.released = some r →
    ∃ e ∈ past, e.slot = r ∧ e.enqueued + b.minDelay ≤ now

namespace Timed

variable {b : JitterBuffer α} {past : List (JitterEntry α)} {now : Nat}

theorem later (h : b.Timed past now) {time : Nat} (ht : now ≤ time) : b.Timed past time := by
  refine ⟨fun e he => (h.enqueued e he).trans ht, h.entries, fun r hr => ?_⟩
  obtain ⟨e, he, hslot, hdelay⟩ := h.released r hr
  exact ⟨e, he, hslot, hdelay.trans ht⟩

theorem push (h : b.Timed past now) (slot : Slot) (payload : α) :
    (b.push now slot payload).2.Timed (past ++ [⟨slot, now, payload⟩]) now := by
  obtain ⟨hreleased, hdelay, _⟩ := b.push_settings now slot payload
  refine ⟨?_, ?_, ?_⟩
  · intro e he
    rcases List.mem_append.mp he with he | he
    · exact h.enqueued e he
    · rw [List.mem_singleton.mp he]
  · intro e he
    rcases mem_push he with rfl | he
    · exact List.mem_append_right past (List.mem_singleton_self _)
    · exact List.mem_append_left _ (h.entries e he)
  · intro r hr
    rw [hreleased] at hr
    obtain ⟨e, he, hslot, hwaited⟩ := h.released r hr
    exact ⟨e, List.mem_append_left _ he, hslot, hdelay ▸ hwaited⟩

theorem pop (h : b.Timed past now) {e : JitterEntry α} {b' : JitterBuffer α}
    (hp : b.pop? now = some (e, b')) : b'.Timed past now := by
  obtain ⟨rest, hent, hdelay, rfl⟩ := pop?_eq_some_iff.mp hp
  have hmem : e ∈ past := h.entries e (hent ▸ List.mem_cons_self)
  refine ⟨h.enqueued, fun x hx => h.entries x (hent ▸ List.mem_cons_of_mem e hx), ?_⟩
  intro r hr
  have henqueued := h.enqueued e hmem
  refine ⟨e, hmem, Option.some.inj hr, ?_⟩
  change e.enqueued + b.minDelay ≤ now
  omega

theorem clear (h : b.Timed past now) : b.clear.Timed past now :=
  ⟨h.enqueued, fun _ he => absurd he List.not_mem_nil, fun _ hr => by cases hr⟩

theorem step (h : b.Timed past now) {op : Op α} (ht : ∀ time, op.time? = some time → time = now) :
    (b.step op).Timed (past ++ op.added?.toList) now := by
  cases op with
  | push time slot payload =>
    rw [ht time rfl]
    exact h.push slot payload
  | pop time =>
    rw [ht time rfl, show (Op.pop now : Op α).added?.toList = [] from rfl, List.append_nil]
    rcases b.step_pop_cases now with ⟨_, hs⟩ | ⟨e, b', hp, hs⟩
    · rwa [hs]
    · rw [hs]
      exact h.pop hp
  | clear =>
    rw [show (Op.clear : Op α).added?.toList = [] from rfl, List.append_nil]
    exact h.clear

/-- An entry that comes less than the least delay after every later one is not too late. -/
theorem not_isLate (h : b.Timed past now) {slot : Slot}
    (hprompt : ∀ y ∈ past, slot < y.slot → now < y.enqueued + b.minDelay) :
    b.isLate slot = false := by
  rw [Bool.eq_false_iff, ne_eq, isLate_iff]
  rintro ⟨r, hr, hlt⟩
  obtain ⟨y, hy, rfl, hwaited⟩ := h.released r hr
  have := hprompt y hy hlt
  omega

end Timed

/-- An entry that belongs before another one comes less than this delay after it. -/
def Prompt (delay : Nat) (earlier later : JitterEntry α) : Prop :=
  later.slot < earlier.slot → later.enqueued < earlier.enqueued + delay

section Conservation

variable {b : JitterBuffer α} {past : List (JitterEntry α)} {now : Nat}
  (keep : JitterEntry α → Bool)

/-- One operation loses nothing of what is prompt, unless the buffer overflows. -/
theorem perm_step (h : b.Timed past now) {op : Op α}
    (ht : ∀ time, op.time? = some time → time = now) (hclear : op ≠ .clear)
    (hprompt : ∀ e, op.added? = some e → keep e = true → ∀ y ∈ past, Prompt b.minDelay y e)
    (hover : (b.step op).overflowDrops = b.overflowDrops) :
    (((b.popped? op).toList ++ (b.step op).entries).filter keep).Perm
      ((b.entries ++ op.added?.toList).filter keep) := by
  cases op with
  | push time slot payload =>
    obtain rfl : time = now := ht time rfl
    change ((b.push time slot payload).2.entries.filter keep).Perm
      ((b.entries ++ [(⟨slot, time, payload⟩ : JitterEntry α)]).filter keep)
    rw [step_push] at hover
    rcases b.push_cases time slot payload with ⟨hlate, hp⟩ | ⟨_, _, hp⟩ | ⟨_, _, _, _, _, hp⟩
    · have hdrop : keep ⟨slot, time, payload⟩ = false := by
        rw [Bool.eq_false_iff]
        intro hkeep
        have hin := h.not_isLate (hprompt _ rfl hkeep)
        rw [hlate] at hin
        cases hin
      have hnone : [(⟨slot, time, payload⟩ : JitterEntry α)].filter keep = [] := by simp [hdrop]
      rw [hp, List.filter_append, hnone, List.append_nil]
    · rw [hp]
      exact (perm_place _ _).trans (List.perm_append_singleton _ _).symm |>.filter keep
    · rw [hp] at hover
      exact absurd hover (Nat.succ_ne_self _)
  | pop time =>
    obtain rfl : time = now := ht time rfl
    rw [show (Op.pop time : Op α).added?.toList = [] from rfl, List.append_nil]
    have hpopped : b.popped? (.pop time) = (b.pop? time).map Prod.fst := rfl
    rw [hpopped]
    rcases b.step_pop_cases time with ⟨hp, hs⟩ | ⟨e, b', hp, hs⟩
    · rw [hs, hp]
      exact List.Perm.refl _
    · obtain ⟨rest, hent, _, hb⟩ := pop?_eq_some_iff.mp hp
      rw [hs, hp, hent, hb]
      exact List.Perm.refl _
  | clear => exact absurd rfl hclear

/-- What is prompt comes out of the buffer or is still in it, unless the buffer overflows. -/
theorem perm_popped (h : b.Timed past now) {ops : List (Op α)}
    (htimes : (now :: ops.filterMap Op.time?).Pairwise (· ≤ ·)) (hclear : ∀ op ∈ ops, op ≠ .clear)
    (hprompt : (past ++ pushed ops).Pairwise fun y x => keep x = true → Prompt b.minDelay y x)
    (hover : (b.run ops).overflowDrops = b.overflowDrops) :
    ((b.popped ops ++ (b.run ops).entries).filter keep).Perm
      ((b.entries ++ pushed ops).filter keep) := by
  induction ops generalizing b past now with
  | nil => simp [popped, pushed]
  | cons op rest ih =>
    obtain ⟨later, hnow, hop, hrest⟩ := exists_time_of_cons htimes
    have hdrops := b.overflowDrops_le_step op
    have hdrops' := (b.step op).overflowDrops_le_run rest
    rw [run_cons] at hover
    rw [pushed_cons, ← List.append_assoc] at hprompt
    have hpast := h.later hnow
    have hstep := perm_step keep hpast hop (hclear op List.mem_cons_self) (by
      intro e he hkeep y hy
      have hleft := (List.pairwise_append.mp hprompt).1
      rw [he] at hleft
      exact (List.pairwise_append.mp hleft).2.2 y hy e (List.mem_singleton_self e) hkeep)
      (by omega)
    have hlater := ih (hpast.step hop) hrest (fun x hx => hclear x (List.mem_cons_of_mem op hx))
      (by rw [minDelay_step]; exact hprompt) (by omega)
    simp only [List.filter_append] at hstep hlater ⊢
    rw [run_cons, pushed_cons, popped, List.filter_append, List.filter_append, List.append_assoc]
    apply (hlater.append_left _).trans
    rw [← List.append_assoc, ← List.append_assoc]
    exact hstep.append_right _

end Conservation

end JitterBuffer

end LiveMedia

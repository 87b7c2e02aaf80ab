import Mathlib.Data.List.Infix
import LiveMedia.Proofs.JitterBuffer.Delay
import LiveMedia.Proofs.JitterBuffer.StableOrder

/-!
# What the jitter buffer puts right

Entries that come less than the least delay after every one that belongs behind them are put right,
as long as the buffer has room for all that waits in it: nothing is refused, nothing is driven out,
and what has been released and what is left make up the stable order of all that was put in.
-/

namespace LiveMedia
set_option autoImplicit false

namespace JitterBuffer

variable {α : Type}

instance (delay : ℕ) (x y : JitterEntry α) : Decidable (Prompt delay x y) :=
  inferInstanceAs (Decidable (y.slot < x.slot → y.enqueued < x.enqueued + delay))

def outcome? (b : JitterBuffer α) : Op α → Option (PushOutcome α)
  | .push now slot payload => some (b.push now slot payload).1
  | _ => none

def outcomes (b : JitterBuffer α) : List (Op α) → List (PushOutcome α)
  | [] => []
  | op :: rest => (b.outcome? op).toList ++ (b.step op).outcomes rest

/-- Entries are put in and taken out, in the order of time and each of them promptly, and never more
of them wait than the buffer can hold. -/
structure Tolerable (capacity minDelay : ℕ) (ops : List (Op α)) : Prop where
  ne_clear : ∀ op ∈ ops, op ≠ .clear
  times : (ops.filterMap Op.time?).Pairwise (· ≤ ·)
  prompt : (pushed ops).Pairwise (Prompt minDelay)
  room : ∀ first ∈ ops.inits, (pushed first).length ≤
    ((empty capacity minDelay : JitterBuffer α).popped first).length + max capacity 1

/-- After these entries were put in and those were released, the released ones and what is left make
up the stable order of all, and whatever is not late belongs behind the released ones. -/
structure Keeps (b : JitterBuffer α) (past out : List (JitterEntry α)) (now : ℕ) : Prop where
  timed : b.Timed past now
  arranged : out ++ b.entries = arranged past
  released : ∀ e ∈ out, ∃ r, b.released = some r ∧ e.slot ≤ r

theorem keeps_empty (capacity minDelay : ℕ) :
    (empty capacity minDelay : JitterBuffer α).Keeps [] [] 0 where
  timed := ⟨fun _ he => absurd he List.not_mem_nil, fun _ he => absurd he List.not_mem_nil,
    fun _ hr => by cases hr⟩
  arranged := arranged_nil.symm
  released := fun _ he => absurd he List.not_mem_nil

namespace Keeps

variable {b : JitterBuffer α} {past out : List (JitterEntry α)} {now : ℕ}

theorem later (h : b.Keeps past out now) {time : ℕ} (ht : now ≤ time) : b.Keeps past out time :=
  ⟨h.timed.later ht, h.arranged, h.released⟩

theorem length_entries (h : b.Keeps past out now) :
    out.length + b.entries.length = past.length := by
  rw [← List.length_append, h.arranged, (perm_arranged past).length_eq]

theorem push (h : b.Keeps past out now) {slot : Slot} {payload : α}
    (hprompt : ∀ y ∈ past, Prompt b.minDelay y ⟨slot, now, payload⟩)
    (hroom : past.length < out.length + b.capacity) :
    (b.push now slot payload).1 = .buffered ∧
      (b.push now slot payload).2.Keeps (past ++ [⟨slot, now, payload⟩]) out now := by
  have hlate : b.isLate slot = false := h.timed.not_isLate hprompt
  have hlength := h.length_entries
  have htimed := h.timed.push slot payload
  rcases b.push_cases now slot payload with ⟨hin, _⟩ | ⟨_, _, hp⟩ | ⟨_, hfull, _⟩
  · rw [hlate] at hin
    cases hin
  · rw [hp] at htimed ⊢
    refine ⟨rfl, htimed, ?_, h.released⟩
    have hbehind : ∀ e ∈ out, e.slot ≤ slot := by
      intro e he
      obtain ⟨r, hr, hle⟩ := h.released e he
      rw [Bool.eq_false_iff, ne_eq, isLate_iff] at hlate
      exact hle.trans (not_lt.mp fun hlt => hlate ⟨r, hr, hlt⟩)
    have hplaced := place_append (e := ⟨slot, now, payload⟩) hbehind b.entries
    rw [arranged_append_singleton, ← h.arranged, hplaced]
  · omega

theorem pop (h : b.Keeps past out now) {e : JitterEntry α} {b' : JitterBuffer α}
    (hp : b.pop? now = some (e, b')) : b'.Keeps past (out ++ [e]) now := by
  have htimed := h.timed.pop hp
  obtain ⟨rest, hent, _, rfl⟩ := pop?_eq_some_iff.mp hp
  have harranged := h.arranged
  rw [hent] at harranged
  refine ⟨htimed, ?_, ?_⟩
  · rw [List.append_assoc]
    exact harranged
  · intro x hx
    refine ⟨e.slot, rfl, ?_⟩
    rcases List.mem_append.mp hx with hx | hx
    · have hsorted : Sorted (out ++ e :: rest) := harranged ▸ sorted_arranged past
      exact (List.pairwise_append.mp hsorted).2.2 x hx e List.mem_cons_self
    · rw [List.mem_singleton.mp hx]

theorem step (h : b.Keeps past out now) {op : Op α}
    (ht : ∀ time, op.time? = some time → time = now) (hclear : op ≠ .clear)
    (hprompt : ∀ e, op.added? = some e → ∀ y ∈ past, Prompt b.minDelay y e)
    (hroom : (past ++ op.added?.toList).length ≤
      (out ++ (b.popped? op).toList).length + b.capacity) :
    (∀ o ∈ b.outcome? op, o = .buffered) ∧
      (b.step op).Keeps (past ++ op.added?.toList) (out ++ (b.popped? op).toList) now := by
  cases op with
  | push time slot payload =>
    obtain rfl : time = now := ht time rfl
    change (past ++ [(⟨slot, time, payload⟩ : JitterEntry α)]).length ≤
      (out ++ []).length + b.capacity at hroom
    rw [List.append_nil, List.length_append, List.length_singleton] at hroom
    obtain ⟨hbuffered, hkeeps⟩ := h.push (hprompt _ rfl) hroom
    refine ⟨fun o ho => ?_, ?_⟩
    · exact (Option.mem_some_iff.mp ho) ▸ hbuffered
    · rw [step_push]
      change Keeps _ (past ++ [_]) (out ++ []) time
      rwa [List.append_nil]
  | pop time =>
    obtain rfl : time = now := ht time rfl
    refine ⟨fun o ho => (Option.not_mem_none o ho).elim, ?_⟩
    change Keeps _ (past ++ []) (out ++ ((b.pop? time).map Prod.fst).toList) time
    rw [List.append_nil]
    rcases b.step_pop_cases time with ⟨hp, hs⟩ | ⟨e, b', hp, hs⟩
    · rw [hs, hp]
      change Keeps _ past (out ++ []) time
      rwa [List.append_nil]
    · rw [hs, hp]
      exact h.pop hp
  | clear => exact absurd rfl hclear

theorem run (h : b.Keeps past out now) {ops : List (Op α)}
    (hclear : ∀ op ∈ ops, op ≠ .clear)
    (htimes : (now :: ops.filterMap Op.time?).Pairwise (· ≤ ·))
    (hprompt : (past ++ pushed ops).Pairwise (Prompt b.minDelay))
    (hroom : ∀ first, first <+: ops → (past ++ pushed first).length ≤
      (out ++ b.popped first).length + b.capacity) :
    (∀ o ∈ b.outcomes ops, o = .buffered) ∧
      out ++ b.popped ops ++ (b.run ops).entries = JitterBuffer.arranged (past ++ pushed ops) := by
  induction ops generalizing b past out now with
  | nil =>
    refine ⟨fun o ho => absurd ho List.not_mem_nil, ?_⟩
    rw [popped, run_nil, List.append_nil, pushed, List.filterMap_nil, List.append_nil]
    exact h.arranged
  | cons op rest ih =>
    obtain ⟨later, hnow, hop, hrest⟩ := exists_time_of_cons htimes
    rw [pushed_cons, ← List.append_assoc] at hprompt
    have hfirst : ∀ e, op.added? = some e → ∀ y ∈ past, Prompt b.minDelay y e := by
      intro e he y hy
      have hleft := (List.pairwise_append.mp hprompt).1
      rw [he] at hleft
      exact (List.pairwise_append.mp hleft).2.2 y hy e (List.mem_singleton_self e)
    have hone := hroom [op] (List.prefix_append [op] rest)
    rw [pushed_cons, popped, show (pushed [] : List (JitterEntry α)) = [] from rfl, popped,
      List.append_nil, List.append_nil] at hone
    obtain ⟨hbuffered, hkeeps⟩ :=
      (h.later hnow).step hop (hclear op List.mem_cons_self) hfirst hone
    have hroom' : ∀ first, first <+: rest → (past ++ op.added?.toList ++ pushed first).length ≤
        (out ++ (b.popped? op).toList ++ (b.step op).popped first).length +
          (b.step op).capacity := by
      intro first hprefix
      have hmore := hroom (op :: first) (List.prefix_cons_inj op |>.mpr hprefix)
      rw [pushed_cons, popped, ← List.append_assoc, ← List.append_assoc] at hmore
      rw [capacity_step]
      exact hmore
    obtain ⟨hlater, harranged⟩ := ih hkeeps (fun x hx => hclear x (List.mem_cons_of_mem op hx))
      hrest (by rw [minDelay_step]; exact hprompt) hroom'
    constructor
    · intro o ho
      rcases List.mem_append.mp ho with ho | ho
      · exact hbuffered o (Option.mem_toList.mp ho)
      · exact hlater o ho
    · rw [pushed_cons, popped, run_cons, ← List.append_assoc, ← List.append_assoc]
      exact harranged

end Keeps

namespace Tolerable

variable {capacity minDelay : ℕ} {ops : List (Op α)}

theorem run (h : Tolerable capacity minDelay ops) :
    (∀ o ∈ (empty capacity minDelay).outcomes ops, o = .buffered) ∧
      (empty capacity minDelay).popped ops ++ ((empty capacity minDelay).run ops).entries =
        arranged (pushed ops) :=
  (keeps_empty capacity minDelay).run h.ne_clear
    (List.pairwise_cons.mpr ⟨fun _ _ => Nat.zero_le _, h.times⟩) h.prompt
    fun first hprefix => h.room first ((List.mem_inits first ops).mpr hprefix)

end Tolerable

/-- What an entry is, whenever it came. -/
def content (e : JitterEntry α) : Slot × α := (e.slot, e.payload)

/-- Two arrangements of the same entries, no two of them in one slot, hold them in one order. -/
theorem content_arranged_eq {l m : List (JitterEntry α)}
    (hsame : (l.map content).Perm (m.map content)) (hdistinct : (l.map JitterEntry.slot).Nodup) :
    (arranged l).map content = (arranged m).map content := by
  have hperm : ((arranged l).map content).Perm ((arranged m).map content) :=
    ((perm_arranged l).map content).trans (hsame.trans ((perm_arranged m).map content).symm)
  have hsorted : ∀ n : List (JitterEntry α),
      ((arranged n).map content).Pairwise fun x y => x.1 ≤ y.1 :=
    fun n => List.pairwise_map.mpr (sorted_arranged n)
  have hslots : ((arranged l).map content).map Prod.fst = (arranged l).map JitterEntry.slot := by
    rw [List.map_map]
    rfl
  have hinj := List.inj_on_of_nodup_map (l := (arranged l).map content) (f := Prod.fst)
    (hslots ▸ ((perm_arranged l).map JitterEntry.slot).nodup_iff.mpr hdistinct)
  refine List.Perm.eq_of_pairwise ?_ (hsorted l) (hsorted m) hperm
  intro x y hx hy hxy hyx
  exact hinj hx (hperm.mem_iff.mpr hy) (le_antisymm hxy hyx)

/-- When every entry comes less than the least delay after each one that belongs behind it, and the
buffer has room for all that waits, nothing is refused or driven out, and a buffer that is empty in
the end has released all entries in their stable order. Another order of arrival that is tolerable
leads to the same order of release. -/
theorem reordering_tolerance (capacity minDelay : ℕ) {ops : List (Op α)}
    (h : Tolerable capacity minDelay ops) :
    let b : JitterBuffer α := empty capacity minDelay
    (∀ o ∈ b.outcomes ops, o = .buffered) ∧
    ((b.run ops).entries = [] → b.popped ops = arranged (pushed ops)) ∧
    ∀ (capacity' minDelay' : ℕ) (ops' : List (Op α)), Tolerable capacity' minDelay' ops' →
      let b' : JitterBuffer α := empty capacity' minDelay'
      ((pushed ops).map content).Perm ((pushed ops').map content) →
      ((pushed ops).map JitterEntry.slot).Nodup →
      (b.run ops).entries = [] → (b'.run ops').entries = [] →
      (b.popped ops).map content = (b'.popped ops').map content := by
  intro b
  obtain ⟨hbuffered, harranged⟩ := h.run
  have hdrained : (b.run ops).entries = [] → b.popped ops = arranged (pushed ops) := by
    intro hempty
    rw [← harranged, hempty, List.append_nil]
  refine ⟨hbuffered, hdrained, ?_⟩
  intro capacity' minDelay' ops' h' b' hsame hdistinct hempty hempty'
  obtain ⟨_, harranged'⟩ := h'.run
  rw [hempty', List.append_nil] at harranged'
  rw [hdrained hempty, harranged', content_arranged_eq hsame hdistinct]

/-- Two entries leave in their order, whether or not the second has overtaken the first by nine of
ten microseconds. -/
theorem overtaken_entries_put_right :
    let ops : List (Op ℕ) := [.push 0 ⟨0, 2⟩ 2, .push 9 ⟨0, 1⟩ 1, .pop 19, .pop 19]
    let ops' : List (Op ℕ) := [.push 0 ⟨0, 1⟩ 1, .push 3 ⟨0, 2⟩ 2, .pop 10, .pop 13]
    let b : JitterBuffer ℕ := empty 2 10
    Tolerable 2 10 ops ∧ Tolerable 2 10 ops' ∧ (∀ o ∈ b.outcomes ops, o = .buffered) ∧
      (b.popped ops).length = 2 ∧ (b.popped ops).map content = (b.popped ops').map content := by
  intro ops ops' b
  have h : Tolerable 2 10 ops := ⟨by simp [ops], by decide, by decide, by decide⟩
  have h' : Tolerable 2 10 ops' := ⟨by simp [ops'], by decide, by decide, by decide⟩
  obtain ⟨hbuffered, _, hsame⟩ := reordering_tolerance 2 10 h
  exact ⟨h, h', hbuffered, by decide,
    hsame 2 10 ops' h' (by decide) (by decide) (by decide) (by decide)⟩

/-- An entry that comes after the full delay can be too late. -/
example : ((empty 2 10).run
    [.push 0 ⟨0, 2⟩ 2, .pop 10, .push 10 ⟨0, 1⟩ 1]).lateDrops = 1 := by decide

end JitterBuffer

end LiveMedia

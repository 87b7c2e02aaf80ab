import Mathlib.Data.List.DropRight
import Mathlib.Data.List.Induction
import Mathlib.Data.Nat.Notation
import LiveMedia.BitrateMeter

/-!
# The windows of a bit rate meter

A window is opened by a reset or by the addition that gives a sample, and the sample counts what has
been added since its window was opened. So every byte is in one sample or still pending, and samples
keep a distance of one second however irregular the additions are.
-/

namespace LiveMedia
set_option autoImplicit false

namespace BitrateMeter

inductive Call where
  | add (now bytes : ℕ)
  | reset (now : ℕ)

/-- A call with the sample that came of it. -/
structure Entry where
  call : Call
  sample : Option BitrateSample

namespace Entry

def isReset (e : Entry) : Bool :=
  match e.call with
  | .add _ _ => false
  | .reset _ => true

def bytes (e : Entry) : ℕ :=
  match e.call with
  | .add _ bytes => bytes
  | .reset _ => 0

def sampledBytes (e : Entry) : ℕ := e.sample.elim 0 BitrateSample.bytes

/-- The time of an addition that gave a sample. -/
def sampledAt? (e : Entry) : Option ℕ :=
  match e.call with
  | .add now _ => e.sample.map fun _ => now
  | .reset _ => none

/-- The time at which a call opened a window. -/
def openedAt? (e : Entry) : Option ℕ :=
  match e.call with
  | .add now _ => e.sample.map fun _ => now
  | .reset now => some now

theorem openedAt?_of_isReset {e : Entry} (h : e.isReset = false) : e.openedAt? = e.sampledAt? := by
  obtain ⟨c, sample⟩ := e
  cases c with
  | add now bytes => rfl
  | reset now => cases h

end Entry

def respond (m : BitrateMeter) : Call → Option BitrateSample × BitrateMeter
  | .add now bytes => m.add now bytes
  | .reset now => (none, m.reset now)

def run (m : BitrateMeter) (calls : List Call) : BitrateMeter :=
  calls.foldl (fun m c => (m.respond c).2) m

def log (m : BitrateMeter) : List Call → List Entry
  | [] => []
  | c :: rest => ⟨c, (m.respond c).1⟩ :: (m.respond c).2.log rest

/-- The latest time at which a window was opened; the first one opens with the meter. -/
def windowOpening (start : ℕ) (entries : List Entry) : ℕ :=
  (entries.filterMap Entry.openedAt?).getLastD start

def sinceOpening (entries : List Entry) : List Entry :=
  entries.rtakeWhile fun e => e.openedAt?.isNone

def sinceReset (entries : List Entry) : List Entry := entries.rtakeWhile fun e => !e.isReset

def added (entries : List Entry) : ℕ := entries.foldl (fun total e => total + e.bytes) 0

def sampled (entries : List Entry) : ℕ :=
  entries.foldl (fun total e => total + e.sampledBytes) 0

theorem added_concat (entries : List Entry) (e : Entry) :
    added (entries ++ [e]) = added entries + e.bytes := List.foldl_concat _ _ _ _

theorem sampled_concat (entries : List Entry) (e : Entry) :
    sampled (entries ++ [e]) = sampled entries + e.sampledBytes := List.foldl_concat _ _ _ _

section Concat

variable (start : ℕ) (entries : List Entry) {e : Entry}

theorem windowOpening_concat {t : ℕ} (h : e.openedAt? = some t) :
    windowOpening start (entries ++ [e]) = t := by
  unfold windowOpening
  rw [List.filterMap_append, List.filterMap_cons_some h, List.filterMap_nil, List.getLastD_concat]

theorem windowOpening_concat_of_none (h : e.openedAt? = none) :
    windowOpening start (entries ++ [e]) = windowOpening start entries := by
  unfold windowOpening
  rw [List.filterMap_append, List.filterMap_cons_none h, List.filterMap_nil, List.append_nil]

theorem sinceOpening_concat {t : ℕ} (h : e.openedAt? = some t) :
    sinceOpening (entries ++ [e]) = [] :=
  List.rtakeWhile_concat_neg _ _ _ (by simp [h])

theorem sinceOpening_concat_of_none (h : e.openedAt? = none) :
    sinceOpening (entries ++ [e]) = sinceOpening entries ++ [e] :=
  List.rtakeWhile_concat_pos _ _ _ (by simp [h])

theorem sinceReset_concat (h : e.isReset = true) : sinceReset (entries ++ [e]) = [] :=
  List.rtakeWhile_concat_neg _ _ _ (by simp [h])

theorem sinceReset_concat_of_add (h : e.isReset = false) :
    sinceReset (entries ++ [e]) = sinceReset entries ++ [e] :=
  List.rtakeWhile_concat_pos _ _ _ (by simp [h])

end Concat

theorem add_of_le {m : BitrateMeter} {now : ℕ} (h : m.windowStart + window ≤ now) (bytes : ℕ) :
    m.add now bytes =
      (some ⟨m.media, m.windowBytes + bytes⟩, { m with windowStart := now, windowBytes := 0 }) :=
  if_neg (by omega)

theorem add_of_lt {m : BitrateMeter} {now : ℕ} (h : now < m.windowStart + window) (bytes : ℕ) :
    m.add now bytes = (none, { m with windowBytes := m.windowBytes + bytes }) :=
  if_pos (by unfold window at *; omega)

/-- A meter that began with this time, after these calls. -/
structure Follows (media : Media) (start : ℕ) (entries : List Entry) (m : BitrateMeter) : Prop where
  media : m.media = media
  windowStart : m.windowStart = windowOpening start entries
  windowBytes : m.windowBytes = added (sinceOpening entries)
  balance : sampled (sinceReset entries) + m.windowBytes = added (sinceReset entries)

namespace Follows

variable {media : Media} {start : ℕ} {entries : List Entry} {m : BitrateMeter}

theorem startingAt (media : Media) (start : ℕ) :
    Follows media start [] (BitrateMeter.startingAt media start) :=
  ⟨rfl, rfl, rfl, rfl⟩

theorem respond (h : Follows media start entries m) (c : Call) :
    Follows media start (entries ++ [⟨c, (m.respond c).1⟩]) (m.respond c).2 := by
  cases c with
  | reset now =>
    refine ⟨h.media, ?_, ?_, ?_⟩
    · exact (windowOpening_concat start entries rfl).symm
    · rw [sinceOpening_concat entries rfl]
      rfl
    · rw [sinceReset_concat entries rfl]
      rfl
  | add now bytes =>
    have hbalance := h.balance
    rw [BitrateMeter.respond]
    by_cases hfull : m.windowStart + window ≤ now
    · rw [add_of_le hfull]
      refine ⟨h.media, ?_, ?_, ?_⟩
      · exact (windowOpening_concat start entries rfl).symm
      · rw [sinceOpening_concat entries rfl]
        rfl
      · rw [sinceReset_concat_of_add entries rfl, sampled_concat, added_concat, ← hbalance]
        change sampled (sinceReset entries) + (m.windowBytes + bytes) + 0 = _ + bytes
        omega
    · rw [add_of_lt (Nat.lt_of_not_le hfull)]
      refine ⟨h.media, ?_, ?_, ?_⟩
      · rw [windowOpening_concat_of_none start entries rfl]
        exact h.windowStart
      · rw [sinceOpening_concat_of_none entries rfl, added_concat, ← h.windowBytes]
        rfl
      · rw [sinceReset_concat_of_add entries rfl, sampled_concat, added_concat, ← hbalance]
        change sampled (sinceReset entries) + 0 + (m.windowBytes + bytes) = _ + bytes
        omega

theorem run (h : Follows media start entries m) (calls : List Call) :
    Follows media start (entries ++ m.log calls) (m.run calls) := by
  induction calls generalizing entries m with
  | nil =>
    rw [log, List.append_nil]
    exact h
  | cons c rest ih =>
    rw [log, ← List.singleton_append, ← List.append_assoc]
    exact ih (h.respond c)

theorem add_fst (h : Follows media start entries m) (now bytes : ℕ) :
    (m.add now bytes).1 =
      if windowOpening start entries + window ≤ now then
        some ⟨media, added (sinceOpening entries) + bytes⟩
      else none := by
  rw [← h.windowStart, ← h.windowBytes, ← h.media]
  split
  · rename_i hfull
    rw [add_of_le hfull]
  · rename_i hopen
    rw [add_of_lt (Nat.lt_of_not_le hopen)]

end Follows

theorem log_eq_append {m : BitrateMeter} {calls : List Call} {before after : List Entry} {e : Entry}
    (h : m.log calls = before ++ e :: after) :
    ∃ first rest, calls = first ++ e.call :: rest ∧ m.log first = before ∧
      e.sample = ((m.run first).respond e.call).1 := by
  induction before generalizing m calls with
  | nil =>
    cases calls with
    | nil => cases h
    | cons c rest =>
      obtain ⟨rfl, -⟩ := List.cons.inj h
      exact ⟨[], rest, rfl, rfl, rfl⟩
  | cons d before ih =>
    cases calls with
    | nil => cases h
    | cons c rest =>
      obtain ⟨rfl, hrest⟩ := List.cons.inj h
      obtain ⟨first, rest, rfl, rfl, hsample⟩ := ih hrest
      exact ⟨c :: first, rest, rfl, rfl, hsample⟩

/-- Every addition gives the sample that the calls before it ask for. -/
def Measured (media : Media) (start : ℕ) (entries : List Entry) : Prop :=
  ∀ before now bytes sample after, entries = before ++ ⟨.add now bytes, sample⟩ :: after →
    sample = if windowOpening start before + window ≤ now then
      some ⟨media, added (sinceOpening before) + bytes⟩ else none

theorem measured_log (media : Media) (start : ℕ) (calls : List Call) :
    Measured media start ((startingAt media start).log calls) := by
  intro before now bytes sample after hlog
  obtain ⟨first, rest, -, rfl, hsample⟩ := log_eq_append hlog
  exact hsample.trans (((Follows.startingAt media start).run first).add_fst now bytes)

namespace Measured

variable {media : Media} {start : ℕ} {entries before stretch after : List Entry}

/-- A sample is taken one second after the latest opening of a window at the earliest. -/
theorem opening_le (h : Measured media start entries) {e : Entry} {t : ℕ}
    (hentries : entries = before ++ e :: after) (he : e.sampledAt? = some t) :
    windowOpening start before + window ≤ t := by
  obtain ⟨c, sample⟩ := e
  cases c with
  | reset now => cases he
  | add now bytes =>
    have hsample := h before now bytes sample after hentries
    split at hsample
    · rename_i hle
      subst hsample
      cases he
      exact hle
    · subst hsample
      cases he

theorem pairwise_sampledAt (h : Measured media start entries)
    (hentries : entries = before ++ stretch ++ after)
    (hadds : ∀ e ∈ stretch, e.isReset = false) :
    (stretch.filterMap Entry.sampledAt?).Pairwise (fun t u => t + window ≤ u) ∧
    ∀ t ∈ stretch.filterMap Entry.sampledAt?, t ≤ windowOpening start (before ++ stretch) := by
  induction stretch using List.reverseRecOn generalizing after with
  | nil => exact ⟨.nil, nofun⟩
  | append_singleton stretch e ih =>
    have hsplit : entries = before ++ stretch ++ e :: after := by
      rw [hentries]
      simp
    obtain ⟨hpairwise, hopening⟩ := ih hsplit fun d hd => hadds d (List.mem_append_left _ hd)
    have hopened := Entry.openedAt?_of_isReset (hadds e (by simp))
    rw [List.filterMap_append, ← List.append_assoc]
    cases he : e.sampledAt? with
    | none =>
      rw [List.filterMap_cons_none he, List.filterMap_nil, List.append_nil,
        windowOpening_concat_of_none start _ (hopened.trans he)]
      exact ⟨hpairwise, hopening⟩
    | some u =>
      have hle := h.opening_le hsplit he
      rw [List.filterMap_cons_some he, List.filterMap_nil,
        windowOpening_concat start _ (hopened.trans he)]
      refine ⟨List.pairwise_append.mpr ⟨hpairwise, List.pairwise_singleton _ _, ?_⟩, ?_⟩
      · intro t ht v hv
        rw [List.mem_singleton.mp hv]
        have := hopening t ht
        omega
      · intro t ht
        rcases List.mem_append.mp ht with ht | ht
        · have := hopening t ht
          omega
        · exact Nat.le_of_eq (List.mem_singleton.mp ht)

end Measured

/-- Of times that keep a distance of one second, `k` seconds hold `k` at most. -/
theorem length_le_of_pairwise {times : List ℕ}
    (h : times.Pairwise fun t u => t + window ≤ u) {first k : ℕ}
    (hspan : ∀ t ∈ times, first ≤ t ∧ t < first + k * window) : times.length ≤ k := by
  induction times generalizing first k with
  | nil => exact Nat.zero_le k
  | cons t rest ih =>
    obtain ⟨hfirst, hlast⟩ := hspan t List.mem_cons_self
    obtain ⟨hahead, hrest⟩ := List.pairwise_cons.mp h
    cases k with
    | zero => omega
    | succ k =>
      rw [Nat.succ_mul] at hlast
      have hrestSpan : ∀ u ∈ rest, first + window ≤ u ∧ u < first + window + k * window := by
        intro u hu
        have hspace := hahead u hu
        obtain ⟨-, hend⟩ := hspan u (List.mem_cons_of_mem t hu)
        rw [Nat.succ_mul] at hend
        omega
      exact Nat.succ_le_succ (ih hrest hrestSpan)

/-- The samples of a meter, whatever the times of the additions and resets. What the samples since
the latest reset counted, with what is pending, is what has been added since. An addition gives a
sample exactly when it comes one second after the latest window was opened or later, and the sample
counts what has been added to that window. So between resets the samples keep a distance of one
second, and `k` seconds hold `k` of them at most: the second that follows an idle gap holds one. -/
theorem samples_of_windows (media : Media) (start : ℕ) (calls : List Call) :
    let m := (startingAt media start).run calls
    let entries := (startingAt media start).log calls
    sampled (sinceReset entries) + m.windowBytes = added (sinceReset entries) ∧
    m.windowBytes = added (sinceOpening entries) ∧
    m.windowStart = windowOpening start entries ∧
    (∀ before now bytes sample after, entries = before ++ ⟨.add now bytes, sample⟩ :: after →
      sample = if windowOpening start before + window ≤ now then
        some ⟨media, added (sinceOpening before) + bytes⟩ else none) ∧
    ∀ before stretch after, entries = before ++ stretch ++ after →
      (∀ e ∈ stretch, e.isReset = false) →
      (stretch.filterMap Entry.sampledAt?).Pairwise (fun t u => t + window ≤ u) ∧
      ∀ first k, (∀ t ∈ stretch.filterMap Entry.sampledAt?,
          first ≤ t ∧ t < first + k * window) →
        (stretch.filterMap Entry.sampledAt?).length ≤ k := by
  intro m entries
  have hfollows : Follows media start entries m := (Follows.startingAt media start).run calls
  have hmeasured := measured_log media start calls
  refine ⟨hfollows.balance, hfollows.windowBytes, hfollows.windowStart, hmeasured, ?_⟩
  intro before stretch after hentries hadds
  have hspaced := (hmeasured.pairwise_sampledAt hentries hadds).1
  exact ⟨hspaced, fun first k => length_le_of_pairwise hspaced⟩

namespace Irregular

/-- An addition goes back in time, and a reset comes before an idle gap. -/
def before : List Entry :=
  [⟨.add 999999 100, none⟩, ⟨.add 1000000 50, some ⟨.video, 150⟩⟩, ⟨.add 500000 7, none⟩,
    ⟨.reset 3000000, none⟩, ⟨.add 3000000 5, none⟩]

def afterGap : List Entry := [⟨.add 9000000 6, some ⟨.video, 11⟩⟩, ⟨.add 9999999 1, none⟩]

def calls : List Call := (before ++ afterGap).map Entry.call

end Irregular

open Irregular in
theorem idle_gap_gives_one_sample :
    let m := (startingAt .video 0).run calls
    (startingAt .video 0).log calls = before ++ afterGap ++ [] ∧
    sampled (sinceReset (before ++ afterGap)) + m.windowBytes = 12 ∧ m.windowBytes = 1 ∧
    (windowOpening 0 before + window ≤ 9000000 ∧ added (sinceOpening before) = 5) ∧
    (∀ e ∈ afterGap, e.isReset = false) ∧
    (∀ t ∈ afterGap.filterMap Entry.sampledAt?, 9000000 ≤ t ∧ t < 9000000 + 1 * window) ∧
    (afterGap.filterMap Entry.sampledAt?).length ≤ 1 := by
  intro m
  obtain ⟨hbalance, hpending, -, hsample, hstretch⟩ := samples_of_windows .video 0 calls
  have hadds : ∀ e ∈ afterGap, e.isReset = false := by decide
  have hspan : ∀ t ∈ afterGap.filterMap Entry.sampledAt?,
      9000000 ≤ t ∧ t < 9000000 + 1 * window := by decide
  have hgap : some (⟨.video, 11⟩ : BitrateSample) = _ := hsample before 9000000 6 _ _ rfl
  have hopening : windowOpening 0 before + window ≤ 9000000 := by decide
  rw [if_pos hopening] at hgap
  have hsince := congrArg BitrateSample.bytes (Option.some.inj hgap)
  refine ⟨rfl, hbalance, hpending, ⟨hopening, ?_⟩, hadds, hspan, ?_⟩
  · exact Nat.add_right_cancel hsince.symm
  · exact (hstretch before afterGap [] rfl hadds).2 9000000 1 hspan

end BitrateMeter

end LiveMedia

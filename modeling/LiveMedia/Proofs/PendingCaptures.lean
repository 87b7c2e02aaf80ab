import Mathlib.Data.List.Dedup
import Mathlib.Data.List.Induction
import Mathlib.Data.List.Nodup
import Mathlib.Logic.Function.Basic
import LiveMedia.PendingCaptures

/-!
# The table of captures as a queue

Seen from outside, a table of captures is a queue of time stamps in the order of their latest
records, whatever map it is kept in, as long as the map does what is documented of it. So a moment
is given out once at the most, and every time stamp that came in new is taken, evicted, cleared or
still there.
-/

namespace LiveMedia
set_option autoImplicit false

namespace RecencyMap

/-- What is documented of a bounded map, told by its pairs, those pushed longest ago first, and by
the number it has room for. -/
structure Documented {M K V : Type} [DecidableEq K] [RecencyMap M K V] (pairs : M → List (K × V))
    (capacity : M → ℕ) : Prop where
  pairs_withCapacity : ∀ n, pairs (withCapacity n) = []
  capacity_withCapacity : ∀ n, 0 < n → capacity (withCapacity n) = n
  size_eq : ∀ m, size m = (pairs m).length
  /-- A key that is there is updated, and its earlier pair is handed back. -/
  push_again : ∀ m key value earlier, (pairs m).lookup key = some earlier →
    (push m key value).1 = some (key, earlier) ∧
    pairs (push m key value).2 = ((pairs m).filter fun e => e.1 != key) ++ [(key, value)]
  push_new : ∀ m key value, (pairs m).lookup key = none → (pairs m).length < capacity m →
    (push m key value).1 = none ∧ pairs (push m key value).2 = pairs m ++ [(key, value)]
  /-- In a full map the pair pushed longest ago makes room and is handed back. -/
  push_full : ∀ m key value, (pairs m).lookup key = none → capacity m ≤ (pairs m).length →
    (push m key value).1 = (pairs m).head? ∧
    pairs (push m key value).2 = (pairs m).tail ++ [(key, value)]
  capacity_push : ∀ m key value, capacity (push m key value).2 = capacity m
  pop_eq : ∀ m key, (pop m key).1 = (pairs m).lookup key ∧
    pairs (pop m key).2 = (pairs m).filter fun e => e.1 != key
  capacity_pop : ∀ m key, capacity (pop m key).2 = capacity m
  pairs_clear : ∀ m, pairs (clear m) = []
  capacity_clear : ∀ m, capacity (clear m) = capacity m

end RecencyMap

namespace RecencyList

theorem documented {K V : Type} [DecidableEq K] :
    RecencyMap.Documented (entries : RecencyList K V → List (K × V)) capacity where
  pairs_withCapacity _ := rfl
  capacity_withCapacity _ _ := rfl
  size_eq _ := rfl
  push_again m key value earlier h := by
    change (push m key value).1 = _ ∧ (push m key value).2.entries = _
    unfold push
    rw [h]
    exact ⟨rfl, rfl⟩
  push_new m key value h hroom := by
    change (push m key value).1 = _ ∧ (push m key value).2.entries = _
    unfold push
    rw [h]
    dsimp only
    rw [if_pos hroom]
    exact ⟨rfl, rfl⟩
  push_full m key value h hfull := by
    change (push m key value).1 = _ ∧ (push m key value).2.entries = _
    unfold push
    rw [h]
    dsimp only
    rw [if_neg (Nat.not_lt.mpr hfull)]
    exact ⟨rfl, rfl⟩
  capacity_push m key value := by
    change (push m key value).2.capacity = _
    unfold push
    split
    · rfl
    · split <;> rfl
  pop_eq _ _ := ⟨rfl, rfl⟩
  capacity_pop _ _ := rfl
  pairs_clear _ := rfl
  capacity_clear _ := rfl

end RecencyList

/-- The time stamps that wait, in the order of their latest records, and the moment that was
recorded last for each time stamp. -/
structure CaptureQueue where
  waiting : List Int64
  moment : Int64 → ℕ
  capacity : ℕ
  evicted : ℕ

namespace CaptureQueue

def empty (capacity : ℕ) : CaptureQueue := ⟨[], fun _ => 0, max capacity 1, 0⟩

def record (q : CaptureQueue) (timestamp : Int64) (moment : ℕ) : CaptureQueue :=
  let q := { q with moment := Function.update q.moment timestamp moment }
  if timestamp ∈ q.waiting then { q with waiting := q.waiting.erase timestamp ++ [timestamp] }
  else if q.waiting.length < q.capacity then { q with waiting := q.waiting ++ [timestamp] }
  else { q with waiting := q.waiting.tail ++ [timestamp], evicted := q.evicted + 1 }

def take (q : CaptureQueue) (timestamp : Int64) : Option ℕ × CaptureQueue :=
  if timestamp ∈ q.waiting then
    (some (q.moment timestamp), { q with waiting := q.waiting.erase timestamp })
  else (none, q)

def clear (q : CaptureQueue) : CaptureQueue := { q with waiting := [] }

end CaptureQueue

inductive CaptureCall where
  | record (timestamp : Int64) (moment : ℕ)
  | take (timestamp : Int64)
  | clear
deriving DecidableEq

namespace CaptureCall

def recorded? : CaptureCall → Option Int64
  | record timestamp _ => some timestamp
  | _ => none

/-- Neither records nor removes this time stamp. -/
def Spares (timestamp : Int64) : CaptureCall → Prop
  | record t _ | take t => t ≠ timestamp
  | clear => False

end CaptureCall

namespace CaptureTable

/-- This moment was recorded for the time stamp, and since then the time stamp has been neither
recorded nor taken, and nothing has been cleared. -/
def LastRecorded (calls : List CaptureCall) (timestamp : Int64) (moment : ℕ) : Prop :=
  ∃ before since, calls = before ++ .record timestamp moment :: since ∧
    ∀ c ∈ since, c.Spares timestamp

theorem LastRecorded.concat {calls : List CaptureCall} {timestamp : Int64} {moment : ℕ}
    (h : LastRecorded calls timestamp moment) {c : CaptureCall} (hc : c.Spares timestamp) :
    LastRecorded (calls ++ [c]) timestamp moment := by
  obtain ⟨before, since, rfl, hsince⟩ := h
  refine ⟨before, since ++ [c], by rw [List.append_assoc, List.cons_append], fun d hd => ?_⟩
  rcases List.mem_append.mp hd with hd | hd
  · exact hsince d hd
  · rw [List.mem_singleton.mp hd]
    exact hc

theorem lastRecorded_record (calls : List CaptureCall) (timestamp : Int64) (moment : ℕ) :
    LastRecorded (calls ++ [.record timestamp moment]) timestamp moment :=
  ⟨calls, [], rfl, nofun⟩

/-- The time stamps that were recorded, each in the place of its latest record. -/
def recordedStamps (calls : List CaptureCall) : List Int64 :=
  (calls.filterMap CaptureCall.recorded?).dedup

theorem dedup_concat (stamps : List Int64) (timestamp : Int64) :
    (stamps ++ [timestamp]).dedup = stamps.dedup.erase timestamp ++ [timestamp] := by
  induction stamps with
  | nil => rfl
  | cons t rest ih =>
    by_cases hmem : t ∈ rest
    · rw [List.cons_append, List.dedup_cons_of_mem (List.mem_append_left _ hmem),
        List.dedup_cons_of_mem hmem, ih]
    · by_cases ht : t = timestamp
      · subst ht
        rw [List.cons_append, List.dedup_cons_of_mem (by simp), List.dedup_cons_of_notMem hmem,
          List.erase_cons_head, ih, List.erase_of_not_mem fun h => hmem (List.mem_dedup.mp h)]
      · rw [List.cons_append, List.dedup_cons_of_notMem (by simp [hmem, ht]),
          List.dedup_cons_of_notMem hmem, List.erase_cons_tail (by simpa using ht), ih,
          List.cons_append]

theorem recordedStamps_record (calls : List CaptureCall) (timestamp : Int64) (moment : ℕ) :
    recordedStamps (calls ++ [.record timestamp moment]) =
      (recordedStamps calls).erase timestamp ++ [timestamp] := by
  unfold recordedStamps
  rw [List.filterMap_append]
  exact dedup_concat _ timestamp

theorem recordedStamps_concat (calls : List CaptureCall) {c : CaptureCall}
    (hc : c.recorded? = none) :
    recordedStamps (calls ++ [c]) = recordedStamps calls := by
  unfold recordedStamps
  rw [List.filterMap_append, List.filterMap_cons_none hc, List.filterMap_nil, List.append_nil]

end CaptureTable

namespace CaptureQueue

open CaptureTable

def step (q : CaptureQueue) : CaptureCall → CaptureQueue
  | .record timestamp moment => q.record timestamp moment
  | .take timestamp => (q.take timestamp).2
  | .clear => q.clear

def run (q : CaptureQueue) (calls : List CaptureCall) : CaptureQueue := calls.foldl step q

variable {q : CaptureQueue} {calls : List CaptureCall}

theorem record_of_mem {timestamp : Int64} (h : timestamp ∈ q.waiting) (moment : ℕ) :
    q.record timestamp moment = { q with
      waiting := q.waiting.erase timestamp ++ [timestamp]
      moment := Function.update q.moment timestamp moment } := if_pos h

theorem record_of_lt {timestamp : Int64} (h : timestamp ∉ q.waiting)
    (hroom : q.waiting.length < q.capacity) (moment : ℕ) :
    q.record timestamp moment = { q with
      waiting := q.waiting ++ [timestamp]
      moment := Function.update q.moment timestamp moment } := by
  unfold record
  rw [if_neg h, if_pos hroom]

theorem record_of_le {timestamp : Int64} (h : timestamp ∉ q.waiting)
    (hfull : q.capacity ≤ q.waiting.length) (moment : ℕ) :
    q.record timestamp moment = { q with
      waiting := q.waiting.tail ++ [timestamp]
      moment := Function.update q.moment timestamp moment
      evicted := q.evicted + 1 } := by
  unfold record
  rw [if_neg h, if_neg (Nat.not_lt.mpr hfull)]

theorem take_of_mem {timestamp : Int64} (h : timestamp ∈ q.waiting) :
    q.take timestamp =
      (some (q.moment timestamp), { q with waiting := q.waiting.erase timestamp }) := if_pos h

theorem take_of_notMem {timestamp : Int64} (h : timestamp ∉ q.waiting) :
    q.take timestamp = (none, q) := if_neg h

theorem capacity_step (q : CaptureQueue) (c : CaptureCall) : (q.step c).capacity = q.capacity := by
  cases c with
  | record timestamp moment =>
    change (q.record timestamp moment).capacity = _
    unfold record
    dsimp only
    split
    · rfl
    · split <;> rfl
  | take timestamp =>
    change (q.take timestamp).2.capacity = _
    unfold take
    split <;> rfl
  | clear => rfl

theorem capacity_run (q : CaptureQueue) (calls : List CaptureCall) :
    (q.run calls).capacity = q.capacity := by
  induction calls generalizing q with
  | nil => rfl
  | cons c rest ih => exact (ih (q.step c)).trans (q.capacity_step c)

/-- A queue after these calls: it holds time stamps that were recorded, in the order of their latest
records, each with the moment of that record. -/
structure Recalls (q : CaptureQueue) (calls : List CaptureCall) : Prop where
  ordered : q.waiting.Sublist (recordedStamps calls)
  latest : ∀ t ∈ q.waiting, LastRecorded calls t (q.moment t)
  fits : q.waiting.length ≤ q.capacity
  positive : 0 < q.capacity

namespace Recalls

theorem empty (capacity : ℕ) : (CaptureQueue.empty capacity).Recalls [] where
  ordered := .slnil
  latest := nofun
  fits := Nat.zero_le _
  positive := Nat.lt_of_lt_of_le Nat.zero_lt_one (Nat.le_max_right _ _)

theorem nodup (h : q.Recalls calls) : q.waiting.Nodup := h.ordered.nodup (List.nodup_dedup _)

/-- The time stamps that stay behind a record, with the new one as the latest. -/
theorem recorded (h : q.Recalls calls) {timestamp : Int64} {stay : List Int64}
    (hstay : stay.Sublist q.waiting) (hnew : timestamp ∉ stay)
    (hlength : stay.length < q.capacity) (moment evicted : ℕ) :
    Recalls { q with
      waiting := stay ++ [timestamp]
      moment := Function.update q.moment timestamp moment
      evicted := evicted } (calls ++ [.record timestamp moment]) where
  ordered := by
    rw [recordedStamps_record]
    apply List.Sublist.append_right
    rw [← List.erase_of_not_mem hnew]
    exact (hstay.trans h.ordered).erase timestamp
  latest t ht := by
    rcases List.mem_append.mp ht with ht | ht
    · have hne : t ≠ timestamp := fun heq => hnew (heq ▸ ht)
      dsimp only
      rw [Function.update_of_ne hne]
      exact (h.latest t (hstay.mem ht)).concat hne.symm
    · rw [List.mem_singleton.mp ht]
      dsimp only
      rw [Function.update_self]
      exact lastRecorded_record calls timestamp moment
  fits := by
    rw [List.length_append]
    exact hlength
  positive := h.positive

theorem record (h : q.Recalls calls) (timestamp : Int64) (moment : ℕ) :
    (q.record timestamp moment).Recalls (calls ++ [.record timestamp moment]) := by
  have hfits := h.fits
  have hpositive := h.positive
  by_cases hmem : timestamp ∈ q.waiting
  · rw [record_of_mem hmem]
    apply h.recorded List.erase_sublist h.nodup.not_mem_erase
    have := List.length_pos_of_mem hmem
    rw [List.length_erase_of_mem hmem]
    omega
  · by_cases hroom : q.waiting.length < q.capacity
    · rw [record_of_lt hmem hroom]
      exact h.recorded (List.Sublist.refl _) hmem hroom moment q.evicted
    · rw [record_of_le hmem (Nat.not_lt.mp hroom)]
      apply h.recorded (List.tail_sublist _) fun ht => hmem (List.mem_of_mem_tail ht)
      rw [List.length_tail]
      omega

/-- A call that records nothing leaves time stamps out at most. -/
theorem removed (h : q.Recalls calls) {c : CaptureCall} (hc : c.recorded? = none)
    {stay : List Int64} (hstay : stay.Sublist q.waiting) (hspares : ∀ t ∈ stay, c.Spares t) :
    Recalls { q with waiting := stay } (calls ++ [c]) where
  ordered := by
    rw [recordedStamps_concat calls hc]
    exact hstay.trans h.ordered
  latest t ht := (h.latest t (hstay.mem ht)).concat (hspares t ht)
  fits := Nat.le_trans hstay.length_le h.fits
  positive := h.positive

theorem take (h : q.Recalls calls) (timestamp : Int64) :
    (q.take timestamp).2.Recalls (calls ++ [.take timestamp]) := by
  have hspares : ∀ t ∈ q.waiting.erase timestamp, (CaptureCall.take timestamp).Spares t := by
    rintro t ht rfl
    exact h.nodup.not_mem_erase ht
  by_cases hmem : timestamp ∈ q.waiting
  · rw [take_of_mem hmem]
    exact h.removed rfl List.erase_sublist hspares
  · rw [List.erase_of_not_mem hmem] at hspares
    rw [take_of_notMem hmem]
    exact h.removed rfl (List.Sublist.refl _) hspares

theorem step (h : q.Recalls calls) (c : CaptureCall) : (q.step c).Recalls (calls ++ [c]) := by
  cases c with
  | record timestamp moment => exact h.record timestamp moment
  | take timestamp => exact h.take timestamp
  | clear => exact h.removed rfl (List.nil_sublist _) nofun

theorem run (h : q.Recalls calls) (later : List CaptureCall) :
    (q.run later).Recalls (calls ++ later) := by
  induction later generalizing q calls with
  | nil =>
    rw [List.append_nil]
    exact h
  | cons c rest ih =>
    rw [← List.singleton_append, ← List.append_assoc]
    exact ih (h.step c)

end Recalls

end CaptureQueue

namespace CaptureTable

variable {M : Type} [RecencyMap M Int64 ℕ]

def step (p : CaptureTable M) : CaptureCall → CaptureTable M
  | .record timestamp moment => p.record timestamp moment
  | .take timestamp => (p.take timestamp).2
  | .clear => p.clear

def run (p : CaptureTable M) (calls : List CaptureCall) : CaptureTable M := calls.foldl step p

variable {pairs : M → List (Int64 × ℕ)} {capacity : M → ℕ}

/-- The table holds what the queue holds. -/
structure Represents (pairs : M → List (Int64 × ℕ)) (capacity : M → ℕ) (p : CaptureTable M)
    (q : CaptureQueue) : Prop where
  pairs : pairs p.entries = q.waiting.map fun t => (t, q.moment t)
  capacity : capacity p.entries = q.capacity
  evicted : p.evicted = q.evicted

theorem lookup_map (stamps : List Int64) (moment : Int64 → ℕ) (timestamp : Int64) :
    (stamps.map fun t => (t, moment t)).lookup timestamp =
      if timestamp ∈ stamps then some (moment timestamp) else none := by
  induction stamps with
  | nil => rfl
  | cons t rest ih =>
    by_cases ht : timestamp = t
    · subst ht
      simp
    · rw [List.map_cons, List.lookup_cons, beq_false_of_ne ht, ih]
      simp [ht]

theorem filter_map_ne {stamps : List Int64} (h : stamps.Nodup) (moment : Int64 → ℕ)
    (timestamp : Int64) :
    ((stamps.map fun t => (t, moment t)).filter fun e => e.1 != timestamp) =
      (stamps.erase timestamp).map fun t => (t, moment t) := by
  rw [h.erase_eq_filter, List.filter_map]
  rfl

/-- A record changes the moment of no other time stamp. -/
theorem map_update {stamps : List Int64} {timestamp : Int64} (h : timestamp ∉ stamps)
    (moment : Int64 → ℕ) (latest : ℕ) :
    (stamps ++ [timestamp]).map (fun t => (t, Function.update moment timestamp latest t)) =
      stamps.map (fun t => (t, moment t)) ++ [(timestamp, latest)] := by
  rw [List.map_append, List.map_singleton, Function.update_self]
  congr 1
  apply List.map_congr_left
  intro t ht
  have hne : t ≠ timestamp := fun heq => h (heq ▸ ht)
  rw [Function.update_of_ne hne]

theorem entries_record (p : CaptureTable M) (timestamp : Int64) (moment : ℕ) :
    (p.record timestamp moment).entries = (RecencyMap.push p.entries timestamp moment).2 := by
  unfold record
  split <;> simp only [*]

/-- Nothing was handed back, or the earlier moment of the time stamp itself. -/
theorem evicted_record_of_eq {p : CaptureTable M} {timestamp : Int64} {moment : ℕ}
    (h : ∀ e, (RecencyMap.push p.entries timestamp moment).1 = some e → e.1 = timestamp) :
    (p.record timestamp moment).evicted = p.evicted := by
  unfold record
  split
  · rfl
  · rename_i hpush
    exact if_pos (h _ (congrArg Prod.fst hpush))

theorem evicted_record_of_ne {p : CaptureTable M} {timestamp : Int64} {moment : ℕ}
    {e : Int64 × ℕ} (h : (RecencyMap.push p.entries timestamp moment).1 = some e)
    (hne : e.1 ≠ timestamp) : (p.record timestamp moment).evicted = p.evicted + 1 := by
  unfold record
  split
  · rename_i hpush
    rw [hpush] at h
    cases h
  · rename_i hpush
    rw [hpush] at h
    cases h
    exact if_neg hne

namespace Represents

variable {p : CaptureTable M} {q : CaptureQueue}

omit [RecencyMap M Int64 ℕ] in
theorem lookup_eq (hp : p.Represents pairs capacity q) (timestamp : Int64) :
    (pairs p.entries).lookup timestamp =
      if timestamp ∈ q.waiting then some (q.moment timestamp) else none := by
  rw [hp.pairs, lookup_map]

omit [RecencyMap M Int64 ℕ] in
theorem length_eq (hp : p.Represents pairs capacity q) :
    (pairs p.entries).length = q.waiting.length := by
  rw [hp.pairs, List.length_map]

variable (h : RecencyMap.Documented pairs capacity)
include h

theorem withCapacity (n : ℕ) :
    (CaptureTable.withCapacity n : CaptureTable M).Represents pairs capacity (.empty n) where
  pairs := h.pairs_withCapacity _
  capacity := h.capacity_withCapacity _ (Nat.lt_of_lt_of_le Nat.zero_lt_one (Nat.le_max_right _ _))
  evicted := rfl

theorem size_eq (hp : p.Represents pairs capacity q) : p.size = q.waiting.length :=
  (h.size_eq p.entries).trans hp.length_eq

theorem take_fst (hp : p.Represents pairs capacity q) (timestamp : Int64) :
    (p.take timestamp).1 = (q.take timestamp).1 := by
  change (RecencyMap.pop p.entries timestamp).1 = _
  rw [(h.pop_eq p.entries timestamp).1, hp.lookup_eq]
  unfold CaptureQueue.take
  split <;> rfl

theorem take (hp : p.Represents pairs capacity q) (hnodup : q.waiting.Nodup)
    (timestamp : Int64) :
    (p.take timestamp).2.Represents pairs capacity (q.take timestamp).2 := by
  have hpairs : pairs (p.take timestamp).2.entries =
      (q.waiting.erase timestamp).map fun t => (t, q.moment t) := by
    rw [← filter_map_ne hnodup, ← hp.pairs]
    exact (h.pop_eq p.entries timestamp).2
  have hcapacity : capacity (p.take timestamp).2.entries = q.capacity :=
    (h.capacity_pop p.entries timestamp).trans hp.capacity
  by_cases hmem : timestamp ∈ q.waiting
  · rw [CaptureQueue.take_of_mem hmem]
    exact ⟨hpairs, hcapacity, hp.evicted⟩
  · rw [CaptureQueue.take_of_notMem hmem]
    rw [List.erase_of_not_mem hmem] at hpairs
    exact ⟨hpairs, hcapacity, hp.evicted⟩

theorem record (hp : p.Represents pairs capacity q) (hnodup : q.waiting.Nodup)
    (hpositive : 0 < q.capacity) (timestamp : Int64) (moment : ℕ) :
    (p.record timestamp moment).Represents pairs capacity (q.record timestamp moment) := by
  have hlookup := hp.lookup_eq timestamp
  have hcapacity : capacity (p.record timestamp moment).entries = q.capacity := by
    rw [entries_record, h.capacity_push, hp.capacity]
  by_cases hmem : timestamp ∈ q.waiting
  · rw [if_pos hmem] at hlookup
    obtain ⟨hback, hpairs⟩ := h.push_again p.entries timestamp moment _ hlookup
    rw [CaptureQueue.record_of_mem hmem]
    refine ⟨?_, hcapacity, (evicted_record_of_eq ?_).trans hp.evicted⟩
    · rw [entries_record, hpairs, hp.pairs, filter_map_ne hnodup,
        map_update hnodup.not_mem_erase]
    · rw [hback]
      rintro e ⟨⟩
      rfl
  rw [if_neg hmem] at hlookup
  by_cases hroom : q.waiting.length < q.capacity
  · obtain ⟨hback, hpairs⟩ := h.push_new p.entries timestamp moment hlookup
      (by rw [hp.length_eq, hp.capacity]; exact hroom)
    rw [CaptureQueue.record_of_lt hmem hroom]
    refine ⟨?_, hcapacity, (evicted_record_of_eq ?_).trans hp.evicted⟩
    · rw [entries_record, hpairs, hp.pairs, map_update hmem]
    · rw [hback]
      exact nofun
  · -- A full queue is not empty, and its first time stamp is not the one that is recorded.
    have hfull := Nat.not_lt.mp hroom
    obtain ⟨hback, hpairs⟩ := h.push_full p.entries timestamp moment hlookup
      (by rw [hp.length_eq, hp.capacity]; exact hfull)
    obtain ⟨first, rest, hwaiting⟩ := List.exists_cons_of_length_pos
      (Nat.lt_of_lt_of_le hpositive hfull)
    rw [hp.pairs, hwaiting] at hback
    rw [hwaiting] at hmem
    have hmem' : timestamp ∉ q.waiting := by rwa [hwaiting]
    rw [CaptureQueue.record_of_le hmem' hfull]
    refine ⟨?_, hcapacity, (evicted_record_of_ne hback ?_).trans (congrArg (· + 1) hp.evicted)⟩
    · rw [entries_record, hpairs, hp.pairs, hwaiting, List.map_cons, List.tail_cons, List.tail_cons,
        map_update fun ht => hmem (List.mem_cons_of_mem first ht)]
    · rintro rfl
      exact hmem List.mem_cons_self

theorem step (hp : p.Represents pairs capacity q) (hnodup : q.waiting.Nodup)
    (hpositive : 0 < q.capacity) (c : CaptureCall) :
    (p.step c).Represents pairs capacity (q.step c) := by
  cases c with
  | record timestamp moment => exact hp.record h hnodup hpositive timestamp moment
  | take timestamp => exact hp.take h hnodup timestamp
  | clear => exact ⟨h.pairs_clear p.entries, (h.capacity_clear p.entries).trans hp.capacity,
      hp.evicted⟩

theorem run (hp : p.Represents pairs capacity q) {past : List CaptureCall} (hq : q.Recalls past)
    (calls : List CaptureCall) : (p.run calls).Represents pairs capacity (q.run calls) := by
  induction calls generalizing p q past with
  | nil => exact hp
  | cons c rest ih => exact ih (hp.step h hq.nodup hq.positive c) (hq.step c)

end Represents

/-- The sum of a count over the calls of a run, each with the table that it finds. -/
def total (count : CaptureTable M → CaptureCall → ℕ) (p : CaptureTable M) : List CaptureCall → ℕ
  | [] => 0
  | c :: rest => count p c + total count (p.step c) rest

/-- The records of time stamps that are not in the table. -/
def newRecords (p : CaptureTable M) : CaptureCall → ℕ
  | .record timestamp _ => if (p.take timestamp).1.isSome then 0 else 1
  | _ => 0

def successfulTakes (p : CaptureTable M) : CaptureCall → ℕ
  | .take timestamp => if (p.take timestamp).1.isSome then 1 else 0
  | _ => 0

def clearedEntries (p : CaptureTable M) : CaptureCall → ℕ
  | .clear => p.size
  | _ => 0

section Balance

variable {p : CaptureTable M} {q : CaptureQueue} (h : RecencyMap.Documented pairs capacity)
include h

/-- What one call adds to the table and takes from it. -/
theorem balance_step (hp : p.Represents pairs capacity q) {past : List CaptureCall}
    (hq : q.Recalls past) (c : CaptureCall) :
    p.size + p.evicted + newRecords p c =
      successfulTakes p c + clearedEntries p c + (p.step c).evicted + (p.step c).size := by
  have hstep := hp.step h hq.nodup hq.positive c
  have hpositive := hq.positive
  rw [hstep.evicted, hstep.size_eq h, hp.evicted, hp.size_eq h]
  cases c with
  | record timestamp moment =>
    simp only [newRecords, successfulTakes, clearedEntries, hp.take_fst h, CaptureQueue.step]
    by_cases hmem : timestamp ∈ q.waiting
    · have := List.length_pos_of_mem hmem
      simp [CaptureQueue.take_of_mem hmem, CaptureQueue.record_of_mem hmem,
        List.length_erase_of_mem hmem]
      omega
    · rw [CaptureQueue.take_of_notMem hmem]
      by_cases hroom : q.waiting.length < q.capacity
      · simp [CaptureQueue.record_of_lt hmem hroom]
        omega
      · simp [CaptureQueue.record_of_le hmem (Nat.not_lt.mp hroom)]
        omega
  | take timestamp =>
    simp only [newRecords, successfulTakes, clearedEntries, hp.take_fst h, CaptureQueue.step]
    by_cases hmem : timestamp ∈ q.waiting
    · have := List.length_pos_of_mem hmem
      simp [CaptureQueue.take_of_mem hmem, List.length_erase_of_mem hmem]
      omega
    · simp [CaptureQueue.take_of_notMem hmem]
      omega
  | clear =>
    simp [newRecords, successfulTakes, clearedEntries, hp.size_eq h, CaptureQueue.step,
      CaptureQueue.clear]

theorem balance_run (hp : p.Represents pairs capacity q) {past : List CaptureCall}
    (hq : q.Recalls past) (calls : List CaptureCall) :
    p.size + p.evicted + total newRecords p calls =
      total successfulTakes p calls + total clearedEntries p calls + (p.run calls).evicted +
        (p.run calls).size := by
  induction calls generalizing p q past with
  | nil =>
    change p.size + p.evicted + 0 = 0 + 0 + p.evicted + p.size
    omega
  | cons c rest ih =>
    have hone := balance_step h hp hq c
    have hrest := ih (hp.step h hq.nodup hq.positive c) (hq.step c)
    change p.size + p.evicted + (newRecords p c + total newRecords (p.step c) rest) =
      (successfulTakes p c + total successfulTakes (p.step c) rest) +
        (clearedEntries p c + total clearedEntries (p.step c) rest) +
        ((p.step c).run rest).evicted + ((p.step c).run rest).size
    omega

end Balance

/-- A table of captures answers every call as the queue does. The queue holds time stamps that were
recorded, each once and in the order of their latest records, never more of them than the table has
room for. So a moment that is taken is the one recorded last for its time stamp, and it has not
been taken before. Every time stamp that came in new has been taken, evicted or cleared, or it is
still there. -/
theorem refines_queue (h : RecencyMap.Documented pairs capacity) (n : ℕ)
    (calls : List CaptureCall) :
    let p := (withCapacity n : CaptureTable M).run calls
    let q := (CaptureQueue.empty n).run calls
    (∀ timestamp, (p.take timestamp).1 = (q.take timestamp).1) ∧
    p.size = q.waiting.length ∧ p.evicted = q.evicted ∧
    pairs p.entries = (q.waiting.map fun t => (t, q.moment t)) ∧
    q.waiting.Nodup ∧ q.waiting.Sublist (recordedStamps calls) ∧
    p.size ≤ max n 1 ∧
    (∀ timestamp moment, (p.take timestamp).1 = some moment →
      LastRecorded calls timestamp moment) ∧
    total newRecords (withCapacity n : CaptureTable M) calls =
      total successfulTakes (withCapacity n : CaptureTable M) calls + p.evicted +
        total clearedEntries (withCapacity n : CaptureTable M) calls + p.size := by
  intro p q
  have hstart := Represents.withCapacity h n
  have hrecalls : q.Recalls calls := (CaptureQueue.Recalls.empty n).run calls
  have hrun : p.Represents pairs capacity q := hstart.run h (CaptureQueue.Recalls.empty n) calls
  have hsize := hrun.size_eq h
  refine ⟨hrun.take_fst h, hsize, hrun.evicted, hrun.pairs, hrecalls.nodup, hrecalls.ordered,
    ?_, ?_, ?_⟩
  · have hfits := hrecalls.fits
    rwa [← hsize, CaptureQueue.capacity_run] at hfits
  · intro timestamp moment htake
    rw [hrun.take_fst h] at htake
    by_cases hmem : timestamp ∈ q.waiting
    · rw [CaptureQueue.take_of_mem hmem] at htake
      rw [← Option.some.inj htake]
      exact hrecalls.latest timestamp hmem
    · rw [CaptureQueue.take_of_notMem hmem] at htake
      cases htake
  · have hbalance := balance_run h hstart (CaptureQueue.Recalls.empty n) calls
    have hempty : (withCapacity n : CaptureTable M).size = 0 := hstart.size_eq h
    have hnone : (withCapacity n : CaptureTable M).evicted = 0 := rfl
    change _ = _ + p.evicted + p.size at hbalance
    omega

/-- A time stamp that is recorded again outlives one that came after it, and the table that is
cleared forgets what it held. -/
theorem recorded_again_outlives :
    let calls : List CaptureCall := [.record 7 10, .record 8 20, .record 7 30, .record 9 40,
      .take 8, .take 7, .take 7, .record 5 50, .clear, .record 9 60]
    let start : PendingCaptures := .empty 2
    RecencyMap.Documented (RecencyList.entries : RecencyList Int64 ℕ → List (Int64 × ℕ))
      RecencyList.capacity ∧
    ((start.run (calls.take 4)).take 7).1 = some 30 ∧ ((start.run (calls.take 4)).take 8).1 = none ∧
    LastRecorded (calls.take 4) 7 30 ∧ (start.run calls).size ≤ 2 ∧
    total newRecords start calls = 5 ∧
    5 = total successfulTakes start calls + (start.run calls).evicted +
      total clearedEntries start calls + (start.run calls).size := by
  intro calls start
  have hseven : ((start.run (calls.take 4)).take 7).1 = some 30 := by decide
  have hnew : total newRecords start calls = 5 := by decide
  obtain ⟨_, _, _, _, _, _, _, hlatest, _⟩ := refines_queue RecencyList.documented 2 (calls.take 4)
  obtain ⟨_, _, _, _, _, _, hsize, _, hbalance⟩ := refines_queue RecencyList.documented 2 calls
  exact ⟨RecencyList.documented, hseven, by decide, hlatest 7 30 hseven, hsize, hnew,
    hnew.symm.trans hbalance⟩

end CaptureTable

end LiveMedia

import Mathlib.Data.List.Induction
import Mathlib.Data.List.Infix
import Mathlib.Order.Bounds.Basic
import LiveMedia.CaptureClock

/-!
# Readings of a capture clock

A clock and its clones share one state, so that the calls on all of them are one history. The time
line runs on from the reference of the latest resynchronization, and a reading is the greatest of
zero, of all readings before it and of where the time line stands.
-/

namespace LiveMedia
set_option autoImplicit false

namespace CaptureClock

/-- What happens to a clock, on whichever of its clones. -/
inductive Event where
  /-- The steady clock goes on by some microseconds. -/
  | advance (us : ℕ)
  | now
  | latency (capture : ℕ)
  | resync (reference : ℕ)
deriving DecidableEq

namespace Event

/-- A latency is measured with a reading of its own. -/
def isReading : Event → Bool
  | now | latency _ => true
  | advance _ | resync _ => false

/-- The latest reference, and the time that has passed since. -/
def anchor : ℤ × ℕ → Event → ℤ × ℕ
  | (reference, passed), advance us => (reference, passed + us)
  | _, resync reference => (reference, 0)
  | latest, _ => latest

end Event

/-- Where the time line stands after these events. The offset of the clock is its reference at the
origin. -/
def standing (offset : ℤ) (events : List Event) : ℤ :=
  (events.foldl Event.anchor (offset, 0)).1 + (events.foldl Event.anchor (offset, 0)).2

/-- The time that the steady clock goes on by. -/
def passed (events : List Event) : ℕ := (events.foldl Event.anchor (0, 0)).2

/-- A clock, and what the steady clock shows. -/
structure Course where
  clock : CaptureClock
  steady : ℕ

namespace Course

def start (origin : ℕ) (offset : ℤ) : Course := ⟨.startingAt origin offset, origin⟩

def step (c : Course) : Event → Course
  | .advance us => { c with steady := c.steady + us }
  | .now => { c with clock := (c.clock.read c.steady).2 }
  | .latency capture => { c with clock := (c.clock.latency c.steady capture).2 }
  | .resync reference => { c with clock := c.clock.resync c.steady reference }

def run (c : Course) (events : List Event) : Course := events.foldl step c

/-- The value that an event publishes. -/
def published? (c : Course) : Event → Option ℕ
  | .now => some (c.clock.read c.steady).1
  | .latency capture => some (c.clock.latency c.steady capture).2.published
  | _ => none

/-- At most the value of a reading is published. -/
theorem published_step (c : Course) (e : Event) :
    c.clock.published ≤ (c.step e).clock.published ∧
    (c.step e).clock.published ≤ (c.clock.read c.steady).1 := by
  have hread := c.clock.published_le_read c.steady
  cases e with
  | now => exact ⟨hread, Nat.le_refl _⟩
  | latency capture => exact ⟨hread, Nat.le_refl _⟩
  | advance us => exact ⟨Nat.le_refl _, hread⟩
  | resync reference =>
    simp only [step, published_resync]
    exact ⟨Nat.le_refl _, hread⟩

def readings (c : Course) : List Event → List ℕ
  | [] => []
  | e :: rest => (c.published? e).toList ++ (c.step e).readings rest

theorem run_append (c : Course) (first second : List Event) :
    c.run (first ++ second) = (c.run first).run second := List.foldl_append

theorem readings_append (c : Course) (first second : List Event) :
    c.readings (first ++ second) = c.readings first ++ (c.run first).readings second := by
  induction first generalizing c with
  | nil => rfl
  | cons e rest ih =>
    rw [List.cons_append, readings, readings, ih, List.append_assoc]
    rfl

theorem readings_concat (c : Course) (events : List Event) (e : Event) :
    c.readings (events ++ [e]) = c.readings events ++ ((c.run events).published? e).toList := by
  rw [readings_append, readings, readings, List.append_nil]

end Course

theorem signedWord_of_lt {n : ℕ} (h : n < 2 ^ 63) : signedWord n = n :=
  Int.bmod_eq_of_le (by omega) (by omega)

theorem resync_eq (c : CaptureClock) {steady reference : ℕ} (h : reference < 2 ^ 63) :
    c.resync steady reference = { c with offset := reference - c.elapsed steady } := by
  unfold resync
  rw [signedWord_of_lt h]

theorem standing_concat (offset : ℤ) (events : List Event) (e : Event) :
    standing offset (events ++ [e]) = match e with
      | .advance us => standing offset events + us
      | .resync reference => reference
      | _ => standing offset events := by
  unfold standing
  rw [List.foldl_append, List.foldl_cons, List.foldl_nil]
  cases e with
  | advance us =>
    simp only [Event.anchor]
    omega
  | resync reference => exact Int.add_zero _
  | now => rfl
  | latency capture => rfl

/-- The time line runs on at the steady rate as long as no new reference comes. -/
theorem standing_append {later : List Event} (h : ∀ r, .resync r ∉ later) (offset : ℤ)
    (events : List Event) :
    standing offset (events ++ later) = standing offset events + passed later := by
  induction later using List.reverseRecOn with
  | nil => simp [passed]
  | append_singleton rest e ih =>
    have hrest := ih fun r hr => h r (List.mem_append_left _ hr)
    have hpassed : passed (rest ++ [e]) = (Event.anchor (rest.foldl Event.anchor (0, 0)) e).2 := by
      rw [passed, List.foldl_append]
      rfl
    rw [← List.append_assoc, standing_concat, hrest, hpassed]
    cases e with
    | advance us =>
      simp only [passed, Event.anchor]
      omega
    | resync reference => exact absurd (List.mem_append_right _ (List.mem_singleton_self _)) (h _)
    | now => rfl
    | latency capture => rfl

theorem standing_since (offset : ℤ) (events : List Event) (reference : ℕ) {since : List Event}
    (h : ∀ r, .resync r ∉ since) :
    standing offset (events ++ .resync reference :: since) = reference + passed since := by
  rw [← List.singleton_append, ← List.append_assoc, standing_append h, standing_concat]

theorem passed_le_concat (events : List Event) {e : Event} (he : ∀ r, e ≠ .resync r) :
    passed events ≤ passed (events ++ [e]) := by
  unfold passed
  rw [List.foldl_append, List.foldl_cons, List.foldl_nil]
  cases e with
  | advance us => exact Nat.le_add_right _ _
  | resync reference => exact absurd rfl (he reference)
  | now => exact Nat.le_refl _
  | latency capture => exact Nat.le_refl _

/-- The clock after a history, which began at this offset. -/
structure Follows (offset : ℤ) (events : List Event) (values : List ℕ) (c : Course) : Prop where
  origin_le : c.clock.origin ≤ c.steady
  standing : c.clock.elapsed c.steady + c.clock.offset = standing offset events
  published : c.clock.published = values.getLastD 0
  greatest : ∀ v ∈ values, v ≤ c.clock.published
  sorted : values.Pairwise (· ≤ ·)

namespace Follows

variable {offset : ℤ} {events : List Event} {values : List ℕ} {c : Course}

theorem start (origin : ℕ) (offset : ℤ) : Follows offset [] [] (Course.start origin offset) where
  origin_le := Nat.le_refl origin
  standing := by simp [Course.start, startingAt, elapsed, CaptureClock.standing]
  published := rfl
  greatest := nofun
  sorted := .nil

theorem read_eq (h : Follows offset events values c) :
    (c.clock.read c.steady).1 =
      max c.clock.published (CaptureClock.standing offset events).toNat := by
  rw [← h.standing]
  rfl

/-- A reading is the greatest of zero, of where the time line stands and of the readings before. -/
theorem isGreatest_read (h : Follows offset events values c) :
    IsGreatest {x : ℤ | x = 0 ∨ x = CaptureClock.standing offset events ∨ ∃ v ∈ values, x = v}
      (c.clock.read c.steady).1 := by
  rw [h.read_eq]
  constructor
  · rcases le_total c.clock.published (CaptureClock.standing offset events).toNat with hle | hle
    · rw [max_eq_right hle]
      rcases le_total 0 (CaptureClock.standing offset events) with hpos | hneg
      · exact Or.inr (Or.inl (Int.toNat_of_nonneg hpos))
      · exact Or.inl (congrArg Nat.cast (Int.toNat_of_nonpos hneg))
    · rw [max_eq_left hle, h.published]
      rcases List.eq_nil_or_concat values with rfl | ⟨rest, v, rfl⟩
      · exact Or.inl rfl
      · apply Or.inr ∘ Or.inr
        exact ⟨v, by simp, by simp⟩
  · rintro x (rfl | rfl | ⟨v, hv, rfl⟩)
    · exact Int.natCast_nonneg _
    · have := Int.self_le_toNat (CaptureClock.standing offset events)
      omega
    · have := h.greatest v hv
      omega

/-- What a reading leaves behind. -/
theorem read (h : Follows offset events values c) {e : Event}
    (hstanding : CaptureClock.standing offset (events ++ [e]) =
      CaptureClock.standing offset events) :
    Follows offset (events ++ [e]) (values ++ [(c.clock.read c.steady).1])
      ⟨(c.clock.read c.steady).2, c.steady⟩ where
  origin_le := h.origin_le
  standing := h.standing.trans hstanding.symm
  published := by simp
  greatest v hv := by
    rcases List.mem_append.mp hv with hv | hv
    · exact (h.greatest v hv).trans (c.clock.published_le_read c.steady)
    · exact Nat.le_of_eq (List.mem_singleton.mp hv)
  sorted := by
    refine List.pairwise_append.mpr ⟨h.sorted, List.pairwise_singleton _ _, fun v hv w hw => ?_⟩
    rw [List.mem_singleton.mp hw]
    exact (h.greatest v hv).trans (c.clock.published_le_read c.steady)

/-- Nothing is published. -/
theorem still (h : Follows offset events values c) {events' : List Event} {c' : Course}
    (horigin : c'.clock.origin ≤ c'.steady) (hpublished : c'.clock.published = c.clock.published)
    (hstanding : c'.clock.elapsed c'.steady + c'.clock.offset =
      CaptureClock.standing offset events') : Follows offset events' (values ++ []) c' where
  origin_le := horigin
  standing := hstanding
  published := by rw [hpublished, h.published, List.append_nil]
  greatest v hv := by
    rw [List.append_nil] at hv
    rw [hpublished]
    exact h.greatest v hv
  sorted := by
    rw [List.append_nil]
    exact h.sorted

theorem step (h : Follows offset events values c) {e : Event}
    (he : ∀ r, e = .resync r → r < 2 ^ 63) :
    Follows offset (events ++ [e]) (values ++ (c.published? e).toList) (c.step e) := by
  have hstanding := standing_concat offset events e
  have helapsed := h.standing
  have horigin := h.origin_le
  unfold elapsed at helapsed
  cases e with
  | now => exact h.read hstanding
  | latency capture => exact h.read hstanding
  | advance us =>
    apply h.still
    · exact Nat.le_add_right_of_le horigin
    · rfl
    · rw [hstanding]
      simp only [Course.step, elapsed]
      omega
  | resync reference =>
    simp only [Course.step, c.clock.resync_eq (he reference rfl)]
    apply h.still
    · exact horigin
    · rfl
    · rw [hstanding]
      simp only [elapsed]
      omega

theorem run (h : Follows offset events values c) {later : List Event}
    (hlater : ∀ r, .resync r ∈ later → r < 2 ^ 63) :
    Follows offset (events ++ later) (values ++ c.readings later) (c.run later) := by
  induction later using List.reverseRecOn with
  | nil =>
    rw [List.append_nil, Course.readings, List.append_nil]
    exact h
  | append_singleton rest e ih =>
    have hrest := ih fun r hr => hlater r (List.mem_append_left _ hr)
    rw [Course.readings_concat, Course.run_append, ← List.append_assoc, ← List.append_assoc]
    apply hrest.step
    rintro r rfl
    exact hlater r (List.mem_append_right _ (List.mem_singleton_self _))

/-- All readings stay below a bound that the time line does not reach where it is read. -/
theorem read_lt (h : Follows offset events values c) {bound : ℕ} (hpositive : 0 < bound)
    (hvalues : ∀ v ∈ values, v < bound) (hstanding : CaptureClock.standing offset events < bound) :
    (c.clock.read c.steady).1 < bound := by
  obtain ⟨hzero | hline | ⟨v, hv, hvalue⟩, -⟩ := h.isGreatest_read
  · omega
  · omega
  · have := hvalues v hv
    omega

/-- What has been published some time after a resynchronization. -/
theorem published_since (h : Follows offset events values c) {reference : ℕ}
    (hreference : reference < 2 ^ 63) {since : List Event} (hsince : ∀ r, .resync r ∉ since) :
    c.clock.published ≤ (c.run (.resync reference :: since)).clock.published ∧
    (c.run (.resync reference :: since)).clock.published ≤
      max c.clock.published (reference + passed since) := by
  induction since using List.reverseRecOn with
  | nil =>
    simp only [Course.run, List.foldl_cons, List.foldl_nil, Course.step, published_resync]
    exact ⟨Nat.le_refl _, Nat.le_max_left _ _⟩
  | append_singleton rest e ih =>
    have hrest : ∀ r, .resync r ∉ rest := fun r hr => hsince r (List.mem_append_left _ hr)
    have he : ∀ r, e ≠ .resync r := by
      rintro r rfl
      exact hsince r (List.mem_append_right _ (List.mem_singleton_self _))
    have hreferences : ∀ r, .resync r ∈ .resync reference :: rest → r < 2 ^ 63 := by
      intro r hr
      rcases List.mem_cons.mp hr with hr | hr
      · cases hr
        exact hreference
      · exact absurd hr (hrest r)
    have hread := (h.run hreferences).read_eq
    rw [standing_since offset events reference hrest] at hread
    have hpassed := passed_le_concat rest he
    obtain ⟨hlow, hhigh⟩ := ih hrest
    obtain ⟨hgrown, hstep⟩ := (c.run (.resync reference :: rest)).published_step e
    rw [← List.cons_append, Course.run_append]
    exact ⟨hlow.trans hgrown, hstep.trans (by omega)⟩

end Follows

theorem published?_eq {c : Course} {e : Event} {v : ℕ} (h : c.published? e = some v) :
    e.isReading = true ∧ v = (c.clock.read c.steady).1 := by
  cases e with
  | now => exact ⟨rfl, (Option.some.inj h).symm⟩
  | latency capture => exact ⟨rfl, (Option.some.inj h).symm⟩
  | advance us => cases h
  | resync reference => cases h

/-- A course whose references and time line stay below the greatest signed number. -/
structure Fits (offset : ℤ) (events : List Event) : Prop where
  references : ∀ r, .resync r ∈ events → r < 2 ^ 63
  readings : ∀ before e after, events = before ++ e :: after → e.isReading = true →
    standing offset before < 2 ^ 63

namespace Fits

variable {offset : ℤ} {events before later : List Event}

theorem follows (h : Fits offset events) (origin : ℕ) (hevents : events = before ++ later) :
    Follows offset before ((Course.start origin offset).readings before)
      ((Course.start origin offset).run before) := by
  apply (Follows.start origin offset).run
  intro r hr
  apply h.references
  rw [hevents]
  exact List.mem_append_left _ hr

theorem reading_lt (h : Fits offset events) (origin : ℕ) (hevents : events = before ++ later) :
    ∀ v ∈ (Course.start origin offset).readings before, v < 2 ^ 63 := by
  induction before using List.reverseRecOn generalizing later with
  | nil => exact nofun
  | append_singleton rest e ih =>
    intro v hv
    rw [List.append_assoc, List.singleton_append] at hevents
    rw [Course.readings_concat] at hv
    rcases List.mem_append.mp hv with hv | hv
    · exact ih hevents v hv
    · obtain ⟨he, rfl⟩ := published?_eq (Option.mem_toList.mp hv)
      exact (h.follows origin hevents).read_lt (by decide) (ih hevents)
        (h.readings rest e later hevents he)

/-- A latency that is counted from an earlier reading. -/
theorem latency_nonneg (h : Fits offset events) (origin : ℕ) {capture : ℕ}
    (hevents : events = before ++ .latency capture :: later)
    (hcapture : capture ∈ (Course.start origin offset).readings before) :
    0 ≤ (((Course.start origin offset).run before).clock.latency
      ((Course.start origin offset).run before).steady capture).1 := by
  have hfollows := h.follows origin hevents
  have hread := hfollows.read_lt (by decide) (h.reading_lt origin hevents)
    (h.readings before _ later hevents rfl)
  have hle := hfollows.greatest capture hcapture
  have hpublished := ((Course.start origin offset).run before).clock.published_le_read
    ((Course.start origin offset).run before).steady
  unfold latency
  simp only
  rw [signedWord_of_lt hread, signedWord_of_lt (by omega)]
  omega

end Fits

/-- The readings of a clock and of its clones, whatever the initial offset and in whatever order
there are readings, measured latencies, resynchronizations and steps of the steady clock: each is
the greatest of zero, of all readings before it, and of the latest reference with the time that has
passed since. So they never go back. After a resynchronization a reading is the last one before it
or the reference with the time that has passed since, whichever is greater: a reference that lies
ahead holds at once, and one that lies back lets the clock stand still for a while. A latency that
is counted from an earlier reading is not negative. -/
theorem readings_follow_references (origin : ℕ) (offset : ℤ) (events : List Event)
    (hreferences : ∀ r, .resync r ∈ events → r < 2 ^ 63)
    (hfits : ∀ before e after, events = before ++ e :: after → e.isReading = true →
      standing offset before < 2 ^ 63) :
    let c := Course.start origin offset
    (∀ before e after v, events = before ++ e :: after → (c.run before).published? e = some v →
      IsGreatest {x : ℤ | x = 0 ∨ x = standing offset before ∨ ∃ w ∈ c.readings before, x = w} v) ∧
    (c.readings events).Pairwise (· ≤ ·) ∧
    (∀ before reference since e after v,
      events = before ++ .resync reference :: (since ++ e :: after) → (∀ r, .resync r ∉ since) →
      (c.run (before ++ .resync reference :: since)).published? e = some v →
      v = max ((c.readings before).getLastD 0) (reference + passed since)) ∧
    ∀ before capture after, events = before ++ .latency capture :: after →
      capture ∈ c.readings before →
      0 ≤ ((c.run before).clock.latency (c.run before).steady capture).1 := by
  intro c
  have hfit : Fits offset events := ⟨hreferences, hfits⟩
  refine ⟨?_, (hfit.follows origin (List.append_nil _).symm).sorted, ?_, ?_⟩
  · intro before e after v hevents hv
    obtain ⟨-, rfl⟩ := published?_eq hv
    exact (hfit.follows origin hevents).isGreatest_read
  · intro before reference since e after v hevents hsince hv
    obtain ⟨-, rfl⟩ := published?_eq hv
    have hbefore : Follows offset before (c.readings before) (c.run before) :=
      hfit.follows origin hevents
    have hreference : reference < 2 ^ 63 := by
      apply hreferences
      rw [hevents]
      exact List.mem_append_right _ List.mem_cons_self
    obtain ⟨hlow, hhigh⟩ := hbefore.published_since hreference hsince
    have hevents' : events = (before ++ .resync reference :: since) ++ e :: after := by
      rw [hevents, List.append_assoc, List.cons_append]
    have hlater : Follows offset _ _ (c.run (before ++ .resync reference :: since)) :=
      hfit.follows origin hevents'
    have hread := hlater.read_eq
    rw [standing_since offset before reference hsince] at hread
    rw [← hbefore.published, hread]
    rw [Course.run_append] at hread ⊢
    omega
  · intro before capture after hevents hcapture
    exact hfit.latency_nonneg origin hevents hcapture

namespace Retimed

/-- The clock begins before zero, and is set back before it is set forward. -/
def first : List Event := [.advance 10, .now, .advance 40, .latency 10]

def since : List Event := [.now, .advance 30]

def last : List Event := [.resync 500, .now, .advance 7]

def events : List Event :=
  first ++ .resync 20 :: (since ++ .now :: (last ++ .latency 500 :: []))

theorem reference_lt : ∀ r, .resync r ∈ events → r < 2 ^ 63 := by
  intro r hr
  simp [events, first, since, last] at hr
  omega

theorem standing_lt : ∀ before e after, events = before ++ e :: after → e.isReading = true →
    standing (-25) before < 2 ^ 63 := by
  intro before e after hevents _
  have hall : ∀ h ∈ events.inits, standing (-25) h < 2 ^ 63 := by decide
  apply hall
  rw [List.mem_inits, hevents]
  exact List.prefix_append _ _

end Retimed

open Retimed in
theorem retimed_readings_follow_references :
    let c := Course.start 3 (-25)
    (∀ r, .resync r ∈ events → r < 2 ^ 63) ∧
    (∀ before e after, events = before ++ e :: after → e.isReading = true →
      standing (-25) before < 2 ^ 63) ∧
    c.readings events = [0, 25, 25, 50, 500, 507] ∧
    (c.readings events).Pairwise (· ≤ ·) ∧
    IsGreatest {x : ℤ | x = 0 ∨ x = standing (-25) (first ++ .resync 20 :: since) ∨
      ∃ w ∈ c.readings (first ++ .resync 20 :: since), x = w} (50 : ℕ) ∧
    50 = max ((c.readings first).getLastD 0) (20 + passed since) ∧
    0 ≤ ((c.run (first ++ .resync 20 :: since ++ .now :: last)).clock.latency 90 500).1 := by
  intro c
  obtain ⟨hgreatest, hsorted, hresync, hlatency⟩ :=
    readings_follow_references 3 (-25) events reference_lt standing_lt
  refine ⟨reference_lt, standing_lt, by decide, hsorted, ?_, ?_, ?_⟩
  · exact hgreatest (first ++ .resync 20 :: since) .now (last ++ [.latency 500]) 50
      (by decide) (by decide)
  · exact hresync first 20 since .now (last ++ [.latency 500]) 50 (by decide)
      (by simp [since]) (by decide)
  · exact hlatency (first ++ .resync 20 :: since ++ .now :: last) 500 [] (by decide) (by decide)

end CaptureClock

end LiveMedia

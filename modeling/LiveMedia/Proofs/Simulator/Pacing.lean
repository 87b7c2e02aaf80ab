import LiveMedia.Proofs.Decimal.Division
import LiveMedia.Simulator.Run

/-!
# Rates at which captures can be paced

The time between two frames is the reciprocal of the frame rate, to the nearest nanosecond. It has
to be a length and not none. That bounds the rates from both sides, and the bounds are doubles.
Valid settings may have a rate beyond them: those have no run. They may also have a rate that is not
a number, in whose place another is taken.
-/

namespace LiveMedia
set_option autoImplicit false

open Float.Model Decimal

namespace Timer

/-- A length can be told in nanoseconds, and not as none, if it is more than half of one and less
than `2 ^ 64` seconds. -/
theorem exists_nanoseconds_iff {x : Float} {a : Magnitude}
    (hshape : shape x = .finite a) (hsign : isNegative x = false) :
    (∃ n, 0 < n ∧ nanoseconds? x = some n) ↔ 1 < 2 * 10 ^ 9 * a.value ∧ a.value < 2 ^ 64 := by
  have hden : 0 < a.quotient.2 := Nat.two_pow_pos _
  have hlong : 2 ^ 64 * a.quotient.2 ≤ a.quotient.1 ↔ ¬ a.value < 2 ^ 64 := by
    rw [a.value_eq_quotient, div_lt_iff₀ (by exact_mod_cast hden), not_lt]
    exact_mod_cast Iff.rfl
  have hshort : a.quotient.2 < 2 * (a.quotient.1 * 10 ^ 9) ↔ 1 < 2 * 10 ^ 9 * a.value := by
    rw [a.value_eq_quotient, ← mul_div_assoc, lt_div_iff₀ (by exact_mod_cast hden), one_mul,
      mul_right_comm, mul_assoc]
    exact_mod_cast Iff.rfl
  have hpaced : nanoseconds? x = if a.quotient.1 = 0 then some 0
      else if 2 ^ 64 * a.quotient.2 ≤ a.quotient.1 then none
      else some (roundQuotient .toEven (a.quotient.1 * 10 ^ 9) a.quotient.2) := by
    unfold nanoseconds?
    rw [hshape]
    dsimp only
    rw [hsign]
    rfl
  rw [hpaced, ← hshort]
  split_ifs with hzero hover
  · constructor
    · rintro ⟨n, hpos, hn⟩
      cases hn
      exact absurd hpos (Nat.lt_irrefl 0)
    · rintro ⟨hless, -⟩
      rw [hzero] at hless
      omega
  · constructor
    · rintro ⟨n, -, hn⟩
      cases hn
    · rintro ⟨-, hless⟩
      exact absurd hless (hlong.mp hover)
  · have hround : roundQuotient .toEven (a.quotient.1 * 10 ^ 9) a.quotient.2 = 0 ↔ _ :=
      roundQuotient_eq_zero_iff hden
    have hless : a.value < 2 ^ 64 := not_not.mp (mt hlong.mpr hover)
    constructor
    · rintro ⟨n, hpos, hn⟩
      cases hn
      exact ⟨by omega, hless⟩
    · rintro ⟨hless, -⟩
      exact ⟨_, by omega, rfl⟩

end Timer

namespace Ticker

/-- An interval of `2 ^ 64` seconds belongs to this rate, the fastest that is too slow. -/
def slowest : Float := 1.0 / 18446744073709551616.0

/-- An interval of half a nanosecond belongs to this rate. As a double it is a little longer. -/
def fastest : Float := 2000000000.0

theorem unpack_slowest :
    slowest.toModel.unpack = .finite .positive (2 ^ 52) (-116) (by decide) := rfl

theorem unpack_fastest :
    fastest.toModel.unpack = .finite .positive (2000000000 * 2 ^ 22) (-22) (by decide) := rfl

/-- The rates at which frames can be paced. -/
def Paced (framerate : Float) : Prop := slowest < framerate ∧ framerate ≤ fastest

section Reciprocals

variable {m : ℕ} {e : ℤ}

/-- Of the rates at the place of the slowest, only the slowest has a reciprocal with a digit too
many. -/
theorem reciprocal_lt_iff (h : OnGrid m (-116)) (hm : 0 < m) :
    reciprocal m (-116) < 2 ^ 53 ↔ 2 ^ 52 < m := by
  rw [reciprocal_eq h (by decide) (by decide)]
  constructor
  · intro hless
    by_contra hlow
    exact absurd hless (Nat.not_lt.mpr (le_roundQuotient .toEven hm (by omega)))
  · intro hmore
    have hless : roundQuotient .toEven (2 ^ 105) m ≤ 2 ^ 53 - 1 :=
      roundQuotient_le .toEven hm (by omega)
    omega

/-- Of the rates at the place of the fastest, those up to the fastest have a reciprocal with at
least the digits of half a nanosecond and a little more. -/
theorem le_reciprocal_iff (h : OnGrid m (-22)) (hm : 0 < m) :
    4835703278458517 ≤ reciprocal m (-22) ↔ m ≤ 2000000000 * 2 ^ 22 := by
  rw [reciprocal_eq h (by decide) (by decide)]
  constructor
  · intro hmore
    by_contra hfast
    have hless : roundQuotient .toEven (2 ^ 105) m ≤ 4835703278458516 :=
      roundQuotient_le .toEven hm (by omega)
    omega
  · intro hslow
    exact le_roundQuotient .toEven hm (by omega)

theorem reciprocalSize_lt_iff (h : OnGrid m e) (hm : 0 < m) :
    reciprocalSize m e < 2 ^ 64 ↔ -116 < e ∨ e = -116 ∧ 2 ^ 52 < m := by
  rcases lt_trichotomy e (-116) with he | rfl | he
  · have hlog := log2_le_of_lt h.lt
    have hplace : 12 ≤ reciprocalPlace m e := by
      unfold reciprocalPlace
      omega
    have hlong := le_reciprocalSize (le_reciprocal hm (by omega)) hplace
    exact iff_of_false (by norm_num at hlong ⊢; exact hlong) (by omega)
  · have hscaled : reciprocalSize m (-116) < 2 ^ 64 ↔ reciprocal m (-116) < 2 ^ 53 := by
      rw [reciprocalSize, reciprocalPlace_eq h (by decide) (by decide),
        ← lt_div_iff₀ (by positivity)]
      norm_num
    rw [hscaled, reciprocal_lt_iff h hm]
    omega
  · have hlog := h.log2_eq (by omega)
    have hplace : reciprocalPlace m e ≤ 10 := by
      unfold reciprocalPlace
      omega
    have hshort := reciprocalSize_le hm hplace
    exact iff_of_true (by norm_num at hshort ⊢; linarith) (Or.inl he)

theorem one_lt_reciprocalSize_iff (h : OnGrid m e) (hm : 0 < m) :
    1 < 2 * 10 ^ 9 * reciprocalSize m e ↔ e < -22 ∨ e = -22 ∧ m ≤ 2000000000 * 2 ^ 22 := by
  rcases lt_trichotomy e (-22) with he | rfl | he
  · have hlog := log2_le_of_lt h.lt
    have hplace : -82 ≤ reciprocalPlace m e := by
      unfold reciprocalPlace
      omega
    have hlong := le_reciprocalSize (le_reciprocal hm (by omega)) hplace
    exact iff_of_true (by norm_num at hlong ⊢; linarith) (Or.inl he)
  · have hplace : reciprocalPlace m (-22) = -(83 : ℕ) :=
      reciprocalPlace_eq h (by decide) (by decide)
    have hscaled : 1 < 2 * 10 ^ 9 * reciprocalSize m (-22) ↔
        2 ^ 83 < 2 * 10 ^ 9 * reciprocal m (-22) := by
      rw [reciprocalSize, hplace, ← mul_assoc, zpow_neg, zpow_natCast, ← div_eq_mul_inv,
        lt_div_iff₀ (by positivity), one_mul]
      exact_mod_cast Iff.rfl
    have hdigits := le_reciprocal_iff h hm
    rw [hscaled]
    omega
  · have hlog := h.log2_eq (by omega)
    have hplace : reciprocalPlace m e ≤ -84 := by
      unfold reciprocalPlace
      omega
    have hshort := reciprocalSize_le hm hplace
    exact iff_of_false (by norm_num at hshort ⊢; linarith) (by omega)

end Reciprocals

theorem zero_lt_of_slowest_lt {x : Float} (h : slowest < x) : 0 < x := by
  have hpositive : Positive slowest.toModel.unpack := unpack_slowest ▸ .finite _ _ _
  exact zero_lt_iff.mpr (hpositive.of_lt (lt_iff_unpack.mp h))

theorem exists_interval_of_unpack {x : Float} {m : ℕ} {e : ℤ} {hm : 0 < m}
    (hx : x.toModel.unpack = .finite .positive m e hm) :
    (∃ n, 0 < n ∧ Timer.nanoseconds? (1.0 / x) = some n) ↔ Paced x := by
  have hgrid := onGrid_of_unpack hx
  have hslowest : slowest < x ↔ -116 < e ∨ -116 = e ∧ 2 ^ 52 < m :=
    lt_iff_of_unpack unpack_slowest hx
  have hfastest : x ≤ fastest ↔ e < -22 ∨ e = -22 ∧ m ≤ 2000000000 * 2 ^ 22 :=
    le_iff_of_unpack hx unpack_fastest
  rw [Paced, hslowest, hfastest, eq_comm (a := -116), ← reciprocalSize_lt_iff hgrid hm,
    ← one_lt_reciprocalSize_iff hgrid hm]
  rcases shape_one_div hx with ⟨hshape, hdigits, hplace⟩ | ⟨a, hshape, ha⟩
  · have hnone : Timer.nanoseconds? (1.0 / x) = none := by
      unfold Timer.nanoseconds?
      rw [hshape]
    rw [hnone]
    apply iff_of_false
    · rintro ⟨n, -, hn⟩
      cases hn
    · rintro ⟨hless, -⟩
      have hlong := le_reciprocalSize (k := 12) hdigits (by omega)
      norm_num at hlong hless
      linarith
  · rw [Timer.exists_nanoseconds_iff hshape (isNegative_one_div hx), ha, and_comm]

theorem nanoseconds_of_infinity {x : Float} (hx : x.toModel.unpack = .infinity .positive) :
    Timer.nanoseconds? (1.0 / x) = some 0 := by
  rw [one_div_unpack, hx]
  decide

/-- Of the rates above zero, those above the slowest and up to the fastest have a time between two
frames that is a length and not none. -/
theorem exists_interval_iff (x : Float) :
    (0 < x ∧ ∃ n, 0 < n ∧ Timer.nanoseconds? (1.0 / x) = some n) ↔ Paced x := by
  by_cases hpos : 0 < x
  · rw [and_iff_right hpos]
    have hpositive := zero_lt_iff.mp hpos
    generalize hx : x.toModel.unpack = u at hpositive
    cases hpositive with
    | finite m e hm => exact exists_interval_of_unpack hx
    | infinity =>
      rw [nanoseconds_of_infinity hx, Paced, le_iff_unpack, hx]
      apply iff_of_false
      · rintro ⟨n, hn, heq⟩
        cases heq
        exact absurd hn (Nat.lt_irrefl 0)
      · exact fun h => absurd h.2 Bool.false_ne_true
  · exact iff_of_false (fun h => hpos h.1) (fun h => hpos (zero_lt_of_slowest_lt h.1))

/-- A rate that is not above zero stands for thirty, which is no trouble. -/
theorem isSome_interval_iff (x : Float) :
    (interval? x).isSome = true ↔ ¬ 0 < x ∨ Paced x := by
  unfold interval? rate
  by_cases hpos : 0 < x
  · rw [if_pos hpos, ← exists_interval_iff, and_iff_right hpos, or_iff_right (not_not.mpr hpos),
      Option.isSome_filter, Option.any_eq_true]
    simp only [decide_eq_true_eq, and_comm]
  · rw [if_neg hpos]
    exact iff_of_true (by decide) (Or.inl hpos)

/-- A rate that is neither at most zero nor above it is not a number. -/
theorem isSome_interval_of_not_le_zero {x : Float} (h : ¬ x ≤ 0) :
    (interval? x).isSome = true ↔ x.isNaN = true ∨ Paced x := by
  rw [isSome_interval_iff, isNaN_iff_of_not_le_zero h]

end Ticker

theorem MediaSettings.not_le_zero_of_defect {s : MediaSettings} {m : Media}
    (h : s.defect? m = none) : ¬ s.framerate ≤ 0 := by
  intro hle
  unfold MediaSettings.defect? at h
  rw [if_pos hle] at h
  split_ifs at h

theorem Settings.defect_of_validate {s : Settings} (h : s.validate = .ok ()) (m : Media) :
    (s.media m).defect? m = none := by
  unfold Settings.validate Settings.defect? at h
  cases hvideo : s.video.defect? .video with
  | some defect =>
    rw [hvideo] at h
    cases h
  | none =>
    cases haudio : s.audio.defect? .audio with
    | some defect =>
      rw [hvideo, haudio] at h
      cases h
    | none =>
      cases m with
      | video => exact hvideo
      | audio => exact haudio

namespace Simulator

theorem isSome_capture (s : MediaSettings) (seconds : ℕ) :
    (capture? s seconds).isSome = (Ticker.interval? s.framerate).isSome := by
  unfold capture? Ticker.make?
  rw [Option.isSome_map, Option.isSome_map]

section Runs

variable {α β : Type}

theorem mapError_ne_noCapture (r : Except Failure α) :
    r.mapError Trouble.failure ≠ .error .noCapture := by
  cases r <;> nofun

theorem bind_ne_noCapture {r : Except Trouble α} {f : α → Except Trouble β}
    (hr : r ≠ .error .noCapture) (hf : ∀ a, f a ≠ .error .noCapture) :
    (r >>= f) ≠ .error .noCapture := by
  cases r with
  | ok a => exact hf a
  | error e =>
    intro heq
    cases heq
    exact hr rfl

variable (s : Settings) (o : Options) (chance : ℕ → Bool)

/-- The session of a run, before it is given anything to publish. -/
def begun : LiveSession SimulatedCodec :=
  Schedule.start
    (Session.new s ⟨{}, {}⟩ ⟨{}, {}⟩ (Loopback.make linkCapacity o.reorder chance) none 0) 0
    [SessionTask.publish .video, .publish .audio, .play .video, .play .audio, .route]

variable {s}

theorem start_eq_begun (h : s.validate = .ok ()) :
    LiveSession.start s ⟨{}, {}⟩ ⟨{}, {}⟩ (Loopback.make linkCapacity o.reorder chance) none 0 =
      .ok (begun s o chance) := by
  unfold LiveSession.start
  rw [h]
  rfl

/-- A run with valid settings lacks a capture only if there is none for one of the media. -/
theorem run_eq_noCapture_iff (h : s.validate = .ok ()) :
    run s o chance = .error .noCapture ↔ ∃ m, capture? (s.media m) o.duration = none := by
  unfold run
  dsimp only
  rw [start_eq_begun o chance h]
  cases hvideo : capture? (s.media .video) o.duration with
  | none => exact iff_of_true rfl ⟨.video, hvideo⟩
  | some video =>
    cases haudio : capture? (s.media .audio) o.duration with
    | none =>
      -- a session that has begun has a place for the video, so the run comes to the audio
      exact iff_of_true rfl ⟨.audio, haudio⟩
    | some audio =>
      apply iff_of_false
      · refine bind_ne_noCapture (mapError_ne_noCapture _) fun s₀ => ?_
        refine bind_ne_noCapture ?_ fun s₁ => ?_
        · dsimp only
          split <;> nofun
        refine bind_ne_noCapture ?_ fun s₂ => mapError_ne_noCapture _
        dsimp only
        split <;> nofun
      · rintro ⟨m, hm⟩
        cases m with
        | video => cases hvideo.symm.trans hm
        | audio => cases haudio.symm.trans hm

end Runs

/-- A rate of valid settings is above zero and has a time between frames just if it is within the
bounds. There is a capture, of any length, just if it is within the bounds or is not a number. A run
fails for want of a capture just if one of the media has neither. -/
theorem simulates_accepted_iff {s : Settings} (h : s.validate = .ok ()) :
    (∀ m, (0 < (s.media m).framerate ∧
        ∃ n, 0 < n ∧ Timer.nanoseconds? (1.0 / (s.media m).framerate) = some n) ↔
      Ticker.Paced (s.media m).framerate) ∧
    (∀ m seconds, (capture? (s.media m) seconds).isSome = true ↔
      (s.media m).framerate.isNaN = true ∨ Ticker.Paced (s.media m).framerate) ∧
    ∀ o chance, run s o chance = .error .noCapture ↔
      ∃ m, ¬ ((s.media m).framerate.isNaN = true ∨ Ticker.Paced (s.media m).framerate) := by
  have hcapture : ∀ m seconds, (capture? (s.media m) seconds).isSome = true ↔
      (s.media m).framerate.isNaN = true ∨ Ticker.Paced (s.media m).framerate := by
    intro m seconds
    rw [isSome_capture]
    exact Ticker.isSome_interval_of_not_le_zero
      (MediaSettings.not_le_zero_of_defect (Settings.defect_of_validate h m))
  refine ⟨fun m => Ticker.exists_interval_iff _, hcapture, fun o chance => ?_⟩
  rw [run_eq_noCapture_iff o chance h]
  exact exists_congr fun m => by rw [← hcapture m o.duration, Option.not_isSome_iff_eq_none]

/-- Settings with the fastest rate for one medium and one that is just too slow for the other. -/
def atLimits : Settings where
  video := { MediaSettings.defaultVideo with framerate := Ticker.fastest }
  audio := { MediaSettings.defaultAudio with framerate := Ticker.slowest }

theorem simulates_at_limits :
    atLimits.validate = .ok () ∧
      (0 < Ticker.fastest ∧ ∃ n, 0 < n ∧ Timer.nanoseconds? (1.0 / Ticker.fastest) = some n) ∧
      ¬ (0 < Ticker.slowest ∧ ∃ n, 0 < n ∧ Timer.nanoseconds? (1.0 / Ticker.slowest) = some n) ∧
      ∀ o chance, run atLimits o chance = .error .noCapture := by
  have hvalid : atLimits.validate = .ok () := rfl
  have hfast : Ticker.Paced Ticker.fastest := by
    unfold Ticker.Paced
    decide
  have hslow : ¬ Ticker.Paced Ticker.slowest := by
    unfold Ticker.Paced
    decide
  have hnumber : ¬ Ticker.slowest.isNaN = true := by decide
  obtain ⟨hinterval, -, hrun⟩ := simulates_accepted_iff hvalid
  exact ⟨hvalid, (hinterval .video).mpr hfast, mt (hinterval .audio).mp hslow,
    fun o chance => (hrun o chance).mpr ⟨.audio, not_or.mpr ⟨hnumber, hslow⟩⟩⟩

/-- Settings with a rate that is not a number. -/
def unnumbered : Settings where
  video := { MediaSettings.defaultVideo with framerate := 0.0 / 0.0 }

/-- Settings with ten frames in a nanosecond. -/
def hasty : Settings where
  video := { MediaSettings.defaultVideo with framerate := 1e10 }

/-- A valid rate need not be above zero, and with one that is there may be no run. -/
theorem accepted_without_simulation :
    (unnumbered.validate = .ok () ∧ ¬ 0 < unnumbered.video.framerate) ∧
      hasty.validate = .ok () ∧ 0 < hasty.video.framerate ∧
      ∀ o chance, run hasty o chance = .error .noCapture := by
  have hvalid : hasty.validate = .ok () := rfl
  refine ⟨⟨rfl, by decide⟩, hvalid, by decide, fun o chance => ?_⟩
  exact (run_eq_noCapture_iff o chance hvalid).mpr ⟨.video, rfl⟩

end Simulator

end LiveMedia

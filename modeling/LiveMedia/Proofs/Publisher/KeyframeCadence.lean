import LiveMedia.Codec.Simulated
import LiveMedia.Proofs.Publisher.EncoderHistory

/-!
# When key chunks are asked for

The turn of an encode call is its number in the stream. A key chunk is asked for when the interval
divides that number, and besides as long as the encoder has taken no frame of the stream. Frames
that never come to an encoder have no turn.
-/

namespace LiveMedia
set_option autoImplicit false

variable {W S : Type}

namespace Dealing

/-- A stretch at the end of a history in which the encoder takes a frame shows it proven. -/
theorem Proven.of_suffix {h part : List Dealing} {i : ℕ} (hpart : part <:+ h)
    (hproven : Proven part i) : Proven h i := by
  obtain ⟨earlier, rfl⟩ := hpart
  unfold Proven latest at hproven ⊢
  rw [List.filterMap_append, List.getLast?_append, hproven, Option.some_or]

theorem Proven.exists_taken {h : List Dealing} {i : ℕ} (hproven : Proven h i) :
    ∃ f key, encode f key i true ∈ h := by
  unfold Proven latest at hproven
  obtain ⟨d, hd, htried⟩ := List.mem_filterMap.mp (List.mem_of_getLast? hproven)
  cases d with
  | encode f key j succeeded =>
    cases succeeded with
    | false => cases htried
    | true =>
      by_cases hj : j = i
      · exact ⟨f, key, hj ▸ hd⟩
      · simp [tried?, hj] at htried
  | create c made =>
    cases made with
    | none => cases htried
    | some j =>
      by_cases hj : j = i
      · simp [tried?, hj] at htried
      · simp [tried?, hj] at htried
  | begin => cases htried
  | asked c supported => cases htried
  | configure c j succeeded => cases htried

end Dealing

namespace Publisher

/-- The frames that were drawn and given up before they came to an encoder. -/
def dropped (p : Publisher W) : ℕ := p.stats.droppedBackpressure + p.stats.droppedNoCodec

/-- A frame is given up or has a turn, never both. -/
theorem submit_dropped (enc : EncoderFamily W) (p : Publisher W) (now : ℕ) (f : Frame) :
    (p.submit enc now f).frameIndex = p.frameIndex ∨ (p.submit enc now f).dropped = p.dropped := by
  obtain ⟨_, _, _, _, _, hprepare⟩ := prepareEncoder_footprint enc p
  have houtcome := p.submit_outcome enc now f
  generalize p.prepareEncoder enc = prepared at hprepare houtcome
  obtain ⟨ready, q⟩ := prepared
  obtain rfl : q = _ := hprepare
  generalize p.submit enc now f = r at houtcome ⊢
  cases houtcome with
  | homeless => exact Or.inl rfl
  | behind => exact Or.inl rfl
  | offered =>
    obtain ⟨_, _, _, _, _, _, _, _, hencode⟩ := encodeWith_footprint enc _ _ now f
    rw [hencode]
    exact Or.inr rfl

end Publisher

open Dealing

/-- In every run of a new publisher on any encoders that stay closed once they are: a call asks for
a key chunk exactly when the interval divides its number in the stream or its encoder has taken
none of the frames of the stream since it was made; so the first frame that is taken in a stream,
or by a new encoder, is asked for as a key chunk; and a frame that is given up has no number. -/
theorem Broadcast.keyframe_cadence (enc : EncoderFamily W) (link : Link S)
    (settings : PublishSettings) (codec : W) (clock : CaptureClock) (now : ℕ) (s : S)
    (actions : List (Action W)) :
    let fresh : Broadcast W S := ⟨.new settings codec clock now, s, now⟩
    fresh.KeepsClosed enc link actions →
    let b := fresh.run enc link actions
    let h := fresh.history enc link actions
    (∀ before f key i ok after, h = before ++ .encode f key i ok :: after →
      (key = true ↔ settings.keyframeInterval ∣ encodes (thisStream before) ∨
        ¬ Proven (thisStream before) i)) ∧
    (∀ before f key i after, h = before ++ .encode f key i true :: after →
      (∀ f' key' j, .encode f' key' j true ∉ thisStream before) ∨ ¬ Proven before i →
      key = true) ∧
    (∀ f, (b.step enc link (.submit f)).publisher.dropped ≠ b.publisher.dropped →
      encodes (thisStream (h ++ b.dealings enc (.submit f))) = encodes (thisStream h)) := by
  intro fresh hclosed b h
  have hrun : b.publisher.Recalls settings.keyframeInterval h (b.publisher.openEncoder enc) :=
    recalls_history settings codec clock now s hclosed
  have hcadence : ∀ before f key i ok after, h = before ++ .encode f key i ok :: after →
      (key = true ↔ settings.keyframeInterval ∣ encodes (thisStream before) ∨
        ¬ Proven (thisStream before) i) :=
    fun before f key i ok after heq => (hrun.warranted before _ after heq).2
  refine ⟨hcadence, ?_, ?_⟩
  · intro before f key i after heq hfirst
    apply (hcadence before f key i true after heq).mpr
    refine Or.inr fun hproven => ?_
    rcases hfirst with hfirst | hfirst
    · obtain ⟨f', key', hmem⟩ := hproven.exists_taken
      exact hfirst f' key' i hmem
    · exact hfirst (hproven.of_suffix (List.rtakeWhile_suffix _ before))
  · intro f hdropped
    have hsubmitted : (b.step enc link (.submit f)).publisher.Recalls settings.keyframeInterval
        (h ++ b.dealings enc (.submit f)) _ := recalls_step hrun trivial
    rw [← hrun.encodes, ← hsubmitted.encodes]
    exact (b.publisher.submit_dropped enc b.now f).resolve_right hdropped

namespace Crashing

def config : CodecConfig := { codec := "avc1", bitrate := 0, framerate := 30 }

def frame (t : Int64) : Broadcast.Action SimulatedCodec := .submit ⟨t, none, 1⟩

def busy (n : ℕ) : Broadcast.Action SimulatedCodec :=
  .codec fun w => ({ w with queueSize := n }, [])

def start : Broadcast SimulatedCodec Unit :=
  ⟨.new ⟨.video, 1, 4, 2⟩ {} (.startingAt 0) 0, (), 0⟩

/-- The third frame is given up, and the encoder crashes before the fifth. -/
def actions : List (Broadcast.Action SimulatedCodec) :=
  [.configure config, .begin, frame 0, frame 1, busy 9, frame 2, busy 0, frame 3,
    .codec fun w => (w.crash, []), frame 4, frame 5]

def key? : Dealing → Option (ℕ × Bool)
  | .encode _ key i _ => some (i, key)
  | _ => none

end Crashing

open Crashing in
theorem crashed_encoder_cadence :
    let enc := SimulatedCodec.encoders .video
    let link : Link Unit := ⟨fun _ s => (.ok (), s)⟩
    let h := start.history enc link actions
    start.KeepsClosed enc link actions ∧
    (∀ before f key i ok after, h = before ++ .encode f key i ok :: after →
      (key = true ↔ 4 ∣ encodes (thisStream before) ∨ ¬ Proven (thisStream before) i)) ∧
    h.filterMap key? = [(1, true), (1, false), (1, false), (2, true), (2, true)] := by
  intro enc link h
  have hclosed : start.KeepsClosed enc link actions := by decide +kernel
  refine ⟨hclosed, ?_, by decide +kernel⟩
  exact (Broadcast.keyframe_cadence enc link ⟨.video, 1, 4, 2⟩ {} (.startingAt 0) 0 () actions
    hclosed).1

end LiveMedia

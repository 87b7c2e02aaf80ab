import LiveMedia.Publisher.Basic

/-!
# How the operations on an encoder end

For each operation of a publisher that has to do with its encoder: all the ways in which it can end,
each with what is known then. Whatever is kept by such an operation is proved by cases on them.
-/

namespace LiveMedia
set_option autoImplicit false

variable {W : Type}

namespace Publisher

inductive ConfigureOutcome (enc : EncoderFamily W) (p : Publisher W) (c : CodecConfig) :
    Except Failure Unit × Publisher W → Prop where
  | unsupported (unknown : enc.supports p.codec c = false) : ConfigureOutcome enc p c
      (.error (.configurationUnsupported p.media c.codec),
        p.emit (.configError p.media .unsupported c))
  | stored (known : enc.supports p.codec c = true) (shut : p.openEncoder enc = none) :
      ConfigureOutcome enc p c (.ok (), { p with config := some c })
  | applied {i : Nat} (known : enc.supports p.codec c = true) (isOpen : p.openEncoder enc = some i)
      (fits : (enc.configure c i p.codec).succeeded = true) : ConfigureOutcome enc p c
      (.ok (), { p.absorb (enc.configure c i p.codec) with config := some c })
  | givenUp {i : Nat} {cause : CodecFault} (known : enc.supports p.codec c = true)
      (isOpen : p.openEncoder enc = some i)
      (misfit : (enc.configure c i p.codec).verdict = .error cause) : ConfigureOutcome enc p c
      (.error (.reconfigureFailed p.media cause),
        { p.absorb (enc.configure c i p.codec) with
          config := some c
          encoder := none
          forceKeyframe := true }.emit (.configError p.media .reconfigureFailed c))

/-- An encoder that is closed counts as none, and is counted as lost. -/
inductive RenewOutcome (enc : EncoderFamily W) (p : Publisher W) : Publisher W → Prop where
  | kept {i : Nat} (isOpen : p.openEncoder enc = some i) : RenewOutcome enc p p
  | unconfigured (resets : Nat) (shut : p.openEncoder enc = none) (unset : p.config = none) :
      RenewOutcome enc p { p with encoder := none, stats.codecResets := resets }
  | made {c : CodecConfig} {i : Nat} (resets : Nat) (shut : p.openEncoder enc = none)
      (set : p.config = some c) (made : (enc.create c p.codec).1 = .ok i) :
      RenewOutcome enc p { p with
        codec := (enc.create c p.codec).2
        encoder := some i
        forceKeyframe := true
        stats.codecResets := resets }
  | refused {c : CodecConfig} {cause : CodecFault} (resets : Nat)
      (shut : p.openEncoder enc = none) (set : p.config = some c)
      (refused : (enc.create c p.codec).1 = .error cause) :
      RenewOutcome enc p { p with
        codec := (enc.create c p.codec).2
        encoder := none
        stats.codecResets := resets }

inductive InitializeOutcome (enc : EncoderFamily W) (p : Publisher W) :
    Option Nat × Publisher W → Prop where
  | unready (lacking : p.encoder = none ∨ p.config = none) : InitializeOutcome enc p (none, p)
  | ready {i : Nat} (encoder : p.encoder = some i) : InitializeOutcome enc p (some i, p)
  | configured {i : Nat} {c : CodecConfig} (encoder : p.encoder = some i) (set : p.config = some c)
      (fits : (enc.configure c i p.codec).succeeded = true) :
      InitializeOutcome enc p (some i, p.absorb (enc.configure c i p.codec))
  | misfit {i : Nat} {c : CodecConfig} (encoder : p.encoder = some i) (set : p.config = some c)
      (misfit : (enc.configure c i p.codec).succeeded = false) :
      InitializeOutcome enc p (none, { p.absorb (enc.configure c i p.codec) with encoder := none })

/-- A publisher that is about to pass a frame to its encoder. -/
def noteFrame (p : Publisher W) (now : Nat) (f : Frame) : Publisher W :=
  { p with
    frameIndex := p.frameIndex + 1
    clock := (p.clock.read now).2
    pending := p.pending.record f.timestamp (p.clock.read now).1 }

inductive EncodeOutcome (enc : EncoderFamily W) (p : Publisher W) (i now : Nat) (f : Frame) :
    Publisher W → Prop where
  | broken (never : p.settings.keyframeInterval = 0) :
      EncodeOutcome enc p i now f { p with broken := true }
  | taken (taken : (enc.encode f p.wantsKeyframe i p.codec).succeeded = true) :
      EncodeOutcome enc p i now f
        { (p.noteFrame now f).absorb (enc.encode f p.wantsKeyframe i p.codec) with
          forceKeyframe := false
          stats.framesSubmitted := p.stats.framesSubmitted + 1 }
  | closed (failed : (enc.encode f p.wantsKeyframe i p.codec).succeeded = false)
      (closed : enc.state (enc.encode f p.wantsKeyframe i p.codec).codec i = .closed) :
      EncodeOutcome enc p i now f
        { (p.noteFrame now f).absorb (enc.encode f p.wantsKeyframe i p.codec) with
          forceKeyframe := true }
  | rejected (failed : (enc.encode f p.wantsKeyframe i p.codec).succeeded = false)
      (isOpen : enc.state (enc.encode f p.wantsKeyframe i p.codec).codec i ≠ .closed) :
      EncodeOutcome enc p i now f
        ((p.noteFrame now f).absorb (enc.encode f p.wantsKeyframe i p.codec))

/-- What becomes of a frame when the publisher has done what it could for its encoder. -/
inductive SubmitOutcome (enc : EncoderFamily W) (prepared : Option Nat × Publisher W) (now : Nat)
    (f : Frame) : Publisher W → Prop where
  | homeless (nobody : prepared.1 = none) : SubmitOutcome enc prepared now f
      { prepared.2 with stats.droppedNoCodec := prepared.2.stats.droppedNoCodec + 1 }
  | behind {i : Nat} (ready : prepared.1 = some i) : SubmitOutcome enc prepared now f
      { prepared.2 with stats.droppedBackpressure := prepared.2.stats.droppedBackpressure + 1 }
  | offered {i : Nat} (ready : prepared.1 = some i) :
      SubmitOutcome enc prepared now f (prepared.2.encodeWith enc i now f)

variable (enc : EncoderFamily W) (p : Publisher W)

theorem configure_outcome (c : CodecConfig) : ConfigureOutcome enc p c (p.configure enc c) := by
  unfold configure
  cases hknown : enc.supports p.codec c with
  | false => exact .unsupported hknown
  | true =>
    rw [Bool.not_true, if_neg Bool.false_ne_true]
    cases hopen : p.openEncoder enc with
    | none => exact .stored hknown hopen
    | some i =>
      simp only
      split
      · rename_i hfits
        refine .applied hknown hopen ?_
        rw [Reply.succeeded, hfits]
      · rename_i hmisfit
        exact .givenUp hknown hopen hmisfit

theorem renewEncoder_outcome : RenewOutcome enc p (p.renewEncoder enc) := by
  have hreset : ∃ resets, (if p.encoder.isSome then
      { p with encoder := none, stats.codecResets := p.stats.codecResets + 1 }
      else p) = { p with encoder := none, stats.codecResets := resets } := by
    cases hencoder : p.encoder with
    | some i => exact ⟨_, rfl⟩
    | none =>
      refine ⟨p.stats.codecResets, ?_⟩
      rw [if_neg (by decide), ← hencoder]
  obtain ⟨resets, hreset⟩ := hreset
  unfold renewEncoder
  cases hopen : p.openEncoder enc with
  | some i => exact .kept hopen
  | none =>
    simp only [hreset]
    split
    · rename_i hunset
      exact .unconfigured resets hopen hunset
    · rename_i hset
      split
      · rename_i heq
        obtain ⟨hmade, rfl⟩ := Prod.ext_iff.mp heq
        exact .made resets hopen hset hmade
      · rename_i heq
        obtain ⟨hrefused, rfl⟩ := Prod.ext_iff.mp heq
        exact .refused resets hopen hset hrefused

theorem initializeEncoder_outcome : InitializeOutcome enc p (p.initializeEncoder enc) := by
  unfold initializeEncoder
  split
  · rename_i hnobody
    exact .unready (Or.inl hnobody)
  · rename_i i hencoder
    split
    · split
      · rename_i hunset
        exact .unready (Or.inr hunset)
      · rename_i c hset
        simp only
        cases hfits : (enc.configure c i p.codec).succeeded with
        | true => exact .configured hencoder hset hfits
        | false => exact .misfit hencoder hset hfits
    · exact .ready hencoder

/-- The encoder that is ready for a frame is the one in service. -/
theorem encoder_of_prepareEncoder {i : Nat} (h : (p.prepareEncoder enc).1 = some i) :
    (p.prepareEncoder enc).2.encoder = some i := by
  have houtcome := (p.renewEncoder enc).initializeEncoder_outcome enc
  unfold prepareEncoder at h ⊢
  generalize (p.renewEncoder enc).initializeEncoder enc = prepared at houtcome h ⊢
  cases houtcome with
  | unready => cases h
  | ready hencoder => exact hencoder.trans h
  | configured hencoder => exact hencoder.trans h
  | misfit => cases h

theorem encodeWith_outcome (i now : Nat) (f : Frame) :
    EncodeOutcome enc p i now f (p.encodeWith enc i now f) := by
  unfold encodeWith
  split
  · rename_i hnever
    exact .broken (eq_of_beq (Bool.and_eq_true_iff.mp hnever).2)
  · simp only
    split
    · rename_i htaken
      refine .taken ?_
      rw [Reply.succeeded, htaken]
    · rename_i hfailed
      have hsucceeded : (enc.encode f p.wantsKeyframe i p.codec).succeeded = false := by
        rw [Reply.succeeded, hfailed]
      split
      · rename_i hclosed
        exact .closed hsucceeded hclosed
      · rename_i hopen
        exact .rejected hsucceeded hopen

theorem submit_outcome (now : Nat) (f : Frame) :
    SubmitOutcome enc (p.prepareEncoder enc) now f (p.submit enc now f) := by
  unfold submit
  rcases hprepared : p.prepareEncoder enc with ⟨ready | i, q⟩
  · exact .homeless rfl
  · simp only
    split
    · exact .behind rfl
    · exact .offered rfl

end Publisher

end LiveMedia

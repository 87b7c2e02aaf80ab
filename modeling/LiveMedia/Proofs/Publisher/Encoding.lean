import LiveMedia.Codec.Simulated
import LiveMedia.Proofs.Codec.Faultless
import LiveMedia.Proofs.Publisher.Numbering

/-!
# Encoding a list of frames

With a simulated encoder that nothing stops, each frame becomes one chunk as soon as it is
submitted, and the chunk is sent before the next frame. A whole stream is thus a fixed list of
actions, whatever the link does with what is sent.
-/

namespace LiveMedia
set_option autoImplicit false

variable {W S : Type}

open SimulatedCodec

theorem SimulatedCodec.silent_encoders (media : Media) : (encoders media).Silent := by
  intro c i w
  change (configureEncoder c i w).emitted = []
  unfold configureEncoder reconfigure
  split
  · rfl
  · split <;> rfl

/-- A publisher that has encoded so many frames of its stream, and whose encoder nothing stops. -/
structure Publisher.Encoding (p : Publisher SimulatedCodec) (c : CodecConfig) (count : Nat) :
    Prop where
  config : p.config = some c
  receiving : p.receiving = true
  outputs : p.outputs = []
  broken : p.broken = false
  interval : 1 ≤ p.settings.keyframeInterval
  queue : p.codec.queueSize ≤ p.settings.maxQueue
  frameIndex : p.frameIndex = count
  encoder : (count = 0 ∧ p.encoder = none ∧ p.forceKeyframe = true ∧ p.codec.Faultless c) ∨
    (0 < count ∧ p.forceKeyframe = false ∧ ∃ i, p.encoder = some i ∧ p.codec.Working i)

namespace Publisher.Encoding

variable {p : Publisher SimulatedCodec} {c : CodecConfig} {count : Nat}

theorem initializeEncoder_of_working {i : Nat} (media : Media) (hi : p.encoder = some i)
    (hwork : p.codec.Working i) :
    p.initializeEncoder (encoders media) = (some i, p) := by
  unfold initializeEncoder
  rw [hi]
  simp only
  rw [if_neg]
  change p.codec.state i ≠ .uninitialized
  rw [hwork.ready]
  decide

theorem prepare (h : p.Encoding c count) (media : Media) :
    ∃ i force codec, p.prepareEncoder (encoders media) =
        (some i, { p with encoder := some i, forceKeyframe := force, codec := codec }) ∧
      codec.Working i ∧ codec.queueSize = p.codec.queueSize ∧
      (force = true ↔ count = 0) := by
  unfold prepareEncoder
  rcases h.encoder with ⟨hcount, hnone, hforce, hfault⟩ | ⟨hcount, hforce, i, hi, hwork⟩
  · obtain ⟨v, hcreate, hwork, hqueue⟩ := create_eq hfault
    have hcreate' : (encoders media).create c p.codec = (.ok (p.codec.created + 1), v) := hcreate
    have hrenew : p.renewEncoder (encoders media) = { p with
        codec := v, encoder := some (p.codec.created + 1), forceKeyframe := true } := by
      unfold renewEncoder openEncoder
      simp only [hnone, Option.filter_none, Option.isSome_none, Bool.false_eq_true, if_false,
        h.config, hcreate']
    have hready := initializeEncoder_of_working media
      (p := { p with codec := v, encoder := some (p.codec.created + 1), forceKeyframe := true })
      rfl hwork
    rw [hrenew, hready]
    exact ⟨_, _, _, rfl, hwork, hqueue, fun _ => hcount, fun _ => rfl⟩
  · have hopen : (encoders media).state p.codec i = .ready := hwork.ready
    have hrenew : p.renewEncoder (encoders media) = p := by
      unfold renewEncoder openEncoder
      simp only [hi, Option.filter_some, hopen]
      rfl
    rw [hrenew, initializeEncoder_of_working media hi hwork]
    refine ⟨i, p.forceKeyframe, p.codec, by rw [← hi], hwork, rfl, ?_⟩
    rw [hforce]
    constructor
    · intro hf
      cases hf
    · intro hzero
      omega

/-- A frame goes through the encoder at once; the first of a stream and every frame at a multiple
of the interval becomes a key chunk. -/
theorem submit (h : p.Encoding c count) (media : Media) (now : Nat) (f : Frame) :
    ∃ q : Publisher SimulatedCodec, q.Encoding c (count + 1) ∧ q.settings = p.settings ∧
      p.submit (encoders media) now f = { q with
        outputs := [chunkOf media f (count % p.settings.keyframeInterval == 0)] } := by
  obtain ⟨i, force, codec, hprepare, hwork, hqueue, hforce⟩ := h.prepare media
  have hkey : (force || p.frameIndex % p.settings.keyframeInterval == 0) =
      (count % p.settings.keyframeInterval == 0) := by
    rw [h.frameIndex]
    cases force with
    | false => rfl
    | true =>
      rw [hforce.mp rfl, Nat.zero_mod]
      rfl
  have hinterval : (p.settings.keyframeInterval == 0) = false :=
    beq_false_of_ne (Nat.ne_of_gt h.interval)
  obtain ⟨v, hencode, hwork', hqueue'⟩ :=
    encode_eq hwork media f (count % p.settings.keyframeInterval == 0)
  have hencode' : (encoders media).encode f (count % p.settings.keyframeInterval == 0) i codec =
      .ok v [chunkOf media f (count % p.settings.keyframeInterval == 0)] := hencode
  have hroom : ¬ p.settings.maxQueue < (encoders media).queueSize codec i := by
    change ¬ p.settings.maxQueue < codec.queueSize
    have := h.queue
    omega
  unfold Publisher.submit
  simp only [hprepare, if_neg hroom]
  unfold encodeWith wantsKeyframe absorb deliver
  simp only [hinterval, Bool.and_false, Bool.false_eq_true, if_false, hkey, hencode', Reply.ok,
    h.receiving, if_true, h.outputs, List.nil_append]
  refine ⟨{ p with
    encoder := some i
    forceKeyframe := false
    codec := v
    outputs := []
    receiving := true
    frameIndex := _
    clock := _
    pending := _
    stats := _ }, ⟨h.config, rfl, rfl, h.broken, h.interval, ?_, ?_,
      Or.inr ⟨Nat.succ_pos count, rfl, i, rfl, hwork'⟩⟩, rfl, rfl⟩
  · exact Nat.le_trans (Nat.le_of_eq (hqueue'.trans hqueue)) h.queue
  · exact congrArg (· + 1) h.frameIndex

theorem handle (h : p.Encoding c count) {origin : Option Int64} {pending : PendingCaptures}
    {clock : CaptureClock} {cursor : GroupCursor} {bitrate : BitrateMeter} {events : List Event}
    {stats : PublishStats} : Publisher.Encoding { p with
      origin := origin
      pending := pending
      clock := clock
      cursor := cursor
      bitrate := bitrate
      events := events
      stats := stats } c count :=
  ⟨h.config, h.receiving, h.outputs, h.broken, h.interval, h.queue, h.frameIndex, h.encoder⟩

end Publisher.Encoding

/-- The chunks that frames become when so many frames of the stream have gone before them. -/
def encodedFrom (media : Media) (interval : Nat) : (count : Nat) → List Frame → List Chunk
  | _, [] => []
  | count, f :: rest =>
    chunkOf media f (count % interval == 0) :: encodedFrom media interval (count + 1) rest

theorem length_encodedFrom (media : Media) (interval count : Nat) (frames : List Frame) :
    (encodedFrom media interval count frames).length = frames.length := by
  induction frames generalizing count with
  | nil => rfl
  | cons f rest ih => rw [encodedFrom, List.length_cons, ih, List.length_cons]

theorem getElem?_encodedFrom (media : Media) (interval count : Nat) (frames : List Frame)
    (i : Nat) : (encodedFrom media interval count frames)[i]? =
      frames[i]?.map fun f => chunkOf media f ((count + i) % interval == 0) := by
  induction frames generalizing count i with
  | nil => rfl
  | cons f rest ih =>
    cases i with
    | zero => rfl
    | succ i =>
      have hrest := ih (count + 1) i
      rw [Nat.add_right_comm, Nat.add_assoc] at hrest
      exact hrest

namespace Broadcast

def frameActions (media : Media) (interval : Nat) : (count : Nat) → List Frame → List (Action W)
  | _, [] => []
  | count, f :: rest =>
    .submit f :: .collect 1 :: .handle (chunkOf media f (count % interval == 0)) ::
      frameActions media interval (count + 1) rest

theorem handled_frameActions (media : Media) (interval count : Nat) (frames : List Frame) :
    handled (frameActions (W := W) media interval count frames) =
      encodedFrom media interval count frames := by
  induction frames generalizing count with
  | nil => rfl
  | cons f rest ih => exact congrArg (chunkOf media f (count % interval == 0) :: ·) (ih (count + 1))

def streamActions (media : Media) (interval : Nat) (frames : List Frame) : List (Action W) :=
  frameActions media interval 0 frames ++ [.flushEncoder, .endStream]

section Attach

variable (link : Link S) {c : CodecConfig}

/-- A frame is submitted, and its chunk is sent before the next frame. -/
theorem drain_submit {b : Broadcast SimulatedCodec S} {count : Nat}
    (h : b.publisher.Encoding c count) (media : Media) (f : Frame) :
    let chunk := chunkOf media f (count % b.publisher.settings.keyframeInterval == 0)
    let next := b.run (encoders media) link [.submit f, .collect 1, .handle chunk]
    (b.submit (encoders media) f).drain link = next ∧
      (b.submit (encoders media) f).publisher.broken = false ∧
      next.publisher.Encoding c (count + 1) ∧
      next.publisher.settings = b.publisher.settings := by
  intro chunk next
  obtain ⟨q, hq, hsettings, hsubmit⟩ := h.submit media b.now f
  have hempty : ({ q with outputs := [] } : Publisher SimulatedCodec) = q := by rw [← hq.outputs]
  have hnext : next = (⟨q, b.link, b.now⟩ : Broadcast SimulatedCodec S).handle link chunk := by
    simp only [next, run_cons, run_nil, step, submit, hsubmit, List.drop_one, List.tail_cons,
      hempty]
  refine ⟨?_, ?_, ?_, ?_⟩
  · unfold drain submit
    simp only [hnext, hsubmit, List.foldl_cons, List.foldl_nil, hempty]
    rfl
  · unfold submit
    rw [hsubmit]
    exact hq.broken
  · obtain ⟨_, _, _, _, _, _, _, _, hhandle⟩ :=
      handle_footprint link (⟨q, b.link, b.now⟩ : Broadcast SimulatedCodec S) chunk
    rw [hnext, hhandle]
    exact hq.handle
  · obtain ⟨_, _, _, _, _, _, _, _, hhandle⟩ :=
      handle_footprint link (⟨q, b.link, b.now⟩ : Broadcast SimulatedCodec S) chunk
    rw [hnext, hhandle]
    exact hsettings

theorem runCues_frames {b : Broadcast SimulatedCodec S} {count : Nat}
    (h : b.publisher.Encoding c count) (media : Media) (limit : Nat) (frames : List Frame) :
    let done := b.run (encoders media) link
      (frameActions media b.publisher.settings.keyframeInterval count frames)
    runCues (encoders media) link limit (frames.map .frame) b = (.ended, done) ∧
      done.publisher.Encoding c (count + frames.length) := by
  induction frames generalizing b count with
  | nil => exact ⟨rfl, h⟩
  | cons f rest ih =>
    obtain ⟨hdrain, hbroken, hnext, hsettings⟩ := drain_submit link h media f
    obtain ⟨hrun, hdone⟩ := ih hnext
    rw [hsettings] at hrun hdone
    constructor
    · rw [List.map_cons, runCues]
      simp only [hbroken, Bool.false_eq_true, if_false, hdrain]
      exact hrun
    · rw [List.length_cons, ← Nat.add_assoc, Nat.add_right_comm]
      exact hdone

theorem attach_ofFrames {b : Broadcast SimulatedCodec S}
    (h : (b.publisher.beginStream b.now).Encoding c 0) (media : Media) (limit : Nat)
    (frames : List Frame) :
    b.attach (encoders media) link limit (.ofFrames frames) =
      (.ended, b.run (encoders media) link
        (.begin :: streamActions media b.publisher.settings.keyframeInterval frames)) := by
  have hreceiving : b.publisher.receiving = true := h.receiving
  have hbegin : drain link { b with publisher := b.publisher.beginStream b.now } =
      b.run (encoders media) link [.begin] := drain_of_nil h.outputs
  obtain ⟨hcues, hdone⟩ := runCues_frames link
    (b := b.run (encoders media) link [.begin]) h media limit frames
  have hfinish : ∀ d : Broadcast SimulatedCodec S, d.publisher.outputs = [] →
      d.finish (encoders media) link =
        d.run (encoders media) link [.flushEncoder, .endStream] := by
    intro d hd
    have hflush : (d.publisher.flushEncoder (encoders media)).outputs = [] := by
      unfold Publisher.flushEncoder
      split
      · exact hd
      · change (if d.publisher.receiving then d.publisher.outputs ++ [] else []) = []
        rw [hd]
        split <;> rfl
    unfold finish
    simp only [drain_of_nil
      (b := { d with publisher := d.publisher.flushEncoder (encoders media) }) hflush]
    rfl
  unfold attach
  simp only [hreceiving, Bool.not_true, Bool.false_eq_true, if_false, hbegin]
  unfold runSource
  simp only [Source.ofFrames, Source.ofCues, hcues, Bool.false_eq_true, if_false,
    hfinish _ hdone.outputs]
  rw [← run_append, ← run_append]
  rfl

end Attach

end Broadcast

end LiveMedia

import LiveMedia.Proofs.Player.Faultless
import LiveMedia.Proofs.Publisher.FrameStream
import LiveMedia.Proofs.Transport.Traffic

/-!
# From frames to pictures

A list of frames is encoded, sent as one stream over a loopback transport, received in time, put in
order and decoded. Whatever the transport and the delay do to the order of the objects, the decoder
is given the chunks of the frames as if they had never been apart.
-/

namespace LiveMedia
set_option autoImplicit false

variable {W : Type}

open SimulatedCodec

/-- The chunk is that of the frame with this number, on a time line on which the first frame of the
stream stands at zero. -/
structure Chunk.Carries (c : Chunk) (media : Media) (interval : ℕ) (first : Frame) (number : ℕ)
    (f : Frame) : Prop where
  timestamp : c.timestamp.toInt = f.timestamp.toInt - first.timestamp.toInt
  duration : c.duration = f.duration
  size : c.data.size = f.size
  kind : c.kind = .key ↔ media = .audio ∨ interval ∣ number

theorem carries_chunkOf (media : Media) (interval : ℕ) {first : Frame} (number : ℕ) {f : Frame}
    (hfits : -2 ^ 63 ≤ f.timestamp.toInt - first.timestamp.toInt ∧
      f.timestamp.toInt - first.timestamp.toInt < 2 ^ 63) :
    ((chunkOf media f (number % interval == 0)).rebased first.timestamp).Carries media interval
      first number f where
  timestamp := by
    change (f.timestamp - first.timestamp).toInt = _
    rw [Int64.toInt_sub]
    generalize f.timestamp.toInt - first.timestamp.toInt = difference at hfits ⊢
    have hle : -((2 ^ 64 : ℕ) : ℤ) ≤ difference * 2 := by omega
    have hlt : difference * 2 < ((2 ^ 64 : ℕ) : ℤ) := by omega
    exact Int.bmod_eq_of_le_mul_two hle hlt
  duration := rfl
  size := by
    change (Array.replicate f.size _).size = f.size
    exact Array.size_replicate
  kind := by
    change (if (number % interval == 0 || media == .audio) = true then ChunkKind.key else .delta) =
      .key ↔ _
    rw [Nat.dvd_iff_mod_eq_zero]
    cases media <;> simp

/-- A run in which a player is handed these objects in their order, each of them in time, until all
has been played. Nothing overflows. -/
structure Player.Hears (dec : DecoderFamily W) (p : Player W) (sent delivered : List Received)
    (inputs : List (Player.Input W)) : Prop where
  quiet : ∀ input ∈ inputs, input.isQuiet = true
  arrivals : Player.arrivals inputs = delivered
  times : (inputs.filterMap Player.Input.time?).Pairwise (· ≤ ·)
  inTime : Player.InTime p.settings.minDelay sent (Player.receipts inputs)
  overflowDrops : (p.run dec inputs).stats.overflowDrops = 0
  isEmpty : (p.run dec inputs).buffer.isEmpty = true

theorem Player.overflowDrops_stats (p : Player W) :
    p.stats.overflowDrops = p.buffer.overflowDrops := rfl

/-- A publisher that is ready to encode, on a loopback transport of its own. -/
def Broadcast.overLoopback (settings : PublishSettings) (codec : SimulatedCodec)
    (config : CodecConfig) (clock : CaptureClock) (start capacity : ℕ) (reorderProbability : Float)
    (chance : ℕ → Bool) (visits : List ℕ) : Broadcast SimulatedCodec Attended where
  publisher :=
    ((Publisher.new settings codec clock start).configure (encoders settings.media) config).2
  link := .start capacity reorderProbability chance visits
  now := start

theorem Publisher.encoding_configure {settings : PublishSettings} {codec : SimulatedCodec}
    {config : CodecConfig} (clock : CaptureClock) (start : ℕ)
    (hinterval : 1 ≤ settings.keyframeInterval) (hqueue : codec.queueSize ≤ settings.maxQueue)
    (hcodec : codec.Faultless config) :
    let p := ((Publisher.new settings codec clock start).configure (encoders settings.media)
      config).2
    p = { Publisher.new settings codec clock start with config := some config } ∧
      (p.beginStream start).Encoding config 0 := by
  intro p
  have hsupports : (encoders settings.media).supports codec config = true := hcodec.supported
  have hp : p = { Publisher.new settings codec clock start with config := some config } := by
    simp only [p, configure, openEncoder, Publisher.new, hsupports, Option.filter_none,
      Bool.not_true, Bool.false_eq_true, if_false]
  rw [hp]
  exact ⟨rfl, rfl, rfl, rfl, rfl, hinterval, hqueue, rfl, Or.inl ⟨rfl, rfl, rfl, hcodec⟩⟩

/-- The objects of frames that make up the first stream of a publisher. -/
def frameObjects (settings : PublishSettings) (frames : List Frame) : List Received :=
  streamObjects settings 1 [] (encodedFrom settings.media settings.keyframeInterval 0 frames)

section Objects

variable (settings : PublishSettings) {frames : List Frame}

theorem chunk?_frameObjects {first : Frame} (h : frames.head? = some first) :
    (frameObjects settings frames).filterMap Received.chunk? =
      (encodedFrom settings.media settings.keyframeInterval 0 frames).map
        fun c => c.rebased first.timestamp := by
  cases frames with
  | nil => cases h
  | cons f rest =>
    cases h
    have hhead : ([] ++ encodedFrom settings.media settings.keyframeInterval 0
        (first :: rest)).head? =
      some (chunkOf settings.media first (0 % settings.keyframeInterval == 0)) := rfl
    exact chunk?_streamObjects settings 1 hhead

theorem length_chunk?_frameObjects (frames : List Frame) :
    ((frameObjects settings frames).filterMap Received.chunk?).length = frames.length := by
  cases frames with
  | nil => rfl
  | cons f rest => rw [chunk?_frameObjects settings rfl, List.length_map, length_encodedFrom]

theorem isKey_head_frameObjects {c : Chunk}
    (hc : ((frameObjects settings frames).filterMap Received.chunk?).head? = some c) :
    c.kind = .key := by
  cases frames with
  | nil => cases hc
  | cons f rest =>
    rw [chunk?_frameObjects settings rfl] at hc
    cases hc
    change (chunkOf settings.media f (0 % settings.keyframeInterval == 0)).kind = .key
    rw [Nat.zero_mod]
    rfl

theorem carries_frameObjects {first f : Frame} {number : ℕ} {c : Chunk}
    (hfits : ∀ f ∈ frames, -2 ^ 63 ≤ f.timestamp.toInt - first.timestamp.toInt ∧
      f.timestamp.toInt - first.timestamp.toInt < 2 ^ 63)
    (hfirst : frames.head? = some first) (hf : frames[number]? = some f)
    (hc : ((frameObjects settings frames).filterMap Received.chunk?)[number]? = some c) :
    c.Carries settings.media settings.keyframeInterval first number f := by
  rw [chunk?_frameObjects settings hfirst, List.getElem?_map, getElem?_encodedFrom, hf,
    Option.map_some, Option.map_some, Option.some.injEq, Nat.zero_add] at hc
  subst hc
  exact carries_chunkOf settings.media settings.keyframeInterval number
    (hfits f (List.mem_of_getElem? hf))

end Objects

namespace Broadcast

section OverLoopback

variable {settings : PublishSettings} {codec : SimulatedCodec} {config : CodecConfig}
  (clock : CaptureClock) (start capacity : ℕ) (reorderProbability : Float) (chance : ℕ → Bool)
  (visits : List ℕ) (limit : ℕ) (frames : List Frame)

theorem sentObjects_overLoopback (hinterval : 1 ≤ settings.keyframeInterval)
    (hqueue : codec.queueSize ≤ settings.maxQueue) (hcodec : codec.Faultless config) :
    (overLoopback settings codec config clock start capacity reorderProbability chance
        visits).sentObjects
        (encoders settings.media) Attended.link limit (.ofFrames frames) =
      frameObjects settings frames := by
  obtain ⟨hconfigured, hencoding⟩ :=
    Publisher.encoding_configure clock start hinterval hqueue hcodec
  have hsent := sentObjects_ofFrames settings.media frames Attended.link
    (b := overLoopback settings codec config clock start capacity reorderProbability chance visits)
    hencoding limit
  have hpublisher : (overLoopback settings codec config clock start capacity reorderProbability
      chance visits).publisher =
        { Publisher.new settings codec clock start with config := some config } := hconfigured
  rw [hpublisher] at hsent
  exact hsent

/-- A loopback transport neither loses nor adds an object. -/
theorem perm_deliveredObjects (hinterval : 1 ≤ settings.keyframeInterval)
    (hqueue : codec.queueSize ≤ settings.maxQueue) (hcodec : codec.Faultless config) :
    ((overLoopback settings codec config clock start capacity reorderProbability chance
      visits).deliveredObjects (encoders settings.media) limit (.ofFrames frames)).Perm
        (frameObjects settings frames) := by
  obtain ⟨_, hencoding⟩ := Publisher.encoding_configure clock start hinterval hqueue hcodec
  have hout := deliveredObjects_ofFrames settings.media frames
    (b := overLoopback settings codec config clock start capacity reorderProbability chance visits)
    hencoding (Attended.ready_start capacity reorderProbability chance visits) rfl limit
  rw [sentObjects_overLoopback clock start capacity reorderProbability chance visits limit frames
    hinterval hqueue hcodec] at hout
  exact (List.Perm.of_eq hout).trans (Attended.perm_outOrder _ 0 none _)

end OverLoopback

end Broadcast

theorem Player.serves_new (settings : PlaySettings) {codec : SimulatedCodec} {config : CodecConfig}
    (hcodec : codec.Faultless config) (screen : Screen) (start : ℕ) :
    (Player.new settings codec config screen start).Serves (codec.created + 1) false :=
  ⟨rfl, rfl, rfl, rfl, fun _ => ⟨rfl, hcodec⟩, fun hs => absurd hs (by decide)⟩

theorem Player.chunksPlayed_eq {dec : DecoderFamily W} {p : Player W}
    {inputs : List (Player.Input W)} {sent : List Received}
    (h : ((p.played dec inputs).map JitterEntry.payload).filter (fun o => !o.isControl) =
      sent.filter fun o => !o.isControl) :
    p.chunksPlayed dec inputs = sent.filterMap Received.chunk? := by
  have hdata : ∀ l : List Received,
      (l.filter fun o => !o.isControl).filterMap Received.chunk? = l.filterMap Received.chunk? := by
    intro l
    rw [List.filterMap_filter]
    apply List.filterMap_congr
    intro o _
    unfold Received.chunk?
    cases o.isControl <;> rfl
  unfold chunksPlayed
  rw [← hdata sent, ← h, hdata, List.filterMap_map]
  rfl

/-- However a loopback transport changes the order of the objects and however they are delayed on
their way: as long as each of them is received in time and the buffer does not overflow, the decoder
is given one chunk for each frame, in the order of the frames, and if no picture is dropped, their
pictures are shown in this order with the times of their frames. -/
theorem pictures_of_frames (publish : PublishSettings) (play : PlaySettings)
    (encoder decoder : SimulatedCodec) (encodeConfig decodeConfig : CodecConfig)
    (clock : CaptureClock) (start limit capacity screen : ℕ) (reorderProbability : Float)
    (chance : ℕ → Bool) (visits : List ℕ) (frames : List Frame)
    (script : List (Player.Input SimulatedCodec))
    (hinterval : 1 ≤ publish.keyframeInterval) (hqueue : encoder.queueSize ≤ publish.maxQueue)
    (hencoder : encoder.Faultless encodeConfig) (hdecoder : decoder.Faultless decodeConfig)
    (hfits : ∀ first, frames.head? = some first → ∀ f ∈ frames,
      -2 ^ 63 ≤ f.timestamp.toInt - first.timestamp.toInt ∧
        f.timestamp.toInt - first.timestamp.toInt < 2 ^ 63) :
    let enc := encoders publish.media
    let broadcast := Broadcast.overLoopback publish encoder encodeConfig clock start capacity
      reorderProbability chance visits
    let sent := broadcast.sentObjects enc Attended.link limit (.ofFrames frames)
    let delivered := broadcast.deliveredObjects enc limit (.ofFrames frames)
    let player := Player.new play decoder decodeConfig (.empty screen) start
    player.Hears decoders sent delivered script →
    ∃ chunks : List Chunk, chunks.length = frames.length ∧
      (∀ first number f (c : Chunk), frames.head? = some first → frames[number]? = some f →
        chunks[number]? = some c →
        c.Carries publish.media publish.keyframeInterval first number f) ∧
      (player.history decoders script).filterMap Milestone.given? =
        chunks.map (fun c => (decoder.created + 1, c, true)) ∧
      ((player.run decoders script).stats.renderDrops = 0 →
        player.viewed decoders script ++ (player.run decoders script).screen.waiting =
          chunks.map Player.renderingOf) := by
  intro enc broadcast sent delivered player hears
  have hsent : sent = frameObjects publish frames :=
    Broadcast.sentObjects_overLoopback clock start capacity reorderProbability chance visits limit
      frames hinterval hqueue hencoder
  have harrivals : (Player.arrivals script).Perm sent := by
    rw [hears.arrivals, hsent]
    exact Broadcast.perm_deliveredObjects clock start capacity reorderProbability chance visits
      limit frames hinterval hqueue hencoder
  have hepoch : ∀ o ∈ sent, o.epoch = 1 := by
    intro o ho
    rw [hsent] at ho
    exact epoch_of_mem_streamObjects publish 1 ho
  have hsequence : Player.InSequence sent := by
    rw [hsent]
    exact pairwise_streamObjects publish 1 [] _
  have hchunks : player.chunksPlayed decoders script =
      (frameObjects publish frames).filterMap Received.chunk? := by
    rw [← hsent]
    exact Player.chunksPlayed_eq (Player.played_data decoders play decoder decodeConfig
      (.empty screen) start hsequence hepoch harrivals hears.times hears.inTime hears.overflowDrops
      (List.isEmpty_iff.mp hears.isEmpty))
  obtain ⟨hshows, hgiven⟩ := (Player.serves_new play hdecoder (.empty screen) start).run
    (Or.inl rfl) hears.quiet (fun o ho => hepoch o (harrivals.mem_iff.mp ho))
    (fun _ c hc => isKey_head_frameObjects publish (hchunks ▸ hc))
  refine ⟨player.chunksPlayed decoders script, ?_, ?_, hgiven, fun hdrops => hshows.waiting hdrops⟩
  · rw [hchunks]
    exact length_chunk?_frameObjects publish frames
  · intro first number f c hfirst hf hc
    rw [hchunks] at hc
    exact carries_frameObjects publish (hfits first hfirst) hfirst hf hc

/-- Two frames that overtake each other on their way are decoded in their order. -/
theorem pictures_of_swapped_frames :
    let publish : PublishSettings := ⟨.video, 1, 2, 4⟩
    let config : CodecConfig := { codec := "vp8", bitrate := 1000, framerate := 30.0 }
    let frames : List Frame := [⟨100, none, 3⟩, ⟨140, none, 2⟩]
    let key := chunkOf .video ⟨100, none, 3⟩ true
    let delta := chunkOf .video ⟨140, none, 2⟩ false
    let script : List (Player.Input SimulatedCodec) :=
      [.receive 0 (dataObject publish 1 [key] delta), .receive 1 (dataObject publish 1 [] key),
        .tick 20, .tick 21]
    let enc := encoders publish.media
    let chance : ℕ → Bool := fun _ => false
    let broadcast := Broadcast.overLoopback publish {} config (.startingAt 0) 0 1 1.0 chance []
    let sent := broadcast.sentObjects enc Attended.link 0 (.ofFrames frames)
    let delivered := broadcast.deliveredObjects enc 0 (.ofFrames frames)
    let player := Player.new ⟨.video, 10, 4, 5⟩ {} config (.empty 4) 0
    player.Hears decoders sent delivered script ∧
      ∃ chunks : List Chunk, chunks.length = 2 ∧
        (player.history decoders script).filterMap Milestone.given? =
          chunks.map fun c => (1, c, true) := by
  intro publish config frames key delta script enc chance broadcast sent delivered player
  have hcodec : ({} : SimulatedCodec).Faultless config := ⟨rfl, rfl, rfl, rfl⟩
  have hfits : ∀ first, frames.head? = some first → ∀ f ∈ frames,
      -2 ^ 63 ≤ f.timestamp.toInt - first.timestamp.toInt ∧
        f.timestamp.toInt - first.timestamp.toInt < 2 ^ 63 := by
    intro first hfirst f hf
    cases hfirst
    rcases List.mem_cons.mp hf with rfl | hf
    · decide
    · rw [List.mem_singleton.mp hf]
      decide
  have hdelivered :
      delivered = [dataObject publish 1 [key] delta, dataObject publish 1 [] key] := by
    obtain ⟨_, hencoding⟩ := Publisher.encoding_configure (.startingAt 0) 0
      (show 1 ≤ publish.keyframeInterval by decide) (show _ ≤ publish.maxQueue by decide) hcodec
    have hout := Broadcast.deliveredObjects_ofFrames publish.media frames (b := broadcast)
      hencoding (Attended.ready_start 1 1.0 chance []) rfl 0
    have hswaps : broadcast.link.loopback.swaps = fun _ => true :=
      Loopback.swaps_of_one_le 1 (by decide +kernel) chance
    rw [Broadcast.sentObjects_ofFrames publish.media frames Attended.link hencoding 0,
      hswaps] at hout
    exact hout
  have hbuffer := (Player.buffer_run decoders (p := player) (Or.inl rfl) script (by
    intro o ho
    rw [show Player.arrivals script = [dataObject publish 1 [key] delta,
      dataObject publish 1 [] key] from rfl] at ho
    rcases List.mem_cons.mp ho with rfl | ho
    · rfl
    · rw [List.mem_singleton.mp ho]
      rfl)).1
  have hops : Player.bufferOps player.media script =
      [.push 0 ⟨0, 1⟩ (dataObject publish 1 [key] delta),
        .push 1 ⟨0, 0⟩ (dataObject publish 1 [] key), .pop 20, .pop 21] := by
    have hkept : ∀ cs c, (dataObject publish 1 cs c).isKept player.media = true := by
      intro cs c
      unfold Received.isKept
      rw [isControl_dataObject]
      rfl
    unfold Player.bufferOps
    simp only [script, List.filterMap_cons, List.filterMap_nil, Player.Input.bufferOp?, hkept,
      if_true]
    rfl
  have hears : player.Hears decoders sent delivered script := by
    refine ⟨by decide, hdelivered.symm, by decide, ?_, ?_, ?_⟩
    · have hreceipts : Player.receipts script = [(0, dataObject publish 1 [key] delta),
          (1, dataObject publish 1 [] key)] := rfl
      unfold Player.InTime
      rw [hreceipts, List.pairwise_pair]
      intro _
      decide
    · rw [Player.overflowDrops_stats, hbuffer, hops]
      rfl
    · rw [hbuffer, hops]
      rfl
  obtain ⟨chunks, hlength, _, hgiven, _⟩ := pictures_of_frames publish ⟨.video, 10, 4, 5⟩ {} {}
    config config (.startingAt 0) 0 0 1 4 1.0 chance [] frames script (by decide) (by decide) hcodec
    hcodec hfits hears
  exact ⟨hears, chunks, hlength, hgiven⟩

end LiveMedia

import LiveMedia.Publisher.Stream
import LiveMedia.Proofs.Publisher.Outcomes

/-!
# What the operations of a publisher leave alone

Each is read off the fields that an operation can change.
-/

namespace LiveMedia
set_option autoImplicit false

variable {W S : Type}

/-- Encoders give nothing out when they are configured. -/
def EncoderFamily.Silent (enc : EncoderFamily W) : Prop :=
  ∀ c i w, (enc.configure c i w).emitted = []

namespace Publisher

theorem configure_footprint (enc : EncoderFamily W) (p : Publisher W) (c : CodecConfig) :
    ∃ codec config encoder forced outputs events, (p.configure enc c).2 = { p with
      codec := codec
      config := config
      encoder := encoder
      forceKeyframe := forced
      outputs := outputs
      events := events } := by
  have houtcome := p.configure_outcome enc c
  generalize p.configure enc c = result at houtcome ⊢
  cases houtcome with
  | unsupported => exact ⟨p.codec, p.config, p.encoder, p.forceKeyframe, p.outputs, _, rfl⟩
  | stored => exact ⟨p.codec, _, p.encoder, p.forceKeyframe, p.outputs, p.events, rfl⟩
  | applied => exact ⟨_, _, p.encoder, p.forceKeyframe, _, p.events, rfl⟩
  | givenUp => exact ⟨_, _, _, _, _, _, rfl⟩

theorem outputs_configure {enc : EncoderFamily W} (henc : enc.Silent) {p : Publisher W}
    (h : p.receiving = true) (c : CodecConfig) : (p.configure enc c).2.outputs = p.outputs := by
  have habsorb : ∀ i, (p.absorb (enc.configure c i p.codec)).outputs = p.outputs := by
    intro i
    unfold absorb deliver
    rw [henc, if_pos h, List.append_nil]
  have houtcome := p.configure_outcome enc c
  generalize p.configure enc c = result at houtcome ⊢
  cases houtcome with
  | unsupported => rfl
  | stored => rfl
  | applied => exact habsorb _
  | givenUp => exact habsorb _

theorem renewEncoder_footprint (enc : EncoderFamily W) (p : Publisher W) :
    ∃ codec encoder forced resets, p.renewEncoder enc = { p with
      codec := codec
      encoder := encoder
      forceKeyframe := forced
      stats.codecResets := resets } := by
  have houtcome := p.renewEncoder_outcome enc
  generalize p.renewEncoder enc = q at houtcome ⊢
  cases houtcome with
  | kept => exact ⟨p.codec, p.encoder, p.forceKeyframe, p.stats.codecResets, rfl⟩
  | unconfigured resets => exact ⟨p.codec, none, p.forceKeyframe, resets, rfl⟩
  | made resets => exact ⟨_, _, _, resets, rfl⟩
  | refused resets => exact ⟨_, _, p.forceKeyframe, resets, rfl⟩

theorem initializeEncoder_footprint (enc : EncoderFamily W) (p : Publisher W) :
    ∃ codec encoder outputs, (p.initializeEncoder enc).2 =
      { p with codec := codec, encoder := encoder, outputs := outputs } := by
  have houtcome := p.initializeEncoder_outcome enc
  generalize p.initializeEncoder enc = result at houtcome ⊢
  cases houtcome with
  | unready => exact ⟨p.codec, p.encoder, p.outputs, rfl⟩
  | ready => exact ⟨p.codec, p.encoder, p.outputs, rfl⟩
  | configured => exact ⟨_, p.encoder, _, rfl⟩
  | misfit => exact ⟨_, none, _, rfl⟩

theorem prepareEncoder_footprint (enc : EncoderFamily W) (p : Publisher W) :
    ∃ codec encoder forced outputs resets, (p.prepareEncoder enc).2 = { p with
      codec := codec
      encoder := encoder
      forceKeyframe := forced
      outputs := outputs
      stats.codecResets := resets } := by
  obtain ⟨_, _, _, _, hrenew⟩ := p.renewEncoder_footprint enc
  obtain ⟨_, _, _, hinit⟩ := initializeEncoder_footprint enc (p.renewEncoder enc)
  unfold prepareEncoder
  rw [hinit, hrenew]
  exact ⟨_, _, _, _, _, rfl⟩

theorem encodeWith_footprint (enc : EncoderFamily W) (p : Publisher W) (i now : Nat) (f : Frame) :
    ∃ codec forced outputs pending frameIndex clock broken submitted,
      p.encodeWith enc i now f = { p with
        codec := codec
        forceKeyframe := forced
        outputs := outputs
        pending := pending
        frameIndex := frameIndex
        clock := clock
        broken := broken
        stats.framesSubmitted := submitted } := by
  have houtcome := p.encodeWith_outcome enc i now f
  generalize p.encodeWith enc i now f = q at houtcome ⊢
  cases houtcome with
  | broken => exact ⟨p.codec, p.forceKeyframe, p.outputs, p.pending, p.frameIndex, p.clock, true,
      p.stats.framesSubmitted, rfl⟩
  | taken => exact ⟨_, _, _, _, _, _, p.broken, _, rfl⟩
  | closed => exact ⟨_, _, _, _, _, _, p.broken, p.stats.framesSubmitted, rfl⟩
  | rejected => exact ⟨_, p.forceKeyframe, _, _, _, _, p.broken, p.stats.framesSubmitted, rfl⟩

theorem submit_footprint (enc : EncoderFamily W) (p : Publisher W) (now : Nat) (f : Frame) :
    ∃ codec encoder forced outputs pending frameIndex clock broken submitted behind missing resets,
      p.submit enc now f = { p with
        codec := codec
        encoder := encoder
        forceKeyframe := forced
        outputs := outputs
        pending := pending
        frameIndex := frameIndex
        clock := clock
        broken := broken
        stats.framesSubmitted := submitted
        stats.droppedBackpressure := behind
        stats.droppedNoCodec := missing
        stats.codecResets := resets } := by
  obtain ⟨_, _, _, _, _, hp⟩ := p.prepareEncoder_footprint enc
  have houtcome := p.submit_outcome enc now f
  generalize p.prepareEncoder enc = prepared at hp houtcome
  obtain ⟨ready, q⟩ := prepared
  obtain rfl : q = _ := hp
  generalize p.submit enc now f = r at houtcome ⊢
  cases houtcome with
  | homeless => exact ⟨_, _, _, _, p.pending, p.frameIndex, p.clock, p.broken,
      p.stats.framesSubmitted, p.stats.droppedBackpressure, _, _, rfl⟩
  | behind => exact ⟨_, _, _, _, p.pending, p.frameIndex, p.clock, p.broken,
      p.stats.framesSubmitted, _, p.stats.droppedNoCodec, _, rfl⟩
  | offered =>
    obtain ⟨_, _, _, _, _, _, _, _, hencode⟩ := encodeWith_footprint enc _ _ now f
    rw [hencode]
    exact ⟨_, _, _, _, _, _, _, _, _, p.stats.droppedBackpressure, p.stats.droppedNoCodec, _, rfl⟩

theorem flushEncoder_footprint (enc : EncoderFamily W) (p : Publisher W) :
    ∃ codec outputs, p.flushEncoder enc = { p with codec := codec, outputs := outputs } := by
  unfold flushEncoder
  split
  · exact ⟨p.codec, p.outputs, rfl⟩
  · exact ⟨_, _, rfl⟩

theorem noteLatency_footprint (p : Publisher W) (now : Nat) (timestamp : Int64) :
    ∃ pending clock latency, p.noteLatency now timestamp = { p with
      pending := pending
      clock := clock
      stats.lastLatency := latency } := by
  unfold noteLatency
  split
  · exact ⟨_, p.clock, p.stats.lastLatency, rfl⟩
  · exact ⟨_, _, _, rfl⟩

theorem noteBytes_footprint (p : Publisher W) (now bytes : Nat) :
    ∃ bitrate events, p.noteBytes now bytes = { p with bitrate := bitrate, events := events } := by
  unfold noteBytes
  split
  · exact ⟨_, p.events, rfl⟩
  · exact ⟨_, _, rfl⟩

theorem handle_footprint (p : Publisher W) (now : Nat) (c : Chunk) :
    ∃ origin pending clock cursor bitrate events latency groups, (p.handle now c).2 = { p with
      origin := origin
      pending := pending
      clock := clock
      cursor := cursor
      bitrate := bitrate
      events := events
      stats.lastLatency := latency
      stats.groupsStarted := groups } := by
  unfold handle
  simp only
  obtain ⟨_, _, _, hl⟩ := noteLatency_footprint
    { p with origin := some (p.origin.getD c.timestamp) } now c.timestamp
  rw [hl]
  obtain ⟨_, _, hb⟩ := noteBytes_footprint { p with
    origin := some (p.origin.getD c.timestamp), pending := _, clock := _
    stats := { p.stats with
      lastLatency := _, groupsStarted := p.stats.groupsStarted +
        if (p.cursor.advance c.isKey).1.opensGroup then 1 else 0 }
    cursor := (p.cursor.advance c.isKey).2 } now
    (c.rebased (p.origin.getD c.timestamp)).pack.size
  exact ⟨_, _, _, _, _, _, _, _, hb⟩

theorem settle_footprint (p : Publisher W) (t : Transmission) (succeeded : Bool) :
    ∃ cursor stats, p.settle t succeeded = { p with cursor := cursor, stats := stats } := by
  unfold settle
  split
  · exact ⟨p.cursor, _, rfl⟩
  · split
    · exact ⟨_, p.stats, rfl⟩
    · split
      · exact ⟨p.cursor, _, rfl⟩
      · exact ⟨p.cursor, _, rfl⟩
    · exact ⟨p.cursor, p.stats, rfl⟩

end Publisher

namespace Broadcast

theorem send_footprint (link : Link S) (b : Broadcast W S) (t : Transmission) :
    ∃ cursor stats l, b.send link t =
      { b with publisher := { b.publisher with cursor := cursor, stats := stats }, link := l } := by
  unfold send
  split
  · obtain ⟨_, _, h⟩ := b.publisher.settle_footprint t true
    exact ⟨_, _, _, by rw [h]⟩
  · obtain ⟨_, _, h⟩ := b.publisher.settle_footprint t false
    exact ⟨_, _, _, by rw [h]⟩

theorem sendAll_footprint (link : Link S) (b : Broadcast W S) (ts : List Transmission) :
    ∃ cursor stats l, b.sendAll link ts =
      { b with publisher := { b.publisher with cursor := cursor, stats := stats }, link := l } := by
  induction ts generalizing b with
  | nil => exact ⟨b.publisher.cursor, b.publisher.stats, b.link, rfl⟩
  | cons t rest ih =>
    obtain ⟨_, _, _, hone⟩ := b.send_footprint link t
    change ∃ cursor stats l, (b.send link t).sendAll link rest = _
    rw [hone]
    exact ih _

theorem handle_footprint (link : Link S) (b : Broadcast W S) (c : Chunk) :
    ∃ origin pending clock cursor bitrate events stats l, b.handle link c = { b with
      publisher := { b.publisher with
        origin := origin
        pending := pending
        clock := clock
        cursor := cursor
        bitrate := bitrate
        events := events
        stats := stats }
      link := l } := by
  unfold handle
  obtain ⟨_, _, _, _, _, _, _, _, h⟩ := b.publisher.handle_footprint b.now c
  simp only [h]
  obtain ⟨_, _, _, hs⟩ := sendAll_footprint link { b with publisher := { b.publisher with
    origin := _, pending := _, clock := _, cursor := _, bitrate := _, events := _, stats := _ } }
    (b.publisher.handle b.now c).1
  exact ⟨_, _, _, _, _, _, _, _, hs⟩

theorem drain_footprint (link : Link S) (b : Broadcast W S) :
    ∃ origin pending clock cursor bitrate events stats l, b.drain link = { b with
      publisher := { b.publisher with
        outputs := []
        origin := origin
        pending := pending
        clock := clock
        cursor := cursor
        bitrate := bitrate
        events := events
        stats := stats }
      link := l } := by
  have hall : ∀ (outputs : List Chunk) (b : Broadcast W S),
      ∃ origin pending clock cursor bitrate events stats l, outputs.foldl (handle link) b = { b with
        publisher := { b.publisher with
          origin := origin
          pending := pending
          clock := clock
          cursor := cursor
          bitrate := bitrate
          events := events
          stats := stats }
        link := l } := by
    intro outputs
    induction outputs with
    | nil => exact fun b => ⟨_, _, _, _, _, _, _, _, rfl⟩
    | cons c rest ih =>
      intro b
      obtain ⟨_, _, _, _, _, _, _, _, hone⟩ := b.handle_footprint link c
      rw [List.foldl_cons, hone]
      exact ih _
  exact hall b.publisher.outputs { b with publisher := { b.publisher with outputs := [] } }

theorem drain_of_nil {link : Link S} {b : Broadcast W S} (h : b.publisher.outputs = []) :
    b.drain link = b := by
  unfold drain
  rw [h]
  obtain ⟨p, s, now⟩ := b
  obtain ⟨⟩ := p
  cases h
  rfl

theorem finish_footprint (enc : EncoderFamily W) (link : Link S) (b : Broadcast W S) :
    ∃ codec origin pending clock cursor bitrate events stats l, b.finish enc link = { b with
      publisher := { b.publisher with
        codec := codec
        outputs := []
        origin := origin
        pending := pending
        clock := clock
        cursor := cursor
        bitrate := bitrate
        events := events
        stats := stats
        streaming := false }
      link := l } := by
  obtain ⟨_, _, hflushed⟩ := b.publisher.flushEncoder_footprint enc
  obtain ⟨_, _, _, _, _, _, _, _, hdrained⟩ :=
    drain_footprint link { b with publisher := b.publisher.flushEncoder enc }
  obtain ⟨_, _, _, hsent⟩ := send_footprint link
    (({ b with publisher := b.publisher.flushEncoder enc } : Broadcast W S).drain link) .flush
  unfold finish
  simp only
  rw [hsent, hdrained, hflushed]
  exact ⟨_, _, _, _, _, _, _, _, _, rfl⟩

end Broadcast

end LiveMedia

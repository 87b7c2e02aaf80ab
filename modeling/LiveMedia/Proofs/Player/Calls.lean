import LiveMedia.Proofs.CallLog
import LiveMedia.Proofs.Objects
import LiveMedia.Proofs.Player.Run

/-!
# What a player asks of its decoders

The calls of a tick are those that it makes on the family with a log. A player acts on families
that follow each other in the same way, so the log takes no part in what it does. A chunk meets one
of seven fates, each with its calls and with what it leaves behind.
-/

namespace LiveMedia
set_option autoImplicit false

variable {V W : Type}

namespace Player

def mapCodec (f : V → W) (p : Player V) : Player W := { p with codec := f p.codec }

section Following

variable {big : DecoderFamily V} {small : DecoderFamily W} {f : V → W}

theorem deliver_mapCodec (f : V → W) (p : Player V) (i : Nat) (pictures : List Picture) :
    (p.mapCodec f).deliver i pictures = (p.deliver i pictures).mapCodec f := by
  obtain ⟨settings, codec, config, decoder, outputs, timestamps, buffer, epoch, screen, bitrate,
    decoding, counts, events⟩ := p
  cases outputs with
  | none => rfl
  | some queue =>
    by_cases hi : queue.decoder = i
    · simp [deliver, mapCodec, hi]
    · simp [deliver, mapCodec, hi]

theorem renderOutputs_mapCodec (f : V → W) (p : Player V) :
    (p.mapCodec f).renderOutputs = p.renderOutputs.mapCodec f := by
  have hone : ∀ (q : Player V) (picture : Picture),
      (q.mapCodec f).render picture = (q.render picture).mapCodec f := by
    intro q picture
    unfold render mapCodec
    simp only
    split <;> rfl
  have go : ∀ (pictures : List Picture) (q : Player V),
      pictures.foldl render (q.mapCodec f) = (pictures.foldl render q).mapCodec f := by
    intro pictures
    induction pictures with
    | nil => exact fun q => rfl
    | cons x rest ih =>
      intro q
      rw [List.foldl_cons, List.foldl_cons, hone, ih]
  unfold renderOutputs
  cases hout : p.outputs with
  | none => simp [mapCodec, hout]
  | some queue =>
    simp only [mapCodec, hout]
    exact go queue.waiting { p with outputs := some { queue with waiting := [] } }

theorem openDecoder_mapCodec (h : big.Follows small f) (p : Player V) :
    (p.mapCodec f).openDecoder small = p.openDecoder big := by
  unfold openDecoder mapCodec
  simp only [h.state]

theorem createDecoder?_mapCodec (h : big.Follows small f) (p : Player V) :
    (p.mapCodec f).createDecoder? small =
      ((p.createDecoder? big).1, (p.createDecoder? big).2.mapCodec f) := by
  have hinit : ∀ (q : Player V) (i : Nat), (q.mapCodec f).initializeDecoder small i =
      ((q.initializeDecoder big i).1, f (q.initializeDecoder big i).2) := by
    intro q i
    unfold initializeDecoder mapCodec
    simp only [h.state, h.configure, Reply.succeeded_mapCodec]
    split <;> rfl
  have hmade : small.create (p.mapCodec f).config (p.mapCodec f).codec =
      ((big.create p.config p.codec).1, f (big.create p.config p.codec).2) := h.create ..
  unfold createDecoder?
  rw [hmade]
  rcases big.create p.config p.codec with ⟨made, codec⟩
  cases made with
  | error e => rfl
  | ok i =>
    have hi := hinit { p with codec := codec } i
    change ({ p.mapCodec f with codec := f codec } : Player W).initializeDecoder small i = _ at hi
    simp only [hi]
    rcases ({ p with codec := codec } : Player V).initializeDecoder big i with ⟨fit, codec⟩
    cases fit <;> rfl

theorem decoderFor_mapCodec (h : big.Follows small f) (p : Player V) (c : Chunk) :
    (p.mapCodec f).decoderFor small c =
      ((p.decoderFor big c).1, (p.decoderFor big c).2.mapCodec f) := by
  unfold decoderFor
  rw [openDecoder_mapCodec h]
  cases p.openDecoder big with
  | some i => rfl
  | none =>
    have hreset : (if (p.mapCodec f).decoder.isSome then { p.mapCodec f with
          decoder := none, counts.codecResets := (p.mapCodec f).counts.codecResets + 1 }
        else p.mapCodec f) = (if p.decoder.isSome then { p with
          decoder := none, counts.codecResets := p.counts.codecResets + 1 }
        else p).mapCodec f := by
      change (if p.decoder.isSome then _ else _) = _
      split <;> rfl
    simp only [hreset]
    generalize (if p.decoder.isSome then { p with
      decoder := none, counts.codecResets := p.counts.codecResets + 1 } else p) = q
    by_cases hkey : c.isKey = true
    · simp only [hkey, Bool.not_true, Bool.false_eq_true, if_false, createDecoder?_mapCodec h]
      rcases q.createDecoder? big with ⟨made, r⟩
      cases made <;> rfl
    · simp only [hkey, Bool.not_false, if_true]
      rfl

theorem decodeWith_mapCodec (h : big.Follows small f) (p : Player V) (i : Nat) (c : Chunk) :
    (p.mapCodec f).decodeWith small i c = (p.decodeWith big i c).mapCodec f := by
  have hreply : small.decode c i (p.mapCodec f).codec =
      (big.decode c i p.codec).mapCodec f := h.decode c i p.codec
  unfold decodeWith
  simp only [hreply, Reply.succeeded_mapCodec]
  have hd := deliver_mapCodec f { p with codec := (big.decode c i p.codec).codec } i
    (big.decode c i p.codec).emitted
  change ({ p.mapCodec f with codec := f (big.decode c i p.codec).codec } : Player W).deliver i
    (big.decode c i p.codec).emitted = _ at hd
  simp only [Reply.mapCodec, hd]
  split <;> rfl

theorem decode_mapCodec (h : big.Follows small f) (p : Player V) (c : Chunk) :
    (p.mapCodec f).decode small c = (p.decode big c).mapCodec f := by
  unfold decode
  change (if !p.decoding && !c.isKey then _ else _) = _
  split
  · rfl
  · have hf := decoderFor_mapCodec h { p with decoding := true } c
    change ({ p.mapCodec f with decoding := true } : Player W).decoderFor small c = _ at hf
    rw [hf]
    rcases decoderFor big { p with decoding := true } c with ⟨made, q⟩
    cases made with
    | none => rfl
    | some i => exact decodeWith_mapCodec h q i c

theorem play_mapCodec (h : big.Follows small f) (p : Player V) (o : Received) :
    (p.mapCodec f).play small o = (p.play big o).mapCodec f := by
  unfold play
  split
  · rfl
  · split
    · rfl
    · exact decode_mapCodec h p _

theorem tick_mapCodec (h : big.Follows small f) (p : Player V) (now : Nat) :
    (p.mapCodec f).tick small now = ((p.tick big now).1, (p.tick big now).2.mapCodec f) := by
  have hpop : (p.mapCodec f).buffer.pop? now = p.buffer.pop? now := rfl
  unfold tick
  rw [hpop]
  cases p.buffer.pop? now with
  | none => exact congrArg _ (renderOutputs_mapCodec f p)
  | some released =>
    obtain ⟨e, buffer⟩ := released
    simp only
    rw [← renderOutputs_mapCodec, ← play_mapCodec h]
    rfl

end Following

/-- What becomes of a chunk, if there is one, for a player with this decoder, which may be open, and
in this state: the calls that are made for it, the decoder and the state after it, and how many
chunks are thrown away to wait for a key chunk. -/
inductive Fate (decoder opened : Option Nat) (decoding : Bool) :
    Option Chunk → List DecoderCall → Option Nat → Bool → Nat → Prop where
  | idle : Fate decoder opened decoding none [] decoder decoding 0
  | waits {c : Chunk} (state : decoding = false) (kind : c.kind = .delta) :
    Fate decoder opened decoding (some c) [] decoder false 1
  | lost {c : Chunk} (state : decoding = true) (kind : c.kind = .delta) (shut : opened = none) :
    Fate decoder opened decoding (some c) [] none false 1
  | kept {c : Chunk} (i : Nat) (ok : Bool) (state : decoding = true ∨ c.kind = .key)
      (current : opened = some i) :
    Fate decoder opened decoding (some c) [.decode i c ok] decoder ok 0
  | refused {c : Chunk} (kind : c.kind = .key) (shut : opened = none) :
    Fate decoder opened decoding (some c) [.create none] none false 0
  | unfit {c : Chunk} (i : Nat) (kind : c.kind = .key) (shut : opened = none) :
    Fate decoder opened decoding (some c) [.create (some i), .configure i false] none false 0
  | renewed {c : Chunk} (i : Nat) (ok : Bool) (setup : List DecoderCall)
      (setup_eq : setup = [] ∨ setup = [.configure i true])
      (kind : c.kind = .key) (shut : opened = none) :
    Fate decoder opened decoding (some c) (.create (some i) :: setup ++ [.decode i c ok]) (some i)
      ok 0

section Logging

variable (dec : DecoderFamily W)

theorem calls_create {p : Player (Logged W DecoderCall)} {made : Except CodecFault Nat}
    {codec : Logged W DecoderCall} (h : dec.logged.create p.config p.codec = (made, codec)) :
    codec.calls = p.codec.calls ++ [.create made.toOption] := by
  rcases h with ⟨⟩
  rfl

theorem calls_configure (c : CodecConfig) (i : Nat) (l : Logged W DecoderCall) :
    (dec.logged.configure c i l).codec.calls =
      l.calls ++ [.configure i (dec.logged.configure c i l).succeeded] := rfl

/-- A decoder is made, and configured if it has to be. -/
theorem calls_setUp {p : Player (Logged W DecoderCall)} {i : Nat}
    {codec codec' : Logged W DecoderCall}
    (hmade : dec.logged.create p.config p.codec = (.ok i, codec))
    (hsetup : SetUp dec.logged p.config i codec codec') :
    ∃ setup, (setup = [] ∨ setup = [.configure i true]) ∧
      codec'.calls = p.codec.calls ++ .create (some i) :: setup := by
  have hcalls := calls_create dec hmade
  cases hsetup with
  | ready state => exact ⟨[], Or.inl rfl, hcalls⟩
  | configured state fits =>
    refine ⟨[.configure i true], Or.inr rfl, ?_⟩
    rw [calls_configure, fits, hcalls, List.append_assoc]
    rfl

theorem decodeWith_logged (p : Player (Logged W DecoderCall)) (i : Nat) (c : Chunk) :
    ∃ ok : Bool,
      (p.decodeWith dec.logged i c).codec.calls = p.codec.calls ++ [.decode i c ok] ∧
      (p.decodeWith dec.logged i c).decoder = p.decoder ∧
      (p.decodeWith dec.logged i c).decoding = (p.decoding && ok) ∧
      (p.decodeWith dec.logged i c).counts =
        { p.counts with chunksDecoded := p.counts.chunksDecoded + ok.toNat } := by
  have hlog : (dec.logged.decode c i p.codec).codec.calls =
      p.codec.calls ++ [.decode i c (dec.logged.decode c i p.codec).succeeded] := rfl
  rcases decodeWith_cases dec.logged p i c rfl with ⟨hok, h⟩ | ⟨hok, h⟩
  all_goals
    rw [hok] at hlog
    rw [h]
  · exact ⟨true, hlog, rfl, (Bool.and_true _).symm, rfl⟩
  · exact ⟨false, hlog, rfl, (Bool.and_false _).symm, rfl⟩

theorem decode_fate (p : Player (Logged W DecoderCall)) (c : Chunk) :
    ∃ calls discards,
      Fate p.decoder (p.openDecoder dec.logged) p.decoding (some c) calls
        (p.decode dec.logged c).decoder (p.decode dec.logged c).decoding discards ∧
      (p.decode dec.logged c).codec.calls = p.codec.calls ++ calls ∧
      (p.decode dec.logged c).counts.keyframeWaitDiscards =
        p.counts.keyframeWaitDiscards + discards := by
  have houtcome := decode_outcome dec.logged p c
  generalize p.decode dec.logged c = q at houtcome ⊢
  cases houtcome with
  | waits state kind =>
    refine ⟨[], 1, ?_, (List.append_nil _).symm, rfl⟩
    have hfate : Fate p.decoder (p.openDecoder dec.logged) p.decoding (some c) [] p.decoder
        false 1 := .waits state kind
    rwa [← state] at hfate
  | @kept i state current =>
    obtain ⟨ok, hcalls, hdecoder, hdecoding, hcounts⟩ :=
      decodeWith_logged dec { p with decoding := true } i c
    have hcount := congrArg PlayStats.keyframeWaitDiscards hcounts
    refine ⟨_, 0, ?_, hcalls, hcount⟩
    rw [hdecoder, hdecoding]
    exact .kept i ok state current
  | lost state kind shut => exact ⟨[], 1, .lost state kind shut, (List.append_nil _).symm, rfl⟩
  | refused kind shut made =>
    exact ⟨[.create none], 0, .refused kind shut, calls_create dec made, rfl⟩
  | @unfit kind shut i _ made _ failed =>
    refine ⟨[.create (some i), .configure i false], 0, .unfit i kind shut, ?_, rfl⟩
    simp only
    rw [calls_configure, failed, calls_create dec made, List.append_assoc]
    rfl
  | @renewed kind shut i codec codec' made setUp =>
    obtain ⟨setup, hsetup, hmade⟩ := calls_setUp dec made setUp
    obtain ⟨ok, hcalls, hdecoder, hdecoding, hcounts⟩ := decodeWith_logged dec
      (Player.renewed { p with decoding := true, counts.codecResets := p.resets } i codec') i c
    have hcount := congrArg PlayStats.keyframeWaitDiscards hcounts
    refine ⟨.create (some i) :: setup ++ [.decode i c ok], 0, ?_, ?_, hcount⟩
    · rw [hdecoder, hdecoding]
      exact .renewed i ok setup hsetup kind shut
    · rw [hcalls]
      change codec'.calls ++ _ = _
      rw [hmade, List.append_assoc, List.cons_append]

end Logging

section Calls

variable (dec : DecoderFamily W)

theorem play_fate (p : Player (Logged W DecoderCall)) (o : Received) :
    ∃ calls discards,
      Fate p.decoder (p.openDecoder dec.logged) p.decoding o.chunk? calls
        (p.play dec.logged o).decoder (p.play dec.logged o).decoding discards ∧
      (p.play dec.logged o).codec.calls = p.codec.calls ++ calls ∧
      (p.play dec.logged o).counts.keyframeWaitDiscards =
        p.counts.keyframeWaitDiscards + discards := by
  unfold play Received.chunk?
  by_cases hcontrol : o.isControl = true
  · rw [if_pos hcontrol, if_pos hcontrol]
    exact ⟨[], 0, .idle, (List.append_nil _).symm, rfl⟩
  · rw [if_neg hcontrol, if_neg hcontrol]
    cases hread : Chunk.unpack o.payload with
    | error e => exact ⟨[], 0, .idle, (List.append_nil _).symm, rfl⟩
    | ok c => exact decode_fate dec p c

def dueChunk? (p : Player W) (now : Nat) : Option Chunk :=
  (p.buffer.pop? now).bind fun released => released.1.payload.chunk?

def popped (p : Player W) (buffer : JitterBuffer Received) : Player W :=
  { p with buffer := buffer, counts.entriesPlayed := p.counts.entriesPlayed + 1 }

theorem tick_of_pop?_none {p : Player W} {now : Nat} (h : p.buffer.pop? now = none) :
    p.tick dec now = (false, p.renderOutputs) := by
  unfold tick
  rw [h]

theorem tick_of_pop?_some {p : Player W} {now : Nat} {e : JitterEntry Received}
    {buffer : JitterBuffer Received} (h : p.buffer.pop? now = some (e, buffer)) :
    p.tick dec now = (true, ((p.popped buffer).play dec e.payload).renderOutputs) := by
  unfold tick
  rw [h]
  rfl

/-- The calls that a tick makes on the decoders. -/
def calls (p : Player W) (now : Nat) : List DecoderCall :=
  ((p.mapCodec Logged.fresh).tick dec.logged now).2.codec.calls

/-- The log of a tick is all that tells it from the tick itself. -/
theorem tick_fresh (p : Player W) (now : Nat) :
    (p.tick dec now).2 =
      ((p.mapCodec Logged.fresh).tick dec.logged now).2.mapCodec Logged.world :=
  congrArg Prod.snd (tick_mapCodec dec.logged_follows (p.mapCodec Logged.fresh) now)

theorem tick_fate (p : Player W) (now : Nat) :
    ∃ discards,
      Fate p.decoder (p.openDecoder dec) p.decoding (p.dueChunk? now) (p.calls dec now)
        (p.tick dec now).2.decoder (p.tick dec now).2.decoding discards ∧
      (p.tick dec now).2.counts.keyframeWaitDiscards =
        p.counts.keyframeWaitDiscards + discards := by
  have hrender : ∀ q : Player (Logged W DecoderCall), q.renderOutputs.decoder = q.decoder ∧
      q.renderOutputs.decoding = q.decoding ∧ q.renderOutputs.codec = q.codec ∧
      q.renderOutputs.counts.keyframeWaitDiscards = q.counts.keyframeWaitDiscards := by
    intro q
    obtain ⟨_, _, _, _, _, h⟩ := renderOutputs_footprint q
    rw [h]
    exact ⟨rfl, rfl, rfl, rfl⟩
  rw [tick_fresh]
  unfold calls dueChunk?
  cases hpop : p.buffer.pop? now with
  | none =>
    rw [tick_of_pop?_none dec.logged (p := p.mapCodec Logged.fresh) hpop]
    obtain ⟨hdecoder, hdecoding, hcodec, hcount⟩ := hrender (p.mapCodec Logged.fresh)
    refine ⟨0, ?_, hcount⟩
    simp only [mapCodec] at hdecoder hdecoding hcodec ⊢
    rw [hdecoder, hdecoding, hcodec]
    exact .idle
  | some released =>
    obtain ⟨e, buffer⟩ := released
    rw [tick_of_pop?_some dec.logged (p := p.mapCodec Logged.fresh) hpop]
    obtain ⟨calls, discards, hfate, hcalls, hcount⟩ :=
      play_fate dec ((p.mapCodec Logged.fresh).popped buffer) e.payload
    generalize ((p.mapCodec Logged.fresh).popped buffer).play dec.logged e.payload = q at *
    obtain ⟨hdecoder, hdecoding, hcodec, hcount'⟩ := hrender q
    refine ⟨discards, ?_, hcount'.trans hcount⟩
    simp only [mapCodec] at hfate ⊢
    rw [hdecoder, hdecoding, hcodec, hcalls]
    exact hfate

end Calls

end Player

end LiveMedia

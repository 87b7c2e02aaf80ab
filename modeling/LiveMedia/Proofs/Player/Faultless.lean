import LiveMedia.Codec.Simulated
import LiveMedia.Proofs.Codec.Faultless
import LiveMedia.Proofs.Player.KeyframeWait
import LiveMedia.Proofs.Player.OneStream

/-!
# Playing without faults

With a simulated decoder that nothing stops, a player of one stream makes one decoder for its first
chunk and gives it every chunk that is released. Each picture is shown at once, with the time stamp
of its own chunk.
-/

namespace LiveMedia
set_option autoImplicit false

open SimulatedCodec

/-- The chunk that a call gives to a decoder, with its decoder and its end. -/
def DecoderCall.given? : DecoderCall → Option (ℕ × Chunk × Bool)
  | decode i c ok => some (i, c, ok)
  | _ => none

namespace Player

variable {W : Type}

/-- A player whose decoder nothing stops; it has started when it has been given a chunk. -/
structure Serves (p : Player SimulatedCodec) (i : ℕ) (started : Bool) : Prop where
  timestamps : p.timestamps = []
  decoder : p.decoder = if started then some i else none
  outputs : p.outputs = if started then some ⟨i, []⟩ else none
  decoding : p.decoding = started
  next : started = false → i = p.codec.created + 1 ∧ p.codec.Faultless p.config
  working : started = true → p.codec.Working i

def renderingOf (c : Chunk) : Rendering := ⟨pictureOf c, some c.timestamp⟩

namespace Serves

variable {p : Player SimulatedCodec} {i : ℕ} {started : Bool}

theorem openDecoder_eq (h : p.Serves i started) :
    p.openDecoder decoders = if started then some i else none := by
  unfold openDecoder
  rw [h.decoder]
  cases hs : started with
  | false => rfl
  | true =>
    have hstate : decoders.state p.codec i = .ready := (h.working hs).ready
    simp only [if_true, Option.filter_some, hstate]
    rfl

/-- A working decoder gives out the picture of the chunk at once. -/
theorem decodeWith_eq {q : Player SimulatedCodec} (hworking : q.codec.Working i)
    (houtputs : q.outputs = some ⟨i, []⟩) (htimestamps : q.timestamps = []) (c : Chunk) :
    ∃ codec, q.decodeWith decoders i c = { q with
        codec := codec
        outputs := some ⟨i, [pictureOf c]⟩
        timestamps := [c.timestamp]
        counts.chunksDecoded := q.counts.chunksDecoded + 1 } ∧ codec.Working i := by
  obtain ⟨w, hdecode, hwork⟩ := decode_eq hworking c
  have hreply : decoders.decode c i q.codec = .ok w [pictureOf c] := hdecode
  refine ⟨w, ?_, hwork⟩
  unfold decodeWith deliver
  simp only [hreply, Reply.ok, Reply.succeeded, houtputs, if_true, List.nil_append, htimestamps]

theorem decode (h : p.Serves i started) {c : Chunk} (hkey : started = false → c.kind = .key) :
    ∃ codec, p.decode decoders c = { p with
        codec := codec
        decoder := some i
        outputs := some ⟨i, [pictureOf c]⟩
        timestamps := [c.timestamp]
        decoding := true
        counts.chunksDecoded := p.counts.chunksDecoded + 1 } ∧ codec.Working i := by
  have hopen := h.openDecoder_eq
  have houtcome := decode_outcome decoders p c
  generalize p.decode decoders c = q at houtcome ⊢
  cases hs : started with
  | true =>
    rw [hs, if_pos rfl] at hopen
    have hdecoder : p.decoder = some i := by rw [h.decoder, hs]; rfl
    have houtputs : p.outputs = some ⟨i, []⟩ := by rw [h.outputs, hs]; rfl
    cases houtcome with
    | waits state _ => cases state.symm.trans (h.decoding.trans hs)
    | kept _ current =>
      cases hopen.symm.trans current
      rw [← hdecoder]
      exact decodeWith_eq (q := { p with decoding := true }) (h.working hs) houtputs h.timestamps c
    | lost _ _ shut => cases shut.symm.trans hopen
    | refused _ shut _ => cases shut.symm.trans hopen
    | unfit _ shut _ _ _ => cases shut.symm.trans hopen
    | renewed _ shut _ _ => cases shut.symm.trans hopen
  | false =>
    rw [hs, if_neg Bool.false_ne_true] at hopen
    obtain ⟨rfl, hfaultless⟩ := h.next hs
    obtain ⟨v, hcreate, hwork, _⟩ := create_eq hfaultless
    have hmade : decoders.create p.config p.codec = (.ok (p.codec.created + 1), v) := hcreate
    have hready : decoders.state v (p.codec.created + 1) ≠ .uninitialized := by
      change v.state (p.codec.created + 1) ≠ .uninitialized
      rw [hwork.ready]
      decide
    have hresets : p.resets = p.counts.codecResets := by
      rw [resets, h.decoder, hs]
      rfl
    cases houtcome with
    | waits _ kind => cases kind.symm.trans (hkey hs)
    | kept _ current => cases hopen.symm.trans current
    | lost _ kind _ => cases kind.symm.trans (hkey hs)
    | refused _ _ made => cases hmade.symm.trans made
    | unfit _ _ made state _ =>
      cases hmade.symm.trans made
      exact absurd state hready
    | renewed _ _ made setup =>
      cases hmade.symm.trans made
      cases setup with
      | ready _ =>
        rw [hresets]
        exact decodeWith_eq hwork rfl rfl c
      | configured state _ => exact absurd state hready

theorem renderOutputs_eq (h : p.Serves i started) : p.renderOutputs = p := by
  unfold renderOutputs
  cases hs : started with
  | false =>
    have houtputs : p.outputs = none := by rw [h.outputs, hs]; rfl
    simp only [houtputs]
  | true =>
    have houtputs : p.outputs = some ⟨i, []⟩ := by rw [h.outputs, hs]; rfl
    simp only [houtputs, List.foldl_nil]
    rw [← houtputs]

end Serves

/-- From one state of a player to another these pictures were taken from the screen, and these were
put on it, unless some were dropped. -/
structure Shows (p q : Player W) (taken shown : List Rendering) : Prop where
  drops : p.counts.renderDrops ≤ q.counts.renderDrops
  waiting : q.counts.renderDrops = p.counts.renderDrops →
    taken ++ q.screen.waiting = p.screen.waiting ++ shown

theorem Shows.of_eq {p q : Player W} (hscreen : q.screen = p.screen)
    (hdrops : q.counts.renderDrops = p.counts.renderDrops) : p.Shows q [] [] := by
  refine ⟨Nat.le_of_eq hdrops.symm, fun _ => ?_⟩
  rw [hscreen]
  exact (List.append_nil _).symm

theorem Shows.trans {p q r : Player W} {taken taken' shown shown' : List Rendering}
    (h : p.Shows q taken shown) (k : q.Shows r taken' shown') :
    p.Shows r (taken ++ taken') (shown ++ shown') := by
  refine ⟨Nat.le_trans h.drops k.drops, fun hdrops => ?_⟩
  have hpq := h.drops
  have hqr := k.drops
  rw [List.append_assoc, k.waiting (by omega), ← List.append_assoc, h.waiting (by omega),
    List.append_assoc]

theorem shows_renderOutputs {p : Player W} {i : ℕ} {c : Chunk}
    (houtputs : p.outputs = some ⟨i, [pictureOf c]⟩) (htimes : p.timestamps = [c.timestamp]) :
    p.Shows p.renderOutputs [] [renderingOf c] ∧ ∃ screen counts, p.renderOutputs = { p with
      outputs := some ⟨i, []⟩, timestamps := [], screen := screen, counts := counts } := by
  unfold renderOutputs
  simp only [houtputs, List.foldl_cons, List.foldl_nil]
  unfold render
  simp only [htimes, List.head?_cons, List.tail_cons]
  rw [show (⟨pictureOf c, some c.timestamp⟩ : Rendering) = renderingOf c from rfl]
  cases hoffer : p.screen.offer? (renderingOf c) with
  | none =>
    refine ⟨⟨Nat.le_succ _, fun hdrops => absurd hdrops (Nat.succ_ne_self _)⟩, _, _, rfl⟩
  | some screen =>
    refine ⟨⟨Nat.le_refl _, fun _ => ?_⟩, _, _, rfl⟩
    unfold Screen.offer? at hoffer
    split at hoffer
    · cases hoffer
      rfl
    · cases hoffer

namespace Serves

variable {p : Player SimulatedCodec} {i : ℕ} {started : Bool}

theorem popped (h : p.Serves i started) (buffer : JitterBuffer Received) :
    (p.popped buffer).Serves i started :=
  ⟨h.timestamps, h.decoder, h.outputs, h.decoding, h.next, h.working⟩

theorem decode_renderOutputs (h : p.Serves i started) {c : Chunk}
    (hkey : started = false → c.kind = .key) :
    (p.decode decoders c).renderOutputs.Serves i true ∧
      p.Shows (p.decode decoders c).renderOutputs [] [renderingOf c] := by
  obtain ⟨codec, hdecode, hwork⟩ := h.decode hkey
  rw [hdecode]
  obtain ⟨hshows, screen, counts, hrender⟩ := shows_renderOutputs (i := i) (c := c)
    (p := { p with
      codec := codec
      decoder := some i
      outputs := some ⟨i, [pictureOf c]⟩
      timestamps := [c.timestamp]
      decoding := true
      counts.chunksDecoded := p.counts.chunksDecoded + 1 }) rfl rfl
  refine ⟨?_, ⟨hshows.drops, hshows.waiting⟩⟩
  rw [hrender]
  exact ⟨rfl, rfl, rfl, rfl, fun hs => absurd hs (by decide), fun _ => hwork⟩

theorem tick (h : p.Serves i started) {now : ℕ}
    (hkey : started = false → ∀ c, p.dueChunk? now = some c → c.kind = .key) :
    (p.tick decoders now).2.Serves i (started || (p.dueChunk? now).isSome) ∧
      p.Shows (p.tick decoders now).2 [] ((p.dueChunk? now).map renderingOf).toList := by
  unfold dueChunk? at hkey ⊢
  cases hpop : p.buffer.pop? now with
  | none =>
    rw [tick_of_pop?_none decoders hpop, h.renderOutputs_eq]
    simp only [Option.bind_none, Option.isSome_none, Bool.or_false]
    exact ⟨h, Shows.of_eq rfl rfl⟩
  | some released =>
    obtain ⟨e, buffer⟩ := released
    rw [tick_of_pop?_some decoders hpop]
    rw [hpop, Option.bind_some] at hkey
    rw [Option.bind_some]
    simp only at hkey ⊢
    have hq := h.popped buffer
    have hidle : ∀ malformed, (Player.Serves { p.popped buffer with
        counts.malformedPayloads := malformed } i started) :=
      fun _ => ⟨h.timestamps, h.decoder, h.outputs, h.decoding, h.next, h.working⟩
    unfold Received.chunk? at hkey ⊢
    unfold play
    by_cases hcontrol : e.payload.isControl = true
    · simp only [hcontrol, if_true, Option.isSome_none, Bool.or_false, hq.renderOutputs_eq]
      exact ⟨hq, Shows.of_eq rfl rfl⟩
    · cases hread : Chunk.unpack e.payload.payload with
      | error fault =>
        simp only [if_neg hcontrol, Except.toOption, Option.isSome_none, Bool.or_false,
          (hidle _).renderOutputs_eq]
        exact ⟨hidle _, Shows.of_eq rfl rfl⟩
      | ok c =>
        rw [hread, if_neg hcontrol] at hkey
        simp only [if_neg hcontrol, Except.toOption, Option.isSome_some, Bool.or_true]
        obtain ⟨hserves, hshows⟩ := hq.decode_renderOutputs fun hs => hkey hs c rfl
        exact ⟨hserves, ⟨hshows.drops, hshows.waiting⟩⟩

theorem calls (h : p.Serves i started) {now : ℕ}
    (hkey : started = false → ∀ c, p.dueChunk? now = some c → c.kind = .key) :
    (p.calls decoders now).filterMap DecoderCall.given? =
      (p.dueChunk? now).toList.map fun c => (i, c, true) := by
  obtain ⟨hq, _⟩ := h.tick hkey
  obtain ⟨discards, hfate, _⟩ := p.tick_fate decoders now
  have hdecoder := hq.decoder
  have hdecoding := hq.decoding
  have hopen := h.openDecoder_eq
  rw [hopen] at hfate
  generalize p.calls decoders now = calls at hfate ⊢
  generalize (p.tick decoders now).2.decoder = decoder at hfate hdecoder
  generalize (p.tick decoders now).2.decoding = decoding at hfate hdecoding
  generalize p.decoder = before at hfate
  generalize p.decoding = state at hfate
  cases hdue : p.dueChunk? now with
  | none =>
    rw [hdue] at hfate
    cases hfate
    rfl
  | some c =>
    rw [hdue] at hfate
    rw [hdue, Option.isSome_some, Bool.or_true] at hdecoder hdecoding
    rw [hdecoder, hdecoding, if_pos rfl] at hfate
    cases hs : started with
    | true =>
      rw [hs, if_pos rfl] at hfate
      cases hfate with
      | kept k ok _ hk =>
        cases hk
        rfl
      | renewed k ok setup _ _ hk => cases hk
    | false =>
      rw [hs, if_neg Bool.false_ne_true] at hfate
      cases hfate with
      | kept k ok _ hk => cases hk
      | renewed k ok setup hsetup _ _ =>
        rcases hsetup with rfl | rfl <;> rfl

end Serves

/-- Nothing that comes from outside but objects and viewers. -/
def Input.isQuiet : Input W → Bool
  | codec _ => false
  | closeScreen => false
  | _ => true

def taken (p : Player W) : Input W → List Rendering
  | .view n => (p.screen.take n).1
  | _ => []

def viewed (dec : DecoderFamily W) (p : Player W) : List (Input W) → List Rendering
  | [] => []
  | input :: rest => p.taken input ++ (p.step dec input).viewed dec rest

def newChunk? (p : Player W) (input : Input W) : Option Chunk :=
  (p.released? input).bind fun e => e.payload.chunk?

def chunksPlayed (dec : DecoderFamily W) (p : Player W) (inputs : List (Input W)) : List Chunk :=
  (p.played dec inputs).filterMap fun e => e.payload.chunk?

theorem chunksPlayed_cons (dec : DecoderFamily W) (p : Player W) (input : Input W)
    (rest : List (Input W)) : p.chunksPlayed dec (input :: rest) =
      (p.newChunk? input).toList ++ (p.step dec input).chunksPlayed dec rest := by
  unfold chunksPlayed newChunk?
  rw [played, List.filterMap_append]
  congr 1
  cases p.released? input with
  | none => rfl
  | some e => cases hchunk : e.payload.chunk? <;> simp [hchunk]

theorem newChunk?_tick (p : Player W) (now : ℕ) : p.newChunk? (.tick now) = p.dueChunk? now := by
  change ((p.buffer.pop? now).map Prod.fst).bind _ = (p.buffer.pop? now).bind _
  cases p.buffer.pop? now <;> rfl

end Player

def Milestone.given? : Milestone → Option (ℕ × Chunk × Bool)
  | call c => c.given?
  | restart => none

namespace Player.Serves

variable {p : Player SimulatedCodec} {i : ℕ} {started : Bool} {epoch : ℕ}

theorem step (h : p.Serves i started) (hp : p.epoch = none ∨ p.epoch = some epoch)
    {input : Input SimulatedCodec} (hquiet : input.isQuiet = true)
    (hepoch : ∀ o, input.object? = some o → o.epoch = epoch)
    (hkey : started = false → ∀ c, p.newChunk? input = some c → c.kind = .key) :
    (p.step decoders input).Serves i (started || (p.newChunk? input).isSome) ∧
      p.Shows (p.step decoders input) (p.taken input)
        ((p.newChunk? input).map renderingOf).toList ∧
      (p.milestones decoders input).filterMap Milestone.given? =
        (p.newChunk? input).toList.map fun c => (i, c, true) := by
  cases input with
  | receive now o =>
    obtain rfl := hepoch o rfl
    have hsame : p.epoch.any (· < o.epoch) = false := by
      rcases hp with hp | hp
      · rw [hp, Option.any_none]
      · rw [hp, Option.any_some, decide_eq_false (Nat.lt_irrefl o.epoch)]
    obtain ⟨_, _, _, _, _, _, _, hreceive⟩ := receive_footprint p now o
    have hmilestones : p.milestones decoders (.receive now o) = [] :=
      if_neg (Bool.eq_false_iff.mp hsame)
    rw [hsame, Bool.not_false, Bool.and_true] at hreceive
    rw [hmilestones]
    change (p.receive now o).Serves i (started || false) ∧ p.Shows (p.receive now o) [] [] ∧ _
    rw [hreceive, Bool.or_false]
    exact ⟨⟨h.timestamps, h.decoder, h.outputs, h.decoding, h.next, h.working⟩,
      Shows.of_eq rfl rfl, rfl⟩
  | tick now =>
    rw [newChunk?_tick] at hkey ⊢
    obtain ⟨hserves, hshows⟩ := h.tick hkey
    refine ⟨hserves, hshows, ?_⟩
    rw [← h.calls hkey]
    change ((p.calls decoders now).map Milestone.call).filterMap Milestone.given? = _
    rw [List.filterMap_map]
    rfl
  | render =>
    change p.renderOutputs.Serves i (started || false) ∧ p.Shows p.renderOutputs [] [] ∧ _
    rw [h.renderOutputs_eq, Bool.or_false]
    exact ⟨h, Shows.of_eq rfl rfl, rfl⟩
  | view n =>
    change Player.Serves _ i (started || false) ∧ _
    rw [Bool.or_false]
    refine ⟨⟨h.timestamps, h.decoder, h.outputs, h.decoding, h.next, h.working⟩,
      ⟨Nat.le_refl _, fun _ => ?_⟩, rfl⟩
    exact (List.take_append_drop n p.screen.waiting).trans (List.append_nil _).symm
  | codec run => cases hquiet
  | closeScreen => cases hquiet

/-- In a run of one stream the decoder is given all chunks that are released, and as long as no
picture is dropped, the pictures of all of them are shown. -/
theorem run (h : p.Serves i started) (hp : p.epoch = none ∨ p.epoch = some epoch)
    {inputs : List (Input SimulatedCodec)} (hquiet : ∀ input ∈ inputs, input.isQuiet = true)
    (hepoch : ∀ o ∈ arrivals inputs, o.epoch = epoch)
    (hkey : started = false →
      ∀ c, (p.chunksPlayed decoders inputs).head? = some c → c.kind = .key) :
    p.Shows (p.run decoders inputs) (p.viewed decoders inputs)
        ((p.chunksPlayed decoders inputs).map renderingOf) ∧
      (p.history decoders inputs).filterMap Milestone.given? =
        (p.chunksPlayed decoders inputs).map fun c => (i, c, true) := by
  induction inputs generalizing p started with
  | nil => exact ⟨Shows.of_eq rfl rfl, rfl⟩
  | cons input rest ih =>
    have hfirst : ∀ o, input.object? = some o → o.epoch = epoch := by
      intro o ho
      exact hepoch o (List.mem_filterMap.mpr ⟨input, List.mem_cons_self, ho⟩)
    have hrest : ∀ o ∈ arrivals rest, o.epoch = epoch := by
      intro o ho
      obtain ⟨x, hx, hox⟩ := List.mem_filterMap.mp ho
      exact hepoch o (List.mem_filterMap.mpr ⟨x, List.mem_cons_of_mem input hx, hox⟩)
    rw [chunksPlayed_cons] at hkey ⊢
    obtain ⟨hserves, hshows, hgiven⟩ := h.step hp (hquiet input List.mem_cons_self) hfirst (by
      intro hs c hc
      apply hkey hs c
      rw [hc]
      rfl)
    obtain ⟨_, _, _, hnext⟩ := buffer_step decoders hp hfirst
    obtain ⟨hshows', hgiven'⟩ := ih hserves hnext
      (fun x hx => hquiet x (List.mem_cons_of_mem input hx)) hrest (by
        intro hs c hc
        obtain ⟨hstarted, hnone⟩ := Bool.or_eq_false_iff.mp hs
        apply hkey hstarted c
        rw [Option.isSome_eq_false_iff, Option.isNone_iff_eq_none] at hnone
        rw [hnone]
        exact hc)
    constructor
    · rw [List.map_append, ← Option.toList_map]
      exact hshows.trans hshows'
    · rw [history, List.filterMap_append, hgiven, hgiven', List.map_append]

end Player.Serves

end LiveMedia

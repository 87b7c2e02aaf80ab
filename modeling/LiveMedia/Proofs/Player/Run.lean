import LiveMedia.Proofs.Player.Outcomes

/-!
# Runs of a player

A run is a list of inputs, each at its own moment. What a player releases depends on its intake
alone: the settings, the buffer and the epoch. Decoding, rendering and faults of the codecs leave
the intake as it is, so the intake is a machine of its own.
-/

namespace LiveMedia
set_option autoImplicit false

variable {W : Type}

namespace Player

/-- Whatever may happen to a player, in any order. -/
inductive Input (W : Type) where
  | receive (now : Nat) (o : Received)
  | tick (now : Nat)
  | render
  /-- The codecs change by themselves, as in a fault, and may give out pictures. -/
  | codec (run : W → W × List (Nat × Picture))
  | view (n : Nat)
  | closeScreen

def Input.object? : Input W → Option Received
  | .receive _ o => some o
  | _ => none

def arrivals (inputs : List (Input W)) : List Received := inputs.filterMap Input.object?

section Run

variable (dec : DecoderFamily W)

def step (p : Player W) : Input W → Player W
  | .receive now o => p.receive now o
  | .tick now => (p.tick dec now).2
  | .render => p.renderOutputs
  | .codec run => p.actOnCodec run
  | .view n => p.actOnScreen fun s => (s.take n).2
  | .closeScreen => p.actOnScreen Screen.close

def run (p : Player W) (inputs : List (Input W)) : Player W := inputs.foldl (step dec) p

@[simp] theorem run_nil (p : Player W) : p.run dec [] = p := rfl

@[simp] theorem run_cons (p : Player W) (i : Input W) (rest : List (Input W)) :
    p.run dec (i :: rest) = (p.step dec i).run dec rest := rfl

theorem run_append (p : Player W) (first second : List (Input W)) :
    p.run dec (first ++ second) = (p.run dec first).run dec second := List.foldl_append

/-- The entry that an input takes out of the buffer for playout. -/
def released? (p : Player W) : Input W → Option (JitterEntry Received)
  | .tick now => (p.buffer.pop? now).map Prod.fst
  | _ => none

def played (p : Player W) : List (Input W) → List (JitterEntry Received)
  | [] => []
  | i :: rest => (p.released? i).toList ++ (p.step dec i).played rest

end Run

end Player

/-- The part of a player that decides what is released and when. -/
structure Intake where
  media : Media
  buffer : JitterBuffer Received
  epoch : Option Nat

namespace Intake

def follow? (q : Intake) (epoch : Nat) : Option Intake :=
  match q.epoch with
  | none => some { q with epoch := some epoch }
  | some current =>
    if epoch < current then none
    else if epoch = current then some q
    else some { q with buffer := q.buffer.clear, epoch := some epoch }

def receive (q : Intake) (now : Nat) (o : Received) : Intake :=
  match q.follow? o.epoch with
  | none => q
  | some q =>
    if o.isControl && q.media.discardsControl then q
    else { q with buffer := (q.buffer.push now ⟨o.group, o.object⟩ o).2 }

def tick (q : Intake) (now : Nat) : Intake :=
  match q.buffer.pop? now with
  | none => q
  | some (_, buffer) => { q with buffer := buffer }

def step (q : Intake) : Player.Input W → Intake
  | .receive now o => q.receive now o
  | .tick now => q.tick now
  | _ => q

end Intake

namespace Player

def intake (p : Player W) : Intake := ⟨p.media, p.buffer, p.epoch⟩

@[simp] theorem buffer_intake (p : Player W) : p.intake.buffer = p.buffer := rfl

@[simp] theorem epoch_intake (p : Player W) : p.intake.epoch = p.epoch := rfl

@[simp] theorem media_intake (p : Player W) : p.intake.media = p.media := rfl

/-! What each operation leaves alone is read off the fields that it can change. -/

theorem actOnCodec_footprint (p : Player W) (run : W → W × List (Nat × Picture)) :
    ∃ codec outputs, p.actOnCodec run = { p with codec := codec, outputs := outputs } := by
  have go : ∀ (pictures : List (Nat × Picture)) (q : Player W), ∃ outputs,
      pictures.foldl (fun p x => p.deliver x.1 [x.2]) q =
        { q with outputs := outputs } := by
    intro pictures
    induction pictures with
    | nil => exact fun q => ⟨q.outputs, rfl⟩
    | cons x rest ih =>
      intro q
      rw [List.foldl_cons, deliver_eq]
      exact ih _
  obtain ⟨outputs, h⟩ := go (run p.codec).2 { p with codec := (run p.codec).1 }
  exact ⟨(run p.codec).1, outputs, h⟩

theorem follow?_footprint (p : Player W) (epoch : Nat) :
    (p.follow? epoch = none ∧ p.epoch.any (· < epoch) = false) ∨
    ∃ buffer current restarts, p.follow? epoch = some { p with
      buffer := buffer
      epoch := current
      decoding := p.decoding && !p.epoch.any (· < epoch)
      counts.streamRestarts := restarts } := by
  have houtcome := p.follow?_outcome epoch
  generalize p.follow? epoch = r at houtcome ⊢
  cases houtcome with
  | first fresh => exact Or.inr ⟨p.buffer, some epoch, p.counts.streamRestarts, by simp [fresh]⟩
  | stale known older => exact Or.inl ⟨rfl, by simp [known, Nat.le_of_lt older]⟩
  | same known =>
    have hany : p.epoch.any (· < epoch) = false := by simp [known]
    refine Or.inr ⟨p.buffer, p.epoch, p.counts.streamRestarts, ?_⟩
    rw [hany, Bool.not_false, Bool.and_true]
  | newer known later =>
    exact Or.inr ⟨p.buffer.clear, some epoch, p.restart.counts.streamRestarts,
      by simp [known, later, restart]⟩

theorem receive_footprint (p : Player W) (now : Nat) (o : Received) :
    ∃ buffer current bitrate events restarts stale control, p.receive now o = { p with
      buffer := buffer
      epoch := current
      bitrate := bitrate
      events := events
      decoding := p.decoding && !p.epoch.any (· < o.epoch)
      counts.objectsReceived := p.counts.objectsReceived + 1
      counts.staleEpochDrops := stale
      counts.streamRestarts := restarts
      counts.controlObjectsDropped := control } := by
  have houtcome := p.receive_outcome now o
  have hfollow := p.follow?_footprint o.epoch
  generalize p.receive now o = r at houtcome ⊢
  cases houtcome with
  | stale replaced =>
    rcases hfollow with ⟨-, hany⟩ | ⟨_, _, _, hf⟩
    · refine ⟨p.buffer, p.epoch, p.bitrate, p.events, p.counts.streamRestarts,
        p.counts.staleEpochDrops + 1, p.counts.controlObjectsDropped, ?_⟩
      rw [hany, Bool.not_false, Bool.and_true]
    · cases replaced.symm.trans hf
  | control follows _ =>
    rcases hfollow with ⟨hf, -⟩ | ⟨_, _, _, hf⟩
    · cases follows.symm.trans hf
    · cases follows.symm.trans hf
      exact ⟨_, _, p.bitrate, p.events, _, p.counts.staleEpochDrops, _, rfl⟩
  | buffered follows _ bitrate events =>
    rcases hfollow with ⟨hf, -⟩ | ⟨_, _, _, hf⟩
    · cases follows.symm.trans hf
    · cases follows.symm.trans hf
      exact ⟨_, _, bitrate, events, _, p.counts.staleEpochDrops,
        p.counts.controlObjectsDropped, rfl⟩

theorem render_footprint (p : Player W) (picture : Picture) :
    ∃ timestamps screen rendered drops, p.render picture = { p with
      timestamps := timestamps
      screen := screen
      counts.framesRendered := rendered
      counts.renderDrops := drops } := by
  unfold render
  simp only
  split
  · exact ⟨_, _, _, p.counts.renderDrops, rfl⟩
  · exact ⟨_, p.screen, p.counts.framesRendered, _, rfl⟩

theorem renderOutputs_footprint (p : Player W) :
    ∃ outputs timestamps screen rendered drops, p.renderOutputs = { p with
      outputs := outputs
      timestamps := timestamps
      screen := screen
      counts.framesRendered := rendered
      counts.renderDrops := drops } := by
  have go : ∀ (pictures : List Picture) (q : Player W), ∃ timestamps screen rendered drops,
      pictures.foldl render q = { q with
        timestamps := timestamps
        screen := screen
        counts.framesRendered := rendered
        counts.renderDrops := drops } := by
    intro pictures
    induction pictures with
    | nil => exact fun q => ⟨_, _, _, _, rfl⟩
    | cons x rest ih =>
      intro q
      obtain ⟨_, _, _, _, hr⟩ := render_footprint q x
      rw [List.foldl_cons, hr]
      exact ih _
  unfold renderOutputs
  split
  · exact ⟨p.outputs, p.timestamps, p.screen, _, _, rfl⟩
  · rename_i queue _
    obtain ⟨_, _, _, _, h⟩ :=
      go queue.waiting { p with outputs := some { queue with waiting := [] } }
    exact ⟨_, _, _, _, _, h⟩

section Decoding

variable (dec : DecoderFamily W)

theorem decodeWith_footprint (p : Player W) (i : Nat) (c : Chunk) :
    ∃ codec outputs timestamps decoding decoded, p.decodeWith dec i c = { p with
      codec := codec
      outputs := outputs
      timestamps := timestamps
      decoding := decoding
      counts.chunksDecoded := decoded } := by
  rcases decodeWith_cases dec p i c rfl with ⟨_, h⟩ | ⟨_, h⟩
  all_goals rw [h]
  · exact ⟨_, _, _, p.decoding, _, rfl⟩
  · exact ⟨_, _, p.timestamps, false, p.counts.chunksDecoded, rfl⟩

theorem decode_footprint (p : Player W) (c : Chunk) :
    ∃ codec decoder outputs timestamps decoding decoded resets discards, p.decode dec c = { p with
      codec := codec
      decoder := decoder
      outputs := outputs
      timestamps := timestamps
      decoding := decoding
      counts.chunksDecoded := decoded
      counts.codecResets := resets
      counts.keyframeWaitDiscards := discards } := by
  have houtcome := decode_outcome dec p c
  generalize p.decode dec c = q at houtcome ⊢
  cases houtcome with
  | waits =>
    exact ⟨p.codec, p.decoder, p.outputs, p.timestamps, p.decoding, p.counts.chunksDecoded,
      p.counts.codecResets, _, rfl⟩
  | kept =>
    obtain ⟨_, _, _, _, _, h⟩ := decodeWith_footprint dec { p with decoding := true } _ c
    exact ⟨_, p.decoder, _, _, _, _, p.counts.codecResets, p.counts.keyframeWaitDiscards, h⟩
  | lost =>
    exact ⟨p.codec, none, p.outputs, p.timestamps, false, p.counts.chunksDecoded, _, _, rfl⟩
  | refused =>
    exact ⟨_, none, p.outputs, p.timestamps, false, p.counts.chunksDecoded, _,
      p.counts.keyframeWaitDiscards, rfl⟩
  | unfit =>
    exact ⟨_, none, p.outputs, p.timestamps, false, p.counts.chunksDecoded, _,
      p.counts.keyframeWaitDiscards, rfl⟩
  | @renewed _ _ i _ codec' _ _ =>
    obtain ⟨_, _, _, _, _, h⟩ := decodeWith_footprint dec
      (Player.renewed { p with decoding := true, counts.codecResets := p.resets } i codec') i c
    exact ⟨_, _, _, _, _, _, _, p.counts.keyframeWaitDiscards, h⟩

theorem play_footprint (p : Player W) (o : Received) :
    ∃ codec decoder outputs timestamps decoding decoded resets discards malformed,
      p.play dec o = { p with
        codec := codec
        decoder := decoder
        outputs := outputs
        timestamps := timestamps
        decoding := decoding
        counts.chunksDecoded := decoded
        counts.codecResets := resets
        counts.keyframeWaitDiscards := discards
        counts.malformedPayloads := malformed } := by
  unfold play
  split
  · exact ⟨p.codec, p.decoder, p.outputs, p.timestamps, p.decoding, p.counts.chunksDecoded,
      p.counts.codecResets, p.counts.keyframeWaitDiscards, p.counts.malformedPayloads, rfl⟩
  · split
    · exact ⟨p.codec, p.decoder, p.outputs, p.timestamps, p.decoding, p.counts.chunksDecoded,
        p.counts.codecResets, p.counts.keyframeWaitDiscards, _, rfl⟩
    · rename_i c _
      obtain ⟨_, _, _, _, _, _, _, _, h⟩ := decode_footprint dec p c
      rw [h]
      exact ⟨_, _, _, _, _, _, _, _, p.counts.malformedPayloads, rfl⟩

theorem intake_play (p : Player W) (o : Received) : (p.play dec o).intake = p.intake := by
  obtain ⟨_, _, _, _, _, _, _, _, _, h⟩ := play_footprint dec p o
  rw [h]
  rfl

theorem intake_renderOutputs (p : Player W) : p.renderOutputs.intake = p.intake := by
  obtain ⟨_, _, _, _, _, h⟩ := renderOutputs_footprint p
  rw [h]
  rfl

theorem intake_follow? (p : Player W) (epoch : Nat) :
    (p.follow? epoch).map intake = p.intake.follow? epoch := by
  have houtcome := p.follow?_outcome epoch
  generalize p.follow? epoch = r at houtcome ⊢
  unfold Intake.follow?
  rw [epoch_intake]
  cases houtcome with
  | first fresh =>
    rw [fresh]
    rfl
  | stale known older => simp only [known, older, if_true, Option.map_none]
  | same known => simp only [known, Nat.lt_irrefl, if_true, if_false, Option.map_some]
  | newer known later =>
    simp only [known, Nat.lt_asymm later, Nat.ne_of_gt later, if_false, Option.map_some]
    rfl

theorem intake_receive (p : Player W) (now : Nat) (o : Received) :
    (p.receive now o).intake = p.intake.receive now o := by
  have houtcome := p.receive_outcome now o
  generalize p.receive now o = r at houtcome ⊢
  unfold Intake.receive
  rw [← intake_follow?]
  cases houtcome with
  | stale replaced =>
    rw [replaced]
    rfl
  | control follows unwanted =>
    simp only [follows, Option.map_some, media_intake, unwanted, if_true]
    rfl
  | buffered follows wanted bitrate events =>
    simp only [follows, Option.map_some, media_intake, wanted, Bool.false_eq_true, if_false]
    rfl

theorem intake_tick (p : Player W) (now : Nat) :
    (p.tick dec now).2.intake = p.intake.tick now := by
  unfold tick Intake.tick
  rw [buffer_intake]
  cases p.buffer.pop? now with
  | none => exact intake_renderOutputs p
  | some released => exact (intake_renderOutputs _).trans (intake_play dec _ _)

theorem intake_step (p : Player W) (i : Input W) :
    (p.step dec i).intake = p.intake.step i := by
  cases i with
  | receive now o => exact intake_receive p now o
  | tick now => exact intake_tick dec p now
  | render => exact intake_renderOutputs p
  | codec run =>
    obtain ⟨_, _, h⟩ := actOnCodec_footprint p run
    exact (congrArg intake h).trans rfl
  | view n => rfl
  | closeScreen => rfl

end Decoding

end Player

end LiveMedia

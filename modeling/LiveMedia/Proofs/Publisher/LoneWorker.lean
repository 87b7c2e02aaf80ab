import LiveMedia.Proofs.Publisher.OrderlyWorker

/-!
# A publishing worker with a link of its own

The worker goes on step by step, while its owner sends it commands and its encoders may change by
themselves. What is told of it is what its encoders and its link wrote down, in which stream each
frame was taken, and which frames it drew from its sources.
-/

namespace LiveMedia
set_option autoImplicit false

variable {W S : Type}

structure Chronicle (W S : Type) where
  worker : PublishWorker (Logged W EncoderCall)
  link : Logged S (Transmission × Bool)
  /-- The number of streams that have begun. -/
  begun : ℕ
  /-- The number of the stream in which each frame was taken, counted from one. -/
  streams : List ℕ
  /-- The frames that the worker drew from its sources. -/
  drawn : List Frame

namespace Chronicle

/-- A step of the worker, or something that happens to it from outside. -/
inductive Move (W : Type) where
  | go (now : ℕ)
  /-- Encoders change by themselves, as in a fault, and may give out chunks. -/
  | disturb (run : W → W × List Chunk)
  /-- The owner sends a command, if there is a place for it. -/
  | post (c : PublishCommand W)
  /-- The owner will send no more commands. -/
  | dismiss
  | cancel

/-- What happens to encoders by itself is as `Q` says. -/
def Move.Only (Q : EncoderCall → Prop) : Move W → Prop
  | disturb run => ∀ w, Q (.aside (run w).2)
  | post (.attach src) => ∀ run, Cue.effect run ∈ src.cues → ∀ w, Q (.aside (run w).2)
  | _ => True

theorem Move.only_any (move : Move W) : move.Only fun _ => True := by
  cases move with
  | disturb run => exact fun _ => trivial
  | post c =>
    cases c with
    | configure c => trivial
    | attach src => exact fun _ _ _ => trivial
  | go now => trivial
  | dismiss => trivial
  | cancel => trivial

def start (settings : PublishSettings) (codec : W) (clock : CaptureClock) (s : S) (now : ℕ) :
    Chronicle W S :=
  ⟨.new (.new settings (.fresh codec) clock now), .fresh s, 0, [], []⟩

def log (c : Chronicle W S) : List EncoderCall := c.worker.log

def calls (c : Chronicle W S) : List (Transmission × Bool) := c.link.calls

/-- The epochs and payloads of the objects that carry chunks, sent or not. -/
def sent (c : Chronicle W S) : List (ℕ × ByteArray) := stamps (c.calls.map Prod.fst)

/-- The streams that begin with a move. -/
def begins (c : Chronicle W S) : Move W → ℕ
  | .go _ => c.worker.begins.toNat
  | _ => 0

def draws (c : Chronicle W S) : Move W → List Frame
  | .go now => (c.worker.drawn? now).toList
  | _ => []

section Run

variable (enc : EncoderFamily W) (link : Link S)

def act (c : Chronicle W S) :
    Move W → PublishWorker (Logged W EncoderCall) × Logged S (Transmission × Bool)
  | .go now => (c.worker.step enc.logged link.logged.carrier 0 now c.link).1
  | .disturb run => (c.worker.actOnPublisher (.actOnCodec (Logged.aside run)), c.link)
  | .post command => ((c.worker.post command.logged).2, c.link)
  | .dismiss => (c.worker.dismiss, c.link)
  | .cancel => (c.worker.cancel, c.link)

def step (c : Chronicle W S) (move : Move W) : Chronicle W S :=
  let (worker, l) := c.act enc link move
  let begun := c.begun + c.begins move
  ⟨worker, l, begun, assign c.streams worker.log begun, c.drawn ++ c.draws move⟩

def run (c : Chronicle W S) (moves : List (Move W)) : Chronicle W S :=
  moves.foldl (step enc link) c

theorem epoch_act (c : Chronicle W S) (move : Move W) :
    (c.act enc link move).1.publisher.epoch = c.worker.publisher.epoch + c.begins move := by
  cases move with
  | go now => exact PublishWorker.epoch_step enc.logged _ 0 now c.worker c.link
  | disturb run => rfl
  | post command =>
    unfold act PublishWorker.post
    simp only
    split <;> rfl
  | dismiss => rfl
  | cancel => rfl

end Run

structure Orderly (Q : EncoderCall → Prop) (c : Chronicle W S) : Prop where
  epoch : c.worker.publisher.epoch = c.begun
  worker : c.worker.Orderly Q c.calls c.streams c.drawn.length
  sources : c.worker.Sources (Aside Q)

section Steps

variable {enc : EncoderFamily W} {Q : EncoderCall → Prop} {link : Link S} {c : Chronicle W S}

theorem sources_act (hsources : c.worker.Sources (Aside Q)) {move : Move W} (hmove : move.Only Q) :
    (c.act enc link move).1.Sources (Aside Q) := by
  cases move with
  | go now => exact hsources.step enc.logged link.logged.carrier 0 now c.link
  | disturb run => exact hsources.congr rfl rfl rfl
  | post command =>
    refine hsources.post ?_
    cases command with
    | configure c => trivial
    | attach src => exact Source.only_logged hmove
  | dismiss => exact ⟨hsources.source, hsources.next, hsources.posted⟩
  | cancel => exact hsources.congr rfl rfl rfl

theorem Orderly.step (hQ : ∀ call, enc.Answers call → Q call) (h : c.Orderly Q)
    (hrested : c.worker.Rested) {move : Move W} (hmove : move.Only Q) :
    (c.step enc link move).Orderly Q := by
  have hepoch : (c.act enc link move).1.publisher.epoch = c.begun + c.begins move := by
    rw [epoch_act, h.epoch]
  refine ⟨hepoch, ?_, sources_act h.sources hmove⟩
  unfold Chronicle.step calls
  simp only
  rw [← hepoch, List.length_append]
  -- Where the worker itself does nothing, the frames that were taken are assigned already.
  have hidly : ∀ {w : PublishWorker (Logged W EncoderCall)},
      w.Orderly Q c.calls c.streams c.drawn.length →
      w.Orderly Q c.calls (assign c.streams w.log w.publisher.epoch) (c.drawn.length + 0) := by
    intro w hw
    have hstreams : assign c.streams w.log w.publisher.epoch = c.streams := hw.attributed.assign_eq
    rw [hstreams]
    exact hw
  cases move with
  | go now => exact PublishWorker.Orderly.step hQ link h.worker hrested h.sources now
  | disturb run =>
    exact h.worker.works hrested _ (c.worker.publisher.works_actOnCodec hmove) rfl h.worker.call
      h.worker.ended (fun hidle => ⟨hidle, rfl⟩) h.worker.broken
  | post command => exact hidly (h.worker.post command.logged)
  | dismiss => exact hidly (h.worker.mailbox _)
  | cancel =>
    exact hidly ⟨h.worker.attributed, h.worker.call, h.worker.ended,
      fun hidle => h.worker.outputs (PublishWorker.idle_of_cancel hidle), h.worker.broken⟩

/-- A worker stays orderly as long as nothing is held back where it is idle. -/
theorem Orderly.run (hQ : ∀ call, enc.Answers call → Q call) (h : c.Orderly Q)
    {moves : List (Move W)}
    (hrested : ∀ done, done <+: moves → done ≠ moves → (c.run enc link done).Orderly Q →
      (c.run enc link done).worker.Rested)
    (honly : ∀ move ∈ moves, move.Only Q) : (c.run enc link moves).Orderly Q := by
  induction moves generalizing c with
  | nil => exact h
  | cons move rest ih =>
    have hnow := hrested [] List.nil_prefix nofun h
    refine ih (h.step hQ hnow (honly move List.mem_cons_self)) (fun done hdone hne hafter => ?_)
      fun move' hmove' => honly move' (List.mem_cons_of_mem _ hmove')
    exact hrested (move :: done) (List.cons_prefix_cons.mpr ⟨rfl, hdone⟩)
      (fun heq => hne (List.cons.inj heq).2) hafter

theorem orderly_start (settings : PublishSettings) (codec : W) (clock : CaptureClock) (s : S)
    (now : ℕ) : (start settings codec clock s now).Orderly Q where
  epoch := rfl
  worker :=
    { attributed := Publisher.attributed_new settings codec clock now
      call := rfl
      ended := nofun
      outputs := fun _ _ _ => rfl
      broken := nofun }
  sources := PublishWorker.sources_new _

/-- What was sent is right as far as it goes. -/
theorem Orderly.right (h : c.Orderly Q) (hpaced : Paced c.log) :
    ∃ handled, handled <+: c.streams.zip (emitted c.log) ∧ c.sent <+: attributed handled := by
  obtain ⟨past, present, haccounted, hstreams⟩ := h.worker.attributed
  refine ⟨_, hstreams ▸ haccounted.withPresent_initial hpaced, ?_⟩
  exact ⟨_, haccounted.stamped⟩

end Steps

end Chronicle

end LiveMedia

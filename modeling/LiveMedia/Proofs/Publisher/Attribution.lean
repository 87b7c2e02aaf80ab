import LiveMedia.Codec.Scripted
import LiveMedia.Proofs.Publisher.Errands
import LiveMedia.Proofs.Publisher.LoneWorker
import Mathlib.Data.List.Infix

/-!
# The stream of each chunk

All encoders of a publisher give their chunks to one place, and a chunk is sent in the stream in
which it is taken from there. That is the stream of its frame when nothing is held back between
streams, whatever comes late within a stream. A chunk that comes out after the end of its stream is
sent as part of the next one.
-/

namespace LiveMedia
set_option autoImplicit false

variable {W S : Type} {enc : EncoderFamily W} {link : Link S}

theorem paced_iff {calls : List EncoderCall} : Paced calls ↔
    ∀ before ∈ calls.inits, (emitted before).length ≤ (accepted before).length := by
  unfold Paced
  simp only [List.mem_inits]

instance (calls : List EncoderCall) : Decidable (Paced calls) := decidable_of_iff' _ paced_iff

instance (calls : List EncoderCall) : Decidable (Settled calls) :=
  inferInstanceAs (Decidable (_ = _))

namespace Annals

/-- Chunks come out at the pace of frames, and before the next errand nothing is held back. -/
def Regular (enc : EncoderFamily W) (link : Link S) : Annals W S → List (Errand W) → Prop
  | a, [] => Paced a.log
  | a, e :: rest => Paced a.log ∧ Settled a.log ∧ Regular enc link (a.step enc link e) rest

instance decidableRegular (a : Annals W S) (errands : List (Errand W)) :
    Decidable (Regular enc link a errands) :=
  match errands with
  | [] => inferInstanceAs (Decidable (Paced _))
  | e :: rest =>
    have : Decidable (Regular enc link (a.step enc link e) rest) := decidableRegular _ rest
    inferInstanceAs (Decidable (_ ∧ _))

namespace Regular

variable {a : Annals W S} {errands done : List (Errand W)}

theorem paced (h : Regular enc link a errands) : Paced (a.run enc link errands).log := by
  induction errands generalizing a with
  | nil => exact h
  | cons e rest ih => exact ih h.2.2

theorem rested (h : Regular enc link a errands) (hdone : done <+: errands)
    (hne : done ≠ errands) :
    Paced (a.run enc link done).log ∧ Settled (a.run enc link done).log := by
  induction errands generalizing a done with
  | nil => exact absurd (List.prefix_nil.mp hdone) hne
  | cons e rest ih =>
    cases done with
    | nil => exact ⟨h.1, h.2.1⟩
    | cons first done =>
      obtain ⟨rfl, hrest⟩ := List.cons_prefix_cons.mp hdone
      have hlater := ih h.2.2 hrest fun heq => hne (congrArg _ heq)
      exact hlater

end Regular

end Annals

namespace Chronicle

/-- Chunks come out at the pace of frames, and before the next move nothing is held back if the
worker is idle. -/
def Regular (enc : EncoderFamily W) (link : Link S) : Chronicle W S → List (Move W) → Prop
  | c, [] => Paced c.log
  | c, move :: rest =>
    Paced c.log ∧ (c.worker.idle = true → Settled c.log) ∧
      Regular enc link (c.step enc link move) rest

instance decidableRegular (c : Chronicle W S) (moves : List (Move W)) :
    Decidable (Regular enc link c moves) :=
  match moves with
  | [] => inferInstanceAs (Decidable (Paced _))
  | move :: rest =>
    have : Decidable (Regular enc link (c.step enc link move) rest) := decidableRegular _ rest
    inferInstanceAs (Decidable (_ ∧ _))

namespace Regular

variable {c : Chronicle W S} {moves done : List (Move W)}

theorem paced (h : Regular enc link c moves) : Paced (c.run enc link moves).log := by
  induction moves generalizing c with
  | nil => exact h
  | cons move rest ih => exact ih h.2.2

theorem rested (h : Regular enc link c moves) (hdone : done <+: moves) (hne : done ≠ moves) :
    (c.run enc link done).worker.Rested := by
  induction moves generalizing c done with
  | nil => exact absurd (List.prefix_nil.mp hdone) hne
  | cons move rest ih =>
    cases done with
    | nil => exact ⟨h.1, h.2.1⟩
    | cons first done =>
      obtain ⟨rfl, hrest⟩ := List.cons_prefix_cons.mp hdone
      have hlater := ih h.2.2 hrest fun heq => hne (congrArg _ heq)
      exact hlater

end Regular

end Chronicle

section Streams

variable (enc) (link) (settings : PublishSettings) (codec : W) (clock : CaptureClock) (s : S)
  (now : ℕ)

/-- Where nothing is held back between streams, the chunks are sent in the order of the frames, each
under the number of the stream that took its frame and on the time line of that stream: whether the
streams are attached one by one or go to a worker, and whatever fails. -/
theorem chunks_sent_in_their_stream :
    (∀ errands : List (Errand W),
      Annals.Regular enc link (.start settings codec clock s now) errands →
      let a := (Annals.start settings codec clock s now).run enc link errands
      a.sent <+: attributed (a.streams.zip (emitted a.log))) ∧
    ∀ moves : List (Chronicle.Move W),
      Chronicle.Regular enc link (.start settings codec clock s now) moves →
      let c := (Chronicle.start settings codec clock s now).run enc link moves
      c.sent <+: attributed (c.streams.zip (emitted c.log)) := by
  have hany : ∀ call, enc.Answers call → True := fun _ _ => trivial
  constructor
  · intro errands hregular a
    have hend := (Annals.going_start settings codec clock s now).run (Q := fun _ => True) hany
      (fun done hdone hne _ _ => hregular.rested hdone hne) fun e _ => e.only_any
    have hright : a.Right := hend.elim Annals.Going.right Annals.Over.right
    obtain ⟨handled, hhandled, hsent⟩ := hright hregular.paced
    rw [hsent]
    exact attributed_mono hhandled
  · intro moves hregular c
    have hend := (Chronicle.orderly_start settings codec clock s now).run (Q := fun _ => True) hany
      (fun done hdone hne _ => hregular.rested hdone hne) fun move _ => move.only_any
    obtain ⟨handled, hhandled, hsent⟩ := hend.right hregular.paced
    exact hsent.trans (attributed_mono hhandled)

end Streams

namespace Scripted

/-- A link that takes everything. -/
def openLink : Link Unit := ⟨fun _ s => (.ok (), s)⟩

def settings : PublishSettings := ⟨.video, 1, 30, 10⟩

def config : CodecConfig := { codec := "avc1", bitrate := 0, framerate := 30 }

def frame (timestamp : Int64) : Frame := ⟨timestamp, none, 3⟩

/-- From here on encoders hold their chunks back. -/
def hold : Cue ScriptedCodec := .effect fun w => ({ w with holds := true }, [])

/-- The encoder is gone, and the next one is not to be had at once. -/
def crash : Cue ScriptedCodec := .effect fun w => ({ w.crash with createFails := 1 }, [])

def annals (errands : List (Errand ScriptedCodec)) : Annals ScriptedCodec Unit :=
  (Annals.start settings {} (.startingAt 0) () 0).run ScriptedCodec.encoders openLink errands

def chronicle (moves : List (Chronicle.Move ScriptedCodec)) : Chronicle ScriptedCodec Unit :=
  (Chronicle.start settings {} (.startingAt 0) () 0).run ScriptedCodec.encoders openLink moves

def held : Source ScriptedCodec := .ofCues [hold, .frame (frame 5000), .frame (frame 38333)]

def after : Source ScriptedCodec := .ofFrames [frame 9000]

/-- The chunks of the first stream come out with its flush. -/
def heldErrands : List (Errand ScriptedCodec) :=
  [.configure config, .attach 1000 held, .attach 1000 after]

/-- The second stream replaces the first when both frames of the first are with the encoder. -/
def heldMoves : List (Chronicle.Move ScriptedCodec) :=
  [.post (.configure config), .post (.attach held)] ++ List.replicate 4 (.go 0) ++
    [.post (.attach after)] ++ List.replicate 20 (.go 0)

/-- The encoder of the first stream is gone when that stream ends, and its chunk comes out before
the second stream. -/
def lateErrands : List (Errand ScriptedCodec) :=
  [.configure config,
    .attach 1000 (.ofCues [hold, .frame (frame 5000), crash, .frame (frame 38333)]),
    .disturb ScriptedCodec.releaseChunks,
    .attach 1000 after]

end Scripted

open Scripted in
theorem held_chunks_sent_in_their_stream :
    ((annals heldErrands).sent <+:
        attributed ((annals heldErrands).streams.zip (emitted (annals heldErrands).log)) ∧
      (annals heldErrands).sent.map Prod.fst = [1, 1, 2]) ∧
    (chronicle heldMoves).sent <+:
        attributed ((chronicle heldMoves).streams.zip (emitted (chronicle heldMoves).log)) ∧
      (chronicle heldMoves).sent.map Prod.fst = [1, 1, 2] := by
  have h := chunks_sent_in_their_stream ScriptedCodec.encoders openLink settings {}
    (.startingAt 0) () 0
  exact ⟨⟨h.1 heldErrands (by decide +kernel), by decide +kernel⟩,
    h.2 heldMoves (by decide +kernel), by decide +kernel⟩

open Scripted in
/-- Without that condition, a chunk that comes out late is sent under the number of the next stream,
and the time line of that stream starts with it. -/
theorem late_chunk_sent_in_next_stream :
    Paced (annals lateErrands).log ∧ (annals lateErrands).ends = [.ended, .ended] ∧
      (annals lateErrands).streams = [1, 2] ∧
      (emitted (annals lateErrands).log).map (·.timestamp) = [5000, 9000] ∧
      (annals lateErrands).sent.map Prod.fst = [2, 2] ∧
      (annals lateErrands).broadcast.publisher.origin = some 5000 ∧
      ¬(annals lateErrands).sent <+:
        attributed ((annals lateErrands).streams.zip (emitted (annals lateErrands).log)) := by
  refine ⟨by decide +kernel, by decide +kernel, by decide +kernel, by decide +kernel,
    by decide +kernel, by decide +kernel, fun hsent => ?_⟩
  have hepochs := hsent.map Prod.fst
  rw [map_fst_attributed] at hepochs
  exact absurd hepochs (by decide +kernel)

end LiveMedia

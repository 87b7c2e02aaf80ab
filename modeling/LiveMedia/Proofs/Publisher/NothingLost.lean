import LiveMedia.Proofs.Publisher.Encoding
import LiveMedia.Proofs.Publisher.Errands
import LiveMedia.Proofs.Publisher.LoneWorker

/-!
# No chunk is lost

Simulated encoders give out the chunk of a frame with the call that takes it. Whatever faults happen
to them and whatever calls on the link fail, every frame that they took goes out in one object of
its stream, and every frame that was drawn is in one of the counts.
-/

namespace LiveMedia
set_option autoImplicit false

variable {S : Type}

namespace SimulatedCodec

/-- What comes out is the chunk of the frame that is taken. -/
def Prompt (media : Media) (call : EncoderCall) : Prop :=
  call.gave = (call.accepted?.map (Function.uncurry (chunkOf media))).toList

variable {media : Media} {calls : List EncoderCall}

theorem emitted_of_prompt (h : ∀ call ∈ calls, Prompt media call) :
    emitted calls = (accepted calls).map (Function.uncurry (chunkOf media)) := by
  induction calls with
  | nil => rfl
  | cons call rest ih =>
    have hfirst : emitted [call] = (accepted [call]).map (Function.uncurry (chunkOf media)) := by
      have hcall : call.gave = (call.accepted?.map (Function.uncurry (chunkOf media))).toList :=
        h call List.mem_cons_self
      unfold emitted accepted
      cases haccepted : call.accepted? <;> simp [hcall, haccepted]
    rw [← List.singleton_append, emitted_append, accepted_append, List.map_append, hfirst,
      ih fun c hc => h c (List.mem_cons_of_mem _ hc)]

theorem settled_of_prompt (h : ∀ call ∈ calls, Prompt media call) : Settled calls := by
  unfold Settled
  rw [emitted_of_prompt h, List.length_map]

theorem paced_of_prompt (h : ∀ call ∈ calls, Prompt media call) : Paced calls :=
  fun _ hbefore => Nat.le_of_eq (settled_of_prompt fun c hc => h c (hbefore.subset hc))

theorem prompt_of_answers {call : EncoderCall} (h : (encoders media).Answers call) :
    Prompt media call := by
  cases h with
  | create c w => rfl
  | configure c i w => exact silent_encoders media c i w
  | flush i w => rfl
  | encode f key i w =>
    change Prompt media (.encode f key i (encode media f key i w).succeeded
      (encode media f key i w).emitted)
    unfold encode submit emit
    split
    · rfl
    · split
      · rfl
      · simp only
        split <;> rfl

end SimulatedCodec

/-- Faults change the encoders, but give out nothing. -/
def Errand.Quiet (e : Errand SimulatedCodec) : Prop := e.Only fun call => call.gave = []

/-- Faults change the encoders, but give out nothing. -/
def Chronicle.Move.Quiet (move : Chronicle.Move SimulatedCodec) : Prop :=
  move.Only fun call => call.gave = []

theorem Errand.Quiet.prompt {media : Media} {e : Errand SimulatedCodec} (h : e.Quiet) :
    e.Only (SimulatedCodec.Prompt media) := by
  cases e with
  | attach limit src => exact h
  | disturb run => exact h
  | configure c => trivial
  | elapse us => trivial

theorem Chronicle.Move.Quiet.prompt {media : Media} {move : Chronicle.Move SimulatedCodec}
    (h : move.Quiet) : move.Only (SimulatedCodec.Prompt media) := by
  cases move with
  | disturb run => exact h
  | post c =>
    cases c with
    | configure c => trivial
    | attach src => exact h
  | go now => trivial
  | dismiss => trivial
  | cancel => trivial

/-- Every stream came to its end. -/
def Annals.Completed (a : Annals SimulatedCodec S) : Prop := ∀ how ∈ a.ends, how = .ended

/-- The worker went on until it had nothing more to do, and was not cancelled. -/
structure Chronicle.Completed (c : Chronicle SimulatedCodec S) : Prop where
  stopped : c.worker.phase = .ended .stopped
  uncancelled : c.worker.cancelled = false

theorem Chronicle.completed_of_idle {c : Chronicle SimulatedCodec S}
    (hended : c.worker.isEnded = true) (hidle : c.worker.idle = true) : c.Completed := by
  unfold PublishWorker.isEnded at hended
  unfold PublishWorker.idle at hidle
  cases hphase : c.worker.phase with
  | ended how =>
    rw [hphase] at hidle
    obtain ⟨hhow, hcancelled⟩ := Bool.and_eq_true_iff.mp hidle
    exact ⟨by rw [hphase, eq_of_beq hhow], Bool.not_eq_eq_eq_not.mp hcancelled⟩
  | serving => simp [hphase] at hended
  | draining next => simp [hphase] at hended
  | closing next => simp [hphase] at hended

open SimulatedCodec

/-- Every frame that encoders took was sent once, in order and in its stream, and every frame that
was drawn is counted. -/
structure Delivered (media : Media) (log : List EncoderCall) (streams : List ℕ)
    (calls : List (Transmission × Bool)) (stats : PublishStats) (drawn : ℕ) : Prop where
  numbered : streams.length = (accepted log).length
  sent : stamps (calls.map Prod.fst) =
    attributed (streams.zip ((accepted log).map (Function.uncurry (chunkOf media))))
  drawn : drawn =
    stats.framesSubmitted + stats.droppedBackpressure + stats.droppedNoCodec + rejected log
  submitted : stats.framesSubmitted = stats.chunksSent + calls.countP loses

variable {media : Media}

/-- Encoders that give out chunks at once hold nothing back. -/
theorem rested_of_attributed {b : Books} {calls : List (Transmission × Bool)}
    {waiting : List Transmission} {streams : List ℕ} {frames : ℕ}
    (h : b.Attributed (Prompt media) calls waiting streams frames) :
    Paced b.log ∧ Settled b.log := by
  obtain ⟨_, _, haccounted, _⟩ := h
  exact ⟨paced_of_prompt haccounted.answered, settled_of_prompt haccounted.answered⟩

theorem delivered {p : Publisher (Logged SimulatedCodec EncoderCall)}
    {calls : List (Transmission × Bool)} {streams : List ℕ} {frames : ℕ}
    (h : p.books.Attributed (Prompt media) calls [] streams frames) (houtputs : p.outputs = [])
    (hwhole : p.broken = false) :
    Delivered media p.codec.calls streams calls p.stats frames := by
  obtain ⟨past, present, haccounted, hstreams⟩ := h
  change Delivered media p.books.log streams calls p.stats frames
  have hsettled : Settled p.books.log := settled_of_prompt haccounted.answered
  have hlength : streams.length = (accepted p.books.log).length := by
    rw [hstreams]
    refine length_assign ?_ _
    rw [← hsettled, ← haccounted.held, List.append_assoc, List.length_append, List.length_map,
      List.length_map]
    exact Nat.le_add_right _ _
  have hsent := haccounted.complete hsettled houtputs
  rw [← hstreams, emitted_of_prompt haccounted.answered] at hsent
  have hsubmitted : p.stats.framesSubmitted = (accepted p.books.log).length := haccounted.submitted
  refine ⟨hlength, hsent, ?_, ?_⟩
  · have hdrawn : (accepted p.books.log).length + rejected p.books.log +
        (p.stats.droppedBackpressure + p.stats.droppedNoCodec) = frames := haccounted.drawn hwhole
    omega
  · have hcount := length_stamps calls
    have hchunks : p.stats.chunksSent = calls.countP delivers := haccounted.chunksSent
    rw [hsent] at hcount
    unfold attributed at hcount
    rw [List.length_map, List.length_zip, List.length_map, hlength, Nat.min_self] at hcount
    omega

section Runs

variable (media) (link : Link S) (settings : PublishSettings) (codec : SimulatedCodec)
  (clock : CaptureClock) (s : S) (now : ℕ)

/-- Streams that are attached one by one lose nothing when each of them came to its end, and neither
does a worker that came to its own: whatever fails, and whenever one stream replaces another. -/
theorem nothing_lost :
    (∀ errands : List (Errand SimulatedCodec), (∀ e ∈ errands, e.Quiet) →
      let a := (Annals.start settings codec clock s now).run (encoders media) link errands
      a.Completed →
      Delivered media a.log a.streams a.calls a.broadcast.publisher.stats
        (errands.flatMap Errand.frames).length) ∧
    ∀ moves : List (Chronicle.Move SimulatedCodec), (∀ move ∈ moves, move.Quiet) →
      let c := (Chronicle.start settings codec clock s now).run (encoders media) link moves
      c.Completed →
      Delivered media c.log c.streams c.calls c.worker.publisher.stats c.drawn.length := by
  have hprompt : ∀ call, (encoders media).Answers call → Prompt media call :=
    fun _ => prompt_of_answers
  constructor
  · intro errands hquiet a hends
    have hstart : (Annals.start settings codec clock s now).Going (Prompt media) 0 :=
      Annals.going_start settings codec clock s now
    rcases hstart.run hprompt (fun _ _ _ _ hdone => rested_of_attributed hdone.attributed)
      fun e he => (hquiet e he).prompt with hgoing | hover
    · obtain ⟨hpaced, hsettled⟩ := rested_of_attributed hgoing.attributed
      have hdelivered := delivered hgoing.attributed (hgoing.outputs hpaced hsettled) hgoing.whole
      rw [Nat.zero_add] at hdelivered
      exact hdelivered
    · obtain ⟨how, hmem, hhow⟩ := hover.ends
      exact absurd (hends how hmem) hhow
  · intro moves hquiet c ⟨hphase, hcancelled⟩
    have hstart : (Chronicle.start settings codec clock s now).Orderly (Prompt media) :=
      Chronicle.orderly_start settings codec clock s now
    have hend : c.Orderly (Prompt media) := hstart.run hprompt
      (fun _ _ _ hdone =>
        have hrested := rested_of_attributed hdone.worker.attributed
        ⟨hrested.1, fun _ => hrested.2⟩)
      fun move hmove => (hquiet move hmove).prompt
    obtain ⟨hpaced, hsettled⟩ := rested_of_attributed hend.worker.attributed
    have hidle : c.worker.idle = true := by
      unfold PublishWorker.idle
      rw [hphase, hcancelled]
      rfl
    have hended : c.worker.isEnded = true := by
      unfold PublishWorker.isEnded
      rw [hphase]
    have hwhole : c.worker.publisher.broken = false := by
      cases hbroken : c.worker.publisher.broken with
      | false => rfl
      | true => exact absurd (hphase.symm.trans (hend.worker.broken hbroken)) nofun
    have hattributed := hend.worker.attributed
    rw [hend.worker.ended hended] at hattributed
    exact delivered hattributed (hend.worker.outputs hidle hpaced hsettled) hwhole

end Runs

namespace Faulty

/-- A link on which every fourth call fails. -/
def fourthFails : Link ℕ := ⟨fun _ n => (if n % 4 = 1 then .error .closed else .ok (), n + 1)⟩

def settings : PublishSettings := ⟨.video, 1, 30, 10⟩

def config : CodecConfig := { codec := "avc1", bitrate := 0, framerate := 30 }

def failNext : SimulatedCodec → SimulatedCodec × List Chunk :=
  fun w => ({ w with failNext := true }, [])

def crash : SimulatedCodec → SimulatedCodec × List Chunk := fun w => (w.crash, [])

/-- The second of four frames is rejected. -/
def first : Source SimulatedCodec := .ofCues
  [.frame ⟨0, none, 3⟩, .effect failNext, .frame ⟨1, none, 3⟩, .frame ⟨2, none, 3⟩,
    .frame ⟨3, none, 3⟩]

def second : Source SimulatedCodec := .ofFrames [⟨9, none, 2⟩]

def errands : List (Errand SimulatedCodec) :=
  [.configure config, .attach 1000 first, .disturb crash, .attach 1000 second]

/-- The second stream replaces the first when three of its frames are drawn. -/
def moves : List (Chronicle.Move SimulatedCodec) :=
  [.post (.configure config), .post (.attach first)] ++ List.replicate 9 (.go 0) ++
    [.disturb crash, .post (.attach second)] ++ List.replicate 20 (.go 0) ++ [.dismiss] ++
    List.replicate 5 (.go 0)

theorem quiet_first : ∀ run, Cue.effect run ∈ first.cues → ∀ w, (run w).2 = [] := by
  intro run hrun w
  unfold first Source.ofCues at hrun
  simp only [List.mem_cons, Cue.effect.injEq, reduceCtorEq, List.not_mem_nil, or_false,
    false_or] at hrun
  rw [hrun]
  rfl

theorem quiet_second : ∀ run, Cue.effect run ∈ second.cues → ∀ w, (run w).2 = [] := by
  intro run hrun
  exact absurd hrun (Source.effect_not_mem_ofFrames _ run)

theorem quiet_errands : ∀ e ∈ errands, e.Quiet := by
  unfold errands
  simp only [List.mem_cons, List.not_mem_nil, or_false, forall_eq_or_imp, forall_eq]
  exact ⟨trivial, quiet_first, fun _ => rfl, quiet_second⟩

theorem quiet_moves : ∀ move ∈ moves, move.Quiet := by
  have hgo : ∀ n, ∀ move ∈ List.replicate n (Chronicle.Move.go 0), move.Quiet :=
    fun n move hmove => List.eq_of_mem_replicate hmove ▸ trivial
  unfold moves
  simp only [List.forall_mem_append, List.mem_cons, List.not_mem_nil, or_false, forall_eq_or_imp,
    forall_eq]
  exact ⟨⟨⟨⟨⟨⟨trivial, quiet_first⟩, hgo 9⟩, fun _ => rfl, quiet_second⟩, hgo 20⟩, trivial⟩, hgo 5⟩

def annals : Annals SimulatedCodec ℕ :=
  (Annals.start settings {} (.startingAt 0) 0 0).run (encoders .video) fourthFails errands

def chronicle : Chronicle SimulatedCodec ℕ :=
  (Chronicle.start settings {} (.startingAt 0) 0 0).run (encoders .video) fourthFails moves

theorem completed_annals : annals.Completed := by
  have hends : ∀ how ∈ annals.ends, how = .ended := by decide +kernel
  exact hends

theorem completed_chronicle : chronicle.Completed :=
  Chronicle.completed_of_idle (by decide +kernel) (by decide +kernel)

end Faulty

open Faulty in
theorem faulty_streams_delivered :
    (let a := (Annals.start settings {} (.startingAt 0) 0 0).run (encoders .video) fourthFails
      errands
    Delivered .video a.log a.streams a.calls a.broadcast.publisher.stats
      (errands.flatMap Errand.frames).length) ∧
    (let c := (Chronicle.start settings {} (.startingAt 0) 0 0).run (encoders .video) fourthFails
      moves
    Delivered .video c.log c.streams c.calls c.worker.publisher.stats c.drawn.length) ∧
    (annals.streams = [1, 1, 1, 2] ∧ annals.calls.countP loses = 1 ∧ rejected annals.log = 1) ∧
    chronicle.streams = [1, 1, 2] ∧ chronicle.calls.countP loses = 1 ∧
      rejected chronicle.log = 1 := by
  have h := nothing_lost .video fourthFails settings {} (.startingAt 0) 0 0
  refine ⟨h.1 errands quiet_errands completed_annals, h.2 moves quiet_moves completed_chronicle,
    ⟨?_, ?_, ?_⟩, ?_, ?_, ?_⟩
  all_goals decide +kernel

end LiveMedia

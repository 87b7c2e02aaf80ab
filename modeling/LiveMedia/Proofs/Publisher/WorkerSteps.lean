import LiveMedia.Proofs.Publisher.Footprint
import LiveMedia.Worker.Publishing

/-!
# What a step of a publishing worker takes up

Read off the worker before the step: whether a stream begins with it, which source is asked, and
which frame is drawn.
-/

namespace LiveMedia
set_option autoImplicit false

variable {W S : Type}

namespace Publisher

theorem epoch_settle (p : Publisher W) (t : Transmission) (ok : Bool) :
    (p.settle t ok).epoch = p.epoch := by
  obtain ⟨_, _, h⟩ := p.settle_footprint t ok
  rw [h]

theorem epoch_handle (p : Publisher W) (now : Nat) (c : Chunk) :
    (p.handle now c).2.epoch = p.epoch := by
  obtain ⟨_, _, _, _, _, _, _, _, h⟩ := p.handle_footprint now c
  rw [h]

theorem epoch_configure (enc : EncoderFamily W) (p : Publisher W) (c : CodecConfig) :
    (p.configure enc c).2.epoch = p.epoch := by
  obtain ⟨_, _, _, _, _, _, h⟩ := p.configure_footprint enc c
  rw [h]

theorem epoch_flushEncoder (enc : EncoderFamily W) (p : Publisher W) :
    (p.flushEncoder enc).epoch = p.epoch := by
  obtain ⟨_, _, h⟩ := p.flushEncoder_footprint enc
  rw [h]

theorem epoch_submit (enc : EncoderFamily W) (p : Publisher W) (now : Nat) (f : Frame) :
    (p.submit enc now f).epoch = p.epoch := by
  obtain ⟨_, _, _, _, _, _, _, _, _, _, _, _, h⟩ := p.submit_footprint enc now f
  rw [h]

theorem receiving_handle (p : Publisher W) (now : Nat) (c : Chunk) :
    (p.handle now c).2.receiving = p.receiving := by
  obtain ⟨_, _, _, _, _, _, _, _, h⟩ := p.handle_footprint now c
  rw [h]

theorem receiving_configure (enc : EncoderFamily W) (p : Publisher W) (c : CodecConfig) :
    (p.configure enc c).2.receiving = p.receiving := by
  obtain ⟨_, _, _, _, _, _, h⟩ := p.configure_footprint enc c
  rw [h]

theorem receiving_flushEncoder (enc : EncoderFamily W) (p : Publisher W) :
    (p.flushEncoder enc).receiving = p.receiving := by
  obtain ⟨_, _, h⟩ := p.flushEncoder_footprint enc
  rw [h]

theorem receiving_submit (enc : EncoderFamily W) (p : Publisher W) (now : Nat) (f : Frame) :
    (p.submit enc now f).receiving = p.receiving := by
  obtain ⟨_, _, _, _, _, _, _, _, _, _, _, _, h⟩ := p.submit_footprint enc now f
  rw [h]

end Publisher

namespace Source.Supply

def frame? : Supply W → Option Frame
  | .frame f _ => some f
  | _ => none

/-- The source as it is after it has been asked. -/
def rest? : Supply W → Option (Source W)
  | .frame _ rest => some rest
  | .wait _ rest => some rest
  | .moved _ rest => some rest
  | _ => none

end Source.Supply

namespace PublishWorker

/-- The source that is asked in the next step. -/
def asked? (w : PublishWorker W) (now : Nat) : Option (Source W) :=
  match w.call, w.calls, w.phase with
  | none, [], .serving =>
    if !w.publisher.receiving || w.cancelled then none
    else if w.listening && w.mailbox.hasNews then none
    else if w.publisher.outputs.isEmpty && w.canAsk now then w.source
    else none
  | _, _, _ => none

/-- The frame that is drawn in the next step. -/
def drawn? (w : PublishWorker W) (now : Nat) : Option Frame :=
  (w.asked? now).bind fun src => (src.next now w.publisher.codec).supply.frame?

/-- The next command takes a new source. -/
def attaches (w : PublishWorker W) : Bool :=
  match w.mailbox.take? with
  | some (.attach _, _) => true
  | _ => false

/-- A stream begins in the next step. -/
def begins (w : PublishWorker W) : Bool :=
  match w.call, w.calls, w.phase with
  | none, [], .serving =>
    w.publisher.receiving && !w.cancelled && w.listening && w.attaches && w.source.isNone
  | none, [], .closing next => next.isSome
  | _, _, _ => false

theorem step_of_no_call {w : PublishWorker W} (hcall : w.call = none) (hcalls : w.calls = [])
    (enc : EncoderFamily W) (carrier : Carrier S) (who now : Nat) (s : S) :
    w.step enc carrier who now s =
      match w.phase with
      | .serving => (((w.serve enc now).1, s), (w.serve enc now).2)
      | .draining next =>
        match w.publisher.outputs with
        | c :: rest => ((w.handleOutput now c rest, s), none)
        | [] => (({ w with calls := [.flush], phase := .closing next }, s), none)
      | .closing next => ((w.conclude now next, s), none)
      | .ended _ => ((w, s), none) := by
  unfold step
  rewrite [hcall, hcalls]
  cases w.phase with
  | draining next =>
    cases w.publisher.outputs with
    | nil => rfl
    | cons c rest => rfl
  | _ => rfl

section Epochs

variable (enc : EncoderFamily W)

theorem epoch_handleOutput (w : PublishWorker W) (now : Nat) (c : Chunk) (rest : List Chunk) :
    (w.handleOutput now c rest).publisher.epoch = w.publisher.epoch :=
  Publisher.epoch_handle { w.publisher with outputs := rest } now c

theorem epoch_note (w : PublishWorker W) (t : Transmission) (progress : Progress) :
    (w.note t progress).publisher.epoch = w.publisher.epoch := by
  cases progress with
  | done result => exact w.publisher.epoch_settle t _
  | going d => rfl
  | blocked d => rfl

theorem epoch_askSource (w : PublishWorker W) (now : Nat) (src : Source W) :
    (w.askSource enc now src).1.publisher.epoch = w.publisher.epoch := by
  unfold askSource
  simp only
  split
  · simp only
    split <;> exact Publisher.epoch_submit enc _ now _
  · rfl
  · rfl
  · rfl
  · exact Publisher.epoch_flushEncoder enc _
  · rfl

theorem epoch_hear (w : PublishWorker W) (now : Nat) :
    (w.hear enc now).publisher.epoch =
      w.publisher.epoch + (w.attaches && w.source.isNone).toNat := by
  unfold hear attaches
  split
  · rename_i command mailbox htaken
    rw [htaken]
    cases command with
    | configure c => exact w.publisher.epoch_configure enc c
    | attach src =>
      unfold follow attach
      cases hsource : w.source with
      | none => rfl
      | some old => exact w.publisher.epoch_flushEncoder enc
  · rename_i htaken
    rw [htaken]
    simp only
    split <;> rfl

theorem epoch_serve (w : PublishWorker W) (now : Nat) :
    (w.serve enc now).1.publisher.epoch = w.publisher.epoch +
      (w.publisher.receiving && !w.cancelled && w.listening && w.attaches &&
        w.source.isNone).toNat := by
  have hnews : w.attaches = true → w.mailbox.hasNews = true := by
    unfold attaches Mailbox.take? Mailbox.hasNews Channel.take?
    cases w.mailbox.channel.queue with
    | nil => exact nofun
    | cons c rest => exact fun _ => Bool.or_true _
  unfold serve
  split
  · rename_i hgone
    have hnone : (w.publisher.receiving && !w.cancelled) = false := by
      revert hgone
      cases w.publisher.receiving <;> cases w.cancelled <;> simp
    simp only [hnone, Bool.false_and]
    rfl
  · rename_i hhere
    have hhere : (w.publisher.receiving && !w.cancelled) = true := by
      revert hhere
      cases w.publisher.receiving <;> cases w.cancelled <;> simp
    rw [hhere, Bool.true_and]
    split
    · rename_i hhears
      rw [(Bool.and_eq_true_iff.mp hhears).1, Bool.true_and]
      exact w.epoch_hear enc now
    · rename_i hbusy
      have hnone : (w.listening && w.attaches) = false := by
        revert hbusy hnews
        cases w.listening <;> cases w.attaches <;> simp
      rw [hnone, Bool.false_and]
      split
      · exact epoch_handleOutput _ _ _ _
      · split
        · exact epoch_askSource enc { w with sourceWait := .over } now _
        · rfl
      · rfl

/-- Streams are numbered in the order in which they begin. -/
theorem epoch_step (carrier : Carrier S) (who now : Nat) (w : PublishWorker W) (s : S) :
    (w.step enc carrier who now s).1.1.publisher.epoch =
      w.publisher.epoch + w.begins.toNat := by
  unfold step begins
  split
  · rename_i hcall
    rw [hcall]
    exact epoch_note _ _ _
  · rename_i hcall hcalls
    rw [hcall, hcalls]
    exact epoch_note _ _ _
  · rename_i hcall hcalls
    rw [hcall, hcalls]
    split
    · rename_i hphase
      rw [hphase]
      exact w.epoch_serve enc now
    · rename_i hphase
      rw [hphase]
      split
      · exact epoch_handleOutput _ _ _ _
      · rfl
    · rename_i next hphase
      rw [hphase]
      unfold conclude
      cases next with
      | some src => rfl
      | none =>
        simp only
        split <;> rfl
    · rename_i hphase
      rw [hphase]
      rfl

end Epochs

end PublishWorker

end LiveMedia

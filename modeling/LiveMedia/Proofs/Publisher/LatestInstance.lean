import LiveMedia.Proofs.Codec.Closure
import LiveMedia.Proofs.Publisher.EncoderHistory

/-!
# Publishers on simulated encoders of their own

As long as nobody else makes instances on its record, the encoder of a publisher is the latest one
there. That is the one which crashes hit, so an encoder in service never opens again.
-/

namespace LiveMedia
set_option autoImplicit false

variable {S : Type}

open SimulatedCodec

namespace Publisher

/-- The encoder in service is the last instance that was made. -/
def Latest (p : Publisher SimulatedCodec) : Prop := ∀ i ∈ p.encoder, i = p.codec.created

variable {p q : Publisher SimulatedCodec} {media : Media}

theorem Latest.congr (hp : p.Latest) (hencoder : q.encoder = p.encoder)
    (hcreated : q.codec.created = p.codec.created) : q.Latest := by
  intro i hi
  rw [hencoder] at hi
  exact (hp i hi).trans hcreated.symm

theorem Latest.of_made {c : CodecConfig} {i : ℕ} {w : SimulatedCodec}
    (hmade : (w.create c).1 = .ok i) (hencoder : q.encoder = some i)
    (hcodec : q.codec = (w.create c).2) : q.Latest := by
  intro j hj
  obtain rfl := Option.some.inj (hencoder.symm.trans hj)
  rw [hcodec]
  unfold SimulatedCodec.create at hmade ⊢
  split at hmade
  · rename_i hsupported
    rw [if_pos hsupported]
    exact (Except.ok.inj hmade).symm
  · cases hmade

theorem Latest.renewEncoder (hp : p.Latest) : (p.renewEncoder (encoders media)).Latest := by
  have houtcome := p.renewEncoder_outcome (encoders media)
  generalize p.renewEncoder (encoders media) = q at houtcome ⊢
  cases houtcome with
  | kept => exact hp
  | unconfigured => exact nofun
  | made _ _ _ hmade => exact .of_made hmade rfl rfl
  | refused => exact nofun

theorem Latest.initializeEncoder (hp : p.Latest) :
    (p.initializeEncoder (encoders media)).2.Latest := by
  have houtcome := p.initializeEncoder_outcome (encoders media)
  generalize p.initializeEncoder (encoders media) = result at houtcome ⊢
  cases houtcome with
  | unready => exact hp
  | ready => exact hp
  | configured => exact hp.congr rfl (created_configureEncoder _ _)
  | misfit => exact nofun

theorem Latest.encodeWith (hp : p.Latest) (i now : ℕ) (f : Frame) :
    (p.encodeWith (encoders media) i now f).Latest := by
  have houtcome := p.encodeWith_outcome (encoders media) i now f
  generalize p.encodeWith (encoders media) i now f = q at houtcome ⊢
  cases houtcome with
  | broken => exact hp
  | taken => exact hp.congr rfl (created_encode media f _ i)
  | closed => exact hp.congr rfl (created_encode media f _ i)
  | rejected => exact hp.congr rfl (created_encode media f _ i)

theorem Latest.submit (hp : p.Latest) (now : ℕ) (f : Frame) :
    (p.submit (encoders media) now f).Latest := by
  have hprepared : (p.prepareEncoder (encoders media)).2.Latest := hp.renewEncoder.initializeEncoder
  have houtcome := p.submit_outcome (encoders media) now f
  generalize p.submit (encoders media) now f = q at houtcome ⊢
  cases houtcome with
  | homeless => exact hprepared
  | behind => exact hprepared
  | offered => exact hprepared.encodeWith _ now f

theorem Latest.configure (hp : p.Latest) (c : CodecConfig) :
    (p.configure (encoders media) c).2.Latest := by
  have houtcome := p.configure_outcome (encoders media) c
  generalize p.configure (encoders media) c = result at houtcome ⊢
  cases houtcome with
  | unsupported => exact hp
  | stored => exact hp
  | applied => exact hp.congr rfl (created_configureEncoder c _)
  | givenUp => exact nofun

theorem Latest.flushEncoder (hp : p.Latest) : (p.flushEncoder (encoders media)).Latest := by
  unfold Publisher.flushEncoder
  split
  · exact hp
  · exact hp

end Publisher

/-- Others call what they like on the record of the encoders, but make no instance there. -/
def SimulatedCodec.CreatesNone (run : SimulatedCodec → SimulatedCodec × List Chunk) : Prop :=
  ∀ w, ∃ calls : List Call, (run w).1 = w.run calls ∧ ∀ call ∈ calls, call.creates = false

namespace Broadcast

variable {media : Media} {link : Link S} {b : Broadcast SimulatedCodec S}

theorem latest_step (hb : b.publisher.Latest) {a : Action SimulatedCodec}
    (ha : a.Only CreatesNone) :
    (b.step (encoders media) link a).publisher.Latest := by
  cases a with
  | begin => exact hb
  | configure c => exact hb.configure c
  | submit f => exact hb.submit b.now f
  | collect count => exact hb
  | lose => exact hb
  | elapse us => exact hb
  | flushEncoder => exact hb.flushEncoder
  | handle c =>
    obtain ⟨_, _, _, _, _, _, _, _, heq⟩ := b.handle_footprint link c
    change (b.handle link c).publisher.Latest
    rw [heq]
    exact hb
  | endStream =>
    obtain ⟨_, _, _, heq⟩ := b.send_footprint link .flush
    change (b.send link .flush).publisher.endStream.Latest
    rw [heq]
    exact hb
  | codec run =>
    obtain ⟨calls, hcalls, hnone⟩ := ha b.publisher.codec
    refine hb.congr rfl ?_
    change (run b.publisher.codec).1.created = _
    rw [hcalls, created_run hnone]

theorem Action.keepsClosed_of_createsNone (a : Action SimulatedCodec) (ha : a.Only CreatesNone)
    {p : Publisher SimulatedCodec} (hp : p.Latest) : a.KeepsClosed (encoders media) p := by
  cases a with
  | codec run =>
    intro i hi hclosed
    obtain ⟨calls, hcalls, hnone⟩ := ha p.codec
    rw [hp i hi] at hclosed ⊢
    rw [hcalls]
    exact latest_stays_closed hnone hclosed
  | flushEncoder => exact fun _ _ hclosed => hclosed
  | _ => trivial

theorem keepsClosed_of_createsNone (hb : b.publisher.Latest)
    {actions : List (Action SimulatedCodec)} (hactions : ∀ a ∈ actions, a.Only CreatesNone) :
    b.KeepsClosed (encoders media) link actions := by
  induction actions generalizing b with
  | nil => trivial
  | cons a rest ih =>
    obtain ⟨ha, hrest⟩ := List.forall_mem_cons.mp hactions
    exact ⟨a.keepsClosed_of_createsNone ha hb, ih (latest_step hb ha) hrest⟩

/-- A new publisher on simulated encoders makes each encode call under the configuration in force,
and asks for key chunks when they are due, whatever faults there are. -/
theorem simulated_calls_warranted (media : Media) (link : Link S) (settings : PublishSettings)
    (codec : SimulatedCodec) (clock : CaptureClock) (now : ℕ) (s : S)
    {actions : List (Action SimulatedCodec)} (hactions : ∀ a ∈ actions, a.Only CreatesNone) :
    let fresh : Broadcast SimulatedCodec S := ⟨.new settings codec clock now, s, now⟩
    Dealing.Each (Dealing.Warranted settings.keyframeInterval)
      (fresh.history (encoders media) link actions) := by
  intro fresh
  have hlatest : fresh.publisher.Latest := nofun
  have hclosed : fresh.KeepsClosed (encoders media) link actions :=
    keepsClosed_of_createsNone hlatest hactions
  exact (recalls_history settings codec clock now s hclosed).warranted

end Broadcast

end LiveMedia

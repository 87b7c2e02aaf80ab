import Mathlib.Data.Nat.Notation
import LiveMedia.Proofs.Publisher.Footprint
import LiveMedia.Proofs.Publisher.Run

/-!
# Events are only written

No operation of a publisher reads the events that stand written already: with others before them it
does the same and adds the same.
-/

namespace LiveMedia
set_option autoImplicit false

variable {W S : Type}

namespace Publisher

/-- With these events before its own. -/
def after (es : List Event) (p : Publisher W) : Publisher W := { p with events := es ++ p.events }

theorem forgetEvents_after (p : Publisher W) : p.forgetEvents.after p.events = p := by
  unfold forgetEvents after
  simp only [List.append_nil]

section Encoding

variable (enc : EncoderFamily W) (es : List Event) (p : Publisher W)

theorem configure_after (c : CodecConfig) :
    (p.after es).configure enc c =
      ((p.configure enc c).1, (p.configure enc c).2.after es) := by
  have hopen : (p.after es).openEncoder enc = p.openEncoder enc := rfl
  unfold configure
  rw [hopen]
  unfold after emit absorb deliver media
  simp only
  split
  · simp only [List.append_assoc]
  · split
    · rfl
    · split
      · rfl
      · simp only [List.append_assoc]

theorem renewEncoder_after : (p.after es).renewEncoder enc = (p.renewEncoder enc).after es := by
  have hopen : (p.after es).openEncoder enc = p.openEncoder enc := rfl
  have hreset : (if (p.after es).encoder.isSome then { p.after es with
        encoder := none, stats.codecResets := (p.after es).stats.codecResets + 1 }
      else p.after es) = (if p.encoder.isSome then { p with
        encoder := none, stats.codecResets := p.stats.codecResets + 1 } else p).after es := by
    change (if p.encoder.isSome then _ else _) = _
    split <;> rfl
  unfold renewEncoder
  rw [hopen]
  split
  · rfl
  · simp only [hreset]
    generalize (if p.encoder.isSome then { p with
      encoder := none, stats.codecResets := p.stats.codecResets + 1 } else p) = q
    unfold after
    simp only
    split
    · rfl
    · split <;> rfl

theorem initializeEncoder_after :
    (p.after es).initializeEncoder enc =
      ((p.initializeEncoder enc).1, (p.initializeEncoder enc).2.after es) := by
  unfold initializeEncoder after
  simp only
  split
  · rfl
  · split
    · split
      · rfl
      · split <;> rfl
    · rfl

theorem encodeWith_after (i now : ℕ) (f : Frame) :
    (p.after es).encodeWith enc i now f = (p.encodeWith enc i now f).after es := by
  have hkey : (p.after es).wantsKeyframe = p.wantsKeyframe := rfl
  unfold encodeWith
  simp only [hkey]
  unfold after absorb deliver
  simp only
  split
  · rfl
  · split
    · rfl
    · split <;> rfl

theorem submit_after (now : ℕ) (f : Frame) :
    (p.after es).submit enc now f = (p.submit enc now f).after es := by
  have hprepare : (p.after es).prepareEncoder enc =
      ((p.prepareEncoder enc).1, (p.prepareEncoder enc).2.after es) := by
    unfold prepareEncoder
    rw [renewEncoder_after, initializeEncoder_after]
  unfold submit
  rw [hprepare]
  rcases p.prepareEncoder enc with ⟨ready | i, q⟩
  · rfl
  · simp only [encodeWith_after]
    unfold after
    simp only
    split <;> rfl

theorem flushEncoder_after : (p.after es).flushEncoder enc = (p.flushEncoder enc).after es := by
  unfold flushEncoder after
  simp only
  split <;> rfl

end Encoding

theorem handle_after (es : List Event) (p : Publisher W) (now : ℕ) (c : Chunk) :
    (p.after es).handle now c = ((p.handle now c).1, (p.handle now c).2.after es) := by
  unfold handle after noteLatency noteBytes endMarker? emit media
  simp only
  rcases p.pending.take c.timestamp with ⟨_ | captured, pending⟩ <;>
    rcases p.bitrate.add now (c.rebased (p.origin.getD c.timestamp)).pack.size with
      ⟨_ | sample, meter⟩ <;>
    simp only [List.append_assoc]

theorem settle_after (es : List Event) (p : Publisher W) (t : Transmission) (succeeded : Bool) :
    (p.after es).settle t succeeded = (p.settle t succeeded).after es := by
  unfold settle after
  simp only
  split
  · rfl
  · split
    · rfl
    · split <;> rfl
    · rfl

/-- A chunk may tell of the bitrate, and of nothing else. -/
theorem handle_events (p : Publisher W) (now : ℕ) (c : Chunk) :
    (p.handle now c).2.events = p.events ∨
      ∃ sample : BitrateSample, (p.handle now c).2.events = p.events ++ [sample.event] := by
  obtain ⟨_, _, _, hlatency⟩ := noteLatency_footprint
    { p with origin := some (p.origin.getD c.timestamp) } now c.timestamp
  unfold handle noteBytes
  simp only [hlatency]
  split
  · exact Or.inl rfl
  · exact Or.inr ⟨_, rfl⟩

end Publisher

namespace Broadcast

def after (es : List Event) (b : Broadcast W S) : Broadcast W S :=
  { b with publisher := b.publisher.after es }

/-- With no events written yet. -/
def unwritten (b : Broadcast W S) : Broadcast W S :=
  { b with publisher := b.publisher.forgetEvents }

theorem unwritten_after (b : Broadcast W S) : b.unwritten.after b.publisher.events = b := by
  unfold unwritten after
  rw [Publisher.forgetEvents_after]

variable {enc : EncoderFamily W} {link : Link S} (es : List Event)

theorem send_after (b : Broadcast W S) (t : Transmission) :
    (b.after es).send link t = (b.send link t).after es := by
  unfold send after
  simp only [Publisher.settle_after]
  split <;> rfl

theorem sendAll_after (b : Broadcast W S) (ts : List Transmission) :
    (b.after es).sendAll link ts = (b.sendAll link ts).after es := by
  induction ts generalizing b with
  | nil => rfl
  | cons t rest ih =>
    change ((b.after es).send link t).sendAll link rest = _
    rw [send_after]
    exact ih (b.send link t)

theorem handle_events (b : Broadcast W S) (c : Chunk) :
    (b.handle link c).publisher.events = (b.publisher.handle b.now c).2.events := by
  obtain ⟨_, _, _, hsent⟩ := sendAll_footprint link
    { b with publisher := (b.publisher.handle b.now c).2 } (b.publisher.handle b.now c).1
  exact congrArg (fun b : Broadcast W S => b.publisher.events) hsent

theorem step_after (b : Broadcast W S) (a : Action W) :
    (b.after es).step enc link a = (b.step enc link a).after es := by
  -- Where the link is not called, it is a matter of the publisher.
  have hpublisher {p : Publisher W} (h : ((b.after es).step enc link a).publisher = p.after es)
      (hrest : (b.after es).step enc link a =
        { b with publisher := ((b.after es).step enc link a).publisher }) :
      (b.after es).step enc link a = ({ b with publisher := p } : Broadcast W S).after es := by
    rw [hrest, h]
    rfl
  cases a with
  | handle c =>
    change ({ b with publisher := ((b.publisher.after es).handle b.now c).2 } :
      Broadcast W S).sendAll link ((b.publisher.after es).handle b.now c).1 = _
    rw [Publisher.handle_after]
    exact sendAll_after es { b with publisher := (b.publisher.handle b.now c).2 } _
  | endStream =>
    change ({ (b.after es).send link .flush with publisher := _ } : Broadcast W S) = _
    rw [send_after]
    rfl
  | configure c =>
    exact hpublisher (congrArg Prod.snd (Publisher.configure_after enc es b.publisher c)) rfl
  | submit f => exact hpublisher (Publisher.submit_after enc es b.publisher b.now f) rfl
  | flushEncoder => exact hpublisher (Publisher.flushEncoder_after enc es b.publisher) rfl
  | begin => rfl
  | collect count => rfl
  | codec run => rfl
  | lose => rfl
  | elapse us => rfl

/-- What a step adds to the events, whatever stands there already. -/
def told (enc : EncoderFamily W) (link : Link S) (b : Broadcast W S) (a : Action W) : List Event :=
  (b.unwritten.step enc link a).publisher.events

/-- It does the same as without the events before it. -/
theorem step_eq_after (b : Broadcast W S) (a : Action W) :
    b.step enc link a = (b.unwritten.step enc link a).after b.publisher.events := by
  rw [← step_after, unwritten_after]

theorem step_events (b : Broadcast W S) (a : Action W) :
    (b.step enc link a).publisher.events = b.publisher.events ++ b.told enc link a := by
  rw [step_eq_after]
  rfl

theorem step_unwritten (b : Broadcast W S) (a : Action W) :
    (b.unwritten.step enc link a).unwritten = (b.step enc link a).unwritten := by
  rw [step_eq_after b]
  rfl

end Broadcast

/-! All of it is about the medium of the publisher. -/

theorem BitrateMeter.media_add (m : BitrateMeter) (now bytes : ℕ) :
    (m.add now bytes).2.media = m.media ∧
      ∀ sample ∈ (m.add now bytes).1, sample.media = m.media := by
  unfold add
  dsimp only
  split
  · exact ⟨rfl, nofun⟩
  · exact ⟨rfl, fun _ h => Option.some.inj h ▸ rfl⟩

namespace Publisher

/-- The events of the publisher are about its own medium, and so is what its meter will tell. -/
structure TellsOf (m : Media) (p : Publisher W) : Prop where
  settings : p.settings.media = m
  meter : p.bitrate.media = m
  events : ∀ e ∈ p.events, e.media = m

variable {p q : Publisher W} {m : Media}

theorem TellsOf.congr (h : p.TellsOf m) (hsettings : q.settings = p.settings)
    (hmeter : q.bitrate = p.bitrate) (hevents : q.events = p.events) : q.TellsOf m :=
  ⟨hsettings ▸ h.settings, hmeter ▸ h.meter, hevents ▸ h.events⟩

theorem TellsOf.emit (h : p.TellsOf m) {e : Event} (he : e.media = m) : (p.emit e).TellsOf m :=
  ⟨h.settings, h.meter, List.forall_mem_append.mpr ⟨h.events, List.forall_mem_singleton.mpr he⟩⟩

theorem TellsOf.configure (h : p.TellsOf m) (enc : EncoderFamily W) (c : CodecConfig) :
    (p.configure enc c).2.TellsOf m := by
  have houtcome := p.configure_outcome enc c
  generalize p.configure enc c = result at houtcome ⊢
  cases houtcome with
  | unsupported => exact h.emit h.settings
  | stored => exact h.congr rfl rfl rfl
  | applied => exact h.congr rfl rfl rfl
  | givenUp =>
    refine TellsOf.emit ?_ h.settings
    exact h.congr rfl rfl rfl

theorem TellsOf.noteBytes (h : p.TellsOf m) (now bytes : ℕ) :
    (p.noteBytes now bytes).TellsOf m := by
  obtain ⟨hmeter, hsample⟩ := p.bitrate.media_add now bytes
  unfold Publisher.noteBytes
  split
  · rename_i heq
    rw [heq] at hmeter
    exact ⟨h.settings, hmeter.trans h.meter, h.events⟩
  · rename_i sample meter heq
    rw [heq] at hmeter hsample
    have hnoted : ({ p with bitrate := meter } : Publisher W).TellsOf m :=
      ⟨h.settings, hmeter.trans h.meter, h.events⟩
    exact hnoted.emit ((hsample sample rfl).trans h.meter)

theorem TellsOf.handle (h : p.TellsOf m) (now : ℕ) (c : Chunk) :
    (p.handle now c).2.TellsOf m := by
  obtain ⟨_, _, _, hlatency⟩ := noteLatency_footprint
    { p with origin := some (p.origin.getD c.timestamp) } now c.timestamp
  unfold Publisher.handle
  simp only [hlatency]
  apply TellsOf.noteBytes
  exact h.congr rfl rfl rfl

end Publisher

namespace Broadcast

variable {enc : EncoderFamily W} {link : Link S}

theorem tellsOf_step {m : Media} {b : Broadcast W S} (h : b.publisher.TellsOf m)
    (a : Action W) :
    (b.step enc link a).publisher.TellsOf m := by
  cases a with
  | begin => exact ⟨h.settings, h.meter, h.events⟩
  | configure c => exact h.configure enc c
  | submit f =>
    obtain ⟨_, _, _, _, _, _, _, _, _, _, _, _, hsame⟩ := b.publisher.submit_footprint enc b.now f
    change (b.publisher.submit enc b.now f).TellsOf m
    rw [hsame]
    exact h.congr rfl rfl rfl
  | flushEncoder =>
    obtain ⟨_, _, hsame⟩ := b.publisher.flushEncoder_footprint enc
    change (b.publisher.flushEncoder enc).TellsOf m
    rw [hsame]
    exact h.congr rfl rfl rfl
  | handle c =>
    obtain ⟨_, _, _, hsame⟩ := sendAll_footprint link
      { b with publisher := (b.publisher.handle b.now c).2 } (b.publisher.handle b.now c).1
    change (sendAll link { b with publisher := (b.publisher.handle b.now c).2 }
      (b.publisher.handle b.now c).1).publisher.TellsOf m
    rw [hsame]
    exact (h.handle b.now c).congr rfl rfl rfl
  | endStream =>
    obtain ⟨_, _, _, hsame⟩ := b.send_footprint link .flush
    change (b.send link .flush).publisher.endStream.TellsOf m
    rw [hsame]
    exact h.congr rfl rfl rfl
  | collect count => exact h.congr rfl rfl rfl
  | codec run => exact h.congr rfl rfl rfl
  | lose => exact h.congr rfl rfl rfl
  | elapse us => exact h

/-- A publisher tells of its own medium only, whatever is asked of it. -/
theorem events_media (enc : EncoderFamily W) (link : Link S) (settings : PublishSettings)
    (codec : W) (clock : CaptureClock) (now : ℕ) (s : S) (actions : List (Action W)) :
    let fresh : Broadcast W S := ⟨.new settings codec clock now, s, now⟩
    ∀ e ∈ (fresh.run enc link actions).publisher.events, e.media = settings.media := by
  intro fresh
  have hrun : ∀ b : Broadcast W S, b.publisher.TellsOf settings.media →
      (b.run enc link actions).publisher.TellsOf settings.media := by
    induction actions with
    | nil => exact fun _ hb => hb
    | cons a rest ih => exact fun b hb => ih (b.step enc link a) (tellsOf_step hb a)
  exact (hrun fresh ⟨rfl, rfl, nofun⟩).events

end Broadcast

end LiveMedia

import LiveMedia.Codec.Scripted
import LiveMedia.Proofs.Publisher.EncoderHistory
import LiveMedia.Proofs.Publisher.EventLog

/-!
# Which configuration is in force

The configuration of an encoder that takes a frame is the last one that was passed to the publisher
and that the encoders knew. One that they do not know leaves nothing behind but the event that tells
of it, so a run goes on as if it had not been passed.
-/

namespace LiveMedia
set_option autoImplicit false

variable {W S T : Type}

def Event.refuses : Event → Bool
  | configError _ .unsupported _ => true
  | _ => false

namespace Publisher

theorem configure_refused {enc : EncoderFamily W} {p : Publisher W} {c : CodecConfig}
    (h : enc.supports p.codec c = false) :
    p.configure enc c = (.error (.configurationUnsupported p.media c.codec),
      p.emit (.configError p.media .unsupported c)) := by
  unfold configure
  rw [h]
  rfl

/-- The publisher tells of a configuration that is known only if its encoder refuses it. -/
theorem configure_events {enc : EncoderFamily W} {p : Publisher W} {c : CodecConfig}
    (h : enc.supports p.codec c = true) :
    (p.configure enc c).2.events = p.events ∨
      (p.configure enc c).2.events = p.events ++ [.configError p.media .reconfigureFailed c] := by
  have houtcome := p.configure_outcome enc c
  generalize p.configure enc c = result at houtcome ⊢
  cases houtcome with
  | unsupported hunknown => exact absurd (h.symm.trans hunknown) (by decide)
  | stored => exact Or.inl rfl
  | applied => exact Or.inl rfl
  | givenUp => exact Or.inr rfl

end Publisher

namespace Broadcast

/-- What the publisher says of a step that passes a configuration no encoder knows. -/
def Action.refusal? (enc : EncoderFamily W) (p : Publisher W) : Action W → Option Event
  | .configure c =>
    if enc.supports p.codec c then none else some (.configError p.media .unsupported c)
  | _ => none

section Run

variable (enc : EncoderFamily W) (link : Link S)

def refusals (b : Broadcast W S) : List (Action W) → List Event
  | [] => []
  | a :: rest => (a.refusal? enc b.publisher).toList ++ (b.step enc link a).refusals rest

/-- The run without the steps that pass a configuration no encoder knows. -/
def withoutRefused (b : Broadcast W S) : List (Action W) → List (Action W)
  | [] => []
  | a :: rest =>
    (if (a.refusal? enc b.publisher).isSome then [] else [a]) ++
      (b.step enc link a).withoutRefused rest

end Run

variable {enc : EncoderFamily W}

theorem step_of_refusal (link : Link S) {b : Broadcast W S} {a : Action W} {e : Event}
    (h : a.refusal? enc b.publisher = some e) :
    b.step enc link a = { b with publisher := b.publisher.emit e } ∧ e.refuses = true := by
  cases a with
  | configure c =>
    unfold Action.refusal? at h
    cases hs : enc.supports b.publisher.codec c with
    | true => simp [hs] at h
    | false =>
      obtain rfl : Event.configError b.publisher.media .unsupported c = e := by simpa [hs] using h
      exact ⟨congrArg (fun r => ({ b with publisher := r.2 } : Broadcast W S))
        (Publisher.configure_refused hs), rfl⟩
  | _ => cases h

theorem told_of_not_refused (link : Link S) {b : Broadcast W S} {a : Action W}
    (h : a.refusal? enc b.publisher = none) : ∀ e ∈ b.told enc link a, e.refuses = false := by
  have hnone {es : List Event} (hes : es = []) : ∀ e ∈ es, e.refuses = false := by
    rw [hes]
    nofun
  unfold told
  cases a with
  | configure c =>
    have hs : enc.supports b.unwritten.publisher.codec c = true := by
      change enc.supports b.publisher.codec c = true
      unfold Action.refusal? at h
      simpa using h
    change ∀ e ∈ (b.unwritten.publisher.configure enc c).2.events, e.refuses = false
    rcases Publisher.configure_events hs with hc | hc
    · rw [hc]
      exact hnone rfl
    · rw [hc]
      intro e he
      obtain rfl := List.mem_singleton.mp he
      rfl
  | handle c =>
    change ∀ e ∈ (b.unwritten.handle link c).publisher.events, _
    rw [handle_events]
    rcases b.unwritten.publisher.handle_events b.unwritten.now c with hc | ⟨sample, hc⟩
    · rw [hc]
      exact hnone rfl
    · rw [hc]
      intro e he
      obtain rfl := List.mem_singleton.mp he
      rfl
  | submit f =>
    obtain ⟨_, _, _, _, _, _, _, _, _, _, _, _, hc⟩ := b.unwritten.publisher.submit_footprint enc
      b.now f
    change ∀ e ∈ (b.unwritten.publisher.submit enc b.now f).events, _
    rw [hc]
    exact hnone rfl
  | flushEncoder =>
    obtain ⟨_, _, hc⟩ := b.unwritten.publisher.flushEncoder_footprint enc
    change ∀ e ∈ (b.unwritten.publisher.flushEncoder enc).events, _
    rw [hc]
    exact hnone rfl
  | endStream =>
    obtain ⟨_, _, _, hc⟩ := b.unwritten.send_footprint link .flush
    change ∀ e ∈ (b.unwritten.send link .flush).publisher.events, _
    rw [hc]
    exact hnone rfl
  | begin => exact hnone rfl
  | collect count => exact hnone rfl
  | codec run => exact hnone rfl
  | lose => exact hnone rfl
  | elapse us => exact hnone rfl

/-- Two runs that differ in what was told before them, one of them without the steps that pass a
configuration no encoder knows. -/
theorem run_withoutRefused (enc : EncoderFamily W) (link : Link S) {b b' : Broadcast W S}
    (hb : b'.unwritten = b.unwritten)
    (actions : List (Action W)) :
    (b'.run enc link (b.withoutRefused enc link actions)).unwritten =
      (b.run enc link actions).unwritten ∧
    ∃ told, (b.run enc link actions).publisher.events = b.publisher.events ++ told ∧
      (b'.run enc link (b.withoutRefused enc link actions)).publisher.events =
        b'.publisher.events ++ told.filter (!·.refuses) ∧
      told.filter Event.refuses = b.refusals enc link actions := by
  induction actions generalizing b b' with
  | nil => exact ⟨hb, [], (List.append_nil _).symm, (List.append_nil _).symm, rfl⟩
  | cons a rest ih =>
    unfold withoutRefused refusals
    cases hrefusal : a.refusal? enc b.publisher with
    | some e =>
      obtain ⟨hstep, he⟩ := step_of_refusal link hrefusal
      have hb' : b'.unwritten = (b.step enc link a).unwritten := by
        rw [hstep]
        exact hb
      obtain ⟨hrun, told, hfull, hless, htold⟩ := ih hb'
      refine ⟨hrun, e :: told, ?_, ?_, ?_⟩
      · rw [run_cons, hfull, hstep]
        exact List.append_assoc ..
      · simpa [he] using hless
      · rw [List.filter_cons, if_pos he, htold]
        rfl
    | none =>
      have hnone := told_of_not_refused link hrefusal
      have htold : b'.told enc link a = b.told enc link a := by
        unfold told
        rw [hb]
      have hb' : (b'.step enc link a).unwritten = (b.step enc link a).unwritten := by
        rw [← step_unwritten, hb, step_unwritten]
      obtain ⟨hrun, told, hfull, hless, hrefusals⟩ := ih hb'
      refine ⟨hrun, b.told enc link a ++ told, ?_, ?_, ?_⟩
      · rw [run_cons, hfull, step_events, List.append_assoc]
      · rw [List.filter_append, List.filter_eq_self.mpr fun e he => by simp [hnone e he]]
        have hgo := hless
        rw [step_events, htold, List.append_assoc] at hgo
        exact hgo
      · rw [List.filter_append, List.filter_eq_nil_iff.mpr fun e he => by simp [hnone e he]]
        exact hrefusals

theorem withoutRefused_mapLink {big : Link S} {small : Link T} {f : S → T}
    (h : big.Follows small f) (b : Broadcast W S) (actions : List (Action W)) :
    (b.mapLink f).withoutRefused enc small actions = b.withoutRefused enc big actions := by
  induction actions generalizing b with
  | nil => rfl
  | cons a rest ih =>
    unfold withoutRefused
    rw [step_mapLink h, ih]
    rfl

theorem calls_withoutRefused (enc : EncoderFamily W) (link : Link S) (b : Broadcast W S)
    (actions : List (Action W)) :
    b.calls enc link (b.withoutRefused enc link actions) = b.calls enc link actions := by
  have hkept : b.withoutRefused enc link actions =
      (b.mapLink Logged.fresh).withoutRefused enc link.logged actions :=
    withoutRefused_mapLink link.logged_follows (b.mapLink Logged.fresh) actions
  unfold calls
  rw [hkept]
  exact congrArg (fun b => b.link.calls)
    (run_withoutRefused enc link.logged (Eq.refl (b.mapLink Logged.fresh).unwritten) actions).1

open Dealing

/-- In every run of a new publisher on any encoders that stay closed once they are, a frame is taken
under the configuration that was passed last of those the encoders knew. One that they do not know
is refused with one event and changes nothing else; without such steps a run comes to the same state
and makes the same calls, and the same is told but for the refusals, one for each. -/
theorem configuration_in_force (enc : EncoderFamily W) (link : Link S) :
    (∀ settings codec clock now s actions,
      let fresh : Broadcast W S := ⟨.new settings codec clock now, s, now⟩
      fresh.KeepsClosed enc link actions →
      ∀ before f key i after,
        fresh.history enc link actions = before ++ .encode f key i true :: after →
        ∃ c, inForce before = some c ∧ configOf before i = some c) ∧
    (∀ (p : Publisher W) (c : CodecConfig), enc.supports p.codec c = false →
      p.configure enc c = (.error (.configurationUnsupported p.media c.codec),
        p.emit (.configError p.media .unsupported c))) ∧
    (∀ (b : Broadcast W S) (actions : List (Action W)),
      let rest := b.withoutRefused enc link actions
      (b.run enc link rest).unwritten = (b.run enc link actions).unwritten ∧
      b.calls enc link rest = b.calls enc link actions ∧
      ∃ told, (b.run enc link actions).publisher.events = b.publisher.events ++ told ∧
        (b.run enc link rest).publisher.events = b.publisher.events ++ told.filter (!·.refuses) ∧
        told.filter Event.refuses = b.refusals enc link actions) := by
  refine ⟨?_, fun p c => Publisher.configure_refused, fun b actions => ?_⟩
  · intro settings codec clock now s actions fresh hclosed before f key i after heq
    have hrun := recalls_history settings codec clock now s hclosed
    exact (hrun.warranted before _ after heq).1
  · obtain ⟨hrun, htold⟩ := run_withoutRefused enc link (Eq.refl b.unwritten) actions
    exact ⟨hrun, calls_withoutRefused enc link b actions, htold⟩

end Broadcast

namespace Reconfiguring

def config (codec : String) : CodecConfig := { codec, bitrate := 0, framerate := 30 }

def frame (t : Int64) : Broadcast.Action ScriptedCodec := .submit ⟨t, none, 1⟩

def refuseNext (w : ScriptedCodec) : ScriptedCodec × List Chunk :=
  ({ w with configureFails := 1 }, [])

/-- New encoders have to be configured before their first frame. -/
def start : Broadcast ScriptedCodec Unit :=
  ⟨.new ⟨.video, 1, 30, 2⟩ { unsupported := ["vp9"], startsUninitialized := true }
    (.startingAt 0) 0, (), 0⟩

/-- One configuration is not known, one is refused by the encoder in service, and one comes while
the encoder is closed. -/
def actions : List (Broadcast.Action ScriptedCodec) :=
  [.configure (config "avc1"), .begin, frame 0, .configure (config "vp9"), frame 1,
    .codec refuseNext, .configure (config "av01"), frame 2,
    .codec fun w => (w.crash, []), .configure (config "hev1"), .configure (config "vp9"), frame 3]

def made? : Dealing → Option (ℕ × String)
  | .create c (some i) => some (i, c.codec)
  | _ => none

end Reconfiguring

open Reconfiguring Dealing in
theorem reconfigured_encoders_in_force :
    let enc := ScriptedCodec.encoders
    let link : Link Unit := ⟨fun _ s => (.ok (), s)⟩
    let h := start.history enc link actions
    start.KeepsClosed enc link actions ∧
    (∀ before f key i after, h = before ++ .encode f key i true :: after →
      ∃ c, inForce before = some c ∧ configOf before i = some c) ∧
    h.filterMap made? = [(1, "avc1"), (2, "av01"), (3, "hev1")] ∧
    encodes h = 4 ∧
    start.publisher.configure enc (config "vp9") =
      (.error (.configurationUnsupported .video "vp9"),
        start.publisher.emit (.configError .video .unsupported (config "vp9"))) ∧
    (start.refusals enc link actions).length = 2 := by
  intro enc link h
  have hclosed : start.KeepsClosed enc link actions := by decide +kernel
  obtain ⟨hinForce, hrefused, -⟩ := Broadcast.configuration_in_force enc link
  refine ⟨hclosed, ?_, by decide +kernel, by decide +kernel, ?_, by decide +kernel⟩
  · exact hinForce ⟨.video, 1, 30, 2⟩ { unsupported := ["vp9"], startsUninitialized := true }
      (.startingAt 0) 0 () actions hclosed
  · exact hrefused start.publisher (config "vp9") (by decide +kernel)

end LiveMedia

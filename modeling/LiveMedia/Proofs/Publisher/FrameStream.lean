import LiveMedia.Proofs.Publisher.Encoding
import LiveMedia.Proofs.Publisher.StreamObjects
import LiveMedia.Proofs.Transport.Attended

/-!
# A stream of frames on its way

What a publisher hands to a loopback transport for a list of frames, and what comes out of it. The
transport loses nothing and changes the order only among neighbours.
-/

namespace LiveMedia
set_option autoImplicit false

variable {W S : Type}

open SimulatedCodec

namespace Broadcast

section Flush

variable (enc : EncoderFamily W) (link : Link S)

/-- Only the end of a stream flushes the link. -/
theorem calls_of_ne_endStream (b : Broadcast W S) {actions : List (Action W)}
    (h : ∀ a ∈ actions, a.endsStream = false) :
    ∀ call ∈ b.calls enc link actions, call.1 ≠ .flush := by
  induction actions generalizing b with
  | nil => exact fun call hcall => absurd hcall List.not_mem_nil
  | cons a rest ih =>
    intro call hcall
    rw [b.calls_cons] at hcall
    rcases List.mem_append.mp hcall with hcall | hcall
    · have ha := h a List.mem_cons_self
      cases a with
      | handle c =>
        have hmem : call.1 ∈ b.publisher.numbering.transmissions c := by
          rw [← (b.step_handle enc link c).1]
          exact List.mem_map_of_mem hcall
        intro hflush
        rw [hflush] at hmem
        simp [Numbering.transmissions] at hmem
      | endStream => cases ha
      | begin => exact absurd hcall List.not_mem_nil
      | collect count => exact absurd hcall List.not_mem_nil
      | configure c => exact absurd hcall List.not_mem_nil
      | submit f => exact absurd hcall List.not_mem_nil
      | flushEncoder => exact absurd hcall List.not_mem_nil
      | codec run => exact absurd hcall List.not_mem_nil
      | lose => exact absurd hcall List.not_mem_nil
      | elapse us => exact absurd hcall List.not_mem_nil
    · exact ih _ (fun x hx => h x (List.mem_cons_of_mem a hx)) call hcall

theorem calls_endStream (b : Broadcast W S) :
    (b.calls enc link [.endStream]).map Prod.fst = [.flush] := by
  obtain ⟨ok, _, hlink⟩ := send_logged link
    (b.mapLink (Logged.fresh (C := Transmission × Bool))) .flush
  have hlog : b.calls enc link [.endStream] = [(.flush, ok)] := congrArg Logged.calls hlink
  rw [hlog]
  rfl

end Flush

/-- The objects that a publisher hands to its link for what a source gives. -/
def sentObjects (enc : EncoderFamily W) (link : Link S) (limit : Nat) (src : Source W)
    (b : Broadcast W S) : List Received :=
  (((b.mapLink Logged.fresh).attach enc link.logged limit src).2.link.calls.map
    Prod.fst).filterMap Transmission.received?

/-- The objects that come out of a loopback transport for what a source gives. -/
def deliveredObjects (enc : EncoderFamily W) (limit : Nat) (src : Source W)
    (b : Broadcast W Attended) : List Received :=
  (b.attach enc Attended.link limit src).2.link.seen

section Frames

variable {S : Type} {c : CodecConfig} (media : Media) (interval : Nat) (frames : List Frame)

theorem handled_streamActions :
    handled (streamActions (W := W) media interval frames) =
      encodedFrom media interval 0 frames := by
  have hframes := handled_frameActions (W := W) media interval 0 frames
  unfold streamActions
  rw [handled_append]
  change handled (frameActions (W := W) media interval 0 frames) ++ [] = _
  rw [List.append_nil, hframes]

theorem mem_frameActions (count : Nat) {a : Action W}
    (ha : a ∈ frameActions media interval count frames) :
    a.isBegin = false ∧ a.endsStream = false := by
  induction frames generalizing count with
  | nil => exact absurd ha List.not_mem_nil
  | cons f rest ih =>
    simp only [frameActions, List.mem_cons] at ha
    rcases ha with rfl | rfl | rfl | ha
    · exact ⟨rfl, rfl⟩
    · exact ⟨rfl, rfl⟩
    · exact ⟨rfl, rfl⟩
    · exact ih (count + 1) ha

theorem not_isBegin_streamActions :
    ∀ a ∈ streamActions (W := W) media interval frames, a.isBegin = false := by
  intro a ha
  simp only [streamActions, List.mem_append, List.mem_cons, List.not_mem_nil, or_false] at ha
  rcases ha with ha | rfl | rfl
  · exact (mem_frameActions media interval frames 0 ha).1
  · rfl
  · rfl

/-- What a publisher hands over for a list of frames does not depend on the link. -/
theorem sentObjects_ofFrames (link : Link S) {b : Broadcast SimulatedCodec S}
    (h : (b.publisher.beginStream b.now).Encoding c 0) (limit : Nat) :
    b.sentObjects (encoders media) link limit (.ofFrames frames) =
      streamObjects b.publisher.settings (b.publisher.epoch + 1) []
        (encodedFrom media b.publisher.settings.keyframeInterval 0 frames) := by
  have hbegun := Numbering.InStream.begun b.publisher.numbering
  have hstep := (b.step_other (encoders media) link (a := .begin) rfl).2
  have hin := Numbering.InStream.received?_calls (b := b.step (encoders media) link .begin)
    (by rw [hstep]; exact hbegun) (encoders media) link _
    (not_isBegin_streamActions media b.publisher.settings.keyframeInterval frames)
  rw [handled_streamActions] at hin
  have hcalls := b.calls_append (encoders media) link [.begin]
    (streamActions media b.publisher.settings.keyframeInterval frames)
  rw [show b.calls (encoders media) link [.begin] = [] from rfl, List.nil_append] at hcalls
  have hattach := attach_ofFrames link.logged (b := b.mapLink Logged.fresh) h media limit frames
  unfold sentObjects
  rw [hattach]
  exact (congrArg (fun calls => (calls.map Prod.fst).filterMap Transmission.received?) hcalls).trans
    hin

theorem endsStream_streamActions : ∃ body, (∀ a ∈ body, Action.endsStream a = false) ∧
    .begin :: streamActions (W := W) media interval frames = body ++ [.endStream] := by
  refine ⟨.begin :: frameActions media interval 0 frames ++ [.flushEncoder], ?_, ?_⟩
  · intro a ha
    simp only [List.cons_append, List.mem_cons, List.mem_append, List.not_mem_nil,
      or_false] at ha
    rcases ha with rfl | ha | rfl
    · rfl
    · exact (mem_frameActions media interval frames 0 ha).2
    · rfl
  · simp [streamActions]

theorem deliveredObjects_ofFrames {b : Broadcast SimulatedCodec Attended}
    (h : (b.publisher.beginStream b.now).Encoding c 0) (hready : b.link.Ready)
    (hheld : b.link.loopback.held = none) (limit : Nat) :
    b.deliveredObjects (encoders media) limit (.ofFrames frames) =
      b.link.seen ++ Attended.outOrder b.link.loopback.swaps b.link.loopback.drawn none
        (b.sentObjects (encoders media) Attended.link limit (.ofFrames frames)) := by
  obtain ⟨body, hbody, hactions⟩ :=
    endsStream_streamActions media b.publisher.settings.keyframeInterval frames
  have hlogged := attach_ofFrames Attended.link.logged (b := b.mapLink Logged.fresh) h media limit
    frames
  have hcalls := b.calls_append (encoders media) Attended.link body [.endStream]
  have hflush : ∀ t ∈ (b.calls (encoders media) Attended.link body).map Prod.fst,
      t ≠ .flush := by
    intro t ht
    obtain ⟨call, hcall, rfl⟩ := List.mem_map.mp ht
    exact calls_of_ne_endStream (encoders media) Attended.link b hbody call hcall
  have hall : (b.calls (encoders media) Attended.link (body ++ [.endStream])).map Prod.fst =
      (b.calls (encoders media) Attended.link body).map Prod.fst ++ [.flush] := by
    rw [hcalls, List.map_append, calls_endStream]
  have hsent : b.sentObjects (encoders media) Attended.link limit (.ofFrames frames) =
      ((b.calls (encoders media) Attended.link body).map Prod.fst).filterMap
        Transmission.received? := by
    unfold sentObjects
    rw [hlogged]
    change (((b.mapLink Logged.fresh).run (encoders media) Attended.link.logged
      (.begin :: streamActions media b.publisher.settings.keyframeInterval frames)).link.calls.map
        Prod.fst).filterMap Transmission.received? = _
    rw [hactions]
    change ((b.calls (encoders media) Attended.link (body ++ [.endStream])).map
      Prod.fst).filterMap Transmission.received? = _
    rw [hall, List.filterMap_append]
    exact List.append_nil _
  unfold deliveredObjects
  rw [attach_ofFrames Attended.link h media limit frames, hactions, hsent]
  change (b.run (encoders media) Attended.link (body ++ [.endStream])).link.seen = _
  rw [link_run_eq, hall]
  exact Attended.seen_stream hready hheld _ hflush

end Frames

end Broadcast

end LiveMedia

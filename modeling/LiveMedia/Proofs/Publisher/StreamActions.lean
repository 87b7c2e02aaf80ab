import LiveMedia.Proofs.Publisher.Errands
import LiveMedia.Proofs.Publisher.LatestInstance
import LiveMedia.Proofs.Publisher.WorkerSources

/-!
# Streams as runs of actions

Whatever becomes of a stream that is attached, some list of actions does the same to the publisher,
its link and the clock. Encoders change by themselves in it only as the script of the source says.
-/

namespace LiveMedia
set_option autoImplicit false

variable {W S : Type}

namespace Broadcast

section Comes

variable (R : (W → W × List Chunk) → Prop) (enc : EncoderFamily W) (link : Link S)

/-- The one becomes the other by actions. -/
def Comes (b d : Broadcast W S) : Prop :=
  ∃ actions, (∀ a ∈ actions, Action.Only R a) ∧ b.run enc link actions = d

variable {R enc link} {b d e : Broadcast W S}

theorem Comes.refl (b : Broadcast W S) : b.Comes R enc link b := ⟨[], nofun, rfl⟩

theorem Comes.trans (h : b.Comes R enc link d) (h' : d.Comes R enc link e) :
    b.Comes R enc link e := by
  obtain ⟨first, hfirst, rfl⟩ := h
  obtain ⟨second, hsecond, rfl⟩ := h'
  refine ⟨first ++ second, fun a ha => ?_, b.run_append enc link first second⟩
  exact (List.mem_append.mp ha).elim (hfirst a) (hsecond a)

theorem comes_step (b : Broadcast W S) {a : Action W} (ha : a.Only R) :
    b.Comes R enc link (b.step enc link a) :=
  ⟨[a], fun _ hmem => List.mem_singleton.mp hmem ▸ ha, rfl⟩

theorem comes_drain (b : Broadcast W S) : b.Comes R enc link (b.drain link) := by
  have hhandle : ∀ (chunks : List Chunk) (b : Broadcast W S),
      b.Comes R enc link (chunks.foldl (handle link) b) := by
    intro chunks
    induction chunks with
    | nil => exact Comes.refl
    | cons c rest ih => exact fun b => (b.comes_step (a := .handle c) trivial).trans (ih _)
  have hcollect : b.Comes R enc link
      (b.step enc link (.collect b.publisher.outputs.length)) := b.comes_step trivial
  simp only [step, List.drop_length] at hcollect
  exact hcollect.trans (hhandle b.publisher.outputs _)

theorem comes_wake (b : Broadcast W S) (tick : ℕ) :
    b.Comes R enc link { b with now := Timer.wake b.now tick } :=
  b.comes_step (a := .elapse ((tick - Timer.passed b.now) * 1000)) trivial

theorem comes_finish (b : Broadcast W S) : b.Comes R enc link (b.finish enc link) :=
  ((b.comes_step (a := .flushEncoder) trivial).trans (comes_drain _)).trans
    (comes_step _ (a := .endStream) trivial)

/-- What a stream does while it lasts is done by actions. -/
theorem upholds_comes : Upholds enc link fun _ d => b.Comes R enc link d where
  submit f h := h.trans (comes_step _ (a := .submit f) trivial)
  drain h := h.trans (comes_drain _)
  elapse us h := h.trans (comes_step _ (a := .elapse us) trivial)

theorem comes_attach (limit : ℕ) {src : Source W} (hsrc : src.Only R) (b : Broadcast W S) :
    b.Comes R enc link (b.attach enc link limit src).2 := by
  have hbegun : b.Comes R enc link
      ({ b with publisher := b.publisher.beginStream b.now }.drain link) :=
    (b.comes_step (a := .begin) trivial).trans (comes_drain _)
  -- Neither the number of frames nor whether the publisher stays whole matters here.
  obtain ⟨_, hrun, -⟩ := upholds_comes.runSource limit (n := 0)
    (fun run hrun _ _ hd => hd.trans (comes_step _ (a := .codec run) (hsrc run hrun)))
    hbegun fun h : False => h.elim
  have hlose (d : Broadcast W S) : d.Comes R enc link
      { d with publisher := { d.publisher with receiving := false, outputs := [] } } :=
    d.comes_step (a := .lose) trivial
  unfold attach
  split
  · exact .refl b
  · simp only
    split
    · rename_i last heq
      rw [heq] at hrun
      split
      · exact ((hrun.trans (comes_drain _)).trans (hlose _)).trans (comes_wake _ limit)
      · exact hrun.trans (comes_finish _)
    · rename_i last heq
      rw [heq] at hrun
      exact hrun.trans (hlose _)
    · exact hrun

end Comes

/-- A stream whose source makes no instance leaves closed encoders closed. -/
theorem keepsClosed_attach {media : Media} {link : Link S} (limit : ℕ) {src : Source SimulatedCodec}
    (hsrc : src.Only SimulatedCodec.CreatesNone) {b : Broadcast SimulatedCodec S}
    (hb : b.publisher.Latest) :
    let enc := SimulatedCodec.encoders media
    ∃ actions, b.KeepsClosed enc link actions ∧
      b.run enc link actions = (b.attach enc link limit src).2 := by
  intro enc
  obtain ⟨actions, honly, hrun⟩ : b.Comes _ enc link _ := b.comes_attach limit hsrc
  exact ⟨actions, keepsClosed_of_createsNone hb honly, hrun⟩

end Broadcast

/-- Whatever the owner of a publisher asks of it is done by actions. -/
theorem Annals.comes_run (enc : EncoderFamily W) (link : Link S) (a : Annals W S)
    (errands : List (Errand W)) :
    a.broadcast.Comes (fun _ => True) enc.logged link.logged
      (a.run enc link errands).broadcast := by
  induction errands generalizing a with
  | nil => exact .refl _
  | cons e rest ih =>
    refine Broadcast.Comes.trans ?_ (ih (a.step enc link e))
    unfold Annals.step
    split
    · exact .refl _
    · cases e with
      | configure c => exact Broadcast.comes_step _ (a := .configure c) trivial
      | attach limit src => exact Broadcast.comes_attach limit (fun _ _ => trivial) _
      | disturb run => exact Broadcast.comes_step _ (a := .codec _) trivial
      | elapse us => exact Broadcast.comes_step _ (a := .elapse us) trivial

end LiveMedia

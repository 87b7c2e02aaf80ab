import LiveMedia.Proofs.Publisher.Engagement
import LiveMedia.Proofs.Publisher.EventLog
import LiveMedia.Proofs.Publisher.StreamActions

/-!
# Steps of workers as actions

A worker makes its calls one at a time, and a transport may keep each of them waiting while other
things happen. The calls that it still owes are counted as made: then a step that makes a call
changes nothing, and every other step is a few actions.
-/

namespace LiveMedia
set_option autoImplicit false

variable {W S : Type}

/-- The answers that a transport has yet to give, and the calls that it has answered. -/
structure Tape where
  coming : List (Except LinkFault Unit)
  given : List (Transmission × Except LinkFault Unit)

/-- Calls succeed when there are no more answers to come. -/
def Tape.link : Link Tape where
  send t a :=
    match a.coming with
    | [] => (.ok (), ⟨[], a.given ++ [(t, .ok ())]⟩)
    | answer :: rest => (answer, ⟨rest, a.given ++ [(t, answer)]⟩)

def Progress.result? : Progress → Option (Except LinkFault Unit)
  | .done result => some result
  | .going _ => none
  | .blocked _ => none

namespace Broadcast

variable {R : (W → W × List Chunk) → Prop} {enc : EncoderFamily W} {link : Link S}
  {b d : Broadcast W S}

theorem send_of_answer {t : Transmission} {answer : Except LinkFault Unit} {s : S}
    (h : link.send t b.link = (answer, s)) :
    b.send link t = ⟨b.publisher.settle t answer.isOk, s, b.now⟩ := by
  cases answer <;>
  · unfold send
    rw [h]
    rfl

theorem sendAll_elapse (b : Broadcast W S) (ts : List Transmission) (us : ℕ) :
    ({ b with now := b.now + us } : Broadcast W S).sendAll link ts =
      { b.sendAll link ts with now := (b.sendAll link ts).now + us } := by
  induction ts generalizing b with
  | nil => rfl
  | cons t rest ih =>
    have hsend : ({ b with now := b.now + us } : Broadcast W S).send link t =
        { b.send link t with now := (b.send link t).now + us } := by
      unfold send
      simp only
      split <;> rfl
    change (({ b with now := b.now + us } : Broadcast W S).send link t).sendAll link rest = _
    rw [hsend]
    exact ih (b.send link t)

theorem sendAll_apply (b : Broadcast W S) (ts : List Transmission) (run : W → W × List Chunk) :
    (b.apply run).sendAll link ts = (b.sendAll link ts).apply run := by
  induction ts generalizing b with
  | nil => rfl
  | cons t rest ih =>
    have hsend : (b.apply run).send link t = (b.send link t).apply run := by
      have hsettle (ok : Bool) : (b.publisher.actOnCodec run).settle t ok =
          (b.publisher.settle t ok).actOnCodec run := by
        unfold Publisher.settle
        split
        · rfl
        · split
          · rfl
          · split <;> rfl
          · rfl
      unfold send apply
      simp only [hsettle]
      split <;> rfl
    change ((b.apply run).send link t).sendAll link rest = _
    rw [hsend]
    exact ih (b.send link t)

theorem run_after (es : List Event) (b : Broadcast W S) (actions : List (Action W)) :
    (b.after es).run enc link actions = (b.run enc link actions).after es := by
  induction actions generalizing b with
  | nil => rfl
  | cons a rest ih =>
    rw [run_cons, run_cons, step_after]
    exact ih (b.step enc link a)

theorem Comes.after (h : b.Comes R enc link d) (es : List Event) :
    (b.after es).Comes R enc link (d.after es) := by
  obtain ⟨actions, honly, rfl⟩ := h
  exact ⟨actions, honly, run_after es b actions⟩

/-- What a source does to encoders before it answers. -/
theorem comes_ask (now : ℕ) (ticker : Option Ticker) (stalls : Bool) {cues : List (Cue W)}
    (h : Source.Only R ⟨cues, ticker, stalls⟩) (b : Broadcast W S) (before : List Chunk)
    (hreceiving : b.publisher.receiving = true) :
    let answer := Source.ask now ticker stalls cues b.publisher.codec before
    ∃ more, answer.emitted = before ++ more ∧ b.Comes R enc link { b with
      publisher := { b.publisher with
        codec := answer.codec, outputs := b.publisher.outputs ++ more } } := by
  have hidle (b : Broadcast W S) : b.Comes R enc link { b with
      publisher := { b.publisher with outputs := b.publisher.outputs ++ [] } } := by
    rw [List.append_nil]
    exact .refl b
  induction cues generalizing b before with
  | nil => exact ⟨[], (List.append_nil _).symm, hidle b⟩
  | cons cue cues ih =>
    have hlater : Source.Only R ⟨cues, ticker, stalls⟩ :=
      fun run hrun => h run (List.mem_cons_of_mem _ hrun)
    unfold Source.ask
    cases cue with
    | frame f => exact ⟨[], (List.append_nil _).symm, hidle b⟩
    | effect run =>
      have happly : b.apply run = { b with publisher := { b.publisher with
          codec := (run b.publisher.codec).1
          outputs := b.publisher.outputs ++ (run b.publisher.codec).2 } } := by
        unfold apply Publisher.actOnCodec Publisher.deliver
        simp only [hreceiving, if_true]
      obtain ⟨more, hgave, hcomes⟩ := ih hlater (b.apply run)
        (before ++ (run b.publisher.codec).2) (happly ▸ hreceiving)
      have hfirst : b.Comes R enc link (b.apply run) :=
        b.comes_step (a := .codec run) (h run List.mem_cons_self)
      refine ⟨(run b.publisher.codec).2 ++ more, hgave.trans (List.append_assoc _ _ _), ?_⟩
      rw [happly] at hcomes
      rw [← List.append_assoc]
      exact (happly ▸ hfirst).trans hcomes
    | advance us => exact ⟨[], (List.append_nil _).symm, hidle b⟩
    | pause ms =>
      simp only
      split
      · exact ih hlater b before hreceiving
      · exact ⟨[], (List.append_nil _).symm, hidle b⟩
    | breakDown => exact ⟨[], (List.append_nil _).symm, hidle b⟩

end Broadcast

namespace PublishWorker

/-- The calls that the worker has still to make or to be answered. -/
def owed (w : PublishWorker W) : List Transmission := (w.call.map Prod.fst).toList ++ w.calls

/-- The call that is answered in the next step. -/
def answered? (carrier : Carrier S) (who : ℕ) (w : PublishWorker W) (s : S) :
    Option (Transmission × Except LinkFault Unit) :=
  match w.call, w.calls with
  | some (t, d), _ => (carrier.resume who d s).1.result?.map (t, ·)
  | none, t :: _ => (carrier.send who t s).1.result?.map (t, ·)
  | none, [] => none

/-- The publisher on a link, with the calls made that its worker owes. A stream whose end the
transport is being told is over. -/
def settled (link : Link S) (w : PublishWorker W) (s : S) (now : ℕ) : Broadcast W S :=
  let b := (⟨w.publisher, s, now⟩ : Broadcast W S).sendAll link w.owed
  match w.phase with
  | .closing _ => b.endStream
  | _ => b

section Settled

variable {R : (W → W × List Chunk) → Prop} {enc : EncoderFamily W} {link : Link S}
  {w w' : PublishWorker W} {s : S} {now : ℕ}

theorem settled_of_not_closing (hphase : ∀ next, w.phase ≠ .closing next) :
    w.settled link s now = (⟨w.publisher, s, now⟩ : Broadcast W S).sendAll link w.owed := by
  unfold settled
  split
  · rename_i next heq
    exact absurd heq (hphase next)
  · rfl

theorem settled_congr (hpublisher : w'.publisher = w.publisher) (howed : w'.owed = w.owed)
    (hphase : w'.phase = w.phase) : w'.settled link s now = w.settled link s now := by
  unfold settled
  rw [hpublisher, howed, hphase]

/-- A call that is answered has been made. -/
theorem settled_of_answer {t : Transmission} {answer : Except LinkFault Unit} {s' : S}
    (hsend : link.send t s = (answer, s')) (howed : w.owed = t :: w'.owed)
    (hpublisher : w'.publisher = w.publisher.settle t answer.isOk) (hphase : w'.phase = w.phase) :
    w'.settled link s' now = w.settled link s now := by
  have hmade : (⟨w.publisher, s, now⟩ : Broadcast W S).sendAll link (t :: w'.owed) =
      (⟨w'.publisher, s', now⟩ : Broadcast W S).sendAll link w'.owed := by
    rw [hpublisher]
    exact congrArg (Broadcast.sendAll link · w'.owed) (Broadcast.send_of_answer hsend)
  unfold settled
  rw [howed, hmade, hphase]

theorem comes_settled_elapse (us : ℕ) :
    (w.settled link s now).Comes R enc link (w.settled link s (now + us)) := by
  have hlater : w.settled link s (now + us) =
      { w.settled link s now with now := (w.settled link s now).now + us } := by
    have hsent : (⟨w.publisher, s, now + us⟩ : Broadcast W S).sendAll link w.owed = _ :=
      Broadcast.sendAll_elapse ⟨w.publisher, s, now⟩ w.owed us
    unfold settled
    rw [hsent]
    cases w.phase <;> rfl
  rw [hlater]
  exact Broadcast.comes_step _ (a := .elapse us) trivial

theorem comes_settled_disturb {run : W → W × List Chunk} (hrun : R run) :
    (w.settled link s now).Comes R enc link
      ((w.actOnPublisher (.actOnCodec run)).settled link s now) := by
  have hlater : (w.actOnPublisher (.actOnCodec run)).settled link s now =
      (w.settled link s now).apply run := by
    have hsent : (⟨w.publisher.actOnCodec run, s, now⟩ : Broadcast W S).sendAll link w.owed =
        ((⟨w.publisher, s, now⟩ : Broadcast W S).sendAll link w.owed).apply run :=
      Broadcast.sendAll_apply ⟨w.publisher, s, now⟩ w.owed run
    have howed : (w.actOnPublisher (.actOnCodec run)).owed = w.owed := rfl
    have hphase : (w.actOnPublisher (.actOnCodec run)).phase = w.phase := rfl
    have hpublisher : (w.actOnPublisher (.actOnCodec run)).publisher =
        w.publisher.actOnCodec run := rfl
    unfold settled
    rw [howed, hphase, hpublisher, hsent]
    cases w.phase <;> rfl
  rw [hlater]
  exact Broadcast.comes_step _ (a := .codec run) hrun

end Settled

section Quiet

variable {R : (W → W × List Chunk) → Prop} {enc : EncoderFamily W} {link : Link S}
  {w : PublishWorker W} (hcall : w.call = none) (hcalls : w.calls = [])
include hcall hcalls

theorem settled_quiet (hphase : ∀ next, w.phase ≠ .closing next) (s : S) (now : ℕ) :
    w.settled link s now = ⟨w.publisher, s, now⟩ := by
  rw [settled_of_not_closing hphase]
  unfold owed
  rw [hcall, hcalls]
  rfl

theorem comes_finish (how : WorkerEnd) (s : S) (now : ℕ) :
    (⟨w.publisher, s, now⟩ : Broadcast W S).Comes R enc link
      ((w.finish how).settled link s now) := by
  rw [settled_quiet (w := w.finish how) hcall hcalls nofun]
  exact .refl _

theorem comes_begin (src : Source W) (s : S) (now : ℕ) :
    (⟨w.publisher, s, now⟩ : Broadcast W S).Comes R enc link
      ((w.begin now src).settled link s now) := by
  rw [settled_quiet (w := w.begin now src) hcall hcalls nofun]
  exact Broadcast.comes_step _ (a := .begin) trivial

theorem comes_endSource (next : Option (Source W)) (s : S) (now : ℕ) :
    (⟨w.publisher, s, now⟩ : Broadcast W S).Comes R enc link
      ((w.endSource enc next).settled link s now) := by
  rw [settled_quiet (w := w.endSource enc next) hcall hcalls nofun]
  exact Broadcast.comes_step _ (a := .flushEncoder) trivial

omit hcalls in
theorem comes_handleOutput (hphase : ∀ next, w.phase ≠ .closing next) {c : Chunk}
    {rest : List Chunk} (houtputs : w.publisher.outputs = c :: rest) (s : S) (now : ℕ) :
    (⟨w.publisher, s, now⟩ : Broadcast W S).Comes R enc link
      ((w.handleOutput now c rest).settled link s now) := by
  have hcollect : (⟨w.publisher, s, now⟩ : Broadcast W S).Comes R enc link
      ⟨{ w.publisher with outputs := rest }, s, now⟩ := by
    have hfirst : (⟨w.publisher, s, now⟩ : Broadcast W S).Comes R enc link
        (Broadcast.step enc link ⟨w.publisher, s, now⟩ (.collect 1)) :=
      Broadcast.comes_step _ trivial
    simp only [Broadcast.step, houtputs, List.drop_one, List.tail_cons] at hfirst
    exact hfirst
  have howed : (w.handleOutput now c rest).owed =
      ({ w.publisher with outputs := rest }.handle now c).1 := by
    change (w.call.map Prod.fst).toList ++ _ = _
    rw [hcall]
    rfl
  rw [settled_of_not_closing (w := w.handleOutput now c rest) hphase, howed]
  exact hcollect.trans (Broadcast.comes_step _ (a := .handle c) trivial)

theorem comes_hear (hphase : w.phase = .serving) (s : S) (now : ℕ) :
    (⟨w.publisher, s, now⟩ : Broadcast W S).Comes R enc link
      ((w.hear enc now).settled link s now) := by
  have hopen : ∀ next, w.phase ≠ .closing next := by simp [hphase]
  unfold hear
  split
  · rename_i command mailbox _
    cases command with
    | configure c =>
      rw [settled_quiet (w := follow enc { w with mailbox := mailbox } now (.configure c))
        hcall hcalls hopen]
      exact Broadcast.comes_step _ (a := .configure c) trivial
    | attach src =>
      unfold follow attach
      simp only
      split
      · exact comes_endSource (w := { w with mailbox := mailbox }) hcall hcalls (some src) s now
      · exact comes_begin (w := { w with mailbox := mailbox }) hcall hcalls src s now
  · simp only
    split
    · rw [settled_quiet (w := { w with listening := false }) hcall hcalls hopen]
      exact .refl _
    · exact comes_finish (w := { w with listening := false }) hcall hcalls .stopped s now

theorem comes_askSource (hphase : w.phase = .serving) (hreceiving : w.publisher.receiving = true)
    {src : Source W} (hsrc : src.Only R) (s : S) (now : ℕ) :
    (⟨w.publisher, s, now⟩ : Broadcast W S).Comes R enc link
      ((w.askSource enc now src).1.settled link s
        (now + (w.askSource enc now src).2.getD 0)) := by
  have hopen : ∀ next, w.phase ≠ .closing next := by simp [hphase]
  obtain ⟨more, hgave, hasked⟩ : ∃ more, (src.next now w.publisher.codec).emitted = [] ++ more ∧
      Broadcast.Comes R enc link _ _ :=
    Broadcast.comes_ask now src.ticker src.stalls hsrc ⟨w.publisher, s, now⟩ [] hreceiving
  have hsupplied : (⟨w.publisher, s, now⟩ : Broadcast W S).Comes R enc link
      ⟨{ w.publisher with codec := (src.next now w.publisher.codec).codec }.deliver
        (src.next now w.publisher.codec).emitted, s, now⟩ := by
    rw [show (src.next now w.publisher.codec).emitted = more from hgave]
    unfold Publisher.deliver
    rw [if_pos hreceiving]
    exact hasked
  refine hsupplied.trans ?_
  unfold askSource
  generalize src.next now w.publisher.codec = answer
  obtain ⟨supply, codec, gave⟩ := answer
  cases supply with
  | frame f rest =>
    refine Broadcast.Comes.trans (Broadcast.comes_step _ (a := .submit f) trivial) ?_
    simp only
    split
    · exact comes_finish (w := { w with publisher := _, source := some rest }) hcall hcalls .failed
        s now
    · rw [settled_quiet (w := { w with publisher := _, source := some rest }) hcall hcalls hopen]
      exact .refl _
  | wait deadline rest =>
    rw [settled_quiet (w := { w with
      publisher := _, source := some rest, sourceWait := .untilDeadline deadline })
      hcall hcalls hopen]
    exact .refl _
  | moved us rest =>
    rw [settled_quiet (w := { w with publisher := _, source := some rest }) hcall hcalls hopen]
    exact Broadcast.comes_step _ (a := .elapse us) trivial
  | stalled =>
    rw [settled_quiet (w := { w with publisher := _, sourceWait := .forever }) hcall hcalls hopen]
    exact .refl _
  | ended =>
    exact comes_endSource
      (w := { w with publisher := { w.publisher with codec := codec }.deliver gave })
      hcall hcalls none s now
  | broken =>
    exact comes_finish
      (w := { w with publisher := { w.publisher with codec := codec }.deliver gave })
      hcall hcalls .failed s now

theorem comes_serve (hphase : w.phase = .serving) (hsources : w.Sources R) (s : S) (now : ℕ) :
    (⟨w.publisher, s, now⟩ : Broadcast W S).Comes R enc link
      ((w.serve enc now).1.settled link s (now + (w.serve enc now).2.getD 0)) := by
  have hopen : ∀ next, w.phase ≠ .closing next := by simp [hphase]
  have hstill : (⟨w.publisher, s, now⟩ : Broadcast W S).Comes R enc link
      (w.settled link s now) := by
    rw [settled_quiet hcall hcalls hopen]
    exact .refl _
  unfold serve
  split
  · exact comes_finish hcall hcalls .stopped s now
  · rename_i hgoes
    have hreceiving : w.publisher.receiving = true := by
      cases hreceiving : w.publisher.receiving with
      | true => rfl
      | false => simp [hreceiving] at hgoes
    split
    · exact comes_hear hcall hcalls hphase s now
    · split
      · rename_i c rest houtputs
        exact comes_handleOutput hcall hopen houtputs s now
      · rename_i src _ hsource
        split
        · exact comes_askSource (w := { w with sourceWait := .over }) hcall hcalls hphase hreceiving
            (hsources.source src hsource) s now
        · exact hstill
      · exact hstill

theorem comes_conclude (next : Option (Source W)) (s : S) (now : ℕ) :
    (⟨w.publisher, s, now⟩ : Broadcast W S).endStream.Comes R enc link
      ((w.conclude now next).settled link s now) := by
  unfold conclude
  cases next with
  | some src =>
    exact comes_begin (w := { w with publisher := w.publisher.endStream, phase := .serving })
      hcall hcalls src s now
  | none =>
    simp only
    split
    · rw [settled_quiet (w := { w with publisher := w.publisher.endStream, phase := .serving })
        hcall hcalls nofun]
      exact .refl _
    · exact comes_finish (w := { w with publisher := w.publisher.endStream, phase := .serving })
        hcall hcalls .stopped s now

end Quiet

variable {R : (W → W × List Chunk) → Prop}

/-- A step in which no call is made, on whatever transport. -/
theorem comes_quiet_step {w : PublishWorker W} (hcall : w.call = none) (hcalls : w.calls = [])
    (hsources : w.Sources R) (enc : EncoderFamily W) (link : Link S) (l : S) {T : Type}
    (carrier : Carrier T) (who now : ℕ) (s : T) :
    let next := w.step enc carrier who now s
    (w.settled link l now).Comes R enc link
      (next.1.1.settled link l (now + next.2.getD 0)) := by
  intro next
  have hnext : next = _ := step_of_no_call hcall hcalls enc carrier who now s
  have howed : w.owed = [] := by
    unfold owed
    rw [hcall, hcalls]
    rfl
  rw [hnext]
  cases hphase : w.phase with
  | serving =>
    rw [settled_quiet hcall hcalls (by simp [hphase])]
    exact comes_serve hcall hcalls hphase hsources l now
  | draining after =>
    have hopen : ∀ next, w.phase ≠ .closing next := by simp [hphase]
    rw [settled_quiet hcall hcalls hopen]
    cases houtputs : w.publisher.outputs with
    | cons c rest => exact comes_handleOutput hcall hopen houtputs l now
    | nil =>
      have hclosing : settled link { w with calls := [.flush], phase := .closing after } l now =
          ((⟨w.publisher, l, now⟩ : Broadcast W S).send link .flush).endStream := by
        unfold settled owed
        rw [hcall]
        rfl
      change Broadcast.Comes R enc link _
        (settled link { w with calls := [.flush], phase := .closing after } l now)
      rw [hclosing]
      exact Broadcast.comes_step _ (a := .endStream) trivial
  | closing after =>
    have hclosed : w.settled link l now = (⟨w.publisher, l, now⟩ : Broadcast W S).endStream := by
      unfold settled
      rw [hphase, howed]
      rfl
    rw [hclosed]
    exact comes_conclude hcall hcalls after l now
  | ended how => exact .refl _

/-- The worker hears from the transport of a call, on a link that is about to answer the same. -/
theorem settled_note {w v : PublishWorker W} {t : Transmission} (howed : w.owed = t :: v.calls)
    (hpublisher : v.publisher = w.publisher) (hphase : v.phase = w.phase) (progress : Progress)
    (later : List (Except LinkFault Unit)) (calls : List (Transmission × Except LinkFault Unit))
    (now : ℕ) :
    (v.note t progress).settled Tape.link
        ⟨later, calls ++ (progress.result?.map (t, ·)).toList⟩ now =
      w.settled Tape.link ⟨progress.result?.toList ++ later, calls⟩ now := by
  have hgoing (d : Delivery) : settled Tape.link { v with call := some (t, d) }
      ⟨later, calls ++ []⟩ now = w.settled Tape.link ⟨later, calls⟩ now := by
    rw [List.append_nil]
    exact settled_congr hpublisher howed.symm hphase
  cases progress with
  | done answer =>
    have hsend : Tape.link.send t ⟨answer :: later, calls⟩ =
        (answer, ⟨later, calls ++ [(t, answer)]⟩) := rfl
    refine settled_of_answer hsend howed ?_ hphase
    change v.publisher.settle t _ = _
    rw [hpublisher]
    cases answer <;> rfl
  | going d => exact hgoing d
  | blocked d => exact hgoing d

theorem settled_after (es : List Event) (w : PublishWorker W) (link : Link S) (s : S) (now : ℕ) :
    (w.actOnPublisher (.after es)).settled link s now = (w.settled link s now).after es := by
  have hsent : (⟨w.publisher.after es, s, now⟩ : Broadcast W S).sendAll link w.owed =
      ((⟨w.publisher, s, now⟩ : Broadcast W S).sendAll link w.owed).after es :=
    Broadcast.sendAll_after es ⟨w.publisher, s, now⟩ w.owed
  have howed : (w.actOnPublisher (.after es)).owed = w.owed := rfl
  have hphase : (w.actOnPublisher (.after es)).phase = w.phase := rfl
  have hpublisher : (w.actOnPublisher (.after es)).publisher = w.publisher.after es := rfl
  unfold settled
  rw [howed, hphase, hpublisher, hsent]
  cases w.phase <;> rfl

end PublishWorker

end LiveMedia

import LiveMedia.Proofs.Publisher.WorkerActions
import LiveMedia.Session.Basic

/-!
# Runs of workers as runs of actions

Whatever transport a worker has, and whatever goes on around it, it does what a run of its publisher
does on a link that gives the answers that the transport gave.
-/

namespace LiveMedia
set_option autoImplicit false

variable {W S : Type}

/-- A worker at a moment, with the calls that were answered so far and the events that were taken
from its publisher. -/
structure Shift (W : Type) where
  worker : PublishWorker W
  now : ℕ
  calls : List (Transmission × Except LinkFault Unit)
  told : List Event

namespace Shift

def start (p : Publisher W) (now : ℕ) : Shift W := ⟨.new p, now, [], []⟩

/-- Whatever may happen to a worker, in any order and on any transport, with encoders changing by
themselves only as `R` says. -/
inductive Goes (R : (W → W × List Chunk) → Prop) (enc : EncoderFamily W) (x : Shift W) :
    Shift W → Prop where
  | step {T : Type} (carrier : Carrier T) (who : ℕ) (s : T) :
    Goes R enc x ⟨(x.worker.step enc carrier who x.now s).1.1,
      x.now + (x.worker.step enc carrier who x.now s).2.getD 0,
      x.calls ++ (x.worker.answered? carrier who s).toList, x.told⟩
  | elapse (us : ℕ) : Goes R enc x { x with now := x.now + us }
  | disturb {run : W → W × List Chunk} (kind : R run) :
    Goes R enc x { x with worker := x.worker.actOnPublisher (.actOnCodec run) }
  | post {c : PublishCommand W} (kind : c.Only R) :
    Goes R enc x { x with worker := (x.worker.post c).2 }
  | dismiss : Goes R enc x { x with worker := x.worker.dismiss }
  | cancel : Goes R enc x { x with worker := x.worker.cancel }
  /-- Someone takes the events that were written. -/
  | read : Goes R enc x { x with
      worker := x.worker.actOnPublisher .forgetEvents
      told := x.told ++ x.worker.publisher.events }

/-- The publisher with all of its events, and with the calls made that its worker owes, on a link
that has these answers yet to give. -/
def atOnce (later : List (Except LinkFault Unit)) (x : Shift W) : Broadcast W Tape :=
  (x.worker.settled Tape.link ⟨later, x.calls⟩ x.now).after x.told

/-- The one becomes the other by actions, if the link answers as the transport did. -/
def Traces (R : (W → W × List Chunk) → Prop) (enc : EncoderFamily W) (x y : Shift W) : Prop :=
  ∃ made, y.calls = x.calls ++ made ∧ ∀ later,
    (x.atOnce (made.map Prod.snd ++ later)).Comes R enc Tape.link (y.atOnce later)

variable {R : (W → W × List Chunk) → Prop} {enc : EncoderFamily W} {x y z : Shift W}

theorem Traces.trans (h : x.Traces R enc y) (h' : y.Traces R enc z) : x.Traces R enc z := by
  obtain ⟨first, hfirst, hcomes⟩ := h
  obtain ⟨second, hsecond, hcomes'⟩ := h'
  refine ⟨first ++ second, by rw [hsecond, hfirst, List.append_assoc], fun later => ?_⟩
  rw [List.map_append, List.append_assoc]
  exact (hcomes _).trans (hcomes' later)

/-- No call is answered. -/
theorem Traces.of_comes (hcalls : y.calls = x.calls)
    (h : ∀ later, (x.atOnce later).Comes R enc Tape.link (y.atOnce later)) :
    x.Traces R enc y :=
  ⟨[], by rw [hcalls, List.append_nil], h⟩

theorem traces_step (hsources : x.worker.Sources R) {T : Type} (carrier : Carrier T) (who : ℕ)
    (s : T) :
    x.Traces R enc ⟨(x.worker.step enc carrier who x.now s).1.1,
      x.now + (x.worker.step enc carrier who x.now s).2.getD 0,
      x.calls ++ (x.worker.answered? carrier who s).toList, x.told⟩ := by
  -- A call that is owed counts as made, so it makes no difference when it is really made.
  have hnote {v : PublishWorker W} {t : Transmission} (howed : x.worker.owed = t :: v.calls)
      (hpublisher : v.publisher = x.worker.publisher) (hphase : v.phase = x.worker.phase)
      (progress : Progress) : x.Traces R enc ⟨v.note t progress, x.now,
        x.calls ++ (progress.result?.map (t, ·)).toList, x.told⟩ := by
    have hanswers : (progress.result?.map (t, ·)).toList.map Prod.snd =
        progress.result?.toList := by
      cases progress <;> rfl
    refine ⟨_, rfl, fun later => ?_⟩
    unfold atOnce
    rw [hanswers, ← PublishWorker.settled_note howed hpublisher hphase]
    exact .refl _
  cases hcall : x.worker.call with
  | some going =>
    obtain ⟨t, d⟩ := going
    have howed : x.worker.owed = t :: x.worker.calls := by
      unfold PublishWorker.owed
      rw [hcall]
      rfl
    have hdone := hnote howed rfl rfl (carrier.resume who d s).1
    unfold PublishWorker.step PublishWorker.answered?
    simp only [hcall]
    exact hdone
  | none =>
    cases hcalls : x.worker.calls with
    | cons t rest =>
      have howed : x.worker.owed = t :: rest := by
        unfold PublishWorker.owed
        rw [hcall, hcalls]
        rfl
      have hdone := hnote (v := { x.worker with calls := rest }) howed rfl rfl
        (carrier.send who t s).1
      unfold PublishWorker.step PublishWorker.answered?
      simp only [hcall, hcalls]
      exact hdone
    | nil =>
      have hnone : x.worker.answered? carrier who s = none := by
        unfold PublishWorker.answered?
        rw [hcall, hcalls]
      refine .of_comes ?_ fun later => ?_
      · rw [hnone]
        exact List.append_nil _
      · unfold atOnce
        rw [hnone]
        simp only [Option.toList_none, List.append_nil]
        exact (PublishWorker.comes_quiet_step hcall hcalls hsources enc Tape.link _ carrier who
          x.now s).after _

theorem Goes.traces (h : x.Goes R enc y) (hsources : x.worker.Sources R) : x.Traces R enc y := by
  cases h with
  | step carrier who s => exact traces_step hsources carrier who s
  | elapse us => exact .of_comes rfl fun later => (PublishWorker.comes_settled_elapse us).after _
  | disturb kind =>
    exact .of_comes rfl fun later => (PublishWorker.comes_settled_disturb kind).after _
  | @post c =>
    have hposted : ∃ mailbox, (x.worker.post c).2 = { x.worker with mailbox := mailbox } := by
      unfold PublishWorker.post
      split
      · exact ⟨_, rfl⟩
      · exact ⟨_, rfl⟩
    obtain ⟨mailbox, hposted⟩ := hposted
    rw [hposted]
    exact .of_comes rfl fun later => .refl _
  | dismiss => exact .of_comes rfl fun later => .refl _
  | cancel => exact .of_comes rfl fun later => .refl _
  | read =>
    refine .of_comes rfl fun later => ?_
    -- The events that are taken are counted before those that are left.
    have hwhole : (x.worker.actOnPublisher .forgetEvents).actOnPublisher
        (.after x.worker.publisher.events) = x.worker := by
      unfold PublishWorker.actOnPublisher
      rw [Publisher.forgetEvents_after]
    have hsettled := PublishWorker.settled_after x.worker.publisher.events
      (x.worker.actOnPublisher .forgetEvents) Tape.link ⟨later, x.calls⟩ x.now
    rw [hwhole] at hsettled
    unfold atOnce
    rw [hsettled]
    unfold Broadcast.after Publisher.after
    simp only [List.append_assoc]
    exact .refl _

theorem Goes.sources (h : x.Goes R enc y) (hsources : x.worker.Sources R) :
    y.worker.Sources R := by
  cases h with
  | step carrier who s => exact hsources.step enc carrier who x.now s
  | elapse us => exact hsources
  | disturb kind => exact hsources.congr rfl rfl rfl
  | post kind => exact hsources.post kind
  | dismiss => exact ⟨hsources.source, hsources.next, hsources.posted⟩
  | cancel => exact hsources.congr rfl rfl rfl
  | read => exact hsources.congr rfl rfl rfl

/-- Whatever has happened to a worker, its publisher with all of its events is as some list of
actions leaves it on a link that gives the answers that the transport gave, but for the calls that
the worker still owes. -/
theorem run_of_goes {p : Publisher W} {now : ℕ}
    (h : Relation.ReflTransGen (Goes R enc) (start p now) x) :
    ∃ actions, (∀ a ∈ actions, a.Only R) ∧
      (⟨p, ⟨x.calls.map Prod.snd, []⟩, now⟩ : Broadcast W Tape).run enc Tape.link actions =
        (x.worker.settled Tape.link ⟨[], x.calls⟩ x.now).after x.told := by
  have hall : (start p now).Traces R enc x ∧ x.worker.Sources R := by
    induction h with
    | refl => exact ⟨.of_comes rfl fun _ => .refl _, PublishWorker.sources_new p⟩
    | tail _ hgoes ih => exact ⟨ih.1.trans (hgoes.traces ih.2), hgoes.sources ih.2⟩
  obtain ⟨⟨made, hmade, hcomes⟩, -⟩ := hall
  obtain rfl : x.calls = made := hmade
  have hfinal := hcomes []
  rw [List.append_nil] at hfinal
  exact hfinal

/-- A worker on simulated encoders, where nobody else makes instances, leaves closed encoders
closed. -/
theorem keepsClosed_of_goes {media : Media} {p : Publisher SimulatedCodec} (hp : p.Latest)
    {now : ℕ} {x : Shift SimulatedCodec}
    (h : Relation.ReflTransGen
      (Goes SimulatedCodec.CreatesNone (SimulatedCodec.encoders media)) (start p now) x) :
    let enc := SimulatedCodec.encoders media
    let b : Broadcast SimulatedCodec Tape := ⟨p, ⟨x.calls.map Prod.snd, []⟩, now⟩
    ∃ actions, b.KeepsClosed enc Tape.link actions ∧ b.run enc Tape.link actions =
      (x.worker.settled Tape.link ⟨[], x.calls⟩ x.now).after x.told := by
  intro enc b
  obtain ⟨actions, honly, hrun⟩ := run_of_goes h
  exact ⟨actions, Broadcast.keepsClosed_of_createsNone hp honly, hrun⟩

end Shift

/-- The worker of an engagement goes on as any worker does. -/
theorem Engagement.goes {enc : EncoderFamily W} {link : Link S} {x y : Engagement W S}
    (h : Step enc link x y) (calls : List (Transmission × Except LinkFault Unit))
    (told : List Event) :
    ∃ calls', Relation.ReflTransGen (Shift.Goes (fun _ => True) enc)
      ⟨x.worker, x.now, calls, told⟩ ⟨y.worker, y.now, calls', told⟩ := by
  cases h with
  | go able => exact ⟨_, .single (.step link.carrier 0 x.link)⟩
  | @wake deadline unable waits =>
    exact ⟨calls, .single (.elapse ((Timer.tick deadline - Timer.passed x.now) * 1000))⟩
  | @order lag c rest next free accepts time =>
    have hkind : c.Only fun _ => True := by
      cases c with
      | configure c => trivial
      | attach src => exact fun _ _ => trivial
    exact ⟨calls, .tail (.single (.elapse lag)) (.post hkind)⟩
  | dismiss all before => exact ⟨calls, .single .dismiss⟩

namespace Session

theorem publishers_of_inbound? {s t : Session W} {o : Received} (h : s.inbound? = some (o, t)) :
    t.publishers = s.publishers := by
  unfold inbound? at h
  split at h
  · obtain ⟨_, _, heq⟩ := Option.map_eq_some_iff.mp h
    cases heq
    rfl
  · obtain ⟨_, _, heq⟩ := Option.map_eq_some_iff.mp h
    cases heq
    rfl

theorem publishers_stepRouter (s : Session W) : s.stepRouter.publishers = s.publishers := by
  unfold stepRouter
  split
  · unfold handOver
    simp only
    split <;> rfl
  · simp only
    split
    · rfl
    · split
      · rename_i heq
        have hsame := publishers_of_inbound? heq
        exact hsame
      · split
        · unfold endRouter
          simp only
          split <;> rfl
        · split <;> rfl

/-- In a session a publisher goes on as any worker does, whichever task has its turn. -/
theorem goes_step (enc : Media → EncoderFamily W) (dec : DecoderFamily W) (s : Session W)
    (now : ℕ) (task : SessionTask) (m : Media)
    (calls : List (Transmission × Except LinkFault Unit)) (told : List Event) :
    let next := s.step enc dec now task
    ∃ calls' told', Relation.ReflTransGen (Shift.Goes (fun _ => True) (enc m))
      ⟨s.publishers.get m, now, calls, told⟩
      ⟨next.1.publishers.get m, now + next.2.getD 0, calls', told'⟩ := by
  intro next
  have hother (h : next.1.publishers.get m = s.publishers.get m) : ∃ calls' told',
      Relation.ReflTransGen (Shift.Goes (fun _ => True) (enc m))
        ⟨s.publishers.get m, now, calls, told⟩
        ⟨next.1.publishers.get m, now + next.2.getD 0, calls', told'⟩ := by
    rw [h]
    exact ⟨calls, told, .single (.elapse (next.2.getD 0))⟩
  cases task with
  | publish n =>
    by_cases hsame : m = n
    · subst hsame
      have hput : next.1.publishers.get m = ((s.publishers.get m).step (enc m) Loopback.carrier
          (seat m) now s.link).1.1.actOnPublisher .forgetEvents := PerMedia.get_set _ m _
      have hstep : Shift.Goes (fun _ => True) (enc m) ⟨s.publishers.get m, now, calls, told⟩ _ :=
        .step Loopback.carrier (seat m) s.link
      rw [hput]
      exact ⟨_, _, .tail (.single hstep) .read⟩
    · exact hother (PerMedia.get_set_of_ne _ hsame _)
  | play n => exact hother rfl
  | route => exact hother (congrArg (PerMedia.get · m) s.publishers_stepRouter)

end Session

end LiveMedia

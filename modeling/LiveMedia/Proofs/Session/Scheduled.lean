import LiveMedia.Proofs.Session.Conservation

/-!
# Scheduled sessions are weaves

A schedule lets a task take a call on the transport as far as it goes before another task has its
turn. That is one of the ways in which single actions may follow each other.
-/

namespace LiveMedia
set_option autoImplicit false

namespace Lane

/-- Goes on with a call, at most so many actions, until it is over or has to wait. -/
def pursue (who : ℕ) : ℕ → Progress × Lane → Progress × Lane
  | n + 1, (.going d, l) => pursue who n (l.advance who d)
  | _, other => other

variable {who : ℕ} {r : ℕ → Bool}

theorem pursue_done (n : ℕ) (result : Except LinkFault Unit) (l : Lane) :
    pursue who n (.done result, l) = (.done result, l) := by
  cases n <;> rfl

theorem pursue_blocked (n : ℕ) (d : Delivery) (l : Lane) :
    pursue who n (.blocked d, l) = (.blocked d, l) := by
  cases n <;> rfl

/-- An object that no other follows is put on the channel in one action. -/
theorem pursue_last (hrest : r who = false) (n : ℕ) (l : Loopback) (o : Received) :
    pursue who (n + 1) (.going ⟨o, false⟩, ⟨l, r⟩) =
      ((l.step who ⟨o, false⟩).1, ⟨(l.step who ⟨o, false⟩).2, r⟩) := by
  simp only [pursue, advance, Loopback.step, hrest, Bool.false_eq_true, if_false]
  cases l.channel.offer who o with
  | taken c => exact pursue_done n _ _
  | waiting c => exact pursue_blocked n _ _
  | refused => exact pursue_done n _ _

theorem run_last (l : Loopback) (o : Received) :
    Loopback.run who (.going ⟨o, false⟩, l) = l.step who ⟨o, false⟩ := by
  simp only [Loopback.run, Loopback.step]
  cases l.channel.offer who o <;> rfl

/-- The object that was held back is taken in one action and put on the channel in another. -/
theorem pursue_resting (hrest : r who = false) (n : ℕ) (l : Loopback) (d : Delivery) :
    pursue who (n + 1) (.going d, ⟨l, Function.update r who true⟩) =
      pursue who n (l.releaseHeld.1, ⟨l.releaseHeld.2, r⟩) := by
  have hback : Function.update (Function.update r who true) who false = r := by
    rw [Function.update_idem, ← hrest, Function.update_eq_self]
  simp only [pursue, advance, Function.update_self, if_true, hback]

theorem pursue_eq_run (hrest : r who = false) (progress : Progress) (l : Loopback) :
    pursue who 3 (progress, ⟨l, r⟩) =
      ((Loopback.run who (progress, l)).1, ⟨(Loopback.run who (progress, l)).2, r⟩) := by
  cases progress with
  | done result => rfl
  | blocked d => rfl
  | going d =>
    obtain ⟨o, follows⟩ := d
    cases follows with
    | false => rw [run_last, pursue_last hrest]
    | true =>
      rw [pursue, Loopback.run, Loopback.step]
      simp only [advance, hrest, Bool.false_eq_true, if_false]
      cases l.channel.offer who o with
      | refused => rfl
      | waiting c => rfl
      | taken c =>
        simp only [if_true, pursue_resting hrest, Loopback.releaseHeld]
        cases hheld : l.held with
        | none => rfl
        | some h => exact pursue_last hrest 0 _ h

end Lane

theorem Publisher.settle_forgetEvents {W : Type} (p : Publisher W) (t : Transmission)
    (succeeded : Bool) :
    p.forgetEvents.settle t succeeded = (p.settle t succeeded).forgetEvents ∧
      (p.settle t succeeded).events = p.events := by
  unfold settle
  split
  · exact ⟨rfl, rfl⟩
  · split
    · exact ⟨rfl, rfl⟩
    · split <;> exact ⟨rfl, rfl⟩
    · exact ⟨rfl, rfl⟩

theorem PublishWorker.note_note {W : Type} (w : PublishWorker W) (t : Transmission) (d : Delivery)
    (progress : Progress) :
    ((w.note t (.going d)).actOnPublisher .forgetEvents).note t progress =
        (w.note t progress).actOnPublisher .forgetEvents ∧
      (w.note t progress).publisher.events = w.publisher.events := by
  cases progress with
  | done result =>
    have hsettle := w.publisher.settle_forgetEvents t
    cases result with
    | ok _ =>
      exact ⟨congrArg (fun p => { w with call := none, publisher := p }) (hsettle true).1,
        (hsettle true).2⟩
    | error _ =>
      exact ⟨congrArg (fun p => { w with call := none, publisher := p }) (hsettle false).1,
        (hsettle false).2⟩
  | going e => exact ⟨rfl, rfl⟩
  | blocked e => exact ⟨rfl, rfl⟩

theorem PerMedia.set_set {α : Type} (p : PerMedia α) (m : Media) (a b : α) :
    (p.set m a).set m b = p.set m b := by
  cases m <;> rfl

namespace Weave

open SimulatedCodec

def ofSession (s : Session SimulatedCodec) : Weave := ⟨s, fun _ => false⟩

section Publishers

variable {m : Media} {w : PublishWorker SimulatedCodec} {t : Transmission}

theorem put_put (s : Weave) {w' : PublishWorker SimulatedCodec}
    (hevents : w'.publisher.events = w.publisher.events) (l l' : Lane) :
    (s.put m w l).put m (w'.actOnPublisher .forgetEvents) l' = s.put m w' l' := by
  unfold put Session.putPublisher
  simp only [PerMedia.set_set, hevents]
  have hnone : (w'.actOnPublisher .forgetEvents).publisher.events = [] := rfl
  rw [hnone, List.append_nil]
  rfl

/-- The next action of a call that goes on. -/
theorem step_put_going (s : Weave) (d : Delivery) (l : Lane) (now : ℕ) :
    (s.put m (w.note t (.going d)) l).step (.publish m now) =
      s.put m (w.note t (l.advance (Session.seat m) d).1) (l.advance (Session.seat m) d).2 := by
  have hpublisher : (s.put m (w.note t (.going d)) l).publisher m =
      (w.note t (.going d)).actOnPublisher .forgetEvents := PerMedia.get_set _ m _
  have hnote := w.note_note t d (l.advance (Session.seat m) d).1
  unfold step
  simp only [hpublisher]
  rw [← put_put s (w := w.note t (.going d)) hnote.2 l, ← hnote.1]
  rfl

/-- A call may be taken as far as it goes. -/
theorem exists_run_pursue (s : Weave) (now n : ℕ) (progress : Progress) (l : Lane) :
    ∃ moves, (s.put m (w.note t progress) l).run moves =
      s.put m (w.note t (Lane.pursue (Session.seat m) n (progress, l)).1)
        (Lane.pursue (Session.seat m) n (progress, l)).2 := by
  induction n generalizing progress l with
  | zero => exact ⟨[], rfl⟩
  | succ n ih =>
    cases progress with
    | going d =>
      obtain ⟨moves, h⟩ := ih (l.advance (Session.seat m) d).1 (l.advance (Session.seat m) d).2
      refine ⟨.publish m now :: moves, ?_⟩
      change ((s.put m (w.note t (.going d)) l).step (.publish m now)).run moves = _
      rw [step_put_going, h]
      rfl
    | done result => exact ⟨[], rfl⟩
    | blocked d => exact ⟨[], rfl⟩

end Publishers

/-- A session goes on by single actions. -/
def Reaches (s t : Session SimulatedCodec) : Prop :=
  ∃ moves, ofSession t = (ofSession s).run moves

variable {s t u : Session SimulatedCodec}

theorem Reaches.refl (s : Session SimulatedCodec) : Reaches s s := ⟨[], rfl⟩

theorem Reaches.trans (h : Reaches s t) (h' : Reaches t u) : Reaches s u := by
  obtain ⟨moves, h⟩ := h
  obtain ⟨moves', h'⟩ := h'
  refine ⟨moves ++ moves', ?_⟩
  rw [h', h, run, run, run, List.foldl_append]

theorem reaches_publish (s : Session SimulatedCodec) (m : Media) (now : ℕ) :
    Reaches s (s.step encoders decoders now (.publish m)).1 := by
  have hrun : ∀ progress l, Lane.pursue (Session.seat m) 3 (progress, ⟨l, fun _ => false⟩) =
      ((Loopback.run (Session.seat m) (progress, l)).1,
        ⟨(Loopback.run (Session.seat m) (progress, l)).2, fun _ => false⟩) :=
    fun progress l => Lane.pursue_eq_run rfl progress l
  have hput : ∀ moves, (ofSession s).run moves = (ofSession s).put m
      ((s.publishers.get m).step (encoders m) Loopback.carrier (Session.seat m) now s.link).1.1
      ⟨((s.publishers.get m).step (encoders m) Loopback.carrier (Session.seat m) now s.link).1.2,
        fun _ => false⟩ →
      Reaches s (s.step encoders decoders now (.publish m)).1 := fun moves h => ⟨moves, h.symm⟩
  have hstep : (ofSession s).step (.publish m now) = (ofSession s).put m
      ((s.publishers.get m).step (encoders m) Lane.carrier (Session.seat m) now
        ⟨s.link, fun _ => false⟩).1.1
      ((s.publishers.get m).step (encoders m) Lane.carrier (Session.seat m) now
        ⟨s.link, fun _ => false⟩).1.2 := rfl
  -- A call at hand takes up to four actions; anything else that a worker does is one action.
  generalize s.publishers.get m = w at hput hstep
  unfold PublishWorker.step at hput hstep
  cases hcall : w.call with
  | some going =>
    obtain ⟨t, d⟩ := going
    simp only [hcall] at hput hstep
    obtain ⟨moves, h⟩ := exists_run_pursue (m := m) (w := w) (t := t) (ofSession s) now 2
      (Lane.advance ⟨s.link, fun _ => false⟩ (Session.seat m) d).1
      (Lane.advance ⟨s.link, fun _ => false⟩ (Session.seat m) d).2
    refine hput (.publish m now :: moves) ?_
    change ((ofSession s).step (.publish m now)).run moves = _
    have hpursue := hrun (.going d) s.link
    rw [Lane.pursue] at hpursue
    rw [hstep]
    refine h.trans ?_
    rw [hpursue]
    rfl
  | none =>
    cases hcalls : w.calls with
    | cons t rest =>
      simp only [hcall, hcalls] at hput hstep
      obtain ⟨moves, h⟩ := exists_run_pursue (m := m) (w := { w with calls := rest }) (t := t)
        (ofSession s) now 3 (s.link.start t).1 ⟨(s.link.start t).2, fun _ => false⟩
      refine hput (.publish m now :: moves) ?_
      change ((ofSession s).step (.publish m now)).run moves = _
      rw [hstep]
      refine h.trans ?_
      rw [hrun (s.link.start t).1]
      rfl
    | nil =>
      simp only [hcall, hcalls] at hput hstep
      refine hput [.publish m now] (hstep.trans ?_)
      cases w.phase with
      | serving => rfl
      | draining next => cases w.publisher.outputs <;> rfl
      | closing next => rfl
      | ended how => rfl

/-- A task that can go on does so by single actions. -/
theorem reaches_step {now : ℕ} {task : SessionTask} (hcan : s.canStep now task = true) :
    Reaches s (s.step encoders decoders now task).1 := by
  cases task with
  | publish m => exact reaches_publish s m now
  | play m => exact ⟨[.play m now], rfl⟩
  | route =>
    have hgoes : s.router.ended = false := by
      unfold Session.canStep Session.canStepRouter at hcan
      rw [Bool.and_eq_true, Bool.not_eq_true'] at hcan
      exact hcan.1
    refine ⟨[.route], ?_⟩
    change _ = if s.router.ended then ofSession s else (ofSession s).act Session.stepRouter
    rw [hgoes]
    rfl

section Schedules

abbrev tasks : TaskSystem SessionTask (Session SimulatedCodec) := Session.tasks encoders decoders

variable {x y : LiveSession SimulatedCodec}

theorem reaches_stepCurrent (x : LiveSession SimulatedCodec) (task : SessionTask) :
    Reaches x.state (x.stepCurrent tasks task).state := by
  unfold Schedule.stepCurrent
  split
  · rename_i hcan
    have hstep : Reaches x.state (tasks.step x.now task x.state).1 := reaches_step hcan
    split
    · rename_i heq
      rw [heq] at hstep
      exact hstep
    · rename_i heq
      rw [heq] at hstep
      exact hstep
  · exact .refl _

/-- Apart from the steps of the tasks, a schedule only keeps its own books. -/
theorem reaches_next {limit : Option ℕ} (h : x.next? tasks limit = some y) :
    Reaches x.state y.state := by
  unfold Schedule.next? at h
  split at h
  · cases h
    exact reaches_stepCurrent x _
  · cases h
    exact .refl _
  · split at h
    · cases h
      exact .refl _
    · unfold Schedule.jump? at h
      obtain ⟨tick, _, rfl⟩ := Option.map_eq_some_iff.mp h
      exact .refl _

theorem reaches_run (limit : Option ℕ) (done : LiveSession SimulatedCodec → Bool) (fuel : ℕ) :
    Reaches x.state (x.run tasks limit done fuel).state := by
  induction fuel generalizing x with
  | zero => exact .refl _
  | succ fuel ih =>
    unfold Schedule.run
    split
    · exact .refl _
    · split
      · exact .refl _
      · rename_i hnext
        exact (reaches_next hnext).trans ih

theorem reaches_waitFor (x : LiveSession SimulatedCodec) (done : Session SimulatedCodec → Bool) :
    Reaches x.state (x.waitFor tasks done).state := by
  unfold Schedule.waitFor
  split
  · exact .refl _
  · exact reaches_run none _ _

/-- The owner gives a publisher a new stream. -/
theorem reaches_attach (x : LiveSession SimulatedCodec) (m : Media)
    (source : Source SimulatedCodec) :
    Reaches x.state (LiveSession.attach tasks m source x).2.state :=
  (reaches_waitFor x _).trans ⟨[.attach m source], rfl⟩

/-- The owner acts, and then waits for a condition. -/
def after (f : Session SimulatedCodec → Session SimulatedCodec)
    (done : Session SimulatedCodec → Bool) (x : LiveSession SimulatedCodec) :
    LiveSession SimulatedCodec := (x.modify tasks f).waitFor tasks done

theorem awaits_after {f : Session SimulatedCodec → Session SimulatedCodec}
    {done : Session SimulatedCodec → Bool} (h : done (after f done x).state = true) :
    ((ofSession x.state).act f).Awaits (ofSession (after f done x).state) done :=
  ⟨reaches_waitFor (x.modify tasks f) done, h⟩

/-- Each wait of an owner who lets the session finish comes to its end. -/
structure FinishWaits (x x₁ x₂ x₃ x₄ x₅ : LiveSession SimulatedCodec) : Prop where
  video : x₁ = after (Session.updatePublisher .video PublishWorker.dismiss)
    (fun s => (s.publishers.get .video).isEnded) x
  video_over : x₁.state.publishers.video.isEnded = true
  audio : x₂ = after (Session.updatePublisher .audio PublishWorker.dismiss)
    (fun s => (s.publishers.get .audio).isEnded) x₁
  audio_over : x₂.state.publishers.audio.isEnded = true
  router : x₃ = after Session.tellRouter (fun s => s.router.ended) x₂
  router_over : x₃.state.router.ended = true
  video_played : x₄ = after (Session.updatePlayer .video PlayWorker.dismiss)
    (fun s => (s.players.get .video).isEnded) x₃
  video_played_over : x₄.state.players.video.isEnded = true
  audio_played : x₅ = after (Session.updatePlayer .audio PlayWorker.dismiss)
    (fun s => (s.players.get .audio).isEnded) x₄
  audio_played_over : x₅.state.players.audio.isEnded = true

/-- An ending that gives something has first been given something by its beginning. -/
theorem ok_of_bind {α β : Type} {c : LiveSession.Ending SimulatedCodec α}
    {k : α → LiveSession.Ending SimulatedCodec β} {r : Except Failure α} {b : β}
    (h : ((c >>= k).run.run x).1 = .ok b) (hc : c.run.run x = (r, y)) :
    ∃ a, r = .ok a ∧ ((k a).run.run y).1 = .ok b := by
  change (Prod.fst (ExceptT.bindCont k (c.run.run x).1 (c.run.run x).2)) = .ok b at h
  rw [hc] at h
  cases r with
  | error e => cases h
  | ok a => exact ⟨a, rfl, h⟩

theorem run_dismissPublisher (m : Media) (h : y =
    after (Session.updatePublisher m PublishWorker.dismiss)
      (fun s => (s.publishers.get m).isEnded) x) :
    (LiveSession.dismissPublisher tasks m).run.run x = ((y.state.publishers.get m).result, y) :=
  h ▸ rfl

theorem run_dismissPlayer (m : Media) (h : y =
    after (Session.updatePlayer m PlayWorker.dismiss) (fun s => (s.players.get m).isEnded) x) :
    (LiveSession.dismissPlayer tasks m).run.run x = ((y.state.players.get m).result, y) :=
  h ▸ rfl

theorem run_joinRouter (h : y = after Session.tellRouter (fun s => s.router.ended) x) :
    (LiveSession.joinRouter tasks).run.run (x.modify tasks Session.tellRouter) =
      (.ok y.state.router, y) :=
  h ▸ rfl

theorem finishes_of_schedule {x₁ x₂ x₃ x₄ x₅ : LiveSession SimulatedCodec} {stats : SessionStats}
    (hwaits : FinishWaits x x₁ x₂ x₃ x₄ x₅)
    (hfinish : ((LiveSession.finish tasks).run.run x).1 = .ok stats) :
    (ofSession x.state).Finishes stats := by
  obtain ⟨h₁, o₁, h₂, o₂, h₃, o₃, h₄, o₄, h₅, o₅⟩ := hwaits
  obtain ⟨video, hvideo, hfinish⟩ := ok_of_bind hfinish (run_dismissPublisher .video h₁)
  obtain ⟨audio, haudio, hfinish⟩ := ok_of_bind hfinish (run_dismissPublisher .audio h₂)
  obtain ⟨_, _, hfinish⟩ := ok_of_bind hfinish rfl
  obtain ⟨router, hrouter, hfinish⟩ := ok_of_bind hfinish (run_joinRouter h₃)
  obtain ⟨videoPlayed, hvideoPlayed, hfinish⟩ := ok_of_bind hfinish (run_dismissPlayer .video h₄)
  obtain ⟨audioPlayed, haudioPlayed, hfinish⟩ := ok_of_bind hfinish (run_dismissPlayer .audio h₅)
  cases hrouter
  cases hfinish
  subst h₁ h₂ h₃ h₄ h₅
  exact .intro _ _ _ _ _ (awaits_after o₁) hvideo (awaits_after o₂) haudio (awaits_after o₃)
    (awaits_after o₄) hvideoPlayed (awaits_after o₅) haudioPlayed

/-- Whatever the owner of a scheduled session does before, when it has let the session finish, each
player has received exactly the objects that its publisher sent. -/
theorem conserves_of_schedule {settings : Settings} {encoders decoders : PerMedia SimulatedCodec}
    {capacity : ℕ} {p : Float} {chance : ℕ → Bool} {now : ℕ}
    {x₁ x₂ x₃ x₄ x₅ : LiveSession SimulatedCodec} {stats : SessionStats}
    (hstart : LiveSession.start settings encoders decoders (.make capacity p chance) none now =
      .ok x)
    (hreach : Reaches x.state y.state) (hwaits : FinishWaits y x₁ x₂ x₃ x₄ x₅)
    (hfinish : ((LiveSession.finish tasks).run.run y).1 = .ok stats) : stats.Conserved := by
  unfold LiveSession.start at hstart
  cases hvalid : settings.validate with
  | error e =>
    rw [hvalid] at hstart
    cases hstart
  | ok _ =>
    rw [hvalid] at hstart
    cases hstart
    obtain ⟨moves, hmoves⟩ := hreach
    have hfinishes := finishes_of_schedule hwaits hfinish
    rw [hmoves] at hfinishes
    have hsound := (sound_start hvalid encoders decoders capacity p chance now).run moves
    exact hsound.sound.finishes hfinishes

end Schedules

end Weave

end LiveMedia

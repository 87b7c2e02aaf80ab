import LiveMedia.Proofs.Publisher.Encoding
import LiveMedia.Proofs.Publisher.Engagement

/-!
# Publishing with and without a worker

A worker that is given one command after the other sends, reports and counts what its publisher does
when the same commands are carried out directly: however its steps and the commands follow each
other, every run comes to an end, and it is the same end.
-/

namespace LiveMedia
set_option autoImplicit false

variable {W S : Type}

namespace Broadcast

/-- What the owner of a worker is told that came to this end. -/
def report : StreamEnd × Broadcast W S → Except Failure PublishStats
  | (.ended, b) => .ok b.publisher.stats
  | (_, b) => .error (.workerGone b.publisher.media)

theorem report_of_ended {result : StreamEnd × Broadcast W S} (h : result.1 = .ended) :
    report result = .ok result.2.publisher.stats := by
  obtain ⟨how, b⟩ := result
  cases h
  rfl

end Broadcast

namespace Engagement

variable {enc : EncoderFamily W} {link : Link S} {x : Engagement W S}

theorem go_eq {w : PublishWorker W} {s : S} {moved : Option ℕ}
    (h : x.worker.step enc link.carrier 0 x.now x.link = ((w, s), moved)) :
    x.go enc link = ⟨w, s, x.now + moved.getD 0, x.orders⟩ := by
  unfold go
  rw [h]

theorem go_called (hcall : x.worker.call = none) {t : Transmission} {rest : List Transmission}
    (hcalls : x.worker.calls = t :: rest) :
    x.go enc link = { x with
      worker := { x.worker with
        calls := rest, call := none, publisher := (x.broadcast.send link t).publisher }
      link := (x.broadcast.send link t).link } := by
  rcases hsent : link.send t x.link with ⟨result, s⟩
  have hcarried : link.carrier.send 0 t x.link = (.done result, s) :=
    congrArg (fun answer => (Progress.done answer.1, answer.2)) hsent
  have hstep : x.worker.step enc link.carrier 0 x.now x.link =
      (({ x.worker with
        calls := rest, call := none, publisher := (x.broadcast.send link t).publisher },
        (x.broadcast.send link t).link), none) := by
    unfold PublishWorker.step Broadcast.send broadcast
    rw [hcall, hcalls]
    simp only [hcarried, hsent]
    cases result <;> rfl
  exact go_eq hstep

theorem hear_nil {w : PublishWorker W} (now : ℕ) (h : w.mailbox.channel.queue = []) :
    w.hear enc now = if w.source.isSome then { w with listening := false }
      else { w with listening := false }.finish .stopped := by
  unfold PublishWorker.hear Mailbox.take? Channel.take?
  rw [h]
  rfl

theorem hear_cons {w : PublishWorker W} (now : ℕ) {command : PublishCommand W}
    {rest : List (PublishCommand W)} (h : w.mailbox.channel.queue = command :: rest) :
    w.hear enc now = (withQueue w rest).follow enc now command := by
  unfold PublishWorker.hear Mailbox.take? Channel.take?
  rw [h]
  rfl

theorem advances_hear (henc : enc.Silent) (h : x.InOrder) (hphase : x.worker.phase = .serving)
    (hhears : (x.worker.listening && x.worker.mailbox.hasNews) = true) :
    Advances enc link x (x.update (x.worker.hear enc x.now)) := by
  obtain ⟨hlistening, hnews⟩ := Bool.and_eq_true_iff.mp hhears
  cases hqueue : x.worker.mailbox.channel.queue with
  | nil =>
    have hleft : x.worker.mailbox.senders = 0 := by
      unfold Mailbox.hasNews at hnews
      rw [hqueue] at hnews
      exact eq_of_beq ((Bool.or_false _).symm.trans hnews)
    rw [hear_nil x.now hqueue]
    by_cases hsome : x.worker.source.isSome = true
    · obtain ⟨src, hsource⟩ := Option.isSome_iff_exists.mp hsome
      rw [if_pos hsome]
      exact advances_told h hphase hsource hlistening hleft
    · rw [if_neg hsome]
      exact advances_dismissed h hphase (Option.not_isSome_iff_eq_none.mp hsome) hqueue hleft
  | cons command rest =>
    rw [hear_cons x.now hqueue]
    cases hsource : x.worker.source with
    | none =>
      cases command with
      | configure c => exact advances_configured henc h hphase hsource hqueue
      | attach src => exact advances_attached h hphase hsource hqueue
    | some src => exact absurd ((h.busy hphase hsource).2.symm.trans hqueue) nofun

theorem canAsk_of_canGo (h : x.InOrder) (hcalls : x.worker.calls = [])
    (hphase : x.worker.phase = .serving) (houtputs : x.worker.publisher.outputs = [])
    (hdeaf : ¬ (x.worker.listening && x.worker.mailbox.hasNews) = true)
    (hcan : x.canGo link = true) : x.worker.canAsk x.now = true := by
  unfold canGo PublishWorker.canStep at hcan
  rw [hphase, h.call, hcalls, h.receiving, h.cancelled, houtputs,
    Bool.eq_false_iff.mpr hdeaf] at hcan
  exact hcan

/-- A worker that serves hears of its owner first, then it sends, and only then it asks. -/
theorem advances_serve (henc : enc.Silent) (h : x.InOrder) (hcalls : x.worker.calls = [])
    (hphase : x.worker.phase = .serving) (hcan : x.canGo link = true) :
    Advances enc link x ⟨(x.worker.serve enc x.now).1, x.link,
      x.now + (x.worker.serve enc x.now).2.getD 0, x.orders⟩ := by
  have hstays : ¬ (!x.worker.publisher.receiving || x.worker.cancelled) = true := by
    rw [h.receiving, h.cancelled]
    exact Bool.false_ne_true
  unfold PublishWorker.serve
  rw [if_neg hstays]
  by_cases hhears : (x.worker.listening && x.worker.mailbox.hasNews) = true
  · rw [if_pos hhears]
    exact advances_hear henc h hphase hhears
  · rw [if_neg hhears]
    split
    · rename_i c rest houtputs
      cases hsource : x.worker.source with
      | none => exact absurd ((h.idle hphase hsource).2.1.outputs.symm.trans houtputs) nofun
      | some src =>
        exact advances_handled h hcalls (.inl ⟨hphase, by rw [hsource]; rfl⟩) houtputs
    · rename_i src houtputs hsource
      have hasks := canAsk_of_canGo h hcalls hphase houtputs hhears hcan
      rw [if_pos hasks]
      exact advances_asked h hphase hsource hcalls houtputs hasks
    · rename_i houtputs hsource
      have hasks := canAsk_of_canGo h hcalls hphase houtputs hhears hcan
      unfold PublishWorker.canAsk at hasks
      rw [hsource] at hasks
      exact absurd hasks nofun

theorem advances_go (henc : enc.Silent) (h : x.InOrder) (hcan : x.canGo link = true) :
    Advances enc link x (x.go enc link) := by
  cases hcalls : x.worker.calls with
  | cons t rest => rw [go_called h.call hcalls]; exact advances_called h hcalls
  | nil =>
    have hstep := PublishWorker.step_of_no_call h.call hcalls enc link.carrier 0 x.now x.link
    cases hphase : x.worker.phase with
    | serving =>
      rw [hphase] at hstep
      rw [go_eq hstep]
      exact advances_serve henc h hcalls hphase hcan
    | draining next =>
      rw [hphase] at hstep
      cases houtputs : x.worker.publisher.outputs with
      | nil =>
        rw [houtputs] at hstep
        rw [go_eq hstep]
        exact advances_drained h hcalls hphase houtputs
      | cons c rest =>
        rw [houtputs] at hstep
        rw [go_eq hstep]
        exact advances_handled h hcalls (.inr ⟨next, hphase⟩) houtputs
    | closing next =>
      rw [hphase] at hstep
      rw [go_eq hstep]
      exact advances_concluded h hcalls hphase
    | ended how =>
      unfold canGo PublishWorker.canStep at hcan
      rw [hphase] at hcan
      exact absurd hcan nofun

theorem quiet_mailbox {m : Mailbox (PublishCommand W)} (h : m.hasNews = false) :
    m.senders ≠ 0 ∧ m.channel.queue = [] := by
  obtain ⟨hsenders, hempty⟩ := Bool.or_eq_false_iff.mp h
  exact ⟨ne_of_beq_false hsenders, by simpa using hempty⟩

/-- What holds a worker back that serves and cannot go on. -/
theorem held_of_cannot (h : x.InOrder) (hgoes : x.worker.isEnded = false)
    (hcan : x.canGo link = false) :
    x.worker.phase = .serving ∧ x.worker.calls = [] ∧ x.worker.publisher.outputs = [] ∧
      (x.worker.listening && x.worker.mailbox.hasNews) = false ∧
      x.worker.canAsk x.now = false := by
  unfold canGo PublishWorker.canStep at hcan
  rw [h.call] at hcan
  cases hphase : x.worker.phase with
  | serving =>
    rw [hphase] at hcan
    simp only [Bool.or_eq_false_iff, Bool.not_eq_false', List.isEmpty_iff] at hcan
    obtain ⟨⟨⟨⟨⟨hcalls, -⟩, -⟩, hnews⟩, houtputs⟩, hasks⟩ := hcan
    exact ⟨rfl, hcalls, houtputs, hnews, hasks⟩
  | draining next =>
    rw [hphase] at hcan
    exact absurd hcan nofun
  | closing next =>
    rw [hphase] at hcan
    exact absurd hcan nofun
  | ended how =>
    unfold PublishWorker.isEnded at hgoes
    rw [hphase] at hgoes
    exact absurd hgoes nofun

theorem passed_le_tick {now deadline : ℕ} (h : Timer.due now deadline = false) :
    Timer.passed now ≤ Timer.tick deadline := by
  unfold Timer.due at h
  exact Nat.le_of_lt (Nat.lt_of_not_le (of_decide_eq_false h))

/-- A wait that is not given up ends at the moment that the worker waits for. -/
theorem await_kept {b : Broadcast W S} {limit deadline : ℕ}
    (hdue : Timer.due b.now deadline = false)
    (go : Broadcast W S → StreamEnd × Broadcast W S)
    (hkept : (Broadcast.resume go (b.await limit deadline)).1 ≠ .abandoned) :
    b.await limit deadline = (some { b with now := Timer.wake b.now (Timer.tick deadline) },
      { b with now := Timer.wake b.now (Timer.tick deadline) }) := by
  by_cases hlate : limit ≤ Timer.passed b.now ∨ limit < Timer.tick deadline
  · rw [Broadcast.await_of_not_due limit hdue] at hkept
    unfold Broadcast.waitFor at hkept
    rw [if_pos hlate] at hkept
    exact absurd rfl hkept
  · obtain ⟨hpassed, htick⟩ := not_or.mp hlate
    exact Broadcast.await_within limit hdue (Nat.le_of_not_lt htick) (Nat.lt_of_not_le hpassed)

theorem windUp_kept {limit : ℕ} {orders : List (ℕ × PublishCommand W)}
    {result : StreamEnd × Broadcast W S}
    (h : (Broadcast.windUp enc link limit orders result).1 ≠ .abandoned) :
    result.1 ≠ .abandoned := by
  obtain ⟨_ | _ | _, b⟩ := result
  · exact nofun
  · exact absurd rfl h
  · exact nofun

/-- Where the wait of the worker is over, its source goes on. -/
theorem prospects_due {now : ℕ} (hphase : x.worker.phase = .serving) {src : Source W}
    (hsource : x.worker.source = some src) (hcalls : x.worker.calls = [])
    (houtputs : x.worker.publisher.outputs = []) {deadline : ℕ}
    (hwait : x.worker.sourceWait = .untilDeadline deadline)
    (hdue : Timer.due now deadline = true) (limit : ℕ) :
    ({ x with now := now } : Engagement W S).prospects enc link limit =
      Broadcast.windUp enc link limit x.commands
        (Broadcast.runSource enc link limit src { x.broadcast with now := now }) := by
  have hdrain : (Broadcast.sendAll link { x.broadcast with now := now } []).drain link =
      { x.broadcast with now := now } := Broadcast.drain_of_nil houtputs
  refine (prospects_busy (x := { x with now := now }) hphase hsource limit).trans ?_
  change Broadcast.windUp enc link limit x.commands (Broadcast.carryOn enc link limit
    x.worker.sourceWait src (Broadcast.drain link
      (Broadcast.sendAll link { x.broadcast with now := now } x.worker.calls))) = _
  rw [hcalls, hdrain, hwait, Broadcast.carryOn, Broadcast.await, if_pos hdue, Broadcast.resume]

/-- Only the clock moves, and the moment that the worker waits for comes. -/
theorem nearer_of_come {now : ℕ} (hbefore : x.worker.isWaiting x.now = true)
    (hafter : x.worker.isWaiting now = false) :
    ({ x with now := now } : Engagement W S).rank < x.rank := by
  refine nearer_of_chores rfl rfl rfl ?_
  unfold chores
  rw [hbefore]
  simp only [hafter]
  exact Nat.lt_succ_self _

theorem advances_wake (h : x.InOrder) (hcan : x.canGo link = false) {deadline : ℕ}
    (hwaits : x.worker.deadline? = some deadline) :
    Advances enc link x { x with now := Timer.wake x.now (Timer.tick deadline) } := by
  obtain ⟨src, hsource, hwait⟩ :
      ∃ src, x.worker.source = some src ∧ x.worker.sourceWait = .untilDeadline deadline := by
    unfold PublishWorker.deadline? at hwaits
    split at hwaits
    · rename_i src _ hsource hwait
      exact ⟨src, hsource, hwait.trans (congrArg _ (Option.some.inj hwaits))⟩
    · exact absurd hwaits nofun
  have hgoes : x.worker.isEnded = false := Bool.eq_false_iff.mpr fun hended =>
    absurd (hsource.symm.trans (h.phase.of_ended hended).1) nofun
  obtain ⟨hphase, hcalls, houtputs, -, hasks⟩ := held_of_cannot h hgoes hcan
  have hdue : Timer.due x.now deadline = false := by
    unfold PublishWorker.canAsk at hasks
    rw [hsource, hwait, Option.isSome_some, Bool.true_and] at hasks
    exact hasks
  have hafter : Timer.due (Timer.wake x.now (Timer.tick deadline)) deadline = true :=
    Timer.due_wake (passed_le_tick hdue)
  refine ⟨h.of_worker hgoes rfl rfl rfl h.phase h.call h.receiving h.cancelled h.wait h.whole,
    fun limit hkept => ?_, nearer_of_come ?_ ?_⟩
  · have hdrain : (x.broadcast.sendAll link []).drain link = x.broadcast :=
      Broadcast.drain_of_nil houtputs
    have hbefore : x.prospects enc link limit =
        Broadcast.windUp enc link limit x.commands (Broadcast.resume
          (Broadcast.runSource enc link limit src) (x.broadcast.await limit deadline)) := by
      rw [prospects_busy hphase hsource, hcalls, hdrain, hwait, Broadcast.carryOn]
    rw [hbefore] at hkept ⊢
    rw [await_kept hdue _ (windUp_kept hkept), Broadcast.resume]
    exact prospects_due hphase hsource hcalls houtputs hwait hafter limit
  · unfold PublishWorker.isWaiting
    rw [hwait]
    simp only [hdue, Bool.not_false]
  · unfold PublishWorker.isWaiting
    rw [hwait]
    simp only [hafter, Bool.not_true]

theorem post_of_room {w : PublishWorker W}
    (hroom : w.mailbox.channel =
      { (Channel.empty Mailbox.defaultCapacity : Channel (PublishCommand W)) with
        queue := w.mailbox.channel.queue })
    (haccepts : w.mailbox.accepts = true) (c : PublishCommand W) :
    (w.post c).2 = withQueue w (w.mailbox.channel.queue ++ [c]) := by
  obtain ⟨publisher, ⟨⟨capacity, queue, line, isOpen⟩, senders⟩⟩ := w
  simp only [Channel.empty, Channel.mk.injEq, true_and] at hroom
  obtain ⟨rfl, rfl, rfl⟩ := hroom
  have hplace : Channel.ahead ⟨Mailbox.defaultCapacity, queue, [], true⟩ Mailbox.ownerSeat <
      Channel.free ⟨Mailbox.defaultCapacity, queue, [], true⟩ := of_decide_eq_true haccepts
  unfold PublishWorker.post Mailbox.post Channel.offer
  simp only
  rw [if_neg (by decide), if_pos hplace]
  rfl

/-- A command that is given late is carried out late. -/
theorem obey_late (limit lag : ℕ) (c : PublishCommand W) (rest : List (ℕ × PublishCommand W))
    (b : Broadcast W S) :
    Broadcast.obey enc link limit ((0, c) :: rest) { b with now := b.now + lag } =
      Broadcast.obey enc link limit ((lag, c) :: rest) b := by
  cases c <;> rfl

/-- A command that is given is the next one. -/
theorem prospects_given (hphase : x.worker.phase = .serving) (hsource : x.worker.source = none)
    (hcalls : x.worker.calls = []) {lag : ℕ} {c : PublishCommand W}
    {rest : List (ℕ × PublishCommand W)} (hnext : x.orders = (lag, c) :: rest)
    (htime : lag = 0 ∨ x.worker.mailbox.channel.queue = []) (limit : ℕ) :
    prospects enc link limit ⟨withQueue x.worker (x.worker.mailbox.channel.queue ++ [c]), x.link,
      x.now + lag, rest⟩ = x.prospects enc link limit := by
  rw [prospects_idle hphase hsource hcalls]
  refine (prospects_idle (x := ⟨withQueue x.worker (x.worker.mailbox.channel.queue ++ [c]),
    x.link, x.now + lag, rest⟩) hphase hsource hcalls limit).trans ?_
  rcases htime with rfl | hqueue
  · have hcommands : x.commands =
        (x.worker.mailbox.channel.queue ++ [c]).map (0, ·) ++ rest := by
      rw [commands, hnext, List.map_append, List.append_assoc]
      rfl
    rw [hcommands]
    rfl
  · rw [commands_of_queue hqueue, hnext]
    refine Eq.trans ?_ (obey_late limit lag c rest x.broadcast)
    rw [hqueue]
    rfl

theorem advances_order (h : x.InOrder) {lag : ℕ} {c : PublishCommand W}
    {rest : List (ℕ × PublishCommand W)} (hnext : x.orders = (lag, c) :: rest)
    (hfree : x.worker.isFree = true) (haccepts : x.worker.mailbox.accepts = true)
    (htime : lag = 0 ∨ x.canGo link = false) :
    Advances enc link x ⟨(x.worker.post c).2, x.link, x.now + lag, rest⟩ := by
  unfold PublishWorker.isFree at hfree
  split at hfree
  · rename_i hphase hsource hcalls
    obtain ⟨-, hrest, hlistening⟩ := h.idle hphase hsource
    have hgoes := PublishWorker.goes_of_phase hphase nofun
    have horders : ∀ order ∈ (lag, c) :: rest, order.2.Plain := hnext ▸ h.orders
    rw [post_of_room (h.room hgoes) haccepts]
    refine ⟨{
      phase := ?_
      call := h.call
      receiving := h.receiving
      cancelled := h.cancelled
      wait := h.wait
      whole := h.whole
      lined := h.lined.concat (fun c hc => ?_) (horders _ List.mem_cons_self)
      room := fun _ => ?_
      left := fun hleft => absurd (hnext.symm.trans (h.left hleft)) nofun
      deaf := fun hdeaf => absurd (hlistening.symm.trans hdeaf) nofun
      orders := fun order horder => horders order (List.mem_cons_of_mem _ horder) },
      fun limit _ => ?_, ?_⟩
    · unfold PublishWorker.Obeying withQueue
      simp only [hphase, hsource]
      exact ⟨hcalls, hrest.outputs, hlistening⟩
    · exact Bool.not_eq_true' _ ▸ List.all_eq_true.mp hfree c hc
    · exact congrArg (fun channel : Channel _ =>
        { channel with queue := x.worker.mailbox.channel.queue ++ [c] }) (h.room hgoes)
    · refine prospects_given hphase hsource hcalls hnext (htime.imp_right fun hcan => ?_) limit
      obtain ⟨-, -, -, hquiet, -⟩ := held_of_cannot h hgoes hcan
      rw [hlistening, Bool.true_and] at hquiet
      exact (quiet_mailbox hquiet).2
    · refine nearer_of_duties ?_
      unfold duties
      rw [hnext]
      change 2 * rest.length + (x.worker.mailbox.channel.queue ++ [c]).length +
        x.worker.mailbox.senders + x.worker.listening.toNat + (!x.worker.isEnded).toNat < _
      simp only [List.length_append, List.length_cons, List.length_nil]
      omega
  · exact absurd hfree Bool.false_ne_true

theorem advances_dismiss (h : x.InOrder) (hall : x.orders = [])
    (hbefore : x.worker.mailbox.senders ≠ 0) :
    Advances enc link x (x.update x.worker.dismiss) where
  inOrder := {
    phase := h.phase
    call := h.call
    receiving := h.receiving
    cancelled := h.cancelled
    wait := h.wait
    whole := h.whole
    lined := h.lined
    room := h.room
    left := fun _ => hall
    deaf := fun hdeaf => absurd (h.deaf hdeaf).1 hbefore
    orders := h.orders }
  prospects := fun limit _ => prospects_congr rfl rfl rfl rfl rfl limit
  nearer := by
    refine nearer_of_duties ?_
    unfold duties
    change 2 * x.orders.length + x.worker.mailbox.channel.queue.length +
      (x.worker.mailbox.senders - 1) + x.worker.listening.toNat + (!x.worker.isEnded).toNat < _
    omega

theorem advances_step (henc : enc.Silent) (h : x.InOrder) {y : Engagement W S}
    (hstep : Step enc link x y) : Advances enc link x y := by
  cases hstep with
  | go able => exact advances_go henc h able
  | wake unable waits => exact advances_wake h unable waits
  | order next free accepts time => exact advances_order h next free accepts time
  | dismiss all before => exact advances_dismiss h all before

theorem advances_run (henc : enc.Silent) (h : x.InOrder) {y : Engagement W S}
    (hrun : Relation.ReflTransGen (Step enc link) x y) :
    y.InOrder ∧ ∀ limit, (x.prospects enc link limit).1 ≠ .abandoned →
      y.prospects enc link limit = x.prospects enc link limit := by
  induction hrun with
  | refl => exact ⟨h, fun _ _ => rfl⟩
  | tail _ hstep ih =>
    obtain ⟨hmid, hsame⟩ := ih
    have hadvances := advances_step henc hmid hstep
    refine ⟨hadvances.inOrder, fun limit hkept => ?_⟩
    have hmidway := hsame limit hkept
    exact (hadvances.prospects limit (hmidway ▸ hkept)).trans hmidway

/-- No run goes on for ever. -/
theorem acc_of_inOrder (henc : enc.Silent) (h : x.InOrder) :
    Acc (fun y x => Step enc link x y) x := by
  induction hrank : x.rank using WellFoundedLT.induction generalizing x with
  | ind r ih =>
    subst hrank
    refine ⟨_, fun y hstep => ?_⟩
    have hadvances := advances_step henc h hstep
    exact ih _ hadvances.nearer hadvances.inOrder rfl

/-- As long as the worker has not ended, there is something to be done. -/
theorem step_of_goes (h : x.InOrder) (hgoes : x.worker.isEnded = false) :
    ∃ y, Step enc link x y := by
  cases hcan : x.canGo link with
  | true => exact ⟨_, .go hcan⟩
  | false =>
    obtain ⟨hphase, hcalls, houtputs, hquiet, hasks⟩ := held_of_cannot h hgoes hcan
    cases hsource : x.worker.source with
    | some src =>
      -- It waits, and not for ever.
      unfold PublishWorker.canAsk at hasks
      rw [hsource, Option.isSome_some, Bool.true_and] at hasks
      rcases hwait : x.worker.sourceWait with _ | deadline | _
      · rw [hwait] at hasks
        exact absurd hasks nofun
      · have hwaits : x.worker.deadline? = some deadline := by
          unfold PublishWorker.deadline?
          rw [hsource, hwait]
        exact ⟨_, .wake hcan hwaits⟩
      · exact absurd hwait h.wait
    | none =>
      obtain ⟨-, -, hlistening⟩ := h.idle hphase hsource
      rw [hlistening, Bool.true_and] at hquiet
      obtain ⟨hsenders, hqueue⟩ := quiet_mailbox hquiet
      cases horders : x.orders with
      | nil => exact ⟨_, .dismiss horders hsenders⟩
      | cons order rest =>
        obtain ⟨lag, c⟩ := order
        have hfree : x.worker.isFree = true := by
          unfold PublishWorker.isFree
          rw [hphase, hsource, hcalls, hqueue]
          rfl
        have haccepts : x.worker.mailbox.accepts = true := by
          unfold Mailbox.accepts
          rw [h.room hgoes, hqueue]
          rfl
        exact ⟨_, .order horders hfree haccepts (.inr hcan)⟩

/-- How a worker has ended is how it ends without a worker. -/
theorem prospects_ended (h : x.InOrder) (hended : x.worker.isEnded = true) {limit : ℕ}
    {direct : StreamEnd × Broadcast W S} (hprospects : x.prospects enc link limit = direct) :
    x.broadcast = direct.2 ∧ x.worker.result = Broadcast.report direct := by
  obtain ⟨-, hcalls⟩ := h.phase.of_ended hended
  unfold PublishWorker.isEnded at hended
  split at hended
  · rename_i how hphase
    unfold prospects at hprospects
    rw [hphase, hcalls] at hprospects
    unfold PublishWorker.result
    rw [hphase]
    subst hprospects
    cases how <;> exact ⟨rfl, rfl⟩
  · exact absurd hended Bool.false_ne_true

end Engagement

/-- On simulated encoders with any faults, and whatever fails on the link: every run of a worker
that is given its commands one after the other comes to an end. By then it has made the calls, noted
the events and counted what there is when the same commands are carried out directly, unless the
limit is so early that a stream is given up. -/
theorem drivers_agree (media : Media) (link : Link S) {p : Publisher SimulatedCodec}
    (hp : p.AtRest) (s : S) (now : ℕ) {orders : List (ℕ × PublishCommand SimulatedCodec)}
    (horders : ∀ order ∈ orders, order.2.Plain) :
    let enc := SimulatedCodec.encoders media
    let direct limit := Broadcast.obey enc link.logged limit orders ⟨p, .fresh s, now⟩
    let Step := Engagement.Step enc link.logged
    let x := Engagement.start p (.fresh s) now orders
    (∃ least, ∀ limit, least ≤ limit → (direct limit).1 ≠ .abandoned) ∧
    Acc (fun z y => Step y z) x ∧
    ∀ y, Relation.ReflTransGen Step x y →
      (y.worker.isEnded = false → ∃ z, Step y z) ∧
      (y.worker.isEnded = true → ∀ limit, (direct limit).1 ≠ .abandoned →
        y.link.calls = (direct limit).2.link.calls ∧
        y.worker.publisher.events = (direct limit).2.publisher.events ∧
        y.worker.publisher.stats = (direct limit).2.publisher.stats ∧
        y.worker.result = Broadcast.report (direct limit)) := by
  intro enc direct Step x
  have henc : enc.Silent := SimulatedCodec.silent_encoders media
  have hx : x.InOrder := Engagement.inOrder_start hp _ now horders
  have hstart : ∀ limit, x.prospects enc link.logged limit = direct limit := fun _ => rfl
  refine ⟨Broadcast.obey_within henc horders hp, Engagement.acc_of_inOrder henc hx,
    fun y hrun => ?_⟩
  obtain ⟨hy, hsame⟩ := Engagement.advances_run henc hx hrun
  refine ⟨Engagement.step_of_goes hy, fun hended limit hkept => ?_⟩
  have hlast := (hsame limit (by rwa [hstart])).trans (hstart limit)
  obtain ⟨hsame, hresult⟩ := Engagement.prospects_ended hy hended hlast
  exact ⟨congrArg (·.link.calls) hsame, congrArg (·.publisher.events) hsame,
    congrArg (·.publisher.stats) hsame, hresult⟩

namespace Engaged

/-- A link on which every third call fails. -/
def thirdFails : Link ℕ := ⟨fun _ n => (if n % 3 = 2 then .error .closed else .ok (), n + 1)⟩

def config : CodecConfig := { codec := "avc1", bitrate := 0, framerate := 30 }

def publisher : Publisher SimulatedCodec := .new ⟨.video, 1, 2, 10⟩ {} (.startingAt 0) 0

/-- The encoder crashes between two frames, and the second comes later. -/
def first : Source SimulatedCodec :=
  .ofCues [.frame ⟨0, none, 3⟩, .effect fun w => (w.crash, []), .pause 5, .frame ⟨1, none, 3⟩]

def orders : List (ℕ × PublishCommand SimulatedCodec) :=
  [(0, .configure config), (2000, .attach first), (0, .configure config),
    (70, .attach (.ofFrames [⟨9, none, 2⟩, ⟨10, none, 2⟩]))]

def direct : StreamEnd × Broadcast SimulatedCodec (Logged ℕ (Transmission × Bool)) :=
  Broadcast.obey (SimulatedCodec.encoders .video) thirdFails.logged 100 orders
    ⟨publisher, .fresh 0, 0⟩

theorem plain_orders : ∀ order ∈ orders, order.2.Plain := by
  have hfirst : first.Plain := by
    refine ⟨rfl, fun run hrun w => ?_⟩
    unfold first Source.ofCues at hrun
    simp only [List.mem_cons, Cue.effect.injEq, reduceCtorEq, List.not_mem_nil, or_false,
      false_or] at hrun
    rw [hrun]
  have hsecond : (Source.ofFrames [⟨9, none, 2⟩, ⟨10, none, 2⟩] :
      Source SimulatedCodec).Plain := by
    exact ⟨rfl, fun run hrun => absurd hrun (Source.effect_not_mem_ofFrames _ run)⟩
  unfold orders
  simp only [List.mem_cons, List.not_mem_nil, or_false, forall_eq_or_imp, forall_eq]
  exact ⟨trivial, hfirst, trivial, hsecond⟩

end Engaged

open Engaged in
theorem crashed_stream_agrees :
    publisher.AtRest ∧ (∀ order ∈ orders, order.2.Plain) ∧
    (direct.1 = .ended ∧ direct.2.link.calls.length = 10 ∧
      direct.2.link.calls.countP (!·.2) = 3) ∧
    ∀ y, Relation.ReflTransGen (Engagement.Step (SimulatedCodec.encoders .video) thirdFails.logged)
        (.start publisher (.fresh 0) 0 orders) y → y.worker.isEnded = true →
      y.link.calls = direct.2.link.calls ∧ y.worker.result = .ok direct.2.publisher.stats := by
  have hrest : publisher.AtRest := Publisher.atRest_new _ _ _ _
  have hended : direct.1 = .ended := by decide +kernel
  refine ⟨hrest, plain_orders, ⟨hended, by decide +kernel, by decide +kernel⟩,
    fun y hrun hover => ?_⟩
  obtain ⟨-, -, hruns⟩ := drivers_agree .video thirdFails hrest 0 0 plain_orders
  have hdirect : Broadcast.obey (SimulatedCodec.encoders .video) thirdFails.logged 100 orders
    ⟨publisher, .fresh 0, 0⟩ = direct := rfl
  have hsame := (hruns y hrun).2 hover 100
  simp only [hdirect] at hsame
  obtain ⟨hcalls, -, -, hresult⟩ := hsame (by rw [hended]; exact nofun)
  exact ⟨hcalls, hresult.trans (Broadcast.report_of_ended hended)⟩

end LiveMedia

import LiveMedia.Proofs.Publisher.Engagement
import LiveMedia.Proofs.Publisher.LoneWorker
import LiveMedia.Proofs.Transport.Attended

/-!
# A publishing worker with a loopback transport for itself

The worker and the receiver take turns in any way, and a call may have to wait between any two of
them. An object that is handed over is on its way until it has come out. Before a stream begins,
nothing of the stream before it is still on its way.
-/

namespace LiveMedia
set_option autoImplicit false

variable {W : Type}

/-- What has come out of a transport, and what is on its way, while objects of this epoch are handed
over: nothing is lost, what has come out is in the order of the epochs, and only objects of the
latest epoch are on their way. -/
structure Stowed (epoch : ℕ) (out onway sent : List Received) : Prop where
  perm : (out ++ onway).Perm sent
  sorted : out.Pairwise fun a b => a.epoch ≤ b.epoch
  reached : ∀ o ∈ out, o.epoch ≤ epoch
  current : ∀ o ∈ onway, o.epoch = epoch

/-- The objects of the epochs up to this one have all come out once, and before all others. -/
def AllOut (epoch : ℕ) (sent out : List Received) : Prop :=
  ∃ before after, out = before ++ after ∧ before.Perm (sent.filter (·.epoch ≤ epoch)) ∧
    ∀ o ∈ after, epoch < o.epoch

namespace Stowed

variable {epoch : ℕ} {out onway sent : List Received}

theorem nil : Stowed epoch [] [] [] := ⟨.refl _, .nil, nofun, nofun⟩

/-- An object is handed over. It may overtake others that are on their way. -/
theorem hand (h : Stowed epoch out onway sent) {o : Received} (ho : o.epoch = epoch)
    {onway' : List Received} (hperm : onway'.Perm (onway ++ [o])) :
    Stowed epoch out onway' (sent ++ [o]) where
  perm := by
    have hsent := h.perm.append_right [o]
    rw [List.append_assoc] at hsent
    exact (hperm.append_left out).trans hsent
  sorted := h.sorted
  reached := h.reached
  current x hx := by
    rcases List.mem_append.mp (hperm.subset hx) with hx | hx
    · exact h.current x hx
    · exact List.mem_singleton.mp hx ▸ ho

/-- Some of the objects come out. -/
theorem arrive {arrived : List Received} (h : Stowed epoch out (arrived ++ onway) sent) :
    Stowed epoch (out ++ arrived) onway sent where
  perm := by
    rw [List.append_assoc]
    exact h.perm
  sorted := by
    have hnow : ∀ o ∈ arrived, o.epoch = epoch :=
      fun o ho => h.current o (List.mem_append_left _ ho)
    refine List.pairwise_append.mpr ⟨h.sorted, ?_, fun a ha b hb => ?_⟩
    · exact List.pairwise_of_forall_mem_list fun a ha b hb => by rw [hnow a ha, hnow b hb]
    · rw [hnow b hb]
      exact h.reached a ha
  reached o ho := by
    rcases List.mem_append.mp ho with ho | ho
    · exact h.reached o ho
    · exact Nat.le_of_eq (h.current o (List.mem_append_left _ ho))
  current o ho := h.current o (List.mem_append_right _ ho)

/-- Once nothing is on its way, a later epoch may begin. -/
theorem later (h : Stowed epoch out [] sent) {epoch' : ℕ} (hle : epoch ≤ epoch') :
    Stowed epoch' out [] sent :=
  ⟨h.perm, h.sorted, fun o ho => Nat.le_trans (h.reached o ho) hle, nofun⟩

theorem cut_of_sorted (h : out.Pairwise fun a b => a.epoch ≤ b.epoch) (k : ℕ) :
    out = out.filter (·.epoch ≤ k) ++ out.filter (k < ·.epoch) := by
  induction out with
  | nil => rfl
  | cons a rest ih =>
    obtain ⟨hfirst, hrest⟩ := List.pairwise_cons.mp h
    by_cases ha : a.epoch ≤ k
    · rw [List.filter_cons_of_pos (by simpa using ha), List.filter_cons_of_neg (by simpa using ha),
        List.cons_append, ← ih hrest]
    · have hlate : ∀ o ∈ a :: rest, k < o.epoch := by
        intro o ho
        rcases List.mem_cons.mp ho with rfl | ho
        · exact Nat.lt_of_not_le ha
        · exact Nat.lt_of_lt_of_le (Nat.lt_of_not_le ha) (hfirst o ho)
      have hnone : (a :: rest).filter (·.epoch ≤ k) = [] :=
        List.filter_eq_nil_iff.mpr fun o ho => by simpa using hlate o ho
      have hall : (a :: rest).filter (k < ·.epoch) = a :: rest :=
        List.filter_eq_self.mpr fun o ho => by simpa using hlate o ho
      rw [hnone, hall, List.nil_append]

theorem allOut (h : Stowed epoch out onway sent) {k : ℕ} (hk : k < epoch ∨ onway = []) :
    AllOut k sent out := by
  refine ⟨out.filter (·.epoch ≤ k), out.filter (k < ·.epoch), cut_of_sorted h.sorted k, ?_,
    fun o ho => by simpa using (List.mem_filter.mp ho).2⟩
  have hnone : onway.filter (·.epoch ≤ k) = [] := by
    rcases hk with hk | rfl
    · refine List.filter_eq_nil_iff.mpr fun o ho => ?_
      rw [h.current o ho]
      simpa using hk
    · rfl
  have hperm := h.perm.filter (·.epoch ≤ k)
  rwa [List.filter_append, hnone, List.append_nil] at hperm

end Stowed

namespace PublishWorker

/-- The last stream has come to its end, or none has begun. -/
def atEase (w : PublishWorker W) : Bool :=
  match w.phase with
  | .serving => w.source.isNone
  | .ended how => how == .stopped && !w.cancelled
  | _ => false

/-- What a worker has done with a stream when it turns away from it, `held` being the object that
its transport holds back. -/
def Composed (w : PublishWorker W) (held : Option Received) : Prop :=
  match w.phase with
  | .serving => w.source = none →
    w.publisher.outputs = [] ∧ w.calls = [] ∧ w.call = none ∧ held = none
  | .draining _ => True
  | .closing _ => w.publisher.outputs = [] ∧
    (w.calls = [.flush] ∧ w.call = none ∨ w.calls = [] ∧ (w.call = none → held = none))
  | .ended how => how = .stopped → w.cancelled = false →
    w.calls = [] ∧ w.call = none ∧ held = none

theorem composed_serving {w : PublishWorker W} {held : Option Received}
    (hphase : w.phase = .serving) (h : w.source = none →
      w.publisher.outputs = [] ∧ w.calls = [] ∧ w.call = none ∧ held = none) :
    w.Composed held := by
  unfold Composed
  rw [hphase]
  exact h

theorem composed_busy {w : PublishWorker W} (hphase : w.phase = .serving)
    (hsource : w.source.isSome = true) (held : Option Received) : w.Composed held :=
  composed_serving hphase fun hnone => by
    rw [hnone] at hsource
    cases hsource

theorem composed_failed (w : PublishWorker W) (held : Option Received) :
    (w.finish .failed).Composed held := fun hhow => nomatch hhow

theorem composed_draining {w : PublishWorker W} {next : Option (Source W)}
    (hphase : w.phase = .draining next) (held : Option Received) : w.Composed held := by
  unfold Composed
  rw [hphase]
  trivial

section Calls

variable {w w' : PublishWorker W} {held held' : Option Received}

/-- A call goes on, and once it has come to its end nothing is held back. -/
theorem Composed.resume (h : w.Composed held) (hcall : w.call ≠ none)
    (hphase : w'.phase = w.phase) (hsource : w'.source = w.source)
    (hcancelled : w'.cancelled = w.cancelled)
    (houtputs : w'.publisher.outputs = w.publisher.outputs) (hcalls : w'.calls = w.calls)
    (hheld : w'.call = none → held' = none) : w'.Composed held' := by
  unfold Composed at h ⊢
  rw [hphase]
  split at h
  · intro hnone
    exact absurd (h (hsource ▸ hnone)).2.2.1 hcall
  · trivial
  · obtain ⟨hempty, ⟨-, hnone⟩ | ⟨hdone, -⟩⟩ := h
    · exact absurd hnone hcall
    · exact ⟨houtputs.trans hempty, .inr ⟨hcalls.trans hdone, hheld⟩⟩
  · intro hhow hgoes
    exact absurd (h hhow (hcancelled ▸ hgoes)).2.1 hcall

/-- A call begins. When the stream is flushed and the call has come to its end at once, nothing is
held back. -/
theorem Composed.begin (h : w.Composed held) {t : Transmission} {rest : List Transmission}
    (hbefore : w.calls = t :: rest) (hphase : w'.phase = w.phase) (hsource : w'.source = w.source)
    (hcancelled : w'.cancelled = w.cancelled)
    (houtputs : w'.publisher.outputs = w.publisher.outputs) (hcalls : w'.calls = rest)
    (hheld : t = .flush → w'.call = none → held' = none) : w'.Composed held' := by
  unfold Composed at h ⊢
  rw [hphase]
  split at h
  · intro hnone
    exact absurd (hbefore.symm.trans (h (hsource ▸ hnone)).2.1) nofun
  · trivial
  · obtain ⟨hempty, ⟨hflush, -⟩ | ⟨hdone, -⟩⟩ := h
    · obtain ⟨rfl, rfl⟩ := List.cons.inj (hbefore.symm.trans hflush)
      exact ⟨houtputs.trans hempty, .inr ⟨hcalls, hheld rfl⟩⟩
    · exact absurd (hbefore.symm.trans hdone) nofun
  · intro hhow hgoes
    exact absurd (hbefore.symm.trans (h hhow (hcancelled ▸ hgoes)).1) nofun

/-- A worker that is cancelled is at ease no more. -/
theorem Composed.cancel (h : w.Composed held) : w.cancel.Composed held := by
  unfold Composed at h ⊢
  rw [show w.cancel.phase = w.phase from rfl]
  split at h
  · exact h
  · trivial
  · exact h
  · exact fun _ hgoes => nomatch hgoes

end Calls

/-- A step in which no call is made. -/
structure Proceeds (held : Option Received) (w w' : PublishWorker W) : Prop where
  call : w'.call = none
  calls : ∀ o, .object o ∈ w'.calls → o.epoch = w'.publisher.epoch
  epoch : w'.publisher.epoch = w.publisher.epoch ∨
    held = none ∧ w.publisher.epoch ≤ w'.publisher.epoch
  composed : w'.Composed held
  receiving : w'.publisher.receiving = true

/-- Only the epoch of the worker before the step matters. -/
theorem Proceeds.congr {held : Option Received} {w₁ w₂ w' : PublishWorker W}
    (h : w₁.Proceeds held w') (hepoch : w₂.publisher.epoch = w₁.publisher.epoch) :
    w₂.Proceeds held w' where
  call := h.call
  calls := h.calls
  epoch := hepoch ▸ h.epoch
  composed := h.composed
  receiving := h.receiving

/-- A worker that has no call to make. -/
structure Free (held : Option Received) (w : PublishWorker W) : Prop where
  call : w.call = none
  calls : w.calls = []
  composed : w.Composed held
  receiving : w.publisher.receiving = true

section Steps

variable {enc : EncoderFamily W} {held : Option Received} {w : PublishWorker W}

/-- The worker makes no calls, and its stream goes on. -/
theorem Free.still (h : w.Free held) {w' : PublishWorker W} (hcall : w'.call = none)
    (hcalls : w'.calls = []) (hepoch : w'.publisher.epoch = w.publisher.epoch)
    (hreceiving : w'.publisher.receiving = w.publisher.receiving) (hcomposed : w'.Composed held) :
    w.Proceeds held w' where
  call := hcall
  calls o ho := by
    rw [hcalls] at ho
    cases ho
  epoch := .inl hepoch
  composed := hcomposed
  receiving := hreceiving.trans h.receiving

/-- The worker has turned away from its last stream. -/
theorem Free.rested (h : w.Free held) (hphase : w.phase = .serving) (hsource : w.source = none) :
    w.publisher.outputs = [] ∧ held = none := by
  have hcomposed := h.composed
  unfold Composed at hcomposed
  rw [hphase] at hcomposed
  obtain ⟨houtputs, -, -, hheld⟩ := hcomposed hsource
  exact ⟨houtputs, hheld⟩

theorem Free.begin (h : w.Free held) (hheld : held = none) (now : ℕ) (src : Source W) :
    w.Proceeds held (w.begin now src) where
  call := h.call
  calls o ho := by
    change .object o ∈ w.calls at ho
    rw [h.calls] at ho
    cases ho
  epoch := .inr ⟨hheld, Nat.le_succ _⟩
  composed := composed_busy rfl rfl held
  receiving := h.receiving

theorem Free.endSource (h : w.Free held) (next : Option (Source W)) :
    w.Proceeds held (w.endSource enc next) :=
  h.still h.call h.calls (w.publisher.epoch_flushEncoder enc)
    (w.publisher.receiving_flushEncoder enc) (composed_draining rfl held)

theorem Free.follow (henc : enc.Silent) (h : w.Free held) (hphase : w.phase = .serving) (now : ℕ)
    (c : PublishCommand W) : w.Proceeds held (w.follow enc now c) := by
  cases c with
  | configure c =>
    refine h.still h.call h.calls (w.publisher.epoch_configure enc c)
      (w.publisher.receiving_configure enc c) (composed_serving hphase fun hsource => ?_)
    obtain ⟨houtputs, hheld⟩ := h.rested hphase hsource
    exact ⟨(Publisher.outputs_configure henc h.receiving c).trans houtputs, h.calls, h.call, hheld⟩
  | attach src =>
    unfold PublishWorker.follow PublishWorker.attach
    simp only
    split
    · exact h.endSource _
    · rename_i hsource
      exact h.begin (h.rested hphase (Option.not_isSome_iff_eq_none.mp hsource)).2 now src

theorem Free.hear (henc : enc.Silent) (h : w.Free held) (hphase : w.phase = .serving) (now : ℕ) :
    w.Proceeds held (w.hear enc now) := by
  unfold PublishWorker.hear
  split
  · rename_i command mailbox _
    have hfree : Free held { w with mailbox := mailbox } :=
      ⟨h.call, h.calls, h.composed, h.receiving⟩
    exact (hfree.follow henc hphase now command).congr rfl
  · simp only
    split
    · rename_i hsource
      exact h.still h.call h.calls rfl rfl (composed_busy hphase hsource held)
    · rename_i hsource
      have hheld := (h.rested hphase (Option.not_isSome_iff_eq_none.mp hsource)).2
      exact h.still h.call h.calls rfl rfl fun _ _ => ⟨h.calls, h.call, hheld⟩

variable (enc) in
theorem Free.askSource (h : w.Free held) (hphase : w.phase = .serving) (now : ℕ) {src : Source W}
    (hsource : w.source = some src) : w.Proceeds held (w.askSource enc now src).1 := by
  unfold PublishWorker.askSource
  generalize src.next now w.publisher.codec = answer
  obtain ⟨supply, codec, emitted⟩ := answer
  have hsome : w.source.isSome = true := by
    rw [hsource]
    rfl
  cases supply with
  | frame f rest =>
    simp only
    split
    · exact h.still h.call h.calls (Publisher.epoch_submit enc _ now f)
        (Publisher.receiving_submit enc _ now f) (composed_failed _ held)
    · refine h.still h.call h.calls (Publisher.epoch_submit enc _ now f)
        (Publisher.receiving_submit enc _ now f) ?_
      apply composed_busy
      · exact hphase
      · rfl
  | wait deadline rest =>
    refine h.still h.call h.calls rfl rfl ?_
    apply composed_busy
    · exact hphase
    · rfl
  | moved us rest =>
    refine h.still h.call h.calls rfl rfl ?_
    apply composed_busy
    · exact hphase
    · rfl
  | stalled =>
    refine h.still h.call h.calls rfl rfl ?_
    apply composed_busy
    · exact hphase
    · exact hsome
  | ended =>
    exact h.still h.call h.calls (Publisher.epoch_flushEncoder enc _)
      (Publisher.receiving_flushEncoder enc _) (composed_draining rfl held)
  | broken => exact h.still h.call h.calls rfl rfl (composed_failed _ held)

theorem Free.handleOutput (h : w.Free held) (hcomposed : ∀ w' : PublishWorker W,
      w'.phase = w.phase → w'.source = w.source → w'.Composed held)
    (now : ℕ) (c : Chunk) (rest : List Chunk) :
    w.Proceeds held (w.handleOutput now c rest) := by
  have hepoch := w.epoch_handleOutput now c rest
  have hreceiving := Publisher.receiving_handle { w.publisher with outputs := rest } now c
  exact ⟨h.call, fun o ho => (Publisher.of_mem_handle ho).2.trans hepoch.symm, .inl hepoch,
    hcomposed _ rfl rfl, hreceiving.trans h.receiving⟩

theorem Free.serve (henc : enc.Silent) (h : w.Free held) (hphase : w.phase = .serving) (now : ℕ) :
    w.Proceeds held (w.serve enc now).1 := by
  have hidle : w.Proceeds held w := h.still h.call h.calls rfl rfl h.composed
  unfold PublishWorker.serve
  split
  · rename_i hgone
    have hcancelled : w.cancelled = true := by simpa [h.receiving] using hgone
    exact h.still h.call h.calls rfl rfl fun _ hgoes => absurd (hcancelled.symm.trans hgoes) nofun
  · split
    · exact h.hear henc hphase now
    · split
      · rename_i c rest houtputs
        have hsome : w.source.isSome = true := by
          by_contra hnone
          have hrested := h.rested hphase (Option.not_isSome_iff_eq_none.mp hnone)
          exact absurd (houtputs.symm.trans hrested.1) nofun
        exact h.handleOutput
          (fun w' hp hs => composed_busy (hp.trans hphase) (hs ▸ hsome) held) now c rest
      · rename_i src houtputs hsource
        split
        · have hfree : Free held { w with sourceWait := .over } :=
            ⟨h.call, h.calls, h.composed, h.receiving⟩
          exact (hfree.askSource enc hphase now hsource).congr rfl
        · exact hidle
      · exact hidle

theorem Free.conclude (h : w.Free held) {next : Option (Source W)}
    (hphase : w.phase = .closing next) (now : ℕ) : w.Proceeds held (w.conclude now next) := by
  have hcomposed := h.composed
  unfold Composed at hcomposed
  rw [hphase] at hcomposed
  obtain ⟨houtputs, hclosing⟩ := hcomposed
  have hheld : held = none := by
    rcases hclosing with ⟨hflush, -⟩ | ⟨-, hheld⟩
    · exact absurd (h.calls.symm.trans hflush) nofun
    · exact hheld h.call
  unfold PublishWorker.conclude
  cases next with
  | some src =>
    have hfree : Free held { w with publisher := w.publisher.endStream } :=
      ⟨h.call, h.calls, h.composed, h.receiving⟩
    exact (hfree.begin hheld now src).congr rfl
  | none =>
    simp only
    split
    · exact h.still h.call h.calls rfl rfl
        (composed_serving rfl fun _ => ⟨houtputs, h.calls, h.call, hheld⟩)
    · exact h.still h.call h.calls rfl rfl fun _ _ => ⟨h.calls, h.call, hheld⟩

/-- A worker that has no call to make leaves the transport alone. -/
theorem Free.step {S : Type} (henc : enc.Silent) (h : w.Free held) (carrier : Carrier S) (now : ℕ)
    (s : S) :
    (w.step enc carrier 0 now s).1.2 = s ∧ w.Proceeds held (w.step enc carrier 0 now s).1.1 := by
  unfold PublishWorker.step
  split
  · rename_i hcall
    exact absurd (h.call.symm.trans hcall) nofun
  · rename_i hcalls
    exact absurd (h.calls.symm.trans hcalls) nofun
  · split
    · rename_i hphase
      exact ⟨rfl, h.serve henc hphase now⟩
    · rename_i next hphase
      split
      · rename_i c rest _
        refine ⟨rfl, h.handleOutput (fun w' hp _ => ?_) now c rest⟩
        exact composed_draining (hp.trans hphase) held
      · rename_i houtputs
        refine ⟨rfl, h.call, fun o ho => ?_, .inl rfl, ⟨houtputs, .inl ⟨rfl, h.call⟩⟩, h.receiving⟩
        cases List.mem_singleton.mp ho
    · rename_i next hphase
      exact ⟨rfl, h.conclude hphase now⟩
    · exact ⟨rfl, h.still h.call h.calls rfl rfl h.composed⟩

end Steps

end PublishWorker

structure Crossing (W : Type) where
  worker : PublishWorker W
  loopback : Loopback
  /-- What the receiver has taken off the channel. -/
  taken : List Received
  /-- The objects that the worker has handed over. -/
  sent : List Received

namespace Crossing

/-- Something that happens to the worker, or the receiver takes an object if there is one. -/
inductive Move (W : Type) where
  | worker (move : Chronicle.Move W)
  | receive

def start (settings : PublishSettings) (codec : W) (clock : CaptureClock) (now capacity : ℕ)
    (reorderProbability : Float) (chance : ℕ → Bool) : Crossing W :=
  ⟨.new (.new settings codec clock now), .make capacity reorderProbability chance, [], []⟩

/-- All that has come out at the other end, taken or not. -/
def seen (x : Crossing W) : List Received := x.taken ++ x.loopback.channel.queue

/-- The object that the worker hands over with its next step. -/
def handed? (x : Crossing W) : Option Received :=
  match x.worker.call, x.worker.calls with
  | none, t :: _ => t.received?
  | _, _ => none

/-- What is held back or waits for a place. -/
def onway (x : Crossing W) : List Received :=
  match x.worker.call with
  | some (_, d) => x.loopback.rest d
  | none => x.loopback.held.toList

section Run

variable (enc : EncoderFamily W)

def go (x : Crossing W) (now : ℕ) : Crossing W :=
  let ((w, l), _) := x.worker.step enc Loopback.carrier 0 now x.loopback
  ⟨w, l, x.taken, x.sent ++ x.handed?.toList⟩

def update (x : Crossing W) (w : PublishWorker W) : Crossing W := { x with worker := w }

def step (x : Crossing W) : Move W → Crossing W
  | .worker (.go now) => x.go enc now
  | .worker (.disturb run) => x.update (x.worker.actOnPublisher (.actOnCodec run))
  | .worker (.post c) => x.update (x.worker.post c).2
  | .worker .dismiss => x.update x.worker.dismiss
  | .worker .cancel => x.update x.worker.cancel
  | .receive =>
    match x.loopback.channel.take? with
    | none => x
    | some (o, channel) =>
      { x with loopback := { x.loopback with channel := channel }, taken := x.taken ++ [o] }

def run (x : Crossing W) (moves : List (Move W)) : Crossing W := moves.foldl (step enc) x

end Run

/-- Faults change the encoders, but give out nothing. -/
def Move.Quiet : Move W → Prop
  | worker move => move.Only fun call => call.gave = []
  | receive => True

structure Kept (x : Crossing W) : Prop where
  stowed : Stowed x.worker.publisher.epoch x.seen x.onway x.sent
  calls : ∀ o, .object o ∈ x.worker.calls → o.epoch = x.worker.publisher.epoch
  composed : x.worker.Composed x.loopback.held
  receiving : x.worker.publisher.receiving = true
  /-- A call may begin, or go on. -/
  usable : ∀ o, x.loopback.Midway ⟨o, true⟩
  alone : ∀ t d, x.worker.call = some (t, d) → d.heldFollows = false → x.loopback.held = none

theorem kept_start (settings : PublishSettings) (codec : W) (clock : CaptureClock)
    (now capacity : ℕ) (reorderProbability : Float) (chance : ℕ → Bool) :
    (start settings codec clock now capacity reorderProbability chance).Kept where
  stowed := .nil
  calls := nofun
  composed := fun _ => ⟨rfl, rfl, rfl, rfl⟩
  receiving := rfl
  usable _ := ⟨rfl, .inl rfl, Nat.lt_of_lt_of_le Nat.zero_lt_one (Nat.le_max_right capacity 1),
    Nat.zero_le _, nofun⟩
  alone := nofun

variable {enc : EncoderFamily W} {x : Crossing W}

/-- Where a stream has come to its end, nothing is on its way. -/
theorem Kept.onway_of_atEase (h : x.Kept) (hease : x.worker.atEase = true) : x.onway = [] := by
  have hcomposed := h.composed
  have hnone : x.worker.call = none ∧ x.loopback.held = none := by
    unfold PublishWorker.atEase at hease
    unfold PublishWorker.Composed at hcomposed
    cases hphase : x.worker.phase with
    | serving =>
      rw [hphase] at hease hcomposed
      obtain ⟨-, -, hcall, hheld⟩ := hcomposed (Option.isNone_iff_eq_none.mp hease)
      exact ⟨hcall, hheld⟩
    | draining next =>
      rw [hphase] at hease
      exact absurd hease nofun
    | closing next =>
      rw [hphase] at hease
      exact absurd hease nofun
    | ended how =>
      rw [hphase] at hease hcomposed
      obtain ⟨hhow, hcancelled⟩ := Bool.and_eq_true_iff.mp hease
      obtain ⟨-, hcall, hheld⟩ := hcomposed (eq_of_beq hhow) (by simpa using hcancelled)
      exact ⟨hcall, hheld⟩
  unfold onway
  rw [hnone.1, hnone.2]
  rfl

theorem Kept.proceed (h : x.Kept) (hcall : x.worker.call = none) {w : PublishWorker W}
    (hw : x.worker.Proceeds x.loopback.held w) : (x.update w).Kept where
  stowed := by
    have hstowed := h.stowed
    have honway : x.onway = x.loopback.held.toList := by
      unfold onway
      rw [hcall]
    have honway' : (x.update w).onway = x.loopback.held.toList := by
      unfold onway
      rw [show (x.update w).worker.call = none from hw.call]
      rfl
    rw [honway] at hstowed
    rw [honway']
    rcases hw.epoch with hsame | ⟨hheld, hlater⟩
    · exact hsame ▸ hstowed
    · rw [hheld] at hstowed ⊢
      exact hstowed.later hlater
  calls := hw.calls
  composed := hw.composed
  receiving := hw.receiving
  usable := h.usable
  alone t d hd := absurd (hw.call.symm.trans hd) nofun

/-- Objects leave a call in the order in which it has them. -/
theorem arrived_of_delivered {l r : Loopback} {d e : Delivery} (h : r.delivered e = l.delivered d)
    (hle : (r.rest e).length ≤ (l.rest d).length) : ∃ arrived,
      r.channel.queue = l.channel.queue ++ arrived ∧ l.rest d = arrived ++ r.rest e := by
  have hqueue : r.channel.queue ++ r.rest e = l.channel.queue ++ l.rest d :=
    congrArg (·.channel.queue) h
  rcases List.append_eq_append_iff.mp hqueue with ⟨arrived, hl, hr⟩ | ⟨arrived, hr, hl⟩
  · have hlength := congrArg List.length hr
    rw [List.length_append] at hlength
    obtain rfl : arrived = [] := List.eq_nil_of_length_eq_zero (by omega)
    exact ⟨[], by rw [hl, List.append_nil, List.append_nil], hr.symm⟩
  · exact ⟨arrived, hr, hl⟩

/-- A call goes on as far as it can. -/
theorem Kept.resume (h : x.Kept) {t : Transmission} {d : Delivery}
    (hcall : x.worker.call = some (t, d)) :
    Kept { x with
      worker := x.worker.note t (x.loopback.resume 0 d).1
      loopback := (x.loopback.resume 0 d).2 } := by
  have hmid : x.loopback.Midway d :=
    { h.usable d.object with alone := h.alone t d hcall }
  have hstowed := h.stowed
  have honway : x.onway = x.loopback.rest d := by
    unfold onway
    rw [hcall]
  rw [honway] at hstowed
  have hcalling : x.worker.call ≠ none := by
    rw [hcall]
    exact nofun
  rcases Loopback.resume_cases hmid with ⟨hr, hfits⟩ | ⟨e, r, hr, he, hall, hle, -⟩
  · rw [hr]
    obtain ⟨cursor, stats, hsettle⟩ := x.worker.publisher.settle_footprint t true
    have hnote : x.worker.note t (.done (.ok ())) = { x.worker with
        call := none
        publisher := { x.worker.publisher with cursor := cursor, stats := stats } } := by
      rw [← hsettle]
      rfl
    rw [hnote]
    refine ⟨?_, h.calls, ?_, h.receiving, fun o => ?_, nofun⟩
    · rw [← List.append_nil (x.loopback.rest d)] at hstowed
      have harrive := hstowed.arrive
      unfold seen at harrive
      rw [List.append_assoc] at harrive
      exact harrive
    · exact h.composed.resume hcalling rfl rfl rfl rfl rfl fun _ => rfl
    · exact ⟨hmid.isOpen, .inl rfl, hmid.room, hfits, nofun⟩
  · rw [hr]
    obtain ⟨arrived, hqueue, hrest⟩ := arrived_of_delivered hall hle
    refine ⟨?_, h.calls, ?_, h.receiving, fun o => ?_, fun t' d' hd hf => ?_⟩
    · rw [hrest] at hstowed
      have harrive := hstowed.arrive
      unfold seen at harrive ⊢
      rw [List.append_assoc] at harrive
      rw [hqueue]
      exact harrive
    · exact h.composed.resume hcalling rfl rfl rfl rfl rfl nofun
    · exact ⟨he.isOpen, he.line, he.room, he.fits, nofun⟩
    · obtain ⟨-, rfl⟩ := Prod.mk.inj (Option.some.inj hd)
      exact he.alone hf

theorem Kept.stowed_of_free (h : x.Kept) (hcall : x.worker.call = none) :
    Stowed x.worker.publisher.epoch x.seen x.loopback.held.toList x.sent := by
  have hstowed := h.stowed
  unfold onway at hstowed
  rwa [hcall] at hstowed

/-- A call that begins and comes to its end at once. -/
theorem Kept.settled (h : x.Kept) {t : Transmission} {rest : List Transmission}
    (hcalls : x.worker.calls = t :: rest) (result : Except LinkFault Unit) (drawn : ℕ)
    {held : Option Received} (hheld : t = .flush → held = none) {sent : List Received}
    (hstowed : Stowed x.worker.publisher.epoch x.seen held.toList sent) :
    Kept { x with
      worker := { x.worker with calls := rest }.note t (.done result)
      loopback := { x.loopback with drawn := drawn, held := held }
      sent := sent } := by
  have hsettled : ∃ ok, { x.worker with calls := rest }.note t (.done result) = { x.worker with
      calls := rest
      call := none
      publisher := x.worker.publisher.settle t ok } := by
    cases result with
    | ok _ => exact ⟨true, rfl⟩
    | error _ => exact ⟨false, rfl⟩
  obtain ⟨ok, hnote⟩ := hsettled
  obtain ⟨cursor, stats, hsettle⟩ := x.worker.publisher.settle_footprint t ok
  rw [hnote, hsettle]
  refine ⟨hstowed, fun o ho => ?_, ?_, h.receiving, fun o => ?_, fun _ _ hd => ?_⟩
  · exact h.calls o (hcalls ▸ List.mem_cons_of_mem t ho)
  · exact h.composed.begin hcalls rfl rfl rfl rfl rfl fun hflush _ => hheld hflush
  · have hmid := h.usable o
    exact ⟨hmid.isOpen, hmid.line, hmid.room, hmid.fits, nofun⟩
  · cases hd

/-- A call that begins and has objects to deliver. -/
theorem Kept.delivering (h : x.Kept) {t : Transmission} {rest : List Transmission}
    (hcalls : x.worker.calls = t :: rest) (d : Delivery) (drawn : ℕ) {held : Option Received}
    (halone : d.heldFollows = false → held = none) {sent : List Received}
    (hstowed : Stowed x.worker.publisher.epoch x.seen
      (Loopback.rest { x.loopback with drawn := drawn, held := held } d) sent) :
    Kept { x with
      worker := { x.worker with calls := rest }.note t
        (Loopback.resume { x.loopback with drawn := drawn, held := held } 0 d).1
      loopback := (Loopback.resume { x.loopback with drawn := drawn, held := held } 0 d).2
      sent := sent } := by
  have hbegun : Kept { x with
      worker := { x.worker with calls := rest, call := some (t, d) }
      loopback := { x.loopback with drawn := drawn, held := held }
      sent := sent } := by
    refine ⟨hstowed, fun o ho => ?_, ?_, h.receiving, fun o => ?_, fun t' d' hd => ?_⟩
    · exact h.calls o (hcalls ▸ List.mem_cons_of_mem t ho)
    · exact h.composed.begin hcalls rfl rfl rfl rfl rfl fun _ => nofun
    · have hmid := h.usable o
      exact ⟨hmid.isOpen, hmid.line, hmid.room, hmid.fits, nofun⟩
    · obtain ⟨-, rfl⟩ := Prod.mk.inj (Option.some.inj hd)
      exact halone
  have hnote : ∀ progress, { x.worker with calls := rest, call := some (t, d) }.note t progress =
      { x.worker with calls := rest }.note t progress := fun progress => by cases progress <;> rfl
  have hresumed := hbegun.resume rfl
  rw [hnote] at hresumed
  exact hresumed

theorem Kept.send (h : x.Kept) (hcall : x.worker.call = none) {t : Transmission}
    {rest : List Transmission} (hcalls : x.worker.calls = t :: rest) :
    Kept { x with
      worker := { x.worker with calls := rest }.note t (x.loopback.send 0 t).1
      loopback := (x.loopback.send 0 t).2
      sent := x.sent ++ t.received?.toList } := by
  have hstowed := h.stowed_of_free hcall
  have hsame : x.sent ++ [] = x.sent := List.append_nil _
  have hepoch : ∀ o, t = .object o → o.received.epoch = x.worker.publisher.epoch := by
    rintro o rfl
    exact h.calls o (hcalls ▸ List.mem_cons_self)
  have hbegins := Loopback.begins_start (h.usable default).isOpen t
  unfold Loopback.send
  generalize x.loopback.start t = begun at hbegins
  cases hbegins with
  | header g => exact h.settled hcalls (.ok ()) x.loopback.drawn nofun (hsame.symm ▸ hstowed)
  | hold o _ hempty =>
    rw [hempty] at hstowed
    exact h.settled hcalls (.ok ()) _ nofun (hstowed.hand (hepoch o rfl) (.refl _))
  | pass o _ =>
    exact h.delivering hcalls ⟨o.received, true⟩ (x.loopback.drawn + 1) nofun
      (hstowed.hand (hepoch o rfl) (List.perm_append_singleton _ _).symm)
  | flushNothing hempty =>
    exact h.settled hcalls (.ok ()) x.loopback.drawn (fun _ => hempty) (hsame.symm ▸ hstowed)
  | flush hfull =>
    rw [hfull] at hstowed
    exact h.delivering hcalls ⟨_, false⟩ x.loopback.drawn (fun _ => rfl) (hsame.symm ▸ hstowed)

theorem Kept.go (henc : enc.Silent) (h : x.Kept) (now : ℕ) : (x.go enc now).Kept := by
  cases hcall : x.worker.call with
  | some call =>
    obtain ⟨t, d⟩ := call
    have hgo : x.go enc now = { x with
        worker := x.worker.note t (x.loopback.resume 0 d).1
        loopback := (x.loopback.resume 0 d).2 } := by
      unfold Crossing.go handed? PublishWorker.step
      rw [hcall]
      simp only [Option.toList_none, List.append_nil]
      rfl
    rw [hgo]
    exact h.resume hcall
  | none =>
    cases hcalls : x.worker.calls with
    | cons t rest =>
      have hgo : x.go enc now = { x with
          worker := { x.worker with calls := rest }.note t (x.loopback.send 0 t).1
          loopback := (x.loopback.send 0 t).2
          sent := x.sent ++ t.received?.toList } := by
        unfold Crossing.go handed? PublishWorker.step
        rw [hcall, hcalls]
        rfl
      rw [hgo]
      exact h.send hcall hcalls
    | nil =>
      obtain ⟨hsame, hproceeds⟩ := PublishWorker.Free.step henc
        ⟨hcall, hcalls, h.composed, h.receiving⟩ Loopback.carrier now x.loopback
      have hgo : x.go enc now =
          x.update (x.worker.step enc Loopback.carrier 0 now x.loopback).1.1 := by
        unfold Crossing.go handed? update
        rw [hcall, hcalls]
        simp only [Option.toList_none, List.append_nil, hsame]
      rw [hgo]
      exact h.proceed hcall hproceeds

/-- The receiver takes what has come out already. -/
theorem Kept.receive (h : x.Kept) : (x.step enc .receive).Kept := by
  unfold Crossing.step Channel.take?
  cases hqueue : x.loopback.channel.queue with
  | nil => exact h
  | cons o rest =>
    have hseen : x.taken ++ [o] ++ rest = x.seen := by
      unfold seen
      rw [hqueue, List.append_assoc]
      rfl
    refine ⟨?_, h.calls, h.composed, h.receiving, fun o' => ?_, h.alone⟩
    · have hstowed := h.stowed
      rw [← hseen] at hstowed
      exact hstowed
    · have hmid := h.usable o'
      have hfits := hmid.fits
      rw [hqueue, List.length_cons] at hfits
      exact ⟨hmid.isOpen, hmid.line, hmid.room, Nat.le_of_succ_le hfits, nofun⟩

/-- Something that happens to the worker from outside, and hands nothing over. -/
theorem Kept.outside (h : x.Kept) {w : PublishWorker W} (hcall : w.call = x.worker.call)
    (hcalls : w.calls = x.worker.calls) (hepoch : w.publisher.epoch = x.worker.publisher.epoch)
    (hreceiving : w.publisher.receiving = true) (hcomposed : w.Composed x.loopback.held) :
    (x.update w).Kept where
  stowed := by
    have hsame : (x.update w).onway = x.onway := by
      unfold onway update
      simp only [hcall]
    have hstowed := h.stowed
    rw [← hepoch, ← hsame] at hstowed
    exact hstowed
  calls o ho := (h.calls o (hcalls ▸ ho)).trans hepoch.symm
  composed := hcomposed
  receiving := hreceiving
  usable := h.usable
  alone t d hd := h.alone t d (hcall ▸ hd)

theorem Kept.step (henc : enc.Silent) (h : x.Kept) {move : Move W} (hmove : move.Quiet) :
    (x.step enc move).Kept := by
  cases move with
  | receive => exact h.receive
  | worker move =>
    cases move with
    | go now => exact h.go henc now
    | disturb run =>
      have hquiet : ∀ w, (run w).2 = [] := hmove
      refine h.outside rfl rfl rfl h.receiving ?_
      have hsame : (x.worker.actOnPublisher (.actOnCodec run)).publisher.outputs =
          x.worker.publisher.outputs := by
        change (if x.worker.publisher.receiving then
          x.worker.publisher.outputs ++ (run x.worker.publisher.codec).2 else []) = _
        rw [if_pos h.receiving, hquiet, List.append_nil]
      have hcomposed := h.composed
      unfold PublishWorker.Composed at hcomposed ⊢
      rw [hsame]
      exact hcomposed
    | post c =>
      have hpost : ∃ mailbox, (x.worker.post c).2 = { x.worker with mailbox := mailbox } := by
        unfold PublishWorker.post
        split
        · exact ⟨_, rfl⟩
        · exact ⟨x.worker.mailbox, rfl⟩
      obtain ⟨mailbox, hpost⟩ := hpost
      change (x.update (x.worker.post c).2).Kept
      rw [hpost]
      exact h.outside rfl rfl rfl h.receiving h.composed
    | dismiss => exact h.outside rfl rfl rfl h.receiving h.composed
    | cancel => exact h.outside rfl rfl rfl h.receiving h.composed.cancel

theorem Kept.run (henc : enc.Silent) (h : x.Kept) {moves : List (Move W)}
    (hmoves : ∀ move ∈ moves, move.Quiet) : (x.run enc moves).Kept := by
  induction moves generalizing x with
  | nil => exact h
  | cons move rest ih =>
    exact ih (h.step henc (hmoves move List.mem_cons_self))
      fun m hm => hmoves m (List.mem_cons_of_mem move hm)

end Crossing

end LiveMedia

import Mathlib.Data.List.Infix
import LiveMedia.Codec.Simulated

/-!
# How long simulated instances stay closed

Instances share a record that knows each instance that a fault of its own has closed, but only the
latest one that a crash has hit. So a fault closes an instance for ever, and a crash closes it until
a crash hits another.
-/

namespace LiveMedia
set_option autoImplicit false

namespace SimulatedCodec

/-- A call on the record, or on one of the encoders and decoders that share it. -/
inductive Call where
  | refuse (codec : String)
  | setReconfigureFails (fails : Bool)
  | setQueueSize (size : ℕ)
  | failNext
  | crash
  /-- From now on, what is given out is taken or not. -/
  | setOutlet (isOpen : Bool)
  | create (c : CodecConfig)
  | configureEncoder (c : CodecConfig) (i : ℕ)
  | configureDecoder (c : CodecConfig) (i : ℕ)
  | encode (media : Media) (f : Frame) (key : Bool) (i : ℕ)
  | decode (c : Chunk) (i : ℕ)
  | flush (media : Media) (i : ℕ)

def Call.creates : Call → Bool
  | create _ => true
  | _ => false

def step (w : SimulatedCodec) : Call → SimulatedCodec
  | .refuse codec => { w with unsupported := w.unsupported ++ [codec] }
  | .setReconfigureFails fails => { w with reconfigureFails := fails }
  | .setQueueSize size => { w with queueSize := size }
  | .failNext => { w with failNext := true }
  | .crash => w.crash
  | .setOutlet isOpen => { w with outletOpen := isOpen }
  | .create c => (w.create c).2
  | .configureEncoder c i => (w.configureEncoder c i).codec
  | .configureDecoder c i => (decoders.configure c i w).codec
  | .encode media f key i => (encode media f key i w).codec
  | .decode c i => (decode c i w).codec
  | .flush media i => ((encoders media).flush i w).codec

def run (w : SimulatedCodec) (calls : List Call) : SimulatedCodec := calls.foldl step w

/-- The instance that a call crashes, which is the latest. -/
def hit? (w : SimulatedCodec) : Call → Option ℕ
  | .crash => some w.created
  | _ => none

/-- The instance of a submission, if it was open and the submission failed. -/
def failing? (w : SimulatedCodec) (i : ℕ) (succeeded : Bool) : Option ℕ :=
  if w.isClosed i || succeeded then none else some i

/-- The instance that a call closes by a fault. -/
def fault? (w : SimulatedCodec) : Call → Option ℕ
  | .encode media f key i => w.failing? i (encode media f key i w).succeeded
  | .decode c i => w.failing? i (decode c i w).succeeded
  | _ => none

/-- The instances that crashes hit, in the order of the calls. -/
def hits (w : SimulatedCodec) : List Call → List ℕ
  | [] => []
  | call :: rest => (w.hit? call).toList ++ (w.step call).hits rest

/-- The instances that faults close. -/
def faults (w : SimulatedCodec) : List Call → List ℕ
  | [] => []
  | call :: rest => (w.fault? call).toList ++ (w.step call).faults rest

theorem state_eq_closed_iff {w : SimulatedCodec} {i : ℕ} :
    w.state i = .closed ↔ i ∈ w.failed ∨ w.crashed = some i := by
  unfold state
  simp only [Bool.or_eq_true, List.contains_iff_mem, beq_iff_eq, ite_eq_left_iff, reduceCtorEq,
    imp_false, not_not]

theorem isClosed_iff {w : SimulatedCodec} {i : ℕ} : w.isClosed i = true ↔ w.state i = .closed :=
  beq_iff_eq

theorem failing?_of_closed {w : SimulatedCodec} {i : ℕ} (h : w.state i = .closed) (j : ℕ)
    (succeeded : Bool) : w.failing? j succeeded ≠ some i := by
  unfold failing?
  intro heq
  split at heq
  · exact nomatch heq
  · next hopen =>
    obtain rfl := Option.some.inj heq
    exact hopen (by rw [isClosed_iff.mpr h, Bool.true_or])

section Submissions

variable {α : Type} {i : ℕ} {w : SimulatedCodec} {fault : String}
  {go : Unit → Reply SimulatedCodec α}

theorem submit_of_closed (h : w.state i = .closed) : submit i w fault go = .fault .closed w :=
  if_pos (isClosed_iff.mpr h)

/-- A submission that goes on to give something out can close its own instance and no other. -/
theorem submit_footprint {v : SimulatedCodec} {a : α} (hgo : go () = emit i a v)
    (hcrashed : v.crashed = w.crashed) (hfailed : v.failed = w.failed) :
    (submit i w fault go).codec.crashed = w.crashed ∧
      (submit i w fault go).codec.failed =
        (w.failing? i (submit i w fault go).succeeded).toList ++ w.failed := by
  unfold submit failing?
  cases w.isClosed i with
  | true => exact ⟨rfl, rfl⟩
  | false =>
    cases w.failNext with
    | true => exact ⟨rfl, rfl⟩
    | false =>
      simp only [Bool.false_eq_true, if_false, hgo, emit]
      cases v.outletOpen with
      | true => exact ⟨hcrashed, hfailed⟩
      | false => exact ⟨hcrashed, congrArg (i :: ·) hfailed⟩

end Submissions

section Steps

variable (w : SimulatedCodec)

theorem create_footprint (c : CodecConfig) :
    (w.create c).2.crashed = w.crashed ∧ (w.create c).2.failed = w.failed := by
  unfold create
  split <;> exact ⟨rfl, rfl⟩

theorem reconfigure_footprint {α : Type} (c : CodecConfig) :
    (reconfigure (α := α) c w).codec.crashed = w.crashed ∧
      (reconfigure (α := α) c w).codec.failed = w.failed := by
  unfold reconfigure
  split <;> exact ⟨rfl, rfl⟩

theorem configureEncoder_footprint (c : CodecConfig) (i : ℕ) :
    (w.configureEncoder c i).codec.crashed = w.crashed ∧
      (w.configureEncoder c i).codec.failed = w.failed := by
  unfold configureEncoder
  split
  · exact ⟨rfl, rfl⟩
  · exact w.reconfigure_footprint c

/-- All that a call can change of what closes instances. -/
theorem step_footprint (call : Call) :
    (w.step call).crashed = (w.hit? call).or w.crashed ∧
      (w.step call).failed = (w.fault? call).toList ++ w.failed := by
  cases call with
  | create c => exact w.create_footprint c
  | configureEncoder c i => exact w.configureEncoder_footprint c i
  | configureDecoder c i => exact w.reconfigure_footprint c
  | encode media f key i => exact submit_footprint (w := w) rfl rfl rfl
  | decode c i => exact submit_footprint (w := w) rfl rfl rfl
  | _ => exact ⟨rfl, rfl⟩

theorem fault?_of_closed {i : ℕ} (h : w.state i = .closed) (call : Call) :
    w.fault? call ≠ some i := by
  cases call with
  | encode media f key j => exact failing?_of_closed h j _
  | decode c j => exact failing?_of_closed h j _
  | _ => exact nofun

/-- An instance that is closed is open after a call just if the call is a crash that hits another,
and no fault has closed it. -/
theorem step_closed_iff {i : ℕ} (h : w.state i = .closed) (call : Call) :
    (w.step call).state i = .closed ↔ i ∈ w.failed ∨ ∀ j, w.hit? call = some j → j = i := by
  obtain ⟨hcrashed, hfailed⟩ := w.step_footprint call
  have hfault : i ∉ (w.fault? call).toList := by
    rw [Option.mem_toList]
    exact w.fault?_of_closed h call
  rw [state_eq_closed_iff, hcrashed, hfailed, List.mem_append, or_iff_right hfault]
  cases hhit : w.hit? call with
  | some j => simp only [Option.some_or, Option.some.injEq, forall_eq']
  | none =>
    rw [Option.none_or, ← state_eq_closed_iff]
    exact iff_of_true h (Or.inr nofun)

end Steps

theorem mem_failed_run (w : SimulatedCodec) (calls : List Call) (i : ℕ) :
    i ∈ (w.run calls).failed ↔ i ∈ w.faults calls ∨ i ∈ w.failed := by
  induction calls generalizing w with
  | nil => exact (or_iff_right List.not_mem_nil).symm
  | cons call rest ih =>
    change i ∈ ((w.step call).run rest).failed ↔ _
    rw [ih, (w.step_footprint call).2, faults, List.mem_append, List.mem_append]
    exact or_left_comm.trans or_assoc.symm

/-- The calls go on one by one, and the first crash that hits another instance decides. -/
theorem closed_throughout_iff {w : SimulatedCodec} {i : ℕ} (h : w.state i = .closed)
    (calls : List Call) :
    (∀ p, p <+: calls → (w.run p).state i = .closed) ↔
      i ∈ w.failed ∨ ∀ j ∈ w.hits calls, j = i := by
  induction calls generalizing w with
  | nil =>
    apply iff_of_true _ (Or.inr nofun)
    intro p hp
    rw [List.prefix_nil.mp hp]
    exact h
  | cons call rest ih =>
    have hstep := w.step_closed_iff h call
    have hlater : (∀ p, p <+: call :: rest → (w.run p).state i = .closed) ↔
        ∀ p, p <+: rest → ((w.step call).run p).state i = .closed := by
      constructor
      · intro hall p hp
        exact hall (call :: p) (List.cons_prefix_cons.mpr ⟨rfl, hp⟩)
      · intro hall p hp
        rcases List.prefix_cons_iff.mp hp with rfl | ⟨q, rfl, hq⟩
        · exact h
        · exact hall q hq
    rw [hlater, hits]
    simp only [List.mem_append, Option.mem_toList, or_imp, forall_and]
    by_cases hnext : (w.step call).state i = .closed
    · have hfailed : i ∈ (w.step call).failed ↔ i ∈ w.failed := by
        rw [(w.step_footprint call).2, List.mem_append, Option.mem_toList]
        exact or_iff_right (w.fault?_of_closed h call)
      rw [ih hnext, hfailed, or_and_left]
      exact (and_iff_right (hstep.mp hnext)).symm
    · apply iff_of_false
      · exact fun hall => hnext (hall [] List.nil_prefix)
      · rintro (hfailed | ⟨hhits, -⟩)
        · exact hnext (hstep.mpr (Or.inl hfailed))
        · exact hnext (hstep.mpr (Or.inr hhits))

/-! A crash hits the latest instance, so this one is not opened again before there is another. -/

section Latest

variable {w : SimulatedCodec}

theorem created_reconfigure {α : Type} (c : CodecConfig) :
    (reconfigure (α := α) c w).codec.created = w.created := by
  unfold reconfigure
  split <;> rfl

theorem created_configureEncoder (c : CodecConfig) (i : ℕ) :
    (w.configureEncoder c i).codec.created = w.created := by
  unfold configureEncoder
  split
  · rfl
  · exact created_reconfigure c

theorem created_submit {α : Type} {i : ℕ} {fault : String} {v : SimulatedCodec} {a : α}
    (hv : v.created = w.created) :
    (submit i w fault fun _ => emit i a v).codec.created = w.created := by
  unfold submit emit
  split
  · rfl
  · split
    · rfl
    · split <;> exact hv

theorem created_encode (media : Media) (f : Frame) (key : Bool) (i : ℕ) :
    (encode media f key i w).codec.created = w.created := created_submit rfl

theorem created_step {call : Call} (h : call.creates = false) :
    (w.step call).created = w.created := by
  cases call with
  | create c => cases h
  | configureEncoder c i => exact created_configureEncoder c i
  | configureDecoder c i => exact created_reconfigure c
  | encode media f key i => exact created_encode media f key i
  | decode c i => exact created_submit rfl
  | _ => rfl

theorem hit?_eq_created {call : Call} {j : ℕ} (h : w.hit? call = some j) : j = w.created := by
  cases call with
  | crash => exact (Option.some.inj h).symm
  | _ => cases h

theorem created_run {calls : List Call} (h : ∀ call ∈ calls, call.creates = false) :
    (w.run calls).created = w.created := by
  induction calls generalizing w with
  | nil => rfl
  | cons call rest ih =>
    obtain ⟨hcall, hrest⟩ := List.forall_mem_cons.mp h
    exact (ih hrest).trans (created_step hcall)

theorem latest_stays_closed {calls : List Call} (h : ∀ call ∈ calls, call.creates = false)
    (hclosed : w.state w.created = .closed) : (w.run calls).state w.created = .closed := by
  induction calls generalizing w with
  | nil => exact hclosed
  | cons call rest ih =>
    obtain ⟨hcall, hrest⟩ := List.forall_mem_cons.mp h
    have hnext : (w.step call).state w.created = .closed :=
      (w.step_closed_iff hclosed call).mpr (Or.inr fun _ => hit?_eq_created)
    rw [← created_step hcall] at hnext ⊢
    exact ih hrest hnext

end Latest

/-- An instance that is closed at some point of a history stays closed just if a fault had closed it
or no crash hits another. As long as it is closed, it refuses all that it is given, and nothing is
written down or given out. -/
theorem closed_for_ever_iff (before : List Call) {i : ℕ}
    (hclosed : (run {} before).state i = .closed) (after : List Call) :
    let w := run {} before
    ((∀ p, p <+: after → (w.run p).state i = .closed) ↔
      i ∈ faults {} before ∨ ∀ j ∈ w.hits after, j = i) ∧
    ∀ p, p <+: after → (w.run p).state i = .closed →
      (∀ media f key, encode media f key i (w.run p) = .fault .closed (w.run p)) ∧
      ∀ c, decode c i (w.run p) = .fault .closed (w.run p) := by
  intro w
  have hfaults : i ∈ w.failed ↔ i ∈ faults {} before := by
    rw [mem_failed_run]
    exact or_iff_left List.not_mem_nil
  constructor
  · rw [closed_throughout_iff hclosed, hfaults]
  · intro p _ hnow
    exact ⟨fun _ _ _ => submit_of_closed hnow, fun _ => submit_of_closed hnow⟩

namespace Closure

def config : CodecConfig where
  codec := "avc1"
  bitrate := 1000000
  framerate := 30.0

def frame : Frame := ⟨7, none, 2⟩

/-- The first instance is closed by a fault, and the second by a crash. -/
def bothClosed : List Call :=
  [.create config, .failNext, .encode .video frame true 1, .create config, .crash]

end Closure

open Closure in
/-- Of two closed instances, the one that a fault has closed stays closed when crashes go on, and
the other does so when they hit no third. -/
theorem closed_through_crashes :
    let w := run {} bothClosed
    w.state 1 = .closed ∧ w.state 2 = .closed ∧
    (∀ p, p <+: [.create config, .crash] → (w.run p).state 1 = .closed) ∧
    (∀ p, p <+: [.crash, .failNext] → (w.run p).state 2 = .closed) ∧
    encode .video frame true 1 w = .fault .closed w := by
  intro w
  have hfirst : w.state 1 = .closed := by decide
  have hsecond : w.state 2 = .closed := by decide
  have hfault : 1 ∈ faults {} bothClosed := by decide
  have honly : ∀ j ∈ w.hits [.crash, .failNext], j = 2 := by decide
  obtain ⟨hstays, hrefuses⟩ := closed_for_ever_iff bothClosed hfirst [.create config, .crash]
  refine ⟨hfirst, hsecond, hstays.mpr (Or.inl hfault), ?_, ?_⟩
  · exact (closed_for_ever_iff bothClosed hsecond [.crash, .failNext]).1.mpr (Or.inr honly)
  · exact (hrefuses [] List.nil_prefix hfirst).1 .video frame true

open Closure in
/-- A crash closes the first instance. The crash of the second opens it again: it takes a frame,
which is written down and comes out as a chunk. -/
theorem second_crash_reopens_first :
    let w := run {} [.create config, .crash]
    let v := w.run [.create config, .crash]
    let reply := encode .video frame true 1 v
    w.state 1 = .closed ∧ v.state 1 = .ready ∧ reply.succeeded = true ∧
    reply.codec.encoded = #[(7, true)] ∧ reply.emitted.length = 1 := by
  decide

end SimulatedCodec

end LiveMedia

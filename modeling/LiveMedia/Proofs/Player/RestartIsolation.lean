import Mathlib.Data.List.Infix
import Mathlib.Data.List.TakeWhile
import LiveMedia.Proofs.Player.Faultless
import LiveMedia.Proofs.Player.KeyframeWait

/-!
# A newer stream starts afresh

From its first object on, the newest stream is played as a new player would play it that is given
nothing but the objects of this stream. Of all that came before only the counts are left, and the
decoder in service, which is given the same chunks as a new one as long as no decoder fails.
-/

namespace LiveMedia
set_option autoImplicit false

variable {V W : Type}

namespace JitterBuffer

variable {α : Type}

/-- The buffer as it is but for what it has counted. -/
def uncounted (b : JitterBuffer α) : JitterBuffer α := { b with overflowDrops := 0, lateDrops := 0 }

@[simp] theorem entries_uncounted (b : JitterBuffer α) : b.uncounted.entries = b.entries := rfl

@[simp] theorem capacity_uncounted (b : JitterBuffer α) : b.uncounted.capacity = b.capacity := rfl

@[simp] theorem minDelay_uncounted (b : JitterBuffer α) : b.uncounted.minDelay = b.minDelay := rfl

@[simp] theorem isLate_uncounted (b : JitterBuffer α) (slot : Slot) :
    b.uncounted.isLate slot = b.isLate slot := rfl

theorem uncounted_push (b : JitterBuffer α) (now : ℕ) (slot : Slot) (payload : α) :
    (b.uncounted.push now slot payload).2.uncounted = (b.push now slot payload).2.uncounted := by
  rcases b.push_cases now slot payload with ⟨hlate, hp⟩ | ⟨hlate, hroom, hp⟩ |
    ⟨hlate, hfull, oldest, rest, hpl, hp⟩
  · rw [hp]
    unfold push
    rw [isLate_uncounted, hlate]
    rfl
  · have hfits : ¬ b.capacity < (place ⟨slot, now, payload⟩ b.entries).length := by
      rw [length_place]
      omega
    rw [hp]
    unfold push
    simp only [isLate_uncounted, hlate, entries_uncounted, capacity_uncounted, hfits, if_false,
      Bool.false_eq_true]
    rfl
  · have hover : b.capacity < (place ⟨slot, now, payload⟩ b.entries).length := by
      rw [length_place]
      omega
    rw [hpl] at hover
    rw [hp]
    unfold push
    simp only [isLate_uncounted, hlate, entries_uncounted, capacity_uncounted, hpl, hover, if_true,
      if_false, Bool.false_eq_true]
    rfl

theorem uncounted_pop? (b : JitterBuffer α) (now : ℕ) :
    b.uncounted.pop? now = (b.pop? now).map fun r => (r.1, r.2.uncounted) := by
  unfold pop?
  rw [entries_uncounted]
  cases b.entries with
  | nil => rfl
  | cons e rest =>
    by_cases hwait : now - e.enqueued < b.minDelay
    · simp only [minDelay_uncounted, hwait, if_true, Option.map_none]
    · simp only [minDelay_uncounted, hwait, if_false, Option.map_some]
      rfl

end JitterBuffer

namespace Intake

def uncounted (q : Intake) : Intake := { q with buffer := q.buffer.uncounted }

/-- What an intake was when it was new. -/
def blank (q : Intake) : Intake := { q with buffer := q.buffer.clear.uncounted, epoch := none }

/-- Takes in an object of the stream that is played. -/
def accept (q : Intake) (now : ℕ) (o : Received) : Intake :=
  if o.isControl && q.media.discardsControl then q
  else { q with buffer := (q.buffer.push now ⟨o.group, o.object⟩ o).2 }

theorem receive_of_none {q : Intake} {o : Received} (h : q.follow? o.epoch = none) (now : ℕ) :
    q.receive now o = q := by
  unfold receive
  rw [h]

theorem receive_of_some {q r : Intake} {o : Received} (h : q.follow? o.epoch = some r) (now : ℕ) :
    q.receive now o = r.accept now o := by
  unfold receive
  rw [h]
  rfl

variable {q r : Intake}

theorem buffer_congr (h : q.uncounted = r.uncounted) : q.buffer.uncounted = r.buffer.uncounted :=
  congrArg buffer h

theorem epoch_congr (h : q.uncounted = r.uncounted) : q.epoch = r.epoch :=
  show q.uncounted.epoch = r.uncounted.epoch from congrArg epoch h

theorem media_congr (h : q.uncounted = r.uncounted) : q.media = r.media :=
  show q.uncounted.media = r.uncounted.media from congrArg media h

theorem accept_congr (h : q.uncounted = r.uncounted) (now : ℕ) (o : Received) :
    (q.accept now o).uncounted = (r.accept now o).uncounted := by
  have hbuffer : (q.buffer.push now ⟨o.group, o.object⟩ o).2.uncounted =
      (r.buffer.push now ⟨o.group, o.object⟩ o).2.uncounted := by
    rw [← JitterBuffer.uncounted_push, buffer_congr h, JitterBuffer.uncounted_push]
  unfold accept
  rw [media_congr h]
  split
  · exact h
  · unfold uncounted
    simp only [hbuffer, epoch_congr h]

theorem pop?_congr (h : q.uncounted = r.uncounted) (now : ℕ) :
    (q.buffer.pop? now).map (fun x => (x.1, x.2.uncounted)) =
      (r.buffer.pop? now).map fun x => (x.1, x.2.uncounted) := by
  rw [← JitterBuffer.uncounted_pop?, buffer_congr h, JitterBuffer.uncounted_pop?]

theorem released_congr (h : q.uncounted = r.uncounted) (now : ℕ) :
    (q.buffer.pop? now).map Prod.fst = (r.buffer.pop? now).map Prod.fst := by
  have hfst := congrArg (Option.map Prod.fst) (pop?_congr h now)
  rwa [Option.map_map, Option.map_map] at hfst

theorem tick_congr (h : q.uncounted = r.uncounted) (now : ℕ) :
    (q.tick now).uncounted = (r.tick now).uncounted := by
  have hpop := pop?_congr h now
  unfold tick
  cases hq : q.buffer.pop? now with
  | none =>
    rw [hq, Option.map_none, eq_comm, Option.map_eq_none_iff] at hpop
    rw [hpop]
    exact h
  | some x =>
    rw [hq, Option.map_some, eq_comm, Option.map_eq_some_iff] at hpop
    obtain ⟨y, hr, hxy⟩ := hpop
    rw [hr]
    unfold uncounted
    simp only [(Prod.mk.injEq .. ▸ hxy).2, media_congr h, epoch_congr h]

/-- An object of an older stream changes nothing. -/
theorem receive_of_stale {o : Received} {e : ℕ} (hq : q.epoch = some e) (ho : o.epoch < e)
    (now : ℕ) : q.receive now o = q :=
  receive_of_none (by simp [follow?, hq, ho]) now

theorem receive_of_current {o : Received} (hq : q.epoch = some o.epoch) (now : ℕ) :
    q.receive now o = q.accept now o :=
  receive_of_some (by simp [follow?, hq]) now

/-- The first object of a stream finds what a new intake would be. -/
theorem receive_of_newer (hnew : q.epoch = none → q.uncounted = q.blank)
    {o : Received} (ho : ∀ current, q.epoch = some current → current < o.epoch) (now : ℕ) :
    (q.receive now o).uncounted = (q.blank.receive now o).uncounted := by
  obtain ⟨r, hfollow, hr⟩ : ∃ r, q.follow? o.epoch = some r ∧
      r.uncounted = uncounted { q.blank with epoch := some o.epoch } := by
    rcases q.follow?_cases o.epoch with ⟨c, hc, hlt, _⟩ | ⟨hnone | hsome, hf⟩ | ⟨_, _, _, hf⟩
    · exact absurd (ho c hc) hlt.not_gt
    · exact ⟨_, hf, congrArg (fun s : Intake => { s with epoch := some o.epoch }) (hnew hnone)⟩
    · exact absurd (ho _ hsome) (lt_irrefl _)
    · exact ⟨_, hf, rfl⟩
  rw [receive_of_some hfollow, receive_of_some (q := q.blank) rfl]
  exact accept_congr hr now o

theorem epoch_accept (q : Intake) (now : ℕ) (o : Received) : (q.accept now o).epoch = q.epoch := by
  unfold accept
  split <;> rfl

theorem epoch_receive_ne_none (q : Intake) (now : ℕ) (o : Received) :
    (q.receive now o).epoch ≠ none := by
  rcases q.follow?_cases o.epoch with ⟨c, hc, _, hf⟩ | ⟨_, hf⟩ | ⟨_, _, _, hf⟩
  · rw [receive_of_none hf, hc]
    exact Option.some_ne_none c
  all_goals
    rw [receive_of_some hf, epoch_accept]
    exact Option.some_ne_none o.epoch

theorem blank_receive (q : Intake) (now : ℕ) (o : Received) :
    (q.receive now o).blank = q.blank := by
  have haccept : ∀ r : Intake, (r.accept now o).blank = r.blank := by
    intro r
    unfold accept
    split
    · rfl
    · rcases r.buffer.push_cases now ⟨o.group, o.object⟩ o with
        ⟨_, hp⟩ | ⟨_, _, hp⟩ | ⟨_, _, _, _, _, hp⟩
      all_goals rw [hp]; rfl
  rcases q.follow?_cases o.epoch with ⟨_, _, _, hf⟩ | ⟨_, hf⟩ | ⟨_, _, _, hf⟩
  · rw [receive_of_none hf]
  · rw [receive_of_some hf, haccept]
    rfl
  · rw [receive_of_some hf, haccept]
    rfl

theorem blank_tick (q : Intake) (now : ℕ) : (q.tick now).blank = q.blank := by
  unfold tick
  cases hp : q.buffer.pop? now with
  | none => rfl
  | some x =>
    obtain ⟨_, _, _, hb⟩ := JitterBuffer.pop?_eq_some_iff.mp hp
    simp only [hb]
    rfl

theorem blank_step (q : Intake) (i : Player.Input W) : (q.step i).blank = q.blank := by
  cases i with
  | receive now o => exact q.blank_receive now o
  | tick now => exact q.blank_tick now
  | render => rfl
  | codec run => rfl
  | view n => rfl
  | closeScreen => rfl

end Intake

def DecoderCall.succeeds : DecoderCall → Bool
  | create made => made.isSome
  | configure _ ok => ok
  | decode _ _ ok => ok

def Milestone.succeeds : Milestone → Bool
  | restart => true
  | call c => c.succeeds

namespace Player

namespace Input

/-- What an input brings to a stream of this epoch: its objects, and the time. -/
def ofEpoch? (epoch : ℕ) : Input W → Option (Input V)
  | receive now o => if o.epoch = epoch then some (.receive now o) else none
  | tick now => some (.tick now)
  | _ => none

def bringsEpoch (epoch : ℕ) (i : Input W) : Bool := i.object?.any fun o => o.epoch = epoch

def tick? : Input W → Option ℕ
  | tick now => some now
  | _ => none

end Input

section Streams

variable (epoch : ℕ) (inputs : List (Input W))

def ofEpoch : List (Input V) := inputs.filterMap (Input.ofEpoch? epoch)

def beforeEpoch : List (Input W) := inputs.takeWhile fun i => !i.bringsEpoch epoch

/-- From the first object of this epoch on. -/
def sinceEpoch : List (Input W) := inputs.dropWhile fun i => !i.bringsEpoch epoch

end Streams

section Streams

variable {epoch : ℕ} {inputs : List (Input W)}

theorem ofEpoch_append (epoch : ℕ) (first second : List (Input W)) :
    ofEpoch (V := V) epoch (first ++ second) = ofEpoch epoch first ++ ofEpoch epoch second :=
  List.filterMap_append

theorem ofEpoch_same {o : Received} (h : o.epoch = epoch) (now : ℕ) :
    ofEpoch (V := V) epoch [Input.receive (W := W) now o] = [.receive now o] := by
  simp [ofEpoch, Input.ofEpoch?, h]

theorem ofEpoch_other {o : Received} (h : o.epoch ≠ epoch) (now : ℕ) :
    ofEpoch (V := V) epoch [Input.receive (W := W) now o] = [] := by
  simp [ofEpoch, Input.ofEpoch?, h]

theorem epoch_le_since (h : ∀ o ∈ arrivals inputs, o.epoch ≤ epoch) :
    ∀ o ∈ arrivals (sinceEpoch epoch inputs), o.epoch ≤ epoch := by
  intro o ho
  obtain ⟨i, hi, hobject⟩ := List.mem_filterMap.mp ho
  exact h o (List.mem_filterMap.mpr ⟨i, (List.dropWhile_suffix _).subset hi, hobject⟩)

theorem epoch_ne_before :
    ∀ o ∈ arrivals (beforeEpoch epoch inputs), o.epoch ≠ epoch := by
  intro o ho
  obtain ⟨i, hi, hobject⟩ := List.mem_filterMap.mp ho
  have hother := List.mem_takeWhile_imp hi
  rw [Input.bringsEpoch, hobject, Option.any_some, Bool.not_eq_true', decide_eq_false_iff_not]
    at hother
  exact hother

theorem epoch_lt_before (h : ∀ o ∈ arrivals inputs, o.epoch ≤ epoch) :
    ∀ o ∈ arrivals (beforeEpoch epoch inputs), o.epoch < epoch := by
  intro o ho
  refine lt_of_le_of_ne (h o ?_) (epoch_ne_before o ho)
  obtain ⟨i, hi, hobject⟩ := List.mem_filterMap.mp ho
  exact List.mem_filterMap.mpr ⟨i, (List.takeWhile_prefix _).subset hi, hobject⟩

theorem arrivals_ofEpoch_before :
    arrivals (ofEpoch (V := V) epoch (beforeEpoch epoch inputs)) = [] := by
  apply List.eq_nil_iff_forall_not_mem.mpr
  intro o ho
  obtain ⟨j, hj, hobject⟩ := List.mem_filterMap.mp ho
  obtain ⟨i, hi, hij⟩ := List.mem_filterMap.mp hj
  cases i with
  | receive now x =>
    rw [Input.ofEpoch?] at hij
    split at hij
    · rename_i heq
      exact epoch_ne_before x (List.mem_filterMap.mpr ⟨_, hi, rfl⟩) heq
    · cases hij
  | tick now =>
    cases hij
    cases hobject
  | _ => cases hij

theorem sinceEpoch_cases (epoch : ℕ) (inputs : List (Input W)) :
    sinceEpoch epoch inputs = [] ∨
      ∃ now o after, sinceEpoch epoch inputs = .receive now o :: after ∧ o.epoch = epoch := by
  have hfirst := List.head?_dropWhile_not (fun i : Input W => !i.bringsEpoch epoch) inputs
  unfold sinceEpoch
  cases hsince : inputs.dropWhile fun i => !i.bringsEpoch epoch with
  | nil => exact Or.inl rfl
  | cons i after =>
    rw [hsince] at hfirst
    have hbrings : i.bringsEpoch epoch = true := by simpa using hfirst
    cases i with
    | receive now o =>
      exact Or.inr ⟨now, o, after, rfl, by simpa [Input.bringsEpoch, Input.object?] using hbrings⟩
    | _ => cases hbrings

theorem epoch_le_of_cons {i : Input W} (h : ∀ o ∈ arrivals (i :: inputs), o.epoch ≤ epoch) :
    (∀ o, i.object? = some o → o.epoch ≤ epoch) ∧ ∀ o ∈ arrivals inputs, o.epoch ≤ epoch := by
  unfold arrivals at h ⊢
  constructor
  · intro o ho
    exact h o (List.mem_filterMap.mpr ⟨i, List.mem_cons_self, ho⟩)
  · intro o ho
    obtain ⟨x, hx, hox⟩ := List.mem_filterMap.mp ho
    exact h o (List.mem_filterMap.mpr ⟨x, List.mem_cons_of_mem i hx, hox⟩)

end Streams

section Observation

variable (dec : DecoderFamily W)

/-- The ticks of a run, each with the entry that it plays. -/
def playout (p : Player W) : List (Input W) → List (ℕ × Option (JitterEntry Received))
  | [] => []
  | i :: rest => (i.tick?.map fun now => (now, p.released? i)).toList ++ (p.step dec i).playout rest

/-- The chunks that decoders are given in a run. -/
def submitted (p : Player W) (inputs : List (Input W)) : List Chunk :=
  ((p.history dec inputs).filterMap Milestone.given?).map fun given => given.2.1

/-- No decoder fails to be made, to take its configuration or to decode, and none is found
closed. -/
structure Unfailing (p : Player W) (inputs : List (Input W)) : Prop where
  succeeds : ∀ m ∈ p.history dec inputs, m.succeeds = true
  stays_open : ∀ first ∈ inputs.inits,
    (p.run dec first).openDecoder dec = (p.run dec first).decoder

end Observation

section Splitting

variable (dec : DecoderFamily W) (p : Player W) (first second : List (Input W))

theorem playout_append : p.playout dec (first ++ second) =
    p.playout dec first ++ (p.run dec first).playout dec second := by
  induction first generalizing p with
  | nil => rfl
  | cons i rest ih =>
    rw [List.cons_append, playout, playout, run_cons, ih, List.append_assoc]

theorem history_append : p.history dec (first ++ second) =
    p.history dec first ++ (p.run dec first).history dec second := by
  induction first generalizing p with
  | nil => rfl
  | cons i rest ih =>
    rw [List.cons_append, history, history, run_cons, ih, List.append_assoc]

theorem submitted_append : p.submitted dec (first ++ second) =
    p.submitted dec first ++ (p.run dec first).submitted dec second := by
  unfold submitted
  rw [history_append, List.filterMap_append, List.map_append]

variable {dec p first second}

theorem Unfailing.split (h : p.Unfailing dec (first ++ second)) :
    p.Unfailing dec first ∧ (p.run dec first).Unfailing dec second := by
  constructor
  · refine ⟨fun m hm => h.succeeds m ?_, fun l hl => h.stays_open l ?_⟩
    · rw [history_append]
      exact List.mem_append_left _ hm
    · rw [List.mem_inits] at hl ⊢
      exact hl.trans (List.prefix_append first second)
  · refine ⟨fun m hm => h.succeeds m ?_, fun l hl => ?_⟩
    · rw [history_append]
      exact List.mem_append_right _ hm
    · rw [← run_append]
      apply h.stays_open
      rw [List.mem_inits] at hl ⊢
      exact (List.prefix_append_right_inj first).mpr hl

end Splitting

section New

/-- As long as nothing has been received, nothing is buffered or decoded. -/
def Untouched (p : Player W) : Prop :=
  p.epoch = none → p.intake.uncounted = p.intake.blank ∧ p.decoding = false

variable (dec : DecoderFamily W) {p : Player W}

theorem untouched_new (settings : PlaySettings) (codec : W) (config : CodecConfig)
    (screen : Screen) (start : ℕ) :
    (Player.new settings codec config screen start).Untouched := fun _ => ⟨rfl, rfl⟩

/-- Only a tick and a newer stream change whether a player decodes. -/
theorem decoding_step (p : Player W) {i : Input W} (htick : i.tick? = none)
    (hnewer : ∀ o, i.object? = some o → p.epoch.any (· < o.epoch) = false) :
    (p.step dec i).decoding = p.decoding := by
  cases i with
  | receive now o =>
    apply (receive_decoding p now o).2.trans
    rw [hnewer o rfl, Bool.not_false, Bool.and_true]
  | tick now => cases htick
  | render =>
    obtain ⟨_, _, _, _, _, hr⟩ := renderOutputs_footprint p
    change p.renderOutputs.decoding = p.decoding
    rw [hr]
  | codec run =>
    obtain ⟨_, _, hc⟩ := actOnCodec_footprint p run
    change (p.actOnCodec run).decoding = p.decoding
    rw [hc]
  | view n => rfl
  | closeScreen => rfl

theorem Untouched.step (h : p.Untouched) (i : Input W) : (p.step dec i).Untouched := by
  have hquiet : (p.step dec i).intake = p.intake → i.tick? = none → i.object? = none →
      (p.step dec i).Untouched := by
    intro hintake htick hobject hepoch
    rw [decoding_step dec p htick fun o ho => by rw [hobject] at ho; cases ho]
    rw [hintake]
    exact h ((congrArg Intake.epoch hintake).symm.trans hepoch)
  cases i with
  | receive now o =>
    intro hepoch
    have hintake := congrArg Intake.epoch (intake_receive p now o)
    exact absurd (hintake.symm.trans hepoch) (p.intake.epoch_receive_ne_none now o)
  | tick now =>
    intro hepoch
    rw [epoch_step dec rfl] at hepoch
    have hentries : p.buffer.entries = [] :=
      congrArg (fun q : Intake => q.buffer.entries) (h hepoch).1
    have hpop : p.buffer.pop? now = none := by
      unfold JitterBuffer.pop?
      rw [hentries]
    change (p.tick dec now).2.intake.uncounted = (p.tick dec now).2.intake.blank ∧
      (p.tick dec now).2.decoding = false
    rw [tick_of_pop?_none dec hpop, intake_renderOutputs]
    obtain ⟨_, _, _, _, _, hr⟩ := renderOutputs_footprint p
    rw [hr]
    exact h hepoch
  | render => exact hquiet (intake_step dec p _) rfl rfl
  | codec run => exact hquiet (intake_step dec p _) rfl rfl
  | view n => exact hquiet (intake_step dec p _) rfl rfl
  | closeScreen => exact hquiet (intake_step dec p _) rfl rfl

/-- The first object of a stream makes a player wait for a key chunk. -/
theorem Untouched.decoding_receive (h : p.Untouched) {o : Received}
    (ho : ∀ current, p.epoch = some current → current < o.epoch) (now : ℕ) :
    (p.receive now o).decoding = false := by
  rw [(receive_decoding p now o).2]
  cases hepoch : p.epoch with
  | none => rw [(h hepoch).2, Bool.false_and]
  | some current => simp [ho current hepoch]

theorem Untouched.run (h : p.Untouched) (inputs : List (Input W)) :
    (p.run dec inputs).Untouched := by
  induction inputs generalizing p with
  | nil => exact h
  | cons i rest ih => exact ih (h.step dec i)

theorem blank_run (p : Player W) (inputs : List (Input W)) :
    (p.run dec inputs).intake.blank = p.intake.blank := by
  induction inputs generalizing p with
  | nil => rfl
  | cons i rest ih => rw [run_cons, ih, intake_step, Intake.blank_step]

/-- Before the first object of a stream, all epochs are older. -/
theorem epoch_lt_of_run {epoch : ℕ} (hp : p.epoch = none) {inputs : List (Input W)}
    (h : ∀ o ∈ arrivals inputs, o.epoch < epoch) (current : ℕ)
    (hcur : (p.run dec inputs).epoch = some current) : current < epoch := by
  have hnone : Intake.Newest ∅ p.epoch := by
    rw [hp]
    rfl
  have hnewest := newest_run dec hnone inputs
  rw [Set.empty_union, hcur] at hnewest
  obtain ⟨⟨o, ho, rfl⟩, _⟩ := hnewest
  exact h o ho

end New

/-- Two players in one stream with the same entries before them, whatever they have counted. -/
structure Alike (epoch : ℕ) (p : Player W) (q : Player V) : Prop where
  intake : p.intake.uncounted = q.intake.uncounted
  epoch_eq : p.epoch = some epoch

section Following

variable {dec : DecoderFamily W} {dec' : DecoderFamily V} {p : Player W} {q : Player V} {epoch : ℕ}

namespace Alike

/-- At the first object of a stream it does not matter what a player has been through. -/
theorem first {o : Received} (hp : p.Untouched) (hq : q.Untouched)
    (hpe : ∀ current, p.epoch = some current → current < o.epoch)
    (hqe : ∀ current, q.epoch = some current → current < o.epoch)
    (hblank : p.intake.blank = q.intake.blank) (now : ℕ) :
    (p.receive now o).Alike o.epoch (q.receive now o) := by
  have hpi := Intake.receive_of_newer (q := p.intake) (fun h => (hp h).1) hpe now
  have hqi := Intake.receive_of_newer (q := q.intake) (fun h => (hq h).1) hqe now
  rw [← hblank] at hqi
  rw [← intake_receive] at hpi hqi
  have hepoch : (p.intake.blank.receive now o).epoch = some o.epoch := by
    rw [Intake.receive_of_some (q := p.intake.blank) rfl, Intake.epoch_accept]
  exact ⟨hpi.trans hqi.symm, (Intake.epoch_congr hpi).trans hepoch⟩

theorem epoch_right (h : p.Alike epoch q) : q.epoch = some epoch :=
  (Intake.epoch_congr h.intake).symm.trans h.epoch_eq

theorem step (dec : DecoderFamily W) (dec' : DecoderFamily V) (h : p.Alike epoch q) {i : Input W}
    (hi : ∀ o, i.object? = some o → o.epoch ≤ epoch) :
    (p.step dec i).Alike epoch (q.run dec' (ofEpoch epoch [i])) ∧
      p.playout dec [i] = q.playout dec' (ofEpoch epoch [i]) := by
  have hkept : (p.step dec i).intake = p.intake → ofEpoch (V := V) epoch [i] = [] →
      i.tick? = none → (p.step dec i).Alike epoch (q.run dec' (ofEpoch epoch [i])) ∧
        p.playout dec [i] = q.playout dec' (ofEpoch epoch [i]) := by
    intro hintake hnone htick
    have hplayout : p.playout dec [i] = [] := by
      unfold playout
      rw [htick]
      rfl
    rw [hnone, hplayout]
    exact ⟨⟨hintake ▸ h.intake, (congrArg Intake.epoch hintake).trans h.epoch_eq⟩, rfl⟩
  cases i with
  | receive now o =>
    by_cases heq : o.epoch = epoch
    · rw [ofEpoch_same heq]
      subst heq
      refine ⟨⟨?_, ?_⟩, rfl⟩
      · change (p.receive now o).intake.uncounted = (q.receive now o).intake.uncounted
        rw [intake_receive, intake_receive, Intake.receive_of_current h.epoch_eq,
          Intake.receive_of_current h.epoch_right]
        exact Intake.accept_congr h.intake now o
      · change (p.receive now o).intake.epoch = some o.epoch
        rw [intake_receive, Intake.receive_of_current h.epoch_eq, Intake.epoch_accept]
        exact h.epoch_eq
    · apply hkept
      · change (p.receive now o).intake = p.intake
        rw [intake_receive]
        exact Intake.receive_of_stale h.epoch_eq (lt_of_le_of_ne (hi o rfl) heq) now
      · exact ofEpoch_other heq now
      · rfl
  | tick now =>
    refine ⟨⟨?_, ?_⟩, ?_⟩
    · change (p.tick dec now).2.intake.uncounted = (q.tick dec' now).2.intake.uncounted
      rw [intake_tick, intake_tick]
      exact Intake.tick_congr h.intake now
    · rw [epoch_step dec rfl]
      exact h.epoch_eq
    · exact congrArg (fun e => [(now, e)]) (Intake.released_congr h.intake now)
  | render => exact hkept (intake_step dec p _) rfl rfl
  | codec run => exact hkept (intake_step dec p _) rfl rfl
  | view n => exact hkept (intake_step dec p _) rfl rfl
  | closeScreen => exact hkept (intake_step dec p _) rfl rfl

end Alike

/-- When nothing fails, a chunk is given to a decoder if chunks are decoded or if it is a key chunk,
and from a key chunk on they are. -/
theorem Fate.of_unfailing {decoder opened decoder' : Option ℕ} {decoding decoding' : Bool}
    {c? : Option Chunk} {calls : List DecoderCall} {discards : ℕ}
    (hfate : Fate decoder opened decoding c? calls decoder' decoding' discards)
    (hopen : decoding = true → opened.isSome = true)
    (hcalls : ∀ call ∈ calls, call.succeeds = true) :
    (calls.filterMap DecoderCall.given?).map (fun given => given.2.1) =
        c?.toList.filter (fun c => decoding || c.isKey) ∧
      decoding' = (decoding || c?.any Chunk.isKey) := by
  have hdelta : ∀ c : Chunk, c.kind = .delta → c.isKey = false := by
    intro c hkind
    unfold Chunk.isKey
    rw [hkind]
    rfl
  cases hfate with
  | idle => exact ⟨rfl, (Bool.or_false _).symm⟩
  | waits hstate hkind => simp [hstate, hdelta _ hkind]
  | lost hstate hkind hshut =>
    rw [hshut] at hopen
    exact absurd (hopen hstate) Bool.false_ne_true
  | @kept c i ok hstate hcurrent =>
    obtain rfl : decoding' = true := hcalls _ (List.mem_singleton_self _)
    have hgiven : (decoding || c.isKey) = true := by
      rw [Bool.or_eq_true, Chunk.isKey_iff]
      exact hstate
    simp [hgiven, DecoderCall.given?]
  | refused hkind hshut => exact absurd (hcalls _ (List.mem_singleton_self _)) Bool.false_ne_true
  | unfit i hkind hshut =>
    exact absurd (hcalls (.configure i false) (by simp)) Bool.false_ne_true
  | @renewed c i ok setup hsetup hkind hshut =>
    obtain rfl : decoding' = true := hcalls (.decode i c decoding') (by simp)
    have hkey := (Chunk.isKey_iff c).mpr hkind
    have hgiven : (DecoderCall.create (some i) :: setup ++ [DecoderCall.decode i c true]).filterMap
        DecoderCall.given? = [(i, c, true)] := by
      rcases hsetup with rfl | rfl <;> rfl
    rw [hgiven]
    simp [hkey]

theorem submitted_tick (hp : ∃ history, p.Remembers history) {now : ℕ}
    (h : p.Unfailing dec [.tick now]) :
    p.submitted dec [.tick now] =
        (p.dueChunk? now).toList.filter (fun c => p.decoding || c.isKey) ∧
      (p.step dec (.tick now)).decoding = (p.decoding || (p.dueChunk? now).any Chunk.isKey) := by
  obtain ⟨history, hremembers⟩ := hp
  obtain ⟨discards, hfate, _⟩ := p.tick_fate dec now
  have hopen : p.openDecoder dec = p.decoder := h.stays_open [] (by simp)
  have hmilestones : p.history dec [.tick now] = (p.calls dec now).map .call := List.append_nil _
  have hcalls : ∀ call ∈ p.calls dec now, call.succeeds = true := by
    intro call hcall
    apply h.succeeds (.call call)
    rw [hmilestones]
    exact List.mem_map_of_mem hcall
  obtain ⟨hgiven, hdecoding⟩ := hfate.of_unfailing (hopen ▸ hremembers.decoder) hcalls
  refine ⟨?_, hdecoding⟩
  unfold submitted
  rw [hmilestones, List.filterMap_map]
  exact hgiven

/-- An input that is no tick gives the decoders nothing. -/
theorem submitted_of_no_tick {i : Input W} (htick : i.tick? = none) : p.submitted dec [i] = [] := by
  unfold submitted history
  rw [history, List.append_nil]
  cases i with
  | receive now o =>
    have hmilestones : p.milestones dec (.receive now o) =
        if p.epoch.any (· < o.epoch) then [Milestone.restart] else [] := rfl
    rw [hmilestones]
    split <;> rfl
  | tick now => cases htick
  | render => rfl
  | codec run => rfl
  | view n => rfl
  | closeScreen => rfl

/-- Nor does it in a player of one stream, where objects of other streams are left out. -/
theorem quiet_ofEpoch (hepoch : q.epoch = some epoch) {i : Input W} (htick : i.tick? = none) :
    (q.run dec' (ofEpoch epoch [i])).decoding = q.decoding ∧
      q.submitted dec' (ofEpoch epoch [i]) = [] := by
  have hnothing : (q.run dec' []).decoding = q.decoding ∧ q.submitted dec' [] = [] := ⟨rfl, rfl⟩
  cases i with
  | receive now o =>
    by_cases heq : o.epoch = epoch
    · have hsame : ∀ x, (Input.receive (W := V) now o).object? = some x →
          q.epoch.any (· < x.epoch) = false := by
        rintro _ ⟨⟩
        rw [hepoch, heq, Option.any_some, decide_eq_false_iff_not]
        exact lt_irrefl epoch
      rw [ofEpoch_same heq]
      exact ⟨decoding_step dec' q (i := .receive now o) rfl hsame, submitted_of_no_tick rfl⟩
    · rw [ofEpoch_other heq]
      exact hnothing
  | tick now => cases htick
  | render => exact hnothing
  | codec run => exact hnothing
  | view n => exact hnothing
  | closeScreen => exact hnothing

/-- Moreover both wait for a key chunk, or neither does. -/
structure Abreast (epoch : ℕ) (p : Player W) (q : Player V) : Prop extends p.Alike epoch q where
  decoding : p.decoding = q.decoding
  first : ∃ history, p.Remembers history
  second : ∃ history, q.Remembers history

theorem Abreast.step (h : p.Abreast epoch q) {i : Input W}
    (hi : ∀ o, i.object? = some o → o.epoch ≤ epoch) (hp : p.Unfailing dec [i])
    (hq : q.Unfailing dec' (ofEpoch epoch [i])) :
    (p.step dec i).Abreast epoch (q.run dec' (ofEpoch epoch [i])) ∧
      p.submitted dec [i] = q.submitted dec' (ofEpoch epoch [i]) := by
  obtain ⟨halike, _⟩ := h.toAlike.step dec dec' hi
  obtain ⟨_, hpast⟩ := h.first
  obtain ⟨_, hpast'⟩ := h.second
  suffices hboth : (p.step dec i).decoding = (q.run dec' (ofEpoch epoch [i])).decoding ∧
      p.submitted dec [i] = q.submitted dec' (ofEpoch epoch [i]) from
    ⟨⟨halike, hboth.1, ⟨_, hpast.step dec i⟩, ⟨_, hpast'.run dec' _⟩⟩, hboth.2⟩
  cases htick : i.tick? with
  | none =>
    have hleft : (p.step dec i).decoding = p.decoding := by
      apply decoding_step dec p htick
      intro o ho
      rw [h.epoch_eq, Option.any_some, decide_eq_false_iff_not]
      exact (hi o ho).not_gt
    obtain ⟨hright, hnone⟩ := quiet_ofEpoch h.epoch_right htick
    rw [hleft, hright, submitted_of_no_tick htick, hnone]
    exact ⟨h.decoding, rfl⟩
  | some now =>
    obtain rfl : i = .tick now := by
      cases i with
      | tick time =>
        cases htick
        rfl
      | _ => cases htick
    have hdue : p.dueChunk? now = q.dueChunk? now := by
      rw [← newChunk?_tick, ← newChunk?_tick]
      exact congrArg (fun e => e.bind fun x : JitterEntry Received => x.payload.chunk?)
        (Intake.released_congr h.intake now)
    obtain ⟨hsubmitted, hdecoding⟩ := submitted_tick h.first hp
    obtain ⟨hsubmitted', hdecoding'⟩ := submitted_tick h.second hq
    rw [hdue, h.decoding] at hsubmitted hdecoding
    exact ⟨hdecoding.trans hdecoding'.symm, hsubmitted.trans hsubmitted'.symm⟩

theorem Alike.playout_eq (h : p.Alike epoch q) {inputs : List (Input W)}
    (hinputs : ∀ o ∈ arrivals inputs, o.epoch ≤ epoch) :
    p.playout dec inputs = q.playout dec' (ofEpoch epoch inputs) := by
  induction inputs generalizing p q with
  | nil => rfl
  | cons i rest ih =>
    obtain ⟨hnext, hone⟩ := h.step dec dec' (epoch_le_of_cons hinputs).1
    rw [← List.singleton_append, ofEpoch_append, playout_append, playout_append, hone]
    exact congrArg _ (ih hnext (epoch_le_of_cons hinputs).2)

theorem Abreast.submitted_eq (h : p.Abreast epoch q) {inputs : List (Input W)}
    (hinputs : ∀ o ∈ arrivals inputs, o.epoch ≤ epoch) (hp : p.Unfailing dec inputs)
    (hq : q.Unfailing dec' (ofEpoch epoch inputs)) :
    p.submitted dec inputs = q.submitted dec' (ofEpoch epoch inputs) := by
  induction inputs generalizing p q with
  | nil => rfl
  | cons i rest ih =>
    rw [← List.singleton_append] at hp hq ⊢
    rw [ofEpoch_append] at hq ⊢
    obtain ⟨hnext, hone⟩ := h.step (epoch_le_of_cons hinputs).1 hp.split.1 hq.split.1
    rw [submitted_append, submitted_append, hone]
    exact congrArg _ (ih hnext (epoch_le_of_cons hinputs).2 hp.split.2 hq.split.2)

end Following

/-- From the first object of the newest stream on, a player plays at each tick what a new player
plays that is given the objects of this stream and the ticks of the whole run, whatever else happens
to the first one. As long as no decoder of either fails, both give the same chunks to decoders. -/
theorem restart_isolation (dec : DecoderFamily W) (dec' : DecoderFamily V)
    (settings : PlaySettings) (codec : W) (codec' : V) (config config' : CodecConfig)
    (screen screen' : Screen) (start start' : ℕ) {inputs : List (Input W)} {epoch : ℕ}
    (h : ∀ o ∈ arrivals inputs, o.epoch ≤ epoch) :
    let p := (Player.new settings codec config screen start).run dec (beforeEpoch epoch inputs)
    let q := (Player.new settings codec' config' screen' start').run dec'
      (ofEpoch epoch (beforeEpoch epoch inputs))
    let since := sinceEpoch epoch inputs
    p.playout dec since = q.playout dec' (ofEpoch epoch since) ∧
    (p.Unfailing dec since → q.Unfailing dec' (ofEpoch epoch since) →
      p.submitted dec since = q.submitted dec' (ofEpoch epoch since)) := by
  intro p q since
  have hle : ∀ o ∈ arrivals since, o.epoch ≤ epoch := epoch_le_since h
  rcases sinceEpoch_cases epoch inputs with hnone | ⟨now, o, after, hsome, rfl⟩
  · rw [show since = [] from hnone]
    exact ⟨rfl, fun _ _ => rfl⟩
  · rw [show since = .receive now o :: after from hsome] at hle ⊢
    have hone : ofEpoch (V := V) o.epoch (Input.receive (W := W) now o :: after) =
        .receive now o :: ofEpoch o.epoch after := by
      simp [ofEpoch, Input.ofEpoch?]
    have hp := (untouched_new settings codec config screen start).run dec
      (beforeEpoch o.epoch inputs)
    have hq := (untouched_new settings codec' config' screen' start').run dec'
      (ofEpoch o.epoch (beforeEpoch o.epoch inputs))
    have hpe : ∀ current, p.epoch = some current → current < o.epoch :=
      epoch_lt_of_run dec rfl (epoch_lt_before h)
    have hqe : ∀ current, q.epoch = some current → current < o.epoch := by
      apply epoch_lt_of_run dec' rfl
      rw [arrivals_ofEpoch_before]
      exact fun _ hx => absurd hx List.not_mem_nil
    have hblank : p.intake.blank = q.intake.blank := by
      rw [blank_run, blank_run]
      rfl
    have halike : (p.receive now o).Alike o.epoch (q.receive now o) :=
      .first hp hq hpe hqe hblank now
    have hrest := (epoch_le_of_cons hle).2
    have hremembers := remembers_new settings codec config screen start
    have hremembers' := remembers_new settings codec' config' screen' start'
    rw [hone]
    refine ⟨halike.playout_eq hrest, fun hu hu' => ?_⟩
    rw [← List.singleton_append] at hu hu' ⊢
    rw [← List.singleton_append (l := ofEpoch o.epoch after)]
    have habreast : (p.receive now o).Abreast o.epoch (q.receive now o) := {
      halike with
      decoding := (hp.decoding_receive hpe now).trans (hq.decoding_receive hqe now).symm
      first := ⟨_, (hremembers.run dec _).receive dec now o⟩
      second := ⟨_, (hremembers'.run dec' _).receive dec' now o⟩ }
    rw [submitted_append, submitted_append, submitted_of_no_tick rfl, submitted_of_no_tick rfl]
    exact habreast.submitted_eq hrest hu.split.2 hu'.split.2

/-- A stream that overtakes the one before it: its two objects leave the buffer in their order, and
what is late from the older stream is of no account. -/
theorem overtaking_stream_isolated :
    let settings : PlaySettings := ⟨.video, 5, 2, 5⟩
    let config : CodecConfig := { codec := "vp8", bitrate := 1000, framerate := 30.0 }
    let chunk (kind : ChunkKind) (data : UInt8) : Chunk := ⟨⟨kind, 0, none⟩, ⟨#[data]⟩⟩
    let object (epoch number : ℕ) (c : Chunk) : Received := ⟨1, epoch, 0, number, c.pack, .normal⟩
    let inputs : List (Input SimulatedCodec) :=
      [.receive 0 (object 1 0 (chunk .key 1)), .tick 5, .receive 6 (object 1 1 (chunk .delta 2)),
        .receive 7 (object 2 1 (chunk .delta 4)), .receive 8 (object 2 0 (chunk .key 3)),
        .receive 9 (object 1 2 (chunk .delta 5)), .tick 13, .tick 14]
    let fresh := Player.new settings ({} : SimulatedCodec) config (.empty 4) 0
    let decoders := SimulatedCodec.decoders
    let p := fresh.run decoders (beforeEpoch 2 inputs)
    let q := fresh.run decoders (ofEpoch 2 (beforeEpoch 2 inputs))
    let since := sinceEpoch 2 inputs
    (∀ o ∈ arrivals inputs, o.epoch ≤ 2) ∧ p.Unfailing decoders since ∧
      q.Unfailing decoders (ofEpoch 2 since) ∧
      p.playout decoders since = q.playout decoders (ofEpoch 2 since) ∧
      p.submitted decoders since = q.submitted decoders (ofEpoch 2 since) ∧
      (p.submitted decoders since).map Chunk.data = [⟨#[3]⟩, ⟨#[4]⟩] := by
  intro settings config chunk object inputs fresh decoders p q since
  have hold : ∀ o ∈ arrivals inputs, o.epoch ≤ 2 := by decide +kernel
  have hp : p.Unfailing decoders since := ⟨by decide +kernel, by decide +kernel⟩
  have hq : q.Unfailing decoders (ofEpoch 2 since) := ⟨by decide +kernel, by decide +kernel⟩
  obtain ⟨hplayout, hsubmitted⟩ := restart_isolation decoders decoders settings {} {} config config
    (.empty 4) (.empty 4) 0 0 hold
  exact ⟨hold, hp, hq, hplayout, hsubmitted hp hq, by decide +kernel⟩

end Player

end LiveMedia

import Mathlib.Data.List.Nodup
import LiveMedia.Proofs.JitterBuffer.Delay
import LiveMedia.Proofs.Player.PlayoutOrder

/-!
# A player of one stream

As long as all objects belong to one stream, a player does with its buffer what its inputs say and
nothing else. If in addition nothing overflows and no chunk comes by the least delay too late, the
chunks are played in the order in which they were sent.
-/

namespace LiveMedia
set_option autoImplicit false

variable {W : Type}

/-- Whether a player of this kind puts the object into its buffer. -/
def Received.isKept (media : Media) (o : Received) : Bool := !(o.isControl && media.discardsControl)

namespace Player

namespace Input

def time? : Input W → Option ℕ
  | receive now _ => some now
  | tick now => some now
  | _ => none

def receipt? : Input W → Option (ℕ × Received)
  | receive now o => some (now, o)
  | _ => none

/-- What an input asks of the buffer when it belongs to the stream that is played. -/
def bufferOp? (media : Media) : Input W → Option (JitterBuffer.Op Received)
  | receive now o => if o.isKept media then some (.push now o.slot o) else none
  | tick now => some (.pop now)
  | _ => none

end Input

def receipts (inputs : List (Input W)) : List (ℕ × Received) := inputs.filterMap Input.receipt?

theorem arrivals_eq (inputs : List (Input W)) :
    arrivals inputs = (receipts inputs).map Prod.snd := by
  unfold arrivals receipts
  rw [List.map_filterMap]
  congr 1
  funext i
  cases i <;> rfl

def bufferOps (media : Media) (inputs : List (Input W)) : List (JitterBuffer.Op Received) :=
  inputs.filterMap (Input.bufferOp? media)

def entryOf (r : ℕ × Received) : JitterEntry Received := ⟨r.2.slot, r.1, r.2⟩

theorem pushed_bufferOps (media : Media) (inputs : List (Input W)) :
    JitterBuffer.pushed (bufferOps media inputs) =
      ((receipts inputs).filter fun r => r.2.isKept media).map entryOf := by
  unfold JitterBuffer.pushed bufferOps receipts
  induction inputs with
  | nil => rfl
  | cons i rest ih =>
    cases i with
    | receive now o =>
      cases hkept : o.isKept media with
      | true => simp [Input.bufferOp?, Input.receipt?, hkept, ih, JitterBuffer.Op.added?, entryOf]
      | false => simp [Input.bufferOp?, Input.receipt?, hkept, ih]
    | tick now => exact ih
    | render => exact ih
    | codec run => exact ih
    | view n => exact ih
    | closeScreen => exact ih

theorem data_pushed (media : Media) (inputs : List (Input W)) :
    ((JitterBuffer.pushed (bufferOps media inputs)).filter fun e => !e.payload.isControl).map
      JitterEntry.payload = (arrivals inputs).filter fun o => !o.isControl := by
  rw [pushed_bufferOps, arrivals_eq, List.filter_map, List.map_map, List.filter_map,
    List.filter_filter]
  refine congrArg (List.map Prod.snd) (List.filter_congr fun r _ => ?_)
  change (!r.2.isControl && r.2.isKept media) = !r.2.isControl
  unfold Received.isKept
  cases r.2.isControl <;> rfl

theorem times_bufferOps (media : Media) (inputs : List (Input W)) :
    ((bufferOps media inputs).filterMap JitterBuffer.Op.time?).Sublist
      (inputs.filterMap Input.time?) := by
  unfold bufferOps
  induction inputs with
  | nil => exact List.Sublist.refl []
  | cons i rest ih =>
    cases i with
    | receive now o =>
      cases hkept : o.isKept media with
      | true => simpa [Input.bufferOp?, Input.time?, hkept, JitterBuffer.Op.time?] using ih
      | false => simpa [Input.bufferOp?, Input.time?, hkept] using ih.cons now
    | tick now => exact ih.cons_cons now
    | render => exact ih
    | codec run => exact ih
    | view n => exact ih
    | closeScreen => exact ih

theorem ne_clear_bufferOps (media : Media) (inputs : List (Input W)) :
    ∀ op ∈ bufferOps media inputs, op ≠ .clear := by
  intro op hop
  obtain ⟨i, _, hi⟩ := List.mem_filterMap.mp hop
  rintro rfl
  cases i with
  | receive now o => simp [Input.bufferOp?] at hi
  | tick now => cases hi
  | render => cases hi
  | codec run => cases hi
  | view n => cases hi
  | closeScreen => cases hi

end Player

namespace Intake

theorem receive_of_epoch {q : Intake} {o : Received} (h : q.epoch = none ∨ q.epoch = some o.epoch)
    (now : ℕ) : q.receive now o =
      { q with
        epoch := some o.epoch
        buffer := if o.isKept q.media then (q.buffer.push now o.slot o).2 else q.buffer } := by
  have hfollow : q.follow? o.epoch = some { q with epoch := some o.epoch } := by
    rcases q.follow?_cases o.epoch with ⟨c, hc, hlt, _⟩ | ⟨_, hf⟩ | ⟨c, hc, hlt, _⟩
    · rcases h with h | h
      · rw [h] at hc
        cases hc
      · rw [h] at hc
        cases hc
        exact absurd hlt (lt_irrefl _)
    · exact hf
    · rcases h with h | h
      · rw [h] at hc
        cases hc
      · rw [h] at hc
        cases hc
        exact absurd hlt (lt_irrefl _)
  unfold receive Received.isKept
  rw [hfollow]
  cases hdrop : o.isControl && q.media.discardsControl with
  | true => simp [hdrop]
  | false =>
    simp only [hdrop, Bool.false_eq_true, if_false, Bool.not_false, if_true]
    rfl

end Intake

namespace Player

variable (dec : DecoderFamily W) {epoch : ℕ}

theorem buffer_step {p : Player W} (hp : p.epoch = none ∨ p.epoch = some epoch) {i : Input W}
    (hi : ∀ o, i.object? = some o → o.epoch = epoch) :
    (p.step dec i).buffer = p.buffer.run (i.bufferOp? p.media).toList ∧
      (p.released? i).toList = p.buffer.popped (i.bufferOp? p.media).toList ∧
      (p.step dec i).media = p.media ∧
      ((p.step dec i).epoch = none ∨ (p.step dec i).epoch = some epoch) := by
  have hbuffer := congrArg Intake.buffer (intake_step dec p i)
  have hmedia := congrArg Intake.media (intake_step dec p i)
  have hepoch := congrArg Intake.epoch (intake_step dec p i)
  simp only [buffer_intake, media_intake, epoch_intake] at hbuffer hmedia hepoch
  rw [hbuffer, hmedia, hepoch]
  cases i with
  | receive now o =>
    obtain rfl := hi o rfl
    have hreceive := Intake.receive_of_epoch (q := p.intake) hp now
    change (p.intake.receive now o).buffer = _ ∧ _ ∧ (p.intake.receive now o).media = _ ∧
      ((p.intake.receive now o).epoch = none ∨ (p.intake.receive now o).epoch = _)
    have hop : (Input.receive (W := W) now o).bufferOp? p.media =
        if o.isKept p.media then some (.push now o.slot o) else none := rfl
    rw [hreceive, hop, media_intake]
    cases o.isKept p.media with
    | true => exact ⟨rfl, rfl, rfl, Or.inr rfl⟩
    | false => exact ⟨rfl, rfl, rfl, Or.inr rfl⟩
  | tick now =>
    have htick : p.intake.tick now = { p.intake with buffer := p.buffer.step (.pop now) } := by
      unfold Intake.tick
      rcases p.buffer.step_pop_cases now with ⟨hn, hs⟩ | ⟨e, b, hn, hs⟩
      · simp only [buffer_intake, hn, hs]
        rfl
      · simp only [buffer_intake, hn, hs]
    change (p.intake.tick now).buffer = _ ∧ _ ∧ (p.intake.tick now).media = _ ∧
      ((p.intake.tick now).epoch = none ∨ (p.intake.tick now).epoch = _)
    rw [htick]
    exact ⟨rfl, (List.append_nil _).symm, rfl, hp⟩
  | render => exact ⟨rfl, rfl, rfl, hp⟩
  | codec run => exact ⟨rfl, rfl, rfl, hp⟩
  | view n => exact ⟨rfl, rfl, rfl, hp⟩
  | closeScreen => exact ⟨rfl, rfl, rfl, hp⟩

theorem buffer_run {p : Player W} (hp : p.epoch = none ∨ p.epoch = some epoch)
    (inputs : List (Input W)) (h : ∀ o ∈ arrivals inputs, o.epoch = epoch) :
    (p.run dec inputs).buffer = p.buffer.run (bufferOps p.media inputs) ∧
      p.played dec inputs = p.buffer.popped (bufferOps p.media inputs) := by
  induction inputs generalizing p with
  | nil => exact ⟨rfl, rfl⟩
  | cons i rest ih =>
    have hfirst : ∀ o, i.object? = some o → o.epoch = epoch := by
      intro o ho
      exact h o (List.mem_filterMap.mpr ⟨i, List.mem_cons_self, ho⟩)
    have hrest : ∀ o ∈ arrivals rest, o.epoch = epoch := by
      intro o ho
      obtain ⟨x, hx, hox⟩ := List.mem_filterMap.mp ho
      exact h o (List.mem_filterMap.mpr ⟨x, List.mem_cons_of_mem i hx, hox⟩)
    obtain ⟨hbuffer, hreleased, hmedia, hepoch⟩ := buffer_step dec hp hfirst
    obtain ⟨hrun, hplayed⟩ := ih hepoch hrest
    rw [hbuffer, hmedia] at hrun hplayed
    rw [run_cons, played, hrun, hplayed, hreleased]
    unfold bufferOps
    cases hop : i.bufferOp? p.media with
    | none =>
      rw [List.filterMap_cons_none hop]
      exact ⟨rfl, rfl⟩
    | some op =>
      rw [List.filterMap_cons_some hop]
      refine ⟨rfl, ?_⟩
      rw [Option.toList_some, JitterBuffer.popped, JitterBuffer.popped, JitterBuffer.popped,
        List.append_nil]
      rfl

theorem pair_sublist {α : Type} {l : List α} {x y : α} (hx : x ∈ l) (hy : y ∈ l) (hne : x ≠ y) :
    [x, y].Sublist l ∨ [y, x].Sublist l := by
  induction l with
  | nil => exact absurd hx List.not_mem_nil
  | cons z rest ih =>
    rcases List.mem_cons.mp hx with rfl | hxrest
    · have hyrest := (List.mem_cons.mp hy).resolve_left hne.symm
      exact Or.inl ((List.singleton_sublist.mpr hyrest).cons_cons x)
    · rcases List.mem_cons.mp hy with rfl | hyrest
      · exact Or.inr ((List.singleton_sublist.mpr hxrest).cons_cons y)
      · exact (ih hxrest hyrest).imp (fun h => h.cons z) (fun h => h.cons z)

/-- In a stream, what stands before a chunk is sent before it. -/
def InSequence (sent : List Received) : Prop :=
  sent.Pairwise fun x y => y.isControl = false → x.slot < y.slot

/-- No object comes by the delay or more after one that was sent later. -/
def InTime (delay : ℕ) (sent : List Received) (received : List (ℕ × Received)) : Prop :=
  received.Pairwise fun r s => [s.2, r.2].Sublist sent → s.1 < r.1 + delay

theorem InTime.prompt {delay : ℕ} {sent : List Received} {received : List (ℕ × Received)}
    (h : InTime delay sent received) (hsent : InSequence sent)
    (hmem : ∀ r ∈ received, r.2 ∈ sent) :
    received.Pairwise fun r s => s.2.isControl = false →
      JitterBuffer.Prompt delay (entryOf r) (entryOf s) := by
  apply h.imp_of_mem
  intro r s hr hs hbound hdata hlt
  change s.2.slot < r.2.slot at hlt
  have hne : s.2 ≠ r.2 := fun heq => lt_irrefl _ (heq ▸ hlt)
  rcases pair_sublist (hmem s hs) (hmem r hr) hne with hsub | hsub
  · exact hbound hsub
  · exact absurd (hsent.forall_sublist hsub hdata) hlt.not_gt

/-- A list in the order of its slots is settled by its members, if no two of them share a slot. -/
theorem eq_of_perm_of_slot_le {l sent : List Received} (hperm : l.Perm sent)
    (hstrict : sent.Pairwise fun x y => x.slot < y.slot)
    (hle : l.Pairwise fun x y => x.slot ≤ y.slot) : l = sent := by
  have hinj := List.inj_on_of_nodup_map (List.pairwise_map.mpr (hstrict.imp ne_of_lt))
  refine @List.Perm.eq_of_pairwise _ (fun x y : Received => x.slot ≤ y.slot) _ _ ?_ hle ?_ hperm
  · intro x y hx hy hxy hyx
    exact hinj (hperm.mem_iff.mp hx) hy (le_antisymm hxy hyx)
  · exact hstrict.imp fun hlt => hlt.le

section Played

variable (settings : PlaySettings) (codec : W) (config : CodecConfig) (screen : Screen) (start : ℕ)
  {inputs : List (Input W)} {sent : List Received}

/-- If nothing overflows and nothing is left, all chunks that arrive in time are played. -/
theorem perm_played_data (hsent : InSequence sent) (hepoch : ∀ o ∈ sent, o.epoch = epoch)
    (harrivals : (arrivals inputs).Perm sent)
    (htimes : (inputs.filterMap Input.time?).Pairwise (· ≤ ·))
    (hintime : InTime settings.minDelay sent (receipts inputs)) :
    let fresh := Player.new settings codec config screen start
    (fresh.run dec inputs).buffer.overflowDrops = 0 →
    (fresh.run dec inputs).buffer.entries = [] →
    (((fresh.played dec inputs).map JitterEntry.payload).filter fun o => !o.isControl).Perm
      (sent.filter fun o => !o.isControl) := by
  intro fresh hover hempty
  obtain ⟨hrun, hplayed⟩ := buffer_run dec (p := fresh) (Or.inl rfl) inputs
    fun o ho => hepoch o (harrivals.mem_iff.mp ho)
  rw [hrun] at hover hempty
  have hmem : ∀ r ∈ receipts inputs, r.2 ∈ sent := by
    intro r hr
    apply harrivals.mem_iff.mp
    rw [arrivals_eq]
    exact List.mem_map_of_mem hr
  have htimed : fresh.buffer.Timed [] 0 :=
    ⟨fun _ he => absurd he List.not_mem_nil, fun _ he => absurd he List.not_mem_nil,
      fun _ hr => by cases hr⟩
  have hprompt : ([] ++ JitterBuffer.pushed (bufferOps settings.media inputs)).Pairwise
      fun (y x : JitterEntry Received) => (!x.payload.isControl) = true →
        JitterBuffer.Prompt settings.minDelay y x := by
    rw [List.nil_append, pushed_bufferOps, List.pairwise_map]
    refine ((hintime.prompt hsent hmem).filter _).imp fun h hkeep => h ?_
    simpa [entryOf] using hkeep
  have hperm := JitterBuffer.perm_popped (fun e => !e.payload.isControl) htimed
    (List.pairwise_cons.mpr ⟨fun _ _ => Nat.zero_le _, htimes.sublist (times_bufferOps _ inputs)⟩)
    (ne_clear_bufferOps _ inputs) hprompt hover
  rw [hempty, List.append_nil, ← hplayed] at hperm
  have hmap := hperm.map JitterEntry.payload
  rw [show fresh.buffer.entries = [] from rfl, List.nil_append, data_pushed] at hmap
  rw [List.filter_map]
  exact hmap.trans (harrivals.filter _)

/-- Moreover they are played in the order in which they were sent. -/
theorem played_data (hsent : InSequence sent) (hepoch : ∀ o ∈ sent, o.epoch = epoch)
    (harrivals : (arrivals inputs).Perm sent)
    (htimes : (inputs.filterMap Input.time?).Pairwise (· ≤ ·))
    (hintime : InTime settings.minDelay sent (receipts inputs)) :
    let fresh := Player.new settings codec config screen start
    (fresh.run dec inputs).buffer.overflowDrops = 0 →
    (fresh.run dec inputs).buffer.entries = [] →
    ((fresh.played dec inputs).map JitterEntry.payload).filter (fun o => !o.isControl) =
      sent.filter fun o => !o.isControl := by
  intro fresh hover hempty
  have hdata := perm_played_data dec settings codec config screen start hsent hepoch harrivals
    htimes hintime hover hempty
  have hin : ∀ x ∈ ((fresh.played dec inputs).map JitterEntry.payload).filter
      (fun o => !o.isControl), x.epoch = epoch := by
    intro x hx
    exact hepoch x (List.mem_filter.mp (hdata.mem_iff.mp hx)).1
  have horder : ((fresh.played dec inputs).map JitterEntry.payload).Pairwise
      fun x y => x.place ≤ y.place := by
    rw [List.pairwise_map]
    exact pairwise_played dec (inOrder_new settings codec config screen start) inputs
  apply eq_of_perm_of_slot_le hdata
  · refine (hsent.filter _).imp_of_mem fun {x y} _ hy hlt => hlt ?_
    simpa using (List.mem_filter.mp hy).2
  · apply (horder.filter _).imp_of_mem
    intro x y hx hy hle
    rcases (Received.place_le_iff x y).mp hle with hlt | ⟨_, hle⟩
    · rw [hin x hx, hin y hy] at hlt
      exact absurd hlt (lt_irrefl _)
    · exact hle

end Played

end Player

end LiveMedia

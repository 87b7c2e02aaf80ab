import Mathlib.Order.Bounds.Basic
import LiveMedia.Proofs.Objects
import LiveMedia.Proofs.Player.Run

/-!
# Order of playout

What a player releases follows the order of epoch, group and object, however objects arrive. The
invariant joins the order of the buffer to the epoch: all that is buffered belongs to the newest
epoch, and what was released in this epoch lies at or before the slot released last.
-/

namespace LiveMedia
set_option autoImplicit false

namespace Intake

theorem follow?_cases (q : Intake) (epoch : ℕ) :
    (∃ current, q.epoch = some current ∧ epoch < current ∧ q.follow? epoch = none) ∨
    ((q.epoch = none ∨ q.epoch = some epoch) ∧
      q.follow? epoch = some { q with epoch := some epoch }) ∨
    (∃ current, q.epoch = some current ∧ current < epoch ∧
      q.follow? epoch = some { q with buffer := q.buffer.clear, epoch := some epoch }) := by
  cases hq : q.epoch with
  | none => exact Or.inr (Or.inl ⟨Or.inl rfl, by simp [follow?, hq]⟩)
  | some current =>
    rcases lt_trichotomy epoch current with hlt | heq | hgt
    · exact Or.inl ⟨current, rfl, hlt, by simp [follow?, hq, hlt]⟩
    · subst heq
      have hsame : ({ q with epoch := some epoch } : Intake) = q := by rw [← hq]
      exact Or.inr (Or.inl ⟨Or.inr rfl, by simp [follow?, hq, hsame]⟩)
    · exact Or.inr (Or.inr ⟨current, rfl, hgt, by simp [follow?, hq, hgt.not_gt, hgt.ne']⟩)

structure InOrder (q : Intake) : Prop where
  buffer : q.buffer.InOrder
  epoch_eq : ∀ e ∈ q.buffer.entries, q.epoch = some e.payload.epoch
  slot_eq : ∀ e ∈ q.buffer.entries, e.slot = e.payload.slot

namespace InOrder

variable {q : Intake}

theorem follow (h : q.InOrder) {epoch : ℕ} {r : Intake} (hf : q.follow? epoch = some r) :
    r.InOrder ∧ r.epoch = some epoch := by
  rcases q.follow?_cases epoch with ⟨_, _, _, hn⟩ | ⟨hq, hs⟩ | ⟨_, _, _, hs⟩
  · rw [hn] at hf
    cases hf
  · rw [hs] at hf
    cases hf
    refine ⟨⟨h.buffer, ?_, h.slot_eq⟩, rfl⟩
    intro e he
    rw [← h.epoch_eq e he]
    rcases hq with hq | hq
    · rw [h.epoch_eq e he] at hq
      cases hq
    · exact hq.symm
  · rw [hs] at hf
    cases hf
    exact ⟨⟨JitterBuffer.inOrder_clear q.buffer, fun e he => absurd he List.not_mem_nil,
      fun e he => absurd he List.not_mem_nil⟩, rfl⟩

theorem receive (h : q.InOrder) (now : ℕ) (o : Received) : (q.receive now o).InOrder := by
  unfold Intake.receive
  cases hf : q.follow? o.epoch with
  | none => exact h
  | some r =>
    obtain ⟨hr, hepoch⟩ := h.follow hf
    simp only
    split
    · exact hr
    · refine ⟨hr.buffer.push now _ o, ?_, ?_⟩
      · intro e he
        rcases JitterBuffer.mem_push he with rfl | he
        · exact hepoch
        · exact hr.epoch_eq e he
      · intro e he
        rcases JitterBuffer.mem_push he with rfl | he
        · rfl
        · exact hr.slot_eq e he

theorem tick (h : q.InOrder) (now : ℕ) : (q.tick now).InOrder := by
  unfold Intake.tick
  cases hp : q.buffer.pop? now with
  | none => exact h
  | some released =>
    obtain ⟨e, buffer⟩ := released
    have hb := h.buffer.pop hp
    obtain ⟨rest, hent, _, rfl⟩ := JitterBuffer.pop?_eq_some_iff.mp hp
    have hmem : ∀ x ∈ rest, x ∈ q.buffer.entries := fun x hx => hent ▸ List.mem_cons_of_mem e hx
    exact ⟨hb, fun x hx => h.epoch_eq x (hmem x hx), fun x hx => h.slot_eq x (hmem x hx)⟩

end InOrder

/-- An object at or before all that can still be released. -/
def Past (q : Intake) (x : Received) : Prop :=
  ∃ current, q.epoch = some current ∧ (x.epoch < current ∨
    x.epoch = current ∧ ∃ r, q.buffer.released = some r ∧ x.slot ≤ r)

namespace Past

variable {q : Intake} {x : Received}

theorem receive (hx : q.Past x) (now : ℕ) (o : Received) : (q.receive now o).Past x := by
  obtain ⟨current, hcur, hpast⟩ := hx
  unfold Intake.receive
  rcases q.follow?_cases o.epoch with ⟨_, _, _, hf⟩ | ⟨hq, hf⟩ | ⟨c, hc, hlt, hf⟩
  · rw [hf]
    exact ⟨current, hcur, hpast⟩
  · have hepoch : current = o.epoch := by
      rcases hq with hq | hq
      · rw [hcur] at hq
        cases hq
      · rw [hcur] at hq
        exact Option.some.inj hq
    rw [hf]
    simp only
    split
    · exact ⟨current, congrArg some hepoch.symm, hpast⟩
    · refine ⟨current, congrArg some hepoch.symm, ?_⟩
      rw [(JitterBuffer.push_settings _ now _ o).1]
      exact hpast
  · have hold : x.epoch < o.epoch := by
      rw [hcur] at hc
      cases hc
      rcases hpast with hp | ⟨hp, _⟩ <;> omega
    rw [hf]
    simp only
    split
    · exact ⟨o.epoch, rfl, Or.inl hold⟩
    · exact ⟨o.epoch, rfl, Or.inl hold⟩

/-- A release comes after everything past and becomes past itself. -/
theorem tick (hx : q.Past x) (h : q.InOrder) (now : ℕ) : (q.tick now).Past x := by
  obtain ⟨current, hcur, hpast⟩ := hx
  unfold Intake.tick
  cases hp : q.buffer.pop? now with
  | none => exact ⟨current, hcur, hpast⟩
  | some released =>
    obtain ⟨e, buffer⟩ := released
    obtain ⟨rest, _, _, hb⟩ := JitterBuffer.pop?_eq_some_iff.mp hp
    refine ⟨current, hcur, ?_⟩
    rcases hpast with hlt | ⟨heq, r, hr, hle⟩
    · exact Or.inl hlt
    · exact Or.inr ⟨heq, e.slot, by rw [hb], hle.trans (h.buffer.released_le_pop hp hr)⟩

theorem place_le (hx : q.Past x) (h : q.InOrder) {now : ℕ} {e : JitterEntry Received}
    {buffer : JitterBuffer Received} (hp : q.buffer.pop? now = some (e, buffer)) :
    x.place ≤ e.payload.place := by
  obtain ⟨current, hcur, hpast⟩ := hx
  obtain ⟨rest, hent, _, _⟩ := JitterBuffer.pop?_eq_some_iff.mp hp
  have hmem : e ∈ q.buffer.entries := hent ▸ List.mem_cons_self
  have hepoch := h.epoch_eq e hmem
  rw [hcur] at hepoch
  cases hepoch
  rw [Received.place_le_iff]
  rcases hpast with hlt | ⟨heq, r, hr, hle⟩
  · exact Or.inl hlt
  · refine Or.inr ⟨heq, ?_⟩
    rw [← h.slot_eq e hmem]
    exact hle.trans (h.buffer.released_le_pop hp hr)

end Past

theorem InOrder.past_tick {q : Intake} (h : q.InOrder) {now : ℕ} {e : JitterEntry Received}
    {buffer : JitterBuffer Received} (hp : q.buffer.pop? now = some (e, buffer)) :
    (q.tick now).Past e.payload := by
  obtain ⟨rest, hent, _, hb⟩ := JitterBuffer.pop?_eq_some_iff.mp hp
  have hmem : e ∈ q.buffer.entries := hent ▸ List.mem_cons_self
  unfold Intake.tick
  rw [hp]
  refine ⟨e.payload.epoch, h.epoch_eq e hmem, Or.inr ⟨rfl, e.slot, by rw [hb], ?_⟩⟩
  exact (h.slot_eq e hmem).ge

def Newest (epochs : Set ℕ) : Option ℕ → Prop
  | none => epochs = ∅
  | some newest => IsGreatest epochs newest

theorem Newest.exists_ge {epochs : Set ℕ} {current : Option ℕ} (h : Newest epochs current) {n : ℕ}
    (hn : n ∈ epochs) : ∃ newest, current = some newest ∧ n ≤ newest := by
  cases current with
  | none =>
    rw [show epochs = ∅ from h] at hn
    exact absurd hn (Set.notMem_empty n)
  | some newest => exact ⟨newest, rfl, h.2 hn⟩

theorem Newest.receive {q : Intake} {epochs : Set ℕ} (h : Newest epochs q.epoch) (now : ℕ)
    (o : Received) : Newest (insert o.epoch epochs) (q.receive now o).epoch := by
  have hkept : (q.receive now o).epoch = ((q.follow? o.epoch).getD q).epoch := by
    unfold Intake.receive
    cases q.follow? o.epoch with
    | none => rfl
    | some r =>
      simp only [Option.getD_some]
      split <;> rfl
  rw [hkept]
  rcases q.follow?_cases o.epoch with ⟨c, hc, hlt, hf⟩ | ⟨hq, hf⟩ | ⟨c, hc, hlt, hf⟩
  · rw [hc] at h
    rw [hf, Option.getD_none, hc]
    have hmax := IsGreatest.insert o.epoch h
    rwa [max_eq_right hlt.le] at hmax
  · rw [hf]
    rcases hq with hq | hq
    · rw [hq] at h
      change epochs = ∅ at h
      subst h
      simp [Newest]
    · rw [hq] at h
      have hmax := IsGreatest.insert o.epoch h
      rwa [max_self] at hmax
  · rw [hc] at h
    rw [hf]
    have hmax := IsGreatest.insert o.epoch h
    rwa [max_eq_left hlt.le] at hmax

end Intake

namespace Player

variable {W : Type} (dec : DecoderFamily W)

theorem inOrder_step {p : Player W} (h : p.intake.InOrder) (i : Input W) :
    (p.step dec i).intake.InOrder := by
  rw [intake_step]
  cases i with
  | receive now o => exact h.receive now o
  | tick now => exact h.tick now
  | render => exact h
  | codec run => exact h
  | view n => exact h
  | closeScreen => exact h

theorem inOrder_run {p : Player W} (h : p.intake.InOrder) (inputs : List (Input W)) :
    (p.run dec inputs).intake.InOrder := by
  induction inputs generalizing p with
  | nil => exact h
  | cons i rest ih => exact ih (inOrder_step dec h i)

theorem past_step {p : Player W} {x : Received} (hx : p.intake.Past x) (h : p.intake.InOrder)
    (i : Input W) : (p.step dec i).intake.Past x := by
  rw [intake_step]
  cases i with
  | receive now o => exact hx.receive now o
  | tick now => exact hx.tick h now
  | render => exact hx
  | codec run => exact hx
  | view n => exact hx
  | closeScreen => exact hx

theorem released?_eq_some {p : Player W} {i : Input W} {e : JitterEntry Received}
    (h : p.released? i = some e) :
    ∃ now buffer, i = .tick now ∧ p.intake.buffer.pop? now = some (e, buffer) := by
  cases i with
  | tick now =>
    obtain ⟨⟨e', buffer⟩, hp, rfl⟩ := Option.map_eq_some_iff.mp h
    exact ⟨now, buffer, rfl, hp⟩
  | receive now o => cases h
  | render => cases h
  | codec run => cases h
  | view n => cases h
  | closeScreen => cases h

theorem place_le_of_past {p : Player W} {x : Received} (hx : p.intake.Past x)
    (h : p.intake.InOrder) (inputs : List (Input W)) :
    ∀ e ∈ p.played dec inputs, x.place ≤ e.payload.place := by
  induction inputs generalizing p with
  | nil => exact fun e he => absurd he List.not_mem_nil
  | cons i rest ih =>
    intro e he
    rcases List.mem_append.mp he with he | he
    · obtain ⟨now, buffer, _, hp⟩ := released?_eq_some (Option.mem_toList.mp he)
      exact hx.place_le h hp
    · exact ih (past_step dec hx h i) (inOrder_step dec h i) e he

theorem pairwise_played {p : Player W} (h : p.intake.InOrder) (inputs : List (Input W)) :
    (p.played dec inputs).Pairwise fun a b => a.payload.place ≤ b.payload.place := by
  induction inputs generalizing p with
  | nil => exact List.Pairwise.nil
  | cons i rest ih =>
    have hrest := ih (inOrder_step dec h i)
    unfold played
    cases hr : p.released? i with
    | none => exact hrest
    | some e =>
      obtain ⟨now, buffer, rfl, hp⟩ := released?_eq_some hr
      apply List.pairwise_cons.mpr ⟨?_, hrest⟩
      have hpast : (p.step dec (.tick now)).intake.Past e.payload := by
        rw [intake_step]
        exact h.past_tick hp
      exact place_le_of_past dec hpast (inOrder_step dec h (.tick now)) rest

theorem epoch_step {p : Player W} {i : Input W} (h : i.object? = none) :
    (p.step dec i).epoch = p.epoch := by
  have hintake := congrArg Intake.epoch (intake_step dec p i)
  apply Eq.trans hintake
  cases i with
  | receive now o => cases h
  | tick now =>
    change (p.intake.tick now).epoch = p.intake.epoch
    unfold Intake.tick
    split <;> rfl
  | render => rfl
  | codec run => rfl
  | view n => rfl
  | closeScreen => rfl

theorem newest_run {p : Player W} {epochs : Set ℕ} (h : Intake.Newest epochs p.epoch)
    (inputs : List (Input W)) :
    Intake.Newest (epochs ∪ {n | ∃ o ∈ arrivals inputs, o.epoch = n})
      (p.run dec inputs).epoch := by
  induction inputs generalizing p epochs with
  | nil => simpa [arrivals] using h
  | cons i rest ih =>
    rw [run_cons]
    cases hi : i.object? with
    | none =>
      rw [← epoch_step dec hi] at h
      simpa [arrivals, hi] using ih h
    | some o =>
      cases i with
      | receive now x =>
        cases hi
        have hstep : Intake.Newest (insert o.epoch epochs) (p.receive now o).epoch := by
          rw [← epoch_intake, intake_receive]
          exact Intake.Newest.receive h now o
        have hset : epochs ∪ {n | ∃ x ∈ arrivals (Input.receive (W := W) now o :: rest),
            x.epoch = n} = insert o.epoch epochs ∪ {n | ∃ x ∈ arrivals rest, x.epoch = n} := by
          ext n
          simp [arrivals, Input.object?, eq_comm, or_assoc, or_left_comm]
        rw [hset]
        exact ih hstep
      | tick now => cases hi
      | render => cases hi
      | codec run => cases hi
      | view n => cases hi
      | closeScreen => cases hi

/-- The epoch never goes back, so nothing older than it is played. -/
theorem epoch_le_of_played {p : Player W} (h : p.intake.InOrder) {current : ℕ}
    (hcur : p.epoch = some current) (inputs : List (Input W)) :
    ∀ e ∈ p.played dec inputs, current ≤ e.payload.epoch := by
  induction inputs generalizing p current with
  | nil => exact fun e he => absurd he List.not_mem_nil
  | cons i rest ih =>
    intro e he
    rcases List.mem_append.mp he with he | he
    · obtain ⟨now, buffer, rfl, hp⟩ := released?_eq_some (Option.mem_toList.mp he)
      obtain ⟨others, hent, _, _⟩ := JitterBuffer.pop?_eq_some_iff.mp hp
      have hepoch := h.epoch_eq e (hent ▸ List.mem_cons_self)
      rw [epoch_intake, hcur] at hepoch
      exact (Option.some.inj hepoch).le
    · have hnew : Intake.Newest {current} p.epoch := by
        rw [hcur]
        exact isGreatest_singleton
      obtain ⟨newer, hstep, hle⟩ := (newest_run dec hnew [i]).exists_ge (Or.inl rfl)
      exact hle.trans (ih (inOrder_step dec h i) hstep e he)

theorem inOrder_new (settings : PlaySettings) (codec : W) (config : CodecConfig) (screen : Screen)
    (start : ℕ) : (Player.new settings codec config screen start).intake.InOrder where
  buffer := JitterBuffer.inOrder_empty settings.capacity settings.minDelay
  epoch_eq := fun _ he => absurd he List.not_mem_nil
  slot_eq := fun _ he => absurd he List.not_mem_nil

/-- In every run of a new player, whatever is received, ticked, rendered or broken in between:
entries are played in the order of epoch, group and object; all that is buffered carries the newest
epoch received so far; and nothing older than an object that was received is played after it. -/
theorem playout_order (settings : PlaySettings) (codec : W) (config : CodecConfig)
    (screen : Screen) (start : ℕ) :
    let p := Player.new settings codec config screen start
    (∀ inputs, (p.played dec inputs).Pairwise fun a b => a.payload.place ≤ b.payload.place) ∧
    (∀ inputs, ∀ e ∈ (p.run dec inputs).buffer.entries,
      IsGreatest {n | ∃ o ∈ arrivals inputs, o.epoch = n} e.payload.epoch) ∧
    (∀ before now o after, ∀ e ∈ (p.run dec (before ++ [.receive now o])).played dec after,
      o.epoch ≤ e.payload.epoch) := by
  intro p
  have hnew : p.intake.InOrder := inOrder_new settings codec config screen start
  have hnewest : ∀ inputs, Intake.Newest {n | ∃ o ∈ arrivals inputs, o.epoch = n}
      (p.run dec inputs).epoch := by
    intro inputs
    have hempty : Intake.Newest ∅ p.epoch := rfl
    have h := newest_run dec hempty inputs
    rwa [Set.empty_union] at h
  refine ⟨pairwise_played dec hnew, ?_, ?_⟩
  · intro inputs e he
    have hepoch := (inOrder_run dec hnew inputs).epoch_eq e he
    have h := hnewest inputs
    rw [epoch_intake] at hepoch
    rwa [hepoch] at h
  · intro before now o after e he
    have hmem : o.epoch ∈ {n | ∃ x ∈ arrivals (before ++ [.receive now o]), x.epoch = n} :=
      ⟨o, by simp [arrivals, Input.object?], rfl⟩
    obtain ⟨newest, hepoch, hle⟩ := (hnewest (before ++ [.receive now o])).exists_ge hmem
    exact hle.trans (epoch_le_of_played dec (inOrder_run dec hnew _) hepoch after e he)

end Player

end LiveMedia

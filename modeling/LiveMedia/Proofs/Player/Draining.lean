import LiveMedia.Codec.Simulated
import LiveMedia.Proofs.Player.Accounting
import LiveMedia.Worker.Playing

/-!
# Draining

A worker that learns that no more objects will come plays what is buffered and stops. A tick can
find the first entry too young while older ones wait behind it, so that the number of entries alone
does not tell how many ticks are still to come. But nothing is younger than the news: from the least
delay after it on, every tick releases an entry, until none is left.
-/

namespace LiveMedia
set_option autoImplicit false

variable {W : Type}

namespace Intake

/-- Nothing in the buffer has come later than this. -/
def EnteredBy (q : Intake) (now : ℕ) : Prop := ∀ e ∈ q.buffer.entries, e.enqueued ≤ now

namespace EnteredBy

variable {q : Intake} {now : ℕ}

theorem mono (h : q.EnteredBy now) {later : ℕ} (hle : now ≤ later) : q.EnteredBy later :=
  fun e he => (h e he).trans hle

theorem receive (h : q.EnteredBy now) (o : Received) : (q.receive now o).EnteredBy now := by
  have hpush : ∀ r : Intake, r.EnteredBy now →
      ∀ e ∈ (r.buffer.push now ⟨o.group, o.object⟩ o).2.entries, e.enqueued ≤ now := by
    intro r hr e he
    rcases JitterBuffer.mem_push he with rfl | he
    · exact Nat.le_refl now
    · exact hr e he
  unfold Intake.receive
  rcases q.follow?_cases o.epoch with ⟨_, _, _, hf⟩ | ⟨_, hf⟩ | ⟨_, _, _, hf⟩
  · rw [hf]
    exact h
  · rw [hf]
    simp only
    split
    · exact h
    · exact hpush { q with epoch := some o.epoch } h
  · have hclear : ({ q with buffer := q.buffer.clear, epoch := some o.epoch } : Intake).EnteredBy
        now := fun e he => absurd he List.not_mem_nil
    rw [hf]
    simp only
    split
    · exact hclear
    · exact hpush _ hclear

theorem tick (h : q.EnteredBy now) (moment : ℕ) : (q.tick moment).EnteredBy now := by
  unfold Intake.tick
  cases hp : q.buffer.pop? moment with
  | none => exact h
  | some released =>
    obtain ⟨first, buffer⟩ := released
    obtain ⟨rest, hentries, -, rfl⟩ := JitterBuffer.pop?_eq_some_iff.mp hp
    intro e he
    apply h e
    rw [hentries]
    exact List.mem_cons_of_mem first he

end EnteredBy

end Intake

namespace Player

theorem enteredBy_step (dec : DecoderFamily W) {p : Player W} {now : ℕ}
    (h : p.intake.EnteredBy now) {i : Input W} (hi : ∀ moment o, i = .receive moment o →
      moment = now) : (p.step dec i).intake.EnteredBy now := by
  rw [intake_step]
  cases i with
  | receive moment o =>
    cases hi moment o rfl
    exact h.receive o
  | tick moment => exact h.tick moment
  | render => exact h
  | codec run => exact h
  | view n => exact h
  | closeScreen => exact h

/-- A tick that releases nothing. -/
theorem tick_waiting (dec : DecoderFamily W) {p : Player W} {now : ℕ}
    (h : p.buffer.pop? now = none) : (p.tick dec now).2.buffer = p.buffer ∧
      (p.tick dec now).2.stats.entriesPlayed = p.stats.entriesPlayed := by
  obtain ⟨_, _, _, _, _, hr⟩ := renderOutputs_footprint p
  rw [tick_of_pop?_none dec h, hr]
  exact ⟨rfl, rfl⟩

theorem tick_releasing (dec : DecoderFamily W) {p : Player W} {now : ℕ}
    {e : JitterEntry Received} {buffer : JitterBuffer Received}
    (h : p.buffer.pop? now = some (e, buffer)) : (p.tick dec now).2.buffer = buffer ∧
      (p.tick dec now).2.stats.entriesPlayed = p.stats.entriesPlayed + 1 := by
  constructor
  · have hbuffer := congrArg Intake.buffer (intake_tick dec p now)
    unfold Intake.tick at hbuffer
    simp only [buffer_intake, h] at hbuffer
    exact hbuffer
  · obtain ⟨_, _, _, hstats, -, -⟩ := tick_ending dec h
    rw [hstats]
    cases Ending.ofPlay e.payload (p.calls dec now) <;> rfl

end Player

namespace PlayWorker

/-- What can happen to a worker once it is there. -/
inductive Move (W : Type) where
  /-- The worker has its turn. -/
  | go (now : ℕ)
  /-- Those who send act on the mailbox. -/
  | mail (f : Mailbox Received → Mailbox Received)
  /-- The codecs change by themselves, as in a fault, and may give out pictures. -/
  | codec (run : W → W × List (ℕ × Picture))
  | screen (f : Screen → Screen)
  | cancel

def Move.time? : Move W → Option ℕ
  | .go now => some now
  | _ => none

/-- What a tick releases, and when. -/
structure Tick where
  moment : ℕ
  entry? : Option (JitterEntry Received)

section Run

variable (dec : DecoderFamily W)

def move (w : PlayWorker W) : Move W → PlayWorker W
  | .go now => w.step dec now
  | .mail f => { w with mailbox := f w.mailbox }
  | .codec run => w.actOnPlayer (Player.actOnCodec run)
  | .screen f => w.actOnPlayer (Player.actOnScreen f)
  | .cancel => w.cancel

def run (w : PlayWorker W) (moves : List (Move W)) : PlayWorker W := moves.foldl (move dec) w

/-- Whether the worker ticks when it has its turn. -/
def ticksAt (w : PlayWorker W) (now : ℕ) : Bool :=
  match w.ended, w.tickAt with
  | none, some deadline =>
    !w.cancelled && !(w.listening && w.mailbox.hasNews) && Timer.due now deadline
  | _, _ => false

def tick? (w : PlayWorker W) : Move W → Option Tick
  | .go now =>
    if w.ticksAt now then some ⟨now, (w.player.buffer.pop? now).map Prod.fst⟩ else none
  | _ => none

def ticks (w : PlayWorker W) : List (Move W) → List Tick
  | [] => []
  | m :: rest => (w.tick? m).toList ++ (w.move dec m).ticks rest

/-- The states in which a worker can be, and when. Before it begins its player can be used in any
way. -/
inductive Reachable : PlayWorker W → ℕ → Prop
  | new (settings : PlaySettings) (codec : W) (config : CodecConfig) (screen : Screen)
      (senders now : ℕ) : Reachable (.new (.new settings codec config screen now) senders) now
  | input {w : PlayWorker W} {now : ℕ} (i : Player.Input W) : Reachable w now →
      w.tickAt = none → (∀ moment o, i = .receive moment o → moment = now) →
      Reachable { w with player := w.player.step dec i } now
  | move {w : PlayWorker W} {now : ℕ} (m : Move W) : Reachable w now →
      (∀ moment, m.time? = some moment → moment = now) → Reachable (w.move dec m) now
  | later {w : PlayWorker W} {now later : ℕ} : Reachable w now → now ≤ later → Reachable w later

end Run

/-- With its next turn the worker sees that no more objects will come. -/
structure LearnsEnd (w : PlayWorker W) : Prop where
  going : w.ended = none
  begun : w.tickAt.isSome = true
  uncancelled : w.cancelled = false
  listening : w.listening = true
  exhausted : w.mailbox.isOver = true

variable {dec : DecoderFamily W} {w : PlayWorker W} {now : ℕ}

theorem enteredBy_step (h : w.player.intake.EnteredBy now) :
    (w.step dec now).player.intake.EnteredBy now := by
  unfold step
  split
  · exact h
  · unfold begin
    split <;> exact h
  · split
    · exact h
    · split
      · unfold hear
        split
        · exact Player.enteredBy_step dec h (i := .receive now _) fun _ _ hi => by cases hi; rfl
        · exact h
      · split
        · have htick := Player.enteredBy_step dec h (i := .tick now) nofun
          unfold tick
          simp only
          split <;> exact htick
        · exact h

/-- Nothing in the buffer of a worker comes from the future. -/
theorem Reachable.enteredBy (h : Reachable dec w now) : w.player.intake.EnteredBy now := by
  induction h with
  | new settings codec config screen senders now => exact fun e he => absurd he List.not_mem_nil
  | input i _ _ hi ih => exact Player.enteredBy_step dec ih hi
  | @move w now m _ hm ih =>
    cases m with
    | go moment =>
      cases hm moment rfl
      exact enteredBy_step ih
    | mail f => exact ih
    | codec run =>
      exact Player.enteredBy_step dec ih (i := .codec run) nofun
    | screen f => exact ih
    | cancel => exact ih
  | later _ hle ih => exact ih.mono hle

theorem LearnsEnd.step (h : w.LearnsEnd) (dec : DecoderFamily W) (now : ℕ) :
    w.step dec now = { w with listening := false } := by
  obtain ⟨deadline, hdeadline⟩ := Option.isSome_iff_exists.mp h.begun
  obtain ⟨hsenders, hqueue⟩ := Bool.and_eq_true_iff.mp h.exhausted
  have hnews : w.mailbox.hasNews = true := by simp [Mailbox.hasNews, hsenders]
  have htake : w.mailbox.take? = none := by
    simp [Mailbox.take?, Channel.take?, List.isEmpty_iff.mp hqueue]
  unfold PlayWorker.step hear
  simp [h.going, hdeadline, h.uncancelled, h.listening, hnews, htake]

theorem ticks_append (w : PlayWorker W) (first second : List (Move W)) :
    w.ticks dec (first ++ second) = w.ticks dec first ++ (w.run dec first).ticks dec second := by
  induction first generalizing w with
  | nil => rfl
  | cons m rest ih =>
    rw [List.cons_append, ticks, ticks, ih, List.append_assoc]
    rfl

theorem run_concat (w : PlayWorker W) (moves : List (Move W)) (m : Move W) :
    w.run dec (moves ++ [m]) = (w.run dec moves).move dec m := List.foldl_append

theorem ticks_concat (w : PlayWorker W) (moves : List (Move W)) (m : Move W) :
    w.ticks dec (moves ++ [m]) = w.ticks dec moves ++ ((w.run dec moves).tick? m).toList := by
  rw [ticks_append, ticks, ticks, List.append_nil]

/-- The entries that these ticks release. -/
def releasedBy (ticks : List Tick) : List (JitterEntry Received) := ticks.filterMap Tick.entry?

/-- How many of these ticks come no earlier than this. -/
def ticksFrom (moment : ℕ) (ticks : List Tick) : ℕ := ticks.countP fun t => moment ≤ t.moment

/-- A worker that learned, with this buffer and so many entries played, that no more objects will
come, and has made these ticks since. -/
structure Drains (b : JitterBuffer Received) (played closed : ℕ) (ticks : List Tick)
    (v : PlayWorker W) : Prop where
  deaf : v.listening = false
  uncancelled : v.cancelled = false
  begun : v.tickAt.isSome = true
  delay : v.player.buffer.minDelay = b.minDelay
  released : releasedBy ticks ++ v.player.buffer.entries = b.entries
  played : v.player.stats.entriesPlayed = played + (releasedBy ticks).length
  /-- As long as the worker goes on, each tick after the least delay has released an entry. -/
  progress : (v.ended = none ∧ (ticks ≠ [] → v.player.buffer.entries ≠ []) ∧
      ticksFrom (closed + b.minDelay) ticks + v.player.buffer.entries.length ≤ b.entries.length) ∨
    (v.ended = some .stopped ∧ v.player.buffer.entries = [] ∧
      ticksFrom (closed + b.minDelay) ticks ≤ max b.entries.length 1)

theorem tick?_go (w : PlayWorker W) (now : ℕ) : w.tick? (.go now) =
    if w.ticksAt now then some ⟨now, (w.player.buffer.pop? now).map Prod.fst⟩ else none := rfl

theorem releasedBy_concat (ticks : List Tick) (t : Tick) :
    releasedBy (ticks ++ [t]) = releasedBy ticks ++ t.entry?.toList := by
  unfold releasedBy
  rw [List.filterMap_append]
  cases ht : t.entry? <;> simp [ht]

theorem ticksFrom_concat (moment : ℕ) (ticks : List Tick) (t : Tick) :
    ticksFrom moment (ticks ++ [t]) =
      ticksFrom moment ticks + if moment ≤ t.moment then 1 else 0 := by
  unfold ticksFrom
  simp [List.countP_append, List.countP_singleton]

theorem step_of_not_ticksAt (hdeaf : w.listening = false) (huncancelled : w.cancelled = false)
    (hbegun : w.tickAt.isSome = true) (h : w.ticksAt now = false) : w.step dec now = w := by
  obtain ⟨deadline, hdeadline⟩ := Option.isSome_iff_exists.mp hbegun
  unfold step
  unfold ticksAt at h
  cases hended : w.ended with
  | some how => rfl
  | none =>
    simp only [hended, hdeadline, hdeaf, huncancelled, Bool.false_and, Bool.not_false,
      Bool.true_and] at h ⊢
    simp [h]

theorem step_of_ticksAt (dec : DecoderFamily W) (h : w.ticksAt now = true) :
    w.ended = none ∧ ∃ deadline, w.step dec now = w.tick dec now deadline := by
  unfold ticksAt at h
  split at h
  · rename_i deadline hended hdeadline
    simp only [Bool.and_eq_true, Bool.not_eq_true'] at h
    obtain ⟨⟨hcancelled, hnews⟩, hdue⟩ := h
    refine ⟨hended, deadline, ?_⟩
    unfold step
    simp [hended, hdeadline, hcancelled, hnews, hdue]
  · cases h

namespace Drains

variable {b : JitterBuffer Received} {played closed : ℕ} {ticks : List Tick} {v : PlayWorker W}

/-- Nothing of what counts is changed. -/
theorem congr (h : Drains b played closed ticks v) {u : PlayWorker W}
    (hlistening : u.listening = v.listening) (hcancelled : u.cancelled = v.cancelled)
    (hbegun : u.tickAt = v.tickAt) (hended : u.ended = v.ended)
    (hbuffer : u.player.buffer = v.player.buffer)
    (hplayed : u.player.stats.entriesPlayed = v.player.stats.entriesPlayed) :
    Drains b played closed ticks u where
  deaf := hlistening.trans h.deaf
  uncancelled := hcancelled.trans h.uncancelled
  begun := hbegun ▸ h.begun
  delay := hbuffer ▸ h.delay
  released := hbuffer ▸ h.released
  played := hplayed.trans h.played
  progress := by
    rw [hended, hbuffer]
    exact h.progress

theorem progress_of_going (h : Drains b played closed ticks v) (hgoing : v.ended = none) :
    (ticks ≠ [] → v.player.buffer.entries ≠ []) ∧
      ticksFrom (closed + b.minDelay) ticks + v.player.buffer.entries.length ≤
        b.entries.length := by
  rcases h.progress with ⟨-, hprogress⟩ | ⟨hended, -, -⟩
  · exact hprogress
  · rw [hgoing] at hended
    cases hended

/-- A worker whose player has ticked goes on with what is left, or stops. -/
theorem after (h : Drains b played closed ticks v) (hgoing : v.ended = none) {t : Tick}
    {p : Player W} (hdelay : p.buffer.minDelay = b.minDelay)
    (hreleased : t.entry?.toList ++ p.buffer.entries = v.player.buffer.entries)
    (hplayed : p.stats.entriesPlayed = v.player.stats.entriesPlayed + t.entry?.toList.length)
    (hlate : closed + b.minDelay ≤ t.moment → v.player.buffer.entries ≠ [] → t.entry? ≠ none)
    (next : ℕ) :
    let u := { v with tickAt := some next, player := p }
    Drains b played closed (ticks ++ [t])
      (if !u.listening && u.player.buffer.size == 0 then u.finish .stopped else u) := by
  intro u
  have hall : releasedBy (ticks ++ [t]) ++ p.buffer.entries = b.entries := by
    rw [releasedBy_concat, List.append_assoc, hreleased, h.released]
  have hcount : p.stats.entriesPlayed = played + (releasedBy (ticks ++ [t])).length := by
    rw [releasedBy_concat, List.length_append, hplayed, h.played, Nat.add_assoc]
  obtain ⟨hnone, hbound⟩ := h.progress_of_going hgoing
  have hlength := congrArg List.length hreleased
  rw [List.length_append] at hlength
  -- A late tick of a player with something in its buffer makes the buffer shorter.
  have hshorter : closed + b.minDelay ≤ t.moment → v.player.buffer.entries ≠ [] →
      t.entry?.toList.length = 1 := by
    intro hmoment hne
    obtain ⟨e, he⟩ := Option.ne_none_iff_exists'.mp (hlate hmoment hne)
    rw [he]
    rfl
  have hstop : (!u.listening && u.player.buffer.size == 0) = p.buffer.entries.isEmpty := by
    cases hentries : p.buffer.entries <;> simp [u, h.deaf, JitterBuffer.size, hentries]
  rw [hstop]
  cases hempty : p.buffer.entries.isEmpty with
  | true =>
    rw [List.isEmpty_iff] at hempty
    refine ⟨h.deaf, h.uncancelled, rfl, hdelay, hall, hcount, Or.inr ⟨rfl, hempty, ?_⟩⟩
    rw [ticksFrom_concat]
    split
    · rename_i hmoment
      by_cases hfirst : ticks = []
      · rw [hfirst]
        exact Nat.le_max_right _ 1
      · have := hshorter hmoment (hnone hfirst)
        omega
    · omega
  | false =>
    have hne : p.buffer.entries ≠ [] := by
      intro hnil
      rw [hnil] at hempty
      cases hempty
    refine ⟨h.deaf, h.uncancelled, rfl, hdelay, hall, hcount, Or.inl ⟨hgoing, fun _ => hne, ?_⟩⟩
    change _ + p.buffer.entries.length ≤ _
    rw [ticksFrom_concat]
    split
    · rename_i hmoment
      have hbefore : v.player.buffer.entries ≠ [] := by
        rw [← hreleased]
        exact List.append_ne_nil_of_right_ne_nil _ hne
      have := hshorter hmoment hbefore
      omega
    · omega

/-- A tick releases the first entry, or finds it too young, or finds none and is the last. -/
theorem tick (h : Drains b played closed ticks v) (hentered : ∀ e ∈ b.entries, e.enqueued ≤ closed)
    (hgoing : v.ended = none) (now deadline : ℕ) :
    Drains b played closed (ticks ++ [⟨now, (v.player.buffer.pop? now).map Prod.fst⟩])
      (v.tick dec now deadline) := by
  cases hpop : v.player.buffer.pop? now with
  | none =>
    obtain ⟨hbuffer, hplayed⟩ := Player.tick_waiting dec hpop
    apply h.after hgoing
    · rw [hbuffer, h.delay]
    · rw [hbuffer]
      rfl
    · exact hplayed
    · intro hlate hne
      obtain ⟨e, rest, hentries⟩ := List.exists_cons_of_ne_nil hne
      have hage : e.enqueued ≤ closed := by
        apply hentered
        rw [← h.released, hentries]
        exact List.mem_append_right _ List.mem_cons_self
      have hold : v.player.buffer.minDelay ≤ now - e.enqueued := by
        rw [h.delay]
        change closed + b.minDelay ≤ now at hlate
        omega
      rw [JitterBuffer.pop?_eq_some_iff.mpr ⟨rest, hentries, hold, rfl⟩] at hpop
      cases hpop
  | some released =>
    obtain ⟨e, buffer⟩ := released
    obtain ⟨hbuffer, hplayed⟩ := Player.tick_releasing dec hpop
    obtain ⟨rest, hentries, -, rfl⟩ := JitterBuffer.pop?_eq_some_iff.mp hpop
    apply h.after hgoing
    · rw [hbuffer]
      exact h.delay
    · rw [hbuffer, hentries]
      rfl
    · exact hplayed
    · exact fun _ _ => Option.some_ne_none e

theorem move (h : Drains b played closed ticks v) (hentered : ∀ e ∈ b.entries, e.enqueued ≤ closed)
    {m : Move W} (hm : m ≠ .cancel) :
    Drains b played closed (ticks ++ (v.tick? m).toList) (v.move dec m) := by
  have hsilent : ∀ {u : PlayWorker W}, Drains b played closed ticks u →
      Drains b played closed (ticks ++ (none : Option Tick).toList) u := by
    intro u hu
    rw [Option.toList_none, List.append_nil]
    exact hu
  cases m with
  | go now =>
    change Drains b played closed _ (v.step dec now)
    cases hticks : v.ticksAt now with
    | false =>
      rw [step_of_not_ticksAt h.deaf h.uncancelled h.begun hticks, tick?_go, hticks]
      exact hsilent h
    | true =>
      obtain ⟨hgoing, deadline, hstep⟩ := step_of_ticksAt dec hticks
      rw [hstep, tick?_go, hticks]
      exact h.tick hentered hgoing now deadline
  | mail f => exact hsilent (h.congr rfl rfl rfl rfl rfl rfl)
  | codec run =>
    obtain ⟨_, _, hcodec⟩ := Player.actOnCodec_footprint v.player run
    refine hsilent (h.congr rfl rfl rfl rfl ?_ ?_)
    · exact (congrArg Player.buffer hcodec :)
    · exact (congrArg (fun p => p.stats.entriesPlayed) hcodec :)
  | screen f => exact hsilent (h.congr rfl rfl rfl rfl rfl rfl)
  | cancel => exact absurd rfl hm

theorem run (dec : DecoderFamily W) (h : Drains b played closed ticks v)
    (hentered : ∀ e ∈ b.entries, e.enqueued ≤ closed) {moves : List (Move W)}
    (hmoves : .cancel ∉ moves) :
    Drains b played closed (ticks ++ v.ticks dec moves) (v.run dec moves) := by
  induction moves generalizing ticks v with
  | nil =>
    rw [PlayWorker.ticks, List.append_nil]
    exact h
  | cons m rest ih =>
    have hm : m ≠ .cancel := fun heq => hmoves (heq ▸ List.mem_cons_self)
    rw [PlayWorker.ticks, ← List.append_assoc]
    exact ih (h.move hentered hm) fun hrest => hmoves (List.mem_cons_of_mem m hrest)

/-- The worker goes on or has stopped, and has not made too many ticks. -/
theorem ending (h : Drains b played closed ticks v) :
    (v.ended = none ∨ v.ended = some .stopped) ∧
      ticksFrom (closed + b.minDelay) ticks ≤ max b.size 1 := by
  rcases h.progress with ⟨hgoing, -, hbound⟩ | ⟨hstopped, -, hbound⟩
  · refine ⟨Or.inl hgoing, Nat.le_trans ?_ (Nat.le_max_left _ _)⟩
    exact Nat.le_trans (Nat.le_add_right _ _) hbound
  · exact ⟨Or.inr hstopped, hbound⟩

/-- A worker that goes on has an entry left for one more tick. -/
theorem stopped_of_last (h : Drains b played closed ticks v)
    (hlast : ticksFrom (closed + b.minDelay) ticks = max b.size 1) : v.ended = some .stopped := by
  rcases h.progress with ⟨-, hne, hbound⟩ | ⟨hstopped, -⟩
  · have hsize : b.size = b.entries.length := rfl
    have hsome : ticks ≠ [] := by
      rintro rfl
      have hnone : ticksFrom (closed + b.minDelay) [] = 0 := rfl
      omega
    have hleft : 0 < v.player.buffer.entries.length := List.length_pos_iff.mpr (hne hsome)
    omega
  · exact hstopped

theorem drained (h : Drains b played closed ticks v) (hstopped : v.ended = some .stopped) :
    v.player.buffer.isEmpty = true ∧ v.player.stats.entriesPlayed = played + b.size ∧
      releasedBy ticks = b.entries := by
  rcases h.progress with ⟨hgoing, -⟩ | ⟨-, hempty, -⟩
  · rw [hgoing] at hstopped
    cases hstopped
  · have hreleased := h.released
    rw [hempty, List.append_nil] at hreleased
    refine ⟨List.isEmpty_iff.mpr hempty, ?_, hreleased⟩
    rw [h.played, hreleased]
    rfl

end Drains

theorem LearnsEnd.drains (h : w.LearnsEnd) (dec : DecoderFamily W) (closed : ℕ) :
    Drains w.player.buffer w.player.stats.entriesPlayed closed [] (w.step dec closed) := by
  rw [h.step]
  refine ⟨rfl, h.uncancelled, h.begun, rfl, rfl, rfl, Or.inl ⟨h.going, nofun, ?_⟩⟩
  exact (Nat.zero_add _).le

/-- Turns come for ever, in the order of time, and nobody cancels the worker. -/
structure Attended (moves : ℕ → Move W) : Prop where
  uncancelled : ∀ k, moves k ≠ .cancel
  ordered : ∀ i j first second, i ≤ j → moves i = .go first → moves j = .go second →
    first ≤ second
  unending : ∀ k moment, ∃ j now, k ≤ j ∧ moment ≤ now ∧ moves j = .go now

/-- The first moves. -/
def upTo (moves : ℕ → Move W) (k : ℕ) : List (Move W) := (List.range k).map moves

theorem upTo_succ (moves : ℕ → Move W) (k : ℕ) :
    upTo moves (k + 1) = upTo moves k ++ [moves k] := by
  simp [upTo, List.range_succ]

theorem cancel_notMem_upTo {moves : ℕ → Move W} (h : Attended moves) (k : ℕ) :
    .cancel ∉ upTo moves k := by
  intro hmem
  obtain ⟨j, -, hj⟩ := List.mem_map.mp hmem
  exact h.uncancelled j hj

theorem ticksAt_of_due (hgoing : w.ended = none) (hdeaf : w.listening = false)
    (huncancelled : w.cancelled = false) {deadline : ℕ} (hdeadline : w.tickAt = some deadline)
    (hdue : Timer.tick deadline * 1000 ≤ now) : w.ticksAt now = true := by
  have : Timer.due now deadline = true := by
    unfold Timer.due Timer.passed
    exact decide_eq_true (by omega)
  unfold ticksAt
  simp [hgoing, hdeadline, hdeaf, huncancelled, this]

/-- Without a tick the timer stays as it is. -/
theorem tickAt_move (hdeaf : w.listening = false) (huncancelled : w.cancelled = false)
    (hbegun : w.tickAt.isSome = true) {m : Move W} (hm : w.tick? m = none) :
    (w.move dec m).tickAt = w.tickAt := by
  cases m with
  | go now =>
    have hticks : w.ticksAt now = false := by
      rw [tick?_go] at hm
      by_contra hne
      rw [Bool.not_eq_false] at hne
      rw [if_pos hne] at hm
      cases hm
    exact congrArg tickAt (step_of_not_ticksAt hdeaf huncancelled hbegun hticks)
  | mail f => rfl
  | codec run => rfl
  | screen f => rfl
  | cancel => rfl

namespace Drains

variable {b : JitterBuffer Received} {played closed : ℕ} {v : PlayWorker W} {moves : ℕ → Move W}

/-- A worker that goes on ticks again and again, as its timer only waits. -/
theorem exists_tick (h : ∀ k, Drains b played closed (v.ticks dec (upTo moves k))
      (v.run dec (upTo moves k))) (hgoing : ∀ k, (v.run dec (upTo moves k)).ended = none)
    (hmoves : Attended moves) (k : ℕ) :
    ∃ j now, k ≤ j ∧ moves j = .go now ∧ (v.run dec (upTo moves j)).ticksAt now = true := by
  by_contra hnone
  push Not at hnone
  have hstill : ∀ j, k ≤ j →
      (v.run dec (upTo moves j)).tickAt = (v.run dec (upTo moves k)).tickAt := by
    intro j hj
    induction j, hj using Nat.le_induction with
    | base => rfl
    | succ j hj ih =>
      rw [upTo_succ, run_concat]
      refine Eq.trans (tickAt_move (h j).deaf (h j).uncancelled (h j).begun ?_) ih
      cases hm : moves j with
      | go now =>
        rw [tick?_go]
        exact if_neg (hnone j now hj hm)
      | mail f => rfl
      | codec run => rfl
      | screen f => rfl
      | cancel => rfl
  obtain ⟨deadline, hdeadline⟩ := Option.isSome_iff_exists.mp (h k).begun
  obtain ⟨j, now, hj, hnow, hm⟩ := hmoves.unending k (Timer.tick deadline * 1000)
  exact hnone j now hj hm
    (ticksAt_of_due (hgoing j) (h j).deaf (h j).uncancelled ((hstill j hj).trans hdeadline) hnow)

/-- As many ticks after any moment as one likes. -/
theorem exists_ticksFrom (h : ∀ k, Drains b played closed (v.ticks dec (upTo moves k))
      (v.run dec (upTo moves k))) (hgoing : ∀ k, (v.run dec (upTo moves k)).ended = none)
    (hmoves : Attended moves) (moment n : ℕ) :
    ∃ k, n ≤ ticksFrom moment (v.ticks dec (upTo moves k)) := by
  obtain ⟨start, first, -, hfirst, hstart⟩ := hmoves.unending 0 moment
  have hgrows : ∀ k j, k ≤ j → ticksFrom moment (v.ticks dec (upTo moves k)) ≤
      ticksFrom moment (v.ticks dec (upTo moves j)) := by
    intro k j hj
    induction j, hj using Nat.le_induction with
    | base => exact Nat.le_refl _
    | succ j hj ih =>
      refine ih.trans ?_
      rw [upTo_succ, ticks_concat]
      exact (List.sublist_append_left _ _).countP_le
  induction n with
  | zero => exact ⟨0, Nat.zero_le _⟩
  | succ n ih =>
    obtain ⟨k, hk⟩ := ih
    obtain ⟨j, now, hj, hm, hticks⟩ := exists_tick h hgoing hmoves (max start k)
    have hlate : moment ≤ now :=
      hfirst.trans (hmoves.ordered start j first now ((Nat.le_max_left _ _).trans hj) hstart hm)
    refine ⟨j + 1, ?_⟩
    rw [upTo_succ, ticks_concat, hm, tick?_go, if_pos hticks, Option.toList_some,
      ticksFrom_concat, if_pos hlate]
    exact Nat.succ_le_succ (hk.trans (hgrows k j ((Nat.le_max_right _ _).trans hj)))

end Drains

/-- A worker learns that no more objects will come, in whatever state it is and whatever has been
received when. As long as it is not cancelled, it makes at most as many ticks after the least delay
as entries are buffered, or one if there are none, and has stopped with the last of these. When it
has stopped, it has released all these entries in their order, and each of them was played. And if
it always has another turn at a later time, then it stops. -/
theorem drains_and_stops (dec : DecoderFamily W) {w : PlayWorker W} {closed : ℕ}
    (hreachable : Reachable dec w closed) (hend : w.LearnsEnd) :
    let b := w.player.buffer
    let deaf := w.step dec closed
    (∀ moves : List (Move W), .cancel ∉ moves →
      let v := deaf.run dec moves
      let ticks := deaf.ticks dec moves
      let late := ticksFrom (closed + b.minDelay) ticks
      (v.ended = none ∨ v.ended = some .stopped) ∧ late ≤ max b.size 1 ∧
      (late = max b.size 1 → v.ended = some .stopped) ∧
      (v.ended = some .stopped → v.player.buffer.isEmpty = true ∧
        v.player.stats.entriesPlayed = w.player.stats.entriesPlayed + b.size ∧
        releasedBy ticks = b.entries)) ∧
    ∀ moves : ℕ → Move W, Attended moves →
      ∃ k, (deaf.run dec (upTo moves k)).ended = some .stopped := by
  intro b deaf
  have hdrains : ∀ moves : List (Move W), .cancel ∉ moves →
      Drains b w.player.stats.entriesPlayed closed (deaf.ticks dec moves) (deaf.run dec moves) := by
    intro moves hmoves
    have h := (hend.drains dec closed).run dec hreachable.enteredBy hmoves
    rwa [List.nil_append] at h
  constructor
  · intro moves hmoves v ticks late
    have h := hdrains moves hmoves
    exact ⟨h.ending.1, h.ending.2, h.stopped_of_last, h.drained⟩
  · intro moves hmoves
    by_contra hnever
    push Not at hnever
    have h := fun k => hdrains (upTo moves k) (cancel_notMem_upTo hmoves k)
    have hgoing : ∀ k, (deaf.run dec (upTo moves k)).ended = none := by
      intro k
      rcases (h k).progress with ⟨hgoing, -⟩ | ⟨hstopped, -⟩
      · exact hgoing
      · exact absurd hstopped (hnever k)
    obtain ⟨k, hk⟩ := Drains.exists_ticksFrom h hgoing hmoves (closed + b.minDelay)
      (b.entries.length + 1)
    have := ((h k).progress_of_going (hgoing k)).2
    omega

namespace YoungFront

/-- The second object comes three milliseconds before the first, and nobody sends a third. -/
def arrival (object : ℕ) : Move SimulatedCodec :=
  .mail fun m => (m.post ⟨1, 1, 0, object, ⟨#[7]⟩, .normal⟩).getD m

def fresh : PlayWorker SimulatedCodec :=
  .new (.new ⟨.audio, 2000, 4, 1000⟩ {} { codec := "opus", bitrate := 1, framerate := 1.0 }
    (.empty 4) 0) 1

def worker : PlayWorker SimulatedCodec :=
  fresh.run SimulatedCodec.decoders
    [.go 0, arrival 1, .go 0, arrival 0, .go 3000, .mail Mailbox.leave]

theorem reachable : Reachable SimulatedCodec.decoders worker 3000 := by
  have hfresh : Reachable SimulatedCodec.decoders fresh 0 := .new _ _ _ _ _ _
  have hbegun := hfresh.move (.go 0) fun _ h => Option.some.inj h.symm
  have hsecond := (hbegun.move (arrival 1) nofun).move (.go 0) fun _ h => Option.some.inj h.symm
  have hfirst := ((hsecond.later (Nat.zero_le 3000)).move (arrival 0) nofun).move (.go 3000)
    fun _ h => Option.some.inj h.symm
  exact hfirst.move (.mail Mailbox.leave) nofun

theorem attended : Attended (W := SimulatedCodec) fun k => .go (3000 + 1000 * k) where
  uncancelled _ := nofun
  ordered i j first second hle hi hj := by
    cases hi
    cases hj
    omega
  unending k moment := ⟨k + moment, _, Nat.le_add_right _ _, by omega, rfl⟩

end YoungFront

open YoungFront in
theorem young_front_drains :
    let dec := SimulatedCodec.decoders
    let deaf := worker.step dec 3000
    let turns : List (Move SimulatedCodec) := [.go 3000, .go 4000, .go 5000, .go 6000]
    Reachable dec worker 3000 ∧ worker.LearnsEnd ∧
    worker.player.buffer.entries.map (fun e => (e.slot.object, e.enqueued)) = [(0, 3000), (1, 0)] ∧
    (deaf.ticks dec turns).map (fun t => (t.moment, t.entry?.map fun e => e.slot.object)) =
      [(3000, none), (4000, none), (5000, some 0), (6000, some 1)] ∧
    (deaf.run dec turns).ended = some .stopped ∧
    (deaf.run dec turns).player.stats.entriesPlayed = 2 ∧
    ∃ k, (deaf.run dec (upTo (fun k => .go (3000 + 1000 * k)) k)).ended = some .stopped := by
  intro dec deaf turns
  have hend : worker.LearnsEnd :=
    ⟨by decide +kernel, by decide +kernel, by decide +kernel, by decide +kernel, by decide +kernel⟩
  obtain ⟨hdrains, hstops⟩ := drains_and_stops dec reachable hend
  have hturns : .cancel ∉ turns := by simp [turns]
  obtain ⟨-, -, hlast, hdone⟩ := hdrains turns hturns
  have hstopped := hlast (by decide +kernel)
  exact ⟨reachable, hend, by decide +kernel, by decide +kernel, hstopped, (hdone hstopped).2.1,
    hstops _ attended⟩

end PlayWorker

end LiveMedia

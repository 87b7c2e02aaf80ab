import Mathlib.Data.Nat.Notation
import LiveMedia.Proofs.Publisher.WorkerSteps

/-!
# What the sources of a worker may do

A source acts on encoders by the effects of its script alone. A worker holds the source of the
stream at hand, perhaps one that waits for the end of that stream, and those that were posted. It
gets no others by itself, and what is left of a source has no other effects than the source had.
-/

namespace LiveMedia
set_option autoImplicit false

variable {W S : Type} {R : (W → W × List Chunk) → Prop}

namespace Source

/-- All that the source may yet do to encoders is as `R` says. -/
def Only (R : (W → W × List Chunk) → Prop) (src : Source W) : Prop :=
  ∀ run, Cue.effect run ∈ src.cues → R run

/-- The steady pace does nothing to encoders. -/
theorem only_askTicker {now : ℕ} {ticker : Option Ticker} {stalls : Bool} {rest : Source W}
    (h : (askTicker now ticker stalls).rest? = some rest) : rest.Only R := by
  have hframes : ∀ run, Cue.effect run ∉ rest.cues := by
    unfold askTicker at h
    split at h
    · split at h <;> cases h
    · split at h
      · split at h <;> cases h
      · split at h
        · cases h
          exact fun _ => List.not_mem_nil
        · cases h
          exact fun _ hrun => nomatch List.mem_singleton.mp hrun
  exact fun run hrun => absurd hrun (hframes run)

theorem only_ask {now : ℕ} {ticker : Option Ticker} {stalls : Bool} {cues : List (Cue W)}
    (h : Only R ⟨cues, ticker, stalls⟩) {codec : W} {before : List Chunk} {rest : Source W}
    (hrest : (ask now ticker stalls cues codec before).supply.rest? = some rest) :
    rest.Only R := by
  induction cues generalizing codec before with
  | nil => exact only_askTicker hrest
  | cons cue cues ih =>
    have hlater : Only R ⟨cues, ticker, stalls⟩ :=
      fun run hrun => h run (List.mem_cons_of_mem _ hrun)
    unfold ask at hrest
    cases cue with
    | frame f => exact Option.some.inj hrest ▸ hlater
    | effect run => exact ih hlater hrest
    | advance us => exact Option.some.inj hrest ▸ hlater
    | pause ms =>
      simp only at hrest
      split at hrest
      · exact ih hlater hrest
      · exact Option.some.inj hrest ▸ hlater
    | breakDown => cases hrest

theorem Only.next {src : Source W} (h : src.Only R) {now : ℕ} {codec : W} {rest : Source W}
    (hrest : (src.next now codec).supply.rest? = some rest) : rest.Only R :=
  only_ask h hrest

end Source

def PublishCommand.Only (R : (W → W × List Chunk) → Prop) : PublishCommand W → Prop
  | configure _ => True
  | attach src => src.Only R

/-- The source that waits for the stream at hand to be over. -/
def PublishPhase.next? : PublishPhase W → Option (Source W)
  | .draining next => next
  | .closing next => next
  | _ => none

theorem Mailbox.queue_of_take? {α : Type} {m m' : Mailbox α} {a : α}
    (h : m.take? = some (a, m')) : m.channel.queue = a :: m'.channel.queue := by
  unfold take? Channel.take? at h
  cases hqueue : m.channel.queue with
  | nil =>
    rw [hqueue] at h
    cases h
  | cons b rest =>
    rw [hqueue] at h
    cases h
    rfl

theorem Mailbox.queue_of_post {α : Type} {m m' : Mailbox α} {a : α} (h : m.post a = some m') :
    m'.channel.queue = m.channel.queue ++ [a] := by
  unfold post at h
  split at h
  · rename_i channel hoffer
    cases h
    unfold Channel.offer at hoffer
    split at hoffer
    · cases hoffer
    · split at hoffer <;> cases hoffer
      rfl
  · cases h

namespace PublishWorker

/-- All that may yet happen to encoders through the sources of the worker is as `R` says. -/
structure Sources (R : (W → W × List Chunk) → Prop) (w : PublishWorker W) : Prop where
  source : ∀ src, w.source = some src → src.Only R
  next : ∀ src, w.phase.next? = some src → src.Only R
  posted : ∀ c ∈ w.mailbox.channel.queue, c.Only R

variable {w w' : PublishWorker W}

theorem Sources.congr (h : w.Sources R) (hsource : w'.source = w.source)
    (hphase : w'.phase = w.phase) (hmailbox : w'.mailbox = w.mailbox) : w'.Sources R :=
  ⟨hsource ▸ h.source, hphase ▸ h.next, hmailbox ▸ h.posted⟩

theorem sources_new (p : Publisher W) : (new p).Sources R :=
  ⟨nofun, nofun, fun _ hc => absurd hc List.not_mem_nil⟩

/-- A worker that is gone has dropped its sources. -/
theorem sources_finish (w : PublishWorker W) (how : WorkerEnd) : (w.finish how).Sources R :=
  ⟨nofun, nofun, fun _ hc => absurd hc List.not_mem_nil⟩

namespace Sources

theorem begin (h : w.Sources R) (now : ℕ) {src : Source W} (hsrc : src.Only R) :
    (w.begin now src).Sources R :=
  ⟨fun _ hsame => Option.some.inj hsame ▸ hsrc, nofun, h.posted⟩

theorem conclude (h : w.Sources R) {next : Option (Source W)} (hphase : w.phase = .closing next)
    (now : ℕ) : (w.conclude now next).Sources R := by
  have hserving : ({ w with publisher := w.publisher.endStream, phase := .serving } :
      PublishWorker W).Sources R := ⟨h.source, nofun, h.posted⟩
  unfold PublishWorker.conclude
  cases next with
  | some src => exact hserving.begin now (h.next src (by rw [hphase]; rfl))
  | none =>
    simp only
    split
    · exact hserving
    · exact sources_finish _ _

theorem post (h : w.Sources R) {c : PublishCommand W} (hc : c.Only R) :
    (w.post c).2.Sources R := by
  unfold PublishWorker.post
  split
  · rename_i mailbox hpost
    refine ⟨h.source, h.next, fun c' hc' => ?_⟩
    rw [Mailbox.queue_of_post hpost] at hc'
    exact (List.mem_append.mp hc').elim (h.posted c') fun hlast => List.mem_singleton.mp hlast ▸ hc
  · exact h

theorem note (h : w.Sources R) (t : Transmission) (progress : Progress) :
    (w.note t progress).Sources R := by
  cases progress with
  | done result => exact h.congr rfl rfl rfl
  | going d => exact h.congr rfl rfl rfl
  | blocked d => exact h.congr rfl rfl rfl

section Steps

variable (enc : EncoderFamily W)

theorem endSource (h : w.Sources R) {next : Option (Source W)}
    (hnext : ∀ src, next = some src → src.Only R) : (w.endSource enc next).Sources R :=
  ⟨nofun, hnext, h.posted⟩

theorem follow (h : w.Sources R) (now : ℕ) {c : PublishCommand W} (hc : c.Only R) :
    (w.follow enc now c).Sources R := by
  cases c with
  | configure c => exact h.congr rfl rfl rfl
  | attach src =>
    unfold PublishWorker.follow PublishWorker.attach
    simp only
    split
    · exact h.endSource enc fun _ hsame => Option.some.inj hsame ▸ hc
    · exact h.begin now hc

theorem hear (h : w.Sources R) (now : ℕ) : (w.hear enc now).Sources R := by
  unfold PublishWorker.hear
  split
  · rename_i command mailbox htaken
    have hposted : ∀ c ∈ command :: mailbox.channel.queue, c.Only R :=
      Mailbox.queue_of_take? htaken ▸ h.posted
    have hleft : ({ w with mailbox := mailbox } : PublishWorker W).Sources R :=
      ⟨h.source, h.next, fun c hc => hposted c (List.mem_cons_of_mem _ hc)⟩
    exact hleft.follow enc now (hposted command List.mem_cons_self)
  · simp only
    split
    · exact h.congr rfl rfl rfl
    · exact sources_finish _ _

theorem askSource (h : w.Sources R) (now : ℕ) {src : Source W} (hsource : w.source = some src) :
    (w.askSource enc now src).1.Sources R := by
  have hrest : ∀ rest, (src.next now w.publisher.codec).supply.rest? = some rest → rest.Only R :=
    fun _ hsame => (h.source src hsource).next hsame
  unfold PublishWorker.askSource
  generalize src.next now w.publisher.codec = answer at hrest ⊢
  obtain ⟨supply, codec, gave⟩ := answer
  cases supply with
  | frame f rest =>
    simp only
    split
    · exact sources_finish _ _
    · exact ⟨hrest, h.next, h.posted⟩
  | wait deadline rest => exact ⟨hrest, h.next, h.posted⟩
  | moved us rest => exact ⟨hrest, h.next, h.posted⟩
  | stalled => exact ⟨h.source, h.next, h.posted⟩
  | ended => exact ⟨nofun, nofun, h.posted⟩
  | broken => exact sources_finish _ _

theorem serve (h : w.Sources R) (now : ℕ) : (w.serve enc now).1.Sources R := by
  unfold PublishWorker.serve
  split
  · exact sources_finish _ _
  · split
    · exact h.hear enc now
    · split
      · exact h.congr rfl rfl rfl
      · rename_i src _ hsource
        split
        · have hasking : ({ w with sourceWait := .over } : PublishWorker W).Sources R :=
            h.congr rfl rfl rfl
          exact hasking.askSource enc now hsource
        · exact h
      · exact h

theorem step (h : w.Sources R) (carrier : Carrier S) (who now : ℕ) (s : S) :
    (w.step enc carrier who now s).1.1.Sources R := by
  unfold PublishWorker.step
  split
  · exact h.note _ _
  · rename_i rest _ _
    have hfewer : ({ w with calls := rest } : PublishWorker W).Sources R := h.congr rfl rfl rfl
    exact hfewer.note _ _
  · split
    · exact h.serve enc now
    · rename_i next hphase
      split
      · exact h.congr rfl rfl rfl
      · exact ⟨h.source, fun src hsrc => h.next src (by rw [hphase]; exact hsrc), h.posted⟩
    · rename_i next hphase
      exact h.conclude hphase now
    · exact h

end Steps

end Sources

end PublishWorker

end LiveMedia

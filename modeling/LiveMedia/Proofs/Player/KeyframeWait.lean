import LiveMedia.Proofs.Player.Calls

/-!
# Waiting for a key chunk

Whether a delta chunk is decoded is settled by what has happened so far: the decoder in service must
have decoded a key chunk since it was made, since a chunk last failed and since the stream was last
replaced. The state of a player says no more than this about its history.
-/

namespace LiveMedia
set_option autoImplicit false

/-- An event in the life of a player that has a part in what its decoders are given. -/
inductive Milestone where
  /-- A newer stream has replaced the one that was played. -/
  | restart
  | call (c : DecoderCall)

namespace Milestone

/-- What the decoder numbered `i` has decoded before this is of no use after it. -/
def Unsettles (i : Nat) : Milestone → Prop
  | restart => True
  | call (.create made) => made = some i
  | call (.configure _ _) => False
  | call (.decode _ _ succeeded) => succeeded = false

/-- After this history the decoder has decoded a key chunk, and nothing has unsettled it since. -/
def Primed (history : List Milestone) (i : Nat) : Prop :=
  ∃ earlier c later, history = earlier ++ call (.decode i c true) :: later ∧ c.kind = .key ∧
    ∀ m ∈ later, ¬ m.Unsettles i

theorem Primed.append {history later : List Milestone} {i : Nat} (h : Primed history i)
    (hlater : ∀ m ∈ later, ¬ m.Unsettles i) : Primed (history ++ later) i := by
  obtain ⟨earlier, c, rest, rfl, hkind, hrest⟩ := h
  refine ⟨earlier, c, rest ++ later, by simp, hkind, ?_⟩
  intro m hm
  rcases List.mem_append.mp hm with hm | hm
  · exact hrest m hm
  · exact hlater m hm

theorem primed_key (history : List Milestone) (i : Nat) {c : Chunk} (hkind : c.kind = .key) :
    Primed (history ++ [call (.decode i c true)]) i :=
  ⟨history, c, [], rfl, hkind, fun _ hm => absurd hm List.not_mem_nil⟩

theorem not_primed_of_unsettles {history : List Milestone} {i : Nat} {m : Milestone}
    (hm : m.Unsettles i) : ¬ Primed (history ++ [m]) i := by
  rintro ⟨earlier, c, later, heq, _, hlater⟩
  rcases List.eq_nil_or_concat later with rfl | ⟨rest, last, rfl⟩
  · obtain ⟨_, hlast⟩ := List.append_inj' heq rfl
    cases hlast
    cases hm
  · rw [List.concat_eq_append, ← List.cons_append, ← List.append_assoc] at heq
    obtain ⟨_, hlast⟩ := List.append_inj' heq rfl
    cases hlast
    exact hlater m (by simp) hm

/-- Every delta chunk was given to a decoder that was primed at that time. -/
def Keyed (history : List Milestone) : Prop :=
  ∀ earlier i c ok later, history = earlier ++ call (.decode i c ok) :: later →
    c.kind = .delta → Primed earlier i

theorem Keyed.snoc {history : List Milestone} (h : Keyed history) {m : Milestone}
    (hm : ∀ i c ok, m = call (.decode i c ok) → c.kind = .delta → Primed history i) :
    Keyed (history ++ [m]) := by
  intro earlier i c ok later heq hkind
  rcases List.eq_nil_or_concat later with rfl | ⟨rest, last, rfl⟩
  · obtain ⟨rfl, hlast⟩ := List.append_inj' heq rfl
    cases hlast
    exact hm i c ok rfl hkind
  · rw [List.concat_eq_append, ← List.cons_append, ← List.append_assoc] at heq
    obtain ⟨rfl, _⟩ := List.append_inj' heq rfl
    exact h earlier i c ok rest rfl hkind

/-- The first chunk that a new decoder is given. -/
theorem Keyed.first_isKey {history : List Milestone} (h : Keyed history)
    {earlier between later : List Milestone} {i : Nat} {c : Chunk} {ok : Bool}
    (heq : history = earlier ++ call (.create (some i)) :: between ++
      call (.decode i c ok) :: later)
    (hfirst : ∀ c' ok', call (.decode i c' ok') ∉ between) : c.kind = .key := by
  cases hkind : c.kind with
  | key => rfl
  | delta =>
    obtain ⟨before, c', after, hsplit, _, hafter⟩ := h _ i c ok later heq hkind
    rcases List.append_eq_append_iff.mp hsplit with ⟨x, _, hx⟩ | ⟨x, _, hx⟩
    · cases x with
      | nil => cases hx
      | cons m x =>
        rw [List.cons_append, List.cons.injEq] at hx
        exact absurd (hx.2 ▸ by simp) (hfirst c' true)
    · cases x with
      | nil => cases hx
      | cons m x =>
        rw [List.cons_append, List.cons.injEq] at hx
        exact absurd rfl (hafter (call (.create (some i))) (hx.2 ▸ by simp))

end Milestone

namespace Player

open Milestone

variable {W : Type} (dec : DecoderFamily W)

def milestones (p : Player W) : Input W → List Milestone
  | .receive _ o => if p.epoch.any (· < o.epoch) then [.restart] else []
  | .tick now => (p.calls dec now).map .call
  | _ => []

def history (p : Player W) : List (Input W) → List Milestone
  | [] => []
  | i :: rest => p.milestones dec i ++ (p.step dec i).history rest

/-- What the state of a player tells about its history. -/
structure Remembers (p : Player W) (history : List Milestone) : Prop where
  decoder : p.decoding = true → p.decoder.isSome = true
  primed : ∀ i, p.decoder = some i → (p.decoding = true ↔ Primed history i)
  keyed : Keyed history

theorem remembers_new (settings : PlaySettings) (codec : W) (config : CodecConfig)
    (screen : Screen) (start : Nat) :
    (Player.new settings codec config screen start).Remembers [] where
  decoder := fun h => by cases h
  primed := fun i h => by cases h
  keyed := fun earlier i c ok later heq => by cases earlier <;> cases heq

theorem decoder_of_openDecoder {p : Player W} {i : Nat} (h : p.openDecoder dec = some i) :
    p.decoder = some i ∧ dec.state p.codec i ≠ .closed := by
  unfold openDecoder at h
  rw [Option.filter_eq_some_iff] at h
  exact ⟨h.1, by simpa using h.2⟩

theorem receive_decoding (p : Player W) (now : Nat) (o : Received) :
    (p.receive now o).decoder = p.decoder ∧
      (p.receive now o).decoding = (p.decoding && !p.epoch.any (· < o.epoch)) := by
  obtain ⟨_, _, _, _, _, _, _, h⟩ := receive_footprint p now o
  rw [h]
  exact ⟨rfl, rfl⟩

namespace Remembers

variable {p q : Player W} {h : List Milestone}

theorem congr (hp : p.Remembers h) (hdecoder : q.decoder = p.decoder)
    (hdecoding : q.decoding = p.decoding) : q.Remembers h where
  decoder := by rw [hdecoding, hdecoder]; exact hp.decoder
  primed := by rw [hdecoding, hdecoder]; exact hp.primed
  keyed := hp.keyed

/-- Without a decoder there is nothing to remember but the chunks that were given away. -/
theorem of_none (hk : Keyed h) (hdecoder : q.decoder = none) (hdecoding : q.decoding = false) :
    q.Remembers h where
  decoder := fun hd => by rw [hdecoding] at hd; cases hd
  primed := fun i hi => by rw [hdecoder] at hi; cases hi
  keyed := hk

/-- A new decoder, or one that is kept, is judged by the chunk that it is given. -/
theorem of_decode {i : Nat} {c : Chunk} {ok : Bool} (hk : Keyed h)
    (hc : c.kind = .delta → Primed h i) (hdecoder : q.decoder = some i)
    (hdecoding : q.decoding = ok) : q.Remembers (h ++ [.call (.decode i c ok)]) where
  decoder := fun _ => by rw [hdecoder]; rfl
  primed := by
    intro j hj
    rw [hdecoder] at hj
    cases hj
    rw [hdecoding]
    cases ok with
    | false => exact iff_of_false Bool.false_ne_true (not_primed_of_unsettles rfl)
    | true =>
      apply iff_of_true rfl
      cases hkind : c.kind with
      | key => exact primed_key h i hkind
      | delta =>
        apply (hc hkind).append
        intro m hm hu
        rw [List.mem_singleton.mp hm] at hu
        cases hu
  keyed := hk.snoc fun j c' ok' heq hkind => by
    cases heq
    exact hc hkind

theorem receive (hp : p.Remembers h) (now : Nat) (o : Received) :
    (p.receive now o).Remembers (h ++ p.milestones dec (.receive now o)) := by
  obtain ⟨hdecoder, hdecoding⟩ := receive_decoding p now o
  change (p.receive now o).Remembers (h ++ if p.epoch.any (· < o.epoch) then [.restart] else [])
  cases hnewer : p.epoch.any (· < o.epoch) with
  | false =>
    rw [hnewer, Bool.not_false, Bool.and_true] at hdecoding
    rw [if_neg Bool.false_ne_true, List.append_nil]
    exact hp.congr hdecoder hdecoding
  | true =>
    rw [hnewer, Bool.not_true, Bool.and_false] at hdecoding
    rw [if_pos rfl]
    refine ⟨fun hd => ?_, fun i _ => ?_, hp.keyed.snoc fun i c ok heq => ?_⟩
    · rw [hdecoding] at hd
      cases hd
    · rw [hdecoding]
      exact iff_of_false Bool.false_ne_true (not_primed_of_unsettles trivial)
    · cases heq

theorem tick (hp : p.Remembers h) (now : Nat) :
    (p.tick dec now).2.Remembers (h ++ p.milestones dec (.tick now)) := by
  obtain ⟨discards, hfate, _⟩ := p.tick_fate dec now
  change (p.tick dec now).2.Remembers (h ++ (p.calls dec now).map .call)
  generalize hd : (p.tick dec now).2.decoder = decoder at hfate
  generalize hs : (p.tick dec now).2.decoding = decoding at hfate
  generalize p.dueChunk? now = c? at hfate
  generalize p.calls dec now = calls at hfate ⊢
  cases hfate with
  | idle =>
    rw [List.map_nil, List.append_nil]
    exact hp.congr hd hs
  | waits hstate hkind =>
    rw [List.map_nil, List.append_nil]
    exact hp.congr hd (hs.trans hstate.symm)
  | lost hstate hkind hshut =>
    rw [List.map_nil, List.append_nil]
    exact of_none hp.keyed hd hs
  | @kept c i ok hstate hopen =>
    have hi := (decoder_of_openDecoder dec hopen).1
    refine of_decode hp.keyed ?_ (hd.trans hi) hs
    intro hkind
    refine (hp.primed i hi).mp (hstate.resolve_right ?_)
    rw [hkind]
    decide
  | refused hkind hshut =>
    refine of_none (hp.keyed.snoc ?_) hd hs
    intro i c ok heq
    cases heq
  | unfit i hkind hshut =>
    have hmade := hp.keyed.snoc (m := .call (.create (some i))) fun j c ok heq => by cases heq
    have hasked := hmade.snoc (m := .call (.configure i false)) fun j c ok heq => by cases heq
    rw [List.append_assoc] at hasked
    exact of_none hasked hd hs
  | @renewed c i ok setup hsetup hkind hshut =>
    have hmade := hp.keyed.snoc (m := .call (.create (some i))) fun j c ok heq => by cases heq
    have hready : Keyed (h ++ .call (.create (some i)) :: setup.map .call) := by
      rcases hsetup with rfl | rfl
      · exact hmade
      · have hasked := hmade.snoc (m := .call (.configure i true)) fun j c ok heq => by cases heq
        rwa [List.append_assoc] at hasked
    have hq := of_decode hready (c := c) (fun hdelta => by rw [hkind] at hdelta; cases hdelta) hd hs
    simpa using hq

theorem step (hp : p.Remembers h) (i : Input W) :
    (p.step dec i).Remembers (h ++ p.milestones dec i) := by
  cases i with
  | receive now o => exact hp.receive dec now o
  | tick now => exact hp.tick dec now
  | render =>
    obtain ⟨_, _, _, _, _, hr⟩ := renderOutputs_footprint p
    change p.renderOutputs.Remembers (h ++ [])
    rw [hr, List.append_nil]
    exact hp.congr rfl rfl
  | codec run =>
    obtain ⟨_, _, hc⟩ := actOnCodec_footprint p run
    change (p.actOnCodec run).Remembers (h ++ [])
    rw [hc, List.append_nil]
    exact hp.congr rfl rfl
  | view n =>
    change (p.actOnScreen fun s => (s.take n).2).Remembers (h ++ [])
    rw [List.append_nil]
    exact hp.congr rfl rfl
  | closeScreen =>
    change (p.actOnScreen Screen.close).Remembers (h ++ [])
    rw [List.append_nil]
    exact hp.congr rfl rfl

theorem run (hp : p.Remembers h) (inputs : List (Input W)) :
    (p.run dec inputs).Remembers (h ++ p.history dec inputs) := by
  induction inputs generalizing p h with
  | nil =>
    rw [history, List.append_nil]
    exact hp
  | cons i rest ih =>
    rw [history, ← List.append_assoc]
    exact ih (hp.step dec i)

end Remembers

def Ready (p : Player W) (history : List Milestone) : Prop :=
  ∃ i, p.decoder = some i ∧ dec.state p.codec i ≠ .closed ∧ Primed history i

theorem Remembers.ready_iff {p : Player W} {h : List Milestone} (hp : p.Remembers h) :
    p.Ready dec h ↔ p.decoding = true ∧ (p.openDecoder dec).isSome = true := by
  constructor
  · rintro ⟨i, hi, hstate, hprimed⟩
    refine ⟨(hp.primed i hi).mpr hprimed, ?_⟩
    unfold openDecoder
    simp [hi, hstate]
  · rintro ⟨hd, hopen⟩
    obtain ⟨i, hi⟩ := Option.isSome_iff_exists.mp hopen
    obtain ⟨hi, hstate⟩ := decoder_of_openDecoder dec hi
    exact ⟨i, hi, hstate, (hp.primed i hi).mp hd⟩

section Fates

variable {decoder opened decoder' : Option Nat} {decoding decoding' : Bool} {c : Chunk}
  {calls : List DecoderCall} {discards : Nat}

theorem Fate.of_delta
    (hfate : Fate decoder opened decoding (some c) calls decoder' decoding' discards)
    (hkind : c.kind = .delta) :
    (decoding = true ∧ opened.isSome = true →
      (∃ i ok, opened = some i ∧ calls = [.decode i c ok]) ∧ discards = 0) ∧
    (¬(decoding = true ∧ opened.isSome = true) → calls = [] ∧ discards = 1) := by
  cases hfate with
  | waits hstate _ => exact ⟨fun hr => by simp [hstate] at hr, fun _ => ⟨rfl, rfl⟩⟩
  | lost _ _ hshut => exact ⟨fun hr => by simp [hshut] at hr, fun _ => ⟨rfl, rfl⟩⟩
  | kept i _ hstate hopen =>
    have hd : decoding = true := hstate.resolve_right (by rw [hkind]; decide)
    constructor
    · intro _
      exact ⟨⟨i, decoding', hopen, rfl⟩, rfl⟩
    · intro hr
      exact absurd ⟨hd, by rw [hopen]; rfl⟩ hr
  | refused hkey _ => rw [hkey] at hkind; cases hkind
  | unfit _ hkey _ => rw [hkey] at hkind; cases hkind
  | renewed _ _ _ _ hkey _ => rw [hkey] at hkind; cases hkind

theorem Fate.of_key
    (hfate : Fate decoder opened decoding (some c) calls decoder' decoding' discards)
    (hkind : c.kind = .key) :
    (∃ i ok, .decode i c ok ∈ calls) ∨
      opened = none ∧ (calls = [.create none] ∨
        ∃ i, calls = [.create (some i), .configure i false]) := by
  cases hfate with
  | waits _ hdelta => rw [hdelta] at hkind; cases hkind
  | lost _ hdelta _ => rw [hdelta] at hkind; cases hkind
  | kept i _ _ _ => exact Or.inl ⟨i, decoding', List.mem_singleton_self _⟩
  | refused _ hshut => exact Or.inr ⟨hshut, Or.inl rfl⟩
  | unfit i _ hshut => exact Or.inr ⟨hshut, Or.inr ⟨i, rfl⟩⟩
  | renewed i _ setup _ _ _ => exact Or.inl ⟨i, decoding', by simp⟩

end Fates

/-- In every run of a new player, whatever breaks in between: a delta chunk that is released is
given to the decoder in service when that one is ready for it, and is thrown away and counted once
otherwise; a key chunk that is released is given to a decoder unless a new one is needed and cannot
be made or configured; and the first chunk that a new decoder is given is a key chunk. -/
theorem keyframe_wait (settings : PlaySettings) (codec : W) (config : CodecConfig)
    (screen : Screen) (start : Nat) (inputs : List (Input W)) :
    let fresh := Player.new settings codec config screen start
    let p := fresh.run dec inputs
    let h := fresh.history dec inputs
    (∀ now c, p.dueChunk? now = some c → c.kind = .delta →
      (p.Ready dec h → (∃ i ok, p.decoder = some i ∧ p.calls dec now = [.decode i c ok]) ∧
        (p.tick dec now).2.counts.keyframeWaitDiscards = p.counts.keyframeWaitDiscards) ∧
      (¬ p.Ready dec h → p.calls dec now = [] ∧
        (p.tick dec now).2.counts.keyframeWaitDiscards = p.counts.keyframeWaitDiscards + 1)) ∧
    (∀ now c, p.dueChunk? now = some c → c.kind = .key →
      (∃ i ok, .decode i c ok ∈ p.calls dec now) ∨
      p.openDecoder dec = none ∧ (p.calls dec now = [.create none] ∨
        ∃ i, p.calls dec now = [.create (some i), .configure i false])) ∧
    (∀ earlier i between c ok later,
      h = earlier ++ .call (.create (some i)) :: between ++ .call (.decode i c ok) :: later →
      (∀ c' ok', .call (.decode i c' ok') ∉ between) → c.kind = .key) := by
  intro fresh p h
  have hp : p.Remembers h := (remembers_new settings codec config screen start).run dec inputs
  refine ⟨?_, ?_, fun _ _ _ _ _ _ heq hfirst => hp.keyed.first_isKey heq hfirst⟩
  · intro now c hdue hkind
    obtain ⟨discards, hfate, hcount⟩ := p.tick_fate dec now
    rw [hdue] at hfate
    obtain ⟨hgiven, hthrown⟩ := hfate.of_delta hkind
    rw [hcount, hp.ready_iff dec]
    constructor
    · intro hready
      obtain ⟨⟨i, ok, hopen, hcalls⟩, hnone⟩ := hgiven hready
      rw [hnone]
      exact ⟨⟨i, ok, (decoder_of_openDecoder dec hopen).1, hcalls⟩, rfl⟩
    · intro hwait
      obtain ⟨hcalls, hone⟩ := hthrown hwait
      rw [hone]
      exact ⟨hcalls, rfl⟩
  · intro now c hdue hkind
    obtain ⟨discards, hfate, _⟩ := p.tick_fate dec now
    rw [hdue] at hfate
    exact hfate.of_key hkind

end Player

end LiveMedia

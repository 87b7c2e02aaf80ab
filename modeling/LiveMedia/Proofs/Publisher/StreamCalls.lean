import LiveMedia.Proofs.Publisher.Numbering

/-!
# The calls of a stream

The group of a chunk counts the key chunks after the first chunk of its stream, and its object
counts the chunks since its group began. With these numbers and the headers that have succeeded all
calls of a chunk are known, whatever fails on the link.
-/

namespace LiveMedia
set_option autoImplicit false

variable {W S : Type}

/-- The group of the last of these chunks, which are all of their stream so far. -/
def groupOf (cs : List Chunk) : Nat := cs.tail.countP Chunk.isKey

/-- The place of the last chunk in its group. -/
def objectOf (cs : List Chunk) : Nat := (cs.tail.reverse.takeWhile fun c => !c.isKey).length

theorem tail_append_singleton {cs : List Chunk} (h : cs ≠ []) (c : Chunk) :
    (cs ++ [c]).tail = cs.tail ++ [c] := by
  cases cs with
  | nil => exact absurd rfl h
  | cons first rest => rfl

theorem groupOf_append {cs : List Chunk} (h : cs ≠ []) (c : Chunk) :
    groupOf (cs ++ [c]) = groupOf cs + if c.isKey then 1 else 0 := by
  unfold groupOf
  rw [tail_append_singleton h, List.countP_append, List.countP_singleton]

theorem objectOf_append {cs : List Chunk} (h : cs ≠ []) (c : Chunk) :
    objectOf (cs ++ [c]) = if c.isKey then 0 else objectOf cs + 1 := by
  unfold objectOf
  rw [tail_append_singleton h, List.reverse_append]
  cases hkey : c.isKey <;> simp [hkey]

def headerKnown (calls : List (Transmission × Bool)) (group : Nat) : Bool :=
  calls.any fun
    | (.header h, true) => h.group == group
    | _ => false

theorem headerKnown_append (first second : List (Transmission × Bool)) (group : Nat) :
    headerKnown (first ++ second) group = (headerKnown first group || headerKnown second group) :=
  List.any_append

theorem headerKnown_of_group {calls : List (Transmission × Bool)} {group : Nat}
    (h : ∀ call ∈ calls, ∀ header, call.1 = .header header → header.group = group) (other : Nat) :
    headerKnown calls other = (calls.any opened && other == group) := by
  induction calls with
  | nil => rfl
  | cons call rest ih =>
    have hrest := ih fun x hx => h x (List.mem_cons_of_mem call hx)
    have hcall := h call List.mem_cons_self
    unfold headerKnown at hrest ⊢
    rw [List.any_cons, List.any_cons, hrest]
    obtain ⟨t, ok⟩ := call
    cases t with
    | header header =>
      have hg : header.group = group := hcall header rfl
      cases ok with
      | false => simp [opened]
      | true =>
        simp only [opened, hg, Bool.true_or, Bool.true_and]
        by_cases heq : group = other
        · simp [heq]
        · simp [beq_false_of_ne heq, beq_false_of_ne (Ne.symm heq)]
    | object o => simp [opened]
    | flush => simp [opened]

/-- The calls for a chunk of the stream with this epoch, after these chunks and these calls: the
header of its group if none went through, the chunk itself, and the end of the group before it. -/
def chunkCalls (settings : PublishSettings) (epoch : Nat) (cs : List Chunk)
    (sent : List (Transmission × Bool)) (c : Chunk) : List Transmission :=
  let group := groupOf (cs ++ [c])
  let first := cs.head?.getD c
  (if headerKnown sent group then []
    else [.header ⟨settings.track, group, 0, settings.media.groupPriority⟩]) ++
  .object {
    track := settings.track
    epoch := epoch
    group := group
    subgroup := 0
    object := objectOf (cs ++ [c])
    payload := (c.rebased first.timestamp).pack
    status := none } ::
  if cs ≠ [] ∧ c.kind = .key ∧ 2 ≤ group then
    [.object {
      track := settings.track
      epoch := epoch
      group := group - 1
      subgroup := 0
      object := objectOf cs + 1
      payload := ByteArray.empty
      status := some .endOfGroup }]
  else []

/-- The numbering in the stream with this epoch, after these chunks and these calls. -/
structure Numbering.InStream (n : Numbering) (settings : PublishSettings) (epoch : Nat)
    (cs : List Chunk) (sent : List (Transmission × Bool)) : Prop where
  settings_eq : n.settings = settings
  epoch_eq : n.epoch = epoch
  origin_eq : n.origin = cs.head?.map fun c => c.timestamp
  started : n.cursor.started = !cs.isEmpty
  group_eq : n.cursor.group = groupOf cs
  subgroup_eq : n.cursor.subgroup = 0
  object_eq : n.cursor.object = objectOf cs
  headerSent : n.cursor.headerSent = headerKnown sent (groupOf cs)
  unknown : ∀ group, (cs = [] ∨ groupOf cs < group) → headerKnown sent group = false

namespace Numbering.InStream

variable {n : Numbering} {settings : PublishSettings} {epoch : Nat} {cs : List Chunk}
  {sent : List (Transmission × Bool)}

theorem begun (n : Numbering) : n.begun.InStream n.settings (n.epoch + 1) [] [] where
  settings_eq := rfl
  epoch_eq := rfl
  origin_eq := rfl
  started := rfl
  group_eq := rfl
  subgroup_eq := rfl
  object_eq := rfl
  headerSent := rfl
  unknown := fun _ _ => rfl

theorem origin_getD (h : n.InStream settings epoch cs sent) (c : Chunk) :
    n.origin.getD c.timestamp = (cs.head?.getD c).timestamp := by
  rw [h.origin_eq]
  cases cs.head? <;> rfl

theorem cursor_eq (h : n.InStream settings epoch cs sent) :
    n.cursor = ⟨groupOf cs, 0, objectOf cs, headerKnown sent (groupOf cs), !cs.isEmpty⟩ := by
  rw [← h.headerSent, ← h.group_eq, ← h.object_eq, ← h.started]
  rw [show n.cursor = ⟨n.cursor.group, n.cursor.subgroup, n.cursor.object, n.cursor.headerSent,
    n.cursor.started⟩ from rfl, h.subgroup_eq]

/-- The first chunk opens group 0, a key chunk opens the next group, and a delta chunk stays. -/
theorem advance_eq (h : n.InStream settings epoch cs sent) (c : Chunk) :
    n.cursor.advance c.isKey =
      (⟨groupOf (cs ++ [c]), 0, objectOf (cs ++ [c]), cs.isEmpty || c.isKey,
        if cs ≠ [] ∧ c.kind = .key then some ⟨groupOf cs, 0, objectOf cs⟩ else none⟩,
      ⟨groupOf (cs ++ [c]), 0, objectOf (cs ++ [c]), headerKnown sent (groupOf (cs ++ [c])),
        true⟩) := by
  rw [h.cursor_eq]
  unfold GroupCursor.advance GroupCursor.place
  by_cases hcs : cs = []
  · subst hcs
    have hunknown : headerKnown sent 0 = false := h.unknown 0 (Or.inl rfl)
    simp [hunknown, groupOf, objectOf]
  · have hempty : cs.isEmpty = false := by simpa using hcs
    rw [groupOf_append hcs, objectOf_append hcs]
    cases hkind : c.kind with
    | key =>
      have hkey : c.isKey = true := (Chunk.isKey_iff c).mpr hkind
      have hunknown := h.unknown (groupOf cs + 1) (Or.inr (Nat.lt_succ_self _))
      simp [hempty, hkey, hunknown, hcs]
    | delta =>
      have hkey : c.isKey = false := by simp [Chunk.isKey, hkind]
      simp [hempty, hkey]

theorem transmissions_eq (h : n.InStream settings epoch cs sent) (c : Chunk) :
    n.transmissions c = chunkCalls settings epoch cs sent c := by
  unfold transmissions next chunkCalls
  simp only [h.advance_eq c, h.origin_getD c, h.settings_eq, h.epoch_eq]
  congr 2
  by_cases hkey : cs ≠ [] ∧ c.kind = .key
  · have hgroup : groupOf (cs ++ [c]) = groupOf cs + 1 := by
      rw [groupOf_append hkey.1, if_pos ((Chunk.isKey_iff c).mpr hkey.2)]
    rw [if_pos hkey, hgroup, Option.bind_some]
    unfold endMarker?
    by_cases hzero : groupOf cs = 0
    · simp [hzero]
    · have htwo : 2 ≤ groupOf cs + 1 := by omega
      simp [hzero, hkey.1, hkey.2, htwo, h.settings_eq, h.epoch_eq]
  · rw [if_neg hkey, if_neg fun hall => hkey ⟨hall.1, hall.2.1⟩]
    rfl

/-- After the calls for a chunk, however they ended, the stream has come one chunk further. -/
theorem handle (h : n.InStream settings epoch cs sent) (c : Chunk)
    {outcomes : List (Transmission × Bool)} (hcalls : outcomes.map Prod.fst = n.transmissions c) :
    (outcomes.foldl settle (n.next c)).InStream settings epoch (cs ++ [c]) (sent ++ outcomes) := by
  have hgroup : ∀ call ∈ outcomes, ∀ header, call.1 = .header header →
      header.group = groupOf (cs ++ [c]) := by
    intro call hcall header hheader
    have hmem : Transmission.header header ∈ outcomes.map Prod.fst :=
      hheader ▸ List.mem_map_of_mem hcall
    rw [hcalls, h.transmissions_eq c] at hmem
    unfold chunkCalls at hmem
    simp only [List.mem_append, List.mem_cons, reduceCtorEq, false_or] at hmem
    rcases hmem with hmem | hmem
    · split at hmem
      · cases hmem
      · rw [List.mem_singleton] at hmem
        cases hmem
        rfl
    · split at hmem
      · simp at hmem
      · cases hmem
  have hknown := headerKnown_of_group hgroup
  rw [foldl_settle]
  unfold next
  rw [h.advance_eq c]
  refine ⟨h.settings_eq, h.epoch_eq, ?_, by simp, rfl, rfl, rfl, ?_, ?_⟩
  · change some (n.origin.getD c.timestamp) = _
    rw [h.origin_getD c]
    cases cs <;> rfl
  · rw [headerKnown_append, hknown, beq_self_eq_true, Bool.and_true]
  · intro group hlater
    have hlt : groupOf (cs ++ [c]) < group := hlater.resolve_left (by simp)
    have hearlier : cs = [] ∨ groupOf cs < group := by
      by_cases hcs : cs = []
      · exact Or.inl hcs
      · rw [groupOf_append hcs] at hlt
        exact Or.inr (by omega)
    rw [headerKnown_append, hknown, h.unknown group hearlier, beq_false_of_ne (Nat.ne_of_gt hlt),
      Bool.and_false]
    rfl

theorem step {b : Broadcast W S} (h : b.publisher.numbering.InStream settings epoch cs sent)
    (enc : EncoderFamily W) (link : Link S) {a : Broadcast.Action W} (ha : a.isBegin = false) :
    (b.step enc link a).publisher.numbering.InStream settings epoch
      (cs ++ Broadcast.handled [a]) (sent ++ b.calls enc link [a]) := by
  cases hchunk : a.chunk? with
  | none =>
    obtain ⟨hflush, hn⟩ := b.step_other enc link hchunk
    rw [ha] at hn
    rw [hn, Broadcast.handled_of_no_chunk hchunk, List.append_nil]
    have hknown : ∀ group, headerKnown (b.calls enc link [a]) group = false := by
      intro group
      apply List.any_eq_false.mpr
      intro call hcall
      obtain ⟨t, ok⟩ := call
      have ht : t = .flush := hflush _ hcall
      subst ht
      exact Bool.false_ne_true
    exact { h with
      headerSent := by rw [headerKnown_append, hknown, Bool.or_false]; exact h.headerSent
      unknown := by
        intro group hlater
        rw [headerKnown_append, hknown, Bool.or_false]
        exact h.unknown group hlater }
  | some c =>
    obtain rfl := Broadcast.Action.eq_handle hchunk
    obtain ⟨hcalls, hn⟩ := b.step_handle enc link c
    rw [hn]
    exact h.handle c hcalls

theorem run {b : Broadcast W S} (h : b.publisher.numbering.InStream settings epoch cs sent)
    (enc : EncoderFamily W) (link : Link S) (actions : List (Broadcast.Action W))
    (ha : ∀ a ∈ actions, a.isBegin = false) :
    (b.run enc link actions).publisher.numbering.InStream settings epoch
      (cs ++ Broadcast.handled actions) (sent ++ b.calls enc link actions) := by
  induction actions generalizing b cs sent with
  | nil =>
    rw [Broadcast.calls_nil, List.append_nil, show Broadcast.handled [] = [] from rfl,
      List.append_nil]
    exact h
  | cons a rest ih =>
    have hstep := h.step enc link (ha a List.mem_cons_self)
    have hrest := ih hstep fun x hx => ha x (List.mem_cons_of_mem a hx)
    rw [b.calls_cons, Broadcast.handled_cons, ← List.append_assoc, ← List.append_assoc]
    exact hrest

end Numbering.InStream

def Transmission.number? : Transmission → Option (Nat × Nat × Nat)
  | .object o => some (o.epoch, o.group, o.object)
  | _ => none

def numbersOf (calls : List (Transmission × Bool)) : List (Nat × Nat × Nat) :=
  calls.filterMap fun call => call.1.number?

namespace Numbering

def Spent (n : Numbering) (x : Nat × Nat × Nat) : Prop :=
  x.1 < n.epoch ∨ x.1 = n.epoch ∧ n.cursor.started = true ∧
    (x.2.1 < n.cursor.group ∨ x.2.1 = n.cursor.group ∧ x.2.2 ≤ n.cursor.object)

theorem spent_foldl_settle (n : Numbering) (calls : List (Transmission × Bool))
    (x : Nat × Nat × Nat) : (calls.foldl settle n).Spent x ↔ n.Spent x := by
  rw [foldl_settle]
  rfl

theorem Spent.begun {n : Numbering} {x : Nat × Nat × Nat} (h : n.Spent x) : n.begun.Spent x := by
  apply Or.inl
  change x.1 < n.epoch + 1
  rcases h with h | ⟨h, _⟩ <;> omega

theorem numbers_transmissions (n : Numbering) (c : Chunk) :
    (n.transmissions c).filterMap Transmission.number? =
      (n.epoch, (n.cursor.advance c.isKey).1.group, (n.cursor.advance c.isKey).1.object) ::
      ((n.cursor.advance c.isKey).1.closed.bind n.endMarker?).toList.map
        fun o => (o.epoch, o.group, o.object) := by
  unfold transmissions
  simp only [List.filterMap_append]
  have hheader : ∀ header, (if (n.next c).cursor.headerSent then []
      else [Transmission.header header]).filterMap Transmission.number? = [] := by
    intro header
    split <;> rfl
  rw [hheader, List.nil_append, List.filterMap_cons, List.filterMap_map]
  cases (n.cursor.advance c.isKey).1.closed.bind n.endMarker? <;> rfl

/-- The numbers of a chunk are new, differ from each other, and are spent with it. -/
theorem numbers_fresh (n : Numbering) (c : Chunk) :
    ((n.transmissions c).filterMap Transmission.number?).Nodup ∧
    (∀ x ∈ (n.transmissions c).filterMap Transmission.number?, ¬ n.Spent x) ∧
    (∀ x ∈ (n.transmissions c).filterMap Transmission.number?, (n.next c).Spent x) ∧
    ∀ x, n.Spent x → (n.next c).Spent x := by
  rw [numbers_transmissions]
  unfold next Spent GroupCursor.advance GroupCursor.place
  cases hstarted : n.cursor.started with
  | false =>
    simp
    omega
  | true =>
    cases hkey : c.isKey with
    | false =>
      simp
      omega
    | true =>
      by_cases hzero : n.cursor.group = 0
      · simp [endMarker?, hzero]
        omega
      · simp [endMarker?, hzero]
        omega

end Numbering

namespace Broadcast

variable (enc : EncoderFamily W) (link : Link S)

theorem numbersOf_append (first second : List (Transmission × Bool)) :
    numbersOf (first ++ second) = numbersOf first ++ numbersOf second := List.filterMap_append

theorem spent_step (b : Broadcast W S) (a : Action W) :
    (numbersOf (b.calls enc link [a])).Nodup ∧
    (∀ x ∈ numbersOf (b.calls enc link [a]), ¬ b.publisher.numbering.Spent x ∧
      (b.step enc link a).publisher.numbering.Spent x) ∧
    ∀ x, b.publisher.numbering.Spent x → (b.step enc link a).publisher.numbering.Spent x := by
  cases hchunk : a.chunk? with
  | none =>
    obtain ⟨hflush, hn⟩ := b.step_other enc link hchunk
    have hnone : numbersOf (b.calls enc link [a]) = [] := by
      apply List.filterMap_eq_nil_iff.mpr
      intro call hcall
      rw [hflush call hcall]
      rfl
    rw [hnone, hn]
    refine ⟨List.nodup_nil, fun x hx => absurd hx List.not_mem_nil, fun x hx => ?_⟩
    split
    · exact hx.begun
    · exact hx
  | some c =>
    obtain rfl := Action.eq_handle hchunk
    obtain ⟨hcalls, hn⟩ := b.step_handle enc link c
    obtain ⟨hnodup, hnew, hspent, hkept⟩ := b.publisher.numbering.numbers_fresh c
    have hnumbers : numbersOf (b.calls enc link [.handle c]) =
        (b.publisher.numbering.transmissions c).filterMap Transmission.number? := by
      rw [← hcalls, List.filterMap_map]
      rfl
    rw [hnumbers, hn]
    simp only [Numbering.spent_foldl_settle]
    exact ⟨hnodup, fun x hx => ⟨hnew x hx, hspent x hx⟩, hkept⟩

theorem spent_run (b : Broadcast W S) (actions : List (Action W)) :
    (numbersOf (b.calls enc link actions)).Nodup ∧
    ∀ x ∈ numbersOf (b.calls enc link actions), ¬ b.publisher.numbering.Spent x := by
  induction actions generalizing b with
  | nil => exact ⟨List.nodup_nil, fun x hx => absurd hx List.not_mem_nil⟩
  | cons a rest ih =>
    obtain ⟨hnodup, hnew, hkept⟩ := b.spent_step enc link a
    obtain ⟨hrest, hlater⟩ := ih (b.step enc link a)
    rw [b.calls_cons, numbersOf_append]
    refine ⟨List.nodup_append.mpr ⟨hnodup, hrest, ?_⟩, ?_⟩
    · intro x hx y hy heq
      exact hlater y hy (heq ▸ (hnew x hx).2)
    · intro x hx
      rcases List.mem_append.mp hx with hx | hx
      · exact (hnew x hx).1
      · exact fun hs => hlater x hx (hkept x hs)

theorem numbering_run (b : Broadcast W S) (actions : List (Action W)) :
    (b.run enc link actions).publisher.numbering.settings = b.publisher.numbering.settings ∧
    (b.run enc link actions).publisher.numbering.epoch =
      b.publisher.numbering.epoch + actions.countP Action.isBegin := by
  induction actions generalizing b with
  | nil => exact ⟨rfl, rfl⟩
  | cons a rest ih =>
    obtain ⟨hsettings, hepoch⟩ := ih (b.step enc link a)
    rw [run_cons, hsettings, hepoch, List.countP_cons]
    cases hchunk : a.chunk? with
    | none =>
      obtain ⟨_, hn⟩ := b.step_other enc link hchunk
      rw [hn]
      cases a.isBegin with
      | false => exact ⟨rfl, rfl⟩
      | true =>
        refine ⟨rfl, ?_⟩
        change b.publisher.numbering.epoch + 1 + _ = b.publisher.numbering.epoch + (_ + 1)
        omega
    | some c =>
      obtain rfl := Action.eq_handle hchunk
      obtain ⟨_, hn⟩ := b.step_handle enc link c
      rw [hn, Numbering.foldl_settle]
      exact ⟨rfl, rfl⟩

/-- In every life of a publisher, on every link and whatever fails: a chunk makes exactly the calls
that its place in its stream asks for, where streams are counted from 1; only the end of a stream
makes another call, which sends nothing; and no two objects are sent under the same epoch, group and
object. -/
theorem calls_of_chunks (settings : PublishSettings) (codec : W) (clock : CaptureClock) (world : S)
    (start : Nat) :
    let b : Broadcast W S := ⟨Publisher.new settings codec clock start, world, start⟩
    (∀ before stream c, (∀ a ∈ stream, Action.isBegin a = false) →
      let begun := b.run enc link (before ++ [.begin])
      ((begun.run enc link stream).calls enc link [.handle c]).map Prod.fst =
        chunkCalls settings (before.countP Action.isBegin + 1) (handled stream)
          (begun.calls enc link stream) c) ∧
    (∀ before a, a.chunk? = none →
      ∀ call ∈ (b.run enc link before).calls enc link [a], call.1 = .flush) ∧
    ∀ actions, (numbersOf (b.calls enc link actions)).Nodup := by
  intro b
  refine ⟨?_, fun before a ha => (step_other enc link _ ha).1,
    fun actions => (b.spent_run enc link actions).1⟩
  intro before stream c hstream begun
  obtain ⟨hsettings, hepoch⟩ := b.numbering_run enc link before
  have hbegun : begun.publisher.numbering.InStream settings (before.countP Action.isBegin + 1)
      [] [] := by
    have h := Numbering.InStream.begun (b.run enc link before).publisher.numbering
    rw [hsettings, hepoch] at h
    have hn := ((b.run enc link before).step_other enc link (a := .begin) rfl).2
    have heq : begun = (b.run enc link before).step enc link .begin := by
      change b.run enc link (before ++ [.begin]) = _
      rw [run_append]
      rfl
    rw [heq, hn]
    simpa [b, Publisher.new, Publisher.numbering, Action.isBegin] using h
  have hrun := hbegun.run enc link stream hstream
  rw [List.nil_append, List.nil_append] at hrun
  rw [(step_handle enc link _ c).1]
  exact hrun.transmissions_eq c

end Broadcast

end LiveMedia

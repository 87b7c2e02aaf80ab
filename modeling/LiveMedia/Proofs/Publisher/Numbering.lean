import LiveMedia.Proofs.Publisher.Footprint
import LiveMedia.Proofs.Publisher.Run

/-!
# Numbers of chunks

What a publisher sends of a chunk follows from the chunks before it in the same stream and from the
headers that succeeded there: the group counts the key chunks, the object counts on from the last
one, and a header is repeated until it succeeds. No number is ever used twice.
-/

namespace LiveMedia
set_option autoImplicit false

variable {W S : Type}

/-- The part of a publisher that decides under which numbers a chunk is sent. -/
structure Numbering where
  settings : PublishSettings
  epoch : Nat
  cursor : GroupCursor
  origin : Option Int64

namespace Numbering

def endMarker? (n : Numbering) (g : ClosedGroup) : Option Outgoing :=
  if g.group = 0 then none
  else some {
    track := n.settings.track
    epoch := n.epoch
    group := g.group
    subgroup := g.subgroup
    object := g.lastObject + 1
    payload := ByteArray.empty
    status := some .endOfGroup }

def next (n : Numbering) (c : Chunk) : Numbering :=
  { n with
    cursor := (n.cursor.advance c.isKey).2
    origin := some (n.origin.getD c.timestamp) }

def transmissions (n : Numbering) (c : Chunk) : List Transmission :=
  let place := (n.cursor.advance c.isKey).1
  (if (n.next c).cursor.headerSent then []
    else [.header ⟨n.settings.track, place.group, place.subgroup,
      n.settings.media.groupPriority⟩]) ++
  .object {
    track := n.settings.track
    epoch := n.epoch
    group := place.group
    subgroup := place.subgroup
    object := place.object
    payload := (c.rebased (n.origin.getD c.timestamp)).pack
    status := none } ::
  (place.closed.bind n.endMarker?).toList.map .object

end Numbering

namespace Publisher

def numbering (p : Publisher W) : Numbering := ⟨p.settings, p.epoch, p.cursor, p.origin⟩

theorem numbering_configure (enc : EncoderFamily W) (p : Publisher W) (c : CodecConfig) :
    (p.configure enc c).2.numbering = p.numbering := by
  obtain ⟨_, _, _, _, _, _, h⟩ := configure_footprint enc p c
  rw [h]
  rfl

theorem numbering_submit (enc : EncoderFamily W) (p : Publisher W) (now : Nat) (f : Frame) :
    (p.submit enc now f).numbering = p.numbering := by
  obtain ⟨_, _, _, _, _, _, _, _, _, _, _, _, h⟩ := submit_footprint enc p now f
  rw [h]
  rfl

theorem numbering_flushEncoder (enc : EncoderFamily W) (p : Publisher W) :
    (p.flushEncoder enc).numbering = p.numbering := by
  obtain ⟨_, _, h⟩ := flushEncoder_footprint enc p
  rw [h]
  rfl

theorem handle_eq (p : Publisher W) (now : Nat) (c : Chunk) :
    (p.handle now c).1 = p.numbering.transmissions c ∧
      (p.handle now c).2.numbering = p.numbering.next c := by
  obtain ⟨pending, clock, latency, hl⟩ := noteLatency_footprint
    { p with origin := some (p.origin.getD c.timestamp) } now c.timestamp
  have hb : ∀ (q : Publisher W) (bytes : Nat), (q.noteBytes now bytes).epoch = q.epoch ∧
      (q.noteBytes now bytes).settings = q.settings ∧
      (q.noteBytes now bytes).numbering = q.numbering := by
    intro q bytes
    obtain ⟨_, _, h⟩ := noteBytes_footprint q now bytes
    rw [h]
    exact ⟨rfl, rfl, rfl⟩
  unfold handle
  simp only [hl, media, hb]
  refine ⟨?_, rfl⟩
  unfold Numbering.transmissions Numbering.endMarker? endMarker?
  simp only [hb]
  rfl

/-- All objects that a chunk turns into carry the track and the epoch of their publisher. -/
theorem of_mem_handle {p : Publisher W} {now : Nat} {c : Chunk} {o : Outgoing}
    (h : .object o ∈ (p.handle now c).1) : o.track = p.settings.track ∧ o.epoch = p.epoch := by
  rw [(handle_eq p now c).1] at h
  unfold Numbering.transmissions at h
  rcases List.mem_append.mp h with h | h
  · split at h
    · cases h
    · cases List.mem_singleton.mp h
  · rcases List.mem_cons.mp h with h | h
    · cases h
      exact ⟨rfl, rfl⟩
    · obtain ⟨marker, hmarker, heq⟩ := List.mem_map.mp h
      cases heq
      obtain ⟨g, _, hg⟩ := Option.bind_eq_some_iff.mp (Option.mem_toList.mp hmarker)
      unfold Numbering.endMarker? at hg
      split at hg
      · cases hg
      · cases hg
        exact ⟨rfl, rfl⟩

end Publisher

def opened : Transmission × Bool → Bool
  | (.header _, true) => true
  | _ => false

namespace Numbering

def settle (n : Numbering) (call : Transmission × Bool) : Numbering :=
  { n with cursor.headerSent := n.cursor.headerSent || opened call }

def begun (n : Numbering) : Numbering :=
  { n with epoch := n.epoch + 1, cursor := .start, origin := none }

theorem foldl_settle (n : Numbering) (calls : List (Transmission × Bool)) :
    calls.foldl settle n =
      { n with cursor.headerSent := n.cursor.headerSent || calls.any opened } := by
  induction calls generalizing n with
  | nil => simp
  | cons call rest ih => simp [ih, settle, Bool.or_assoc]

end Numbering

theorem Publisher.numbering_settle (p : Publisher W) (t : Transmission) (ok : Bool) :
    (p.settle t ok).numbering = p.numbering.settle (t, ok) := by
  unfold settle
  cases ok with
  | false => cases t <;> simp [numbering, Numbering.settle, opened]
  | true =>
    cases t with
    | header h => simp [numbering, Numbering.settle, opened, GroupCursor.markHeaderSent]
    | object o =>
      simp only [Bool.not_true, Bool.false_eq_true, if_false]
      split <;> simp [numbering, Numbering.settle, opened]
    | flush => simp [numbering, Numbering.settle, opened]

namespace Broadcast

variable (enc : EncoderFamily W) (link : Link S)

theorem send_logged (b : Broadcast W (Logged S (Transmission × Bool))) (t : Transmission) :
    ∃ ok, (b.send link.logged t).publisher = b.publisher.settle t ok ∧
      (b.send link.logged t).link = b.link.note (t, ok) (link.send t b.link.world).2 := by
  have hsend : link.logged.send t b.link = ((link.send t b.link.world).1,
      b.link.note (t, (link.send t b.link.world).1.isOk) (link.send t b.link.world).2) := rfl
  unfold send
  rw [hsend]
  rcases link.send t b.link.world with ⟨result, s⟩
  cases result with
  | error e => exact ⟨false, rfl, rfl⟩
  | ok u => exact ⟨true, rfl, rfl⟩

theorem sendAll_logged (b : Broadcast W (Logged S (Transmission × Bool)))
    (ts : List Transmission) : ∃ outcomes, outcomes.map Prod.fst = ts ∧
      (b.sendAll link.logged ts).link.calls = b.link.calls ++ outcomes ∧
      (b.sendAll link.logged ts).publisher.numbering =
        outcomes.foldl Numbering.settle b.publisher.numbering := by
  induction ts generalizing b with
  | nil => exact ⟨[], rfl, (List.append_nil _).symm, rfl⟩
  | cons t rest ih =>
    obtain ⟨ok, hpublisher, hlink⟩ := send_logged link b t
    obtain ⟨outcomes, hmap, hcalls, hn⟩ := ih (b.send link.logged t)
    refine ⟨(t, ok) :: outcomes, by rw [List.map_cons, hmap], ?_, ?_⟩
    · change ((b.send link.logged t).sendAll link.logged rest).link.calls = _
      rw [hcalls, hlink]
      exact List.append_assoc ..
    · change ((b.send link.logged t).sendAll link.logged rest).publisher.numbering = _
      rw [hn, hpublisher, Publisher.numbering_settle]
      rfl

theorem step_fresh (b : Broadcast W S) (a : Action W) :
    b.step enc link a =
      ((b.mapLink Logged.fresh).step enc link.logged a).mapLink Logged.world :=
  step_mapLink link.logged_follows enc (b.mapLink Logged.fresh) a

theorem step_handle (b : Broadcast W S) (c : Chunk) :
    (b.calls enc link [.handle c]).map Prod.fst = b.publisher.numbering.transmissions c ∧
    (b.step enc link (.handle c)).publisher.numbering =
      (b.calls enc link [.handle c]).foldl Numbering.settle (b.publisher.numbering.next c) := by
  obtain ⟨hts, hn⟩ := b.publisher.handle_eq b.now c
  obtain ⟨outcomes, hmap, hcalls, hn'⟩ := sendAll_logged link
    { b.mapLink (Logged.fresh (C := Transmission × Bool)) with
      publisher := (b.publisher.handle b.now c).2 } (b.publisher.handle b.now c).1
  have hlog : b.calls enc link [.handle c] = outcomes := hcalls.trans (List.nil_append outcomes)
  rw [hlog, hmap, hts, step_fresh]
  exact ⟨rfl, hn'.trans (congrArg (outcomes.foldl Numbering.settle) hn)⟩

theorem step_other (b : Broadcast W S) {a : Action W} (ha : a.chunk? = none) :
    (∀ call ∈ b.calls enc link [a], call.1 = .flush) ∧
    (b.step enc link a).publisher.numbering =
      if a.isBegin then b.publisher.numbering.begun else b.publisher.numbering := by
  cases a with
  | handle c => cases ha
  | endStream =>
    obtain ⟨ok, hpublisher, hlink⟩ := send_logged link
      (b.mapLink (Logged.fresh (C := Transmission × Bool))) .flush
    have hlog : b.calls enc link [.endStream] = [(.flush, ok)] := congrArg Logged.calls hlink
    rw [hlog, step_fresh]
    refine ⟨fun call hc => by rw [List.mem_singleton.mp hc], ?_⟩
    change ((b.mapLink Logged.fresh).send link.logged .flush).publisher.numbering = _
    rw [hpublisher, Publisher.numbering_settle]
    simp [Numbering.settle, opened, Action.isBegin]
  | begin => exact ⟨fun _ h => absurd h List.not_mem_nil, rfl⟩
  | collect count => exact ⟨fun _ h => absurd h List.not_mem_nil, rfl⟩
  | configure c =>
    exact ⟨fun _ h => absurd h List.not_mem_nil, b.publisher.numbering_configure enc c⟩
  | submit f =>
    exact ⟨fun _ h => absurd h List.not_mem_nil, b.publisher.numbering_submit enc b.now f⟩
  | flushEncoder =>
    exact ⟨fun _ h => absurd h List.not_mem_nil, b.publisher.numbering_flushEncoder enc⟩
  | codec run => exact ⟨fun _ h => absurd h List.not_mem_nil, rfl⟩
  | lose => exact ⟨fun _ h => absurd h List.not_mem_nil, rfl⟩
  | elapse us => exact ⟨fun _ h => absurd h List.not_mem_nil, rfl⟩

/-- A step that handles no chunk makes no call but a flush. -/
theorem filterMap_calls_of_no_chunk {α : Type} {pick : Transmission → Option α}
    (hflush : pick .flush = none) (b : Broadcast W S) {a : Action W} (ha : a.chunk? = none) :
    ((b.calls enc link [a]).map Prod.fst).filterMap pick = [] := by
  rw [List.filterMap_eq_nil_iff]
  intro t ht
  obtain ⟨call, hcall, rfl⟩ := List.mem_map.mp ht
  rw [(b.step_other enc link ha).1 call hcall, hflush]

end Broadcast

end LiveMedia

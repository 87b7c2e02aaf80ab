import LiveMedia.Proofs.Player.Calls
import LiveMedia.Proofs.Player.PlayoutOrder

/-!
# The accounts of a player

Every object that a player receives is booked once: when it is turned away, when it has to leave
the buffer before its time, or when it is played, and then by what came of it. What was received is
what is booked and what is still in the buffer. Each count of the statistics is the number of
objects on one account, and the calls on the decoders tell how many ended without a result.
-/

namespace LiveMedia
set_option autoImplicit false

/-- What comes of an object that is played. -/
inductive Ending where
  | control
  | malformed
  /-- Thrown away to wait for a key chunk. -/
  | waited
  | decoded
  | failed
  /-- There was no decoder for it. -/
  | undecodable
deriving DecidableEq

inductive Account where
  | stale
  | control
  | late
  | evicted
  /-- By a newer stream. -/
  | discarded
  | played (ending : Ending)
deriving DecidableEq

def DecoderCall.isFailedDecode : DecoderCall → Bool
  | .decode _ _ ok => !ok
  | _ => false

/-- A decoder could not be made or not be set up. -/
def DecoderCall.isRefusal : DecoderCall → Bool
  | .create made => made.isNone
  | .configure _ ok => !ok
  | .decode _ _ _ => false

namespace Ending

/-- Read off the last call that was made for a chunk. -/
def ofCalls (calls : List DecoderCall) : Ending :=
  match calls.getLast? with
  | none => waited
  | some (.decode _ _ ok) => if ok then decoded else failed
  | some _ => undecodable

def ofPlay (o : Received) (calls : List DecoderCall) : Ending :=
  if o.isControl then control
  else
    match Chunk.unpack o.payload with
    | .error _ => malformed
    | .ok _ => ofCalls calls

theorem ofCalls_decode (calls : List DecoderCall) (i : ℕ) (c : Chunk) (ok : Bool) :
    ofCalls (calls ++ [.decode i c ok]) = if ok then decoded else failed := by
  simp [ofCalls]

end Ending

/-- Who was booked on an account. -/
def booked (account : Account) (books : List (Received × Account)) : List Received :=
  (books.filter fun b => b.2 = account).map Prod.fst

def Account.isPlayed : Account → Bool
  | played _ => true
  | _ => false

@[simp] theorem booked_nil (account : Account) : booked account [] = [] := rfl

@[simp] theorem booked_append (account : Account) (first second : List (Received × Account)) :
    booked account (first ++ second) = booked account first ++ booked account second := by
  simp [booked]

theorem booked_single (account : Account) (o : Received) (a : Account) :
    booked account [(o, a)] = if a = account then [o] else [] := by
  unfold booked
  by_cases h : a = account
  · simp [h]
  · simp [h]

theorem booked_all (account : Account) (os : List Received) (a : Account) :
    booked account (os.map (·, a)) = if a = account then os else [] := by
  induction os with
  | nil => simp
  | cons o rest ih =>
    rw [List.map_cons, ← List.singleton_append, booked_append, booked_single, ih]
    split <;> rfl

namespace PlayStats

/-- An object that was played is counted once as such and, unless nothing was to be done or the
decoders failed, once by its ending. -/
def noteEnding (s : PlayStats) : Ending → PlayStats
  | .malformed => { s with malformedPayloads := s.malformedPayloads + 1 }
  | .waited => { s with keyframeWaitDiscards := s.keyframeWaitDiscards + 1 }
  | .decoded => { s with chunksDecoded := s.chunksDecoded + 1 }
  | .control | .failed | .undecodable => s

def note (s : PlayStats) : Account → PlayStats
  | .stale => { s with staleEpochDrops := s.staleEpochDrops + 1 }
  | .control => { s with controlObjectsDropped := s.controlObjectsDropped + 1 }
  | .late => { s with lateDrops := s.lateDrops + 1 }
  | .evicted => { s with overflowDrops := s.overflowDrops + 1 }
  | .discarded => s
  | .played e => { s with entriesPlayed := s.entriesPlayed + 1 }.noteEnding e

/-- The counts are those of the books. -/
structure Tallies (s : PlayStats) (books : List (Received × Account)) : Prop where
  stale : s.staleEpochDrops = (booked .stale books).length
  control : s.controlObjectsDropped = (booked .control books).length
  late : s.lateDrops = (booked .late books).length
  evicted : s.overflowDrops = (booked .evicted books).length
  played : s.entriesPlayed = books.countP fun b => b.2.isPlayed
  malformed : s.malformedPayloads = (booked (.played .malformed) books).length
  waited : s.keyframeWaitDiscards = (booked (.played .waited) books).length
  decoded : s.chunksDecoded = (booked (.played .decoded) books).length

namespace Tallies

variable {s s' : PlayStats} {books : List (Received × Account)}

/-- The other counts take no part in the books. -/
theorem congr (h : s.Tallies books) (heq : s' = { s with
      objectsReceived := s'.objectsReceived
      streamRestarts := s'.streamRestarts
      framesRendered := s'.framesRendered
      renderDrops := s'.renderDrops
      codecResets := s'.codecResets }) : s'.Tallies books := by
  rw [heq]
  exact ⟨h.stale, h.control, h.late, h.evicted, h.played, h.malformed, h.waited, h.decoded⟩

theorem note (h : s.Tallies books) (o : Received) (a : Account) :
    (s.note a).Tallies (books ++ [(o, a)]) := by
  obtain ⟨hstale, hcontrol, hlate, hevicted, hplayed, hmalformed, hwaited, hdecoded⟩ := h
  constructor
  all_goals
    simp only [booked_append, booked_single, List.length_append, List.countP_append,
      ← hstale, ← hcontrol, ← hlate, ← hevicted, ← hplayed, ← hmalformed, ← hwaited, ← hdecoded]
    rcases a with _ | _ | _ | _ | _ | e
    case played => cases e <;> rfl
    all_goals rfl

theorem discard (h : s.Tallies books) (os : List Received) :
    s.Tallies (books ++ os.map (·, .discarded)) := by
  have hnone : ∀ account, account ≠ .discarded →
      booked account (books ++ os.map (·, .discarded)) = booked account books := by
    intro account hne
    rw [booked_append, booked_all, if_neg hne.symm, List.append_nil]
  have hplayed : (books ++ os.map (·, Account.discarded)).countP (fun b => b.2.isPlayed) =
      books.countP fun b => b.2.isPlayed := by
    rw [List.countP_append, List.countP_map, Nat.add_eq_left]
    exact List.countP_eq_zero.mpr fun _ _ => Bool.false_ne_true
  constructor
  case played => exact h.played.trans hplayed.symm
  case stale => exact (hnone .stale (by decide)).symm ▸ h.stale
  case control => exact (hnone .control (by decide)).symm ▸ h.control
  case late => exact (hnone .late (by decide)).symm ▸ h.late
  case evicted => exact (hnone .evicted (by decide)).symm ▸ h.evicted
  case malformed => exact (hnone (.played .malformed) (by decide)).symm ▸ h.malformed
  case waited => exact (hnone (.played .waited) (by decide)).symm ▸ h.waited
  case decoded => exact (hnone (.played .decoded) (by decide)).symm ▸ h.decoded

end Tallies

end PlayStats

/-- Whoever was played is on the account of an ending. -/
theorem countP_played (books : List (Received × Account)) :
    (books.countP fun b => b.2.isPlayed) =
      (booked (.played .control) books).length + (booked (.played .malformed) books).length +
      (booked (.played .waited) books).length + (booked (.played .decoded) books).length +
      (booked (.played .failed) books).length + (booked (.played .undecodable) books).length := by
  induction books with
  | nil => rfl
  | cons b rest ih =>
    rw [← List.singleton_append, List.countP_append, ih]
    obtain ⟨o, a⟩ := b
    simp only [booked_append, booked_single, List.length_append]
    rcases a with _ | _ | _ | _ | _ | e
    case played => cases e <;> simp [Account.isPlayed] <;> omega
    all_goals simp [Account.isPlayed]

/-- Every object is on one of the accounts. -/
theorem length_books (books : List (Received × Account)) :
    books.length = (booked .stale books).length + (booked .control books).length +
      (booked .late books).length + (booked .evicted books).length +
      (booked .discarded books).length + books.countP fun b => b.2.isPlayed := by
  induction books with
  | nil => rfl
  | cons b rest ih =>
    rw [← List.singleton_append, List.length_append, List.countP_append, ih]
    obtain ⟨o, a⟩ := b
    simp only [booked_append, booked_single, List.length_append]
    cases a <;> simp [Account.isPlayed] <;> omega

namespace Player

variable {W : Type}

/-- The objects in the buffer. -/
def held (p : Player W) : List Received := p.buffer.entries.map fun e => e.payload

section Booking

variable (dec : DecoderFamily W)

/-- What a newer stream makes a player discard. -/
def superseded (p : Player W) (epoch : ℕ) : List Received :=
  if p.epoch.any (· < epoch) then p.held else []

/-- What a buffer books when an object is put in. -/
def bookPush (o : Received) : PushOutcome Received → List (Received × Account)
  | .buffered => []
  | .evicted e => [(e.payload, .evicted)]
  | .late => [(o, .late)]

/-- The bookings of an input. -/
def bookings (p : Player W) : Input W → List (Received × Account)
  | .receive now o =>
    match p.follow? o.epoch with
    | none => [(o, .stale)]
    | some q =>
      (p.superseded o.epoch).map (·, .discarded) ++
        if o.isControl && p.media.discardsControl then [(o, .control)]
        else bookPush o (q.buffer.push now ⟨o.group, o.object⟩ o).1
  | .tick now =>
    match p.buffer.pop? now with
    | none => []
    | some (e, _) => [(e.payload, .played (.ofPlay e.payload (p.calls dec now)))]
  | _ => []

def books (p : Player W) : List (Input W) → List (Received × Account)
  | [] => []
  | i :: rest => p.bookings dec i ++ (p.step dec i).books rest

/-- The calls that an input makes on the decoders. -/
def asked (p : Player W) : Input W → List DecoderCall
  | .tick now => p.calls dec now
  | _ => []

def callLog (p : Player W) : List (Input W) → List DecoderCall
  | [] => []
  | i :: rest => p.asked dec i ++ (p.step dec i).callLog rest

end Booking

section Endings

variable (dec : DecoderFamily W)

/-- A chunk ends as its last call did, and is counted so. -/
theorem decode_ending (p : Player (Logged W DecoderCall)) (c : Chunk) : ∃ calls resets,
    (p.decode dec.logged c).codec.calls = p.codec.calls ++ calls ∧
    (p.decode dec.logged c).counts =
      { p.counts.noteEnding (.ofCalls calls) with codecResets := resets } ∧
    calls.countP DecoderCall.isFailedDecode = (if Ending.ofCalls calls = .failed then 1 else 0) ∧
    calls.countP DecoderCall.isRefusal =
      (if Ending.ofCalls calls = .undecodable then 1 else 0) := by
  have houtcome := decode_outcome dec.logged p c
  generalize p.decode dec.logged c = q at houtcome ⊢
  cases houtcome with
  | waits => exact ⟨[], p.counts.codecResets, (List.append_nil _).symm, rfl, rfl, rfl⟩
  | @kept i =>
    obtain ⟨ok, hcalls, -, -, hcounts⟩ := decodeWith_logged dec { p with decoding := true } i c
    refine ⟨[.decode i c ok], p.counts.codecResets, hcalls, ?_⟩
    rw [hcounts]
    cases ok <;> exact ⟨rfl, rfl, rfl⟩
  | lost => exact ⟨[], p.resets, (List.append_nil _).symm, rfl, rfl, rfl⟩
  | refused _ _ made =>
    exact ⟨[.create none], p.resets, calls_create dec made, rfl, rfl, rfl⟩
  | @unfit _ _ i _ made _ failed =>
    refine ⟨[.create (some i), .configure i false], p.resets, ?_, rfl, rfl, rfl⟩
    simp only
    rw [calls_configure, failed, calls_create dec made, List.append_assoc]
    rfl
  | @renewed _ _ i codec codec' made setUp =>
    obtain ⟨setup, hsetup, hmade⟩ := calls_setUp dec made setUp
    obtain ⟨ok, hcalls, -, -, hcounts⟩ := decodeWith_logged dec
      (Player.renewed { p with decoding := true, counts.codecResets := p.resets } i codec') i c
    refine ⟨.create (some i) :: setup ++ [.decode i c ok], p.resets, ?_, ?_⟩
    · rw [hcalls]
      change codec'.calls ++ _ = _
      rw [hmade, List.append_assoc, List.cons_append]
    · rw [hcounts, Ending.ofCalls_decode]
      rcases hsetup with rfl | rfl <;> cases ok <;> exact ⟨rfl, rfl, rfl⟩

theorem play_ending (p : Player (Logged W DecoderCall)) (o : Received) : ∃ calls resets,
    (p.play dec.logged o).codec.calls = p.codec.calls ++ calls ∧
    (p.play dec.logged o).counts =
      { p.counts.noteEnding (.ofPlay o calls) with codecResets := resets } ∧
    calls.countP DecoderCall.isFailedDecode = (if Ending.ofPlay o calls = .failed then 1 else 0) ∧
    calls.countP DecoderCall.isRefusal =
      (if Ending.ofPlay o calls = .undecodable then 1 else 0) := by
  unfold play Ending.ofPlay
  by_cases hcontrol : o.isControl = true
  · simp only [if_pos hcontrol]
    exact ⟨[], p.counts.codecResets, (List.append_nil _).symm, rfl, rfl, rfl⟩
  · simp only [if_neg hcontrol]
    cases Chunk.unpack o.payload with
    | error e => exact ⟨[], p.counts.codecResets, (List.append_nil _).symm, rfl, rfl, rfl⟩
    | ok c => exact decode_ending dec p c

variable {p : Player W} {now : ℕ}

theorem calls_of_pop?_none (h : p.buffer.pop? now = none) : p.calls dec now = [] := by
  unfold calls
  rw [tick_of_pop?_none dec.logged (p := p.mapCodec Logged.fresh) h]
  obtain ⟨_, _, _, _, _, hr⟩ :=
    renderOutputs_footprint (p.mapCodec (Logged.fresh (C := DecoderCall)))
  rw [hr]
  rfl

theorem tick_ending {e : JitterEntry Received} {buffer : JitterBuffer Received}
    (h : p.buffer.pop? now = some (e, buffer)) : ∃ resets rendered drops,
    (p.tick dec now).2.stats =
      { p.stats.note (.played (.ofPlay e.payload (p.calls dec now))) with
        codecResets := resets, framesRendered := rendered, renderDrops := drops } ∧
    (p.calls dec now).countP DecoderCall.isFailedDecode =
      (if Ending.ofPlay e.payload (p.calls dec now) = .failed then 1 else 0) ∧
    (p.calls dec now).countP DecoderCall.isRefusal =
      (if Ending.ofPlay e.payload (p.calls dec now) = .undecodable then 1 else 0) := by
  obtain ⟨rest, hentries, _, hbuffer⟩ := JitterBuffer.pop?_eq_some_iff.mp h
  rw [tick_fresh]
  unfold calls
  rw [tick_of_pop?_some dec.logged (p := p.mapCodec Logged.fresh) h]
  obtain ⟨calls, resets, hcalls, hcounts, hfailed, hrefused⟩ :=
    play_ending dec ((p.mapCodec Logged.fresh).popped buffer) e.payload
  have hbuf := congrArg Intake.buffer
    (intake_play dec.logged ((p.mapCodec Logged.fresh).popped buffer) e.payload)
  generalize ((p.mapCodec Logged.fresh).popped buffer).play dec.logged e.payload = q at *
  obtain ⟨_, _, _, rendered, drops, hr⟩ := renderOutputs_footprint q
  rw [hr]
  have hlog : q.codec.calls = calls := hcalls
  change q.buffer = buffer at hbuf
  simp only [hlog]
  refine ⟨resets, rendered, drops, ?_, hfailed, hrefused⟩
  unfold stats mapCodec
  simp only [hcounts, hbuf, hbuffer]
  cases Ending.ofPlay e.payload calls <;> rfl

end Endings

/-- What has arrived at a player, its books, and the calls on its decoders agree. -/
structure Accounts (p : Player W) (arrived : List Received) (books : List (Received × Account))
    (calls : List DecoderCall) : Prop where
  custody : arrived.Perm (books.map Prod.fst ++ p.held)
  received : p.stats.objectsReceived = arrived.length
  tallies : p.stats.Tallies books
  failed : calls.countP DecoderCall.isFailedDecode = (booked (.played .failed) books).length
  refused : calls.countP DecoderCall.isRefusal = (booked (.played .undecodable) books).length

namespace Accounts

variable {p q : Player W} {arrived : List Received} {books : List (Received × Account)}
  {calls : List DecoderCall}

/-- New bookings move objects from the arrivals and the buffer to the accounts. -/
theorem post (h : p.Accounts arrived books calls) (q : Player W) (new : List Received)
    (posted : List (Received × Account)) (made : List DecoderCall)
    (hcustody : (p.held ++ new).Perm (posted.map Prod.fst ++ q.held))
    (hreceived : q.stats.objectsReceived = p.stats.objectsReceived + new.length)
    (htallies : q.stats.Tallies (books ++ posted))
    (hfailed : made.countP DecoderCall.isFailedDecode = (booked (.played .failed) posted).length)
    (hrefused : made.countP DecoderCall.isRefusal =
      (booked (.played .undecodable) posted).length) :
    q.Accounts (arrived ++ new) (books ++ posted) (calls ++ made) where
  custody := by
    have hall := (h.custody.append_right new).trans
      ((List.append_assoc ..).symm ▸ hcustody.append_left (books.map Prod.fst))
    rwa [← List.append_assoc, ← List.map_append] at hall
  received := by rw [hreceived, h.received, List.length_append]
  tallies := htallies
  failed := by rw [List.countP_append, h.failed, hfailed, booked_append, List.length_append]
  refused := by rw [List.countP_append, h.refused, hrefused, booked_append, List.length_append]

/-- An input that books nothing and asks for nothing. -/
theorem congr (h : p.Accounts arrived books calls) (hheld : q.held = p.held)
    (hreceived : q.stats.objectsReceived = p.stats.objectsReceived)
    (htallies : q.stats.Tallies books) : q.Accounts arrived books calls where
  custody := hheld ▸ h.custody
  received := hreceived.trans h.received
  tallies := htallies
  failed := h.failed
  refused := h.refused

end Accounts

/-- Turning to a stream takes what it supersedes out of the buffer. -/
theorem follow?_leaves {p q : Player W} {epoch : ℕ} (h : p.follow? epoch = some q) :
    q.media = p.media ∧ (∃ restarts, q.stats = { p.stats with streamRestarts := restarts }) ∧
      p.held = p.superseded epoch ++ q.held := by
  have houtcome := p.follow?_outcome epoch
  rw [h] at houtcome
  unfold superseded
  cases houtcome with
  | first fresh =>
    rw [fresh]
    exact ⟨rfl, ⟨_, rfl⟩, rfl⟩
  | same known =>
    rw [known, Option.any_some, decide_eq_false (Nat.lt_irrefl epoch)]
    exact ⟨rfl, ⟨_, rfl⟩, rfl⟩
  | newer known later =>
    rw [known, Option.any_some, decide_eq_true later]
    exact ⟨rfl, ⟨_, rfl⟩, (List.append_nil _).symm⟩

namespace Accounts

variable {p q : Player W} {arrived : List Received} {books : List (Received × Account)}
  {calls : List DecoderCall}

/-- An object that a player takes in, with what it supersedes, is booked or held. -/
theorem accept (h : p.Accounts arrived books calls) {epoch restarts : ℕ} {o : Received}
    {r : Player W} {posted : List (Received × Account)}
    (hq : q.stats = { p.stats with streamRestarts := restarts })
    (hheld : p.held = p.superseded epoch ++ q.held)
    (hcustody : (q.held ++ [o]).Perm (posted.map Prod.fst ++ r.held))
    (hreceived : r.stats.objectsReceived = q.stats.objectsReceived + 1)
    (htallies : ∀ old, q.stats.Tallies old → r.stats.Tallies (old ++ posted))
    (hfailed : booked (.played .failed) posted = [])
    (hrefused : booked (.played .undecodable) posted = []) :
    r.Accounts (arrived ++ [o])
      (books ++ ((p.superseded epoch).map (·, .discarded) ++ posted)) calls := by
  have hstay : q.stats.Tallies (books ++ (p.superseded epoch).map (·, .discarded)) :=
    (h.tallies.discard _).congr (by rw [hq])
  have hnone : ∀ e, booked (.played e) ((p.superseded epoch).map (·, Account.discarded)) = [] :=
    fun e => (booked_all ..).trans (if_neg Account.noConfusion)
  have hall := h.post r [o] ((p.superseded epoch).map (·, .discarded) ++ posted) []
    ?_ ?_ ?_ ?_ ?_
  · rwa [List.append_nil] at hall
  · rw [hheld, List.map_append, List.map_map, List.append_assoc, List.append_assoc]
    exact (List.map_id' (p.superseded epoch)).symm ▸ hcustody.append_left _
  · rw [hreceived, hq]
    rfl
  · rw [← List.append_assoc]
    exact htallies _ hstay
  · rw [booked_append, hnone, hfailed]
    rfl
  · rw [booked_append, hnone, hrefused]
    rfl

/-- Putting an object into the buffer books whoever does not stay in it. -/
theorem push (q : Player W) (now : ℕ) (o : Received) (slot : Slot) :
    let outcome := q.buffer.push now slot o
    let r := { q with buffer := outcome.2 }
    (q.held ++ [o]).Perm ((bookPush o outcome.1).map Prod.fst ++ r.held) ∧
    (∀ old, q.stats.Tallies old → r.stats.Tallies (old ++ bookPush o outcome.1)) ∧
    ∀ e, booked (.played e) (bookPush o outcome.1) = [] := by
  intro outcome r
  have hplaced := ((JitterBuffer.perm_place ⟨slot, now, o⟩ q.buffer.entries).map
    fun e => e.payload).symm
  rcases q.buffer.push_cases now slot o with
    ⟨_, hp⟩ | ⟨_, _, hp⟩ | ⟨_, _, oldest, rest, hpl, hp⟩
  · have hoc : outcome = _ := hp
    simp only [r, hoc, bookPush]
    exact ⟨List.perm_append_comm, fun old hold => (hold.note o .late).congr rfl, fun _ => rfl⟩
  · have hoc : outcome = _ := hp
    simp only [r, hoc, bookPush, List.append_nil]
    exact ⟨List.perm_append_comm.trans hplaced, fun old hold => hold.congr rfl, fun _ => rfl⟩
  · have hoc : outcome = _ := hp
    rw [hpl] at hplaced
    simp only [r, hoc, bookPush]
    exact ⟨List.perm_append_comm.trans hplaced,
      fun old hold => (hold.note oldest.payload .evicted).congr rfl, fun _ => rfl⟩

variable (dec : DecoderFamily W)

theorem receive (h : p.Accounts arrived books calls) (now : ℕ) (o : Received) :
    (p.receive now o).Accounts (arrived ++ [o]) (books ++ p.bookings dec (.receive now o))
      calls := by
  have houtcome := p.receive_outcome now o
  generalize p.receive now o = r at houtcome ⊢
  unfold bookings
  cases houtcome with
  | stale replaced =>
    simp only [replaced]
    have hall := h.post
      { p with
        counts.objectsReceived := p.counts.objectsReceived + 1
        counts.staleEpochDrops := p.counts.staleEpochDrops + 1 }
      [o] [(o, .stale)] [] List.perm_append_comm rfl ((h.tallies.note o .stale).congr rfl) rfl rfl
    rwa [List.append_nil] at hall
  | control follows unwanted =>
    obtain ⟨hmedia, ⟨_, hstats⟩, hheld⟩ := follow?_leaves follows
    have hreceived := congrArg PlayStats.objectsReceived hstats.symm
    simp only [follows, ← hmedia, unwanted, if_true]
    exact h.accept hstats hheld List.perm_append_comm (congrArg (· + 1) hreceived)
      (fun old hold => (hold.note o .control).congr rfl) rfl rfl
  | @buffered q follows wanted bitrate events =>
    obtain ⟨hmedia, ⟨_, hstats⟩, hheld⟩ := follow?_leaves follows
    have hreceived := congrArg PlayStats.objectsReceived hstats.symm
    obtain ⟨hperm, htallies, hnone⟩ := push q now o ⟨o.group, o.object⟩
    simp only [follows, ← hmedia, wanted, Bool.false_eq_true, if_false]
    exact h.accept hstats hheld hperm (congrArg (· + 1) hreceived)
      (fun old hold => (htallies old hold).congr rfl) (hnone _) (hnone _)

theorem tick (h : p.Accounts arrived books calls) (now : ℕ) :
    (p.tick dec now).2.Accounts arrived (books ++ p.bookings dec (.tick now))
      (calls ++ p.asked dec (.tick now)) := by
  have hbuffer := congrArg Intake.buffer (intake_tick dec p now)
  unfold Intake.tick at hbuffer
  unfold bookings asked
  simp only [buffer_intake] at hbuffer ⊢
  cases hpop : p.buffer.pop? now with
  | none =>
    rw [calls_of_pop?_none dec hpop, tick_of_pop?_none dec hpop]
    simp only [List.append_nil]
    obtain ⟨_, _, _, _, _, hr⟩ := renderOutputs_footprint p
    rw [hr]
    exact h.congr rfl rfl (h.tallies.congr rfl)
  | some released =>
    obtain ⟨e, buffer⟩ := released
    obtain ⟨rest, hentries, _, hrest⟩ := JitterBuffer.pop?_eq_some_iff.mp hpop
    obtain ⟨resets, rendered, drops, hstats, hfailed, hrefused⟩ := tick_ending dec hpop
    simp only [hpop, hrest] at hbuffer
    have hheld : p.held = e.payload :: (p.tick dec now).2.held := by
      unfold held
      rw [hentries, hbuffer]
      rfl
    rw [← List.append_nil arrived]
    refine h.post _ [] _ _ ?_ ?_ ?_ ?_ ?_
    · rw [hheld, List.append_nil]
      rfl
    · rw [hstats]
      cases Ending.ofPlay e.payload (p.calls dec now) <;> rfl
    · exact (h.tallies.note e.payload _).congr (by rw [hstats])
    · rw [hfailed, booked_single]
      simp only [Account.played.injEq]
      split <;> rfl
    · rw [hrefused, booked_single]
      simp only [Account.played.injEq]
      split <;> rfl

theorem step (h : p.Accounts arrived books calls) (i : Input W) :
    (p.step dec i).Accounts (arrived ++ i.object?.toList) (books ++ p.bookings dec i)
      (calls ++ p.asked dec i) := by
  cases i with
  | receive now o =>
    change (p.receive now o).Accounts (arrived ++ [o]) _ (calls ++ [])
    rw [List.append_nil]
    exact h.receive dec now o
  | tick now =>
    change (p.tick dec now).2.Accounts (arrived ++ []) _ _
    rw [List.append_nil]
    exact h.tick dec now
  | render =>
    obtain ⟨_, _, _, _, _, hr⟩ := renderOutputs_footprint p
    simp only [Player.step, Input.object?, bookings, asked, Option.toList, List.append_nil, hr]
    exact h.congr rfl rfl (h.tallies.congr rfl)
  | codec run =>
    obtain ⟨_, _, hr⟩ := actOnCodec_footprint p run
    simp only [Player.step, Input.object?, bookings, asked, Option.toList, List.append_nil, hr]
    exact h.congr rfl rfl (h.tallies.congr rfl)
  | view n =>
    simp only [Input.object?, bookings, asked, Option.toList, List.append_nil]
    exact h.congr rfl rfl h.tallies
  | closeScreen =>
    simp only [Input.object?, bookings, asked, Option.toList, List.append_nil]
    exact h.congr rfl rfl h.tallies

theorem run (h : p.Accounts arrived books calls) (inputs : List (Input W)) :
    (p.run dec inputs).Accounts (arrived ++ arrivals inputs) (books ++ p.books dec inputs)
      (calls ++ p.callLog dec inputs) := by
  induction inputs generalizing p arrived books calls with
  | nil => simpa [arrivals, Player.books, callLog] using h
  | cons i rest ih =>
    have hall := ih (h.step dec i)
    rw [List.append_assoc, List.append_assoc, List.append_assoc] at hall
    have harrivals : arrivals (i :: rest) = i.object?.toList ++ arrivals rest := by
      unfold arrivals
      cases hi : i.object? <;> simp [hi]
    rw [harrivals]
    exact hall

end Accounts

theorem accounts_new (settings : PlaySettings) (codec : W) (config : CodecConfig)
    (screen : Screen) (start : ℕ) :
    (Player.new settings codec config screen start).Accounts [] [] [] where
  custody := .refl _
  received := rfl
  tallies := ⟨rfl, rfl, rfl, rfl, rfl, rfl, rfl, rfl⟩
  failed := rfl
  refused := rfl

/-- Whatever happens to a player, each object that it has received is still in its buffer or is
booked on one account, and the statistics add up: all objects received by what became of them, and
all entries played by how they ended. -/
theorem decode_accounting (dec : DecoderFamily W) (settings : PlaySettings) (codec : W)
    (config : CodecConfig) (screen : Screen) (start : ℕ) (inputs : List (Input W)) :
    let p := Player.new settings codec config screen start
    let q := p.run dec inputs
    let books := p.books dec inputs
    let calls := p.callLog dec inputs
    q.Accounts (arrivals inputs) books calls ∧
    q.stats.objectsReceived = q.stats.staleEpochDrops + q.stats.controlObjectsDropped +
      q.stats.lateDrops + q.stats.overflowDrops + q.stats.entriesPlayed + q.buffer.size +
      (booked .discarded books).length ∧
    q.stats.entriesPlayed = (booked (.played .control) books).length +
      q.stats.malformedPayloads + q.stats.keyframeWaitDiscards + q.stats.chunksDecoded +
      calls.countP DecoderCall.isFailedDecode + calls.countP DecoderCall.isRefusal := by
  intro p q books calls
  have h : q.Accounts (arrivals inputs) books calls :=
    (accounts_new settings codec config screen start).run dec inputs
  have ht := h.tallies
  refine ⟨h, ?_, ?_⟩
  · have hcustody := h.custody.length_eq
    have hsize : q.held.length = q.buffer.size := List.length_map _
    rw [List.length_append, List.length_map, length_books, hsize] at hcustody
    rw [h.received, hcustody, ht.stale, ht.control, ht.late, ht.evicted, ht.played]
    omega
  · rw [ht.played, countP_played, ht.malformed, ht.waited, ht.decoded, h.failed, h.refused]

end Player

end LiveMedia

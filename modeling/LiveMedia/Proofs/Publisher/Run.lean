import LiveMedia.Proofs.CallLog

/-!
# Runs of a publisher

A run is a list of actions on a publisher and its link. The numbers that a chunk is sent under
depend on the numbering alone: the settings, the epoch, the cursor and the origin of the stream.
Configuring, encoding and the clock leave the numbering as it is.
-/

namespace LiveMedia
set_option autoImplicit false

variable {W S T : Type}

namespace Broadcast

/-- Whatever may be asked of a publisher, in any order. -/
inductive Action (W : Type) where
  | begin
  /-- A chunk that came out of an encoder. -/
  | handle (c : Chunk)
  /-- The first chunks that came out, so many, are taken off to be handled. -/
  | collect (count : Nat)
  | configure (c : CodecConfig)
  | submit (f : Frame)
  | flushEncoder
  /-- The codecs change by themselves, as in a fault, and may give out chunks. -/
  | codec (run : W → W × List Chunk)
  /-- The link is told that the stream is over. -/
  | endStream
  /-- The outputs are lost with an abandoned stream, and all that comes out later. -/
  | lose
  | elapse (microseconds : Nat)

namespace Action

def isBegin : Action W → Bool
  | begin => true
  | _ => false

def endsStream : Action W → Bool
  | endStream => true
  | _ => false

def chunk? : Action W → Option Chunk
  | handle c => some c
  | _ => none

/-- If the codecs change by themselves, it is as `R` says. -/
def Only (R : (W → W × List Chunk) → Prop) : Action W → Prop
  | codec run => R run
  | _ => True

theorem eq_handle {a : Action W} {c : Chunk} (h : a.chunk? = some c) : a = .handle c := by
  cases a with
  | handle c' => exact congrArg handle (Option.some.inj h)
  | _ => cases h

end Action

def handled (actions : List (Action W)) : List Chunk := actions.filterMap Action.chunk?

theorem handled_append (first second : List (Action W)) :
    handled (first ++ second) = handled first ++ handled second := List.filterMap_append

theorem handled_cons (a : Action W) (rest : List (Action W)) :
    handled (a :: rest) = handled [a] ++ handled rest := handled_append [a] rest

theorem handled_of_no_chunk {a : Action W} (h : a.chunk? = none) : handled [a] = [] :=
  List.filterMap_cons_none h

section Run

variable (enc : EncoderFamily W) (link : Link S)

def step (b : Broadcast W S) : Action W → Broadcast W S
  | .begin => { b with publisher := b.publisher.beginStream b.now }
  | .handle c => b.handle link c
  | .collect count =>
    { b with publisher := { b.publisher with outputs := b.publisher.outputs.drop count } }
  | .configure c => { b with publisher := (b.publisher.configure enc c).2 }
  | .submit f => b.submit enc f
  | .flushEncoder => { b with publisher := b.publisher.flushEncoder enc }
  | .codec run => b.apply run
  | .endStream =>
    let b := b.send link .flush
    { b with publisher := b.publisher.endStream }
  | .lose => { b with publisher := { b.publisher with receiving := false, outputs := [] } }
  | .elapse us => { b with now := b.now + us }

def run (b : Broadcast W S) (actions : List (Action W)) : Broadcast W S :=
  actions.foldl (step enc link) b

@[simp] theorem run_nil (b : Broadcast W S) : b.run enc link [] = b := rfl

@[simp] theorem run_cons (b : Broadcast W S) (a : Action W) (rest : List (Action W)) :
    b.run enc link (a :: rest) = (b.step enc link a).run enc link rest := rfl

theorem run_append (b : Broadcast W S) (first second : List (Action W)) :
    b.run enc link (first ++ second) = (b.run enc link first).run enc link second :=
  List.foldl_append

end Run

/-! A log takes no part in what happens. -/

def mapLink (f : S → T) (b : Broadcast W S) : Broadcast W T := ⟨b.publisher, f b.link, b.now⟩

@[simp] theorem publisher_mapLink (f : S → T) (b : Broadcast W S) :
    (b.mapLink f).publisher = b.publisher := rfl

section Following

variable {big : Link S} {small : Link T} {f : S → T}

theorem send_mapLink (h : big.Follows small f) (b : Broadcast W S) (t : Transmission) :
    (b.mapLink f).send small t = (b.send big t).mapLink f := by
  unfold send mapLink
  simp only [h t b.link]
  rcases big.send t b.link with ⟨result, s⟩
  cases result <;> rfl

theorem sendAll_mapLink (h : big.Follows small f) (b : Broadcast W S) (ts : List Transmission) :
    (b.mapLink f).sendAll small ts = (b.sendAll big ts).mapLink f := by
  induction ts generalizing b with
  | nil => rfl
  | cons t rest ih =>
    change ((b.mapLink f).send small t).sendAll small rest = _
    rw [send_mapLink h]
    exact ih (b.send big t)

theorem step_mapLink (h : big.Follows small f) (enc : EncoderFamily W) (b : Broadcast W S)
    (a : Action W) : (b.mapLink f).step enc small a = (b.step enc big a).mapLink f := by
  cases a with
  | handle c =>
    exact sendAll_mapLink h { b with publisher := (b.publisher.handle b.now c).2 }
      (b.publisher.handle b.now c).1
  | endStream =>
    change ({ (b.mapLink f).send small .flush with publisher := _ } : Broadcast W T) = _
    rw [send_mapLink h]
    rfl
  | begin => rfl
  | collect count => rfl
  | configure c => rfl
  | submit f => rfl
  | flushEncoder => rfl
  | codec run => rfl
  | lose => rfl
  | elapse us => rfl

theorem run_mapLink (h : big.Follows small f) (enc : EncoderFamily W) (b : Broadcast W S)
    (actions : List (Action W)) :
    (b.mapLink f).run enc small actions = (b.run enc big actions).mapLink f := by
  induction actions generalizing b with
  | nil => rfl
  | cons a rest ih =>
    rw [run_cons, run_cons, step_mapLink h]
    exact ih (b.step enc big a)

end Following

section Calls

variable (enc : EncoderFamily W) (link : Link S)

/-- The calls that a run makes on its link, each with whether it succeeded. -/
def calls (b : Broadcast W S) (actions : List (Action W)) : List (Transmission × Bool) :=
  ((b.mapLink Logged.fresh).run enc link.logged actions).link.calls

@[simp] theorem calls_nil (b : Broadcast W S) : b.calls enc link [] = [] := rfl

theorem calls_append (b : Broadcast W S) (first second : List (Action W)) :
    b.calls enc link (first ++ second) =
      b.calls enc link first ++ (b.run enc link first).calls enc link second := by
  have hworld : b.run enc link first =
      ((b.mapLink Logged.fresh).run enc link.logged first).mapLink Logged.world :=
    run_mapLink link.logged_follows enc (b.mapLink Logged.fresh) first
  unfold calls
  rw [run_append, hworld]
  generalize (b.mapLink Logged.fresh).run enc link.logged first = c
  have hafter := run_mapLink (link.logged_follows_after c.link.calls) enc
    ((c.mapLink Logged.world).mapLink Logged.fresh) second
  have hc : ((c.mapLink Logged.world).mapLink Logged.fresh).mapLink
      (fun l => (⟨l.world, c.link.calls ++ l.calls⟩ : Logged S (Transmission × Bool))) = c := by
    simp only [mapLink, Logged.fresh, List.append_nil]
  rw [hc] at hafter
  rw [hafter]
  rfl

theorem calls_cons (b : Broadcast W S) (a : Action W) (rest : List (Action W)) :
    b.calls enc link (a :: rest) =
      b.calls enc link [a] ++ (b.step enc link a).calls enc link rest :=
  b.calls_append enc link [a] rest

theorem link_run {P : S → Prop} (hsend : ∀ t s, P s → P (link.send t s).2) {b : Broadcast W S}
    (h : P b.link) (actions : List (Action W)) : P (b.run enc link actions).link := by
  have hone : ∀ (d : Broadcast W S) (t : Transmission), P d.link → P (d.send link t).link := by
    intro d t hd
    have ht := hsend t d.link hd
    unfold send
    split
    · rename_i heq
      rwa [heq] at ht
    · rename_i heq
      rwa [heq] at ht
  have hall : ∀ (ts : List Transmission) (d : Broadcast W S), P d.link →
      P (d.sendAll link ts).link := by
    intro ts
    induction ts with
    | nil => exact fun d hd => hd
    | cons t rest ih => exact fun d hd => ih (d.send link t) (hone d t hd)
  induction actions generalizing b with
  | nil => exact h
  | cons a rest ih =>
    apply ih
    cases a with
    | handle c => exact hall _ _ h
    | endStream => exact hone b .flush h
    | begin => exact h
    | collect count => exact h
    | configure c => exact h
    | submit f => exact h
    | flushEncoder => exact h
    | codec run => exact h
    | lose => exact h
    | elapse us => exact h

theorem link_run_eq (b : Broadcast W S) (actions : List (Action W)) :
    (b.run enc link actions).link =
      link.after b.link ((b.calls enc link actions).map Prod.fst) := by
  have hworld := run_mapLink link.logged_follows enc (b.mapLink Logged.fresh) actions
  have htold := link_run enc link.logged
    (P := fun l => l.world = link.after b.link (l.calls.map Prod.fst))
    (fun t l hl => by
      change (link.send t l.world).2 = link.after b.link ((l.calls ++ [_]).map Prod.fst)
      rw [hl, List.map_append, Link.after_append]
      rfl)
    (b := b.mapLink Logged.fresh) rfl actions
  exact (congrArg Broadcast.link hworld).trans htold

end Calls

end Broadcast

end LiveMedia

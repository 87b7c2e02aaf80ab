import LiveMedia.Publisher.Stream

/-!
# Calls that are written down

Decoders and links can be made to write down the calls on them together with their outcomes. The
log never changes what a call does, so what their user asks for can be read off its run with the
log, whatever they are.
-/

namespace LiveMedia
set_option autoImplicit false

variable {V W S T : Type}

/-- A state with a log, the latest entry last. -/
structure Logged (W C : Type) where
  world : W
  calls : List C

namespace Logged

variable {C : Type}

def fresh (world : W) : Logged W C := ⟨world, []⟩

def note (l : Logged W C) (c : C) (world : W) : Logged W C := ⟨world, l.calls ++ [c]⟩

end Logged

namespace Reply

variable {α : Type}

def mapCodec (f : V → W) (r : Reply V α) : Reply W α := ⟨r.verdict, r.emitted, f r.codec⟩

@[simp] theorem succeeded_mapCodec (f : V → W) (r : Reply V α) :
    (r.mapCodec f).succeeded = r.succeeded := rfl

end Reply

/-- A call on a family of decoders and how it ended. -/
inductive DecoderCall where
  /-- A new instance, if it could be made. -/
  | create (made : Option Nat)
  | configure (i : Nat) (succeeded : Bool)
  | decode (i : Nat) (c : Chunk) (succeeded : Bool)
deriving DecidableEq

namespace DecoderFamily

def logged (dec : DecoderFamily W) : DecoderFamily (Logged W DecoderCall) where
  create c l :=
    let (made, world) := dec.create c l.world
    (made, l.note (.create made.toOption) world)
  state l i := dec.state l.world i
  configure c i l :=
    let reply := dec.configure c i l.world
    ⟨reply.verdict, reply.emitted, l.note (.configure i reply.succeeded) reply.codec⟩
  decode c i l :=
    let reply := dec.decode c i l.world
    ⟨reply.verdict, reply.emitted, l.note (.decode i c reply.succeeded) reply.codec⟩

/-- One family acts like another on the states that `f` makes of its own. -/
structure Follows (big : DecoderFamily V) (small : DecoderFamily W) (f : V → W) : Prop where
  create : ∀ c v, small.create c (f v) = ((big.create c v).1, f (big.create c v).2)
  state : ∀ v i, small.state (f v) i = big.state v i
  configure : ∀ c i v, small.configure c i (f v) = (big.configure c i v).mapCodec f
  decode : ∀ c i v, small.decode c i (f v) = (big.decode c i v).mapCodec f

theorem logged_follows (dec : DecoderFamily W) : dec.logged.Follows dec Logged.world where
  create := fun _ _ => rfl
  state := fun _ _ => rfl
  configure := fun _ _ _ => rfl
  decode := fun _ _ _ => rfl

end DecoderFamily

def Transmission.received? : Transmission → Option Received
  | .object o => some o.received
  | _ => none

namespace Link

def logged (link : Link S) : Link (Logged S (Transmission × Bool)) where
  send t l :=
    let (result, s) := link.send t l.world
    (result, l.note (t, result.isOk) s)

/-- One link acts like another on the states that `f` makes of its own. -/
def Follows (big : Link S) (small : Link T) (f : S → T) : Prop :=
  ∀ t s, small.send t (f s) = ((big.send t s).1, f (big.send t s).2)

def after (link : Link S) (s : S) (ts : List Transmission) : S :=
  ts.foldl (fun s t => (link.send t s).2) s

theorem after_append (link : Link S) (s : S) (first second : List Transmission) :
    link.after s (first ++ second) = link.after (link.after s first) second := List.foldl_append

theorem logged_follows (link : Link S) : link.logged.Follows link Logged.world := fun _ _ => rfl

/-- What stands in the log already has no part in what comes after it. -/
theorem logged_follows_after (link : Link S) (old : List (Transmission × Bool)) :
    link.logged.Follows link.logged fun l => ⟨l.world, old ++ l.calls⟩ := by
  intro t l
  unfold logged Logged.note
  simp only [List.append_assoc]

end Link

end LiveMedia

import LiveMedia.Timer

/-! # Tasks that take turns

A task keeps its turn for as long as it can go on. The others that become able to go on meanwhile
stand in line. When no task can go on, the clock moves to the next alarm. -/

namespace LiveMedia
set_option autoImplicit false

/-- Tasks `T` over a state `S` that they share. -/
structure TaskSystem (T S : Type) where
  /-- All tasks. Of those that become able to go on at once, the first is the first in line. -/
  tasks : List T
  canStep : S → (now : Nat) → T → Bool
  /-- A step may move the clock by some microseconds. That gives the turn up. -/
  step : (now : Nat) → T → S → S × Option Nat
  /-- The moment in nanoseconds from which a task can go on, if it waits for one. -/
  deadline? : S → T → Option Nat

structure Schedule (T S : Type) where
  state : S
  now : Nat
  current : Option T
  ready : List T
  /-- Tasks that have given up their turn until no other can go on. -/
  deferred : List T
  /-- Tasks that wait for a millisecond, in the order in which they began to. -/
  alarms : List (T × Nat)

namespace Schedule

variable {T S : Type} [DecidableEq T] (sys : TaskSystem T S)

def start (state : S) (now : Nat) (tasks : List T) : Schedule T S :=
  ⟨state, now, none, tasks, [], []⟩

def isListed (s : Schedule T S) (i : T) : Bool :=
  s.current = some i || s.ready.contains i || s.deferred.contains i

/-- Puts tasks that have become able to go on at the end of the line. -/
def notice (s : Schedule T S) : Schedule T S :=
  { s with ready := s.ready ++
      sys.tasks.filter fun i => !s.isListed i && sys.canStep s.state s.now i }

def modify (f : S → S) (s : Schedule T S) : Schedule T S :=
  { s with state := f s.state }.notice sys

/-- The end of a turn: the task may wait for an alarm. -/
def endTurn (i : T) (s : Schedule T S) : Schedule T S :=
  let others := s.alarms.filter fun a => a.1 ≠ i
  { s with
    current := none
    alarms := match sys.deadline? s.state i with
      | none => others
      | some deadline =>
        let alarm := (i, Timer.tick deadline)
        if s.alarms.contains alarm then s.alarms else others ++ [alarm] }

def stepCurrent (i : T) (s : Schedule T S) : Schedule T S :=
  if sys.canStep s.state s.now i then
    match sys.step s.now i s.state with
    | (state, none) => { s with state := state }.notice sys
    | (state, some moved) =>
      { s with
        state := state
        now := s.now + moved
        current := none
        deferred := s.deferred ++ [i] }.notice sys
  else s.endTurn sys i

def nextAlarm? (s : Schedule T S) : Option Nat := (s.alarms.map Prod.snd).min?

/-- Lets the alarms go off that are due, the earliest first, and then calls the tasks that have
given up their turn. -/
def wakeDue (s : Schedule T S) : Schedule T S :=
  let isDue := fun (a : T × Nat) => decide (a.2 ≤ Timer.passed s.now)
  let due := (s.alarms.filter isDue).mergeSort fun a b => decide (a.2 ≤ b.2)
  { s with
    ready := s.ready ++ due.map Prod.fst ++ s.deferred
    deferred := []
    alarms := s.alarms.filter fun a => !isDue a }

/-- Moves the clock to the next alarm, but not beyond a millisecond that someone outside waits for.
Nothing if there is no such moment. -/
def jump? (limit : Option Nat) (s : Schedule T S) : Option (Schedule T S) :=
  let moment := match s.nextAlarm?, limit with
    | some a, some b => some (min a b)
    | some a, none => some a
    | none, limit => limit
  moment.map fun tick => { s with now := Timer.wake s.now tick }

def isIdle (s : Schedule T S) : Bool := s.current.isNone && s.ready.isEmpty

def hasDue (s : Schedule T S) : Bool :=
  !s.deferred.isEmpty || s.alarms.any fun a => a.2 ≤ Timer.passed s.now

/-- What happens next. Nothing if nothing ever will. -/
def next? (limit : Option Nat) (s : Schedule T S) : Option (Schedule T S) :=
  match s.current, s.ready with
  | some i, _ => some (s.stepCurrent sys i)
  | none, i :: rest => some { s with current := some i, ready := rest }
  | none, [] => if s.hasDue then some s.wakeDue else s.jump? limit

/-- Runs until nothing can go on without the clock and a condition holds. -/
def run (limit : Option Nat) (done : Schedule T S → Bool) :
    (fuel : Nat) → Schedule T S → Schedule T S
  | 0, s => s
  | fuel + 1, s =>
    if s.isIdle && done s then s
    else
      match s.next? sys limit with
      | none => s
      | some s => run limit done fuel s

/-- A bound on the steps of a wait. -/
def patience : Nat := 100000000

/-- Someone outside waits for a condition. One that holds already costs no time. -/
def waitFor (done : S → Bool) (s : Schedule T S) : Schedule T S :=
  if done s.state then s else s.run sys none (fun s => done s.state) patience

def sleep (milliseconds : Nat) (s : Schedule T S) : Schedule T S :=
  let tick := Timer.tick ((s.now + milliseconds * 1000) * 1000)
  if tick ≤ Timer.passed s.now then s
  else s.run sys (some tick) (fun s => tick ≤ Timer.passed s.now) patience

end Schedule

end LiveMedia

/-! # Log filters

A filter is a list of directives with commas between them. A directive is a level, the name of a
target, or a target with a level; of those that fit a message the one with the longest target
decides. Without any, only errors are shown. -/

namespace LiveMedia.Simulator
set_option autoImplicit false

inductive LogLevel where
  | off
  | error
  | warn
  | info
  | debug
  | trace
deriving DecidableEq, Repr

namespace LogLevel

/-- A level shows itself and all levels of a smaller rank. -/
def rank : LogLevel → Nat
  | off => 0
  | error => 1
  | warn => 2
  | info => 3
  | debug => 4
  | trace => 5

def name : LogLevel → String
  | off => "off"
  | error => "error"
  | warn => "warn"
  | info => "info"
  | debug => "debug"
  | trace => "trace"

def all : List LogLevel := [off, error, warn, info, debug, trace]

/-- A level by its name in any case, or by its rank. -/
def parse? (text : List Char) : Option LogLevel :=
  let word := String.ofList (text.map Char.toLower)
  let digits := text.dropWhile (· == '0')
  let rank? :=
    if text ≠ [] ∧ text.all Char.isDigit then
      match digits with
      | [] => some 0
      | [c] => some (c.toNat - 48)
      | _ => none
    else none
  all.find? fun level => level.name == word || some level.rank == rank?

end LogLevel

structure LogDirective where
  /-- Empty for all targets. -/
  target : List Char
  level : LogLevel

namespace LogDirective

def mayBegin (c : Char) : Bool := c == '-' || c == ':' || c == '_' || c.isAlphanum

/-- Reads one directive. Directives with brackets speak of spans, of which there are none. -/
def parse? (text : List Char) : Option LogDirective :=
  if !(text.head?.any mayBegin) || text.contains '[' then none
  else
    let target := text.takeWhile (· != '=')
    match text.dropWhile (· != '=') with
    | [] =>
      match LogLevel.parse? target with
      | some level => some ⟨[], level⟩
      | none => some ⟨target, .trace⟩
    | [_] => some ⟨target, .trace⟩
    | _ :: level => (LogLevel.parse? level).map fun level => ⟨target, level⟩

end LogDirective

abbrev LogFilter := List LogDirective

namespace LogFilter

/-- Pieces that are no directives are left out. -/
def parse (text : String) : LogFilter :=
  let directives := (text.splitOn ",").filterMap fun piece => LogDirective.parse? piece.toList
  if directives.isEmpty then [⟨[], .error⟩] else directives

/-- Of directives with one target the last decides. -/
def shows (f : LogFilter) (target : String) (level : LogLevel) : Bool :=
  let fitting := f.filter fun d => d.target.isPrefixOf target.toList
  let best := fitting.foldl (fun (best : Option LogDirective) d =>
    match best with
    | some b => if b.target.length ≤ d.target.length then some d else best
    | none => some d) none
  match best with
  | some d => level.rank ≤ d.level.rank
  | none => false

end LogFilter

end LiveMedia.Simulator

import LiveMedia.Decimal.Reader

/-! # Arguments of the simulator

An option stands before its value or is written together with it. No option may be given twice, and
what is not an option is refused. Help and version are given as soon as they are asked for. -/

namespace LiveMedia.Simulator
set_option autoImplicit false

structure Options where
  config : Option String := none
  /-- Seconds. -/
  duration : Nat := 10
  reorder : Float := 0.0

inductive Invocation where
  | simulate (o : Options)
  | help
  | version
  | misused

namespace CommandLine

inductive OptionName where
  | config
  | duration
  | reorder
deriving DecidableEq, Repr

namespace OptionName

def ofWord? (word : String) : Option OptionName :=
  if word = "config" then some config
  else if word = "duration" then some duration
  else if word = "reorder" then some reorder
  else none

def ofLetter? (c : Char) : Option OptionName :=
  if c = 'c' then some config
  else if c = 'd' then some duration
  else if c = 'r' then some reorder
  else none

end OptionName

/-- A natural below `2 ^ 64`, in digits with an optional plus sign. -/
def seconds? (text : String) : Option Nat :=
  let digits := match text.toList with
    | '+' :: rest => rest
    | chars => chars
  match Decimal.takeDigits digits 0 0 with
  | (n, _ + 1, []) => if n < 2 ^ 64 then some n else none
  | _ => none

structure Given where
  config : Option String := none
  duration : Option Nat := none
  reorder : Option Float := none

namespace Given

/-- Sets an option to a text. Nothing if it is set already or the text is no value for it. -/
def set? (g : Given) (name : OptionName) (text : String) : Option Given :=
  match name with
  | .config => if g.config.isSome then none else some { g with config := some text }
  | .duration =>
    if g.duration.isSome then none
    else (seconds? text).map fun n => { g with duration := some n }
  | .reorder =>
    if g.reorder.isSome then none
    else (Decimal.float? text.toList).map fun x => { g with reorder := some x }

def options (g : Given) : Options where
  config := g.config
  duration := g.duration.getD 10
  reorder := g.reorder.getD 0.0

end Given

inductive Argument where
  | help
  | version
  | option (name : OptionName) (value : Option String)
  /-- No options stand behind this. -/
  | terminator
  | unknown

/-- Whether an argument cannot be the value of the option before it. -/
def isDashed (arg : List Char) : Bool :=
  match arg with
  | '-' :: _ :: _ => true
  | _ => false

def longArgument (body : List Char) : Argument :=
  let word := String.ofList (body.takeWhile (· != '='))
  let value := match body.dropWhile (· != '=') with
    | [] => none
    | _ :: text => some (String.ofList text)
  match OptionName.ofWord? word with
  | some name => .option name value
  | none =>
    if value.isSome then .unknown
    else if word = "help" then .help
    else if word = "version" then .version
    else .unknown

def shortArgument (letter : Char) (rest : List Char) : Argument :=
  match OptionName.ofLetter? letter with
  | some name =>
    .option name <| match rest with
      | [] => none
      | '=' :: text => some (String.ofList text)
      | text => some (String.ofList text)
  | none => if letter = 'h' then .help else if letter = 'V' then .version else .unknown

def Argument.read (arg : String) : Argument :=
  match arg.toList with
  | ['-', '-'] => .terminator
  | '-' :: '-' :: body => longArgument body
  | '-' :: letter :: rest => shortArgument letter rest
  | _ => .unknown

def readFrom (g : Given) : List String → Invocation
  | [] => .simulate g.options
  | arg :: rest =>
    match Argument.read arg with
    | .help => .help
    | .version => .version
    | .unknown => .misused
    | .terminator => if rest = [] then .simulate g.options else .misused
    | .option name (some value) =>
      match g.set? name value with
      | some g => readFrom g rest
      | none => .misused
    | .option name none =>
      match rest with
      | [] => .misused
      | value :: rest =>
        if isDashed value.toList then .misused
        else
          match g.set? name value with
          | some g => readFrom g rest
          | none => .misused

end CommandLine

def Invocation.ofArguments (args : List String) : Invocation := CommandLine.readFrom {} args

end LiveMedia.Simulator

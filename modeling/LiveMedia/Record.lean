/-! # Records

A record is a list of named fields. Text formats give it either by name or by position; what is
read from either does not depend on the format. -/

namespace LiveMedia
set_option autoImplicit false

structure Fields (V : Type) where
  positional : Bool
  values : List (Option V)

namespace Fields

variable {V α : Type}

def get (r : Fields V) (i : Nat) : Option V := r.values[i]?.join

def required? (r : Fields V) (i : Nat) (read : V → Option α) : Option α := (r.get i).bind read

def defaulted? (r : Fields V) (i : Nat) (read : V → Option α) (missing : α) : Option α :=
  match r.get i with
  | none => some missing
  | some v => read v

/-- A field that may be null. It may be missing too, but only where fields are named. -/
def optional? (r : Fields V) (i : Nat) (isNull : V → Bool) (read : V → Option α) :
    Option (Option α) :=
  match r.get i with
  | none => if r.positional then none else some none
  | some v => if isNull v then some none else (read v).map some

end Fields

/-- How the values of a text format are read. -/
structure Format (V : Type) where
  fields? : List String → V → Option (Fields V)
  string? : V → Option String
  nat? : (bits : Nat) → V → Option Nat
  float? : V → Option Float
  isNull : V → Bool

end LiveMedia

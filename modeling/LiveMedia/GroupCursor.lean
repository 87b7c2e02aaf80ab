/-! # Numbering of chunks

The first chunk of a stream opens group 0, whatever its kind; every later key chunk closes the
group before it and opens the next. -/

namespace LiveMedia
set_option autoImplicit false

structure ClosedGroup where
  group : Nat
  subgroup : Nat
  lastObject : Nat
deriving DecidableEq, Repr, Inhabited

structure ObjectPlace where
  group : Nat
  subgroup : Nat
  object : Nat
  opensGroup : Bool
  closed : Option ClosedGroup
deriving DecidableEq, Repr, Inhabited

structure GroupCursor where
  group : Nat
  subgroup : Nat
  object : Nat
  headerSent : Bool
  started : Bool
deriving DecidableEq, Repr, Inhabited

namespace GroupCursor

def start : GroupCursor := ⟨0, 0, 0, false, false⟩

def markHeaderSent (c : GroupCursor) : GroupCursor := { c with headerSent := true }

def place (c : GroupCursor) (opensGroup : Bool) (closed : Option ClosedGroup) : ObjectPlace :=
  ⟨c.group, c.subgroup, c.object, opensGroup, closed⟩

def advance (c : GroupCursor) (key : Bool) : ObjectPlace × GroupCursor :=
  if !c.started then
    let next := { c with started := true, group := 0, object := 0, headerSent := false }
    (next.place true none, next)
  else if key then
    let next := { c with group := c.group + 1, object := 0, headerSent := false }
    (next.place true (some ⟨c.group, c.subgroup, c.object⟩), next)
  else
    let next := { c with object := c.object + 1 }
    (next.place false none, next)

end GroupCursor

end LiveMedia

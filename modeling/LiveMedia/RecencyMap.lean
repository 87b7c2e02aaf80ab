/-! # Maps that hold a bounded number of pairs

A pair that is pushed counts as the latest. When the map is full, the pair pushed longest ago makes
room for it. -/

namespace LiveMedia
set_option autoImplicit false

class RecencyMap (M : Type) (K V : outParam Type) where
  withCapacity : Nat → M
  /-- Hands back the pair that the new one replaces: the earlier pair of its key, or else the pair
  that makes room for it. -/
  push : M → K → V → Option (K × V) × M
  pop : M → K → Option V × M
  clear : M → M
  size : M → Nat

structure RecencyList (K V : Type) where
  /-- The latest pair stands last; no key occurs twice. -/
  entries : List (K × V)
  capacity : Nat
deriving Repr

namespace RecencyList

variable {K V : Type} [DecidableEq K]

def without (m : RecencyList K V) (key : K) : List (K × V) := m.entries.filter fun e => e.1 != key

def push (m : RecencyList K V) (key : K) (value : V) : Option (K × V) × RecencyList K V :=
  match m.entries.lookup key with
  | some earlier => (some (key, earlier), { m with entries := m.without key ++ [(key, value)] })
  | none =>
    if m.entries.length < m.capacity then
      (none, { m with entries := m.entries ++ [(key, value)] })
    else (m.entries.head?, { m with entries := m.entries.tail ++ [(key, value)] })

def pop (m : RecencyList K V) (key : K) : Option V × RecencyList K V :=
  (m.entries.lookup key, { m with entries := m.without key })

instance : RecencyMap (RecencyList K V) K V where
  withCapacity := fun capacity => ⟨[], capacity⟩
  push := push
  pop := pop
  clear := fun m => { m with entries := [] }
  size := fun m => m.entries.length

end RecencyList

end LiveMedia

/-! # Media kinds

A stream carries either audio or video. The two differ in the order in which their group headers
are sent and in what a receiver does with objects that carry no picture or sound. -/

namespace LiveMedia
set_option autoImplicit false

inductive Media where
  | audio
  | video
deriving DecidableEq, Repr, Inhabited

namespace Media

def name : Media → String
  | audio => "audio"
  | video => "video"

/-- Whether a receiver of this kind throws control objects away before they are buffered. -/
def discardsControl : Media → Bool
  | audio => false
  | video => true

/-- The smaller number is sent first. -/
def groupPriority : Media → Nat
  | audio => 0
  | video => 1

def all : List Media := [audio, video]

theorem mem_all (m : Media) : m ∈ all := by cases m <;> decide

end Media

structure PerMedia (α : Type) where
  video : α
  audio : α

namespace PerMedia

variable {α β : Type}

def get (p : PerMedia α) : Media → α
  | .video => p.video
  | .audio => p.audio

def set (p : PerMedia α) (m : Media) (a : α) : PerMedia α :=
  match m with
  | .video => { p with video := a }
  | .audio => { p with audio := a }

def map (f : α → β) (p : PerMedia α) : PerMedia β := ⟨f p.video, f p.audio⟩

@[simp] theorem get_set (p : PerMedia α) (m : Media) (a : α) : (p.set m a).get m = a := by
  cases m <;> rfl

@[simp] theorem get_set_of_ne (p : PerMedia α) {m n : Media} (h : n ≠ m) (a : α) :
    (p.set m a).get n = p.get n := by
  cases m <;> cases n <;> simp_all [set, get]

@[simp] theorem get_map (f : α → β) (p : PerMedia α) (m : Media) :
    (p.map f).get m = f (p.get m) := by
  cases m <;> rfl

end PerMedia

end LiveMedia

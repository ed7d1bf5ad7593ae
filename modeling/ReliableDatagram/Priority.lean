/-!
# Priorities

The order in which queued packets are sent. A priority has no effect on reliability and is not
transmitted. `PerPriority` holds one value for each of them.
-/
namespace ReliableDatagram

inductive Priority where
  | system
  | high
  | medium
  | low
  deriving DecidableEq, Repr

namespace Priority

/-- From the most to the least urgent. -/
def all : List Priority := [system, high, medium, low]

instance : Inhabited Priority := ⟨medium⟩

def rank : Priority → Nat
  | system => 0
  | high => 1
  | medium => 2
  | low => 3

def ofRank? : Nat → Option Priority
  | 0 => some system
  | 1 => some high
  | 2 => some medium
  | 3 => some low
  | _ => none

def name : Priority → String
  | system => "System"
  | high => "High"
  | medium => "Medium"
  | low => "Low"

end Priority

structure PerPriority (α : Type) where
  system : α
  high : α
  medium : α
  low : α
  deriving DecidableEq, Repr

namespace PerPriority

variable {α β : Type}

def replicate (a : α) : PerPriority α := ⟨a, a, a, a⟩

def get (t : PerPriority α) : Priority → α
  | .system => t.system
  | .high => t.high
  | .medium => t.medium
  | .low => t.low

def set (t : PerPriority α) (p : Priority) (a : α) : PerPriority α :=
  match p with
  | .system => { t with system := a }
  | .high => { t with high := a }
  | .medium => { t with medium := a }
  | .low => { t with low := a }

def modify (t : PerPriority α) (p : Priority) (f : α → α) : PerPriority α := t.set p (f (t.get p))

def map (f : α → β) (t : PerPriority α) : PerPriority β :=
  ⟨f t.system, f t.high, f t.medium, f t.low⟩

def toList (t : PerPriority α) : List α := [t.system, t.high, t.medium, t.low]

@[simp] theorem get_set (t : PerPriority α) (p q : Priority) (a : α) :
    (t.set p a).get q = if q = p then a else t.get q := by
  cases p <;> cases q <;> rfl

@[simp] theorem get_replicate (a : α) (p : Priority) : (replicate a).get p = a := by
  cases p <;> rfl

end PerPriority
end ReliableDatagram

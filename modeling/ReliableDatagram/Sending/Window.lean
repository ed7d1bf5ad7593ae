import ReliableDatagram.Limits

/-!
# The sending window

How many reliable packets may be in flight. A loss shrinks the window by one. A datagram with a whole
window of acknowledgements lets it grow by one while data waits: at once below the lossy ceiling, and
otherwise only when the cooldown has passed.
-/
namespace ReliableDatagram

structure Window where
  size : Nat
  /-- The size at the last loss, the ceiling of unrestrained growth. -/
  lossy : Nat
  lastIncrease : Option Instant
  cooldown : Duration
  deriving DecidableEq, Repr

namespace Window

def initial (cooldown : Duration) : Window :=
  { size := Limits.minimumWindow, lossy := Limits.maximumWindow + 1, lastIncrease := none, cooldown }

def isFull (w : Window) (inFlight : Nat) : Bool := w.size ≤ inFlight

def onLoss (w : Window) (now : Instant) : Window :=
  let size := max (w.size - 1) Limits.minimumWindow
  { w with size, lossy := size, lastIncrease := some now }

/-- The cooldown has passed since the last restrained growth or loss. -/
def hasCooled (w : Window) (now : Instant) : Bool :=
  match w.lastIncrease with
  | none => true
  | some t => w.cooldown < elapsed t now

def grow (w : Window) (now : Instant) : Window :=
  let size := min (w.size + 1) Limits.maximumWindow
  { w with
    size
    lossy := if size = Limits.maximumWindow ∨ w.lossy + Limits.lossyHeadroom < size then w.lossy + 1
      else w.lossy
    lastIncrease := if w.hasCooled now then some now else w.lastIncrease }

/-- After a datagram with `acked` acknowledgements, repeated ones included; says whether the window
was allowed to grow. -/
def onAcks (w : Window) (now : Instant) (acked : Nat) (backlog : Bool) : Bool × Window :=
  if acked < w.size || !backlog then (false, w)
  else if w.size < w.lossy || w.hasCooled now then (true, w.grow now)
  else (false, w)

end Window
end ReliableDatagram

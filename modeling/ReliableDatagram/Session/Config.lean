import ReliableDatagram.Limits

/-!
# Settings of a session

Two settings have a bound that holds in every `Config`: the size of a datagram and the delay before
a packet is sent again. The `with…` functions change one setting and keep to the bounds.
-/
namespace ReliableDatagram

structure Config where
  mtu : Nat := Limits.defaultMtu
  resendDelay : Duration := Limits.defaultResendDelay
  connectionTimeout : Duration := Limits.connectionTimeout
  splitExpiry : Duration := Limits.unreliableSplitExpiry
  /-- Bytes at the end of every frame that are left to a cipher. -/
  encryptionOverhead : Nat := 0
  maxSplitParts : Nat := Limits.maximumSplitParts
  maxReassemblyBytes : Nat := Limits.maximumReassemblyBytes
  mtu_le : mtu ≤ Limits.maximumMtu := by decide
  resendDelay_ge : Limits.minimumResendDelay ≤ resendDelay := by decide
  deriving DecidableEq, Repr

namespace Config

def default : Config := {}

def withMtu (c : Config) (mtu : Nat) : Config :=
  { c with mtu := min mtu Limits.maximumMtu, mtu_le := Nat.min_le_right .. }

def withResendDelay (c : Config) (delay : Duration) : Config :=
  { c with
    resendDelay := max delay Limits.minimumResendDelay
    resendDelay_ge := Nat.le_max_right .. }

def withConnectionTimeout (c : Config) (connectionTimeout : Duration) : Config :=
  { c with connectionTimeout }

def withSplitExpiry (c : Config) (splitExpiry : Duration) : Config := { c with splitExpiry }

def withEncryptionOverhead (c : Config) (encryptionOverhead : Nat) : Config :=
  { c with encryptionOverhead }

def withMaxSplitParts (c : Config) (maxSplitParts : Nat) : Config := { c with maxSplitParts }

def withMaxReassemblyBytes (c : Config) (maxReassemblyBytes : Nat) : Config :=
  { c with maxReassemblyBytes }

/-- How long an acknowledgement may wait for others to share its frame. -/
def ackCoalesce (c : Config) : Duration := c.resendDelay / 4

/-- The least time between two restrained growths of the window. -/
def windowCooldown (c : Config) : Duration := c.resendDelay * 2

/-- Bytes of a frame that are left to entries. -/
def frameBudget (c : Config) : Nat := c.mtu - Limits.udpHeader - c.encryptionOverhead

end Config
end ReliableDatagram

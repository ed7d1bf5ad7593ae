/-!
# Time, limits and defaults

Instants and durations are whole nanoseconds, an instant being counted from a fixed base. The library
never reads a clock: whatever depends on time takes the present as an argument, and the present may
lie before an instant that was seen earlier. Like the counters of the statistics, instants and durations
are natural numbers and do not overflow: an instant and a duration always have a sum, and a counter goes on
for ever, where in the words of a machine the addition would fail.

`Limits` holds the numbers that the protocol fixes.
-/
namespace ReliableDatagram

abbrev Instant := Nat

abbrev Duration := Nat

namespace Duration

def ofMillis (ms : Nat) : Duration := ms * 1000000

end Duration

/-- The time since `past`, zero if `past` lies ahead. -/
def elapsed (past now : Instant) : Duration := now - past

namespace Limits

/-- Bytes of a datagram that every IPv4 host accepts, headers included. -/
def defaultMtu : Nat := 576

/-- No larger datagram is built or accepted. -/
def maximumMtu : Nat := 8000

/-- Taken by the IP and UDP headers of a datagram. -/
def udpHeader : Nat := 28

def channels : Nat := 32

def channelBits : Nat := 5

/-- Bits of an acknowledgement: a sequence number and its flag. -/
def ackBits : Nat := 17

/-- Reliable packets that may always be in flight; also the number of acknowledgements that are sent
without waiting for more. -/
def minimumWindow : Nat := 5

/-- Acknowledgements that fit the largest frame. -/
def maximumWindow : Nat := (maximumMtu - udpHeader) * 8 / ackBits

/-- Growth of the window beyond its lossy ceiling that raises the ceiling. -/
def lossyHeadroom : Nat := 5

/-- Unacknowledged for this long, a connection is dead; a skipped sequence number is given up. -/
def connectionTimeout : Duration := .ofMillis 10000

def defaultResendDelay : Duration := .ofMillis 1000

def minimumResendDelay : Duration := .ofMillis 150

/-- Life of an incomplete message whose fragments are unreliable. -/
def unreliableSplitExpiry : Duration := .ofMillis 5000

def maximumSplitParts : Nat := 1024

/-- Charged for a held fragment beside its payload. -/
def fragmentOverhead : Nat := 64

def maximumReassemblyBytes : Nat := 16 * 1024 * 1024

/-- Sequence numbers for which a duplicate log has room from the start. -/
def arrivalLogCapacity : Nat := 128

def defaultTickInterval : Duration := .ofMillis 10

/-- The largest count of the machine, standing for a number of fragments without bound. -/
def largestCount : Nat := 0xFFFFFFFFFFFFFFFF

/-- The largest length of a message, in bits. -/
def largestBitLength : Nat := 0xFFFFFFFF

end Limits
end ReliableDatagram

import ReliableDatagram.Session.Config

/-!
# Endpoints

An endpoint is a socket that carries the sessions of any number of peers. Only its settings are part
of this library, and the addresses of peers.

A peer is known by the address of its host and a port. `Address.rank` puts addresses in order: those
of version 4 first, then by the number of the host, the port and the zone.

A host of version 4 is written as four decimal octets. One of version 6 is written as hexadecimal
groups, of which the longest row of two or more zeros is left out; if it stands for a host of version
4, its last two groups are written as octets. It is put in brackets, with its zone behind a percent
sign. The port comes last.

Reading accepts more than is written: groups with leading zeros or in capitals, rows of zeros left out
anywhere or not at all, and octets at the end of any address of version 6.
-/
namespace ReliableDatagram

inductive Host where
  | ipv4 (octets : Vector UInt8 4)
  /-- The zone tells links apart on which the same address may occur; it is zero if there is no need. -/
  | ipv6 (groups : Vector UInt16 8) (zone : UInt32)
  deriving DecidableEq, Repr

structure Address where
  host : Host
  port : UInt16
  deriving DecidableEq, Repr

namespace Address

def rank (a : Address) : Nat :=
  match a.host with
  | .ipv4 octets => octets.toList.foldl (fun n o => 256 * n + o.toNat) 0 * 65536 + a.port.toNat
  | .ipv6 groups zone =>
    let host := groups.toList.foldl (fun n g => 65536 * n + g.toNat) 0
    1 <<< 48 + ((host * 65536 + a.port.toNat) <<< 32) + zone.toNat

def unspecified : Address := { host := .ipv4 (Vector.replicate 4 0), port := 0 }

end Address

/-! ### Addresses as text -/

namespace Host

def dotted (octets : List UInt8) : String := ".".intercalate (octets.map toString)

/-- Groups in hexadecimal digits, without leading zeros. -/
def colonGroups (groups : List UInt16) : String :=
  ":".intercalate (groups.map fun g => String.ofList (Nat.toDigits 16 g.toNat))

def octetsOfGroup (g : UInt16) : List UInt8 := [(g >>> 8).toUInt8, g.toUInt8]

/-- Where the longest row of zeros begins, the first of several, and its length. -/
def longestZeros (groups : List UInt16) : Nat × Nat :=
  (List.range groups.length).foldl (fun best i =>
    let length := ((groups.drop i).takeWhile (· = 0)).length
    if best.2 < length then (i, length) else best) (0, 0)

def writeGroups (groups : List UInt16) : String :=
  if groups.take 6 = [0, 0, 0, 0, 0, 0xFFFF] then
    "::ffff:" ++ dotted ((groups.drop 6).flatMap octetsOfGroup)
  else
    let (start, length) := longestZeros groups
    if length < 2 then colonGroups groups
    else colonGroups (groups.take start) ++ "::" ++ colonGroups (groups.drop (start + length))

def write : Host → String
  | ipv4 octets => dotted octets.toList
  | ipv6 groups zone =>
    let zoneText := if zone = 0 then "" else "%" ++ toString zone
    "[" ++ writeGroups groups.toList ++ zoneText ++ "]"

end Host

namespace Address

instance : ToString Address := ⟨fun a => a.host.write ++ ":" ++ toString a.port⟩

/-- Reads a value from the front of a text. -/
abbrev TextReader := StateT (List Char) Option

namespace TextReader

def char (c : Char) : TextReader Unit := fun s =>
  match s with
  | d :: rest => if d = c then some ((), rest) else none
  | [] => none

/-- The value of a digit, small and capital letters being the same. -/
def digit? (base : Nat) (c : Char) : Option Nat :=
  let value? :=
    if '0' ≤ c ∧ c ≤ '9' then some (c.toNat - '0'.toNat)
    else if 'a' ≤ c ∧ c ≤ 'f' then some (c.toNat - 'a'.toNat + 10)
    else if 'A' ≤ c ∧ c ≤ 'F' then some (c.toNat - 'A'.toNat + 10)
    else none
  value?.filter (· < base)

def digits (base : Nat) : TextReader (List Nat) := fun s =>
  let found := (s.takeWhile fun c => (digit? base c).isSome).filterMap (digit? base)
  if found.isEmpty then none else some (found, s.drop found.length)

def valueOf (base : Nat) (digits : List Nat) : Nat := digits.foldl (fun n d => base * n + d) 0

def number (bound : Nat) : TextReader Nat := do
  let n := valueOf 10 (← digits 10)
  guard (n < bound)
  return n

/-- A leading zero could mean another base and is refused. -/
def octet : TextReader UInt8 := do
  let found ← digits 10
  guard (found.length = 1 ∨ found.head? ≠ some 0)
  let n := valueOf 10 found
  guard (n < 256)
  return UInt8.ofNat n

def ipv4 : TextReader (Vector UInt8 4) := do
  let a ← octet
  char '.'
  let b ← octet
  char '.'
  let c ← octet
  char '.'
  let d ← octet
  return #v[a, b, c, d]

def group : TextReader UInt16 := do
  let found ← digits 16
  guard (found.length ≤ 4)
  return UInt16.ofNat (valueOf 16 found)

/-- Two groups from the four octets that stand for them. -/
def groupsOfOctets (octets : Vector UInt8 4) : List UInt16 :=
  let pair (a b : UInt8) : UInt16 := a.toUInt16 <<< 8 ||| b.toUInt16
  [pair octets[0] octets[1], pair octets[2] octets[3]]

/-- As many groups as there are, up to `limit`, and whether they end in octets. -/
def groups : (limit : Nat) → (first : Bool) → TextReader (List UInt16 × Bool)
  | 0, _ => pure ([], false)
  | n + 1, first =>
    let separator : TextReader Unit := if first then pure () else char ':'
    (do separator
        guard (0 < n)
        return (groupsOfOctets (← ipv4), true))
    <|> (do separator
            let g ← group
            let (gs, octets) ← groups n false
            return (g :: gs, octets))
    <|> pure ([], false)

/-- Eight groups, or fewer with one gap that stands for at least one zero. -/
def ipv6 : TextReader (Vector UInt16 8) := do
  let (front, octets) ← groups 8 true
  if front.length = 8 then return Vector.ofFn fun i => front.getD i 0
  guard !octets
  char ':'
  char ':'
  let (back, _) ← groups (7 - front.length) true
  let gap : List UInt16 := List.replicate (8 - front.length - back.length) 0
  return Vector.ofFn fun i => (front ++ gap ++ back).getD i 0

def zone : TextReader UInt32 :=
  (do char '%'
      return UInt32.ofNat (← number 0x100000000))
  <|> pure 0

def host : TextReader Host :=
  (do return .ipv4 (← ipv4))
  <|> (do char '['
          let groups ← ipv6
          let zone ← zone
          char ']'
          return .ipv6 groups zone)

def address : TextReader Address := do
  let host ← host
  char ':'
  return { host, port := UInt16.ofNat (← number 65536) }

end TextReader

/-- The address that a text is in full. -/
def ofText? (text : String) : Option Address :=
  match TextReader.address text.toList with
  | some (a, []) => some a
  | _ => none

end Address

/-! ### Settings -/

structure EndpointConfig where
  bind : Address := .unspecified
  /-- Time between two ticks of every session. -/
  tickInterval : Duration := Limits.defaultTickInterval
  commandCapacity : Nat := 1024
  eventCapacity : Nat := 1024
  /-- Kill the session of a peer that sends a malformed datagram. -/
  closeOnMalformed : Bool := false
  session : Config := .default
  deriving DecidableEq, Repr

end ReliableDatagram

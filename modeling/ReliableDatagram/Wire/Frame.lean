import ReliableDatagram.Wire.Entry

/-!
# Frames

A frame is what one datagram carries: its entries and the bytes they are written as. A `FrameBuilder`
takes entries as long as they fit. A `FrameReader` takes a datagram apart again; behind a malformed
entry no boundary can be found, so an error ends the frame.
-/
namespace ReliableDatagram

structure Frame where
  entries : List Entry
  bytes : Bytes
  deriving DecidableEq, Repr

structure FrameBuilder where
  capacity : Nat
  writer : BitWriter := .empty
  entries : Array Entry := #[]
  deriving DecidableEq, Repr

namespace FrameBuilder

def ofMaxBytes (maxBytes : Nat) : FrameBuilder := { capacity := maxBytes * 8 }

def bitLength (f : FrameBuilder) : Nat := f.writer.bitLength

/-- Bits that may still be written. -/
def remaining (f : FrameBuilder) : Nat := f.capacity - f.bitLength

def isEmpty (f : FrameBuilder) : Bool := f.entries.isEmpty

theorem isEmpty_iff (f : FrameBuilder) : f.isEmpty = true ↔ f.entries.toList = [] := by
  simp [isEmpty]

def fits (f : FrameBuilder) (e : Entry) : Bool := e.bitsAt f.bitLength ≤ f.remaining

/-- The frame with one more entry, which is expected to fit. -/
def push (f : FrameBuilder) (e : Entry) : FrameBuilder :=
  { f with writer := e.write f.writer, entries := f.entries.push e }

def push? (f : FrameBuilder) (e : Entry) : Option FrameBuilder :=
  if f.fits e then some (f.push e) else none

/-- Pushes every entry that fits when its turn comes, and says which did. -/
def pushAll (f : FrameBuilder) : List Entry → List Bool × FrameBuilder
  | [] => ([], f)
  | e :: entries =>
    let fits := f.fits e
    let (taken, f) := pushAll (if fits then f.push e else f) entries
    (fits :: taken, f)

def finish (f : FrameBuilder) : Frame := { entries := f.entries.toList, bytes := f.writer.toBytes }

def cleared (f : FrameBuilder) : FrameBuilder := { capacity := f.capacity }

end FrameBuilder

structure FrameReader where
  bits : BitReader
  failed : Bool := false
  deriving Repr

namespace FrameReader

/-- No entry is shorter than its sequence number; fewer bits are padding. -/
def minimumEntryBits : Nat := 16

def ofBytes (data : Bytes) : FrameReader := { bits := .ofBytes data }

def next? (r : FrameReader) : Option (Except Malformed Entry × FrameReader) :=
  if r.failed || !r.bits.has minimumEntryBits then none
  else
    match Entry.read r.bits with
    | .ok e bits => some (.ok e, { r with bits })
    | .error e bits => some (.error e, { bits, failed := true })

/-- At most `fuel` steps of `next?`: the entries, the error if one was met, and the reader left. -/
def drainWith : (fuel : Nat) → FrameReader → List Entry × Option Malformed × FrameReader
  | 0, r => ([], none, r)
  | n + 1, r =>
    match r.next? with
    | none => ([], none, r)
    | some (.error e, r') => ([], some e, r')
    | some (.ok entry, r') =>
      let (entries, tail) := drainWith n r'
      (entry :: entries, tail)

/-- All entries. An entry takes more than two bytes, so the bytes that are left bound the steps. -/
def drain (r : FrameReader) : List Entry × Option Malformed × FrameReader :=
  drainWith (r.bits.rest.length + 1) r

end FrameReader

namespace Frame

/-- The entries in front of the first malformed one, and its error. -/
def read (data : Bytes) : List Entry × Option Malformed :=
  let (entries, error?, _) := (FrameReader.ofBytes data).drain
  (entries, error?)

/-- The entries of a datagram that has no malformed one. -/
def decode (data : Bytes) : Except Malformed (List Entry) :=
  match read data with
  | (entries, none) => .ok entries
  | (_, some e) => .error e

/-- Every entry alone in a frame of at most `maxBytes` bytes; those that do not fit are left out. -/
def isolate (maxBytes : Nat) (entries : List Entry) : List Frame :=
  entries.filterMap fun e => ((FrameBuilder.ofMaxBytes maxBytes).push? e).map FrameBuilder.finish

end Frame
end ReliableDatagram

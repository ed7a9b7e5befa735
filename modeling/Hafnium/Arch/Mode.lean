import Mathlib.Data.BitVec

/-!
# Page mapping modes

The architecture-independent mapping modes of `mm.rs`.  A mode is a set of
flags packed into a 32-bit word; the flags `INVALID`, `UNOWNED` and `SHARED`
are negated, so that the empty mode is memory which is valid, owned and
exclusive to its VM.
-/

namespace Hafnium

/-- A set of mapping flags (`bitflags! struct Mode: u32`). -/
abbrev Mode := BitVec 32

namespace Mode

def R : Mode := 0b0000_0001#32
def W : Mode := 0b0000_0010#32
def X : Mode := 0b0000_0100#32
def D : Mode := 0b0000_1000#32
def INVALID : Mode := 0b0001_0000#32
def UNOWNED : Mode := 0b0010_0000#32
def SHARED : Mode := 0b0100_0000#32

/-- `self.contains(other)`: every flag of `other` is set. -/
def contains (self other : Mode) : Bool := self &&& other == other

/-- `self.intersects(other)`: some flag of `other` is set. -/
def intersects (self other : Mode) : Bool := self &&& other != 0#32

/-- Memory that is valid, owned and exclusive. -/
def validOwnedExclusive (self : Mode) : Bool :=
  !self.intersects (INVALID ||| UNOWNED ||| SHARED)

/-- The flags known to `bitflags`. -/
def all : Mode := R ||| W ||| X ||| D ||| INVALID ||| UNOWNED ||| SHARED

/-- `Mode::from_bits_truncate`. -/
def fromBitsTruncate (bits : BitVec 32) : Mode := bits &&& all

/-- The part of a mode that records the sharing state. -/
def stateMask : Mode := INVALID ||| UNOWNED ||| SHARED

end Mode
end Hafnium

/-
# Byte strings

A byte string is a list of octets. `byte` and `ascii` write the constants of
a program the way its source does; `Slice` is a byte string whose length fits
the machine's word, as that of every byte slice in memory does.

Key definitions: `Bytes`, `byte`, `ascii`, `Slice`.
-/
import Mathlib

namespace Statico

abbrev Bytes := List UInt8

/-- The byte of an ASCII character. -/
def byte (c : Char) : UInt8 := c.toNat.toUInt8

/-- The bytes of an ASCII string. -/
def ascii (s : String) : Bytes := s.toList.map byte

/-- A byte slice in the memory of a 64-bit machine. -/
structure Slice where
  bytes : Bytes
  fits : bytes.length < 2 ^ 64

end Statico

import Wson.Wire.Word

/-!
# C integers and faults

Where the C code leaves the behaviour its standard defines, the model stops with
a `Fault`. The repository holds the C library twice, in `c/` and in `io/`; the
two copies differ in a few numbers and in how wide the fields of a buffer are.
-/

namespace Wson.Native

inductive Fault where
  /-- A load or store outside the memory block. -/
  | outOfBounds
  /-- An `int` expression overflows, or an array of negative length is allocated. -/
  | overflow
  /-- The stack has no room for another call. -/
  | stackOverflow
  /-- A load from memory that has been freed. -/
  | freed
  deriving DecidableEq, Repr

/-- The copy of the library: `wson_buffer` of `c/`, or `wson_io_buffer` of `io/`. -/
inductive Library where
  | c
  | io
  deriving DecidableEq, Repr

/-- The width of `position` and `length`: `uint32_t`, or `size_t` (of 64 bits). -/
def Library.bits : Library → Nat
  | .c => 32
  | .io => 64

/-- `WSON_BUFFER_SIZE`. -/
def Library.bufferSize : Library → Nat
  | .c => 1024
  | .io => 4096

end Wson.Native

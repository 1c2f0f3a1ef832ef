import MachImage.Fault
import MachImage.Text.Utf8
/-!
A region is a run of bytes that remembers the offset it was cut from. Every read names its offset
and its length, and fails as a whole when one byte of it lies outside: `read` is the only way to
the bytes, and words, strings and slices go through it. A string ends at the first NUL, which is
looked for in windows of doubling length, so that a short string costs little in a large region.
-/
namespace MachImage

def littleEndian : List UInt8 → Nat
  | [] => 0
  | b :: bs => b.toNat + 256 * littleEndian bs

def twosComplement (bits n : Nat) : Int :=
  if n < 1 <<< (bits - 1) then n else (n : Int) - (1 <<< bits : Nat)

inductive WordType where
  | u8 | i8 | u16 | i16 | u32 | i32 | u64 | i64
  deriving DecidableEq

namespace WordType

def size : WordType → Nat
  | .u8 | .i8 => 1
  | .u16 | .i16 => 2
  | .u32 | .i32 => 4
  | .u64 | .i64 => 8

def signed : WordType → Bool
  | .i8 | .i16 | .i32 | .i64 => true
  | .u8 | .u16 | .u32 | .u64 => false

def decode (w : WordType) (bs : List UInt8) : Int :=
  if w.signed then twosComplement (8 * w.size) (littleEndian bs) else littleEndian bs

end WordType

structure Region where
  bytes : Array UInt8
  base : Int := 0

namespace Region

def size (r : Region) : Nat := r.bytes.size

def contains (r : Region) (offset size : Int) : Bool :=
  0 ≤ offset && 0 ≤ size && offset + size ≤ r.size

def read (r : Region) (offset size : Int) : Except Fault (Array UInt8) :=
  if r.contains offset size then
    .ok (r.bytes.extract offset.toNat (offset + size).toNat)
  else .error (.outOfBounds offset size r.size)

def word (r : Region) (offset : Int) (type : WordType) : Except Fault Int :=
  (r.read offset type.size).map fun bs => type.decode bs.toList

def byte (r : Region) (offset : Int) : Except Fault UInt8 :=
  (r.read offset 1).map fun bs => bs[0]?.getD 0

/-- The bytes of a slice are those of the region from `offset` on, and its base moves along. -/
def slice (r : Region) (offset size : Int) : Except Fault Region :=
  (r.read offset size).map fun bs => { bytes := bs, base := r.base + offset }

/-- The first NUL at or after `start`, looked for `window` bytes at a time, then twice as many. -/
def terminator? (bytes : Array UInt8) (start window : Nat) : Option Nat :=
  if start < bytes.size ∧ 0 < window then
    let chunk := bytes.extract start (start + window)
    match chunk.findIdx? (· == 0) with
    | some i => some (start + i)
    | none => terminator? bytes (start + window) (2 * window)
  else none
termination_by bytes.size - start

def cstringBytes (r : Region) (offset : Int) : Except Fault (List UInt8) :=
  if r.contains offset 1 then
    match terminator? r.bytes offset.toNat 16 with
    | some stop => .ok (r.bytes.extract offset.toNat stop).toList
    | none => .error (.unterminated (r.base + offset))
  else .error (.outOfBounds offset 1 r.size)

def cstring (r : Region) (offset : Int) : Except Fault String :=
  (r.cstringBytes offset).map Utf8.decode

def text (r : Region) : String :=
  s!"<ByteRegion [{Hex.number r.base} - {Hex.number (r.base + r.size)}]>"

theorem contains_iff (r : Region) (offset size : Int) :
    r.contains offset size = true ↔ 0 ≤ offset ∧ 0 ≤ size ∧ offset + size ≤ r.size := by
  simp [contains, and_assoc]

theorem read_eq_ok_iff {r : Region} {offset size : Int} {bs : Array UInt8} :
    r.read offset size = .ok bs ↔ r.contains offset size = true ∧
      bs = r.bytes.extract offset.toNat (offset + size).toNat := by
  unfold read
  split
  next h => simp only [h, Except.ok.injEq, true_and]; exact eq_comm
  next h => simp [h]

end Region
end MachImage

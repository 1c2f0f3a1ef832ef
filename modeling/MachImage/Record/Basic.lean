import MachImage.Region
/-!
Records: fixed layouts of fields in the file. A type of records knows its label, its size in bytes,
how to decode that many bytes and how to list its fields again in the order they lie in the file.
A record that was read is placed: it keeps the offset it was read from, counted from where the
outermost region begins. Its dump is what can be shown of it whatever its type.
-/
namespace MachImage

inductive FieldValue where
  | number (n : Int)
  | chars (bs : List UInt8)
  | raw (bs : List UInt8)
  | group (fields : List (String × FieldValue))

instance : Coe Nat FieldValue := ⟨fun n => .number n⟩
instance : Coe Int FieldValue := ⟨.number⟩

class Record (α : Type) where
  label : String
  size : Nat
  decode : Array UInt8 → α
  fields : α → List (String × FieldValue)

structure Placed (α : Type) where
  value : α
  offset : Int

structure Dump where
  label : String
  size : Nat
  offset : Int
  fields : List (String × FieldValue)

namespace Record

def unsignedAt (bs : Array UInt8) (start width : Nat) : Nat :=
  littleEndian (bs.extract start (start + width)).toList

def u8 (bs : Array UInt8) (start : Nat) : Nat := unsignedAt bs start 1
def u16 (bs : Array UInt8) (start : Nat) : Nat := unsignedAt bs start 2
def u32 (bs : Array UInt8) (start : Nat) : Nat := unsignedAt bs start 4
def u64 (bs : Array UInt8) (start : Nat) : Nat := unsignedAt bs start 8
def i32 (bs : Array UInt8) (start : Nat) : Int := twosComplement 32 (u32 bs start)

def name16 (bs : Array UInt8) (start : Nat) : List UInt8 :=
  (bs.extract start (start + 16)).toList.takeWhile (· ≠ 0)

def bytes16 (bs : Array UInt8) (start : Nat) : List UInt8 :=
  (bs.extract start (start + 16)).toList

theorem unsignedAt_extract {bs : Array UInt8} {start stop offset width : Nat}
    (inside : start + offset + width ≤ stop) :
    unsignedAt (bs.extract start stop) offset width = unsignedAt bs (start + offset) width := by
  have within : min (start + (offset + width)) stop = start + offset + width := by omega
  simp only [unsignedAt, Array.extract_extract, within]

theorem u32_extract {bs : Array UInt8} {start stop offset : Nat}
    (inside : start + offset + 4 ≤ stop) :
    u32 (bs.extract start stop) offset = u32 bs (start + offset) :=
  unsignedAt_extract inside

theorem u64_extract {bs : Array UInt8} {start stop offset : Nat}
    (inside : start + offset + 8 ≤ stop) :
    u64 (bs.extract start stop) offset = u64 bs (start + offset) :=
  unsignedAt_extract inside

end Record

def Region.record (α : Type) [Record α] (r : Region) (offset : Int) :
    Except Fault (Placed α) :=
  (r.read offset (Record.size α)).map fun bs =>
    { value := Record.decode bs, offset := r.base + offset }

theorem Record.word_of_record {α : Type} [Record α] {r : Region} {o : Nat} (word : α → Nat)
    (place : Nat) (decoded : ∀ bs, word (Record.decode bs) = u32 bs place)
    (large : place + 4 ≤ Record.size α) {c : Placed α} (read : r.record α o = .ok c) :
    word c.value = u32 r.bytes (o + place) := by
  cases held : r.read o (Record.size α) with
  | error e => simp [Region.record, held, Except.map] at read
  | ok bs =>
    simp only [Region.record, held, Except.map, Except.ok.injEq] at read
    rw [Region.read_eq_ok_iff] at held
    rw [← read, decoded, held.2]
    exact u32_extract (by omega)

def Placed.dump {α : Type} [Record α] (p : Placed α) : Dump where
  label := Record.label α
  size := Record.size α
  offset := p.offset
  fields := Record.fields p.value

def FieldValue.text : FieldValue → String
  | .number n => toString n
  | .chars bs => Quoted.bytes bs
  | .raw bs => Hex.bytes bs
  | .group _ => "..."

def Dump.text (d : Dump) : String :=
  let fields := d.fields.map (fun (name, value) => (name, value.text)) ++
    [("sizeof", toString d.size), ("binary_offset", toString d.offset)]
  let shown := "\t".intercalate (fields.map fun (name, value) => s!"{name}: {value}")
  s!"{d.label} ({shown})"

structure Layout where
  label : String
  size : Nat
  fields : Array UInt8 → List (String × FieldValue)

def Layout.of (α : Type) [Record α] : Layout where
  label := Record.label α
  size := Record.size α
  fields bs := Record.fields (Record.decode bs : α)

def Region.dump (l : Layout) (r : Region) (offset : Int) : Except Fault Dump :=
  (r.read offset l.size).map fun bs =>
    { label := l.label, size := l.size, offset := r.base + offset, fields := l.fields bs }

end MachImage

import MachImage.Attempt
import MachImage.Cursor
import MachImage.Record.Basic
/-!
The same bytes, further on in a file. A region that begins `o` bytes later answers every read in the
same way, save for what is counted from where the outermost region begins: the offset that a record
was read from, and the place of some faults. Other numbers count from the region itself.
-/
namespace MachImage

/-- These faults tell a place in the file; the others tell one in a region, or none. -/
def Fault.shift (o : Nat) : Fault → Fault
  | .unterminated offset => .unterminated (offset + o)
  | .opcode byte offset => .opcode byte (offset + o)
  | .trieNode offset => .trieNode (offset + o)
  | .exportInfo offset => .exportInfo (offset + o)
  | e => e

/-- An outcome where everything is `o` bytes later, and what was read is moved in its own way. -/
def shifted {α β : Type} (o : Nat) (move : α → β) : Except Fault α → Except Fault β
  | .ok a => .ok (move a)
  | .error e => .error (e.shift o)

section
variable {α β γ δ : Type} {o : Nat} {move : α → γ} {after : β → δ} {x : Except Fault α}
  {y : Except Fault γ}

theorem shifted_bind {f : α → Except Fault β} {g : γ → Except Fault δ}
    (first : y = shifted o move x) (next : ∀ a, g (move a) = shifted o after (f a)) :
    (y >>= g) = shifted o after (x >>= f) := by
  cases x with
  | error e =>
    rw [first]
    rfl
  | ok a =>
    rw [first]
    exact next a

theorem shifted_map {f : α → β} {g : γ → δ} (first : y = shifted o move x)
    (next : ∀ a, g (move a) = after (f a)) : y.map g = shifted o after (x.map f) := by
  cases x with
  | error e =>
    rw [first]
    rfl
  | ok a =>
    rw [first]
    exact congrArg Except.ok (next a)

theorem toOption_shifted (move : α → γ) (x : Except Fault α) :
    (shifted o move x).toOption = x.toOption.map move := by
  cases x with
  | error e => rfl
  | ok a => rfl

theorem isExpected_shift (o : Nat) (e : Fault) : (e.shift o).isExpected = e.isExpected := by
  cases e <;> rfl

theorem attempt_shifted (move : α → γ) (x : Except Fault α) :
    attempt (shifted o move x) = shifted o (Option.map move) (attempt x) := by
  cases x with
  | ok a => rfl
  | error e =>
    rw [shifted, attempt, isExpected_shift, attempt]
    cases e.isExpected with
    | true => rfl
    | false => rfl

theorem mapM_shifted {places : List α} {f : α → Except Fault β} {g : α → Except Fault δ}
    (each : ∀ a, g a = shifted o after (f a)) :
    places.mapM g = shifted o (List.map after) (places.mapM f) := by
  induction places with
  | nil => rfl
  | cons a places ih =>
    rw [List.mapM_cons, List.mapM_cons]
    apply shifted_bind (each a)
    intro b
    exact shifted_bind ih fun bs => rfl

end

section
variable {α β : Type} {o : Nat} {x : Except Fault α}

theorem toOption_fixed (x : Except Fault α) : (shifted o id x).toOption = x.toOption := by
  rw [toOption_shifted, Option.map_id_fun, id]

theorem attempt_fixed (x : Except Fault α) :
    attempt (shifted o id x) = shifted o id (attempt x) := by
  rw [attempt_shifted, Option.map_id_fun]

theorem report_fixed (x : Except Fault α) :
    report (shifted o id x) = shifted o (shifted o id) (report x) := by
  cases x with
  | ok a => rfl
  | error e =>
    simp only [shifted, report, isExpected_shift]
    split <;> rfl

theorem mapM_fixed {places : List α} {f g : α → Except Fault β}
    (each : ∀ a, g a = shifted o id (f a)) :
    places.mapM g = shifted o id (places.mapM f) := by
  rw [mapM_shifted each, List.map_id_fun]

theorem gather_fixed {places : List α} {f g : α → Except Fault (Option β)}
    (each : ∀ a, g a = shifted o id (f a)) :
    gather g places = shifted o id (gather f places) := by
  unfold gather
  induction places with
  | nil => rfl
  | cons a places ih =>
    rw [List.filterMapM_cons, List.filterMapM_cons, each, ih]
    simp only [bind_assoc, pure_bind]
    apply shifted_bind (attempt_fixed (f a))
    intro found
    change (match found.join with | none => _ | some b => _) = _
    cases found.join with
    | none => rfl
    | some b => exact shifted_bind rfl fun bs => rfl

end

namespace Region

def shift (o : Nat) (r : Region) : Region := { r with base := r.base + o }

section
variable (o : Nat) (r : Region) (offset size : Int)

theorem read_shift : (r.shift o).read offset size = shifted o id (r.read offset size) := by
  unfold read
  change (if r.contains offset size then _ else _) = _
  split <;> rfl

theorem word_shift (type : WordType) :
    (r.shift o).word offset type = shifted o id (r.word offset type) :=
  shifted_map (r.read_shift o offset type.size) fun _ => rfl

theorem byte_shift : (r.shift o).byte offset = shifted o id (r.byte offset) :=
  shifted_map (r.read_shift o offset 1) fun _ => rfl

theorem slice_shift :
    (r.shift o).slice offset size = shifted o (shift o) (r.slice offset size) := by
  apply shifted_map (r.read_shift o offset size)
  intro bs
  have base : r.base + o + offset = r.base + offset + o := by omega
  simp only [shift, base, id]

theorem cstringBytes_shift :
    (r.shift o).cstringBytes offset = shifted o id (r.cstringBytes offset) := by
  have base : r.base + o + offset = r.base + offset + o := by omega
  have contains : (r.shift o).contains offset 1 = r.contains offset 1 := rfl
  have bytes : (r.shift o).bytes = r.bytes := rfl
  unfold cstringBytes
  rw [contains, bytes]
  split
  · cases terminator? r.bytes offset.toNat 16 with
    | some stop => rfl
    | none => exact congrArg (fun p => Except.error (Fault.unterminated p)) base
  · rfl

theorem cstring_shift : (r.shift o).cstring offset = shifted o id (r.cstring offset) :=
  shifted_map (r.cstringBytes_shift o offset) fun _ => rfl

end
end Region

def Placed.shift {α : Type} (o : Nat) (p : Placed α) : Placed α := { p with offset := p.offset + o }

def Dump.shift (o : Nat) (d : Dump) : Dump := { d with offset := d.offset + o }

section
variable (α : Type) [Record α] (o : Nat) (r : Region)

theorem Region.record_shift (offset : Int) :
    (r.shift o).record α offset = shifted o (Placed.shift o) (r.record α offset) := by
  apply shifted_map (r.read_shift o offset (Record.size α))
  intro bs
  have base : r.base + o + offset = r.base + offset + o := by omega
  simp only [Placed.shift, shift, base, id]

theorem Region.dump_shift (l : Layout) (offset : Int) :
    (r.shift o).dump l offset = shifted o (Dump.shift o) (r.dump l offset) := by
  apply shifted_map (r.read_shift o offset l.size)
  intro bs
  have base : r.base + o + offset = r.base + offset + o := by omega
  simp only [Dump.shift, shift, base, id]

end

namespace Cursor

def shift (o : Nat) (c : Cursor) : Cursor := { c with region := c.region.shift o }

/-- A value that was read, and the cursor behind it. -/
def Behind (o : Nat) {α : Type} (p : α × Cursor) : α × Cursor := (p.1, p.2.shift o)

section
variable {α β : Type} (o : Nat) (c : Cursor)

theorem byte_shift : (c.shift o).byte = shifted o (Behind o) c.byte :=
  shifted_map (c.region.byte_shift o c.offset) fun _ => rfl

theorem unsigned_shift : (c.shift o).unsigned = shifted o (Behind o) c.unsigned := by
  have read : Leb.readUnsigned (c.region.shift o) c.offset =
      shifted o id (Leb.readUnsigned c.region c.offset) := by
    have window : Leb.window (c.region.shift o) c.offset = Leb.window c.region c.offset := rfl
    unfold Leb.readUnsigned
    rw [window]
    cases Leb.unsigned 0 (Leb.window c.region c.offset) with
    | none => rfl
    | some found => rfl
  exact shifted_map read fun _ => rfl

theorem signed_shift : (c.shift o).signed = shifted o (Behind o) c.signed := by
  have read : Leb.readSigned (c.region.shift o) c.offset =
      shifted o id (Leb.readSigned c.region c.offset) := by
    have window : Leb.window (c.region.shift o) c.offset = Leb.window c.region c.offset := rfl
    unfold Leb.readSigned
    rw [window]
    cases Leb.signed 0 0 (Leb.window c.region c.offset) with
    | none => rfl
    | some found => rfl
  exact shifted_map read fun _ => rfl

theorem cstringBytes_shift : (c.shift o).cstringBytes = shifted o (Behind o) c.cstringBytes :=
  shifted_map (c.region.cstringBytes_shift o c.offset) fun _ => rfl

theorem as_shifted {x y : Read α} (first : y = shifted o (Behind o) x) (f : α → β) :
    y.as f = shifted o (Behind o) (x.as f) :=
  shifted_map first fun _ => rfl

theorem andThen_shifted {x y : Read α} {f g : α → Cursor → Read β}
    (first : y = shifted o (Behind o) x)
    (next : ∀ a d, g a (d.shift o) = shifted o (Behind o) (f a d)) :
    y.andThen g = shifted o (Behind o) (x.andThen f) := by
  rw [first]
  cases x with
  | error e => rfl
  | ok p => exact next p.1 p.2

theorem cstring_shift : (c.shift o).cstring = shifted o (Behind o) c.cstring :=
  as_shifted o (cstringBytes_shift o c) Utf8.decode

end
end Cursor

end MachImage

import MachImage.Leb
/-!
A cursor is a place in a region. A read answers with the value and the cursor behind it, so a read
that fails moves nothing. `left` is what a reader loop counts down: a read that succeeds leaves
the cursor past where it was, with less left.
-/
namespace MachImage

structure Cursor where
  region : Region
  offset : Int := 0

namespace Cursor

abbrev Read (α : Type) := Except Fault (α × Cursor)

def Read.as {α β : Type} (x : Read α) (f : α → β) : Read β := x.map fun p => (f p.1, p.2)

def Read.andThen {α β : Type} (x : Read α) (f : α → Cursor → Read β) : Read β :=
  match x with
  | .ok (a, next) => f a next
  | .error e => .error e

def left (c : Cursor) : Nat := (c.region.size - c.offset).toNat

def atEnd (c : Cursor) : Bool := c.region.size ≤ c.offset

def peek (c : Cursor) : Except Fault UInt8 := c.region.byte c.offset

def byte (c : Cursor) : Read UInt8 :=
  c.peek.map fun b => (b, { c with offset := c.offset + 1 })

def unsigned (c : Cursor) : Read Nat :=
  (Leb.readUnsigned c.region c.offset).map fun p => (p.1, { c with offset := p.2 })

def signed (c : Cursor) : Read Int :=
  (Leb.readSigned c.region c.offset).map fun p => (p.1, { c with offset := p.2 })

def cstringBytes (c : Cursor) : Read (List UInt8) :=
  (c.region.cstringBytes c.offset).map fun bs =>
    (bs, { c with offset := c.offset + bs.length + 1 })

def cstring (c : Cursor) : Read String := c.cstringBytes.as Utf8.decode

def text (c : Cursor) : String :=
  s!"<OpcodeStream offset={Hex.number c.offset} size={Hex.number c.region.size}>"

def Past (c d : Cursor) : Prop := d.region = c.region ∧ c.offset < d.offset ∧ d.left < c.left

def Moves {α : Type} (c : Cursor) (x : Read α) : Prop := ∀ a d, x = .ok (a, d) → c.Past d

theorem past_of_lt {c : Cursor} {next : Int} (inside : c.offset < c.region.size)
    (forward : c.offset < next) : c.Past { c with offset := next } := by
  refine ⟨rfl, forward, ?_⟩
  simp only [left]
  omega

theorem Past.trans {a b c : Cursor} (h : a.Past b) (k : b.Past c) : a.Past c :=
  ⟨k.1.trans h.1, Int.lt_trans h.2.1 k.2.1, Nat.lt_trans k.2.2 h.2.2⟩

section
variable {α β : Type} {b c : Cursor}

theorem moves_ok {d : Cursor} {a : α} (h : c.Past d) : c.Moves (.ok (a, d)) := by
  intro a d e
  cases e
  exact h

theorem moves_error {e : Fault} : c.Moves (.error e : Read α) := by
  intro a d h
  cases h

theorem Moves.as {x : Read α} (h : c.Moves x) (f : α → β) : c.Moves (x.as f) := by
  intro a d e
  cases x with
  | error e => cases e
  | ok p =>
    cases e
    exact h p.1 p.2 rfl

theorem Moves.andThen {x : Read α} {f : α → Cursor → Read β} (h : c.Moves x)
    (k : ∀ a d, c.Past d → c.Moves (f a d)) : c.Moves (x.andThen f) := by
  intro a d e
  cases x with
  | error e => cases e
  | ok p => exact k p.1 p.2 (h p.1 p.2 rfl) a d e

theorem Moves.after {x : Read α} (h : c.Moves x) (first : b.Past c) : b.Moves x :=
  fun a d e => first.trans (h a d e)

end

theorem byte_moves (c : Cursor) : c.Moves c.byte := by
  intro b d h
  unfold byte peek Region.byte at h
  cases hr : c.region.read c.offset 1 with
  | error e => simp [hr, Except.map] at h
  | ok bs =>
    simp only [hr, Except.map, Except.ok.injEq, Prod.mk.injEq] at h
    obtain ⟨-, rfl⟩ := h
    have := (Region.contains_iff ..).1 (Region.read_eq_ok_iff.1 hr).1
    exact past_of_lt (by omega) (by omega)

theorem unsigned_moves (c : Cursor) : c.Moves c.unsigned := by
  intro n d h
  unfold unsigned at h
  cases hr : Leb.readUnsigned c.region c.offset with
  | error e => simp [hr, Except.map] at h
  | ok p =>
    simp only [hr, Except.map, Except.ok.injEq, Prod.mk.injEq] at h
    obtain ⟨-, rfl⟩ := h
    have := Leb.readUnsigned_moves hr
    exact past_of_lt (by omega) (by omega)

theorem signed_moves (c : Cursor) : c.Moves c.signed := by
  intro n d h
  unfold signed at h
  cases hr : Leb.readSigned c.region c.offset with
  | error e => simp [hr, Except.map] at h
  | ok p =>
    simp only [hr, Except.map, Except.ok.injEq, Prod.mk.injEq] at h
    obtain ⟨-, rfl⟩ := h
    have := Leb.readSigned_moves hr
    exact past_of_lt (by omega) (by omega)

theorem cstringBytes_moves (c : Cursor) : c.Moves c.cstringBytes := by
  intro bs d h
  unfold cstringBytes at h
  cases hr : c.region.cstringBytes c.offset with
  | error e => simp [hr, Except.map] at h
  | ok raw =>
    simp only [hr, Except.map, Except.ok.injEq, Prod.mk.injEq] at h
    obtain ⟨-, rfl⟩ := h
    have inside : c.region.contains c.offset 1 = true := by
      unfold Region.cstringBytes at hr
      split at hr
      · assumption
      · simp at hr
    rw [Region.contains_iff] at inside
    exact past_of_lt (by omega) (by omega)

end Cursor
end MachImage

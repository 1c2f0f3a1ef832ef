import MachImage.Image.FunctionStarts
import MachImage.LinkInfo.Basic
import MachImage.Proofs.LinkInfo.ExportWalk
import MachImage.Proofs.Shift.Views
/-!
The streams of an image further on in its file. A stream is cut out of the slice and read on its
own, so its records are the same, and a fault of it moves along if it tells a place in the file.
-/
namespace MachImage

theorem startsFrom_shift (o : Nat) (c : Cursor) (address : Nat) :
    startsFrom (c.shift o) address = shifted o id (startsFrom c address) := by
  induction h : c.left using Nat.strongRecOn generalizing c address with
  | ind n ih =>
    rw [startsFrom_eq, startsFrom_eq, Cursor.unsigned_shift]
    change (if c.atEnd then _ else _) = _
    split
    · rfl
    · cases read : c.unsigned with
      | error e => rfl
      | ok p =>
        obtain ⟨distance, next⟩ := p
        have fewer := (c.unsigned_moves distance next read).2.2
        have later := ih _ (h ▸ fewer) next (address + distance) rfl
        change (if distance = 0 then _ else _) = shifted o id (if distance = 0 then _ else _)
        split
        · rfl
        · exact shifted_map later fun starts => rfl

theorem opcode_shift {α : Type} (o : Nat) (c : Cursor) (b : UInt8) (move : α → α) :
    .error (.opcode b ((c.shift o).region.base + (c.shift o).offset)) =
      shifted o move (.error (.opcode b (c.region.base + c.offset))) := by
  have place : c.region.base + o + c.offset = c.region.base + c.offset + o := by omega
  exact congrArg (fun p => Except.error (Fault.opcode b p)) place

namespace Rebase

section
variable (o : Nat) (c : Cursor)

theorem rest_shift (b : UInt8) (next : Cursor) :
    Instruction.rest (c.shift o) b (next.shift o) =
      shifted o (Cursor.Behind o) (Instruction.rest c b next) := by
  unfold Instruction.rest
  generalize b.toNat / 16 = high
  match high with
  | 0x0 | 0x1 | 0x4 | 0x5 => rfl
  | 0x2 | 0x3 | 0x6 | 0x7 => exact Cursor.as_shifted o (next.unsigned_shift o) _
  | 0x8 =>
    apply Cursor.andThen_shifted o (next.unsigned_shift o)
    intro count next
    exact Cursor.as_shifted o (next.unsigned_shift o) _
  | unknown + 9 => exact opcode_shift o c b _

theorem read_shift :
    Instruction.read (c.shift o) = shifted o (Cursor.Behind o) (Instruction.read c) :=
  Cursor.andThen_shifted o (c.byte_shift o) fun b next => rest_shift o c b next

theorem step_fixed (limit : Nat) (s : State) (x : Instruction) :
    s.step limit x = shifted o id (s.step limit x) := by
  have commit (count stride : Nat) :
      s.commit limit count stride = shifted o id (s.commit limit count stride) := by
    unfold State.commit
    split <;> rfl
  cases x with
  | done | setKind | setSegment | skip | skipSlots => rfl
  | fewTimes | times | onceAndSkip | timesSkipping => exact commit _ _

theorem run_shift (limit : Nat) (s : State) :
    run limit s (c.shift o) = shifted o id (run limit s c) := by
  induction h : c.left using Nat.strongRecOn generalizing c s with
  | ind n ih =>
    rw [run_eq, run_eq, read_shift]
    change (if c.atEnd then _ else _) = _
    split
    · rfl
    · cases read : Instruction.read c with
      | error e => rfl
      | ok p =>
        obtain ⟨x, next⟩ := p
        have fewer := (Instruction.read_moves c x next read).2.2
        change (if x = .done then _ else _) = shifted o id (if x = .done then _ else _)
        split
        · rfl
        · apply shifted_bind (step_fixed o limit s x)
          intro t
          exact ih _ (h ▸ fewer) next t rfl

end

theorem ofStream_shift (o limit : Nat) (r : Region) :
    ofStream limit (r.shift o) = shifted o id (ofStream limit r) :=
  shifted_map (run_shift o { region := r } limit {}) fun _ => rfl

end Rebase

namespace Binding

section
variable (o : Nat) (c : Cursor)

theorem rest_shift (b : UInt8) (next : Cursor) :
    Instruction.rest (c.shift o) b (next.shift o) =
      shifted o (Cursor.Behind o) (Instruction.rest c b next) := by
  unfold Instruction.rest
  generalize b.toNat / 16 = high
  match high with
  | 0x0 | 0x1 | 0x3 | 0x5 | 0x9 | 0xB => rfl
  | 0x2 | 0x7 | 0x8 | 0xA => exact Cursor.as_shifted o (next.unsigned_shift o) _
  | 0x4 => exact Cursor.as_shifted o (next.cstringBytes_shift o) _
  | 0x6 => exact Cursor.as_shifted o (next.signed_shift o) _
  | 0xC =>
    apply Cursor.andThen_shifted o (next.unsigned_shift o)
    intro count next
    exact Cursor.as_shifted o (next.unsigned_shift o) _
  | 0xD =>
    change (if b.toNat % 16 = 0 then _ else if b.toNat % 16 = 1 then _ else _) =
      shifted o _ (if b.toNat % 16 = 0 then _ else if b.toNat % 16 = 1 then _ else _)
    split
    · exact Cursor.as_shifted o (next.unsigned_shift o) _
    · split
      · rfl
      · exact opcode_shift o c b _
  | unknown + 14 => exact opcode_shift o c b _

theorem read_shift :
    Instruction.read (c.shift o) = shifted o (Cursor.Behind o) (Instruction.read c) :=
  Cursor.andThen_shifted o (c.byte_shift o) fun b next => rest_shift o c b next

theorem step_fixed (limit : Nat) (s : State) (x : Instruction) :
    s.step limit x = shifted o id (s.step limit x) := by
  have commit (count stride : Nat) :
      s.commit limit count stride = shifted o id (s.commit limit count stride) := by
    unfold State.commit
    split <;> rfl
  cases x with
  | once | onceAndSkip | onceAndSkipSlots | timesSkipping => exact commit _ _
  | done | setOrdinal | setLongOrdinal | setSpecial | setSymbol | setKind | setAddend | setSegment
  | skip | threadedTable | threadedApply => rfl

theorem run_shift (limit : Nat) (isLazy : Bool) (s : State) :
    run limit isLazy s (c.shift o) = shifted o id (run limit isLazy s c) := by
  induction h : c.left using Nat.strongRecOn generalizing c s with
  | ind n ih =>
    rw [run_eq, run_eq, read_shift]
    change (if c.atEnd then _ else _) = _
    split
    · rfl
    · cases read : Instruction.read c with
      | error e => rfl
      | ok p =>
        obtain ⟨x, next⟩ := p
        have fewer := (Instruction.read_moves c x next read).2.2
        change (if x = .done ∧ isLazy = false then _ else _) =
          shifted o id (if x = .done ∧ isLazy = false then _ else _)
        split
        · rfl
        · apply shifted_bind (step_fixed o limit s x)
          intro t
          exact ih _ (h ▸ fewer) next t rfl

end

theorem ofStream_shift (o limit : Nat) (isLazy : Bool) (r : Region) :
    ofStream limit isLazy (r.shift o) = shifted o id (ofStream limit isLazy r) :=
  shifted_map (run_shift o { region := r } limit isLazy {}) fun _ => rfl

end Binding

namespace Export

section
variable (o : Nat) (r : Region) (name : String)

theorem exportOf_shift : read (r.shift o) name = shifted o id (read r name) := by
  apply shifted_bind (Cursor.unsigned_shift o { region := r })
  intro p
  obtain ⟨flags, c⟩ := p
  apply shifted_bind (Cursor.unsigned_shift o c)
  intro p
  obtain ⟨first, c⟩ := p
  dsimp only [Cursor.Behind]
  split
  · change (if c.atEnd = true then _ else _) = shifted o id (if c.atEnd = true then _ else _)
    split
    · rfl
    · have text : (c.shift o).cstring.map (·.1) = shifted o id (c.cstring.map (·.1)) :=
        shifted_map (c.cstring_shift o) fun _ => rfl
      exact shifted_bind text fun importName => rfl
  · change (if (isResolverFlag flags && !c.atEnd) = true then _ else _) =
      shifted o id (if (isResolverFlag flags && !c.atEnd) = true then _ else _)
    split
    · exact shifted_bind (c.unsigned_shift o) fun resolver => rfl
    · rfl

theorem edges_shift (count : Nat) (c : Cursor) :
    edges name count (c.shift o) = edges name count c := by
  induction count generalizing c with
  | zero => rfl
  | succ count ih =>
    rw [edges, Cursor.cstring_shift, edges]
    cases c.cstring with
    | error e => rfl
    | ok p =>
      dsimp only [shifted, Cursor.Behind]
      rw [Cursor.unsigned_shift]
      cases p.2.unsigned with
      | error e => rfl
      | ok q => exact congrArg _ (ih q.2)

theorem readNode_shift (offset : Nat) :
    readNode (r.shift o) offset name = shifted o id (readNode r offset name) := by
  apply shifted_bind (Cursor.unsigned_shift o { region := r, offset })
  intro p
  obtain ⟨size, c⟩ := p
  have terminal : ((r.shift o).slice c.offset size >>= fun info => read info name).toOption =
      (r.slice c.offset size >>= fun info => read info name).toOption := by
    rw [← toOption_fixed (r.slice c.offset size >>= fun info => read info name)]
    exact congrArg _ (shifted_bind (r.slice_shift o _ _) fun info => exportOf_shift o info name)
  have count : Cursor.byte { region := r.shift o, offset := c.offset + size } =
      shifted o (Cursor.Behind o) (Cursor.byte { region := r, offset := c.offset + size }) :=
    Cursor.byte_shift o { region := r, offset := c.offset + size }
  dsimp only [Cursor.Behind]
  change (if r.size < c.offset + size then _ else _) =
    shifted o id (if r.size < c.offset + size then _ else _)
  split
  · have place : r.base + o + offset = r.base + offset + o := by omega
    exact congrArg (fun p => Except.error (Fault.exportInfo p)) place
  · rw [show (Cursor.shift o c).offset = c.offset from rfl, terminal, count]
    cases Cursor.byte { region := r, offset := c.offset + size } with
    | error e => rfl
    | ok p =>
      have edges := edges_shift o name p.1.toNat p.2
      dsimp only [shifted, Cursor.Behind]
      rw [edges]
      rfl

theorem walk_shift (seen : Std.TreeSet Nat) (todo : List (Nat × String)) :
    ∀ found, walk (r.shift o) seen found todo = shifted o id (walk r seen found todo) := by
  induction seen, todo using walk_induction r with
  | done seen =>
    intro found
    rw [walk_nil, walk_nil]
    rfl
  | enter seen offset name rest reachable ih =>
    intro found
    have reachable' : offset < (r.shift o).size ∧ offset ∉ seen := reachable
    cases read : readNode r offset name with
    | ok node =>
      have read' : readNode (r.shift o) offset name = .ok node := by
        rw [readNode_shift, read]
        rfl
      rw [walk_node reachable read, walk_node reachable' read']
      exact ih _ _
    | error e =>
      have read' : readNode (r.shift o) offset name = .error (e.shift o) := by
        rw [readNode_shift, read]
        rfl
      rw [walk_unreadable reachable read, walk_unreadable reachable' read']
      split
      · rfl
      · exact ih _ _
  | skip seen offset name rest unreachable ih =>
    intro found
    have unreachable' : ¬ (offset < (r.shift o).size ∧ offset ∉ seen) := unreachable
    have place : r.base + o + offset = r.base + offset + o := by omega
    rw [walk_skip unreachable, walk_skip unreachable']
    split
    · exact congrArg (fun p => Except.error (Fault.trieNode p)) place
    · exact ih found

theorem ofStream_shift : ofStream (r.shift o) = shifted o id (ofStream r) :=
  shifted_map (walk_shift o r ∅ [(0, "")] #[]) fun _ => rfl

end
end Export

namespace Image

section
variable (o : Nat) (i : Image)

theorem functionStarts_shift :
    (i.shift o).functionStarts = shifted o id i.functionStarts := by
  rw [functionStarts, functionStarts?_shift, functionStarts]
  cases i.functionStarts? with
  | none => rfl
  | some c =>
    dsimp only [Option.map, Placed.shift]
    rw [region_shift, Region.slice_shift, virtualBase_shift]
    cases i.region.slice c.value.dataOffset c.value.dataSize with
    | error e => rfl
    | ok r => exact startsFrom_shift o { region := r } i.virtualBase

theorem functions_shift : (i.shift o).functions = shifted o id i.functions := by
  rw [functions, functionStarts_shift, functionStarts?_shift, functions, Option.isNone_map]
  split
  · rfl
  · exact shifted_map rfl fun starts => rfl

theorem recordLimit_shift : (i.shift o).recordLimit = i.recordLimit := by
  rw [recordLimit, segments_shift, List.foldl_map]
  rfl

theorem stream_shift {α : Type} {read : Region → Except Fault (List α)}
    (each : ∀ r, read (r.shift o) = shifted o id (read r)) (name : String) (offset size : Nat) :
    (i.shift o).stream name offset size read = shifted o id (i.stream name offset size read) := by
  unfold stream
  split
  · rfl
  · rw [region_shift, Region.slice_shift]
    cases i.region.slice offset size with
    | error e => rfl
    | ok r => exact each r

theorem slotAddress_shift (segmentIndex segmentOffset : Nat) :
    (i.shift o).slotAddress segmentIndex segmentOffset =
      shifted o id (i.slotAddress segmentIndex segmentOffset) :=
  shifted_map (i.segmentAt_shift o segmentIndex) fun _ => rfl

theorem boundSymbol?_shift (b : Binding) : (i.shift o).boundSymbol? b = i.boundSymbol? b := by
  rw [boundSymbol?, slotAddress_shift, dylibNameAt_shift, boundSymbol?]
  cases i.slotAddress b.segmentIndex b.segmentOffset with
  | error e => rfl
  | ok address => rfl

theorem boundSymbols_shift (bs : List Binding) :
    (i.shift o).boundSymbols bs = i.boundSymbols bs := by
  unfold boundSymbols
  congr 2
  funext b
  exact boundSymbol?_shift o i b

end
end Image

def LinkInfo.shift (o : Nat) (l : LinkInfo) : LinkInfo where
  rebases := shifted o id l.rebases
  bindings := shifted o id l.bindings
  weakBindings := shifted o id l.weakBindings
  lazyBindings := shifted o id l.lazyBindings
  exports := shifted o id l.exports

theorem LinkInfo.ofImage_shift (o : Nat) (i : Image) :
    ofImage (i.shift o) = shifted o (shift o) (ofImage i) := by
  have each {α : Type} {read : Region → Except Fault (List α)}
      (moved : ∀ r, read (r.shift o) = shifted o id (read r)) (name : String) (offset size : Nat) :
      report ((i.shift o).stream name offset size read) =
        shifted o (shifted o id) (report (i.stream name offset size read)) := by
    rw [Image.stream_shift o i moved, report_fixed]
  apply shifted_bind (i.linkInfo_shift o)
  intro c
  unfold ofCommand
  rw [Image.recordLimit_shift]
  apply shifted_bind (each (Rebase.ofStream_shift o _) ..)
  intro rebases
  apply shifted_bind (each (Binding.ofStream_shift o _ _) ..)
  intro bindings
  apply shifted_bind (each (Binding.ofStream_shift o _ _) ..)
  intro weakBindings
  apply shifted_bind (each (Binding.ofStream_shift o _ _) ..)
  intro lazyBindings
  exact shifted_bind (each (Export.ofStream_shift o) ..) fun exports => rfl

end MachImage

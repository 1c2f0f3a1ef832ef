import MachImage.Proofs.Leb.Wrapping
import MachImage.Proofs.LinkInfo.BindingProgram
import MachImage.Proofs.LinkInfo.RebaseProgram
/-!
Streams of any bytes. What is read as an instruction has operands in the range of a written one, and
single steps keep the registers in range, so the records of a stream are in range whatever its bytes
are. The faults of a stream are few, and the one for a byte that begins no instruction names that
byte.
-/
namespace MachImage

inductive Ends {α : Type} (good : α → Prop) (allowed : Fault → Prop) : Except Fault α → Prop
  | ok {a : α} (holds : good a) : Ends good allowed (.ok a)
  | error {e : Fault} (known : allowed e) : Ends good allowed (.error e)

/-- What can be wrong with a stream. A byte that begins no instruction is the one at its place. -/
inductive StreamFault (r : Region) : Fault → Prop
  | unsignedLeb (offset : Int) : StreamFault r (.unsignedLeb offset)
  | signedLeb (offset : Int) : StreamFault r (.signedLeb offset)
  | unterminated (offset : Int) : StreamFault r (.unterminated offset)
  | outOfBounds (offset size : Int) (regionSize : Nat) :
      StreamFault r (.outOfBounds offset size regionSize)
  | corrupt (cause : CorruptFault) : StreamFault r (.corrupt cause)
  | opcode {k : Nat} {b : UInt8} (found : r.bytes[k]? = some b) :
      StreamFault r (.opcode b (r.base + k))

section
variable {α β : Type} {good : α → Prop} {after : β → Prop} {allowed : Fault → Prop}

theorem Ends.map {x : Except Fault α} {f : α → β} (h : Ends good allowed x)
    (next : ∀ a, good a → after (f a)) : Ends after allowed (x.map f) := by
  cases h with
  | ok holds => exact .ok (next _ holds)
  | error known => exact .error known

theorem Ends.mono {other : α → Prop} {x : Except Fault α} (h : Ends good allowed x)
    (weaker : ∀ a, good a → other a) : Ends other allowed x := by
  cases h with
  | ok holds => exact .ok (weaker _ holds)
  | error known => exact .error known

theorem Ends.bind {x : Except Fault α} {f : α → Except Fault β} (h : Ends good allowed x)
    (next : ∀ a, good a → Ends after allowed (f a)) : Ends after allowed (x >>= f) := by
  cases h with
  | ok holds => exact next _ holds
  | error known => exact .error known

section
variable {good : α × Cursor → Prop} {after : β × Cursor → Prop} {x : Cursor.Read α}

theorem Ends.as {f : α → β} (h : Ends good allowed x)
    (next : ∀ a d, good (a, d) → after (f a, d)) : Ends after allowed (x.as f) :=
  h.map fun p holds => next p.1 p.2 holds

theorem Ends.andThen {f : α → Cursor → Cursor.Read β} (h : Ends good allowed x)
    (next : ∀ a d, good (a, d) → Ends after allowed (f a d)) :
    Ends after allowed (x.andThen f) := by
  cases h with
  | ok holds => exact next _ _ holds
  | error known => exact .error known

end
end

namespace Cursor
variable (r : Region) (c : Cursor)

theorem byte_ends : Ends (fun p => 0 ≤ c.offset ∧ c.region.bytes[c.offset.toNat]? = some p.1)
    (StreamFault r) c.byte := by
  rw [byte, peek, Region.byte, Region.read]
  split
  next inside =>
    rw [Region.contains_iff, Region.size] at inside
    have next : (c.offset + 1).toNat = c.offset.toNat + 1 := by omega
    have here : c.offset.toNat < c.region.bytes.size := by omega
    refine .ok ⟨inside.1, ?_⟩
    simp [next, here]
  next => exact .error (.outOfBounds _ _ _)

theorem unsigned_ends : Ends (fun p => p.1 < 0x10000000000000000) (StreamFault r) c.unsigned := by
  rw [unsigned]
  cases read : Leb.readUnsigned c.region c.offset with
  | ok p =>
    obtain ⟨run, -, -, -, -, fits⟩ := Leb.readUnsigned_eq_ok_iff.1 read
    exact .ok fits
  | error e =>
    rw [Leb.readUnsigned_fault read]
    exact .error (.unsignedLeb _)

theorem signed_ends : Ends (fun p => -0x8000000000000000 ≤ p.1 ∧ p.1 < 0x8000000000000000)
    (StreamFault r) c.signed := by
  rw [signed]
  cases read : Leb.readSigned c.region c.offset with
  | ok p =>
    obtain ⟨run, -, whole, short, value⟩ := Leb.readSigned_eq_ok_iff.1 read
    have kept := Leb.signedValue_eq whole short
    rw [← value] at kept
    refine .ok ((Leb.bmod_eq_iff p.1).1 ?_)
    rw [kept, Int.bmod_bmod]
  | error e =>
    rw [Leb.readSigned_fault read]
    exact .error (.signedLeb _)

theorem cstringBytes_ends : Ends (fun p => 0 ∉ p.1) (StreamFault r) c.cstringBytes := by
  rw [cstringBytes, Region.cstringBytes_eq, Region.stringFrom]
  dsimp only
  split
  · exact .error (.outOfBounds _ _ _)
  · split
    · refine .ok fun nul => ?_
      simpa using List.all_eq_true.1 List.all_takeWhile 0 nul
    · exact .error (.unterminated _)

end Cursor

theorem unknown_opcode {c : Cursor} {b : UInt8}
    (found : 0 ≤ c.offset ∧ c.region.bytes[c.offset.toNat]? = some b) :
    StreamFault c.region (.opcode b (c.region.base + c.offset)) := by
  have place : c.offset = (c.offset.toNat : Int) := (Int.toNat_of_nonneg found.1).symm
  rw [place]
  exact .opcode found.2

theorem low_lt (b : UInt8) : b.toNat % 16 < 16 := Nat.mod_lt _ (by decide)

def Micro.Keeps {α : Type} [Registers α] (P : α → Prop) : Micro α → Prop
  | .set change => ∀ a, P a → P (change a)
  | .emit stride => ∀ a, P a → P (Registers.advance stride a)

section
variable {α σ : Type} [Registers α] {P : α → Prop} {a : α} {ms : List (Micro α)}

theorem keeps_one {m : Micro α} (keeps : m.Keeps P) : ∀ n ∈ [m], n.Keeps P := by
  simpa using keeps

theorem keeps_replicate {m : Micro α} (count : Nat) (keeps : m.Keeps P) :
    ∀ n ∈ List.replicate count m, n.Keeps P := by
  intro n member
  rw [List.eq_of_mem_replicate member]
  exact keeps

theorem keeps_settled (keeps : ∀ m ∈ ms, m.Keeps P) (start : P a) : P (settled a ms) := by
  induction ms generalizing a with
  | nil => exact start
  | cons m ms ih =>
    obtain ⟨first, later⟩ := List.forall_mem_cons.1 keeps
    cases m with
    | set change => exact ih later (first a start)
    | emit stride => exact ih later (first a start)

theorem keeps_emitted (keeps : ∀ m ∈ ms, m.Keeps P) (start : P a) : ∀ b ∈ emitted a ms, P b := by
  induction ms generalizing a with
  | nil => simp [emitted]
  | cons m ms ih =>
    obtain ⟨first, later⟩ := List.forall_mem_cons.1 keeps
    cases m with
    | set change => exact ih later (first a start)
    | emit stride =>
      intro b member
      rcases List.mem_cons.1 member with rfl | behind
      · exact start
      · exact ih later (first _ start) b behind

/-- Registers and records of which `P` holds, and no more records than the limit. -/
structure Kept (limit : Nat) (P : α → Prop) (v : α × List α) : Prop where
  registers : P v.1
  records : ∀ b ∈ v.2, P b
  room : v.2.length ≤ limit

theorem Capped.kept {limit : Nat} {view : σ → α × List α} {s : σ} {x : Except Fault σ} (r : Region)
    (capped : Capped limit view s ms x) (keeps : ∀ m ∈ ms, m.Keeps P)
    (kept : Kept limit P (view s)) :
    Ends (fun t => Kept limit P (view t)) (StreamFault r) x := by
  by_cases room : (view s).2.length + (emitted (view s).1 ms).length ≤ limit
  · obtain ⟨t, rfl, same⟩ := capped.within room
    apply Ends.ok
    rw [same]
    constructor
    · exact keeps_settled keeps kept.registers
    · intro b member
      rcases List.mem_append.1 member with old | new
      · exact kept.records b old
      · exact keeps_emitted keeps kept.registers b new
    · rwa [List.length_append]
  · obtain ⟨c, rfl⟩ := capped.beyond kept.room (Nat.lt_of_not_le room)
    exact .error (.corrupt c)

end

/-- A run over any bytes: it is over at their end or at an instruction that ends it, and otherwise
takes the step of the next instruction. -/
structure Runs {ι σ ρ : Type} (read : Cursor → Cursor.Read ι) (last : ι → Prop) [DecidablePred last]
    (step : σ → ι → Except Fault σ) (result : σ → ρ) (run : σ → Cursor → Except Fault ρ) :
    Prop where
  moves : ∀ c : Cursor, c.Moves (read c)
  unfolds : ∀ s c, run s c =
    if c.atEnd then .ok (result s)
    else match read c with
      | .error e => .error e
      | .ok (x, next) => if last x then .ok (result s) else step s x >>= fun t => run t next

/-- What every step keeps from the registers of any instruction that can be read, a whole run
keeps. -/
theorem Runs.ends {ι σ ρ : Type} {read : Cursor → Cursor.Read ι} {last : ι → Prop}
    [DecidablePred last] {step : σ → ι → Except Fault σ} {result : σ → ρ}
    {run : σ → Cursor → Except Fault ρ} (runs : Runs read last step result run)
    {fits : ι → Prop} {kept : σ → Prop}
    (reads : ∀ c, Ends (fun p => fits p.1) (StreamFault c.region) (read c))
    (steps : ∀ r s x, fits x → kept s → Ends kept (StreamFault r) (step s x))
    (s : σ) (c : Cursor) (start : kept s) :
    Ends (fun out => ∃ t, kept t ∧ out = result t) (StreamFault c.region) (run s c) := by
  induction h : c.left using Nat.strongRecOn generalizing c s with
  | ind n ih =>
    rw [runs.unfolds]
    split
    · exact .ok ⟨s, start, rfl⟩
    · have known := reads c
      cases found : read c with
      | error e =>
        rw [found] at known
        cases known with
        | error known => exact .error known
      | ok p =>
        obtain ⟨x, next⟩ := p
        rw [found] at known
        obtain ⟨same, -, fewer⟩ := runs.moves c x next found
        dsimp only
        split
        · exact .ok ⟨s, start, rfl⟩
        · cases known with
          | ok operands =>
            apply (steps c.region s x operands start).bind
            intro t kept
            rw [← same]
            exact ih _ (h ▸ fewer) t next kept rfl

theorem Runs.kept {α ι σ : Type} [Registers α] {limit : Nat} {view : σ → α × List α} {P : α → Prop}
    {read : Cursor → Cursor.Read ι} {last : ι → Prop} [DecidablePred last]
    {step : σ → ι → Except Fault σ} {result : σ → Array α}
    {run : σ → Cursor → Except Fault (Array α)}
    (runs : Runs read last step result run) (shows : ∀ s, (result s).toList = (view s).2)
    {fits : ι → Prop} {expand : ι → List (Micro α)}
    (reads : ∀ c, Ends (fun p => fits p.1) (StreamFault c.region) (read c))
    (capped : ∀ s x, Capped limit view s (expand x) (step s x))
    (keeps : ∀ x, fits x → ∀ m ∈ expand x, m.Keeps P)
    {s : σ} (c : Cursor) (start : Kept limit P (view s)) :
    Ends (fun rs => (∀ x ∈ rs, P x) ∧ rs.length ≤ limit) (StreamFault c.region)
      ((run s c).map (·.toList)) := by
  have steps (r : Region) (s : σ) (x : ι) (operands : fits x) (kept : Kept limit P (view s)) :
      Ends (fun t => Kept limit P (view t)) (StreamFault r) (step s x) :=
    (capped s x).kept r (keeps x operands) kept
  apply (runs.ends reads steps s c start).map
  rintro _ ⟨t, kept, rfl⟩
  rw [shows]
  exact ⟨kept.records, kept.room⟩

namespace Rebase

theorem run_runs (limit : Nat) :
    Runs Instruction.read (· = .done) (State.step limit) (·.records) (run limit) where
  moves := Instruction.read_moves
  unfolds s c := by
    rw [run_eq]
    cases Instruction.read c <;> rfl

theorem read_ends (c : Cursor) :
    Ends (fun p => p.1.Fits) (StreamFault c.region) (Instruction.read c) := by
  apply (c.byte_ends c.region).andThen
  intro b next found
  have operand := next.unsigned_ends c.region
  have low := low_lt b
  simp only [Instruction.rest]
  split
  · exact .ok trivial
  · exact .ok low
  · exact operand.as fun _ _ fits => ⟨low, fits⟩
  · exact operand.as fun _ _ fits => fits
  · exact .ok low
  · exact .ok low
  · exact operand.as fun _ _ fits => fits
  · exact operand.as fun _ _ fits => fits
  · exact operand.andThen fun count after fits =>
      (after.unsigned_ends c.region).as fun _ _ distance => ⟨fits, distance⟩
  · exact .error (unknown_opcode found)

structure InRange (r : Rebase) : Prop where
  segment : r.segmentIndex < 16
  offset : r.segmentOffset < 0x10000000000000000
  kind : r.kind < 16

theorem start_inRange : start.InRange := ⟨by decide, by decide, by decide⟩

theorem InRange.advance {r : Rebase} (h : r.InRange) (n : Nat) :
    (Registers.advance n r).InRange :=
  ⟨h.segment, Nat.mod_lt _ (by decide), h.kind⟩

theorem expand_keeps {x : Instruction} (fits : x.Fits) : ∀ m ∈ x.expand, m.Keeps InRange := by
  cases x with
  | done => simp [Instruction.expand]
  | setKind kind => exact keeps_one fun r h => ⟨h.segment, h.offset, fits⟩
  | setSegment index offset => exact keeps_one fun r h => ⟨fits.1, fits.2, h.kind⟩
  | skip n => exact keeps_one fun r h => h.advance _
  | skipSlots n => exact keeps_one fun r h => h.advance _
  | fewTimes count => exact keeps_replicate count fun r h => h.advance _
  | times count => exact keeps_replicate count fun r h => h.advance _
  | onceAndSkip n => exact keeps_one fun r h => h.advance _
  | timesSkipping count n => exact keeps_replicate count fun r h => h.advance _

theorem ofStream_kept (limit : Nat) (r : Region) :
    Ends (fun rs => (∀ x ∈ rs, x.InRange) ∧ rs.length ≤ limit) (StreamFault r)
      (ofStream limit r) := by
  have fresh : Kept limit InRange (State.view {}) :=
    ⟨start_inRange, by simp [State.view], Nat.zero_le limit⟩
  exact (run_runs limit).kept (fun _ => rfl) read_ends (step_capped limit)
    (fun _ => expand_keeps) { region := r } fresh

end Rebase

namespace Binding

theorem run_runs (limit : Nat) (isLazy : Bool) :
    Runs Instruction.read (fun x => x = .done ∧ isLazy = false) (State.step limit) (·.records)
      (run limit isLazy) where
  moves := Instruction.read_moves
  unfolds s c := by
    rw [run_eq]
    cases Instruction.read c <;> rfl

theorem read_ends (c : Cursor) :
    Ends (fun p => p.1.Fits) (StreamFault c.region) (Instruction.read c) := by
  apply (c.byte_ends c.region).andThen
  intro b next found
  have operand := next.unsigned_ends c.region
  have low := low_lt b
  simp only [Instruction.rest]
  split
  · exact .ok trivial
  · exact .ok low
  · exact operand.as fun _ _ fits => fits
  · exact .ok low
  · exact (next.cstringBytes_ends c.region).as fun _ _ noNul => ⟨low, noNul⟩
  · exact .ok low
  · exact (next.signed_ends c.region).as fun _ _ fits => fits
  · exact operand.as fun _ _ fits => ⟨low, fits⟩
  · exact operand.as fun _ _ fits => fits
  · exact .ok trivial
  · exact operand.as fun _ _ fits => fits
  · exact .ok low
  · exact operand.andThen fun count after fits =>
      (after.unsigned_ends c.region).as fun _ _ distance => ⟨fits, distance⟩
  · split
    · exact operand.as fun _ _ fits => fits
    · split
      · exact .ok trivial
      · exact .error (unknown_opcode found)
  · exact .error (unknown_opcode found)

structure InRange (b : Binding) : Prop where
  segment : b.segmentIndex < 16
  offset : b.segmentOffset < 0x10000000000000000
  kind : b.kind < 16
  flags : b.flags < 16
  addend : -0x8000000000000000 ≤ b.addend ∧ b.addend < 0x8000000000000000
  ordinal : -15 ≤ b.ordinal ∧ b.ordinal < 0x10000000000000000

theorem start_inRange : start.InRange :=
  ⟨by decide, by decide, by decide, by decide, by decide, by decide⟩

theorem InRange.advance {b : Binding} (h : b.InRange) (n : Nat) :
    (Registers.advance n b).InRange :=
  { h with offset := Nat.mod_lt _ (by decide) }

theorem InRange.setOrdinal {b : Binding} (h : b.InRange) {n : Int}
    (range : -15 ≤ n ∧ n < 0x10000000000000000) : InRange { b with ordinal := n } :=
  { h with ordinal := range }

theorem expand_keeps {x : Instruction} (fits : x.Fits) : ∀ m ∈ x.expand, m.Keeps InRange := by
  cases x with
  | done => simp [Instruction.expand]
  | setOrdinal n =>
    simp only [Instruction.Fits] at fits
    exact keeps_one fun b h => h.setOrdinal (by omega)
  | setLongOrdinal n =>
    simp only [Instruction.Fits] at fits
    exact keeps_one fun b h => h.setOrdinal (by omega)
  | setSpecial n =>
    simp only [Instruction.Fits] at fits
    exact keeps_one fun b h => h.setOrdinal (by split <;> omega)
  | setSymbol flags name => exact keeps_one fun b h => { h with flags := fits.1 }
  | setKind kind => exact keeps_one fun b h => { h with kind := fits }
  | setAddend addend => exact keeps_one fun b h => { h with addend := fits }
  | setSegment index offset =>
    exact keeps_one fun b h => { h with segment := fits.1, offset := fits.2 }
  | skip n => exact keeps_one fun b h => h.advance _
  | once => exact keeps_one fun b h => h.advance _
  | onceAndSkip n => exact keeps_one fun b h => h.advance _
  | onceAndSkipSlots n => exact keeps_one fun b h => h.advance _
  | timesSkipping count n => exact keeps_replicate count fun b h => h.advance _
  | threadedTable size => simp [Instruction.expand]
  | threadedApply => simp [Instruction.expand]

theorem ofStream_kept (limit : Nat) (isLazy : Bool) (r : Region) :
    Ends (fun bs => (∀ b ∈ bs, b.InRange) ∧ bs.length ≤ limit) (StreamFault r)
      (ofStream limit isLazy r) := by
  have fresh : Kept limit InRange (State.view {}) :=
    ⟨start_inRange, by simp [State.view], Nat.zero_le limit⟩
  exact (run_runs limit isLazy).kept (fun _ => rfl) read_ends (step_capped limit)
    (fun _ => expand_keeps) { region := r } fresh

end Binding

/-- Whatever the bytes of a stream are, its records are in range. A stream that is refused is so for
a number, a string or a byte that it holds, or for more records than there is room for. -/
theorem records_in_range (i : Image) (r : Region) :
    Ends (fun rs => ∀ x ∈ rs, x.InRange) (StreamFault r) (Rebase.ofStream i.recordLimit r) ∧
    ∀ isLazy, Ends (fun bs => ∀ b ∈ bs, b.InRange) (StreamFault r)
      (Binding.ofStream i.recordLimit isLazy r) := by
  constructor
  · exact (Rebase.ofStream_kept i.recordLimit r).mono fun _ kept => kept.1
  · intro isLazy
    exact (Binding.ofStream_kept i.recordLimit isLazy r).mono fun _ kept => kept.1

end MachImage

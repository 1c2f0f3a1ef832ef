import MachImage.Attempt
import MachImage.LinkInfo.Basic
import MachImage.Proofs.Cursor.Ahead
/-!
Programs that write records, one record at a time. An instruction that writes many records is the
same as single steps, of which each writes the registers as they stand and then moves the offset
on. A reader that looks at the number of records before it writes them comes to the end of exactly
those programs whose single steps write no more than the limit, and with the same records.
-/
namespace MachImage

def opcode (high low : Nat) : UInt8 := UInt8.ofNat (16 * high + low)

theorem opcode_halves {high low : Nat} (h : high < 16) (l : low < 16) :
    (opcode high low).toNat / 16 = high ∧ (opcode high low).toNat % 16 = low := by
  rw [opcode, UInt8.toNat_ofNat_of_lt' (by omega : 16 * high + low < 256)]
  omega

/-- A program ends with its bytes, or with the instruction of high half zero and any bytes. -/
def EndsProgram (tail : List UInt8) : Prop :=
  tail = [] ∨ ∃ low rest, low < 16 ∧ tail = opcode 0 low :: rest

/-- An image of one segment, which has room for so many bytes. -/
def Image.withRoom (bytes : Nat) : Image :=
  let blank : SegmentCommand := Record.decode #[]
  { region := { bytes := #[] }, fileOffset := 0, header := ⟨Record.decode #[], 0⟩,
    commands := [.segment ⟨⟨{ blank with vmSize := bytes }, 0⟩, []⟩], symbols := [] }

class Registers (α : Type) where
  /-- The offset moves on, and begins again at zero behind 64 bits. -/
  advance : Nat → α → α

inductive Micro (α : Type) where
  | set (change : α → α)
  | emit (stride : Nat)

section
variable {α : Type} [Registers α]

def emitted : α → List (Micro α) → List α
  | _, [] => []
  | a, .set change :: ms => emitted (change a) ms
  | a, .emit stride :: ms => a :: emitted (Registers.advance stride a) ms

def settled : α → List (Micro α) → α
  | a, [] => a
  | a, .set change :: ms => settled (change a) ms
  | a, .emit stride :: ms => settled (Registers.advance stride a) ms

theorem emitted_append (a : α) (ms ns : List (Micro α)) :
    emitted a (ms ++ ns) = emitted a ms ++ emitted (settled a ms) ns := by
  induction ms generalizing a with
  | nil => rfl
  | cons m ms ih =>
    cases m with
    | set change => exact ih (change a)
    | emit stride => exact congrArg (a :: ·) (ih _)

theorem settled_append (a : α) (ms ns : List (Micro α)) :
    settled a (ms ++ ns) = settled (settled a ms) ns := by
  induction ms generalizing a with
  | nil => rfl
  | cons m ms ih => cases m <;> exact ih _

theorem length_emitted_replicate (a : α) (count stride : Nat) :
    (emitted a (List.replicate count (.emit stride))).length = count := by
  induction count generalizing a with
  | zero => rfl
  | succ count ih => rw [List.replicate_succ, emitted, List.length_cons, ih]

/-- A reader with the registers and the records of `view` does what the steps do from there, or is
corrupt where they pass the limit. -/
structure Capped {σ : Type} (limit : Nat) (view : σ → α × List α) (s : σ) (ms : List (Micro α))
    (outcome : Except Fault σ) : Prop where
  within : (view s).2.length + (emitted (view s).1 ms).length ≤ limit →
    ∃ t, outcome = .ok t ∧
      view t = (settled (view s).1 ms, (view s).2 ++ emitted (view s).1 ms)
  beyond : (view s).2.length ≤ limit →
    limit < (view s).2.length + (emitted (view s).1 ms).length → ∃ c, outcome = .error (.corrupt c)

variable {σ : Type} {limit : Nat} {view : σ → α × List α} {s t : σ} {ms ns : List (Micro α)}

theorem Capped.ok (silent : emitted (view s).1 ms = [])
    (same : view t = (settled (view s).1 ms, (view s).2)) : Capped limit view s ms (.ok t) := by
  constructor
  · intro _
    exact ⟨t, rfl, by rw [silent, List.append_nil, same]⟩
  · intro held past
    rw [silent, List.length_nil] at past
    omega

theorem Capped.commit {count stride : Nat} {c : CorruptFault}
    (same : view t = (settled (view s).1 (List.replicate count (.emit stride)),
      (view s).2 ++ emitted (view s).1 (List.replicate count (.emit stride)))) :
    Capped limit view s (List.replicate count (.emit stride))
      (if limit < count + (view s).2.length then .error (.corrupt c) else .ok t) := by
  constructor
  · intro held
    rw [length_emitted_replicate] at held
    rw [if_neg (by omega)]
    exact ⟨t, rfl, same⟩
  · intro _ past
    rw [length_emitted_replicate] at past
    rw [if_pos (by omega)]
    exact ⟨c, rfl⟩

theorem Capped.bind {x : Except Fault σ} {f : σ → Except Fault σ} (first : Capped limit view s ms x)
    (next : ∀ t, Capped limit view t ns (f t)) : Capped limit view s (ms ++ ns) (x >>= f) := by
  have total : (emitted (view s).1 (ms ++ ns)).length =
      (emitted (view s).1 ms).length + (emitted (settled (view s).1 ms) ns).length := by
    rw [emitted_append, List.length_append]
  by_cases fits : (view s).2.length + (emitted (view s).1 ms).length ≤ limit
  · obtain ⟨t, rfl, moved⟩ := first.within fits
    have held : (view t).2.length = (view s).2.length + (emitted (view s).1 ms).length := by
      rw [moved, List.length_append]
    have registers : (view t).1 = settled (view s).1 ms := by rw [moved]
    have later := next t
    rw [ok_bind]
    constructor
    · intro room
      obtain ⟨u, run, same⟩ := later.within (by rw [held, registers]; omega)
      refine ⟨u, run, ?_⟩
      rw [same, registers, moved, settled_append, emitted_append, List.append_assoc]
    · intro _ past
      exact later.beyond (by omega) (by rw [held, registers]; omega)
  · constructor
    · intro room
      omega
    · intro held _
      obtain ⟨c, rfl⟩ := first.beyond held (by omega)
      exact ⟨c, rfl⟩

/-- A stream that holds the records, unless they are more than the limit. -/
structure HoldsUpTo (limit : Nat) (records : List α) (outcome : Except Fault (List α)) : Prop where
  held : records.length ≤ limit → outcome = .ok records
  refused : limit < records.length → ∃ c, outcome = .error (.corrupt c)

theorem Capped.holdsUpTo {x : Except Fault σ} {a : α} {records : σ → Array α}
    (capped : Capped limit view s ms x) (fresh : view s = (a, []))
    (listed : ∀ t, (view t).2 = (records t).toList) :
    HoldsUpTo limit (emitted a ms) ((x.map records).map (·.toList)) := by
  have within := capped.within
  have beyond := capped.beyond
  rw [fresh] at within beyond
  simp only [List.length_nil, Nat.zero_add, List.nil_append] at within beyond
  constructor
  · intro room
    obtain ⟨t, rfl, same⟩ := within room
    simp only [Except.map, ← listed, same]
  · intro past
    obtain ⟨c, rfl⟩ := beyond (Nat.zero_le limit) past
    exact ⟨c, rfl⟩

/-- If a reader keeps up with the steps of every instruction, it keeps up with a whole program. -/
theorem Capped.run {ι : Type} {expand : ι → List (Micro α)} {step : σ → ι → Except Fault σ}
    (follows : ∀ s i, Capped limit view s (expand i) (step s i)) (is : List ι) (s : σ) :
    Capped limit view s (is.flatMap expand) (is.foldlM step s) := by
  induction is generalizing s with
  | nil => exact Capped.ok rfl rfl
  | cons i is ih =>
    rw [List.flatMap_cons, List.foldlM_cons]
    exact (follows s i).bind ih

theorem view_writeMany {stride : Nat} {write : σ → σ} {writeMany : Nat → σ → σ}
    (nothing : ∀ s, writeMany 0 s = s)
    (more : ∀ count s, writeMany (count + 1) s = writeMany count (write s))
    (writes : ∀ s, view (write s) =
      (Registers.advance stride (view s).1, (view s).2 ++ [(view s).1])) (count : Nat) (s : σ) :
    view (writeMany count s) = (settled (view s).1 (List.replicate count (.emit stride)),
      (view s).2 ++ emitted (view s).1 (List.replicate count (.emit stride))) := by
  induction count generalizing s with
  | zero => rw [nothing, List.replicate_zero, settled, emitted, List.append_nil]
  | succ count ih =>
    rw [more, ih, writes, List.replicate_succ, settled, emitted]
    dsimp only
    rw [List.append_assoc, List.singleton_append]

end

/-- A run over bytes that takes the step of each instruction it reads, until `tail` ends it. -/
structure Executes {ι σ ρ : Type} (allowed : ι → Prop) (encode : ι → List UInt8)
    (tail : List UInt8) (step : σ → ι → Except Fault σ) (result : σ → ρ)
    (run : σ → Cursor → Except Fault ρ) : Prop where
  last : ∀ s c, c.Faces tail → run s c = .ok (result s)
  next : ∀ s c x bs, allowed x → c.Faces (encode x ++ bs) →
    ∃ d, d.Faces bs ∧ run s c = step s x >>= fun t => run t d

theorem Executes.program {ι σ ρ : Type} {allowed : ι → Prop} {encode : ι → List UInt8}
    {tail : List UInt8} {step : σ → ι → Except Fault σ} {result : σ → ρ}
    {run : σ → Cursor → Except Fault ρ} (runs : Executes allowed encode tail step result run)
    (is : List ι) (program : ∀ x ∈ is, allowed x) (s : σ) {c : Cursor}
    (h : c.Faces (is.flatMap encode ++ tail)) :
    run s c = (is.foldlM step s).map result := by
  induction is generalizing s c with
  | nil => exact runs.last s c h
  | cons x is ih =>
    obtain ⟨here, later⟩ := List.forall_mem_cons.1 program
    rw [List.flatMap_cons, List.append_assoc] at h
    obtain ⟨d, behind, taken⟩ := runs.next s c x _ here h
    rw [taken, List.foldlM_cons]
    cases step s x with
    | error e => rfl
    | ok t => exact ih later t behind

end MachImage

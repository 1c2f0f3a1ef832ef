import Mathlib.Algebra.Ring.Int.Defs
import MachImage.Attempt
import MachImage.Record.Basic
import MachImage.Proofs.Region.Strings
/-!
Slices of slices. A chain of slices ends in one slice of the region that it began with, whose offset
is the sum of theirs. A read there is the read of the region as much further on, or is refused if it
leaves the slice; what else the region holds has no part in it.
-/
namespace MachImage.Region

def sliceChain (r : Region) (cuts : List (Int × Int)) : Except Fault Region :=
  cuts.foldlM (fun s cut => s.slice cut.1 cut.2) r

/-- Where a chain ends, counted from the region that it began with. -/
def chainOffset (cuts : List (Int × Int)) : Int := (cuts.map (·.1)).sum

def chainLength (r : Region) (cuts : List (Int × Int)) : Int :=
  (cuts.getLast?.map (·.2)).getD r.size

/-- The reads of some bytes at an offset, whatever is made of the bytes. -/
inductive Reads : {α : Type} → (read : Region → Int → Except Fault α) → (size : Int) → Prop
  | bytes (size : Int) : Reads (fun r offset => r.read offset size) size
  | byte : Reads byte 1
  | word (type : WordType) : Reads (fun r offset => r.word offset type) type.size
  | record (α : Type) [Record α] : Reads (fun r offset => r.record α offset) (Record.size α)
  | dump (l : Layout) : Reads (fun r offset => r.dump l offset) l.size
  | slice (size : Int) : Reads (fun r offset => r.slice offset size) size

theorem Reads.eq_map {α : Type} {read : Region → Int → Except Fault α} {size : Int}
    (kind : Reads read size) : ∃ make : Int → Array UInt8 → α, ∀ r offset,
      read r offset = (r.read offset size).map (make (r.base + offset)) := by
  cases kind with
  | bytes size =>
    refine ⟨fun _ bs => bs, fun r offset => ?_⟩
    dsimp only
    cases r.read offset size <;> rfl
  | byte => exact ⟨fun _ bs => bs[0]?.getD 0, fun _ _ => rfl⟩
  | word type => exact ⟨fun _ bs => type.decode bs.toList, fun _ _ => rfl⟩
  | record α => exact ⟨fun place bs => ⟨Record.decode bs, place⟩, fun _ _ => rfl⟩
  | dump l => exact ⟨fun place bs => ⟨l.label, l.size, place, l.fields bs⟩, fun _ _ => rfl⟩
  | slice size => exact ⟨fun place bs => ⟨bs, place⟩, fun _ _ => rfl⟩

section
variable {r s t : Region} {a b m n o k : Int}

theorem slice_eq_ok_iff : r.slice a n = .ok s ↔ r.contains a n = true ∧
    s = ⟨r.bytes.extract a.toNat (a + n).toNat, r.base + a⟩ := by
  cases inside : r.contains a n with
  | false => simp [slice, read, inside, Except.map]
  | true =>
    simp only [slice, read, inside, Except.map, if_true, Except.ok.injEq, true_and]
    exact eq_comm

theorem size_of_slice (cut : r.slice a n = .ok s) : (s.size : Int) = n := by
  obtain ⟨inside, rfl⟩ := slice_eq_ok_iff.1 cut
  rw [contains_iff] at inside
  simp only [size, Array.size_extract] at inside ⊢
  omega

theorem contains_slice (cut : r.slice a n = .ok s) :
    s.contains o k = true ↔ 0 ≤ o ∧ 0 ≤ k ∧ o + k ≤ n := by
  rw [contains_iff, size_of_slice cut]

theorem contains_of_slice (cut : r.slice a n = .ok s) (inside : 0 ≤ o ∧ 0 ≤ k ∧ o + k ≤ n) :
    r.contains (a + o) k = true := by
  have outer := (contains_iff r a n).1 (slice_eq_ok_iff.1 cut).1
  rw [contains_iff]
  omega

theorem read_slice (cut : r.slice a n = .ok s) (inside : 0 ≤ o ∧ 0 ≤ k ∧ o + k ≤ n) :
    s.read o k = r.read (a + o) k := by
  have within := (contains_slice cut).2 inside
  rw [read, if_pos within, read, if_pos (contains_of_slice cut inside)]
  obtain ⟨outer, rfl⟩ := slice_eq_ok_iff.1 cut
  rw [contains_iff] at outer
  simp only [Array.extract_extract]
  congr 2
  · omega
  · omega

theorem base_of_slice (cut : r.slice a n = .ok s) : s.base = r.base + a := by
  obtain ⟨-, rfl⟩ := slice_eq_ok_iff.1 cut
  rfl

section
variable {α : Type} {f : Region → Int → Except Fault α} (kind : Reads f k)
include kind

theorem Reads.of_slice (cut : r.slice a n = .ok s) (inside : 0 ≤ o ∧ 0 ≤ k ∧ o + k ≤ n) :
    f s o = f r (a + o) := by
  obtain ⟨make, eq_map⟩ := kind.eq_map
  rw [eq_map, eq_map, read_slice cut inside, base_of_slice cut, Int.add_assoc]

theorem Reads.sure (inside : r.contains o k = true) : ∃ x, f r o = .ok x := by
  obtain ⟨make, eq_map⟩ := kind.eq_map
  rw [eq_map, read, if_pos inside]
  exact ⟨_, rfl⟩

theorem Reads.refused (outside : ¬ r.contains o k = true) :
    f r o = .error (.outOfBounds o k r.size) := by
  obtain ⟨make, eq_map⟩ := kind.eq_map
  rw [eq_map, read, if_neg outside]
  rfl

theorem Reads.slice_iff (cut : r.slice a n = .ok s) :
    ((∃ x, f s o = .ok x) ↔ 0 ≤ o ∧ 0 ≤ k ∧ o + k ≤ n) ∧
      ∀ x, f s o = .ok x → f r (a + o) = .ok x := by
  have inside : (∃ x, f s o = .ok x) ↔ 0 ≤ o ∧ 0 ≤ k ∧ o + k ≤ n := by
    rw [← contains_slice cut]
    refine ⟨fun ⟨x, found⟩ => ?_, kind.sure⟩
    cases within : s.contains o k with
    | true => rfl
    | false => simp [kind.refused (Bool.eq_false_iff.1 within)] at found
  refine ⟨inside, fun x found => ?_⟩
  rw [← kind.of_slice cut (inside.1 ⟨x, found⟩), found]

end

theorem slice_whole (r : Region) : r.slice 0 r.size = .ok r := by
  have inside : r.contains 0 r.size = true := by
    rw [contains_iff]
    omega
  rw [slice_eq_ok_iff]
  refine ⟨inside, ?_⟩
  simp [size]

theorem slice_slice (first : r.slice a m = .ok s) (second : s.slice b n = .ok t) :
    r.slice (a + b) n = .ok t :=
  ((Reads.slice n).slice_iff first).2 t second

theorem slice_congr (cut : r.slice a n = .ok s) {other : Region} (base : other.base = r.base)
    (length : other.size = r.size)
    (same : ∀ p : Nat, a ≤ p → p < a + n → other.bytes[p]? = r.bytes[p]?) :
    other.slice a n = .ok s := by
  obtain ⟨inside, rfl⟩ := slice_eq_ok_iff.1 cut
  have range := (contains_iff r a n).1 inside
  have bytes : other.bytes.extract a.toNat (a + n).toNat =
      r.bytes.extract a.toNat (a + n).toNat := by
    apply Array.ext_getElem?
    intro p
    rw [Array.getElem?_extract, Array.getElem?_extract, ← size, ← size, length]
    split
    · exact same _ (by omega) (by omega)
    · rfl
  rw [slice_eq_ok_iff, bytes, base]
  refine ⟨?_, rfl⟩
  rw [contains_iff, length]
  exact range

theorem drop_slice (cut : r.slice a n = .ok s) (inside : 0 ≤ o ∧ o ≤ n) :
    s.bytes.toList.drop o.toNat = (r.bytes.toList.drop (a + o).toNat).take (n - o).toNat := by
  obtain ⟨outer, rfl⟩ := slice_eq_ok_iff.1 cut
  rw [contains_iff] at outer
  have start : (a + o).toNat = a.toNat + o.toNat := by omega
  have length : (n - o).toNat = (a + n).toNat - a.toNat - o.toNat := by omega
  rw [start, length, ← List.drop_drop, ← List.drop_take]
  simp [List.extract_eq_take_drop]

theorem mem_take_iff (bs : List UInt8) (n : Nat) :
    0 ∈ bs.take n ↔ 0 ∈ bs ∧ (bs.takeWhile (· ≠ 0)).length < n := by
  induction bs generalizing n with
  | nil => simp
  | cons b bs ih =>
    cases n with
    | zero => simp
    | succ n =>
      by_cases nul : b = 0
      · simp [nul]
      · simp [nul, ih, Ne.symm nul]

theorem takeWhile_take {bs : List UInt8} {n : Nat}
    (short : (bs.takeWhile (· ≠ 0)).length < n) :
    (bs.take n).takeWhile (· ≠ 0) = bs.takeWhile (· ≠ 0) := by
  induction bs generalizing n with
  | nil => simp
  | cons b bs ih =>
    cases n with
    | zero => simp at short
    | succ n =>
      by_cases nul : b = 0
      · simp [nul]
      · simp only [ne_eq, nul, not_false_eq_true, decide_true, List.takeWhile_cons_of_pos,
          List.length_cons, Nat.add_lt_add_iff_right, List.take_succ_cons] at short ⊢
        rw [ih short]

/-- A string in a slice is the one of the region if it ends in the slice, and none otherwise. -/
theorem cstringBytes_slice (cut : r.slice a n = .ok s) (start : 0 ≤ o) (within : o < n) :
    (∀ bs, r.cstringBytes (a + o) = .ok bs → o + bs.length < n → s.cstringBytes o = .ok bs) ∧
      ((∀ bs, r.cstringBytes (a + o) = .ok bs → n ≤ o + bs.length) →
        s.cstringBytes o = .error (.unterminated (r.base + a + o))) := by
  have outer := (contains_iff r a n).1 (slice_eq_ok_iff.1 cut).1
  have length := size_of_slice cut
  have inside : ¬ (o < 0 ∨ s.size ≤ o) := by omega
  have place : ¬ (a + o < 0 ∨ r.size ≤ a + o) := by omega
  rw [cstringBytes_eq, cstringBytes_eq, stringFrom, stringFrom, if_neg inside, if_neg place,
    drop_slice cut ⟨start, Int.le_of_lt within⟩, base_of_slice cut]
  simp only [mem_take_iff]
  generalize r.bytes.toList.drop (a + o).toNat = rest
  by_cases nul : 0 ∈ rest
  · simp only [nul, if_true, true_and, Except.ok.injEq, forall_eq']
    constructor
    · intro short
      have fits : (rest.takeWhile (· ≠ 0)).length < (n - o).toNat := by omega
      rw [if_pos fits, takeWhile_take fits]
    · intro long
      rw [if_neg (by omega)]
  · simp [nul]

end

section
variable {r s : Region} {cuts : List (Int × Int)}

theorem slice_of_chain (run : r.sliceChain cuts = .ok s) :
    r.slice (chainOffset cuts) (chainLength r cuts) = .ok s := by
  induction cuts generalizing r with
  | nil =>
    rw [sliceChain, List.foldlM_nil] at run
    cases run
    exact slice_whole s
  | cons cut cuts ih =>
    rw [sliceChain, List.foldlM_cons] at run
    obtain ⟨t, first, rest⟩ := of_bind_ok run
    have whole := slice_slice first (ih rest)
    have length : chainLength t cuts = chainLength r (cut :: cuts) := by
      cases cuts with
      | nil => simp [chainLength, size_of_slice first]
      | cons next cuts => simp [chainLength, List.getLast?_cons]
    rw [length] at whole
    simpa [chainOffset] using whole

theorem sliceChain_sure (run : r.sliceChain cuts = .ok s) {other : Region}
    (length : other.size = r.size) : ∃ t, other.sliceChain cuts = .ok t := by
  induction cuts generalizing r other with
  | nil => exact ⟨other, rfl⟩
  | cons cut cuts ih =>
    rw [sliceChain, List.foldlM_cons] at run
    obtain ⟨t, first, rest⟩ := of_bind_ok run
    have inside : other.contains cut.1 cut.2 = true := by
      have inside := (slice_eq_ok_iff.1 first).1
      rwa [contains_iff, ← length, ← contains_iff] at inside
    obtain ⟨u, same⟩ := (Reads.slice cut.2).sure inside
    have sizes : u.size = t.size := by
      have left := size_of_slice same
      have right := size_of_slice first
      omega
    obtain ⟨v, later⟩ := ih rest sizes
    refine ⟨v, ?_⟩
    rw [sliceChain, List.foldlM_cons, same, ok_bind]
    exact later

theorem sliceChain_congr (run : r.sliceChain cuts = .ok s) {other : Region}
    (base : other.base = r.base) (length : other.size = r.size)
    (same : ∀ p : Nat, chainOffset cuts ≤ p → p < chainOffset cuts + chainLength r cuts →
      other.bytes[p]? = r.bytes[p]?) : other.sliceChain cuts = .ok s := by
  obtain ⟨t, found⟩ := sliceChain_sure run length
  have cut := slice_of_chain found
  have ends : chainLength other cuts = chainLength r cuts := by simp [chainLength, length]
  rw [ends, slice_congr (slice_of_chain run) base length same, Except.ok.injEq] at cut
  rw [found, cut]

end

/-- A chain of slices ends in the bytes of the region from the sum of the offsets on, as many as the
last slice has. A read there succeeds exactly if it stays among them, and then gives what the region
gives as much further on; a string there is that of the region if it ends among them. Bytes that lie
elsewhere in the region may be any others. -/
theorem reads_of_sliceChain {r s : Region} {cuts : List (Int × Int)}
    (run : r.sliceChain cuts = .ok s) :
    let a := chainOffset cuts
    let n := chainLength r cuts
    s.base = r.base + a ∧
    s.bytes.toList = (r.bytes.toList.drop a.toNat).take n.toNat ∧ (s.size : Int) = n ∧
    (∀ (α : Type) (f : Region → Int → Except Fault α) (k : Int), Reads f k → ∀ o,
      ((∃ x, f s o = .ok x) ↔ 0 ≤ o ∧ 0 ≤ k ∧ o + k ≤ n) ∧
      ∀ x, f s o = .ok x → f r (a + o) = .ok x) ∧
    (∀ o, 0 ≤ o → o < n →
      (∀ bs, r.cstringBytes (a + o) = .ok bs → o + bs.length < n →
        s.cstringBytes o = .ok bs ∧ s.cstring o = r.cstring (a + o)) ∧
      ((∀ bs, r.cstringBytes (a + o) = .ok bs → n ≤ o + bs.length) →
        s.cstringBytes o = .error (.unterminated (r.base + a + o)) ∧
        s.cstring o = .error (.unterminated (r.base + a + o)))) ∧
    ∀ other : Region, other.base = r.base → other.size = r.size →
      (∀ p : Nat, a ≤ p → p < a + n → other.bytes[p]? = r.bytes[p]?) →
      other.sliceChain cuts = .ok s := by
  intro a n
  have cut : r.slice a n = .ok s := slice_of_chain run
  have length := size_of_slice cut
  refine ⟨base_of_slice cut, ?_, length, fun α f k kind o => kind.slice_iff cut, ?_,
    fun other => sliceChain_congr run⟩
  · have bytes := drop_slice cut (o := 0) (by omega)
    simpa using bytes
  · intro o start within
    obtain ⟨ended, cutOff⟩ := cstringBytes_slice cut start within
    constructor
    · intro bs outer short
      have inner := ended bs outer short
      exact ⟨inner, by rw [cstring, cstring, inner, outer]⟩
    · intro long
      have inner := cutOff long
      exact ⟨inner, by rw [cstring, inner]; rfl⟩

def greeting : Region :=
  { bytes := #[1, 2, 3, 4, 5, 6, 7, 8, 0x68, 0x65, 0x6C, 0x6C, 0x6F, 0, 0x77, 0x6F], base := 0x20 }

theorem reads_of_sliceChain_nested : ∃ s, greeting.sliceChain [(4, 10), (4, 5)] = .ok s ∧
    s.base = 0x28 ∧ (∃ x, s.word 1 .u32 = .ok x ∧ greeting.word 9 .u32 = .ok x) ∧
    (¬ ∃ x, s.word 2 .u32 = .ok x) ∧ greeting.cstring 8 = .ok "hello" ∧
    s.cstring 0 = .error (.unterminated 0x28) := by
  have run : greeting.sliceChain [(4, 10), (4, 5)] =
      .ok { bytes := #[0x68, 0x65, 0x6C, 0x6C, 0x6F], base := 0x28 } := rfl
  obtain ⟨base, -, -, reads, strings, -⟩ := reads_of_sliceChain run
  obtain ⟨word, same⟩ := reads _ _ _ (.word .u32) 1
  obtain ⟨x, found⟩ := word.2 (by decide)
  refine ⟨_, run, base, ⟨x, found, same x found⟩, ?_, ?_, ?_⟩
  · rw [(reads _ _ _ (.word .u32) 2).1]
    decide
  · rw [cstring, cstringBytes_eq]
    rfl
  · have outer : greeting.cstringBytes 8 = .ok [0x68, 0x65, 0x6C, 0x6C, 0x6F] := by
      rw [cstringBytes_eq]
      rfl
    refine ((strings 0 (by decide) (by decide)).2 fun bs found => ?_).2
    obtain rfl := Except.ok.inj (found.symm.trans outer)
    decide

end MachImage.Region

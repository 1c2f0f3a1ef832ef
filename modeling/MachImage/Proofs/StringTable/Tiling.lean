import Mathlib.Data.List.Chain
import Mathlib.Data.List.DropRight
import Mathlib.Data.List.Nodup
import MachImage.StringTable
/-!
The entries of a string table tile it up to its last NUL. Each begins behind the NUL of the one
before it and holds no NUL, and what is left behind the last one holds none either. So nothing is
lost or invented, and a place up to the last NUL lies in one entry, or on its NUL.
-/
namespace MachImage.StringTable

/-- The entries of bytes whose first has the index `start`. Each is cut off by a NUL. -/
inductive Tiles : (start : Nat) → List UInt8 → List Entry → Prop
  | ended {start : Nat} {tail : List UInt8} (noNul : 0 ∉ tail) : Tiles start tail []
  | entry {start : Nat} {bs rest : List UInt8} {es : List Entry} (noNul : 0 ∉ bs)
      (later : Tiles (start + bs.length + 1) rest es) :
      Tiles start (bs ++ 0 :: rest) (⟨start, bs⟩ :: es)

theorem entriesFrom_tiles (start : Nat) (run bs : List UInt8) (noNul : 0 ∉ run) :
    Tiles start (run.reverse ++ bs) (entriesFrom start run bs) := by
  induction bs generalizing start run with
  | nil =>
    rw [entriesFrom, List.append_nil]
    exact .ended (mt List.mem_reverse.1 noNul)
  | cons b bs ih =>
    rw [entriesFrom]
    split
    · next nul =>
      have later := ih (start + run.length + 1) [] List.not_mem_nil
      rw [nul]
      refine .entry (mt List.mem_reverse.1 noNul) ?_
      rwa [List.length_reverse]
    · next other =>
      have longer := ih start (b :: run) (List.not_mem_cons_of_ne_of_not_mem (Ne.symm other) noNul)
      rwa [List.reverse_cons, List.append_assoc] at longer

theorem entries_tiles (table : List UInt8) : Tiles 0 table (entries table) :=
  entriesFrom_tiles 0 [] table List.not_mem_nil

theorem rdropWhile_behind {α : Type} {p : α → Bool} {x : α} (xs ys : List α) (stays : ¬ p x) :
    (xs ++ x :: ys).rdropWhile p = xs ++ x :: ys.rdropWhile p := by
  induction ys using List.reverseRecOn with
  | nil => rw [List.rdropWhile_concat_neg p xs x stays, List.rdropWhile_nil]
  | append_singleton ys y ih =>
    rw [← List.cons_append, ← List.append_assoc, List.rdropWhile_concat, List.rdropWhile_concat, ih]
    split
    · rfl
    · rw [List.append_assoc, List.cons_append]

section
variable {start : Nat} {bs : List UInt8} {es : List Entry} {e : Entry}

theorem Tiles.stands (h : Tiles start bs es) (member : e ∈ es) :
    0 ∉ e.bytes ∧ ∃ before behind, bs = before ++ (e.bytes ++ 0 :: behind) ∧
      e.start = start + before.length := by
  induction h with
  | ended => exact absurd member List.not_mem_nil
  | @entry start bs rest es noNul later ih =>
    rcases List.mem_cons.1 member with rfl | among
    · exact ⟨noNul, [], rest, rfl, rfl⟩
    · obtain ⟨plain, before, behind, rfl, place⟩ := ih among
      refine ⟨plain, bs ++ 0 :: before, behind, by simp, ?_⟩
      rw [place, List.length_append, List.length_cons]
      omega

theorem Tiles.covers (h : Tiles start bs es) {k : Nat} (nul : 0 ∈ bs.drop k) :
    ∃ e ∈ es, e.start ≤ start + k ∧ start + k ≤ e.start + e.length := by
  induction h generalizing k with
  | ended noNul => exact absurd (List.mem_of_mem_drop nul) noNul
  | @entry start bs rest es noNul later ih =>
    by_cases here : k ≤ bs.length
    · exact ⟨_, List.mem_cons_self, Nat.le_add_right _ _, Nat.add_le_add_left here _⟩
    · obtain ⟨j, rfl⟩ : ∃ j, k = bs.length + (j + 1) := ⟨k - bs.length - 1, by omega⟩
      rw [← List.drop_drop, List.drop_left, List.drop_succ_cons] at nul
      obtain ⟨e, member, first, last⟩ := ih nul
      exact ⟨e, List.mem_cons_of_mem _ member, by omega, by omega⟩

theorem Tiles.ascending (h : Tiles start bs es) : es.Pairwise fun a b => a.start < b.start := by
  induction h with
  | ended => exact .nil
  | @entry start bs rest es noNul later ih =>
    refine .cons (fun b member => ?_) ih
    obtain ⟨-, before, behind, -, place⟩ := later.stands member
    dsimp only
    omega

theorem Tiles.first (h : Tiles start bs es) (head : es.head? = some e) : e.start = start := by
  cases h with
  | ended => cases head
  | entry => cases head; rfl

theorem Tiles.chain (h : Tiles start bs es) :
    es.IsChain fun a b => b.start = a.start + a.length + 1 := by
  induction h with
  | ended => exact .nil
  | entry noNul later ih => exact .cons ih fun b next => later.first next

theorem Tiles.count (h : Tiles start bs es) : es.length = bs.count 0 := by
  induction h with
  | ended noNul => exact (List.count_eq_zero_of_not_mem noNul).symm
  | entry noNul later ih =>
    rw [List.length_cons, ih, List.count_append, List.count_eq_zero_of_not_mem noNul,
      List.count_cons_self, Nat.zero_add]

theorem Tiles.joined (h : Tiles start bs es) :
    es.flatMap (fun e => e.bytes ++ [0]) = bs.rdropWhile (· ≠ 0) := by
  induction h with
  | ended noNul =>
    rw [List.flatMap_nil, eq_comm, List.rdropWhile_eq_nil_iff]
    intro b member
    exact decide_eq_true fun nul => noNul (nul ▸ member)
  | entry noNul later ih =>
    rw [rdropWhile_behind _ _ (by simp), List.flatMap_cons, ih, List.append_assoc]
    rfl

theorem Tiles.entryAt?_iff (h : Tiles start bs es) {index : Int} :
    entryAt? es index = some e ↔ e ∈ es ∧ e.start = index := by
  have one : ∀ d ∈ es, ∀ e ∈ es, d.start = e.start → d = e := by
    have keys : (es.map (·.start)).Nodup := List.pairwise_map.2 (h.ascending.imp Nat.ne_of_lt)
    exact fun d left e right => List.inj_on_of_nodup_map keys left right
  rw [entryAt?]
  constructor
  · intro found
    exact ⟨List.mem_of_find?_eq_some found, by simpa using List.find?_some found⟩
  · rintro ⟨member, rfl⟩
    cases found : es.find? fun d => (d.start : Int) = e.start with
    | none => simpa using List.find?_eq_none.1 found e member
    | some d =>
      have same : (d.start : Int) = e.start := by simpa using List.find?_some found
      rw [one d (List.mem_of_find?_eq_some found) e member (Int.ofNat_inj.1 same)]

end

/-- The entries of a table, listed by their starts, which are their keys. The first starts at 0 and
each other one behind the NUL of the one before it. The bytes of an entry are those of the table
from its start on, with no NUL among them and one behind them. There are as many entries as NULs,
and their bytes with a NUL each are the table up to its last NUL. -/
theorem entries_tile (table : List UInt8) :
    (entries table).Pairwise (fun a b => a.start < b.start) ∧
    (∀ (index : Int) e, entryAt? (entries table) index = some e ↔
      e ∈ entries table ∧ e.start = index) ∧
    (∀ e, (entries table).head? = some e → e.start = 0) ∧
    (entries table).IsChain (fun a b => b.start = a.start + a.length + 1) ∧
    (∀ e ∈ entries table, 0 ∉ e.bytes ∧ e.bytes = (table.drop e.start).take e.length ∧
      table[e.start + e.length]? = some 0) ∧
    (entries table).length = table.count 0 ∧
    (entries table).flatMap (fun e => e.bytes ++ [0]) = table.rdropWhile (· ≠ 0) := by
  have tiles := entries_tiles table
  refine ⟨tiles.ascending, fun index e => tiles.entryAt?_iff, fun e head => tiles.first head,
    tiles.chain, fun e member => ?_, tiles.count, tiles.joined⟩
  obtain ⟨noNul, before, behind, parts, place⟩ := tiles.stands member
  rw [Nat.zero_add] at place
  refine ⟨noNul, ?_, ?_⟩
  · rw [parts, place, List.drop_left, Entry.length, List.take_left]
  · rw [parts, place, Entry.length, List.getElem?_append_right (Nat.le_add_right _ _),
      Nat.add_sub_cancel_left, List.getElem?_append_right (Nat.le_refl _), Nat.sub_self]
    rfl

theorem entries_tile_tail :
    let table : List UInt8 := [0, 0x5F, 0x61, 0, 0, 0x74]
    ⟨1, [0x5F, 0x61]⟩ ∈ entries table ∧ table[1 + 2]? = some 0 ∧
      entryAt? (entries table) 2 = none ∧ (entries table).length = 3 ∧
      (entries table).flatMap (fun e => e.bytes ++ [0]) = [0, 0x5F, 0x61, 0, 0] := by
  intro table
  obtain ⟨-, keys, -, -, stands, count, joined⟩ := entries_tile table
  have member : ⟨1, [0x5F, 0x61]⟩ ∈ entries table := by simp [table, entries, entriesFrom]
  refine ⟨member, (stands _ member).2.2, ?_, count, joined⟩
  refine Option.eq_none_iff_forall_not_mem.2 fun e found => ?_
  obtain ⟨among, place⟩ := (keys 2 e).1 found
  simp [table, entries, entriesFrom] at among
  rcases among with rfl | rfl | rfl <;> cases place

end MachImage.StringTable

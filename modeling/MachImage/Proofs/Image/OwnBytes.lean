import MachImage.Proofs.Image.CommandViews
/-!
Two slices side by side. A command is made of its own bytes alone: slices that agree there have the
same command, whatever the other commands hold. Slices that agree up to the end of the commands have
the same views, whatever follows.
-/
namespace MachImage
open Record

def Agree (start stop : Nat) (bs other : Array UInt8) : Prop :=
  ∀ p, start ≤ p → p < stop → other[p]? = bs[p]?

theorem getElem?_cut (bs : Array UInt8) (start stop k : Nat) :
    (bs.extract start stop)[k]? = if start + k < stop then bs[start + k]? else none := by
  rw [Array.getElem?_extract]
  by_cases inside : start + k < bs.size
  · by_cases before : start + k < stop
    · rw [if_pos (by omega), if_pos before]
    · rw [if_neg (by omega), if_neg before]
  · rw [if_neg (by omega), Array.getElem?_eq_none (Nat.le_of_not_lt inside), ite_self]

section
variable {bs other : Array UInt8} {start stop : Nat} (same : Agree start stop bs other)
include same

theorem Agree.part {a b : Nat} (low : start ≤ a) (high : b ≤ stop) : Agree a b bs other :=
  fun p above below => same p (Nat.le_trans low above) (Nat.lt_of_lt_of_le below high)

theorem Agree.extract : other.extract start stop = bs.extract start stop := by
  apply Array.ext_getElem?
  intro k
  rw [getElem?_cut, getElem?_cut]
  split
  next before => exact same (start + k) (Nat.le_add_right start k) before
  next => rfl

theorem Agree.u32 {offset : Nat} (low : start ≤ offset) (high : offset + 4 ≤ stop) :
    u32 other offset = u32 bs offset := by
  unfold Record.u32 unsignedAt
  rw [(same.part low high).extract]

end

theorem LoadCommand.CutFrom.of_agree {r other : Region} {stop otherStop o : Nat}
    {command found : LoadCommand} (base : other.base = r.base) (cut : command.CutFrom r stop o)
    (otherCut : found.CutFrom other otherStop o)
    (same : Agree o (o + u32 r.bytes (o + 4)) r.bytes other.bytes) : found = command := by
  have least := cut.least
  have code : u32 other.bytes o = u32 r.bytes o := same.u32 (Nat.le_refl o) (by omega)
  have size : u32 other.bytes (o + 4) = u32 r.bytes (o + 4) := same.u32 (by omega) (by omega)
  have decoded := otherCut.decoded
  rw [base, code, size, same.extract, cut.decoded] at decoded
  exact (Except.ok.inj decoded).symm

theorem commandOffset_of_agree {bs other : Array UInt8} {k : Nat}
    (heads : ∀ n < k, Agree (commandOffset bs n) (commandOffset bs n + 8) bs other) :
    commandOffset other k = commandOffset bs k := by
  induction k with
  | zero => rfl
  | succ k ih =>
    have before := ih fun n earlier => heads n (Nat.lt_succ_of_lt earlier)
    have size := (heads k (Nat.lt_succ_self k)).u32 (Nat.le_add_right _ 4) (Nat.le_refl _)
    rw [commandOffset, commandOffset, before, size]

namespace Image

theorem parse_cut {r : Region} {fileOffset : Nat} {i : Image}
    (run : parse r fileOffset = .ok i) :
    i.commands.length = u32 r.bytes 16 ∧ ∀ (k : Nat) (command : LoadCommand),
      i.commands[k]? = some command →
        command.CutFrom r (32 + u32 r.bytes 20) (commandOffset r.bytes k) := by
  obtain ⟨-, inside, walked⟩ := parse_cut_all run
  obtain ⟨length, cuts⟩ := @cutCommands_cut r _ inside 0 _ _ _ walked
  simp only [Nat.zero_add] at cuts
  exact ⟨length, cuts⟩

section
variable {r other : Region} {fileOffset otherOffset : Nat} {i j : Image}
  (run : parse r fileOffset = .ok i) (otherRun : parse other otherOffset = .ok j)
  (base : other.base = r.base)
include run otherRun

theorem length_of_agree (same : Agree 0 32 r.bytes other.bytes) :
    j.commands.length = i.commands.length := by
  rw [(parse_cut run).1, (parse_cut otherRun).1]
  exact same.u32 (by decide) (by decide)

include base

theorem command_of_agree {k l : Nat} (present : k < i.commands.length)
    (otherPresent : l < j.commands.length)
    (place : commandOffset other.bytes l = commandOffset r.bytes k)
    (own : Agree (commandOffset r.bytes k) (commandOffset r.bytes (k + 1)) r.bytes other.bytes) :
    j.commands[l]? = i.commands[k]? := by
  have found := List.getElem?_eq_getElem present
  have otherFound := List.getElem?_eq_getElem otherPresent
  have cut := (parse_cut run).2 k _ found
  have otherCut := (parse_cut otherRun).2 l _ otherFound
  rw [place] at otherCut
  rw [found, otherFound, cut.of_agree base otherCut own]

/-- Of the commands before it, a command needs no more than the heads, which tell where it is. -/
theorem command_of_heads (header : Agree 0 32 r.bytes other.bytes) {k : Nat}
    (heads : ∀ n < k,
      Agree (commandOffset r.bytes n) (commandOffset r.bytes n + 8) r.bytes other.bytes)
    (own : Agree (commandOffset r.bytes k) (commandOffset r.bytes (k + 1)) r.bytes other.bytes) :
    j.commands[k]? = i.commands[k]? := by
  have length := length_of_agree run otherRun header
  by_cases present : k < i.commands.length
  · exact command_of_agree run otherRun base present (length ▸ present)
      (commandOffset_of_agree heads) own
  · rw [List.getElem?_eq_none (by omega), List.getElem?_eq_none (by omega)]

theorem commands_of_agree (same : Agree 0 (32 + u32 r.bytes 20) r.bytes other.bytes) :
    j.commands = i.commands := by
  have header : Agree 0 32 r.bytes other.bytes := same.part (Nat.le_refl 0) (by omega)
  have length := length_of_agree run otherRun header
  have inside (k : Nat) (present : k < i.commands.length) :
      commandOffset r.bytes k + 8 ≤ commandOffset r.bytes (k + 1) ∧
        commandOffset r.bytes (k + 1) ≤ 32 + u32 r.bytes 20 := by
    have cut := (parse_cut run).2 k _ (List.getElem?_eq_getElem present)
    exact ⟨Nat.add_le_add_left cut.least _, cut.within⟩
  apply List.ext_getElem?
  intro k
  by_cases present : k < i.commands.length
  · have heads : ∀ n < k,
        Agree (commandOffset r.bytes n) (commandOffset r.bytes n + 8) r.bytes other.bytes := by
      intro n earlier
      obtain ⟨head, within⟩ := inside n (Nat.lt_trans earlier present)
      exact same.part (Nat.zero_le _) (Nat.le_trans head within)
    exact command_of_heads run otherRun base header heads
      (same.part (Nat.zero_le _) (inside k present).2)
  · rw [List.getElem?_eq_none (by omega), List.getElem?_eq_none (by omega)]

theorem header_of_agree (same : Agree 0 32 r.bytes other.bytes) : j.header = i.header := by
  obtain ⟨-, -, head, -⟩ := parse_parts run
  obtain ⟨-, -, otherHead, -⟩ := parse_parts otherRun
  have read : r.record Header 0 = .ok _ := @record_of_le Header _ r 0 (size_of_header head)
  have otherRead : other.record Header 0 = .ok _ :=
    @record_of_le Header _ other 0 (size_of_header otherHead)
  rw [readHeader, read] at head
  rw [readHeader, otherRead] at otherHead
  rw [← Except.ok.inj head, ← Except.ok.inj otherHead, base]
  exact congrArg (fun bs => (⟨Record.decode bs, r.base + 0⟩ : Placed Header)) same.extract

end

/-- Each command is determined by its own bytes and where they lie, and the list of commands with
all its tables by the bytes up to the end of the commands. -/
theorem commands_of_own_bytes {r other : Region} {fileOffset otherOffset : Nat} {i j : Image}
    (run : parse r fileOffset = .ok i) (otherRun : parse other otherOffset = .ok j)
    (base : other.base = r.base) :
    (Agree 0 (32 + i.header.value.commandsSize) r.bytes other.bytes →
      j.header = i.header ∧ j.commands = i.commands ∧ j.tables = i.tables) ∧
    (∀ k l, k < i.commands.length → l < j.commands.length →
      commandOffset other.bytes l = commandOffset r.bytes k →
      Agree (commandOffset r.bytes k) (commandOffset r.bytes (k + 1)) r.bytes other.bytes →
      j.commands[l]? = i.commands[k]?) ∧
    (Agree 0 32 r.bytes other.bytes → ∀ k,
      (∀ n < k, Agree (commandOffset r.bytes n) (commandOffset r.bytes n + 8) r.bytes other.bytes) →
      Agree (commandOffset r.bytes k) (commandOffset r.bytes (k + 1)) r.bytes other.bytes →
      j.commands[k]? = i.commands[k]?) := by
  obtain ⟨-, -, head, -⟩ := parse_parts run
  refine ⟨fun same => ?_, fun k l => command_of_agree run otherRun base,
    fun header k => command_of_heads run otherRun base header⟩
  have header := header_of_agree run otherRun base (same.part (Nat.le_refl 0) (by omega))
  rw [(header_of_read head (size_of_header head)).2] at same
  have commands := commands_of_agree run otherRun base same
  exact ⟨header, commands, by rw [j.recorded, i.recorded, commands]⟩

def endless : Array UInt8 :=
  #[0xCF, 0xFA, 0xED, 0xFE, 12, 0, 0, 1, 0, 0, 0, 0, 2, 0, 0, 0,
    2, 0, 0, 0, 56, 0, 0, 0, 0, 0, 0, 0, 0, 0, 0, 0,
    0xC, 0, 0, 0, 32, 0, 0, 0, 24, 0, 0, 0, 2, 0, 0, 0,
    1, 0, 0, 0, 1, 0, 0, 0, 0x2F, 0x61, 0x61, 0x61, 0x61, 0x61, 0x61, 0x61,
    0x1B, 0, 0, 0, 24, 0, 0, 0]

def identified (id rest : List UInt8) : Region := { bytes := endless ++ id.toArray ++ rest.toArray }

theorem agree_append (bs first second : Array UInt8) :
    Agree 0 bs.size (bs ++ first) (bs ++ second) := by
  intro p _ inside
  rw [Array.getElem?_append_left inside, Array.getElem?_append_left inside]

theorem sure_of_isOk {α : Type} {x : Except Fault α} (ok : x.isOk = true) : Sure x := by
  cases x with
  | error e => cases ok
  | ok a => exact ⟨a, rfl⟩

theorem commands_of_own_bytes_endless :
    let zeros := List.replicate 16 (0 : UInt8)
    let ones := List.replicate 16 (1 : UInt8)
    ∃ i j k, parse (identified zeros []) 0 = .ok i ∧ parse (identified ones [7]) 0 = .ok j ∧
      parse (identified zeros [7]) 0 = .ok k ∧
      j.commands[0]? = i.commands[0]? ∧ k.tables = i.tables := by
  intro zeros ones
  obtain ⟨i, run⟩ := @sure_of_isOk _ (parse (identified zeros []) 0) (by decide +kernel)
  obtain ⟨j, changed⟩ := @sure_of_isOk _ (parse (identified ones [7]) 0) (by decide +kernel)
  obtain ⟨k, longer⟩ := @sure_of_isOk _ (parse (identified zeros [7]) 0) (by decide +kernel)
  refine ⟨i, j, k, run, changed, longer, ?_, ?_⟩
  · obtain ⟨-, -, heads⟩ := commands_of_own_bytes run changed rfl
    have front : Agree 0 72 (identified zeros []).bytes (identified ones [7]).bytes := by
      unfold identified
      rw [Array.append_assoc, Array.append_assoc]
      exact agree_append endless _ _
    exact heads (front.part (by decide) (by decide)) 0 (fun n before => absurd before (by omega))
      (front.part (by decide) (by decide +kernel))
  · obtain ⟨tables, -, -⟩ := commands_of_own_bytes run longer rfl
    have size : 32 + i.header.value.commandsSize = (endless ++ zeros.toArray).size := by
      obtain ⟨-, -, head, -⟩ := parse_parts run
      rw [(header_of_read head (size_of_header head)).2]
      decide +kernel
    rw [size] at tables
    exact (tables (agree_append _ _ _)).2.2

end Image
end MachImage

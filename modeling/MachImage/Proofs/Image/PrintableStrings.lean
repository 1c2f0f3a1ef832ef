import Mathlib.Data.List.Sort
import MachImage.PrintableRun
import MachImage.Proofs.Image.Bounds
/-!
Which strings a scan finds. A run of shown bytes that no such byte stands before, and that a NUL
stands behind, is found once for each section that it lies in; no other bytes are. What is found
is in the order of the file, and at one place of it in the order in which the sections are searched.
-/
namespace MachImage

/-- Shown bytes that stand at `start` with a NUL behind them, and with none of their kind before. -/
structure Terminated (bs : List UInt8) (start : Nat) (run : List UInt8) : Prop where
  nonempty : run ≠ []
  shown : ∀ b ∈ run, isShown b = true
  stands : run ++ [0] <+: bs.drop start
  first : ∀ b, (bs.take start).getLast? = some b → isShown b = false

section
variable {xs rest run : List UInt8} {b : UInt8} {start : Nat}

theorem run_unique (shown : ∀ x ∈ xs, isShown x = true) (ends : isShown b = false)
    (all : ∀ x ∈ run, isShown x = true) (stands : run ++ [0] <+: xs ++ b :: rest) :
    run = xs ∧ b = 0 := by
  obtain ⟨behind, same⟩ := stands
  rw [List.append_assoc, List.singleton_append] at same
  have both := congrArg (List.takeWhile isShown) same
  rw [List.takeWhile_append_of_pos all, List.takeWhile_append_of_pos shown,
    List.takeWhile_cons_of_neg (by decide), List.takeWhile_cons_of_neg (by simp [ends]),
    List.append_nil, List.append_nil] at both
  subst both
  exact ⟨rfl, (List.cons.inj (List.append_cancel_left same)).1.symm⟩

theorem terminated_append_iff (shown : ∀ x ∈ xs, isShown x = true) (ends : isShown b = false) :
    Terminated (xs ++ b :: rest) start run ↔
      (start = 0 ∧ run = xs ∧ xs ≠ [] ∧ b = 0) ∨
      ∃ k, start = xs.length + 1 + k ∧ Terminated rest k run := by
  have last (k : Nat) : ((xs ++ b :: rest).take (xs.length + (k + 1))).getLast? =
      some ((rest.take k).getLast?.getD b) := by
    rw [List.take_length_add_append, List.take_succ_cons, List.getLast?_append, List.getLast?_cons]
    rfl
  have behind (k : Nat) : (xs ++ b :: rest).drop (xs.length + (k + 1)) = rest.drop k := by
    rw [List.drop_length_add_append, List.drop_succ_cons]
  constructor
  · intro h
    rcases Nat.eq_zero_or_pos start with rfl | inner
    · obtain ⟨whole, nul⟩ := run_unique shown ends h.shown h.stands
      exact .inl ⟨rfl, whole, whole ▸ h.nonempty, nul⟩
    · rcases Nat.lt_or_ge xs.length start with after | within
      · obtain ⟨k, rfl⟩ : ∃ k, start = xs.length + (k + 1) := ⟨start - xs.length - 1, by omega⟩
        refine .inr ⟨k, by omega, h.nonempty, h.shown, behind k ▸ h.stands, fun c before => ?_⟩
        refine h.first c ?_
        rw [last, before]
        rfl
      · -- a byte of `xs` would stand before the run
        have before : (xs.take start).getLast? ≠ none := by
          rw [Ne, List.getLast?_eq_none_iff, List.take_eq_nil_iff]
          rintro (rfl | rfl)
          · exact absurd inner (Nat.lt_irrefl 0)
          · exact absurd (Nat.lt_of_lt_of_le inner within) (Nat.lt_irrefl 0)
        obtain ⟨c, here⟩ := Option.ne_none_iff_exists'.1 before
        have hidden := h.first c (by rwa [List.take_append_of_le_length within])
        have member := List.mem_of_mem_take (List.mem_of_getLast? here)
        rw [shown c member] at hidden
        cases hidden
  · rintro (⟨rfl, rfl, nonempty, rfl⟩ | ⟨k, rfl, h⟩)
    · refine ⟨nonempty, shown, ⟨rest, by simp⟩, fun c before => ?_⟩
      cases before
    · rw [Nat.add_right_comm, Nat.add_assoc]
      refine ⟨h.nonempty, h.shown, (behind k).symm ▸ h.stands, fun c before => ?_⟩
      rw [last, Option.some.injEq] at before
      subst before
      cases earlier : (rest.take k).getLast? with
      | none => exact ends
      | some c => exact h.first c earlier

theorem not_terminated (shown : ∀ x ∈ xs, isShown x = true) : ¬ Terminated xs start run := by
  intro h
  have nul : (0 : UInt8) ∈ xs :=
    List.mem_of_mem_drop (h.stands.subset (List.mem_append_right _ List.mem_cons_self))
  exact absurd (shown 0 nul) (by decide)

end

/-- Bytes are runs that show with bytes in between that do not. -/
@[elab_as_elim]
theorem induction_on_runs {motive : List UInt8 → Prop}
    (last : ∀ xs, (∀ x ∈ xs, isShown x = true) → motive xs)
    (hidden : ∀ xs b rest, (∀ x ∈ xs, isShown x = true) → isShown b = false → motive rest →
      motive (xs ++ b :: rest)) (bs : List UInt8) : motive bs := by
  have parts := List.takeWhile_append_dropWhile (p := isShown) (l := bs)
  have shown : ∀ x ∈ bs.takeWhile isShown, isShown x = true :=
    List.all_eq_true.1 List.all_takeWhile
  match ends : bs.dropWhile isShown with
  | [] =>
    rw [ends, List.append_nil] at parts
    exact parts ▸ last _ shown
  | b :: rest =>
    have stops := List.head?_dropWhile_not isShown bs
    rw [ends] at stops parts
    have shorter : rest.length < bs.length := by
      rw [← parts, List.length_append, List.length_cons]
      omega
    rw [← parts]
    exact hidden _ b rest shown (by simpa using stops) (induction_on_runs last hidden rest)
termination_by bs.length

section
variable {xs rest text : List UInt8} {b : UInt8} {least place start : Nat}
  (shown : ∀ x ∈ xs, isShown x = true) (positive : 1 ≤ least)

include shown in
/-- Where a run has no NUL behind it none of its parts has one. -/
theorem matchLength?_eq (ends : ∀ b, rest.head? = some b → isShown b = false) :
    matchLength? least (xs ++ rest) =
      if least ≤ xs.length ∧ rest.head? = some 0 then some xs.length else none := by
  have taken : (xs ++ rest).takeWhile isShown = xs := by
    rw [List.takeWhile_append_of_pos shown]
    cases rest with
    | nil => exact List.append_nil xs
    | cons b rest => rw [List.takeWhile_cons_of_neg (by simp [ends b rfl]), List.append_nil]
  have behind : (xs ++ rest)[xs.length]? = rest.head? := by
    rw [List.getElem?_append_right (Nat.le_refl _), Nat.sub_self, List.head?_eq_getElem?]
  rw [matchLength?, taken]
  by_cases long : least ≤ xs.length
  · obtain ⟨k, same⟩ := Nat.exists_eq_add_of_le long
    have sizes : xs.length + 1 - least = k + 1 := by omega
    rw [sizes, List.range'_concat, List.reverse_append, List.reverse_singleton,
      List.singleton_append, Nat.one_mul, ← same, List.find?_cons, behind]
    by_cases nul : rest.head? = some 0
    · rw [decide_eq_true nul, if_pos ⟨long, nul⟩]
    · rw [decide_eq_false nul, if_neg fun both => nul both.2]
      refine List.find?_eq_none.2 fun n member found => ?_
      rw [List.mem_reverse, List.mem_range'_1] at member
      have inside : n < xs.length := by omega
      rw [List.getElem?_append_left inside, List.getElem?_eq_getElem inside, decide_eq_true_iff,
        Option.some.injEq] at found
      have shows := shown _ (List.getElem_mem inside)
      rw [found] at shows
      exact absurd shows (by decide)
  · have sizes : xs.length + 1 - least = 0 := by omega
    rw [sizes, if_neg fun both => long both.1]
    rfl

include positive in
theorem matchesFrom_hidden (ends : isShown b = false) :
    matchesFrom least place (b :: rest) = matchesFrom least (place + 1) rest := by
  have none : matchLength? least ([] ++ b :: rest) = none := by
    rw [matchLength?_eq (List.forall_mem_nil _) (by rintro _ ⟨⟩; exact ends), if_neg]
    rintro ⟨long, -⟩
    exact absurd (Nat.le_trans positive long) (by decide)
  rw [List.nil_append] at none
  rw [matchesFrom, none]

include shown positive in
theorem matchesFrom_run (ends : isShown b = false) :
    matchesFrom least place (xs ++ b :: rest) =
      (if least ≤ xs.length ∧ b = 0 then [(place, xs)] else []) ++
        matchesFrom least (place + xs.length + 1) rest := by
  induction xs generalizing place with
  | nil =>
    rw [if_neg (fun both => absurd (Nat.le_trans positive both.1) (by decide))]
    exact matchesFrom_hidden positive ends
  | cons x xs ih =>
    obtain ⟨-, inner⟩ := List.forall_mem_cons.1 shown
    rw [List.cons_append, matchesFrom, ← List.cons_append,
      matchLength?_eq shown (by rintro _ ⟨⟩; exact ends)]
    simp only [List.head?_cons, Option.some.injEq]
    by_cases found : least ≤ (x :: xs).length ∧ b = 0
    · rw [if_pos found, if_pos found]
      dsimp only
      rw [List.take_left, List.length_cons, Nat.add_sub_cancel, List.drop_left,
        matchesFrom_hidden positive ends, Nat.add_right_comm place 1]
      rfl
    · rw [if_neg found, if_neg found]
      dsimp only
      rw [ih inner, if_neg, List.length_cons, Nat.add_right_comm place 1]
      · rfl
      · exact fun both => found ⟨Nat.le_succ_of_le both.1, both.2⟩

include shown in
theorem matchesFrom_last : matchesFrom least place xs = [] := by
  induction xs generalizing place with
  | nil => rw [matchesFrom]
  | cons x xs ih =>
    have none := @matchLength?_eq (x :: xs) [] least shown (by rintro _ ⟨⟩)
    rw [List.append_nil, if_neg (by rintro ⟨-, ⟨⟩⟩)] at none
    rw [matchesFrom, none]
    exact ih (List.forall_mem_cons.1 shown).2

end

theorem mem_matchesFrom_iff {least place start : Nat} {bs text : List UInt8}
    (positive : 1 ≤ least) :
    (start, text) ∈ matchesFrom least place bs ↔
      ∃ k, start = place + k ∧ Terminated bs k text ∧ least ≤ text.length := by
  induction bs using induction_on_runs generalizing place with
  | last xs shown => simp [matchesFrom_last shown, not_terminated shown]
  | hidden xs b rest shown ends ih =>
    rw [matchesFrom_run shown positive ends, List.mem_append, ih]
    simp only [terminated_append_iff shown ends]
    constructor
    · rintro (here | ⟨k, rfl, h, long⟩)
      · split at here
        · next found =>
          obtain ⟨rfl, rfl⟩ := Prod.mk.inj (List.mem_singleton.1 here)
          have nonempty := List.ne_nil_of_length_pos (Nat.le_trans positive found.1)
          exact ⟨0, rfl, .inl ⟨rfl, rfl, nonempty, found.2⟩, found.1⟩
        · cases here
      · exact ⟨_, by omega, .inr ⟨k, rfl, h⟩, long⟩
    · rintro ⟨k, rfl, ⟨rfl, rfl, nonempty, nul⟩ | ⟨j, rfl, h⟩, long⟩
      · refine .inl ?_
        rw [if_pos ⟨long, nul⟩]
        exact List.mem_singleton_self _
      · exact .inr ⟨j, by omega, h, long⟩

theorem matchesFrom_ascending {least place : Nat} (bs : List UInt8) (positive : 1 ≤ least) :
    (matchesFrom least place bs).Pairwise fun a b => a.1 < b.1 := by
  induction bs using induction_on_runs generalizing place with
  | last xs shown =>
    rw [matchesFrom_last shown]
    exact .nil
  | hidden xs b rest shown ends ih =>
    rw [matchesFrom_run shown positive ends]
    refine List.pairwise_append.2 ⟨?_, ih, fun first here later member => ?_⟩
    · split
      · exact List.pairwise_singleton _ _
      · exact .nil
    · obtain ⟨k, same, -⟩ := (mem_matchesFrom_iff positive).1 member
      split at here
      · rw [List.mem_singleton.1 here, same]
        dsimp only
        omega
      · cases here

theorem mem_printableRuns_iff {least start : Nat} {bs run : List UInt8} (positive : 1 ≤ least) :
    (start, run) ∈ printableRuns least bs ↔ Terminated bs start run ∧ least ≤ run.length := by
  simp only [printableRuns, mem_matchesFrom_iff positive, Nat.zero_add, exists_eq_left']

section
variable {α : Type} {R : α → α → Prop} (key : α → Nat)

theorem filter_mergeSort (l : List α) (k : Nat) :
    (l.mergeSort fun a b => key a ≤ key b).filter (key · = k) = l.filter (key · = k) := by
  have ties : (l.filter (key · = k)).Pairwise fun a b => decide (key a ≤ key b) = true := by
    refine List.pairwise_iff_forall_sublist.2 fun {a b} pair => ?_
    have keyed (c : α) (member : c ∈ [a, b]) : key c = k := by
      simpa using List.of_mem_filter (pair.subset member)
    have same := keyed a (by simp)
    have other := keyed b (by simp)
    exact decide_eq_true (by omega)
  have kept := List.sublist_mergeSort (by simp; omega) (by simp; omega) ties List.filter_sublist
  have within := kept.filter (key · = k)
  rw [List.filter_filter] at within
  simp only [Bool.and_self] at within
  exact (within.eq_of_length ((List.mergeSort_perm _ _).filter _).length_eq.symm).symm

theorem pairwise_mergeSort_ties {l : List α} (tied : l.Pairwise fun a b => key a = key b → R a b) :
    (l.mergeSort fun a b => key a ≤ key b).Pairwise fun a b =>
      key a < key b ∨ key a = key b ∧ R a b := by
  have sorted : (l.mergeSort fun a b => key a ≤ key b).Pairwise
      fun a b => decide (key a ≤ key b) = true :=
    List.pairwise_mergeSort (by simp; omega) (by simp; omega) l
  refine List.pairwise_iff_forall_sublist.2 fun {a b} pair => ?_
  have before := of_decide_eq_true (List.pairwise_iff_forall_sublist.1 sorted pair)
  rcases Nat.lt_or_eq_of_le before with less | same
  · exact .inl less
  · have both : [a, b].filter (key · = key b) = [a, b] := by simp [same]
    have among := pair.filter (key · = key b)
    rw [both, filter_mergeSort] at among
    have listed := among.trans List.filter_sublist
    exact .inr ⟨same, List.pairwise_iff_forall_sublist.1 tied listed same⟩

end

namespace Image

/-- A string of a section: the bytes of a run in it as characters, and where they stand. -/
structure IsFound (i : Image) (least : Nat) (t : Section) (start : Nat) (run : List UInt8)
    (s : FoundString) : Prop where
  filled : t.isZeroFill = false
  nonempty : t.size ≠ 0
  inside : t.fileOffset + t.size ≤ i.region.size
  ends : Terminated ((i.region.bytes.toList.drop t.fileOffset).take t.size) start run
  long : least ≤ run.length
  text : s.text.toList.map Char.toNat = run.map UInt8.toNat
  address : s.address = t.address + start
  fileOffset : s.fileOffset = t.fileOffset + start

def searchPlace (sectionName : String) : Nat :=
  (stringSections.map fun (segment, name) => s!"{segment},{name}").idxOf sectionName

section
variable {i : Image} {least : Nat} {segment name : String} {t : Section} {s : FoundString}
  (positive : 1 ≤ least)

theorem text_iff {text : String} {run : List UInt8} :
    text = String.ofList (run.map fun b => Char.ofNat b.toNat) ↔
      text.toList.map Char.toNat = run.map UInt8.toNat := by
  constructor
  · rintro rfl
    rw [String.toList_ofList, List.map_map]
    refine List.map_congr_left fun b member => ?_
    have small : b.toNat < 256 := b.toNat_lt
    have valid : b.toNat.isValidChar := .inl (by omega)
    rw [Function.comp_apply, Char.ofNat, dif_pos valid]
    rfl
  · intro same
    have back := congrArg (List.map Char.ofNat) same
    rw [List.map_map, List.map_map] at back
    rw [← String.ofList_toList (s := text), ← List.map_id text.toList]
    exact congrArg String.ofList
      ((List.map_congr_left fun c _ => (Char.ofNat_toNat c).symm).trans back)

theorem stringsIn_of_none (missing : i.sectionNamed? name segment = none) :
    i.stringsIn least segment name = [] := by
  rw [stringsIn, missing]

include positive in
theorem mem_stringsIn_iff (found : i.sectionNamed? name segment = some t) :
    s ∈ i.stringsIn least segment name ↔
      s.sectionName = s!"{segment},{name}" ∧ ∃ start run, IsFound i least t start run s := by
  rw [stringsIn, found]
  dsimp only
  cases filled : t.isZeroFill with
  | true =>
    rw [if_pos rfl]
    refine iff_of_false List.not_mem_nil ?_
    rintro ⟨-, start, run, h⟩
    rw [h.filled] at filled
    cases filled
  | false =>
    rw [if_neg Bool.false_ne_true]
    by_cases inside : t.fileOffset + t.size ≤ i.region.size
    · rw [read_of_le inside]
      dsimp only
      rw [toList_extract, List.mem_map]
      constructor
      · rintro ⟨⟨start, run⟩, member, rfl⟩
        obtain ⟨ends, long⟩ := (mem_printableRuns_iff positive).1 member
        have size : t.size ≠ 0 := by
          intro none
          rw [none, List.take_zero] at ends
          exact not_terminated (by simp) ends
        exact ⟨rfl, start, run, filled, size, inside, ends, long,
          text_iff.1 rfl, rfl, rfl⟩
      · rintro ⟨named, start, run, h⟩
        refine ⟨(start, run), (mem_printableRuns_iff positive).2 ⟨h.ends, h.long⟩, ?_⟩
        rw [← text_iff.2 h.text, ← h.address, ← h.fileOffset, ← named]
    · rw [read_of_lt (Nat.lt_of_not_le inside)]
      refine iff_of_false List.not_mem_nil ?_
      rintro ⟨-, start, run, h⟩
      exact inside h.inside

include positive in
theorem stringsIn_ascending (i : Image) (segment name : String) :
    (i.stringsIn least segment name).Pairwise fun a b => a.fileOffset < b.fileOffset := by
  rw [stringsIn]
  split
  · exact .nil
  · split
    · exact .nil
    · split
      · exact .nil
      · exact List.pairwise_map.2 ((matchesFrom_ascending _ positive).imp fun before =>
          Nat.add_lt_add_left before _)

include positive in
theorem sectionName_of_mem (member : s ∈ i.stringsIn least segment name) :
    s.sectionName = s!"{segment},{name}" := by
  cases found : i.sectionNamed? name segment with
  | none =>
    rw [stringsIn_of_none found] at member
    cases member
  | some t => exact ((mem_stringsIn_iff positive found).1 member).1

include positive in
theorem searched_in_order (i : Image) :
    (stringSections.flatMap fun (segment, name) => i.stringsIn least segment name).Pairwise
      fun a b => a.fileOffset = b.fileOffset →
        searchPlace a.sectionName < searchPlace b.sectionName := by
  have places : stringSections.Pairwise fun a b =>
      searchPlace s!"{a.1},{a.2}" < searchPlace s!"{b.1},{b.2}" := by decide +kernel
  refine List.pairwise_flatMap.2 ⟨fun a _ => ?_, places.imp fun before a left b right _ => ?_⟩
  · exact (stringsIn_ascending positive i a.1 a.2).imp fun before same =>
      absurd same (Nat.ne_of_lt before)
  · rwa [sectionName_of_mem positive left, sectionName_of_mem positive right]

end

/-- A scan for strings of a length that can be asked for finds the runs of the searched sections
that are long enough and end on a NUL, each as one string. They are in the order of the file, and at
one place of it in the order in which the sections are searched. -/
theorem strings_of_runs (i : Image) (least : Int) (positive : 1 ≤ least)
    (bounded : least < 0xFFFFFFFF) :
    ∃ found, i.strings least = .ok found ∧
      found.Pairwise (fun a b => a.fileOffset < b.fileOffset ∨ a.fileOffset = b.fileOffset ∧
        searchPlace a.sectionName < searchPlace b.sectionName) ∧
      ∀ s, s ∈ found ↔ ∃ segment name t start run, (segment, name) ∈ stringSections ∧
        i.sectionNamed? name segment = some t ∧ s.sectionName = s!"{segment},{name}" ∧
        IsFound i least.toNat t start run s := by
  have wanted : ¬ least < 1 := Int.not_lt.2 positive
  have within : ¬ (repetitionLimit : Int) ≤ least := Int.not_le.2 bounded
  have some : 1 ≤ least.toNat := by omega
  refine ⟨_, by rw [strings, if_neg wanted, if_neg within],
    pairwise_mergeSort_ties FoundString.fileOffset (searched_in_order some i), fun s => ?_⟩
  rw [List.mem_mergeSort, List.mem_flatMap]
  constructor
  · rintro ⟨⟨segment, name⟩, searched, member⟩
    cases found : i.sectionNamed? name segment with
    | none =>
      dsimp only at member
      rw [stringsIn_of_none found] at member
      cases member
    | some t =>
      obtain ⟨named, start, run, h⟩ := (mem_stringsIn_iff some found).1 member
      exact ⟨segment, name, t, start, run, searched, found, named, h⟩
  · rintro ⟨segment, name, t, start, run, searched, found, named, h⟩
    exact ⟨(segment, name), searched, (mem_stringsIn_iff some found).2 ⟨named, start, run, h⟩⟩

def overlapping : Image :=
  let part (segment name : String) (address : Nat) : LoadCommand :=
    let command : Placed SegmentCommand := ⟨{ (Record.decode #[] : SegmentCommand) with
      name := segment.toUTF8.toList, vmAddress := address, vmSize := 0x1000 }, 32⟩
    let header : SectionHeader := { (Record.decode #[] : SectionHeader) with
      name := name.toUTF8.toList, address, size := 8, fileOffset := 1 }
    .segment ⟨command, [⟨⟨header, 104⟩, command⟩]⟩
  { region := { bytes := #[0x7A, 7, 0x68, 0x69, 0, 0x78, 0, 0x6E, 0x6F] }, fileOffset := 0,
    header := ⟨Record.decode #[], 0⟩,
    commands := [part "__DATA" "__data" 0x100001000, part "__TEXT" "__cstring" 0x100000000],
    symbols := [] }

theorem strings_of_runs_overlapping : ∃ found, overlapping.strings 2 = .ok found ∧
    ⟨"hi", 0x100000001, 2, "__TEXT,__cstring"⟩ ∈ found ∧
    ⟨"hi", 0x100001001, 2, "__DATA,__data"⟩ ∈ found ∧ ∀ s ∈ found, s.text = "hi" := by
  obtain ⟨found, run, -, members⟩ := strings_of_runs overlapping 2 (by decide) (by decide)
  have bytes : (overlapping.region.bytes.toList.drop 1).take 8 =
      [7, 0x68, 0x69, 0, 0x78, 0, 0x6E, 0x6F] := rfl
  have ends : Terminated [7, 0x68, 0x69, 0, 0x78, 0, 0x6E, 0x6F] 1 [0x68, 0x69] :=
    ⟨by decide, List.all_eq_true.1 (by decide), by decide, by rintro b ⟨⟩; decide⟩
  have letters : "hi".toList.map Char.toNat = [0x68, 0x69].map UInt8.toNat := by decide
  have place : ∀ p ∈ stringSections, (overlapping.sectionNamed? p.2 p.1).all fun t =>
      (t.fileOffset, t.size) = (1, 8) := by decide +kernel
  have stands (segment name : String) (address : Nat) (searched : (segment, name) ∈ stringSections)
      (held : (overlapping.sectionNamed? name segment).any fun t =>
        (t.isZeroFill, t.address, t.fileOffset, t.size) = (false, address, 1, 8)) :
      ⟨"hi", address + 1, 2, s!"{segment},{name}"⟩ ∈ found := by
    obtain ⟨t, named, fields⟩ := (Option.any_eq_true _ _).1 held
    simp only [decide_eq_true_iff, Prod.mk.injEq] at fields
    obtain ⟨filled, rfl, offset, size⟩ := fields
    have length : overlapping.region.size = 9 := rfl
    refine (members _).2 ⟨segment, name, t, 1, [0x68, 0x69], searched, named, rfl, filled,
      by omega, by omega, ?_, by decide, letters, rfl, by rw [offset]⟩
    rwa [offset, size, bytes]
  refine ⟨found, run, stands "__TEXT" "__cstring" 0x100000000 (by decide) (by decide +kernel),
    stands "__DATA" "__data" 0x100001000 (by decide) (by decide +kernel), fun s member => ?_⟩
  obtain ⟨segment, name, t, start, text, searched, named, -, h⟩ := (members s).1 member
  have here := place _ searched
  rw [named, Option.all_some, decide_eq_true_iff, Prod.mk.injEq] at here
  have ends := h.ends
  rw [here.1, here.2, bytes] at ends
  have only := (mem_printableRuns_iff (by decide)).2 ⟨ends, h.long⟩
  rw [show printableRuns _ _ = [(1, [0x68, 0x69])] by cbv, List.mem_singleton] at only
  obtain ⟨-, rfl⟩ := Prod.mk.inj only
  exact text_iff.2 h.text

end Image
end MachImage

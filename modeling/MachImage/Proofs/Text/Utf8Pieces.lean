import MachImage.Text.Utf8
/-!
Decoding in pieces. The pieces decode to the same text as the whole exactly if no piece goes on with
a character that the bytes before it have left open; otherwise their text is longer, since the open
character and the bytes that go on with it become faults of their own.
-/
namespace MachImage.Utf8

/-- What the first byte of a character adds to the text, and whether it leaves one open. -/
def Lead.effect : Lead → List (Option Char) × Option Pending
  | .whole c => ([some c], none)
  | .starts p => ([], some p)
  | .never => ([none], none)

def push : Option Pending → UInt8 → List (Option Char) × Option Pending
  | none, b => (lead b).effect
  | some p, b =>
    if p.low ≤ b ∧ b ≤ p.high then
      let bits := p.bits * 64 + b.toNat % 64
      match p.more with
      | 0 => ([some (Char.ofNat bits)], none)
      | more + 1 => ([], some ⟨bits, 0x80, 0xBF, more⟩)
    else (none :: (lead b).effect.1, (lead b).effect.2)

def feed (p : Option Pending) : List UInt8 → List (Option Char) × Option Pending
  | [] => ([], p)
  | b :: bs =>
    let first := push p b
    let rest := feed first.2 bs
    (first.1 ++ rest.1, rest.2)

def leftover : Option Pending → List (Option Char)
  | none => []
  | some _ => [none]

theorem scanFrom_cons (p : Option Pending) (b : UInt8) (bs : List UInt8) :
    scanFrom p (b :: bs) = (push p b).1 ++ scanFrom (push p b).2 bs := by
  have fresh : scanFrom none (b :: bs) = (push none b).1 ++ scanFrom (push none b).2 bs := by
    rw [scanFrom, push]
    cases lead b <;> rfl
  cases p with
  | none => exact fresh
  | some p =>
    by_cases inside : p.low ≤ b ∧ b ≤ p.high
    · rw [scanFrom, push, if_pos inside, if_pos inside]
      cases p.more <;> rfl
    · rw [scanFrom_fault p b bs inside, push, if_neg inside, fresh]
      rfl

theorem scanFrom_append (p : Option Pending) (first last : List UInt8) :
    scanFrom p (first ++ last) = (feed p first).1 ++ scanFrom (feed p first).2 last := by
  induction first generalizing p with
  | nil => rfl
  | cons b bs ih => rw [List.cons_append, scanFrom_cons, ih, feed, List.append_assoc]

theorem scanFrom_eq (p : Option Pending) (bs : List UInt8) :
    scanFrom p bs = (feed p bs).1 ++ leftover (feed p bs).2 := by
  have whole := scanFrom_append p bs []
  rw [List.append_nil] at whole
  rw [whole]
  cases (feed p bs).2 <;> rfl

structure Pending.Sound (p : Pending) : Prop where
  low : 0x80 ≤ p.low
  high : p.high ≤ 0xBF

theorem sound_of_bounds (bits more : Nat) {low high : UInt8} (bounds : 0x80 ≤ low ∧ high ≤ 0xBF) :
    Pending.Sound ⟨bits, low, high, more⟩ :=
  ⟨bounds.1, bounds.2⟩

theorem plain_sound (bits more : Nat) : Pending.Sound ⟨bits, 0x80, 0xBF, more⟩ :=
  sound_of_bounds bits more (by decide)

theorem lead_sound {b : UInt8} {p : Pending} (h : lead b = .starts p) : p.Sound := by
  unfold lead at h
  dsimp only at h
  repeat' split at h
  all_goals first
    | exact Lead.noConfusion h
    | (rw [← Lead.starts.inj h]; exact sound_of_bounds _ _ (by decide))

theorem push_sound {p : Option Pending} {b : UInt8} :
    ∀ q, (push p b).2 = some q → q.Sound := by
  have fresh : ∀ q, (lead b).effect.2 = some q → q.Sound := by
    intro q after
    cases h : lead b <;> rw [h] at after <;> cases after
    exact lead_sound h
  cases p with
  | none => exact fresh
  | some p =>
    intro q after
    rw [push] at after
    split at after
    · cases h : p.more <;> rw [h] at after <;> cases after
      exact plain_sound _ _
    · exact fresh q after

theorem feed_sound {p : Option Pending} {bs : List UInt8} {q : Pending}
    (sound : ∀ q, p = some q → q.Sound) (after : (feed p bs).2 = some q) : q.Sound := by
  induction bs generalizing p with
  | nil => exact sound q after
  | cons b bs ih => exact ih push_sound after

theorem open_sound {bs : List UInt8} {q : Pending} (after : (feed none bs).2 = some q) : q.Sound :=
  feed_sound (p := none) nofun after

theorem lead_inner {b : UInt8} (above : 0x80 ≤ b) (below : b ≤ 0xBF) : lead b = .never := by
  have low : 0x80 ≤ b.toNat := above
  have high : b.toNat ≤ 0xBF := below
  simp only [lead]
  rw [if_neg (by omega), if_pos (by omega)]

theorem scanFrom_stray {p : Pending} {b : UInt8} (sound : p.Sound) (bs : List UInt8)
    (inside : p.low ≤ b ∧ b ≤ p.high) : scanFrom none (b :: bs) = none :: scanFrom none bs := by
  rw [scanFrom, lead_inner (UInt8.le_trans sound.low inside.1) (UInt8.le_trans inside.2 sound.high)]

theorem scanFrom_open_le {p : Pending} (sound : p.Sound) (bs : List UInt8) :
    (scanFrom (some p) bs).length ≤ (scanFrom none bs).length + 1 := by
  induction bs generalizing p with
  | nil => exact Nat.le_refl _
  | cons b bs ih =>
    by_cases inside : p.low ≤ b ∧ b ≤ p.high
    · rw [scanFrom_stray sound bs inside, scanFrom, if_pos inside, List.length_cons]
      cases p.more with
      | zero => exact Nat.le_succ _
      | succ more =>
        exact Nat.le_succ_of_le (ih (plain_sound _ more))
    · exact Nat.le_of_eq (by rw [scanFrom_fault p b bs inside, List.length_cons])

/-- The piece goes on with a character that the bytes before it leave open. -/
def Continues (before piece : List UInt8) : Prop :=
  ∃ p b bs, (feed none before).2 = some p ∧ piece = b :: bs ∧ p.low ≤ b ∧ b ≤ p.high

section
variable {before piece : List UInt8} {later : List (List UInt8)}

theorem Continues.decode? (h : Continues before piece) : decode? piece = none := by
  obtain ⟨p, b, bs, after, rfl, inside⟩ := h
  have sound := open_sound after
  rw [Utf8.decode?, scan, scanFrom_stray sound bs inside, List.all_cons]
  exact if_neg Bool.false_ne_true

theorem scan_append (separate : ¬ Continues before piece) :
    scan (before ++ piece) = scan before ++ scan piece := by
  rw [scan, scan, scanFrom_append, scanFrom_eq none before, List.append_assoc, scan]
  congr 1
  cases after : (feed none before).2 with
  | none => rfl
  | some p =>
    cases piece with
    | nil => rfl
    | cons b bs =>
      exact scanFrom_fault p b bs fun inside => separate ⟨p, b, bs, after, rfl, inside⟩

theorem scan_append_lt (h : Continues before piece) :
    (scan (before ++ piece)).length < (scan before ++ scan piece).length := by
  obtain ⟨p, b, bs, after, rfl, inside⟩ := h
  have sound := open_sound after
  have closer : (scanFrom (some p) (b :: bs)).length ≤ (scanFrom none bs).length + 1 := by
    rw [scanFrom, if_pos inside]
    cases p.more with
    | zero => exact Nat.le_refl _
    | succ more => exact scanFrom_open_le (plain_sound _ more) bs
  rw [scan, scan, scan, scanFrom_append, scanFrom_eq none before, after,
    scanFrom_stray sound bs inside]
  simp only [leftover, List.length_append, List.length_cons, List.length_nil]
  omega

/-- No piece goes on with a character that the bytes before it leave open. -/
def Whole (before : List UInt8) : List (List UInt8) → Prop
  | [] => True
  | piece :: later => ¬ Continues before piece ∧ Whole (before ++ piece) later

theorem whole_of_text (texts : ∀ piece ∈ later, decode? piece ≠ none) : Whole before later := by
  induction later generalizing before with
  | nil => trivial
  | cons piece later ih =>
    obtain ⟨here, texts⟩ := List.forall_mem_cons.1 texts
    exact ⟨fun goesOn => here goesOn.decode?, ih texts⟩

theorem Whole.scan_flatten (h : Whole before later) :
    scan (before ++ later.flatten) = scan before ++ later.flatMap scan := by
  induction later generalizing before with
  | nil => rw [List.flatten_nil, List.append_nil, List.flatMap_nil, List.append_nil]
  | cons piece later ih =>
    rw [List.flatten_cons, ← List.append_assoc, ih h.2, scan_append h.1, List.append_assoc,
      List.flatMap_cons]

theorem scan_append_le (before piece : List UInt8) :
    (scan (before ++ piece)).length ≤ (scan before ++ scan piece).length := by
  by_cases goesOn : Continues before piece
  · exact Nat.le_of_lt (scan_append_lt goesOn)
  · exact Nat.le_of_eq (congrArg _ (scan_append goesOn))

theorem scan_flatten_le (before : List UInt8) (later : List (List UInt8)) :
    (scan (before ++ later.flatten)).length ≤ (scan before ++ later.flatMap scan).length := by
  induction later generalizing before with
  | nil => exact Nat.le_of_eq (by rw [List.flatten_nil, List.flatMap_nil, List.append_nil,
      List.append_nil])
  | cons piece later ih =>
    have first := scan_append_le before piece
    have rest := ih (before ++ piece)
    rw [List.flatten_cons, ← List.append_assoc, List.flatMap_cons]
    simp only [List.length_append] at first rest ⊢
    omega

theorem scan_flatten_lt (h : ¬ Whole before later) :
    (scan (before ++ later.flatten)).length < (scan before ++ later.flatMap scan).length := by
  induction later generalizing before with
  | nil => exact absurd trivial h
  | cons piece later ih =>
    have first := scan_append_le before piece
    have rest := scan_flatten_le (before ++ piece) later
    rw [List.flatten_cons, ← List.append_assoc, List.flatMap_cons]
    by_cases goesOn : Continues before piece
    · have first := scan_append_lt goesOn
      simp only [List.length_append] at first rest ⊢
      omega
    · have rest := ih fun whole => h ⟨goesOn, whole⟩
      simp only [List.length_append] at first rest ⊢
      omega

end

def spell (pieces : List (List UInt8)) : String := String.join (pieces.map decode)

theorem toList_decode (bs : List UInt8) :
    (decode bs).toList = (scan bs).map (·.getD '\uFFFD') :=
  String.toList_ofList

theorem spell_cons (piece : List UInt8) (later : List (List UInt8)) :
    spell (piece :: later) = decode piece ++ spell later := by
  rw [spell, List.map_cons, String.join_cons, spell]

theorem spell_singleton (piece : List UInt8) : spell [piece] = decode piece := by
  simp [spell, String.join_cons]

theorem spell_append (first last : List (List UInt8)) :
    spell (first ++ last) = spell first ++ spell last := by
  rw [spell, List.map_append, String.join_append, spell, spell]

theorem toList_spell (pieces : List (List UInt8)) :
    (spell pieces).toList = (pieces.flatMap scan).map (·.getD '\uFFFD') := by
  induction pieces with
  | nil => rfl
  | cons piece later ih =>
    rw [spell_cons, String.toList_append, toList_decode, ih, List.flatMap_cons, List.map_append]

theorem scanFrom_open_ne_nil (p : Pending) (bs : List UInt8) : scanFrom (some p) bs ≠ [] := by
  induction bs generalizing p with
  | nil => exact List.cons_ne_nil _ _
  | cons b bs ih =>
    by_cases inside : p.low ≤ b ∧ b ≤ p.high
    · rw [scanFrom, if_pos inside]
      cases p.more with
      | zero => exact List.cons_ne_nil _ _
      | succ more => exact ih _
    · rw [scanFrom_fault p b bs inside]
      exact List.cons_ne_nil _ _

theorem scan_eq_nil_iff {bs : List UInt8} : scan bs = [] ↔ bs = [] := by
  constructor
  · intro empty
    cases bs with
    | nil => rfl
    | cons b bs =>
      rw [scan, scanFrom] at empty
      cases h : lead b <;> rw [h] at empty
      · cases empty
      · exact absurd empty (scanFrom_open_ne_nil _ _)
      · cases empty
  · intro empty
    rw [empty, scan_nil]

theorem spell_eq_empty_iff {pieces : List (List UInt8)} :
    spell pieces = "" ↔ pieces.flatten = [] := by
  rw [← String.toList_inj, toList_spell, String.toList_empty, List.map_eq_nil_iff,
    List.flatMap_eq_nil_iff, List.flatten_eq_nil_iff]
  exact forall₂_congr fun _ _ => scan_eq_nil_iff

/-- Pieces decode to the text of the whole exactly if the cuts open no character. -/
theorem spell_eq_decode_iff (pieces : List (List UInt8)) :
    spell pieces = decode pieces.flatten ↔ Whole [] pieces := by
  constructor
  · intro same
    apply Classical.byContradiction
    intro cut
    have fewer := scan_flatten_lt cut
    have lengths := congrArg (·.toList.length) same
    simp only [toList_spell, toList_decode, List.length_map] at lengths
    rw [scan_nil, List.nil_append, List.nil_append, lengths] at fewer
    exact Nat.lt_irrefl _ fewer
  · intro whole
    have scans := whole.scan_flatten
    rw [← String.toList_inj, toList_spell, toList_decode]
    exact congrArg _ scans.symm

end MachImage.Utf8

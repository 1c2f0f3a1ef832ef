import Mathlib.Data.List.Basic
import MachImage.Address
import MachImage.SwiftType
import MachImage.Proofs.Image.TameReads
import MachImage.Proofs.Objc.EntriesApart
/-!
What one entry of the list of nominal types tells. The way to its descriptor, the kind of the type
and its two names are relations over what can be read of the image; the tag and the offset of an
entry are the bits that two masks leave of a signed word. The types of an image are what its entries
tell, in order and one by one, and damage of the image never stops the extraction.
-/
namespace MachImage

theorem commonBits_three (w : Int) : commonBits w 3 = w % 4 := by
  cases w with
  | ofNat n =>
    have low : n &&& 3 = n % 4 := Nat.and_two_pow_sub_one_eq_mod n 2
    change Int.ofNat (n &&& 3) = _
    rw [low]
    rfl
  | negSucc n =>
    have low : 3 &&& n = n % 4 := by
      rw [Nat.and_comm]
      exact Nat.and_two_pow_sub_one_eq_mod n 2
    change Int.ofNat (3 - (3 &&& n)) = _
    rw [low, Int.negSucc_eq, Int.ofNat_eq_natCast]
    omega

theorem or_three (n : Nat) : n ||| 3 = 4 * (n / 4) + 3 := by
  have high : ∀ r, r < 4 → 4 * (n / 4) + r = 4 * (n / 4) ||| r := fun r below =>
    @Nat.two_pow_add_eq_or_of_lt 2 r below (n / 4)
  have low : ∀ r, r < 4 → r ||| 3 = 3 := by decide
  have split : n = 4 * (n / 4) ||| n % 4 := by
    rw [← high (n % 4) (Nat.mod_lt n (by decide))]
    exact (Nat.div_add_mod n 4).symm
  calc n ||| 3 = 4 * (n / 4) ||| (n % 4 ||| 3) := by
        conv_lhs => rw [split]
        rw [Nat.or_assoc]
    _ = 4 * (n / 4) + 3 := by
        rw [low _ (Nat.mod_lt n (by decide)), ← high 3 (by decide)]

theorem commonBits_notThree (w : Int) : commonBits w (-4) = w - w % 4 := by
  cases w with
  | ofNat n =>
    have low : n &&& 3 = n % 4 := Nat.and_two_pow_sub_one_eq_mod n 2
    change Int.ofNat (n - (n &&& 3)) = _
    rw [low, Int.ofNat_eq_natCast, Int.ofNat_eq_natCast]
    omega
  | negSucc n =>
    change Int.negSucc (n ||| 3) = _
    rw [or_three, Int.negSucc_eq, Int.negSucc_eq]
    omega

def NominalKind.code : NominalKind → Nat
  | .classType => 16
  | .structType => 17
  | .enumType => 18

namespace SwiftType
open Image

/-- The way from an entry to a descriptor: by the offset, or over the pointer that lies there. -/
inductive Leads (i : Image) (entry word : Int) : Int → Prop
  | direct (notNull : commonBits word (-4) ≠ 0) (plain : commonBits word 3 ≠ 1) :
      Leads i entry word (entry + commonBits word (-4))
  | overPointer {p : Nat} (notNull : commonBits word (-4) ≠ 0) (tagged : commonBits word 3 = 1)
      (held : i.pointerAt (entry + commonBits word (-4)) = .ok p) : Leads i entry word p

inductive Named (i : Image) (demangler : Demangler) (kind : NominalKind) (descriptor offset : Int) :
    (stored shown : String) → Prop
  | anonymous (null : offset = 0) : Named i demangler kind descriptor offset
      s!"<{kind.capitalized}_Anonymous>" s!"<{kind.capitalized}_Anonymous>"
  | readable {name : String} (notNull : offset ≠ 0)
      (read : i.stringAt (descriptor + 8 + offset) = .ok name) :
      Named i demangler kind descriptor offset name (demangler.shown name)
  | unreadable {e : Fault} (notNull : offset ≠ 0)
      (refused : i.stringAt (descriptor + 8 + offset) = .error e) :
      Named i demangler kind descriptor offset
        s!"<{kind.capitalized}_NameReadError>" s!"<{kind.capitalized}_NameReadError>"

/-- What a type is to its readers. -/
structure Described where
  kind : NominalKind
  stored : String
  shown : String
  address : Int
  deriving DecidableEq

def described (demangler : Demangler) (t : SwiftType) : Described :=
  { kind := t.kind, stored := t.rawName, shown := t.shownName demangler, address := t.address }

inductive At (i : Image) (demangler : Demangler) (entry word : Int) : Described → Prop
  | intro {address : Int} {d : Placed TypeDescriptor} {kind : NominalKind} {stored shown : String}
      (leads : Leads i entry word address)
      (descriptor : i.recordAt TypeDescriptor address = .ok d)
      (nominal : d.value.flags &&& 0x1F = kind.code)
      (named : Named i demangler kind address d.value.name stored shown) :
      At i demangler entry word { kind, stored, shown, address }

section
variable {i : Image} {demangler : Demangler} {entry word address : Int}

theorem descriptorOf_iff : descriptorOf i entry word = .ok (some address) ↔
    Leads i entry word address := by
  have tag := commonBits_three word
  have offset := commonBits_notThree word
  unfold descriptorOf
  dsimp only
  rw [← offset, ← tag]
  constructor
  · intro run
    split at run
    · cases run
    · next notNull =>
      split at run
      · next tagged =>
        cases held : i.pointerAt (entry + commonBits word (-4)) with
        | error e =>
          rw [held] at run
          cases run
        | ok p =>
          rw [held] at run
          cases run
          exact .overPointer notNull tagged held
      · next plain =>
        cases run
        exact .direct notNull plain
  · intro leads
    cases leads with
    | direct notNull plain => rw [if_neg notNull, if_neg plain]
    | overPointer notNull tagged held =>
      rw [if_neg notNull, if_pos tagged, held]
      rfl

theorem ofFlags?_iff {flags : Nat} {kind : NominalKind} :
    NominalKind.ofFlags? flags = some kind ↔ flags &&& 0x1F = kind.code := by
  have low : flags &&& 0x1F = flags % 32 := Nat.and_two_pow_sub_one_eq_mod flags 5
  rw [low, NominalKind.ofFlags?]
  constructor
  · intro found
    split at found <;> cases found <;> assumption
  · intro nominal
    rw [nominal]
    cases kind <;> rfl

theorem named_iff {kind : NominalKind} {offset : Int} {stored shown : String} :
    Named i demangler kind address offset stored shown ↔
      let t : SwiftType := { kind, name := nameOf i address offset, address }
      t.rawName = stored ∧ t.shownName demangler = shown := by
  dsimp only [nameOf]
  constructor
  · intro named
    cases named with
    | anonymous null =>
      rw [if_pos null]
      exact ⟨rfl, rfl⟩
    | readable notNull read =>
      rw [if_neg notNull, read]
      exact ⟨rfl, rfl⟩
    | unreadable notNull refused =>
      rw [if_neg notNull, refused]
      exact ⟨rfl, rfl⟩
  · rintro ⟨rfl, rfl⟩
    split
    · next null => exact .anonymous null
    · next notNull =>
      cases read : i.stringAt (address + 8 + offset) with
      | ok name => exact .readable notNull read
      | error e => exact .unreadable notNull read

theorem ofEntry?_iff {t : Described} :
    (∃ found, ofEntry? i entry word = some found ∧ described demangler found = t) ↔
      At i demangler entry word t := by
  constructor
  · rintro ⟨found, run, rfl⟩
    unfold ofEntry? at run
    split at run
    · next address reached =>
      rw [Option.join_eq_some_iff, toOption_eq_some_iff] at run
      obtain ⟨d, descriptor, run⟩ := of_bind_ok run
      obtain ⟨kind, nominal, rfl⟩ := Option.map_eq_some_iff.1 (Except.ok.inj run)
      exact .intro (descriptorOf_iff.1 reached) descriptor (ofFlags?_iff.1 nominal)
        (named_iff.2 ⟨rfl, rfl⟩)
    · cases run
    · cases run
  · intro told
    cases told with
    | @intro address d kind stored shown leads descriptor nominal named =>
      obtain ⟨rfl, rfl⟩ := named_iff.1 named
      refine ⟨{ kind, name := nameOf i address d.value.name, address }, ?_, rfl⟩
      unfold ofEntry?
      rw [descriptorOf_iff.2 leads]
      dsimp only
      rw [Option.join_eq_some_iff, toOption_eq_some_iff, ofDescriptor, descriptor, ok_bind]
      dsimp only
      rw [ofFlags?_iff.2 nominal]
      rfl

end

def readName (i : Image) (descriptor offset : Int) : Except Fault NominalName :=
  if offset = 0 then .ok .anonymous
  else do
    match ← attempt (i.stringAt (descriptor + 8 + offset)) with
    | some name => return .mangled name
    | none => return .unreadable

def readDescriptor (i : Image) (address : Int) : Except Fault (Option SwiftType) := do
  let d := (← i.recordAt TypeDescriptor address).value
  match NominalKind.ofFlags? d.flags with
  | some kind => return some { kind, name := ← readName i address d.name, address }
  | none => return none

def readEntry (i : Image) (s : Section) (contents : Region) (k : Nat) :
    Except Fault (Option SwiftType) := do
  let word ← contents.word ((4 * k : Nat) : Int) .i32
  match ← descriptorOf i (s.address + 4 * k) word with
  | some address => readDescriptor i address
  | none => return none

/-- The extraction, with every fault that damaged input does not explain passed on. -/
def extract (i : Image) : Except Fault (List SwiftType) :=
  match i.sectionNamed? typesSection "__TEXT" with
  | none => .ok []
  | some s => do
    match ← attempt (i.region.slice s.fileOffset s.size) with
    | some contents => gather (readEntry i s contents) (List.range (contents.size / 4))
    | none => return []

section
variable {i : Image} {s : Section} {contents : Region}

theorem readName_eq (descriptor offset : Int) :
    readName i descriptor offset = .ok (nameOf i descriptor offset) := by
  unfold readName nameOf
  split
  · rfl
  · rw [attempt_of_tame (stringAt_tame i _)]
    cases i.stringAt (descriptor + 8 + offset) <;> rfl

theorem readDescriptor_eq (address : Int) : readDescriptor i address = ofDescriptor i address := by
  unfold readDescriptor ofDescriptor
  cases i.recordAt TypeDescriptor address with
  | error e => rfl
  | ok d =>
    rw [ok_bind, ok_bind]
    dsimp only
    cases NominalKind.ofFlags? d.value.flags with
    | none => rfl
    | some kind =>
      dsimp only
      rw [readName_eq]
      rfl

theorem descriptorOf_tame (entry word : Int) : Tame (descriptorOf i entry word) := by
  unfold descriptorOf
  dsimp only
  split
  · exact tame_ok _
  · split
    · exact ((pointerAt_tame i _).bind fun _ _ => tame_ok _).map _
    · exact tame_ok _

theorem ofDescriptor_tame (address : Int) : Tame (ofDescriptor i address) :=
  (recordAt_tame TypeDescriptor i address).bind fun _ _ => tame_ok _

theorem readEntry_tame (k : Nat) : Tame (readEntry i s contents k) := by
  apply (word_tame contents _ .i32).bind
  intro word _
  apply (descriptorOf_tame _ word).bind
  intro found _
  cases found with
  | none => exact tame_ok _
  | some address =>
    dsimp only
    rw [readDescriptor_eq]
    exact ofDescriptor_tame address

theorem word_of_le {r : Region} {o : Nat} (inside : o + 4 ≤ r.size) :
    r.word o .i32 = .ok (Record.i32 r.bytes o) := by
  have read := @read_of_le r o 4 inside
  rw [Region.word]
  exact congrArg (Except.map _) read

theorem readEntry_found {k : Nat} (below : k < contents.size / 4) :
    (readEntry i s contents k).toOption.join =
      ofEntry? i (s.address + 4 * k) (Record.i32 contents.bytes (4 * k)) := by
  rw [readEntry, word_of_le (by omega), ok_bind, ofEntry?]
  cases descriptorOf i (s.address + 4 * k) (Record.i32 contents.bytes (4 * k)) with
  | error e => rfl
  | ok found =>
    cases found with
    | none => rfl
    | some address =>
      rw [ok_bind]
      dsimp only
      rw [readDescriptor_eq]

theorem ofImage_of_slice (found : i.sectionNamed? typesSection "__TEXT" = some s)
    (cut : i.region.slice s.fileOffset s.size = .ok contents) :
    ofImage i = (List.range (contents.size / 4)).filterMap fun (k : Nat) =>
      ofEntry? i (s.address + 4 * k) (Record.i32 contents.bytes (4 * k)) := by
  obtain ⟨bs, read, rfl⟩ : ∃ bs, i.region.read s.fileOffset s.size = .ok bs ∧
      contents = { bytes := bs, base := i.region.base + s.fileOffset } := by
    rw [Region.slice] at cut
    cases read : i.region.read s.fileOffset s.size with
    | error e =>
      rw [read] at cut
      cases cut
    | ok bs =>
      rw [read] at cut
      cases cut
      exact ⟨bs, rfl, rfl⟩
  rw [ofImage, found]
  dsimp only
  rw [read]
  dsimp only [words]
  have indexed : ((List.range (bs.size / 4)).map fun k => Record.i32 bs (4 * k)).mapIdx
      (fun k w => ofEntry? i (s.address + 4 * k) w) =
      (List.range (bs.size / 4)).map fun (k : Nat) =>
        ofEntry? i (s.address + 4 * k) (Record.i32 bs (4 * k)) := by
    apply List.ext_getElem
    · simp
    · intro k _ _
      simp
  rw [indexed, List.filterMap_map]
  rfl

theorem ofImage_of_error (found : i.sectionNamed? typesSection "__TEXT" = some s) {e : Fault}
    (refused : i.region.slice s.fileOffset s.size = .error e) : ofImage i = [] := by
  rw [ofImage, found]
  dsimp only
  rw [Region.slice] at refused
  cases read : i.region.read s.fileOffset s.size with
  | error e => rfl
  | ok bs =>
    rw [read] at refused
    cases refused

theorem extract_eq (i : Image) : extract i = .ok (ofImage i) := by
  unfold extract
  cases found : i.sectionNamed? typesSection "__TEXT" with
  | none => rw [ofImage, found]
  | some s =>
    dsimp only
    rw [attempt_of_tame (slice_tame ..), ok_bind]
    cases cut : i.region.slice s.fileOffset s.size with
    | error e =>
      rw [ofImage_of_error found cut]
      rfl
    | ok contents =>
      rw [ofImage_of_slice found cut]
      dsimp only [Except.toOption]
      rw [gather_of_tame fun k _ => readEntry_tame k, Except.ok.injEq]
      apply List.filterMap_congr
      intro k member
      exact readEntry_found (List.mem_range.1 member)

end

/-- What the entry `k` of a section tells. -/
def EntryOf (i : Image) (demangler : Demangler) (s : Section) (k : Nat) (t : Described) : Prop :=
  ∃ word, i.region.word (s.fileOffset + 4 * k : Nat) .i32 = .ok word ∧
    At i demangler (s.address + 4 * k) word t

def typeAt? (i : Image) (s : Section) (k : Nat) : Option SwiftType := do
  let word ← (i.region.word (s.fileOffset + 4 * k : Nat) .i32).toOption
  ofEntry? i (s.address + 4 * k) word

section
variable {i : Image} {demangler : Demangler} {s : Section}

theorem exists_described {entry word address : Int} {d : Placed TypeDescriptor} {kind : NominalKind}
    (leads : Leads i entry word address) (descriptor : i.recordAt TypeDescriptor address = .ok d)
    (nominal : d.value.flags &&& 0x1F = kind.code) : ∃! t, At i demangler entry word t := by
  have told : At i demangler entry word _ :=
    .intro leads descriptor nominal (named_iff.2 ⟨rfl, rfl⟩)
  refine ⟨_, told, fun t other => ?_⟩
  obtain ⟨found, run, rfl⟩ := ofEntry?_iff.2 other
  obtain ⟨same, again, shows⟩ := ofEntry?_iff.2 told
  rw [run] at again
  obtain rfl := Option.some.inj again
  exact shows

theorem entryOf_iff {k : Nat} {t : Described} :
    (typeAt? i s k).map (described demangler) = some t ↔ EntryOf i demangler s k t := by
  rw [Option.map_eq_some_iff]
  constructor
  · rintro ⟨found, run, rfl⟩
    obtain ⟨word, read, entry⟩ := Option.bind_eq_some_iff.1 run
    exact ⟨word, of_toOption_some read, ofEntry?_iff.1 ⟨found, entry, rfl⟩⟩
  · rintro ⟨word, read, told⟩
    obtain ⟨found, entry, shows⟩ := ofEntry?_iff.2 told
    refine ⟨found, ?_, shows⟩
    rw [typeAt?, read]
    exact entry

theorem ofImage_of_le (found : i.sectionNamed? typesSection "__TEXT" = some s)
    (inside : s.fileOffset + s.size ≤ i.region.size) :
    ofImage i = (List.range (s.size / 4)).filterMap (typeAt? i s) := by
  obtain ⟨contents, cut⟩ : ∃ contents, i.region.slice s.fileOffset s.size = .ok contents :=
    ⟨_, slice_of_le inside⟩
  have size : contents.size = s.size := Int.ofNat_inj.1 (Region.size_of_slice cut)
  rw [ofImage_of_slice found cut, size]
  apply List.filterMap_congr
  intro k member
  have below := List.mem_range.1 member
  have word := (Region.Reads.word .i32).of_slice cut (o := (4 * k : Nat))
    ⟨by omega, by decide, by change _ + (4 : Int) ≤ _; omega⟩
  rw [word_of_le (by omega)] at word
  rw [typeAt?, Int.natCast_add, ← word]
  rfl

theorem ofImage_collected (found : i.sectionNamed? typesSection "__TEXT" = some s)
    (inside : s.fileOffset + s.size ≤ i.region.size) {ts : List Described} :
    Objc.Collected (EntryOf i demangler s) 0 (s.size / 4) ts ↔
      (ofImage i).map (described demangler) = ts := by
  rw [Objc.collected_iff fun k t => entryOf_iff, ofImage_of_le found inside, List.map_filterMap]

end

/-- Extraction never fails. The types of a section in the slice are what its entries tell, in order
and one by one, where an entry that leads to the descriptor of a nominal type tells of one type.
Without such a section there are no types. -/
theorem types_of_entries (i : Image) (demangler : Demangler) :
    extract i = .ok (ofImage i) ∧
    (∀ s, i.sectionNamed? typesSection "__TEXT" = some s →
      s.fileOffset + s.size ≤ i.region.size → ∀ ts,
      Objc.Collected (EntryOf i demangler s) 0 (s.size / 4) ts ↔
        (ofImage i).map (described demangler) = ts) ∧
    (∀ entry word address d (kind : NominalKind), Leads i entry word address →
      i.recordAt TypeDescriptor address = .ok d → d.value.flags &&& 0x1F = kind.code →
      ∃! t, At i demangler entry word t) ∧
    (i.sectionNamed? typesSection "__TEXT" = none → ofImage i = []) ∧
    ∀ s, i.sectionNamed? typesSection "__TEXT" = some s →
      i.region.size < s.fileOffset + s.size → ofImage i = [] := by
  refine ⟨extract_eq i, fun s found inside ts => ofImage_collected found inside,
    fun entry word address d kind => exists_described, ?_, ?_⟩
  · intro missing
    rw [ofImage, missing]
  · intro s found outside
    exact ofImage_of_error found (slice_of_lt outside)

def halfBytes (n : Int) : List UInt8 := (Objc.wordBytes (n % 0x100000000).toNat).take 4

def nominal : Image :=
  let bytes := Objc.wordBytes 0x10000001C ++
    [16, 0, 0x34, 0, 0, 0x51, 0, 0, 0, 0, 18, 0, 0x1000, 0, 0, 0x41,
      0, -0x44, -0x4F, -0x22, 0x1000].flatMap halfBytes ++ [9, 9]
  let segment : Placed SegmentCommand := ⟨{ (Record.decode #[] : SegmentCommand) with
    name := "__TEXT".toUTF8.toList, vmAddress := defaultVirtualBase, vmSize := bytes.length,
    fileSize := bytes.length }, 32⟩
  let header : SectionHeader := { (Record.decode #[] : SectionHeader) with
    name := typesSection.toUTF8.toList, address := defaultVirtualBase + 0x48, size := 22,
    fileOffset := 0x48 }
  { region := { bytes := bytes.toArray }, fileOffset := 0, header := ⟨Record.decode #[], 0⟩,
    commands := [.segment ⟨segment, [⟨⟨header, 104⟩, segment⟩]⟩], symbols := [] }

theorem types_of_entries_nominal : ∃ s, nominal.sectionNamed? typesSection "__TEXT" = some s ∧
    s.fileOffset + s.size ≤ nominal.region.size ∧ extract nominal = .ok (ofImage nominal) ∧
    Objc.Collected (EntryOf nominal (some fun name => name ++ "!") s) 0 5
      [⟨.classType, "A", "A!", 0x100000008⟩,
        ⟨.structType, "<Struct_Anonymous>", "<Struct_Anonymous>", 0x10000001C⟩,
        ⟨.enumType, "<Enum_NameReadError>", "<Enum_NameReadError>", 0x100000030⟩] := by
  obtain ⟨run, collected, -⟩ := types_of_entries nominal (some fun name => name ++ "!")
  have place : (nominal.sectionNamed? typesSection "__TEXT").map
      (fun s => (s.fileOffset, s.size)) = some (0x48, 22) := by decide +kernel
  have long : nominal.region.size = 94 := by decide +kernel
  have told : (ofImage nominal).map (described (some fun name => name ++ "!")) =
      [⟨.classType, "A", "A!", 0x100000008⟩,
        ⟨.structType, "<Struct_Anonymous>", "<Struct_Anonymous>", 0x10000001C⟩,
        ⟨.enumType, "<Enum_NameReadError>", "<Enum_NameReadError>", 0x100000030⟩] := by
    decide +kernel
  obtain ⟨s, found, range⟩ := Option.map_eq_some_iff.1 place
  obtain ⟨start, size⟩ := Prod.mk.inj range
  have inside : s.fileOffset + s.size ≤ nominal.region.size := by omega
  have all := (collected s found inside _).2 told
  rw [size] at all
  exact ⟨s, found, inside, run, all⟩

end SwiftType
end MachImage

import MachImage.Proofs.Image.Stretches
import MachImage.Proofs.Objc.ClassList
/-!
Where the entries of a list lie. A list is read if its last byte can be found in the slice and its
end in the section that it begins in. Entries that resolve through the stretch of the last byte then
lie in the slice, and in an orderly image those of a list that begins in a section do. Where memory
has gaps, the last byte says nothing about the entries before it.
-/
namespace MachImage.Objc
open Image

deriving instance DecidableEq for EntryListHeader

/-- A list that is read entry by entry: its header can be read, and the entries that it tells of are
large enough and fit. -/
structure Accepts {α : Type} (form : EntryListHeader → EntryForm α) (i : Image) (address : Nat)
    (h : EntryListHeader) : Prop where
  notNull : address ≠ 0
  header : (i.recordAt EntryListHeader address).map (·.value) = .ok h
  large : (form h).size ≤ entrySize h
  fit : fits i address (entrySize h) h.count = .ok true

theorem exists_of_map_value {α : Type} {x : Except Fault (Placed α)} {v : α}
    (h : x.map (·.value) = .ok v) : ∃ p, x = .ok p ∧ p.value = v := by
  cases x with
  | error e => cases h
  | ok p => exact ⟨p, rfl, Except.ok.inj h⟩

theorem fits_iff {i : Image} {list size count : Nat} : fits i list size count = .ok true ↔
    count = 0 ∨ endsInSection i list (entryAddress list size count) = true ∧
      i.HoldsAt (entryAddress list size count - 1 : Int) 1 := by
  unfold fits
  dsimp only
  by_cases empty : count = 0
  · simp [empty]
  · rw [if_neg empty, attempt_of_tame (i.offsetOf_tame _), HoldsAt]
    cases endsInSection i list (entryAddress list size count) with
    | false => simp [empty]
    | true =>
      cases i.offsetOf (entryAddress list size count - 1 : Int) <;>
        simp [empty, Except.map, Except.toOption]

section
variable {α : Type} {form : EntryListHeader → EntryForm α} {i : Image} {address : Nat}
  {h : EntryListHeader}

theorem list_of_header (notNull : address ≠ 0)
    (header : (i.recordAt EntryListHeader address).map (·.value) = .ok h) :
    EntryForm.list form i address =
      if entrySize h < (form h).size then .ok []
      else fits i address (entrySize h) h.count >>= fun inside =>
        if inside then (form h).readAll i address (entrySize h) h.count else .ok [] := by
  obtain ⟨p, read, rfl⟩ := exists_of_map_value header
  rw [EntryForm.list, if_neg notNull, read]
  rfl

theorem list_of_accepts (tame : (form h).IsTame) (accepted : Accepts form i address h) :
    EntryForm.list form i address = .ok ((List.range h.count).filterMap fun k =>
      ((form h).read i (entryAddress address (entrySize h) k)).toOption) := by
  rw [list_of_header accepted.notNull accepted.header, if_neg (Nat.not_lt.2 accepted.large),
    accepted.fit, ok_bind, if_pos rfl, readAll_of_tame tame]

theorem list_of_refused (notNull : address ≠ 0)
    (header : (i.recordAt EntryListHeader address).map (·.value) = .ok h)
    (refused : ¬ Accepts form i address h) : EntryForm.list form i address = .ok [] := by
  rw [list_of_header notNull header]
  split
  · rfl
  · next large =>
    obtain ⟨inside, answer⟩ := fits_sure i address (entrySize h) h.count
    rw [answer, ok_bind]
    cases inside with
    | false => rfl
    | true => exact absurd ⟨notNull, header, Nat.not_lt.1 large, answer⟩ refused

theorem accepts_of_ne_nil (tame : ∀ h, (form h).IsTame) {xs : List α}
    (read : EntryForm.list form i address = .ok xs) (some : xs ≠ []) :
    ∃ h, Accepts form i address h ∧ h.count ≠ 0 := by
  by_cases null : address = 0
  · rw [EntryForm.list, if_pos null, Except.ok.injEq] at read
    exact absurd read.symm some
  · cases header : i.recordAt EntryListHeader address with
    | error e =>
      rw [EntryForm.list, if_neg null, header] at read
      cases read
    | ok p =>
      have told : (i.recordAt EntryListHeader address).map (·.value) = .ok p.value := by
        rw [header]
        rfl
      by_cases accepted : Accepts form i address p.value
      · refine ⟨p.value, accepted, fun empty => ?_⟩
        rw [list_of_accepts (tame p.value) accepted, empty, Except.ok.injEq] at read
        exact some read.symm
      · rw [list_of_refused null told accepted, Except.ok.injEq] at read
        exact absurd read.symm some

end

theorem entryAddress_add_le {list size k count : Nat} (below : k < count) :
    entryAddress list size k + size ≤ entryAddress list size count := by
  have step : size * k + size ≤ size * count := by
    rw [← Nat.mul_succ]
    exact Nat.mul_le_mul_left size below
  unfold entryAddress
  omega

theorem le_entryAddress (list size k : Nat) : list ≤ entryAddress list size k := by
  unfold entryAddress
  omega

theorem orderly_stretch {i : Image} (orderly : i.IsOrderly) {address stop : Nat} {t : Section}
    {p : Placed EntryListHeader} (header : i.recordAt EntryListHeader address = .ok p)
    (found : i.sectionAt? address = some t) (ends : endsInSection i address stop = true) {a : Int}
    (high : address ≤ a) (low : a < stop) :
    Resolves i a ⟨t.address, t.size, t.fileOffset⟩ := by
  obtain ⟨o, offset, -⟩ := of_bind_ok header
  obtain ⟨r, start, -⟩ := offsetOf_eq_ok_iff.1 offset
  have base := start.base_le
  have covered : t.covers address = true := by
    rw [sectionAt?] at found
    simpa using List.find?_some found
  have inside := (t.covers_iff address).1 covered
  have behind : stop ≤ t.endAddress := by
    rw [endsInSection, found] at ends
    exact of_decide_eq_true ends
  rw [Section.endAddress] at behind
  refine orderly.resolves found start (by omega) ?_
  rw [Within] at inside ⊢
  omega

/-- A form whose entries are read from bytes of the slice. -/
def EntryForm.IsHeld {α : Type} (f : EntryForm α) : Prop :=
  ∀ i address x, f.read i address = .ok x → i.HoldsAt address f.size

theorem holdsAt_of_record {α : Type} [Record α] {i : Image} {a : Int} {p : Placed α}
    (read : i.recordAt α a = .ok p) : i.HoldsAt a (Record.size α) := by
  obtain ⟨o, offset, read⟩ := of_bind_ok read
  refine ⟨o, offset, ?_⟩
  cases bytes : i.region.read o (Record.size α) with
  | error e => simp [Region.record, bytes, Except.map] at read
  | ok bs => exact (Region.read_eq_ok_iff.1 bytes).1

theorem isHeld_of_record {α β : Type} [Record β] {f : EntryForm α}
    {rest : Image → Nat → Placed β → Except Fault α} (size : f.size = Record.size β)
    (begins : ∀ i address, f.read i address = i.recordAt β address >>= rest i address) :
    f.IsHeld := by
  intro i address x read
  rw [begins] at read
  obtain ⟨p, held, -⟩ := of_bind_ok read
  rw [size]
  exact holdsAt_of_record held

theorem byAddress_held (isClassMethod : Bool) : (Method.byAddress isClassMethod).IsHeld :=
  isHeld_of_record rfl fun _ _ => rfl

theorem byOffset_held (isClassMethod : Bool) : (Method.byOffset isClassMethod).IsHeld :=
  isHeld_of_record rfl fun _ _ => rfl

theorem property_held : Property.form.IsHeld := isHeld_of_record rfl fun _ _ => rfl

theorem ivar_held : Ivar.form.IsHeld := isHeld_of_record rfl fun _ _ => rfl

def Method.form (isClassMethod : Bool) (h : EntryListHeader) : EntryForm Method :=
  if isRelative h then Method.byOffset isClassMethod else Method.byAddress isClassMethod

theorem methodForm_tame (isClassMethod : Bool) (h : EntryListHeader) :
    (Method.form isClassMethod h).IsTame := by
  unfold Method.form
  split
  · exact byOffset_tame isClassMethod
  · exact byAddress_tame isClassMethod

theorem methodForm_held (isClassMethod : Bool) (h : EntryListHeader) :
    (Method.form isClassMethod h).IsHeld := by
  unfold Method.form
  split
  · exact byOffset_held isClassMethod
  · exact byAddress_held isClassMethod

theorem methodForm_size_pos (isClassMethod : Bool) (h : EntryListHeader) :
    0 < (Method.form isClassMethod h).size := by
  unfold Method.form
  split
  · exact Nat.zero_lt_succ 11
  · exact Nat.zero_lt_succ 23

inductive Lists : {α : Type} → (Image → Nat → Except Fault (List α)) →
    (EntryListHeader → EntryForm α) → Prop
  | methods (isClassMethod : Bool) :
      Lists (Method.list isClassMethod) (Method.form isClassMethod)
  | properties : Lists Property.list fun _ => Property.form
  | ivars : Lists Ivar.list fun _ => Ivar.form

section
variable {α : Type} {read : Image → Nat → Except Fault (List α)}
  {form : EntryListHeader → EntryForm α}

theorem Lists.eq (kind : Lists read form) : read = EntryForm.list form := by
  cases kind <;> rfl

theorem Lists.tame (kind : Lists read form) (h : EntryListHeader) : (form h).IsTame := by
  cases kind with
  | methods isClassMethod => exact methodForm_tame isClassMethod h
  | properties => exact property_tame
  | ivars => exact ivar_tame

theorem Lists.held (kind : Lists read form) (h : EntryListHeader) : (form h).IsHeld := by
  cases kind with
  | methods isClassMethod => exact methodForm_held isClassMethod h
  | properties => exact property_held
  | ivars => exact ivar_held

theorem Lists.size_pos (kind : Lists read form) (h : EntryListHeader) : 0 < (form h).size := by
  cases kind with
  | methods isClassMethod => exact methodForm_size_pos isClassMethod h
  | properties => exact Nat.zero_lt_succ 15
  | ivars => exact Nat.zero_lt_succ 31

/-- Along one stretch, the bounds check asks for exactly what it should: that the entries end in
the section and lie in the slice. -/
theorem accepts_iff_of_stretch (kind : Lists read form) {i : Image} {address : Nat}
    {h : EntryListHeader} {t : Stretch} (notNull : address ≠ 0)
    (header : (i.recordAt EntryListHeader address).map (·.value) = .ok h)
    (large : (form h).size ≤ entrySize h) (some : h.count ≠ 0)
    (along : ∀ a : Int, entryAddress address (entrySize h) 0 ≤ a →
      a < entryAddress address (entrySize h) h.count → Resolves i a t) :
    Accepts form i address h ↔
      endsInSection i address (entryAddress address (entrySize h) h.count) = true ∧
        ∀ k < h.count, i.HoldsAt (entryAddress address (entrySize h) k) (entrySize h) := by
  have positive := kind.size_pos h
  have place {k : Nat} (below : k < h.count) :
      Resolves i (entryAddress address (entrySize h) k) t := by
    have inside := @entryAddress_add_le address (entrySize h) k h.count below
    apply along
    · simp only [entryAddress]
      omega
    · omega
  have last : Resolves i (entryAddress address (entrySize h) h.count - 1 : Int) t := by
    have inside := @entryAddress_add_le address (entrySize h) 0 h.count (Nat.pos_of_ne_zero some)
    exact along _ (by omega) (by omega)
  constructor
  · intro accepted
    obtain ⟨ends, held⟩ := (fits_iff.1 accepted.fit).resolve_left some
    refine ⟨ends, fun k below => held.before last (place below) ?_⟩
    have inside := @entryAddress_add_le address (entrySize h) k h.count below
    omega
  · rintro ⟨ends, held⟩
    refine ⟨notNull, header, large, fits_iff.2 (.inr ⟨ends, ?_⟩)⟩
    have below : h.count - 1 < h.count := by omega
    refine (held _ below).inner (place below) last ?_
    have step : entryAddress address (entrySize h) h.count =
        entryAddress address (entrySize h) (h.count - 1) + entrySize h := by
      obtain ⟨n, same⟩ := Nat.exists_eq_succ_of_ne_zero some
      rw [same, Nat.succ_sub_one, entryAddress, entryAddress, Nat.mul_succ]
      omega
    omega

end

/-- A list that yields an entry passed the bounds check, and one that does not pass is empty. What
passes ends in its section and has its last byte in the slice; so all those of its entries lie in
the slice that resolve through the stretch of the last byte, and all there are if the image is
orderly and the list begins in a section. Of other entries only those are read whose own bytes lie
in the slice. Along one stretch the check refuses no list whose entries do. -/
theorem entries_of_list {α : Type} {read : Image → Nat → Except Fault (List α)}
    {form : EntryListHeader → EntryForm α} (kind : Lists read form) (i : Image) (address : Nat) :
    (∀ xs, read i address = .ok xs → xs ≠ [] → ∃ h, Accepts form i address h ∧ h.count ≠ 0) ∧
    (∀ h, Accepts form i address h → h.count ≠ 0 →
      let size := entrySize h
      let place := entryAddress address size
      endsInSection i address (place h.count) = true ∧ i.HoldsAt (place h.count - 1 : Int) 1 ∧
      (∀ k < h.count, ∀ t, Resolves i (place h.count - 1 : Int) t → Resolves i (place k) t →
        i.HoldsAt (place k) size) ∧
      (i.IsOrderly → (i.sectionAt? address).isSome → ∀ k < h.count, i.HoldsAt (place k) size) ∧
      (∀ xs, read i address = .ok xs → ∀ x ∈ xs, ∃ k < h.count,
        (form h).read i (place k) = .ok x ∧ i.HoldsAt (place k) (form h).size)) ∧
    (∀ h, address ≠ 0 → (i.recordAt EntryListHeader address).map (·.value) = .ok h →
      ¬ Accepts form i address h → read i address = .ok []) ∧
    (∀ h t, address ≠ 0 → (i.recordAt EntryListHeader address).map (·.value) = .ok h →
      (form h).size ≤ entrySize h → h.count ≠ 0 →
      let place := entryAddress address (entrySize h)
      (∀ a : Int, place 0 ≤ a → a < place h.count → Resolves i a t) →
      (Accepts form i address h ↔ endsInSection i address (place h.count) = true ∧
        ∀ k < h.count, i.HoldsAt (place k) (entrySize h))) := by
  have tame := kind.tame
  rw [kind.eq]
  refine ⟨fun xs => accepts_of_ne_nil tame, ?_, fun h => list_of_refused,
    fun h t notNull header large some along =>
      accepts_iff_of_stretch kind notNull header large some along⟩
  intro h accepted some
  dsimp only
  obtain ⟨ends, held⟩ := (fits_iff.1 accepted.fit).resolve_left some
  have inside {k : Nat} (below : k < h.count) :=
    @entryAddress_add_le address (entrySize h) k h.count below
  refine ⟨ends, held, ?_, ?_, ?_⟩
  · intro k below t last first
    have stop := inside below
    exact held.before last first (by omega)
  · intro orderly among k below
    obtain ⟨t, found⟩ := Option.isSome_iff_exists.1 among
    obtain ⟨p, start, -⟩ := exists_of_map_value accepted.header
    have stop := inside below
    have above := le_entryAddress address (entrySize h) k
    have positive := Nat.lt_of_lt_of_le (kind.size_pos h) accepted.large
    have along {a : Int} := @orderly_stretch i orderly address _ t p start found ends a
    exact held.before (along (by omega) (by omega)) (along (by omega) (by omega)) (by omega)
  · intro xs run x member
    rw [list_of_accepts (tame h) accepted, Except.ok.injEq] at run
    subst run
    obtain ⟨k, below, found⟩ := List.mem_filterMap.1 member
    have found := of_toOption_some found
    exact ⟨k, List.mem_range.1 below, found, kind.held h i _ x found⟩

def propertyPair : Image := imageOf
  ([0x200000010, 0x100000028, 0, 0x100000028, 0].flatMap wordBytes ++ [0x41, 0])
  [("__objc_const", 0, 40)]

theorem propertyPair_orderly : propertyPair.IsOrderly where
  segments := List.pairwise_singleton _ _
  sections := by
    intro s among
    rw [List.mem_singleton.1 among]
    exact List.pairwise_singleton _ _
  within := by
    intro s among t member a inside
    rw [List.mem_singleton.1 among] at member ⊢
    rw [List.mem_singleton.1 member] at inside
    exact ⟨inside.1, Int.lt_trans inside.2 (by decide)⟩

theorem entries_of_list_pair : propertyPair.IsOrderly ∧
    (∃ xs, Property.list propertyPair 0x100000000 = .ok xs ∧ xs.map (·.name) = ["A", "A"]) ∧
    propertyPair.HoldsAt 0x100000008 16 ∧ propertyPair.HoldsAt 0x100000018 16 := by
  obtain ⟨filled, bounded, -, -⟩ := entries_of_list .properties propertyPair 0x100000000
  have names : (Property.list propertyPair 0x100000000).toOption.map (·.map (·.name)) =
      some ["A", "A"] := by decide +kernel
  obtain ⟨xs, run, names⟩ := Option.map_eq_some_iff.1 names
  have run := of_toOption_some run
  obtain ⟨h, accepted, some⟩ := filled xs run (by rintro rfl; cases names)
  have told : ((propertyPair.recordAt EntryListHeader 0x100000000).map fun p =>
      (entrySize p.value, p.value.count)).toOption = Option.some (16, 2) := by decide +kernel
  have header : entrySize h = 16 ∧ h.count = 2 := by
    obtain ⟨p, start, rfl⟩ := exists_of_map_value accepted.header
    have start : propertyPair.recordAt EntryListHeader 0x100000000 = .ok p := start
    rw [start] at told
    exact Prod.mk.inj (Option.some.inj told)
  obtain ⟨-, -, -, held, -⟩ := bounded h accepted some
  rw [header.1, header.2] at held
  have held := held propertyPair_orderly (by decide +kernel)
  exact ⟨propertyPair_orderly, ⟨xs, run, names⟩, held 0 (by decide), held 1 (by decide)⟩

def gapped : Region := fileOf
  [segmentBytes "__DATA" 0x100000000 344 [sectionBytes "__objc_catlist" 0x100000100 8 256],
   segmentBytes "__LINKEDIT" 0x100001000 344 []]
  [0x100000108, 0x100000150, 0, 0, 0, 0, 0x100000138, 0x200000800, 0x100000150, 0, 0x41]

/-- The list is read, although the address of its second entry leads nowhere. -/
theorem entry_in_gap : ∃ i h x, Image.parse gapped 0 = .ok i ∧
    Accepts (fun _ => Property.form) i 0x100000138 h ∧ h.count = 2 ∧
    Property.list i 0x100000138 = .ok [x] ∧
    ¬ i.HoldsAt (entryAddress 0x100000138 (entrySize h) 1) (entrySize h) := by
  have answer : (Image.parse gapped 0).toOption.any fun i => decide (
      (i.recordAt EntryListHeader 0x100000138).toOption.map (·.value) = some ⟨0x800, 2⟩ ∧
      (fits i 0x100000138 0x800 2).toOption = some true ∧
      (i.offsetOf 0x100000940).toOption = none ∧
      (Property.list i 0x100000138).toOption.map (·.length) = some 1) := by decide +kernel
  obtain ⟨i, parsed, answer⟩ := (Option.any_eq_true _ _).1 answer
  obtain ⟨told, fit, nowhere, listed⟩ := of_decide_eq_true answer
  obtain ⟨p, header, told⟩ := Option.map_eq_some_iff.1 told
  obtain ⟨size, count⟩ := EntryListHeader.mk.inj told
  obtain ⟨xs, list, length⟩ := Option.map_eq_some_iff.1 listed
  obtain ⟨x, rfl⟩ := List.length_eq_one_iff.1 length
  have wide : entrySize p.value = 0x800 := by rw [entrySize, size]
  refine ⟨i, p.value, x, of_toOption_some parsed, ⟨by decide, ?_, ?_, ?_⟩, count,
    of_toOption_some list, ?_⟩
  · have held : i.recordAt EntryListHeader (0x100000138 : Nat) = .ok p := of_toOption_some header
    rw [held]
    rfl
  · rw [wide]
    decide
  · rw [wide, count]
    exact of_toOption_some fit
  · rintro ⟨o, found, -⟩
    rw [wide] at found
    have found : i.offsetOf 0x100000940 = .ok o := found
    rw [found] at nowhere
    cases nowhere

end MachImage.Objc

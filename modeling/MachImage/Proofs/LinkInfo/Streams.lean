import MachImage.Proofs.Image.Bounds
import MachImage.Proofs.LinkInfo.TameStreams
import MachImage.Proofs.Table.Firsts
/-!
The five streams stand apart. Each of them is what its own reader makes of its own bytes, or a fault
under its own name, and to read all five is sure. So two images whose segments have the same room
agree on every stream that has the same bytes in both, whatever the other streams hold.
-/
namespace MachImage

namespace LinkInfo

inductive Stream where
  | rebases | bindings | weakBindings | lazyBindings | exports

namespace Stream

abbrev Item : Stream → Type
  | rebases => Rebase
  | bindings | weakBindings | lazyBindings => Binding
  | exports => Export

def label : Stream → String
  | rebases => "rebase"
  | bindings => "bind"
  | weakBindings => "weak_bind"
  | lazyBindings => "lazy_bind"
  | exports => "export"

def offset (c : LinkInfoCommand) : Stream → Nat
  | rebases => c.rebaseOffset
  | bindings => c.bindOffset
  | weakBindings => c.weakBindOffset
  | lazyBindings => c.lazyBindOffset
  | exports => c.exportOffset

def size (c : LinkInfoCommand) : Stream → Nat
  | rebases => c.rebaseSize
  | bindings => c.bindSize
  | weakBindings => c.weakBindSize
  | lazyBindings => c.lazyBindSize
  | exports => c.exportSize

/-- How a stream is read on its own. -/
def parse (limit : Nat) : (s : Stream) → Region → Except Fault (List s.Item)
  | rebases => Rebase.ofStream limit
  | bindings | weakBindings => Binding.ofStream limit false
  | lazyBindings => Binding.ofStream limit true
  | exports => Export.ofStream

theorem parse_tame (limit : Nat) (s : Stream) (r : Region) : Tame (s.parse limit r) := by
  cases s with
  | rebases => exact Rebase.ofStream_tame limit r
  | bindings => exact Binding.ofStream_tame limit false r
  | weakBindings => exact Binding.ofStream_tame limit false r
  | lazyBindings => exact Binding.ofStream_tame limit true r
  | exports => exact Export.ofStream_tame r

end Stream

def outcome (l : LinkInfo) : (s : Stream) → Except Fault (List s.Item)
  | .rebases => l.rebases
  | .bindings => l.bindings
  | .weakBindings => l.weakBindings
  | .lazyBindings => l.lazyBindings
  | .exports => l.exports

end LinkInfo

namespace Image
open LinkInfo

theorem stream_tame {α : Type} (i : Image) (name : String) (offset size : Nat)
    {read : Region → Except Fault (List α)} (tame : ∀ r, Tame (read r)) :
    Tame (i.stream name offset size read) := by
  unfold stream
  split
  · exact tame_ok []
  · split
    · exact tame _
    · exact tame_error rfl

/-- The stream as the command of the image places it. -/
def streamOf (i : Image) (c : LinkInfoCommand) (s : Stream) : Except Fault (List s.Item) :=
  i.stream s.label (s.offset c) (s.size c) (s.parse i.recordLimit)

section
variable {i j : Image} {c d : LinkInfoCommand} {s : Stream}

theorem streamOf_empty (none : s.size c = 0) : i.streamOf c s = .ok [] := by
  simp [streamOf, stream, none]

theorem streamOf_outside (some : s.size c ≠ 0)
    (outside : i.region.size < s.offset c + s.size c) :
    i.streamOf c s = .error (.corrupt (.streamOutside s.label (s.offset c) (s.size c))) := by
  simp [streamOf, stream, some, slice_of_lt outside]

theorem streamOf_inside (some : s.size c ≠ 0)
    (inside : s.offset c + s.size c ≤ i.region.size) :
    i.streamOf c s = s.parse i.recordLimit
      { bytes := i.region.bytes.extract (s.offset c) (s.offset c + s.size c),
        base := i.region.base + s.offset c } := by
  simp [streamOf, stream, some, slice_of_le inside]

theorem streamOf_congr (base : j.region.base = i.region.base)
    (limit : j.recordLimit = i.recordLimit) (offset : s.offset d = s.offset c)
    (size : s.size d = s.size c)
    (bytes : j.region.bytes.extract (s.offset c) (s.offset c + s.size c) =
      i.region.bytes.extract (s.offset c) (s.offset c + s.size c)) :
    j.streamOf d s = i.streamOf c s := by
  by_cases none : s.size c = 0
  · rw [streamOf_empty none, streamOf_empty (size.trans none)]
  · have within : s.offset d + s.size d ≤ j.region.size ↔
        s.offset c + s.size c ≤ i.region.size := by
      have long := congrArg Array.size bytes
      simp only [Array.size_extract] at long
      simp only [Region.size, offset, size]
      omega
    have some : s.size d ≠ 0 := fun empty => none (size.symm.trans empty)
    by_cases inside : s.offset c + s.size c ≤ i.region.size
    · rw [streamOf_inside none inside, streamOf_inside some (within.2 inside), offset, size,
        bytes, base, limit]
    · have outside : ¬ s.offset d + s.size d ≤ j.region.size := fun fits => inside (within.1 fits)
      rw [streamOf_outside none (Nat.lt_of_not_le inside),
        streamOf_outside some (Nat.lt_of_not_le outside), offset, size]

end
end Image

namespace LinkInfo

/-- Each stream is reported as it is read, and nothing stops the reading of all. -/
theorem ofImage_reported {i : Image} {c : Placed LinkInfoCommand} (held : i.linkInfo = .ok c) :
    ∃ l, ofImage i = .ok l ∧ ∀ s, l.outcome s = i.streamOf c.value s := by
  have each (s : Stream) : report (i.streamOf c.value s) = .ok (i.streamOf c.value s) :=
    report_of_tame (i.stream_tame _ _ _ (s.parse_tame _))
  have run : ofImage i = .ok {
      rebases := i.streamOf c.value .rebases
      bindings := i.streamOf c.value .bindings
      weakBindings := i.streamOf c.value .weakBindings
      lazyBindings := i.streamOf c.value .lazyBindings
      exports := i.streamOf c.value .exports } := by
    rw [ofImage, held, ok_bind]
    change (report (i.streamOf c.value .rebases) >>= fun _ =>
      report (i.streamOf c.value .bindings) >>= fun _ =>
      report (i.streamOf c.value .weakBindings) >>= fun _ =>
      report (i.streamOf c.value .lazyBindings) >>= fun _ =>
      report (i.streamOf c.value .exports) >>= fun _ => _) = _
    simp only [each, ok_bind]
    rfl
  refine ⟨_, run, ?_⟩
  intro s
  cases s <;> rfl

section
variable {κ α : Type}

theorem keys_sublist (ps : List (κ × Option α)) :
    (Table.keys (ps.filterMap fun (k, a) => a.map (k, ·))).Sublist (Table.keys ps) := by
  induction ps with
  | nil => exact List.Sublist.refl _
  | cons p ps ih =>
    obtain ⟨k, a⟩ := p
    cases a with
    | none => exact ih.cons k
    | some a => exact ih.cons_cons k

theorem get?_of_distinct [DecidableEq κ] (ps : List (κ × Option α)) (key : κ)
    (distinct : (Table.keys ps).Nodup) :
    Table.get? (ps.filterMap fun (k, a) => a.map (k, ·)) key = (Table.get? ps key).join := by
  induction ps with
  | nil => rfl
  | cons p ps ih =>
    obtain ⟨k, a⟩ := p
    have apart := List.nodup_cons.1 distinct
    have later := ih apart.2
    cases a with
    | some a => by_cases same : k = key <;> simp [Table.get?, same, later]
    | none =>
      by_cases same : k = key
      · have absent : Table.get? ps key = none :=
          (Table.get?_eq_none_iff ps key).2 (same ▸ apart.1)
        simp [Table.get?, same, later, absent]
      · simp [Table.get?, same, later]

end

theorem faults_get? (l : LinkInfo) (s : Stream) :
    Table.get? l.faults s.label = fault? (l.outcome s) := by
  rw [faults, get?_of_distinct _ _ (by simp [Table.keys])]
  cases s <;> simp [Table.get?, Stream.label] <;> rfl

theorem faults_keys (l : LinkInfo) :
    (Table.keys l.faults).Sublist ["rebase", "bind", "weak_bind", "lazy_bind", "export"] :=
  keys_sublist _

def shown (l : LinkInfo) (s : Stream) : List s.Item × Option Fault :=
  (records (l.outcome s), Table.get? l.faults s.label)

/-- What is shown of a stream that was read with some outcome. -/
structure Shows {α : Type} (outcome : Except Fault (List α)) (shown : List α × Option Fault) :
    Prop where
  held : ∀ xs, outcome = .ok xs → shown = (xs, none)
  refused : ∀ e, outcome = .error e → shown = ([], some e)

theorem shown_shows (l : LinkInfo) (s : Stream) : Shows (l.outcome s) (l.shown s) := by
  constructor
  · intro xs read
    simp [shown, faults_get?, read, records, fault?, Except.toOption]
  · intro e refused
    simp [shown, faults_get?, refused, records, fault?, Except.toOption]

theorem shown_congr {l m : LinkInfo} {s : Stream} (same : m.outcome s = l.outcome s) :
    m.shown s = l.shown s := by
  simp only [shown, faults_get?, same]

/-- To read the five streams is sure. Each shows nothing, or that its range is outside, or what its
reader makes of its bytes alone; so a stream that has the same range and bytes in another image
with these segments shows the same there. -/
theorem streams_apart {i : Image} {c : Placed LinkInfoCommand} (held : i.linkInfo = .ok c) :
    ∃ l, ofImage i = .ok l ∧
      (∀ s : Stream,
        (s.size c.value = 0 → l.shown s = ([], none)) ∧
        (s.size c.value ≠ 0 → i.region.size < s.offset c.value + s.size c.value →
          l.shown s =
            ([], some (.corrupt (.streamOutside s.label (s.offset c.value) (s.size c.value))))) ∧
        (s.size c.value ≠ 0 → s.offset c.value + s.size c.value ≤ i.region.size →
          Shows
            (s.parse i.recordLimit
              { bytes := i.region.bytes.extract (s.offset c.value)
                  (s.offset c.value + s.size c.value),
                base := i.region.base + s.offset c.value })
            (l.shown s))) ∧
      (Table.keys l.faults).Sublist ["rebase", "bind", "weak_bind", "lazy_bind", "export"] ∧
      ∀ (j : Image) (d : Placed LinkInfoCommand), j.linkInfo = .ok d → j.segments = i.segments →
        j.region.base = i.region.base →
        ∃ m, ofImage j = .ok m ∧
          ∀ s : Stream, s.offset d.value = s.offset c.value → s.size d.value = s.size c.value →
            j.region.bytes.extract (s.offset c.value) (s.offset c.value + s.size c.value) =
              i.region.bytes.extract (s.offset c.value) (s.offset c.value + s.size c.value) →
            m.shown s = l.shown s := by
  obtain ⟨l, run, outcomes⟩ := ofImage_reported held
  refine ⟨l, run, ?_, l.faults_keys, ?_⟩
  · intro s
    have shows := l.shown_shows s
    rw [outcomes s] at shows
    refine ⟨fun none => shows.held _ (Image.streamOf_empty none), ?_, ?_⟩
    · intro some outside
      exact shows.refused _ (Image.streamOf_outside some outside)
    · intro some inside
      rwa [Image.streamOf_inside some inside] at shows
  · intro j d held' segments base
    obtain ⟨m, run', outcomes'⟩ := ofImage_reported held'
    refine ⟨m, run', ?_⟩
    intro s offset size bytes
    have limit : j.recordLimit = i.recordLimit := by simp only [Image.recordLimit, segments]
    apply shown_congr
    rw [outcomes s, outcomes' s]
    exact Image.streamOf_congr base limit offset size bytes

def mixedCommand : LinkInfoCommand :=
  { (Record.decode #[] : LinkInfoCommand) with
    rebaseSize := 5, bindOffset := 5, bindSize := 1, lazyBindOffset := 4, lazyBindSize := 3 }

def mixed : Image :=
  { region := { bytes := #[0x11, 0x20, 0x08, 0x51, 0x00, 0xF0] }, fileOffset := 0,
    header := ⟨Record.decode #[], 0⟩, commands := [.linkInfo ⟨mixedCommand, 32⟩], symbols := [] }

theorem streams_apart_mixed :
    mixed.linkInfo = .ok ⟨mixedCommand, 32⟩ ∧
    ∃ l, ofImage mixed = .ok l ∧
      l.shown .rebases = ([⟨0, 8, 1⟩], none) ∧
      l.shown .bindings = ([], some (.opcode 0xF0 5)) ∧
      l.shown .weakBindings = ([], none) ∧
      l.shown .lazyBindings = ([], some (.corrupt (.streamOutside "lazy_bind" 4 3))) := by
  have held : mixed.linkInfo = .ok ⟨mixedCommand, 32⟩ := rfl
  obtain ⟨l, run, each, -⟩ := streams_apart held
  have rebases := (each .rebases).2.2 (by decide) (by decide)
  have bindings := (each .bindings).2.2 (by decide) (by decide)
  have empty := (each .weakBindings).1 rfl
  have outside := (each .lazyBindings).2.1 (by decide) (by decide)
  exact ⟨held, l, run, rebases.held _ (by with_unfolding_all rfl),
    bindings.refused _ (by with_unfolding_all rfl), empty, outside⟩

end LinkInfo
end MachImage

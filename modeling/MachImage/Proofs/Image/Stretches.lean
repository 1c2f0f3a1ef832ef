import MachImage.Proofs.Image.Tables
import MachImage.Proofs.Image.Translation
/-!
Bytes that follow each other in memory. Along one stretch they lie in the slice together as soon as
the last of them does. Where stretches meet nothing of the kind holds, unless segments and sections
keep apart: then a section is the stretch of each of its addresses.
-/
namespace MachImage

theorem IsFirst.unique {α : Type} {p : α → Prop} {as : List α} {a b : α} (first : IsFirst p as a)
    (second : IsFirst p as b) : a = b := by
  classical
  have same : ∀ c, decide (p c) = true ↔ p c := fun c => decide_eq_true_iff
  have found := (find?_eq_some_iff_isFirst same).2 first
  rw [(find?_eq_some_iff_isFirst same).2 second] at found
  exact (Option.some.inj found).symm

def Apart {α : Type} (covers : α → Int → Prop) (as : List α) : Prop :=
  as.Pairwise fun s t => ∀ a, covers s a → ¬ covers t a

theorem Apart.isFirst {α : Type} {covers : α → Int → Prop} {as : List α} {s : α} {a : Int}
    (apart : Apart covers as) (member : s ∈ as) (meets : covers s a) :
    IsFirst (covers · a) as s := by
  obtain ⟨before, after, rfl⟩ := List.append_of_mem member
  refine ⟨meets, before, after, rfl, fun t earlier covered => ?_⟩
  have later := (List.pairwise_append.1 apart).2.2 t earlier s List.mem_cons_self
  exact later a covered meets

namespace Image

/-- The bytes from an address on lie in the slice, behind the place that the address leads to. -/
def HoldsAt (i : Image) (a : Int) (size : Nat) : Prop :=
  ∃ o, i.offsetOf a = .ok o ∧ i.region.contains o size = true

section
variable {i : Image} {a b : Int} {t : Stretch} {size : Nat}

theorem holdsAt_iff (h : Resolves i a t) :
    i.HoldsAt a size ↔ t.fileOffset + (a - t.address) + size ≤ i.region.size := by
  have found := offsetOf_of_resolves h
  have start := offsetOf_nonneg found
  constructor
  · rintro ⟨o, same, inside⟩
    rw [found, Except.ok.injEq] at same
    rw [Region.contains_iff] at inside
    omega
  · intro inside
    refine ⟨_, found, ?_⟩
    rw [Region.contains_iff]
    omega

theorem HoldsAt.before (held : i.HoldsAt b 1) (last : Resolves i b t) (first : Resolves i a t)
    (ends : a + size ≤ b + 1) : i.HoldsAt a size := by
  rw [holdsAt_iff last] at held
  rw [holdsAt_iff first]
  omega

theorem HoldsAt.inner (held : i.HoldsAt a size) (first : Resolves i a t) (last : Resolves i b t)
    (ends : b + 1 ≤ a + size) : i.HoldsAt b 1 := by
  rw [holdsAt_iff first] at held
  rw [holdsAt_iff last]
  omega

theorem Resolves.base_le (h : Resolves i a t) : i.virtualBase ≤ a := by
  cases h with
  | bySection base => exact base
  | bySegment base => exact base

end

/-- No address belongs to two segments, or to two sections of a segment, and a section lies within
its segment. -/
structure IsOrderly (i : Image) : Prop where
  segments : Apart (fun s => Within s.address s.vmSize) i.segments
  sections : ∀ s ∈ i.segments, Apart (fun t => Within t.address t.size) s.sections
  within : ∀ s ∈ i.segments, ∀ t ∈ s.sections, ∀ a, Within t.address t.size a →
    Within s.address s.vmSize a

section
variable {i : Image} {a b : Int} {t : Section} {r : Stretch}

/-- Where segments and sections keep apart, an address that leads to the file does so through the
section that it lies in, and with it all addresses of the section. -/
theorem IsOrderly.resolves (orderly : i.IsOrderly) (found : i.sectionAt? a = some t)
    (start : Resolves i a r) (base : i.virtualBase ≤ b) (inside : Within t.address t.size b) :
    Resolves i b ⟨t.address, t.size, t.fileOffset⟩ := by
  rw [sectionAt?] at found
  have covered : t.covers a = true := by simpa using List.find?_some found
  have meets := (t.covers_iff a).1 covered
  obtain ⟨s, among, member⟩ := i.mem_sections_iff.1 (List.mem_of_find?_eq_some found)
  have around {c : Int} (h : Within t.address t.size c) :
      IsFirst (fun s => Within s.address s.vmSize c) i.segments s :=
    orderly.segments.isFirst among (orderly.within s among t member c h)
  have first {c : Int} (h : Within t.address t.size c) :
      IsFirst (fun t => Within t.address t.size c) s.sections t :=
    (orderly.sections s among).isFirst member h
  have filled : t.isZeroFill = false := by
    cases start with
    | bySection _ elsewhere there filled =>
      obtain rfl := elsewhere.unique (around meets)
      rw [(first meets).unique there]
      exact filled
    | bySegment _ elsewhere between _ =>
      obtain rfl := elsewhere.unique (around meets)
      exact absurd meets (between t member)
  exact .bySection base (around inside) (first inside) filled

end
end Image
end MachImage

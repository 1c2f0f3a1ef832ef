import MachImage.Attempt
import MachImage.Image.Memory
/-!
Reads of a region and of an image in memory are tame: only a place outside the region, a string
without end or an address that the file does not hold can stop them.
-/
namespace MachImage

theorem read_tame (r : Region) (offset size : Int) : Tame (r.read offset size) := by
  unfold Region.read
  split
  · exact tame_ok _
  · exact tame_error rfl

theorem word_tame (r : Region) (offset : Int) (type : WordType) : Tame (r.word offset type) :=
  (read_tame r offset type.size).map _

theorem slice_tame (r : Region) (offset size : Int) : Tame (r.slice offset size) :=
  (read_tame r offset size).map _

theorem record_tame (α : Type) [Record α] (r : Region) (offset : Int) :
    Tame (r.record α offset) :=
  (read_tame r offset (Record.size α)).map _

theorem cstringBytes_tame (r : Region) (offset : Int) : Tame (r.cstringBytes offset) := by
  unfold Region.cstringBytes
  split
  · split
    · exact tame_ok _
    · exact tame_error rfl
  · exact tame_error rfl

theorem cstring_tame (r : Region) (offset : Int) : Tame (r.cstring offset) :=
  (cstringBytes_tame r offset).map _

namespace Image

theorem offsetIn_tame (s : Segment) (address : Int) : Tame (offsetIn s address) := by
  unfold offsetIn
  split
  · split
    · exact tame_error rfl
    · exact tame_ok _
  · split
    · exact tame_ok _
    · exact tame_error rfl

theorem offsetOf_tame (i : Image) (address : Int) : Tame (i.offsetOf address) := by
  rw [offsetOf_eq]
  split
  · exact tame_error rfl
  · split
    · exact offsetIn_tame _ address
    · exact tame_error rfl

theorem recordAt_tame (α : Type) [Record α] (i : Image) (address : Int) :
    Tame (i.recordAt α address) :=
  (offsetOf_tame i address).bind fun offset _ => record_tame α i.region offset

theorem wordAt_tame (i : Image) (address : Int) (type : WordType) :
    Tame (i.wordAt address type) :=
  (offsetOf_tame i address).bind fun offset _ => word_tame i.region offset type

theorem pointerAt_tame (i : Image) (address : Int) : Tame (i.pointerAt address) :=
  (wordAt_tame i address .u64).map _

theorem stringAt_tame (i : Image) (address : Int) : Tame (i.stringAt address) :=
  (offsetOf_tame i address).bind fun offset _ => cstring_tame i.region offset

theorem pointerSection_tame (i : Image) (name : String) : Tame (i.pointerSection name) := by
  unfold pointerSection
  split
  · exact tame_ok _
  · exact (read_tame ..).bind fun _ _ => tame_ok _

end Image
end MachImage

import MachImage.Attempt
import MachImage.Image.Memory
import MachImage.Objc.Basic
/-!
Lists in memory. Methods, properties and instance variables come in lists of one shape: a header
that tells how many entries follow it and how far apart they lie, and the entries. A list is empty
when its entries are smaller than what they have to hold, or would run out of the section or the
file. An entry that cannot be read is left out, and the others stay. Null stands for no list.
-/
namespace MachImage.Objc

/-- How far apart the entries lie. The bits around it are flags. -/
def entrySize (h : EntryListHeader) : Nat := h.entrySizeAndFlags % 0x10000 / 4 * 4

def isRelative (h : EntryListHeader) : Bool := h.entrySizeAndFlags.testBit 31

def entryAddress (list size k : Nat) : Nat := list + Record.size EntryListHeader + size * k

def endsInSection (i : Image) (list stop : Nat) : Bool :=
  match i.sectionAt? list with
  | some s => stop ≤ s.endAddress
  | none => true

/-- Whether the entries end in the section that the list begins in, and their last byte in the
file. -/
def fits (i : Image) (list size count : Nat) : Except Fault Bool :=
  let stop := entryAddress list size count
  if count = 0 then .ok true
  else if endsInSection i list stop then
    (attempt (i.offsetOf (stop - 1 : Int))).map fun found =>
      found.any fun offset => i.region.contains offset 1
  else .ok false

def gatherFrom {α : Type} (read : Nat → Except Fault (Option α)) (stride : Nat) :
    (address count : Nat) → Except Fault (List α)
  | _, 0 => return []
  | address, count + 1 => do
    let entry ← attempt (read address)
    let rest ← gatherFrom read stride (address + stride) count
    return entry.join.toList ++ rest

structure EntryForm (α : Type) where
  size : Nat
  read : Image → Nat → Except Fault α

namespace EntryForm

variable {α : Type}

def readAll (f : EntryForm α) (i : Image) (list size count : Nat) : Except Fault (List α) :=
  gatherFrom (fun address => (f.read i address).map some) size
    (list + Record.size EntryListHeader) count

def list (form : EntryListHeader → EntryForm α) (i : Image) (address : Nat) :
    Except Fault (List α) :=
  if address = 0 then .ok []
  else do
    let h := (← i.recordAt EntryListHeader address).value
    if entrySize h < (form h).size then return []
    if ← fits i address (entrySize h) h.count then
      (form h).readAll i address (entrySize h) h.count
    else return []

end EntryForm

def stringOr (i : Image) (address : Int) (placeholder : String) : Except Fault String :=
  if address = 0 then .ok placeholder else i.stringAt address

def unknownSelector (place : Int) : String := s!"?SEL? ({Hex.number place})"

def Method.byAddress (isClassMethod : Bool) : EntryForm Method where
  size := Record.size MethodEntry
  read i address := do
    let e := (← i.recordAt MethodEntry address).value
    let name ← stringOr i e.name (unknownSelector e.name)
    let typeEncoding ← stringOr i e.signature ""
    return { name, typeEncoding, implementation := e.implementation, isClassMethod }

/-- A method by three offsets, each from its own place. The first leads to a selector reference. -/
def Method.byOffset (isClassMethod : Bool) : EntryForm Method where
  size := Record.size RelativeMethodEntry
  read i address := do
    let e := (← i.recordAt RelativeMethodEntry address).value
    let slot := address + e.name
    let name ← stringOr i (← i.pointerAt slot) (unknownSelector slot)
    let typeEncoding ← stringOr i (address + 4 + e.signature) ""
    let implementation := if e.implementation = 0 then 0 else address + 8 + e.implementation
    return { name, typeEncoding, implementation, isClassMethod }

def Method.list (isClassMethod : Bool) : Image → Nat → Except Fault (List Method) :=
  EntryForm.list fun h =>
    if isRelative h then Method.byOffset isClassMethod else Method.byAddress isClassMethod

def Property.form : EntryForm Property where
  size := Record.size PropertyEntry
  read i address := do
    let e := (← i.recordAt PropertyEntry address).value
    let name ← stringOr i e.name "?PROP?"
    let attributes ← stringOr i e.attributes ""
    return { name, attributes }

def Property.list : Image → Nat → Except Fault (List Property) :=
  EntryForm.list fun _ => Property.form

def pointerSize : Nat := 8

/-- The alignment from its logarithm. What is out of range stands for that of a pointer. -/
def Ivar.alignmentOf (logarithm : Nat) : Nat :=
  if logarithm < 64 then 1 <<< logarithm else pointerSize

/-- The runtime may move instance variables, so an entry only points to the offset. What cannot be
followed stands for 0. -/
def Ivar.offsetAt (i : Image) (pointer : Nat) : Except Fault Nat :=
  if pointer = 0 then .ok 0 else (attempt (i.pointerAt pointer)).map (·.getD 0)

def Ivar.form : EntryForm Ivar where
  size := Record.size IvarEntry
  read i address := do
    let e := (← i.recordAt IvarEntry address).value
    let name ← stringOr i e.name "?IVAR?"
    let offset ← offsetAt i e.offsetPointer
    let typeEncoding ← stringOr i e.type "?"
    return { name, typeEncoding, offset, size := e.size, alignment := alignmentOf e.alignment }

def Ivar.list : Image → Nat → Except Fault (List Ivar) := EntryForm.list fun _ => Ivar.form

/-- A list of protocols with this count or more is not believed. -/
def protocolLimit : Nat := 500

def protocolNameAt (i : Image) (slot : Nat) : Except Fault (Option String) := do
  let address ← i.pointerAt slot
  if address = 0 then return none
  let p := (← i.recordAt ProtocolRecord address).value
  return some (← i.stringAt p.name)

/-- The names of the listed protocols, without slots that are null or cannot be followed. -/
def protocolNames (i : Image) (list : Nat) : Except Fault (List String) :=
  if list = 0 then .ok []
  else do
    let count := (← i.recordAt ProtocolListHeader list).value.count
    if protocolLimit ≤ count then return []
    gatherFrom (protocolNameAt i) pointerSize (list + Record.size ProtocolListHeader) count

/-- The entry `k` of a list lies `k` strides behind the first one. -/
theorem gatherFrom_eq {α : Type} (read : Nat → Except Fault (Option α))
    (stride address count : Nat) : gatherFrom read stride address count =
      gather (fun k => read (address + stride * k)) (List.range count) := by
  induction count generalizing address with
  | zero => rfl
  | succ count ih =>
    have next (k : Nat) : address + stride * (k + 1) = address + stride + stride * k := by
      rw [Nat.mul_succ, Nat.add_comm (stride * k), Nat.add_assoc]
    rw [gatherFrom, ih, List.range_succ_eq_map, gather_cons, gather_map]
    simp only [Nat.succ_eq_add_one, next, Nat.mul_zero, Nat.add_zero]

end MachImage.Objc

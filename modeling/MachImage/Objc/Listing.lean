import MachImage.Objc.Declaration
import MachImage.Table
/-!
What the runtime sections of an image list, as far as it can be followed. A place that cannot be
read lists nothing, and of two classes at one address or two protocols of one name the first is
kept.
-/
namespace MachImage.Objc

def classSection : String := "__objc_classlist"
def categorySection : String := "__objc_catlist"
def protocolSection : String := "__objc_protolist"
def selectorSection : String := "__objc_selrefs"

def constantSection : String := "__objc_const"

def sectionNames : List String :=
  [classSection, categorySection, protocolSection, selectorSection, constantSection]

/-- The slots of a section of pointers. A section that lies outside the image has none. -/
def slots (i : Image) (name : String) : List (Nat × Nat) :=
  (i.pointerSection name).toOption.getD []

def readSlots (i : Image) (name : String) : Except Fault (List (Nat × Nat)) := do
  return (← attempt (i.pointerSection name)).getD []

def targets (slots : List (Nat × Nat)) : List Nat := (slots.map (·.2)).filter (· ≠ 0)

def declarations (i : Image) : Table Nat Declaration :=
  .ofListFirst ((targets (slots i classSection)).filterMap fun p =>
    (Declaration.at? i p).map fun d => (p, d))

def listedProtocols (i : Image) : Table String Protocol :=
  .ofListFirst ((targets (slots i protocolSection)).filterMap fun p =>
    (protocolAt i p).toOption.map fun q => (q.name, q))

def listedCategories (i : Image) : List Category :=
  (targets (slots i categorySection)).filterMap fun p => (categoryAt i p).toOption.join

def listedSelectors (i : Image) : List SelectorReference :=
  (slots i selectorSection).filterMap fun s => (selectorAt i s).toOption.join

def isForeign (ds : Table Nat Declaration) (address : Option Nat) : Bool :=
  (address.bind ds.get?).isNone

/-- The names that are demangled on the way, in order: those of listed classes, of superclasses and
of extended classes. A class that is not listed counts once for each mention. -/
def mangledNames (i : Image) : List String :=
  let ds := declarations i
  let mentions := ds.values.map (·.superclass?) ++ (listedCategories i).map (·.target)
  let foreign := (mentions.filter (isForeign ds)).filterMap fun p => p.bind (Declaration.at? i)
  (ds.values ++ foreign).filterMap (·.mangled?)

theorem at?_of_mem_declarations {i : Image} {address : Nat} {d : Declaration}
    (member : (address, d) ∈ declarations i) : Declaration.at? i address = some d := by
  obtain ⟨p, -, found⟩ := List.mem_filterMap.1 ((Table.distinct_sublist ..).subset member)
  obtain ⟨e, read, same⟩ := Option.map_eq_some_iff.1 found
  cases same
  exact read

theorem read_of_at? {i : Image} {address : Nat} {d : Declaration}
    (found : Declaration.at? i address = some d) : Declaration.read i address = .ok (some d) :=
  of_toOption_some (Option.join_eq_some_iff.1 found)

end MachImage.Objc

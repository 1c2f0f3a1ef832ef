import MachImage.Proofs.Objc.Listing
/-!
What an extraction comes to, without the order of its steps. Every class that is listed once becomes
one record, named and filled in from what its own address says, and extended by the categories that
name it. The metadata holds these records by name, and the categories that name none of them.
-/
namespace MachImage.Objc

/-- Runs stages until one fails. What the stages before it filled in stays. -/
def fill : List (Body → Except Fault Body) → Body → Except Fault Body
  | [], b => .ok b
  | stage :: rest, b => do
    match ← attempt (stage b) with
    | some c => fill rest c
    | none => return b

def instanceStages (i : Image) (d : ClassData) : List (Body → Except Fault Body) :=
  [fun b => do return { b with instanceMethods := ← Method.list false i d.methods },
   fun b => do return { b with properties := ← Property.list i d.properties },
   fun b => do return { b with protocols := ← protocolNames i d.protocols },
   fun b => do return { b with ivars := ← Ivar.list i d.ivars }]

/-- Class methods and class properties are those that the metaclass holds for its instances. -/
def classStages (i : Image) (metaclass : Nat) : List (Body → Except Fault Body) :=
  if metaclass = 0 then []
  else
    let data := (classRecordAt i metaclass).map (·.2)
    [fun b => do return { b with metaclass := some metaclass },
     fun b => do return { b with classMethods := ← Method.list true i (← data).methods },
     fun b => do return { b with classProperties := ← Property.list i (← data).properties }]

def Declaration.body (i : Image) (d : Declaration) : Except Fault Body :=
  fill (instanceStages i d.data ++ classStages i d.record.metaclass) {}

theorem fill_append (ss ts : List (Body → Except Fault Body)) (b c : Body)
    (h : ss.foldlM (fun b stage => stage b) b = .ok c) : fill (ss ++ ts) b = fill ts c := by
  induction ss generalizing b with
  | nil => cases h; rfl
  | cons s ss ih =>
    rw [List.foldlM_cons] at h
    cases hs : s b with
    | error e => rw [hs] at h; cases h
    | ok d =>
      rw [hs] at h
      simpa [fill, hs, attempt, bind, Except.bind] using ih d h

def readDeclarations (i : Image) : Except Fault (Table Nat Declaration) := do
  let found ← gather (Declaration.read i) (targets (← readSlots i classSection))
  return .ofListFirst (found.map fun d => (d.address, d))

def classOf (i : Image) (demangler : Demangler) (cs : List Category) (d : Declaration) :
    Except Fault Class := do
  let superclass ← d.superclass?.mapM (classNameAt i demangler)
  let body ← d.body i
  return {
    name := d.name demangler
    address := d.address
    isSwift := isSwift d.record
    superclass
    body := (cs.filter (·.target = some d.address)).foldl Body.extend body }

theorem fill_sure {stages : List (Body → Except Fault Body)}
    (tame : ∀ stage ∈ stages, ∀ b, Tame (stage b)) (b : Body) : Sure (fill stages b) := by
  induction stages generalizing b with
  | nil => exact sure_ok b
  | cons stage rest ih =>
    have later : ∀ s ∈ rest, ∀ b, Tame (s b) := fun s member =>
      tame s (List.mem_cons_of_mem _ member)
    apply (attempt_sure (tame stage List.mem_cons_self b)).bind
    intro found _
    cases found with
    | none => exact sure_ok b
    | some c => exact ih later c

theorem instanceStages_tame (i : Image) (d : ClassData) :
    ∀ stage ∈ instanceStages i d, ∀ b, Tame (stage b) := by
  intro stage member b
  simp only [instanceStages, List.mem_cons, List.not_mem_nil, or_false] at member
  rcases member with rfl | rfl | rfl | rfl
  · exact (methodList_tame ..).bind fun _ _ => tame_ok _
  · exact (propertyList_tame ..).bind fun _ _ => tame_ok _
  · exact (protocolNames_tame ..).bind fun _ _ => tame_ok _
  · exact (ivarList_tame ..).bind fun _ _ => tame_ok _

theorem classStages_tame (i : Image) (metaclass : Nat) :
    ∀ stage ∈ classStages i metaclass, ∀ b, Tame (stage b) := by
  intro stage member b
  unfold classStages at member
  split at member
  · cases member
  · have data := (classRecordAt_tame i metaclass).map (·.2)
    simp only [List.mem_cons, List.not_mem_nil, or_false] at member
    rcases member with rfl | rfl | rfl
    · exact tame_ok _
    · apply data.bind
      intro d _
      exact (methodList_tame ..).bind fun _ _ => tame_ok _
    · apply data.bind
      intro d _
      exact (propertyList_tame ..).bind fun _ _ => tame_ok _

theorem body_sure (i : Image) (d : Declaration) : Sure (d.body i) := by
  refine fill_sure (fun stage member => ?_) {}
  rcases List.mem_append.1 member with first | last
  · exact instanceStages_tame i d.data stage first
  · exact classStages_tame i d.record.metaclass stage last

theorem readDeclarations_eq (i : Image) : readDeclarations i = .ok (declarations i) := by
  unfold readDeclarations declarations
  rw [readSlots_eq]
  simp only [bind, Except.bind]
  rw [gather_of_tame fun p _ => declaration_tame i p]
  simp only [pure, Except.pure, List.map_filterMap]
  congr 3
  funext p
  change (Declaration.at? i p).map _ = (Declaration.at? i p).map _
  cases found : Declaration.at? i p with
  | none => rfl
  | some d => simp [at?_address found]

section
variable (i : Image) (demangler : Demangler)

def nameAt (address : Nat) : String :=
  match Declaration.at? i address with
  | some d => d.name demangler
  | none => foreignName

theorem classNameAt_eq (address : Nat) :
    classNameAt i demangler address = .ok (nameAt i demangler address) := by
  rw [classNameAt, attempt_of_tame (declaration_tame i address), ok_bind]
  unfold nameAt Declaration.at?
  cases (Declaration.read i address).toOption.join with
  | none => rfl
  | some d => rfl

theorem mapM_classNameAt (address : Option Nat) :
    address.mapM (classNameAt i demangler) = .ok (address.map (nameAt i demangler)) := by
  cases address with
  | none => rfl
  | some a =>
    change (classNameAt i demangler a >>= fun name => .ok (some name)) = _
    rw [classNameAt_eq]
    rfl

def Declaration.ownBody (d : Declaration) : Body := (d.body i).toOption.getD {}

theorem body_eq (d : Declaration) : d.body i = .ok (d.ownBody i) := by
  obtain ⟨b, run⟩ := body_sure i d
  rw [Declaration.ownBody, run]
  rfl

/-- The record of a class, extended by those of the categories that name it. -/
def record (cs : List Category) (d : Declaration) : Class where
  name := d.name demangler
  address := d.address
  isSwift := isSwift d.record
  superclass := d.superclass?.map (nameAt i demangler)
  body := (cs.filter (·.target = some d.address)).foldl Body.extend (d.ownBody i)

theorem classOf_eq (cs : List Category) (d : Declaration) :
    classOf i demangler cs d = .ok (record i demangler cs d) := by
  rw [classOf, mapM_classNameAt, ok_bind, body_eq]
  rfl

def foreign (c : Category) : ForeignCategory where
  category := { c with target := none }
  className := (c.target.map (nameAt i demangler)).getD foreignName

/-- All classes that are recorded, before their names are compared. -/
def records : List Class :=
  (declarations i).values.map (record i demangler (listedCategories i))

theorem records_eq :
    (declarations i).values.mapM (classOf i demangler (listedCategories i)) =
      .ok (records i demangler) :=
  mapM_of_ok fun d _ => classOf_eq i demangler (listedCategories i) d

def described : Metadata where
  classes := .ofListFirst ((records i demangler).map fun c => (c.name, c))
  protocols := listedProtocols i
  categories := ((listedCategories i).filter fun c => isForeign (declarations i) c.target).map
    (foreign i demangler)
  selectorReferences := listedSelectors i

end

end MachImage.Objc

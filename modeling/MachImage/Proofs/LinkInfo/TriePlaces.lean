import Mathlib
import MachImage.Attempt
import MachImage.Proofs.LinkInfo.ExportWalk
import MachImage.Proofs.Text.Utf8Pieces
/-!
Export tries of any bytes. A place is a node together with the labels that led to it; the places of
a trie are those its walk enters, each offset that some path leads to once. An edge to a node that
was entered before, that lies outside or that cannot be read costs no more than itself, unless it
leads back to the start under labels that spell nothing: there the walk takes it for the root.
-/
namespace MachImage.Export

/-- Up to `count` edges: the offset each one leads to, and its label. -/
def rawEdges : Nat → Cursor → List (Nat × List UInt8)
  | 0, _ => []
  | count + 1, c =>
    match c.cstringBytes with
    | .error _ => []
    | .ok (label, c) =>
      match c.unsigned with
      | .error _ => []
      | .ok (offset, c) => (offset, label) :: rawEdges count c

def links (r : Region) (offset : Nat) : Except Fault (List (Nat × List UInt8)) := do
  let (size, c) ← Cursor.unsigned { region := r, offset }
  let stop := c.offset + size
  if r.size < stop then throw (.exportInfo (r.base + offset))
  match Cursor.byte { region := r, offset := stop } with
  | .error _ => return []
  | .ok (count, c) => return rawEdges count.toNat c

theorem edges_eq (name : String) (count : Nat) (c : Cursor) :
    edges name count c =
      (rawEdges count c).map fun edge => (edge.1, name ++ Utf8.decode edge.2) := by
  induction count generalizing c with
  | zero => rfl
  | succ count ih =>
    rw [edges, rawEdges, Cursor.cstring]
    cases c.cstringBytes with
    | error e => rfl
    | ok p =>
      obtain ⟨label, c⟩ := p
      simp only [Cursor.Read.as, Except.map]
      cases c.unsigned with
      | error e => rfl
      | ok p =>
        obtain ⟨offset, c⟩ := p
        simp only [ih, List.map_cons]

theorem readNode_eq (r : Region) (offset : Nat) (name : String) :
    ∃ terminal, readNode r offset name = (links r offset).map fun edges =>
      ⟨terminal, edges.map fun edge => (edge.1, name ++ Utf8.decode edge.2)⟩ := by
  rw [readNode, links]
  cases Cursor.unsigned { region := r, offset } with
  | error e => exact ⟨none, rfl⟩
  | ok p =>
    obtain ⟨size, c⟩ := p
    simp only [ok_bind]
    split
    · exact ⟨none, rfl⟩
    · cases Cursor.byte { region := r, offset := c.offset + size } with
      | error e => exact ⟨_, rfl⟩
      | ok p =>
        obtain ⟨count, c⟩ := p
        simp only [edges_eq]
        exact ⟨_, rfl⟩

/-- A node, by its offset and the labels that led to it. -/
structure Place where
  offset : Nat
  path : List (List UInt8)

namespace Place

def root : Place := ⟨0, []⟩

def spelled (p : Place) : Nat × String := (p.offset, Utf8.spell p.path)

def below (r : Region) (p : Place) : List Place :=
  ((links r p.offset).toOption.getD []).map fun (offset, label) => ⟨offset, p.path ++ [label]⟩

def export? (r : Region) (p : Place) : Option Export :=
  (readNode r p.offset (Utf8.spell p.path)).toOption.bind (·.terminal)

/-- The walk takes the place for the root. -/
def AtRoot (p : Place) : Prop := p.offset = 0 ∧ p.path.flatten = []

instance : DecidablePred AtRoot := fun _ => inferInstanceAs (Decidable (_ ∧ _))

theorem atRoot_iff (p : Place) : p.AtRoot ↔ p.offset = 0 ∧ Utf8.spell p.path = "" := by
  rw [AtRoot, Utf8.spell_eq_empty_iff]

end Place

def entered (r : Region) (seen : Std.TreeSet Nat) : List Place → List Place
  | [] => []
  | p :: rest =>
    if _reachable : p.offset < r.size ∧ p.offset ∉ seen then
      p :: entered r (seen.insert p.offset) (p.below r ++ rest)
    else entered r seen rest
termination_by todo => (unseen r seen, todo.length)
decreasing_by
  · exact Prod.Lex.left _ _ (unseen_lt _reachable.1 _reachable.2)
  · exact Prod.Lex.right _ (Nat.lt_succ_self _)

def places (r : Region) : List Place := entered r ∅ [.root]

section
variable {r : Region} {seen : Std.TreeSet Nat} {p q : Place} {todo rest : List Place}

theorem entered_cons (reachable : p.offset < r.size ∧ p.offset ∉ seen) :
    entered r seen (p :: rest) = p :: entered r (seen.insert p.offset) (p.below r ++ rest) := by
  rw [entered, dif_pos reachable]

theorem entered_skip (unreachable : ¬ (p.offset < r.size ∧ p.offset ∉ seen)) :
    entered r seen (p :: rest) = entered r seen rest := by
  rw [entered, dif_neg unreachable]

/-- An entered place is inside and was not entered before. -/
theorem fresh_of_entered (member : q ∈ entered r seen todo) :
    q.offset < r.size ∧ q.offset ∉ seen := by
  induction seen, todo using entered.induct r with
  | case1 seen => simp [entered] at member
  | case2 seen p rest reachable ih =>
    rw [entered_cons reachable] at member
    rcases List.mem_cons.1 member with rfl | later
    · exact reachable
    · have fresh := ih later
      exact ⟨fresh.1, fun old => fresh.2 (by simp [old])⟩
  | case3 seen p rest unreachable ih =>
    rw [entered_skip unreachable] at member
    exact ih member

theorem entered_nodup (r : Region) (seen : Std.TreeSet Nat) (todo : List Place) :
    ((entered r seen todo).map Place.offset).Nodup := by
  induction seen, todo using entered.induct r with
  | case1 seen => simp [entered]
  | case2 seen p rest reachable ih =>
    rw [entered_cons reachable, List.map_cons, List.nodup_cons]
    refine ⟨fun again => ?_, ih⟩
    obtain ⟨q, member, same⟩ := List.mem_map.1 again
    apply (fresh_of_entered member).2
    simp [same]
  | case3 seen p rest unreachable ih =>
    rw [entered_skip unreachable]
    exact ih

theorem entered_of_below {holds : Place → Prop} (step : ∀ p, holds p → ∀ q ∈ p.below r, holds q)
    (start : ∀ p ∈ todo, holds p) (member : q ∈ entered r seen todo) : holds q := by
  induction seen, todo using entered.induct r with
  | case1 seen => simp [entered] at member
  | case2 seen p rest reachable ih =>
    obtain ⟨here, start⟩ := List.forall_mem_cons.1 start
    rw [entered_cons reachable] at member
    rcases List.mem_cons.1 member with rfl | later
    · exact here
    · exact ih (List.forall_mem_append.2 ⟨step p here, start⟩) later
  | case3 seen p rest unreachable ih =>
    rw [entered_skip unreachable] at member
    exact ih (List.forall_mem_cons.1 start).2 member

/-- A node is entered in the end: one to enter, or one that an edge of an entered node leads to. -/
theorem entered_closed (inside : q.offset < r.size)
    (source : q ∈ todo ∨ ∃ p ∈ entered r seen todo, q ∈ p.below r) :
    q.offset ∈ seen ∨ q.offset ∈ (entered r seen todo).map Place.offset := by
  induction seen, todo using entered.induct r with
  | case1 seen => simp [entered] at source
  | case2 seen p rest reachable ih =>
    rw [entered_cons reachable] at source ⊢
    by_cases here : q.offset = p.offset
    · simp [here]
    · have later : q ∈ p.below r ++ rest ∨
          ∃ p' ∈ entered r (seen.insert p.offset) (p.below r ++ rest), q ∈ p'.below r := by
        rcases source with waiting | ⟨p', member, below⟩
        · rcases List.mem_cons.1 waiting with same | waiting
          · exact absurd (congrArg Place.offset same) here
          · exact .inl (List.mem_append_right _ waiting)
        · rcases List.mem_cons.1 member with rfl | member
          · exact .inl (List.mem_append_left _ below)
          · exact .inr ⟨p', member, below⟩
      rcases ih later with old | found
      · simp only [Std.TreeSet.mem_insert, Nat.compare_eq_eq] at old
        exact .inl (old.resolve_left (Ne.symm here))
      · exact .inr (List.mem_cons_of_mem _ found)
  | case3 seen p rest unreachable ih =>
    rw [entered_skip unreachable] at source ⊢
    rcases source with waiting | later
    · rcases List.mem_cons.1 waiting with rfl | waiting
      · exact .inl (Decidable.byContradiction fun fresh => unreachable ⟨inside, fresh⟩)
      · exact ih (.inl waiting)
    · exact ih (.inr later)

end

inductive Leads (r : Region) : Place → Prop
  | root : Leads r .root
  | edge {p q : Place} (before : Leads r p) (edge : q ∈ p.below r) : Leads r q

theorem inside_of_below {r : Region} {p q : Place} (edge : q ∈ p.below r) : p.offset < r.size := by
  cases run : links r p.offset with
  | error e => simp [Place.below, run, Except.toOption] at edge
  | ok edges =>
    obtain ⟨⟨size, c⟩, read, -⟩ := of_bind_ok run
    have less := (Cursor.unsigned_moves _ _ _ read).2.2
    simp only [Cursor.left] at less
    omega

theorem below_of_offset {r : Region} {p q p' : Place} (same : p'.offset = p.offset)
    (edge : q ∈ p.below r) : ∃ q' ∈ p'.below r, q'.offset = q.offset := by
  obtain ⟨⟨offset, label⟩, listed, rfl⟩ := List.mem_map.1 edge
  refine ⟨⟨offset, p'.path ++ [label]⟩, List.mem_map.2 ⟨(offset, label), ?_, rfl⟩, rfl⟩
  rw [same]
  exact listed

theorem leads_of_places {r : Region} {p : Place} (member : p ∈ places r) : Leads r p := by
  refine entered_of_below (fun _ before _ edge => before.edge edge) ?_ member
  intro p start
  rw [List.mem_singleton.1 start]
  exact .root

theorem mem_places_of_leads {r : Region} {p : Place} (leads : Leads r p)
    (inside : p.offset < r.size) : p.offset ∈ (places r).map Place.offset := by
  induction leads with
  | root =>
    have start : Place.root ∈ [Place.root] := List.mem_singleton.2 rfl
    exact (entered_closed inside (.inl start)).resolve_left Std.TreeSet.not_mem_emptyc
  | @edge p q before edge ih =>
    obtain ⟨p', member, same⟩ := List.mem_map.1 (ih (inside_of_below edge))
    obtain ⟨q', edge', target⟩ := below_of_offset same edge
    rw [← target] at inside ⊢
    exact (entered_closed inside (.inr ⟨p', member, edge'⟩)).resolve_left
      Std.TreeSet.not_mem_emptyc

theorem mem_places_iff (r : Region) (offset : Nat) :
    offset ∈ (places r).map Place.offset ↔
      offset < r.size ∧ ∃ p, Leads r p ∧ p.offset = offset := by
  constructor
  · intro member
    obtain ⟨p, place, rfl⟩ := List.mem_map.1 member
    exact ⟨(fresh_of_entered place).1, p, leads_of_places place, rfl⟩
  · rintro ⟨inside, p, leads, rfl⟩
    exact mem_places_of_leads leads inside

section
variable {r : Region} {p : Place} {name : String}

theorem below_of_read {node : Node} (read : readNode r p.offset (Utf8.spell p.path) = .ok node) :
    node.edges = (p.below r).map Place.spelled := by
  obtain ⟨terminal, same⟩ := readNode_eq r p.offset (Utf8.spell p.path)
  rw [read] at same
  cases edges : links r p.offset with
  | error e => rw [edges] at same; cases same
  | ok edges =>
    rw [edges] at same
    cases same
    simp [Place.below, Place.spelled, edges, Except.toOption, Utf8.spell_append,
      Utf8.spell_singleton]

theorem below_of_failed {e : Fault} (failed : readNode r p.offset name = .error e) :
    p.below r = [] := by
  obtain ⟨terminal, same⟩ := readNode_eq r p.offset name
  rw [failed] at same
  cases edges : links r p.offset with
  | error e => simp [Place.below, edges, Except.toOption]
  | ok edges => rw [edges] at same; cases same

end

def ReturnsFrom (r : Region) (seen : Std.TreeSet Nat) (todo : List Place) : Prop :=
  (∃ p ∈ todo, p.AtRoot) ∨ ∃ p ∈ entered r seen todo, ∃ q ∈ p.below r, q.AtRoot

instance (r : Region) (seen : Std.TreeSet Nat) (todo : List Place) :
    Decidable (ReturnsFrom r seen todo) :=
  inferInstanceAs (Decidable (_ ∨ _))

section
variable {r : Region} {seen : Std.TreeSet Nat} {p : Place} {rest : List Place}

theorem returnsFrom_cons (away : ¬ p.AtRoot) (reachable : p.offset < r.size ∧ p.offset ∉ seen) :
    ReturnsFrom r seen (p :: rest) ↔
      ReturnsFrom r (seen.insert p.offset) (p.below r ++ rest) := by
  simp only [ReturnsFrom, entered_cons reachable, List.mem_cons, exists_eq_or_imp, away, false_or]
  simp only [List.mem_append, or_and_right, exists_or]
  exact or_left_comm.trans or_assoc.symm

theorem returnsFrom_skip (away : ¬ p.AtRoot)
    (unreachable : ¬ (p.offset < r.size ∧ p.offset ∉ seen)) :
    ReturnsFrom r seen (p :: rest) ↔ ReturnsFrom r seen rest := by
  simp [ReturnsFrom, entered_skip unreachable, away]

end

/-- Behind the root a walk finds what its places export, or comes to the root again. -/
theorem walk_places (r : Region) (seen : Std.TreeSet Nat) (todo : List Place) (started : 0 ∈ seen)
    (found : Array Export) :
    walk r seen found (todo.map Place.spelled) =
      if ReturnsFrom r seen todo then .error (.trieNode r.base)
      else .ok (found ++ ((entered r seen todo).filterMap (Place.export? r)).toArray) := by
  induction seen, todo using entered.induct r generalizing found with
  | case1 seen => simp [walk_nil, ReturnsFrom, entered]
  | case2 seen p rest reachable ih =>
    have away : ¬ p.AtRoot := fun root => reachable.2 (root.1 ▸ started)
    have ih := ih (by simp [started])
    rw [List.map_append] at ih
    simp only [returnsFrom_cons away reachable, entered_cons reachable, List.map_cons]
    cases read : readNode r p.offset (Utf8.spell p.path) with
    | ok node =>
      rw [Place.spelled, walk_node reachable read, below_of_read read, ih]
      have exported : p.export? r = node.terminal := by simp [Place.export?, read, Except.toOption]
      rw [List.filterMap_cons, exported]
      cases node.terminal <;> simp
    | error e =>
      have none : p.export? r = none := by simp [Place.export?, read, Except.toOption]
      rw [below_of_failed read] at ih ⊢
      rw [Place.spelled, walk_unreadable reachable read, if_neg (mt p.atRoot_iff.2 away),
        List.filterMap_cons, none]
      exact ih found
  | case3 seen p rest unreachable ih =>
    rw [List.map_cons, Place.spelled, walk_skip unreachable, entered_skip unreachable]
    by_cases away : p.AtRoot
    · have back : ReturnsFrom r seen (p :: rest) := .inl ⟨p, List.mem_cons_self, away⟩
      rw [if_pos back, if_pos (p.atRoot_iff.1 away), away.1]
      simp
    · rw [if_neg (mt p.atRoot_iff.2 away), ih started]
      simp only [returnsFrom_skip away unreachable]

/-- Why a node cannot be read: no size of its export, or one that runs past the end. -/
inductive Unreadable (r : Region) (offset : Nat) : Fault → Prop
  | size {e : Fault} (failed : Cursor.unsigned { region := r, offset } = .error e) :
    Unreadable r offset e
  | info {size : Nat} {c : Cursor} (read : Cursor.unsigned { region := r, offset } = .ok (size, c))
    (past : r.size < c.offset + size) : Unreadable r offset (.exportInfo (r.base + offset))

theorem links_error_iff (r : Region) (offset : Nat) (e : Fault) :
    links r offset = .error e ↔ Unreadable r offset e := by
  constructor
  · intro failed
    cases read : Cursor.unsigned { region := r, offset } with
    | error f =>
      rw [links, read] at failed
      cases failed
      exact .size read
    | ok p =>
      obtain ⟨size, c⟩ := p
      rw [links, read, ok_bind] at failed
      by_cases past : r.size < c.offset + size
      · simp only [if_pos past] at failed
        cases failed
        exact .info read past
      · simp only [if_neg past] at failed
        cases count : Cursor.byte { region := r, offset := c.offset + size } <;>
          rw [count] at failed <;> cases failed
  · intro unreadable
    cases unreadable with
    | size failed =>
      rw [links, failed]
      rfl
    | info read past =>
      rw [links, read, ok_bind]
      simp only [if_pos past]
      rfl

def RootFault (r : Region) (e : Fault) : Prop :=
  if r.size = 0 then e = .trieNode r.base else Unreadable r 0 e

/-- An edge leads back to the root under labels that spell nothing. -/
def ReturnsToRoot (r : Region) : Prop := ∃ p ∈ places r, ∃ q ∈ p.below r, q.AtRoot

instance (r : Region) : Decidable (ReturnsToRoot r) :=
  inferInstanceAs (Decidable (∃ p ∈ places r, _))

section
variable {r : Region}

theorem readNode_error_iff {offset : Nat} {name : String} {e : Fault} :
    readNode r offset name = .error e ↔ Unreadable r offset e := by
  obtain ⟨terminal, same⟩ := readNode_eq r offset name
  rw [same, ← links_error_iff]
  cases links r offset with
  | error f => simp [Except.map]
  | ok edges => simp [Except.map]

theorem ofStream_of_fault {e : Fault} (fault : RootFault r e) : ofStream r = .error e := by
  rw [RootFault] at fault
  split at fault
  · next none =>
    rw [ofStream, walk_skip (by omega), fault]
    simp [Except.map]
  · next some =>
    have failed : readNode r 0 "" = .error e := readNode_error_iff.2 fault
    rw [ofStream, walk_unreadable ⟨by omega, Std.TreeSet.not_mem_emptyc⟩ failed]
    rfl

theorem ofStream_of_places (readable : ∀ e, ¬ RootFault r e) :
    ofStream r =
      if ReturnsToRoot r then .error (.trieNode r.base)
      else .ok ((places r).filterMap (Place.export? r)) := by
  have some : r.size ≠ 0 := fun none => readable (.trieNode r.base) (by simp [RootFault, none])
  have reachable : Place.root.offset < r.size ∧ Place.root.offset ∉ (∅ : Std.TreeSet Nat) :=
    ⟨Nat.pos_of_ne_zero some, Std.TreeSet.not_mem_emptyc⟩
  have found : places r = .root :: entered r (Std.TreeSet.insert ∅ 0) (Place.root.below r) := by
    rw [places, entered_cons reachable, List.append_nil]
    rfl
  have returns : ReturnsToRoot r ↔
      ReturnsFrom r (Std.TreeSet.insert ∅ 0) (Place.root.below r) := by
    simp [ReturnsToRoot, ReturnsFrom, found]
  cases read : readNode r 0 "" with
  | error e =>
    have fault := readNode_error_iff.1 read
    exact absurd (show RootFault r e by rwa [RootFault, if_neg some]) (readable e)
  | ok node =>
    have edges : node.edges = (Place.root.below r).map Place.spelled := below_of_read read
    have exported : Place.root.export? r = node.terminal :=
      show (readNode r 0 "").toOption.bind (·.terminal) = node.terminal by rw [read]; rfl
    have start : walk r ∅ #[] [(0, "")] = _ := walk_node reachable read
    rw [ofStream, start, List.append_nil, edges, walk_places r _ _ (by simp) _, found,
      List.filterMap_cons, exported]
    simp only [returns]
    split
    · rfl
    · cases node.terminal <;> simp [Except.map]

end

/-- A stream fails for its root alone, or for an edge that is taken to be the root again. Else it
holds what the places export, and each offset that a path leads to is one of them, once. -/
theorem exports_of_places (r : Region) :
    (∀ e, ofStream r = .error e ↔
      RootFault r e ∨ (∀ f, ¬ RootFault r f) ∧ ReturnsToRoot r ∧ e = .trieNode r.base) ∧
    (∀ es, ofStream r = .ok es → es = (places r).filterMap (Place.export? r)) ∧
    ((places r).map Place.offset).Nodup ∧
    ∀ offset, offset ∈ (places r).map Place.offset ↔
      offset < r.size ∧ ∃ p, Leads r p ∧ p.offset = offset := by
  refine ⟨?_, ?_, entered_nodup r ∅ [.root], mem_places_iff r⟩
  · intro e
    by_cases readable : ∀ f, ¬ RootFault r f
    · rw [ofStream_of_places readable]
      split
      · next returns => simp [readable, returns, eq_comm]
      · next away => simp [readable, away]
    · constructor
      · intro failed
        obtain ⟨f, fault⟩ := Classical.not_forall_not.1 readable
        cases (ofStream_of_fault fault).symm.trans failed
        exact .inl fault
      · rintro (fault | ⟨readable', -⟩)
        · exact ofStream_of_fault fault
        · exact absurd readable' readable
  · intro es run
    have readable : ∀ f, ¬ RootFault r f := by
      intro f fault
      cases (ofStream_of_fault fault).symm.trans run
    rw [ofStream_of_places readable] at run
    split at run
    · cases run
    · exact (Except.ok.inj run).symm

def backEdge : Region := { bytes := #[0, 2, 0x5F, 0x6F, 0x6B, 0, 9, 0, 0, 2, 0, 0x10, 0] }

/-- The root can be read and `_ok` can be reached, and yet the stream fails. -/
theorem backEdge_fails :
    (∀ e, ¬ RootFault backEdge e) ∧
    (places backEdge).filterMap (Place.export? backEdge) =
      [{ name := "_ok", flags := 0, address := 0x10 }] ∧
    ofStream backEdge = .error (.trieNode 0) := by
  refine ⟨?_, by cbv, by cbv⟩
  intro e fault
  have failed : links backEdge 0 = .error e := (links_error_iff _ _ _).2 fault
  have read : links backEdge 0 = .ok [(9, [0x5F, 0x6F, 0x6B]), (0, [])] := by cbv
  cases read.symm.trans failed

end MachImage.Export

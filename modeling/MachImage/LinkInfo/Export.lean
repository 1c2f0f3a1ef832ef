import MachImage.Cursor
import Std.Data.TreeSet
/-!
The export trie holds the names an image exports, split along its edges. A node has the export
that ends there, if one does, and edges to other nodes with a label each. The walk goes depth
first in the order of the edges and enters a node once: an edge that leads outside the trie, to a
node that was entered before or to one that cannot be read is left out. Only where the name is
still empty at offset zero is that the fault of the whole.
-/
namespace MachImage

/-- An export of the image itself has an address, counted from the virtual base, and perhaps a
resolver. A re-export has the dylib it comes from, and perhaps its name there. -/
structure Export where
  name : String
  (flags address : Nat)
  resolver : Option Nat := none
  importName : Option String := none
  importOrdinal : Option Nat := none

inductive ExportKind where
  | regular | threadLocal | absolute
  deriving DecidableEq

namespace Export

def kind (e : Export) : ExportKind :=
  if e.flags % 4 = 1 then .threadLocal else if e.flags % 4 = 2 then .absolute else .regular

def isWeakFlag (flags : Nat) : Bool := flags.testBit 2
def isReexportFlag (flags : Nat) : Bool := flags.testBit 3
def isResolverFlag (flags : Nat) : Bool := flags.testBit 4

def isWeak (e : Export) : Bool := isWeakFlag e.flags
def isReexport (e : Export) : Bool := isReexportFlag e.flags
def hasResolver (e : Export) : Bool := isResolverFlag e.flags

def read (r : Region) (name : String) : Except Fault Export := do
  let (flags, c) ← Cursor.unsigned { region := r }
  let (first, c) ← c.unsigned
  if isReexportFlag flags then
    let importName ← if c.atEnd then pure "" else c.cstring.map (·.1)
    return { name, flags, address := 0, importOrdinal := some first,
             importName := if importName = "" then none else some importName }
  else if isResolverFlag flags && !c.atEnd then
    let (resolver, _) ← c.unsigned
    return { name, flags, address := first, resolver := some resolver }
  else return { name, flags, address := first }

/-- Up to `count` edges, as the offset of the node and its name. The first edge that cannot be
read ends them. -/
def edges (name : String) : Nat → Cursor → List (Nat × String)
  | 0, _ => []
  | count + 1, c =>
    match c.cstring with
    | .error _ => []
    | .ok (label, c) =>
      match c.unsigned with
      | .error _ => []
      | .ok (offset, c) => (offset, name ++ label) :: edges name count c

structure Node where
  terminal : Option Export
  edges : List (Nat × String)

/-- An export that cannot be read is left out, and its node keeps the edges. -/
def readNode (r : Region) (offset : Nat) (name : String) : Except Fault Node := do
  let (size, c) ← Cursor.unsigned { region := r, offset }
  let stop := c.offset + size
  if r.size < stop then throw (.exportInfo (r.base + offset))
  let terminal := if size = 0 then none else
    (r.slice c.offset size >>= fun info => read info name).toOption
  match Cursor.byte { region := r, offset := stop } with
  | .error _ => return ⟨terminal, []⟩
  | .ok (count, c) => return ⟨terminal, edges name count.toNat c⟩

def unseen (r : Region) (seen : Std.TreeSet Nat) : Nat := (List.range r.size).countP (· ∉ seen)

theorem unseen_lt {r : Region} {seen : Std.TreeSet Nat} {offset : Nat} (inside : offset < r.size)
    (fresh : offset ∉ seen) : unseen r (seen.insert offset) < unseen r seen := by
  have strict : ∀ places : List Nat, offset ∈ places →
      places.countP (· ∉ seen.insert offset) < places.countP (· ∉ seen) := by
    intro places member
    induction places with
    | nil => simp at member
    | cons p places ih =>
      have weak : places.countP (· ∉ seen.insert offset) ≤ places.countP (· ∉ seen) :=
        List.countP_mono_left fun a _ h => by simp_all
      by_cases here : p = offset
      · rw [List.countP_cons_of_neg (by simp [here]),
          List.countP_cons_of_pos (by simp [here, fresh])]
        omega
      · have := ih ((List.mem_cons.1 member).resolve_left (Ne.symm here))
        by_cases old : p ∈ seen
        · rw [List.countP_cons_of_neg (by simp [old]), List.countP_cons_of_neg (by simp [old])]
          exact this
        · rw [List.countP_cons_of_pos (by simp [Ne.symm here, old]),
            List.countP_cons_of_pos (by simp [old])]
          omega
  exact strict _ (List.mem_range.2 inside)

/-- The walk keeps the nodes still to enter, with their names, the next one first. The reader of
nodes may do more than read. -/
def walkWith {m : Type → Type} [Monad m] (read : Nat → String → m (Except Fault Node)) (r : Region)
    (seen : Std.TreeSet Nat) (found : Array Export) :
    List (Nat × String) → m (Except Fault (Array Export))
  | [] => pure (.ok found)
  | (offset, name) :: rest =>
    let isRoot := offset = 0 ∧ name = ""
    if _reachable : offset < r.size ∧ offset ∉ seen then do
      match ← read offset name with
      | .ok node =>
        walkWith read r (seen.insert offset) (node.terminal.elim found found.push)
          (node.edges ++ rest)
      | .error e =>
        if isRoot then pure (.error e) else walkWith read r (seen.insert offset) found rest
    else if isRoot then pure (.error (.trieNode (r.base + offset)))
    else walkWith read r seen found rest
termination_by todo => (unseen r seen, todo.length)
decreasing_by
  · exact Prod.Lex.left _ _ (unseen_lt _reachable.1 _reachable.2)
  · exact Prod.Lex.left _ _ (unseen_lt _reachable.1 _reachable.2)
  · exact Prod.Lex.right _ (Nat.lt_succ_self _)

def walk (r : Region) : Std.TreeSet Nat → Array Export → List (Nat × String) →
    Except Fault (Array Export) :=
  walkWith (m := Id) (readNode r) r

def ofStream (r : Region) : Except Fault (List Export) :=
  (walk r ∅ #[] [(0, "")]).map (·.toList)

end Export
end MachImage

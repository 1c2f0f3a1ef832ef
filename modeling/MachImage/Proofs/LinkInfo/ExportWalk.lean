import MachImage.LinkInfo.Export
/-!
The export trie, walked by recursion. The program keeps a stack of nodes to enter; the recursion
enters a node, then the nodes below it, then its siblings, and hands on one set of entered offsets.
Both find the same exports, and no offset is read twice.
-/
namespace MachImage.Export

/-- The exports at and below some nodes, and the offsets that were entered by then. -/
def preorder (r : Region) (seen : Std.TreeSet Nat) : List (Nat × String) →
    { out : List Export × Std.TreeSet Nat // unseen r out.2 ≤ unseen r seen }
  | [] => ⟨([], seen), Nat.le_refl _⟩
  | (offset, name) :: rest =>
    if reachable : offset < r.size ∧ offset ∉ seen then
      have fewer := unseen_lt reachable.1 reachable.2
      match readNode r offset name with
      | .ok node =>
        let below := preorder r (seen.insert offset) node.edges
        let later := preorder r below.1.2 rest
        ⟨(node.terminal.toList ++ below.1.1 ++ later.1.1, later.1.2),
          Nat.le_trans later.2 (Nat.le_trans below.2 (Nat.le_of_lt fewer))⟩
      | .error _ =>
        let later := preorder r (seen.insert offset) rest
        ⟨later.1, Nat.le_trans later.2 (Nat.le_of_lt fewer)⟩
    else preorder r seen rest
termination_by todo => (unseen r seen, todo.length)
decreasing_by
  · exact Prod.Lex.left _ _ fewer
  · exact Prod.Lex.left _ _ (Nat.lt_of_le_of_lt below.2 fewer)
  · exact Prod.Lex.left _ _ fewer
  · exact Prod.Lex.right _ (Nat.lt_succ_self _)

section
variable {r : Region} {seen : Std.TreeSet Nat} {found : Array Export} {offset : Nat}
  {name : String} {rest : List (Nat × String)} {node : Node} {e : Fault}

theorem preorder_node (reachable : offset < r.size ∧ offset ∉ seen)
    (read : readNode r offset name = .ok node) :
    let below := (preorder r (seen.insert offset) node.edges).1
    let later := (preorder r below.2 rest).1
    (preorder r seen ((offset, name) :: rest)).1 =
      (node.terminal.toList ++ below.1 ++ later.1, later.2) := by
  rw [preorder, dif_pos reachable]
  split
  · next other same =>
    cases read.symm.trans same
    rfl
  · next e failed => cases read.symm.trans failed

theorem preorder_unreadable (reachable : offset < r.size ∧ offset ∉ seen)
    (failed : readNode r offset name = .error e) :
    (preorder r seen ((offset, name) :: rest)).1 = (preorder r (seen.insert offset) rest).1 := by
  rw [preorder, dif_pos reachable]
  split
  · next other read => cases failed.symm.trans read
  · rfl

theorem preorder_skip (unreachable : ¬ (offset < r.size ∧ offset ∉ seen)) :
    (preorder r seen ((offset, name) :: rest)).1 = (preorder r seen rest).1 := by
  rw [preorder, dif_neg unreachable]

theorem preorder_append (first last : List (Nat × String)) (seen : Std.TreeSet Nat) :
    let before := (preorder r seen first).1
    let after := (preorder r before.2 last).1
    (preorder r seen (first ++ last)).1 = (before.1 ++ after.1, after.2) := by
  induction first generalizing seen with
  | nil => rw [preorder]; rfl
  | cons place first ih =>
    obtain ⟨offset, name⟩ := place
    by_cases reachable : offset < r.size ∧ offset ∉ seen
    · cases read : readNode r offset name with
      | ok node =>
        rw [List.cons_append, preorder_node reachable read, preorder_node reachable read]
        simp only [ih, List.append_assoc]
      | error e =>
        rw [List.cons_append, preorder_unreadable reachable read,
          preorder_unreadable reachable read]
        exact ih _
    · rw [List.cons_append, preorder_skip reachable, preorder_skip reachable]
      exact ih _

end

/-- What holds of a walk holds after any entered node and after any skipped one. -/
theorem walk_induction (r : Region) {motive : Std.TreeSet Nat → List (Nat × String) → Prop}
    (done : ∀ seen, motive seen [])
    (enter : ∀ seen offset name rest, offset < r.size ∧ offset ∉ seen →
      (∀ todo, motive (seen.insert offset) todo) → motive seen ((offset, name) :: rest))
    (skip : ∀ seen offset name rest, ¬ (offset < r.size ∧ offset ∉ seen) →
      motive seen rest → motive seen ((offset, name) :: rest)) :
    ∀ seen todo, motive seen todo := by
  intro seen
  induction h : unseen r seen using Nat.strongRecOn generalizing seen with
  | ind k ih =>
    intro todo
    induction todo with
    | nil => exact done seen
    | cons place rest later =>
      obtain ⟨offset, name⟩ := place
      by_cases reachable : offset < r.size ∧ offset ∉ seen
      · have fewer : unseen r (seen.insert offset) < k := by
          rw [← h]
          exact unseen_lt reachable.1 reachable.2
        exact enter seen offset name rest reachable (ih _ fewer _ rfl)
      · exact skip seen offset name rest reachable later

/-- A reader of nodes that writes down the offset of every node it is asked for. -/
def logged (r : Region) (offset : Nat) (name : String) : StateM (List Nat) (Except Fault Node) := do
  modify (· ++ [offset])
  return readNode r offset name

def loggedWalk (r : Region) (seen : Std.TreeSet Nat) (found : Array Export)
    (todo : List (Nat × String)) (log : List Nat) : Except Fault (Array Export) × List Nat :=
  (walkWith (logged r) r seen found todo).run log

section
variable {r : Region} {seen : Std.TreeSet Nat} {found : Array Export} {log : List Nat}
  {offset : Nat} {name : String} {rest : List (Nat × String)} {node : Node} {e : Fault}

theorem walk_nil : walk r seen found [] = .ok found := by
  rw [walk, walkWith]
  rfl

theorem loggedWalk_nil : loggedWalk r seen found [] log = (.ok found, log) := by
  rw [loggedWalk, walkWith]
  rfl

theorem walk_node (reachable : offset < r.size ∧ offset ∉ seen)
    (read : readNode r offset name = .ok node) :
    walk r seen found ((offset, name) :: rest) =
      walk r (seen.insert offset) (node.terminal.elim found found.push) (node.edges ++ rest) := by
  rw [walk, walkWith, dif_pos reachable]
  simp only [bind, read]

theorem loggedWalk_node (reachable : offset < r.size ∧ offset ∉ seen)
    (read : readNode r offset name = .ok node) :
    loggedWalk r seen found ((offset, name) :: rest) log =
      loggedWalk r (seen.insert offset) (node.terminal.elim found found.push)
        (node.edges ++ rest) (log ++ [offset]) := by
  rw [loggedWalk, walkWith, dif_pos reachable, loggedWalk]
  simp only [logged, read]
  rfl

theorem walk_unreadable (reachable : offset < r.size ∧ offset ∉ seen)
    (failed : readNode r offset name = .error e) :
    walk r seen found ((offset, name) :: rest) =
      if offset = 0 ∧ name = "" then .error e else walk r (seen.insert offset) found rest := by
  rw [walk, walkWith, dif_pos reachable]
  simp only [bind, failed]
  rfl

theorem loggedWalk_unreadable (reachable : offset < r.size ∧ offset ∉ seen)
    (failed : readNode r offset name = .error e) :
    loggedWalk r seen found ((offset, name) :: rest) log =
      if offset = 0 ∧ name = "" then (.error e, log ++ [offset])
      else loggedWalk r (seen.insert offset) found rest (log ++ [offset]) := by
  rw [loggedWalk, walkWith, dif_pos reachable, loggedWalk]
  simp only [logged, failed]
  split <;> rfl

theorem walk_skip (unreachable : ¬ (offset < r.size ∧ offset ∉ seen)) :
    walk r seen found ((offset, name) :: rest) =
      if offset = 0 ∧ name = "" then .error (.trieNode (r.base + offset))
      else walk r seen found rest := by
  rw [walk, walkWith, dif_neg unreachable]
  rfl

theorem loggedWalk_skip (unreachable : ¬ (offset < r.size ∧ offset ∉ seen)) :
    loggedWalk r seen found ((offset, name) :: rest) log =
      if offset = 0 ∧ name = "" then (.error (.trieNode (r.base + offset)), log)
      else loggedWalk r seen found rest log := by
  rw [loggedWalk, walkWith, dif_neg unreachable, loggedWalk]
  split <;> rfl

end

theorem loggedWalk_outcome (r : Region) (seen : Std.TreeSet Nat) (todo : List (Nat × String)) :
    ∀ found log, (loggedWalk r seen found todo log).1 = walk r seen found todo := by
  induction seen, todo using walk_induction r with
  | done seen =>
    intro found log
    rw [loggedWalk_nil, walk_nil]
  | enter seen offset name rest reachable ih =>
    intro found log
    cases read : readNode r offset name with
    | ok node =>
      rw [loggedWalk_node reachable read, walk_node reachable read]
      exact ih _ _ _
    | error e =>
      rw [loggedWalk_unreadable reachable read, walk_unreadable reachable read]
      split
      · rfl
      · exact ih _ _ _
  | skip seen offset name rest unreachable ih =>
    intro found log
    rw [loggedWalk_skip unreachable, walk_skip unreachable]
    split
    · rfl
    · exact ih found log

structure Log (r : Region) (seen : Std.TreeSet Nat) (log : List Nat) : Prop where
  nodup : log.Nodup
  inside : ∀ offset ∈ log, offset < r.size
  entered : ∀ offset ∈ log, offset ∈ seen

theorem Log.empty (r : Region) : Log r ∅ [] :=
  ⟨List.nodup_nil, fun _ h => absurd h List.not_mem_nil, fun _ h => absurd h List.not_mem_nil⟩

theorem Log.enter {r : Region} {seen : Std.TreeSet Nat} {log : List Nat} {offset : Nat}
    (h : Log r seen log) (reachable : offset < r.size ∧ offset ∉ seen) :
    Log r (seen.insert offset) (log ++ [offset]) := by
  have fresh : offset ∉ log := fun member => reachable.2 (h.entered offset member)
  constructor
  · rw [List.nodup_append]
    refine ⟨h.nodup, by simp, ?_⟩
    intro a old b new same
    rw [List.mem_singleton] at new
    exact fresh (new ▸ same ▸ old)
  · intro a member
    rcases List.mem_append.1 member with old | new
    · exact h.inside a old
    · rw [List.mem_singleton.1 new]
      exact reachable.1
  · intro a member
    rcases List.mem_append.1 member with old | new
    · simp [h.entered a old]
    · simp [List.mem_singleton.1 new]

theorem Log.length_le {r : Region} {seen : Std.TreeSet Nat} {log : List Nat}
    (h : Log r seen log) : log.length ≤ r.size := by
  have subset : log ⊆ List.range r.size := fun offset member =>
    List.mem_range.2 (h.inside offset member)
  have bound := h.nodup.length_le_of_subset subset
  rwa [List.length_range] at bound

theorem loggedWalk_log (r : Region) (seen : Std.TreeSet Nat) (todo : List (Nat × String)) :
    ∀ found log, Log r seen log →
      ∃ entered, Log r entered (loggedWalk r seen found todo log).2 := by
  induction seen, todo using walk_induction r with
  | done seen =>
    intro found log h
    rw [loggedWalk_nil]
    exact ⟨seen, h⟩
  | enter seen offset name rest reachable ih =>
    intro found log h
    cases read : readNode r offset name with
    | ok node =>
      rw [loggedWalk_node reachable read]
      exact ih _ _ _ (h.enter reachable)
    | error e =>
      rw [loggedWalk_unreadable reachable read]
      split
      · exact ⟨_, h.enter reachable⟩
      · exact ih _ _ _ (h.enter reachable)
  | skip seen offset name rest unreachable ih =>
    intro found log h
    rw [loggedWalk_skip unreachable]
    split
    · exact ⟨seen, h⟩
    · exact ih found log h

theorem walk_size_le (r : Region) (seen : Std.TreeSet Nat) (todo : List (Nat × String)) :
    ∀ found log out, walk r seen found todo = .ok out →
      out.size + log.length ≤ found.size + (loggedWalk r seen found todo log).2.length := by
  induction seen, todo using walk_induction r with
  | done seen =>
    intro found log out run
    rw [walk_nil] at run
    cases run
    exact Nat.le_of_eq (by rw [loggedWalk_nil])
  | enter seen offset name rest reachable ih =>
    intro found log out run
    cases read : readNode r offset name with
    | ok node =>
      rw [walk_node reachable read] at run
      rw [loggedWalk_node reachable read]
      have later := ih _ _ (log ++ [offset]) _ run
      have grown : (node.terminal.elim found found.push).size ≤ found.size + 1 := by
        cases node.terminal with
        | none => exact Nat.le_succ _
        | some x => exact Nat.le_of_eq (Array.size_push x)
      rw [List.length_append, List.length_singleton] at later
      omega
    | error e =>
      rw [walk_unreadable reachable read] at run
      rw [loggedWalk_unreadable reachable read]
      split at run
      · cases run
      · next below =>
        rw [if_neg below]
        have later := ih _ _ (log ++ [offset]) _ run
        rw [List.length_append, List.length_singleton] at later
        omega
  | skip seen offset name rest unreachable ih =>
    intro found log out run
    rw [walk_skip unreachable] at run
    rw [loggedWalk_skip unreachable]
    split at run
    · cases run
    · next below =>
      rw [if_neg below]
      exact ih found log out run

/-- A node left on the stack is entered when the recursion comes to it. -/
theorem walk_preorder (r : Region) (seen : Std.TreeSet Nat) (todo : List (Nat × String)) :
    ∀ found out, walk r seen found todo = .ok out →
      out.toList = found.toList ++ (preorder r seen todo).1.1 := by
  induction seen, todo using walk_induction r with
  | done seen =>
    intro found out run
    rw [walk_nil] at run
    cases run
    rw [preorder, List.append_nil]
  | enter seen offset name rest reachable ih =>
    intro found out run
    cases read : readNode r offset name with
    | ok node =>
      rw [walk_node reachable read] at run
      rw [ih _ _ _ run, preorder_append, preorder_node reachable read]
      cases node.terminal with
      | none => rfl
      | some x =>
        simp only [Option.elim, Array.toList_push, Option.toList, List.append_assoc,
          List.cons_append, List.nil_append]
    | error e =>
      rw [walk_unreadable reachable read] at run
      rw [preorder_unreadable reachable read]
      split at run
      · cases run
      · exact ih _ _ _ run
  | skip seen offset name rest unreachable ih =>
    intro found out run
    rw [walk_skip unreachable] at run
    rw [preorder_skip unreachable]
    split at run
    · cases run
    · exact ih found out run

/-- The exports of a stream are those of the recursive walk, and no offset is read twice. -/
theorem exports_preorder (r : Region) :
    let (outcome, log) := (walkWith (logged r) r ∅ #[] [(0, "")]).run []
    outcome.map (·.toList) = ofStream r ∧ log.Nodup ∧ (∀ offset ∈ log, offset < r.size) ∧
    ∀ es, ofStream r = .ok es →
      es = (preorder r ∅ [(0, "")]).1.1 ∧ es.length ≤ log.length ∧ log.length ≤ r.size := by
  obtain ⟨entered, log⟩ := loggedWalk_log r ∅ [(0, "")] #[] [] (Log.empty r)
  have outcome := loggedWalk_outcome r ∅ [(0, "")] #[] []
  refine ⟨congrArg _ outcome, log.nodup, log.inside, ?_⟩
  intro es run
  cases walked : walk r ∅ #[] [(0, "")] with
  | error e =>
    rw [ofStream, walked] at run
    cases run
  | ok out =>
    rw [ofStream, walked] at run
    cases run
    have size := walk_size_le r ∅ [(0, "")] #[] [] out walked
    rw [List.length_nil, Array.size_empty, Nat.add_zero, Nat.zero_add] at size
    have list := walk_preorder r ∅ [(0, "")] #[] out walked
    exact ⟨list, size, log.length_le⟩

end MachImage.Export

import MachImage.Attempt
import MachImage.Proofs.Cursor.Ahead
import MachImage.Proofs.LinkInfo.ExportWalk
import MachImage.Proofs.Text.Utf8Encoding
/-!
Export tries as trees, and the bytes they take. A node may stand anywhere in the blob, also on bytes
of another node, as long as no two start at one offset. However they are placed, the stream holds
the exports of the tree, each node before the nodes below it.
-/
namespace MachImage.Export

/-- The export that ends at a node. -/
inductive Terminal where
  | regular (flags address : Nat) (resolver : Option Nat)
  | reexport (flags ordinal : Nat) (importName : Option String)

namespace Terminal

def encode : Terminal → List UInt8
  | .regular flags address resolver =>
    Leb.encodeUnsigned flags ++ (Leb.encodeUnsigned address ++
      resolver.elim [] Leb.encodeUnsigned)
  | .reexport flags ordinal importName =>
    Leb.encodeUnsigned flags ++ (Leb.encodeUnsigned ordinal ++
      importName.elim [] fun name => Utf8.encode name ++ [0])

def Fits : Terminal → Prop
  | .regular flags address resolver =>
    isReexportFlag flags = false ∧ flags < 0x10000000000000000 ∧ address < 0x10000000000000000 ∧
      resolver.isSome = isResolverFlag flags ∧ ∀ n ∈ resolver, n < 0x10000000000000000
  | .reexport flags ordinal importName =>
    isReexportFlag flags = true ∧ flags < 0x10000000000000000 ∧ ordinal < 0x10000000000000000 ∧
      ∀ name ∈ importName, name ≠ "" ∧ '\x00' ∉ name.toList

instance : DecidablePred Fits
  | .regular .. => inferInstanceAs (Decidable (_ ∧ _))
  | .reexport .. => inferInstanceAs (Decidable (_ ∧ _))

def named (name : String) : Terminal → Export
  | .regular flags address resolver => { name, flags, address, resolver }
  | .reexport flags ordinal importName =>
    { name, flags, address := 0, importName, importOrdinal := some ordinal }

end Terminal

/-- A node with the offset it starts at and its edges in order. -/
inductive Trie where
  | node (offset : Nat) (terminal : Option Terminal) (children : List (String × Trie))

namespace Trie

def offset : Trie → Nat
  | .node offset _ _ => offset

def terminal : Trie → Option Terminal
  | .node _ terminal _ => terminal

def children : Trie → List (String × Trie)
  | .node _ _ children => children

mutual

def nodes : Trie → List Trie
  | .node offset terminal children => .node offset terminal children :: nodesBelow children

def nodesBelow : List (String × Trie) → List Trie
  | [] => []
  | (_, t) :: rest => t.nodes ++ nodesBelow rest

end

mutual

def exports (name : String) : Trie → List Export
  | .node _ terminal children =>
    (terminal.map (·.named name)).toList ++ exportsBelow name children

def exportsBelow (name : String) : List (String × Trie) → List Export
  | [] => []
  | (label, t) :: rest => t.exports (name ++ label) ++ exportsBelow name rest

end

def info (t : Trie) : List UInt8 := t.terminal.elim [] Terminal.encode

def encodeEdges (edges : List (String × Trie)) : List UInt8 :=
  edges.flatMap fun (label, t) => Utf8.encode label ++ 0 :: Leb.encodeUnsigned t.offset

/-- The bytes of one node. The nodes below it are told by their offsets. -/
def encode (t : Trie) : List UInt8 :=
  Leb.encodeUnsigned t.info.length ++
    (t.info ++ UInt8.ofNat t.children.length :: encodeEdges t.children)

structure Fits (t : Trie) : Prop where
  terminal : ∀ x ∈ t.terminal, x.Fits
  few : t.children.length < 256
  labels : ∀ edge ∈ t.children, '\x00' ∉ edge.1.toList

instance (t : Trie) : Decidable t.Fits :=
  decidable_of_iff ((∀ x ∈ t.terminal, x.Fits) ∧ t.children.length < 256 ∧
      ∀ edge ∈ t.children, '\x00' ∉ edge.1.toList)
    ⟨fun ⟨terminal, few, labels⟩ => ⟨terminal, few, labels⟩,
      fun fits => ⟨fits.terminal, fits.few, fits.labels⟩⟩

/-- The root stands at the start, the nodes start apart from each other, and each one is written. -/
structure LaidOut (t : Trie) (blob : List UInt8) : Prop where
  root : t.offset = 0
  apart : (t.nodes.map offset).Nodup
  written : ∀ n ∈ t.nodes, n.encode <+: blob.drop n.offset

end Trie

section
variable {r : Region} {name : String}

theorem read_encode {x : Terminal} (fits : x.Fits) (bytes : r.bytes.toList = x.encode) :
    read r name = .ok (x.named name) := by
  have start : Cursor.Faces { region := r } x.encode := ⟨Int.le_refl 0, bytes⟩
  cases x with
  | regular flags address resolver =>
    obtain ⟨kind, flagsFit, addressFits, present, resolverFits⟩ := fits
    have second := start.forward
    have last := second.forward
    rw [read, start.unsigned flagsFit, ok_bind]
    dsimp only
    rw [second.unsigned addressFits, ok_bind]
    dsimp only
    rw [kind, if_neg Bool.false_ne_true, ← present, last.atEnd]
    cases resolver with
    | none => rfl
    | some n =>
      rw [Option.elim, ← List.append_nil (Leb.encodeUnsigned n)] at last
      have going : (Leb.encodeUnsigned n).isEmpty = false :=
        List.isEmpty_eq_false_iff.2 (Leb.encodeUnsigned_ne_nil n)
      have follows : (true && !false) = true := rfl
      rw [Option.elim, going, Option.isSome_some, if_pos follows,
        last.unsigned (resolverFits n rfl)]
      rfl
  | reexport flags ordinal importName =>
    obtain ⟨kind, flagsFit, ordinalFits, nameFits⟩ := fits
    have second := start.forward
    have last := second.forward
    rw [read, start.unsigned flagsFit, ok_bind]
    dsimp only
    rw [second.unsigned ordinalFits, ok_bind]
    dsimp only
    rw [kind, if_pos rfl, last.atEnd]
    cases importName with
    | none => rfl
    | some text =>
      obtain ⟨some, noNul⟩ := nameFits text rfl
      rw [Option.elim] at last
      have going : (Utf8.encode text ++ [0]).isEmpty = false :=
        List.isEmpty_eq_false_iff.2 (List.append_ne_nil_of_right_ne_nil _ (List.cons_ne_nil 0 []))
      rw [Option.elim, going, if_neg Bool.false_ne_true, last.cstring (Utf8.encode_noNul noNul),
        Utf8.decode_encode]
      simp only [Except.map, ok_bind, if_neg some]
      rfl

theorem edges_encode {c : Cursor} {bs : List UInt8} {children : List (String × Trie)}
    (h : c.Faces (Trie.encodeEdges children ++ bs))
    (labels : ∀ edge ∈ children, '\x00' ∉ edge.1.toList)
    (near : ∀ edge ∈ children, edge.2.offset < 0x10000000000000000) :
    edges name children.length c =
      children.map fun edge => (edge.2.offset, name ++ edge.1) := by
  induction children generalizing c with
  | nil => rfl
  | cons edge rest ih =>
    obtain ⟨label, child⟩ := edge
    obtain ⟨noNul, labels⟩ := List.forall_mem_cons.1 labels
    obtain ⟨here, near⟩ := List.forall_mem_cons.1 near
    rw [Trie.encodeEdges, List.flatMap_cons, List.append_assoc, List.append_assoc] at h
    have target := h.behindString
    rw [List.length_cons, edges, h.cstring (Utf8.encode_noNul noNul), Utf8.decode_encode]
    dsimp only
    rw [target.unsigned here]
    dsimp only
    rw [ih target.forward labels near, List.map_cons]

structure Stands (r : Region) (t : Trie) : Prop where
  fits : t.Fits
  written : t.encode <+: r.bytes.toList.drop t.offset

theorem Stands.inside {t : Trie} (h : Stands r t) :
    t.offset + (Leb.encodeUnsigned t.info.length).length + t.info.length < r.size := by
  have size : r.bytes.toList.length = r.size := Array.length_toList
  have some := List.length_pos_iff.2 (Leb.encodeUnsigned_ne_nil t.info.length)
  have length := h.written.length_le
  rw [Trie.encode, List.length_append, List.length_append, List.length_cons, List.length_drop,
    size] at length
  omega

theorem encode_ne_nil (x : Terminal) : x.encode ≠ [] := by
  cases x with
  | regular flags address resolver =>
    exact List.append_ne_nil_of_left_ne_nil (Leb.encodeUnsigned_ne_nil flags) _
  | reexport flags ordinal importName =>
    exact List.append_ne_nil_of_left_ne_nil (Leb.encodeUnsigned_ne_nil flags) _

theorem terminal_encode {t : Trie} {c : Cursor} {bs : List UInt8} (fits : t.Fits)
    (h : c.Faces (t.info ++ bs)) :
    (if t.info.length = 0 then none else
      (c.region.slice c.offset t.info.length >>= fun info => read info name).toOption) =
    t.terminal.map (·.named name) := by
  obtain ⟨offset, terminal, children⟩ := t
  cases terminal with
  | none => rfl
  | some x =>
    obtain ⟨part, cut, bytes⟩ := h.slice (encode_ne_nil x)
    have long : x.encode.length ≠ 0 := fun zero =>
      encode_ne_nil x (List.eq_nil_of_length_eq_zero zero)
    change (if x.encode.length = 0 then none else
      (c.region.slice c.offset x.encode.length >>= fun info => read info name).toOption) = _
    have cut : c.region.slice c.offset x.encode.length = .ok part := cut
    rw [if_neg long, cut, ok_bind, read_encode (fits.terminal x rfl) bytes]
    rfl

theorem readNode_encode {t : Trie} (h : Stands r t) (small : r.size < 0x10000000000000000)
    (below : ∀ edge ∈ t.children, Stands r edge.2) :
    readNode r t.offset name =
      .ok ⟨t.terminal.map (·.named name),
        t.children.map fun edge => (edge.2.offset, name ++ edge.1)⟩ := by
  obtain ⟨tail, bytes⟩ := h.written
  have inside := h.inside
  have start : Cursor.Faces { region := r, offset := t.offset } (t.encode ++ tail) :=
    ⟨Int.natCast_nonneg _, bytes.symm⟩
  rw [Trie.encode, List.append_assoc, List.append_assoc] at start
  have body := start.forward
  have count := body.forward
  have fewer : (UInt8.ofNat t.children.length).toNat = t.children.length :=
    UInt8.toNat_ofNat_of_lt' h.fits.few
  have near : ∀ edge ∈ t.children, edge.2.offset < 0x10000000000000000 := by
    intro edge member
    have := (below edge member).inside
    omega
  have terminal := @terminal_encode name _ _ _ h.fits body
  have edges := @edges_encode name _ _ _ count.next h.fits.labels near
  have byte := count.byte
  dsimp only [Cursor.forward] at terminal byte edges
  rw [readNode, start.unsigned (by omega), ok_bind]
  dsimp only [Cursor.forward]
  rw [if_neg (by omega), terminal, byte]
  dsimp only
  rw [fewer, edges]
  rfl

end

/-- The offsets entered after some nodes. -/
def enter (seen : Std.TreeSet Nat) (ts : List Trie) : Std.TreeSet Nat :=
  ts.foldl (fun seen t => seen.insert t.offset) seen

theorem mem_enter {ts : List Trie} {seen : Std.TreeSet Nat} {offset : Nat} :
    offset ∈ enter seen ts ↔ offset ∈ seen ∨ ∃ t ∈ ts, t.offset = offset := by
  induction ts generalizing seen with
  | nil => simp [enter]
  | cons t ts ih =>
    rw [enter, List.foldl_cons, ← enter, ih]
    simp only [Std.TreeSet.mem_insert, Nat.compare_eq_eq, List.mem_cons, exists_eq_or_imp,
      or_assoc, or_left_comm]

theorem enter_append (seen : Std.TreeSet Nat) (first last : List Trie) :
    enter seen (first ++ last) = enter (enter seen first) last :=
  List.foldl_append

theorem mem_nodesBelow {edges : List (String × Trie)} {edge : String × Trie}
    (h : edge ∈ edges) : edge.2 ∈ Trie.nodesBelow edges := by
  induction h with
  | head edges =>
    obtain ⟨label, offset, terminal, children⟩ := edge
    rw [Trie.nodesBelow, Trie.nodes]
    exact List.mem_cons_self
  | tail other h ih => exact List.mem_append_right _ ih

structure Ready (r : Region) (seen : Std.TreeSet Nat) (ts : List Trie) : Prop where
  stands : ∀ t ∈ ts, Stands r t
  apart : (ts.map Trie.offset).Nodup
  fresh : ∀ t ∈ ts, t.offset ∉ seen

section
variable {r : Region} {seen : Std.TreeSet Nat} {first last : List Trie}

theorem Ready.before (h : Ready r seen (first ++ last)) : Ready r seen first := by
  constructor
  · exact fun t member => h.stands t (List.mem_append_left _ member)
  · have apart := h.apart
    rw [List.map_append] at apart
    exact (List.nodup_append.1 apart).1
  · exact fun t member => h.fresh t (List.mem_append_left _ member)

theorem Ready.after (h : Ready r seen (first ++ last)) : Ready r (enter seen first) last := by
  have apart := h.apart
  rw [List.map_append] at apart
  obtain ⟨-, rest, disjoint⟩ := List.nodup_append.1 apart
  constructor
  · exact fun t member => h.stands t (List.mem_append_right _ member)
  · exact rest
  · intro t member old
    rcases mem_enter.1 old with seen | ⟨u, earlier, same⟩
    · exact h.fresh t (List.mem_append_right _ member) seen
    · exact disjoint _ (List.mem_map_of_mem earlier) _ (List.mem_map_of_mem member) same

end

-- Both recursions go the way of `Trie.nodes` and `Trie.nodesBelow`.
mutual

theorem walk_trie {r : Region} (small : r.size < 0x10000000000000000) (t : Trie) (name : String)
    {seen : Std.TreeSet Nat} (ready : Ready r seen t.nodes) (found : Array Export)
    (rest : List (Nat × String)) :
    walk r seen found ((t.offset, name) :: rest) =
      walk r (enter seen t.nodes) (found ++ (t.exports name).toArray) rest := by
  cases t with
  | node offset terminal children =>
    let t := Trie.node offset terminal children
    have here : t ∈ t.nodes := List.mem_cons_self
    have below : Ready r (seen.insert offset) (Trie.nodesBelow children) :=
      @Ready.after r seen [t] _ ready
    have stands : ∀ edge ∈ children, Stands r edge.2 := fun edge member =>
      below.stands _ (mem_nodesBelow member)
    have inside := (ready.stands t here).inside
    have reachable : t.offset < r.size ∧ t.offset ∉ seen := ⟨by omega, ready.fresh t here⟩
    have read := @readNode_encode r name t (ready.stands t here) small stands
    have grown : (terminal.map (·.named name)).elim found found.push =
        found ++ (terminal.map (·.named name)).toList.toArray := by
      cases terminal with
      | none => exact Array.append_empty.symm
      | some x => exact Array.push_eq_append
    calc walk r seen found ((offset, name) :: rest)
        = walk r (seen.insert offset) ((terminal.map (·.named name)).elim found found.push)
            (children.map (fun edge => (edge.2.offset, name ++ edge.1)) ++ rest) :=
          walk_node reachable read
      _ = walk r (enter (seen.insert offset) (Trie.nodesBelow children))
            ((terminal.map (·.named name)).elim found found.push ++
              (Trie.exportsBelow name children).toArray) rest :=
          walk_below small children name below _ rest
      _ = walk r (enter seen t.nodes) (found ++ (t.exports name).toArray) rest := by
          rw [grown, Array.append_assoc, Trie.exports, ← List.append_toArray]
          rfl

theorem walk_below {r : Region} (small : r.size < 0x10000000000000000)
    (edges : List (String × Trie)) (name : String) {seen : Std.TreeSet Nat}
    (ready : Ready r seen (Trie.nodesBelow edges)) (found : Array Export)
    (rest : List (Nat × String)) :
    walk r seen found (edges.map (fun edge => (edge.2.offset, name ++ edge.1)) ++ rest) =
      walk r (enter seen (Trie.nodesBelow edges))
        (found ++ (Trie.exportsBelow name edges).toArray) rest := by
  cases edges with
  | nil =>
    rw [Trie.exportsBelow, Array.append_empty]
    rfl
  | cons edge edges =>
    obtain ⟨label, t⟩ := edge
    rw [Trie.nodesBelow] at ready
    rw [List.map_cons, List.cons_append, walk_trie small t _ ready.before,
      walk_below small edges name ready.after, Trie.nodesBelow, enter_append, Trie.exportsBelow,
      Array.append_assoc, ← List.append_toArray]

end

/-- The stream of a trie holds the export of every node that has one, in the order of the nodes and
under the name that leads there, wherever the nodes stand. Offsets have 64 bits, as in any file. -/
theorem exports_of_trie (r : Region) (t : Trie) (small : r.size < 0x10000000000000000)
    (fits : ∀ n ∈ t.nodes, n.Fits) (laid : t.LaidOut r.bytes.toList) :
    ofStream r = .ok (t.exports "") := by
  have ready : Ready r ∅ t.nodes := by
    constructor
    · exact fun n member => ⟨fits n member, laid.written n member⟩
    · exact laid.apart
    · exact fun n member => Std.TreeSet.not_mem_emptyc
  have walked := walk_trie small t "" ready #[] []
  rw [laid.root, walk_nil, Array.empty_append] at walked
  rw [ofStream, walked]
  rfl

def library : Trie :=
  .node 0 none [("_", .node 26 none [
    ("foo", .node 5 (some (.regular 0 0x1000 none)) []),
    ("bar", .node 10 (some (.reexport 8 1 (some "_baz"))) []),
    ("é", .node 17 none []),
    ("resolved", .node 19 (some (.regular 0x10 0x2000 (some 0x2100))) [])])]

def libraryBlob : List UInt8 :=
  [0, 1, 0x5F, 0, 26,
   3, 0, 0x80, 0x20, 0,
   7, 8, 1, 0x5F, 0x62, 0x61, 0x7A, 0, 0,
   5, 0x10, 0x80, 0x40, 0x80, 0x42, 0,
   0, 4, 0x66, 0x6F, 0x6F, 0, 5, 0x62, 0x61, 0x72, 0, 10, 0xC3, 0xA9, 0, 17,
   0x72, 0x65, 0x73, 0x6F, 0x6C, 0x76, 0x65, 0x64, 0, 19]

theorem exports_of_library :
    (∀ n ∈ library.nodes, n.Fits) ∧ library.LaidOut libraryBlob ∧
    ofStream { bytes := libraryBlob.toArray } = .ok [
      { name := "_foo", flags := 0, address := 0x1000 },
      { name := "_bar", flags := 8, address := 0, importName := some "_baz",
        importOrdinal := some 1 },
      { name := "_resolved", flags := 0x10, address := 0x2000, resolver := some 0x2100 }] := by
  have fits : ∀ n ∈ library.nodes, n.Fits := by decide
  have laid : library.LaidOut libraryBlob := by
    constructor
    · rfl
    · decide
    · decide +kernel
  have small : libraryBlob.length < 0x10000000000000000 := by decide
  exact ⟨fits, laid, exports_of_trie { bytes := libraryBlob.toArray } library small fits laid⟩

end MachImage.Export

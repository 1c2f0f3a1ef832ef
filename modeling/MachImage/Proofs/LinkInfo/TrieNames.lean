import MachImage.Proofs.LinkInfo.TriePlaces
/-!
The names of exports. An export has the name that the labels on the way to its node spell, each
decoded on its own. That is the text of all their bytes as long as no label goes on with a character
that the one before it leaves open.
-/
namespace MachImage.Export

theorem read_name {r : Region} {name : String} {x : Export} (run : read r name = .ok x) :
    x.name = name := by
  obtain ⟨⟨flags, c⟩, -, run⟩ := of_bind_ok run
  obtain ⟨⟨first, c⟩, -, run⟩ := of_bind_ok run
  dsimp only at run
  split at run
  · split at run
    · cases run
      rfl
    · obtain ⟨importName, -, run⟩ := of_bind_ok run
      cases run
      rfl
  · split at run
    · obtain ⟨⟨resolver, c⟩, -, run⟩ := of_bind_ok run
      cases run
      rfl
    · cases run
      rfl

theorem terminal_name {r : Region} {c : Cursor} {size : Nat} {name : String} {x : Export}
    (found : (if size = 0 then none else
      (r.slice c.offset size >>= fun info => read info name).toOption) = some x) :
    x.name = name := by
  split at found
  · cases found
  · obtain ⟨info, -, run⟩ := of_bind_ok (of_toOption_some found)
    exact read_name run

theorem export?_name {r : Region} {p : Place} {x : Export} (found : p.export? r = some x) :
    x.name = Utf8.spell p.path := by
  obtain ⟨node, read, terminal⟩ := Option.bind_eq_some_iff.1 found
  obtain ⟨⟨size, c⟩, -, run⟩ := of_bind_ok (of_toOption_some read)
  dsimp only at run
  split at run
  · cases run
  · split at run <;> cases run <;> exact terminal_name terminal

/-- Every export comes from a place of its own, under the name that the path to it spells. The name
is the text of the bytes on that path exactly if no label goes on with an open character, so in
particular if every label is text. -/
theorem exports_named (r : Region) (es : List Export) (run : ofStream r = .ok es) :
    es = (places r).filterMap (Place.export? r) ∧
    ((places r).map Place.offset).Nodup ∧
    ∀ p ∈ places r, Leads r p ∧ ∀ x ∈ p.export? r,
      x.name = Utf8.spell p.path ∧
      (x.name = Utf8.decode p.path.flatten ↔ Utf8.Whole [] p.path) ∧
      ((∀ label ∈ p.path, Utf8.decode? label ≠ none) → x.name = Utf8.decode p.path.flatten) := by
  have found := (exports_of_places r).2.1 es run
  refine ⟨found, entered_nodup r ∅ [.root], ?_⟩
  intro p place
  refine ⟨leads_of_places place, ?_⟩
  intro x exported
  have name := export?_name exported
  have whole : x.name = Utf8.decode p.path.flatten ↔ Utf8.Whole [] p.path := by
    rw [name]
    exact Utf8.spell_eq_decode_iff p.path
  exact ⟨name, whole, fun texts => whole.2 (Utf8.whole_of_text texts)⟩

def wholeAccent : Region :=
  { bytes := #[0, 1, 0x5F, 0, 5, 0, 1, 0xC3, 0xA9, 0, 11, 2, 0, 0x10, 0] }

theorem exports_named_accent :
    ofStream wholeAccent = .ok [{ name := "_é", flags := 0, address := 0x10 }] ∧
    places wholeAccent = [.root, ⟨5, [[0x5F]]⟩, ⟨11, [[0x5F], [0xC3, 0xA9]]⟩] ∧
    ∀ x ∈ Place.export? wholeAccent ⟨11, [[0x5F], [0xC3, 0xA9]]⟩,
      x.name = Utf8.decode [0x5F, 0xC3, 0xA9] := by
  have run : ofStream wholeAccent = .ok [{ name := "_é", flags := 0, address := 0x10 }] := by cbv
  have found : places wholeAccent = [.root, ⟨5, [[0x5F]]⟩, ⟨11, [[0x5F], [0xC3, 0xA9]]⟩] := by cbv
  refine ⟨run, found, ?_⟩
  intro x exported
  have place : ⟨11, [[0x5F], [0xC3, 0xA9]]⟩ ∈ places wholeAccent := by
    rw [found]
    simp
  have named := (exports_named wholeAccent _ run).2.2 _ place
  exact (named.2 x exported).2.2 (by decide)

def cutAccent : Region := { bytes := #[0, 1, 0xC3, 0, 5, 0, 1, 0xA9, 0, 10, 2, 0, 0x10, 0] }

theorem cutAccent_name :
    let p : Place := ⟨10, [[0xC3], [0xA9]]⟩
    let x : Export := { name := "\uFFFD\uFFFD", flags := 0, address := 0x10 }
    ofStream cutAccent = .ok [x] ∧ p ∈ places cutAccent ∧ p.export? cutAccent = some x ∧
    Utf8.decode p.path.flatten = "é" ∧ x.name ≠ "é" := by
  have found : places cutAccent = [.root, ⟨5, [[0xC3]]⟩, ⟨10, [[0xC3], [0xA9]]⟩] := by cbv
  refine ⟨by cbv, ?_, by cbv, by cbv, by decide⟩
  rw [found]
  simp

end MachImage.Export

import Std.Data.TreeSet
/-!
A table holds pairs of a key and a value in the order they came, each key once. It is made of pairs
of which the first for a key is kept.
-/
namespace MachImage

abbrev Table (κ α : Type) := List (κ × α)

namespace Table
variable {κ α : Type}

def keys (t : Table κ α) : List κ := t.map (·.1)

def values (t : Table κ α) : List α := t.map (·.2)

def get? [DecidableEq κ] : Table κ α → κ → Option α
  | [], _ => none
  | (k, a) :: t, key => if k = key then some a else get? t key

def mapValues {β : Type} (f : κ → α → β) (t : Table κ α) : Table κ β :=
  t.map fun (key, a) => (key, f key a)

def update [DecidableEq κ] (t : Table κ α) (key : κ) (f : α → α) : Table κ α :=
  t.mapValues fun k a => if k = key then f a else a

def erase [DecidableEq κ] (t : Table κ α) (key : κ) : Table κ α := t.filter (·.1 ≠ key)

theorem mem_keys {t : Table κ α} {key : κ} {a : α} (member : (key, a) ∈ t) : key ∈ t.keys :=
  List.mem_map.2 ⟨_, member, rfl⟩

theorem mem_of_get? [DecidableEq κ] {t : Table κ α} {key : κ} {a : α} (h : t.get? key = some a) :
    (key, a) ∈ t := by
  induction t with
  | nil => simp [get?] at h
  | cons p t ih =>
    obtain ⟨k, b⟩ := p
    by_cases same : k = key
    · simp only [get?, if_pos same, Option.some.injEq] at h
      subst same h
      exact List.mem_cons_self
    · rw [get?, if_neg same] at h
      exact List.mem_cons_of_mem _ (ih h)

section
variable {β : Type}

theorem keys_mapValues (f : κ → α → β) (t : Table κ α) : (t.mapValues f).keys = t.keys :=
  List.map_map

theorem values_mapValues (f : α → β) (t : Table κ α) :
    (t.mapValues fun _ a => f a).values = t.values.map f := by
  rw [mapValues, values, values, List.map_map, List.map_map]
  rfl

theorem mapValues_congr {f g : κ → α → β} {t : Table κ α}
    (same : ∀ key a, (key, a) ∈ t → f key a = g key a) : t.mapValues f = t.mapValues g :=
  List.map_congr_left fun p member => congrArg (p.1, ·) (same p.1 p.2 member)

variable [DecidableEq κ]

theorem get?_mapValues (f : κ → α → β) (t : Table κ α) (key : κ) :
    (t.mapValues f).get? key = (t.get? key).map (f key) := by
  induction t with
  | nil => rfl
  | cons p t ih =>
    obtain ⟨k, a⟩ := p
    rw [mapValues] at ih ⊢
    rw [List.map_cons, get?, get?, ih]
    by_cases same : k = key
    · simp [same]
    · simp [same]

theorem update_mapValues (f : κ → β → α) (t : Table κ β) (key : κ) (g : α → α) :
    update (t.mapValues f) key g =
      t.mapValues fun k b => if k = key then g (f k b) else f k b :=
  List.map_map

end

section
variable [DecidableEq κ]

theorem update_update (t : Table κ α) (key : κ) (f g : α → α) :
    update (update t key f) key g = update t key fun a => g (f a) := by
  unfold update
  rw [mapValues, mapValues, List.map_map]
  apply List.map_congr_left
  intro p _
  by_cases same : p.1 = key
  · simp [same]
  · simp [same]

theorem get?_append (t u : Table κ α) (key : κ) :
    get? (t ++ u) key = (t.get? key).or (u.get? key) := by
  induction t with
  | nil => rfl
  | cons p t ih =>
    obtain ⟨k, a⟩ := p
    rw [List.cons_append, get?, get?, ih]
    by_cases same : k = key
    · simp [same]
    · simp [same]

theorem get?_erase (t : Table κ α) (erased key : κ) :
    (t.erase erased).get? key = if key = erased then none else t.get? key := by
  induction t with
  | nil => simp [erase, get?]
  | cons p t ih =>
    obtain ⟨k, a⟩ := p
    rw [erase] at ih ⊢
    by_cases gone : k = erased
    · rw [List.filter_cons_of_neg (by simpa using gone), ih, get?, gone]
      by_cases same : key = erased
      · simp [same]
      · simp [same, Ne.symm same]
    · rw [List.filter_cons_of_pos (by simpa using gone), get?, ih, get?]
      by_cases same : k = key
      · simp [← same, gone]
      · simp [same]

theorem get?_of_mem {t : Table κ α} (once : t.keys.Nodup) {key : κ} {a : α}
    (member : (key, a) ∈ t) : t.get? key = some a := by
  induction t with
  | nil => cases member
  | cons p t ih =>
    obtain ⟨k, b⟩ := p
    obtain ⟨other, once⟩ := List.nodup_cons.1 once
    rw [get?]
    rcases List.mem_cons.1 member with same | later
    · cases same
      rw [if_pos rfl]
    · rw [if_neg, ih once later]
      rintro rfl
      exact other (mem_keys later)

theorem mapValues_congr_at {β : Type} {t : Table κ α} (once : t.keys.Nodup) {key : κ} {a : α}
    (member : (key, a) ∈ t) {f g : κ → α → β} (here : f key a = g key a)
    (elsewhere : ∀ k b, k ≠ key → f k b = g k b) : t.mapValues f = t.mapValues g := by
  apply mapValues_congr
  intro k b among
  by_cases same : k = key
  · subst same
    have unique := get?_of_mem once among
    rw [get?_of_mem once member, Option.some.injEq] at unique
    rw [← unique, here]
  · exact elsewhere k b same

end

variable [Ord κ]

def distinct (seen : Std.TreeSet κ) : List (κ × α) → Table κ α
  | [] => []
  | (k, a) :: ps => if k ∈ seen then distinct seen ps else (k, a) :: distinct (seen.insert k) ps

def ofListFirst (ps : List (κ × α)) : Table κ α := distinct ∅ ps

theorem distinct_sublist (seen : Std.TreeSet κ) (ps : List (κ × α)) :
    (distinct seen ps).Sublist ps := by
  induction ps generalizing seen with
  | nil => exact List.Sublist.refl _
  | cons p ps ih =>
    rw [distinct]
    split
    · exact (ih seen).cons p
    · exact (ih _).cons_cons p

end Table
end MachImage

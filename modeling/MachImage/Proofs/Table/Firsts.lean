import MachImage.Table
/-!
Which pairs a table keeps. Of a list, the elements whose key comes for the first time are the list
without repetition, in its order; a table made of the list holds exactly these.
-/
namespace MachImage

section
variable {α β κ : Type} [DecidableEq κ]

def firsts (key : α → κ) : List α → List α
  | [] => []
  | a :: as => a :: (firsts key as).filter fun b => key b ≠ key a

theorem firsts_map (key : β → κ) (f : α → β) (as : List α) :
    firsts key (as.map f) = (firsts (fun a => key (f a)) as).map f := by
  induction as with
  | nil => rfl
  | cons a as ih => simp [firsts, ih, List.filter_map, Function.comp_def]

theorem firsts_nodup (key : α → κ) (as : List α) : ((firsts key as).map key).Nodup := by
  induction as with
  | nil => simp [firsts]
  | cons a as ih =>
    simp only [firsts, List.map_cons, List.nodup_cons, List.mem_map, List.mem_filter]
    constructor
    · rintro ⟨b, ⟨-, other⟩, same⟩
      simp [same] at other
    · exact ih.sublist (List.filter_sublist.map key)

theorem mem_firsts (key : α → κ) {as : List α} {a : α} (member : a ∈ as) :
    ∃ b ∈ firsts key as, key b = key a := by
  induction as with
  | nil => cases member
  | cons c as ih =>
    by_cases same : key c = key a
    · exact ⟨c, List.mem_cons_self, same⟩
    · rcases List.mem_cons.1 member with rfl | later
      · exact absurd rfl same
      · obtain ⟨b, among, equal⟩ := ih later
        have other : key b ≠ key c := fun h => same (h.symm.trans equal)
        exact ⟨b, List.mem_cons_of_mem c (List.mem_filter.2 ⟨among, by simpa using other⟩), equal⟩

theorem firsts_subset (key : α → κ) (as : List α) : firsts key as ⊆ as := by
  induction as with
  | nil => exact List.Subset.refl _
  | cons a as ih =>
    intro b member
    rcases List.mem_cons.1 member with rfl | later
    · exact List.mem_cons_self
    · exact List.mem_cons_of_mem a (ih (List.mem_filter.1 later).1)

theorem firsts_hidden (key : α → κ) {as : List α} {a : α} (member : a ∈ as)
    (hidden : a ∉ firsts key as) : ∃ b ∈ firsts key as, key b = key a ∧ [b, a].Sublist as := by
  induction as with
  | nil => cases member
  | cons c as ih =>
    rcases List.mem_cons.1 member with rfl | later
    · exact absurd List.mem_cons_self hidden
    · by_cases same : key a = key c
      · exact ⟨c, List.mem_cons_self, same.symm, (List.singleton_sublist.2 later).cons_cons c⟩
      · have others : a ∉ firsts key as := fun among =>
          hidden (List.mem_cons_of_mem c (List.mem_filter.2 ⟨among, by simpa using same⟩))
        obtain ⟨b, among, equal, order⟩ := ih later others
        have other : key b ≠ key c := fun h => same (equal.symm.trans h)
        exact ⟨b, List.mem_cons_of_mem c (List.mem_filter.2 ⟨among, by simpa using other⟩), equal,
          order.cons c⟩

theorem firsts_split (key : α → κ) {as : List α} {a : α} (member : a ∈ firsts key as) :
    ∃ before after, as = before ++ a :: after ∧ ∀ c ∈ before, key c ≠ key a := by
  induction as with
  | nil => cases member
  | cons c as ih =>
    rcases List.mem_cons.1 member with rfl | later
    · exact ⟨[], as, rfl, by simp⟩
    · obtain ⟨among, other⟩ := List.mem_filter.1 later
      obtain ⟨before, after, whole, others⟩ := ih among
      refine ⟨c :: before, after, by rw [whole, List.cons_append], ?_⟩
      exact List.forall_mem_cons.2 ⟨(of_decide_eq_true other).symm, others⟩

theorem firsts_order (key : α → κ) {as : List α} {b a : α}
    (order : [b, a].Sublist (firsts key as)) :
    ∃ before after, as = before ++ a :: after ∧ b ∈ before ∧ ∀ c ∈ before, key c ≠ key a := by
  induction as with
  | nil => cases order
  | cons c as ih =>
    have last : a ∈ (firsts key as).filter fun d => key d ≠ key c := by
      cases order with
      | cons _ order => exact order.subset (by simp)
      | cons_cons _ order => exact List.singleton_sublist.1 order
    obtain ⟨among, other⟩ := List.mem_filter.1 last
    have other := (of_decide_eq_true other).symm
    cases order with
    | cons _ order =>
      obtain ⟨before, after, whole, earlier, others⟩ := ih (order.trans List.filter_sublist)
      exact ⟨c :: before, after, by rw [whole, List.cons_append],
        List.mem_cons_of_mem c earlier, List.forall_mem_cons.2 ⟨other, others⟩⟩
    | cons_cons _ order =>
      obtain ⟨before, after, whole, others⟩ := firsts_split key among
      exact ⟨b :: before, after, by rw [whole, List.cons_append], List.mem_cons_self,
        List.forall_mem_cons.2 ⟨other, others⟩⟩

theorem firsts_filter (key : α → κ) (keep : κ → Bool) (as : List α) :
    firsts key (as.filter fun a => keep (key a)) =
      (firsts key as).filter fun a => keep (key a) := by
  induction as with
  | nil => rfl
  | cons a as ih =>
    by_cases kept : keep (key a)
    · simp only [firsts, List.filter_cons_of_pos, kept, ih, List.filter_filter, Bool.and_comm]
    · simp only [firsts, List.filter_cons_of_neg, kept, ih, List.filter_filter,
        Bool.false_eq_true, not_false_eq_true]
      apply List.filter_congr
      intro b _
      by_cases same : key b = key a
      · simp [same, kept]
      · simp [same]

end

namespace Table
variable {α κ : Type} [DecidableEq κ]

theorem get?_eq_none_iff (t : Table κ α) (key : κ) :
    t.get? key = none ↔ key ∉ t.keys := by
  induction t with
  | nil => simp [get?, keys]
  | cons p t ih =>
    obtain ⟨k, a⟩ := p
    by_cases same : k = key
    · simp [get?, keys, same]
    · simpa [get?, keys, same, Ne.symm same] using ih

variable [Ord κ] [Std.TransOrd κ] [Std.LawfulEqOrd κ]

theorem distinct_eq (seen : Std.TreeSet κ) (ps : List (κ × α)) :
    distinct seen ps = (firsts (·.1) ps).filter (·.1 ∉ seen) := by
  induction ps generalizing seen with
  | nil => rfl
  | cons p ps ih =>
    obtain ⟨k, a⟩ := p
    by_cases known : k ∈ seen
    · rw [distinct, if_pos known, ih, firsts, List.filter_cons, if_neg (by simpa using known),
        List.filter_filter]
      apply List.filter_congr
      intro q _
      by_cases same : q.1 = k
      · simp [same, known]
      · simp [same]
    · rw [distinct, if_neg known, ih, firsts, List.filter_cons, if_pos (by simpa using known),
        List.filter_filter]
      congr 1
      apply List.filter_congr
      intro q _
      by_cases same : q.1 = k
      · simp [same]
      · simp [same, Ne.symm same]

theorem ofListFirst_keyed (key : α → κ) (as : List α) :
    ofListFirst (as.map fun a => (key a, a)) = (firsts key as).map fun a => (key a, a) := by
  rw [ofListFirst, distinct_eq, firsts_map]
  simp

theorem values_ofListFirst (key : α → κ) (as : List α) :
    (ofListFirst (as.map fun a => (key a, a))).values = firsts key as := by
  rw [ofListFirst_keyed, values, List.map_map]
  exact List.map_id _

theorem keys_ofListFirst (key : α → κ) (as : List α) :
    (ofListFirst (as.map fun a => (key a, a))).keys = (firsts key as).map key := by
  rw [ofListFirst_keyed, keys, List.map_map]
  rfl

end Table
end MachImage

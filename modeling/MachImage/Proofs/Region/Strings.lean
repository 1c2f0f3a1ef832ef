import Mathlib.Algebra.Ring.Nat
import MachImage.Region
/-!
Strings in a region. A string is what stands before the first NUL from its offset on, and there is
none where the region ends first. The search by windows comes to that NUL wherever the windows end.
Since they double, it looks at few of them: the region has no room for more.
-/
namespace MachImage

theorem toList_extract (bytes : Array UInt8) (start n : Nat) :
    (bytes.extract start (start + n)).toList = (bytes.toList.drop start).take n := by
  rw [Array.toList_extract, List.extract_eq_take_drop, Nat.add_sub_cancel_left]

theorem takeWhile_nul {bs : List UInt8} (noNul : 0 ∉ bs) (rest : List UInt8) :
    (bs ++ 0 :: rest).takeWhile (· ≠ 0) = bs := by
  have plain : ∀ b ∈ bs, decide (b ≠ 0) = true := by
    intro b member
    exact decide_eq_true fun nul => noNul (nul ▸ member)
  rw [List.takeWhile_append_of_pos plain, List.takeWhile_cons_of_neg (by simp), List.append_nil]

namespace Region

def firstNul? (bytes : Array UInt8) (start : Nat) : Option Nat :=
  ((bytes.toList.drop start).findIdx? (· == 0)).map (start + ·)

def stringFrom (r : Region) (offset : Int) : Except Fault (List UInt8) :=
  if offset < 0 ∨ r.size ≤ offset then .error (.outOfBounds offset 1 r.size)
  else
    let rest := r.bytes.toList.drop offset.toNat
    if 0 ∈ rest then .ok (rest.takeWhile (· ≠ 0)) else .error (.unterminated (r.base + offset))

/-- A search looks at one window, and if no NUL stands there at another one behind its bytes, twice
as long. `windows` counts those that were looked at. -/
inductive Searches (bytes : Array UInt8) :
    (start window windows : Nat) → (stop : Option Nat) → Prop
  | ended {start window : Nat} (outside : bytes.size ≤ start) :
      Searches bytes start window 0 none
  | found {start window k : Nat} (inside : start < bytes.size)
      (here : (bytes.extract start (start + window)).findIdx? (· == 0) = some k) :
      Searches bytes start window 1 (some (start + k))
  | goesOn {start window windows : Nat} {stop : Option Nat} (inside : start < bytes.size)
      (notHere : (bytes.extract start (start + window)).findIdx? (· == 0) = none)
      (rest : Searches bytes (start + (bytes.extract start (start + window)).size) (2 * window)
        windows stop) :
      Searches bytes start window (windows + 1) stop

section
variable {bytes : Array UInt8} {start window windows : Nat} {stop : Option Nat}

theorem firstNul?_outside (outside : bytes.size ≤ start) : firstNul? bytes start = none := by
  have none : bytes.toList.drop start = [] := by simpa using outside
  simp [firstNul?, none]

theorem size_window (bytes : Array UInt8) (start window : Nat) :
    (bytes.extract start (start + window)).size = min window (bytes.size - start) := by
  simp only [Array.size_extract]
  omega

theorem drop_eq_window (bytes : Array UInt8) (start window : Nat) :
    bytes.toList.drop start = (bytes.extract start (start + window)).toList ++
      bytes.toList.drop (start + (bytes.extract start (start + window)).size) := by
  have first := List.take_prefix window (bytes.toList.drop start)
  rw [← toList_extract] at first
  have parts := List.prefix_iff_eq_append.1 first
  rw [List.drop_drop, Array.length_toList] at parts
  exact parts.symm

theorem firstNul?_window (bytes : Array UInt8) (start window : Nat) :
    firstNul? bytes start =
      match (bytes.extract start (start + window)).findIdx? (· == 0) with
      | some k => some (start + k)
      | none => firstNul? bytes (start + (bytes.extract start (start + window)).size) := by
  have here := List.findIdx?_toArray (· == 0) (bytes.extract start (start + window)).toList
  rw [firstNul?, drop_eq_window bytes start window, List.findIdx?_append, ← here]
  cases (bytes.extract start (start + window)).findIdx? (· == 0) with
  | some k => simp
  | none =>
    simp only [firstNul?, Option.none_or, Option.map_map, Array.length_toList]
    congr 1
    funext k
    simp only [Function.comp_apply]
    omega

theorem Searches.finds (h : Searches bytes start window windows stop) :
    stop = firstNul? bytes start := by
  induction h with
  | ended outside => rw [firstNul?_outside outside]
  | @found start window k inside here => rw [firstNul?_window bytes start window, here]
  | @goesOn start window windows stop inside notHere rest ih =>
    rw [firstNul?_window bytes start window, notHere]
    exact ih

theorem Searches.unique (h : Searches bytes start window windows stop) {n : Nat}
    {place : Option Nat} (other : Searches bytes start window n place) :
    n = windows ∧ place = stop := by
  induction h generalizing n with
  | ended outside =>
    cases other with
    | ended => exact ⟨rfl, rfl⟩
    | found inside => omega
    | goesOn inside => omega
  | found inside here =>
    cases other with
    | ended outside => omega
    | found _ same =>
      rw [here, Option.some.injEq] at same
      exact ⟨rfl, by rw [same]⟩
    | goesOn _ notHere => simp [here] at notHere
  | goesOn inside notHere rest ih =>
    cases other with
    | ended outside => omega
    | found _ here => simp [here] at notHere
    | goesOn _ _ later =>
      obtain ⟨count, same⟩ := ih later
      exact ⟨by rw [count], same⟩

theorem Searches.few (h : Searches bytes start window windows stop) (wide : 0 < window) :
    window * 2 ^ windows < 2 * (bytes.size - start + window) := by
  induction h with
  | ended => omega
  | found => omega
  | @goesOn start window windows stop inside notHere rest ih =>
    have length := size_window bytes start window
    rw [Nat.pow_succ]
    by_cases long : window ≤ bytes.size - start
    · have ih := ih (by omega)
      rw [length, Nat.min_eq_left long, Nat.mul_comm 2 window, Nat.mul_assoc] at ih
      rw [Nat.mul_comm (2 ^ windows)]
      omega
    · -- the last window is cut off by the end of the bytes, and nothing is left behind it
      cases rest with
      | ended => omega
      | found behind => omega
      | goesOn behind => omega

theorem searches_terminator? (bytes : Array UInt8) (start window : Nat) (wide : 0 < window) :
    ∃ windows, Searches bytes start window windows (terminator? bytes start window) := by
  induction start, window using terminator?.induct bytes with
  | case1 start window inside chunk k here =>
    have stop : terminator? bytes start window = some (start + k) := by
      rw [terminator?, if_pos inside]
      simp only [chunk] at here
      simp only [here]
    rw [stop]
    exact ⟨1, .found inside.1 here⟩
  | case2 start window inside chunk notHere ih =>
    have stop : terminator? bytes start window =
        terminator? bytes (start + window) (2 * window) := by
      rw [terminator?, if_pos inside]
      simp only [chunk] at notHere
      simp only [notHere]
    have length := size_window bytes start window
    obtain ⟨windows, rest⟩ := ih (by omega)
    rw [stop]
    by_cases long : window ≤ bytes.size - start
    · refine ⟨windows + 1, .goesOn inside.1 notHere ?_⟩
      rwa [length, Nat.min_eq_left long]
    · have ended : terminator? bytes (start + window) (2 * window) = none := by
        rw [terminator?, if_neg (by omega)]
      rw [ended]
      exact ⟨1, .goesOn inside.1 notHere (.ended (by omega))⟩
  | case3 start window outside =>
    have ended : terminator? bytes start window = none := by rw [terminator?, if_neg outside]
    rw [ended]
    exact ⟨0, .ended (by omega)⟩

/-- The search by windows finds the first NUL, wherever the windows end. -/
theorem terminator?_eq (bytes : Array UInt8) (start window : Nat) (wide : 0 < window) :
    terminator? bytes start window = firstNul? bytes start := by
  obtain ⟨windows, search⟩ := searches_terminator? bytes start window wide
  exact search.finds

theorem cstringBytes_eq (r : Region) (offset : Int) :
    r.cstringBytes offset = r.stringFrom offset := by
  rw [cstringBytes, stringFrom, terminator?_eq _ _ _ (by decide)]
  by_cases inside : r.contains offset 1 = true
  · have range := (contains_iff r offset 1).1 inside
    rw [if_pos inside, if_neg (by omega), firstNul?]
    cases found : (r.bytes.toList.drop offset.toNat).findIdx? (· == 0) with
    | none =>
      have noNul : 0 ∉ r.bytes.toList.drop offset.toNat := by
        intro nul
        simpa using List.findIdx?_eq_none_iff.1 found 0 nul
      simp [noNul]
    | some k =>
      obtain ⟨before, first⟩ := List.findIdx?_eq_some_iff_findIdx_eq.1 found
      have nul : 0 ∈ r.bytes.toList.drop offset.toNat := by
        obtain ⟨_, here, -⟩ := List.findIdx?_eq_some_iff_getElem.1 found
        rw [← eq_of_beq here]
        exact List.getElem_mem before
      have text : (r.bytes.toList.drop offset.toNat).takeWhile (· ≠ 0) =
          (r.bytes.toList.drop offset.toNat).take k := by
        rw [List.takeWhile_eq_take_findIdx_not, ← first]
        simp [BEq.beq]
      simp only [Option.map_some, toList_extract, nul, if_true, text]
  · have range := mt (contains_iff r offset 1).2 inside
    rw [if_neg inside, if_pos (by omega)]

end

/-- A string is what stands before the first NUL. The windows of the search have no part in it: from
any one on it finds that NUL, and from the first one on it ends after few of them. -/
theorem cstringBytes_plain (r : Region) (offset : Int) :
    r.cstringBytes offset = r.stringFrom offset ∧
    (∀ window, terminator? r.bytes offset.toNat (window + 1) =
      firstNul? r.bytes offset.toNat) ∧
    ∃ windows, 8 * 2 ^ windows < r.size - offset.toNat + 16 ∧
      ∀ n stop, Searches r.bytes offset.toNat 16 n stop ↔
        n = windows ∧ stop = firstNul? r.bytes offset.toNat := by
  obtain ⟨windows, search⟩ := searches_terminator? r.bytes offset.toNat 16 (by decide)
  have few := search.few (by decide)
  rw [search.finds] at search
  refine ⟨cstringBytes_eq r offset, fun window => ?_, windows, ?_, ?_⟩
  · exact terminator?_eq _ _ _ window.succ_pos
  · rw [size]
    omega
  · intro n stop
    constructor
    · exact search.unique
    · rintro ⟨rfl, rfl⟩
      exact search

end Region
end MachImage

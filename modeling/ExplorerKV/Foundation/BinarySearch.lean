import Mathlib

/-!
# Search in a sorted sequence

`lower_bound`, `upper_bound` and `binary_search` of the C++ library, with the
halving loop they share.  The elements are compared by a key; two elements with
the same key are equivalent.
-/

namespace ExplorerKV.Foundation

/-- The halving loop: what `p` holds of lies to the left of the result. -/
def search (p : Nat → Bool) : Nat → Nat → Nat → Nat
  | 0, first, _ => first
  | rounds + 1, first, count =>
      if count = 0 then first
      else if p (first + count / 2) then
        search p rounds (first + count / 2 + 1) (count - (count / 2 + 1))
      else search p rounds first (count / 2)

/-- On the left of `i` the predicate holds, at `i` it does not. -/
structure Edge (p : Nat → Bool) (first last i : Nat) : Prop where
  ge : first ≤ i
  le : i ≤ last
  left : i = first ∨ p (i - 1) = true
  right : i = last ∨ p i = false

theorem search_edge (p : Nat → Bool) (rounds first count : Nat) (h : count ≤ rounds) :
    Edge p first (first + count) (search p rounds first count) := by
  induction rounds generalizing first count with
  | zero =>
      obtain rfl : count = 0 := by omega
      exact ⟨le_rfl, le_rfl, .inl rfl, .inl rfl⟩
  | succ rounds ih =>
      rw [search]
      by_cases hcount : count = 0
      · rw [if_pos hcount, hcount]
        exact ⟨le_rfl, le_rfl, .inl rfl, .inl rfl⟩
      · rw [if_neg hcount]
        cases hmid : p (first + count / 2) with
        | true =>
            rw [if_pos rfl]
            have hedge := ih (first + count / 2 + 1) (count - (count / 2 + 1)) (by omega)
            rw [show first + count / 2 + 1 + (count - (count / 2 + 1)) = first + count by omega]
              at hedge
            refine ⟨by have := hedge.ge; omega, hedge.le, .inr ?_, hedge.right⟩
            obtain heq | hleft := hedge.left
            · rw [heq, Nat.add_sub_cancel, hmid]
            · exact hleft
        | false =>
            rw [if_neg (by simp)]
            have hedge := ih first (count / 2) (by omega)
            refine ⟨hedge.ge, by have := hedge.le; omega, hedge.left, .inr ?_⟩
            obtain heq | hright := hedge.right
            · rw [heq, hmid]
            · exact hright

/-! ## Searching by a key -/

section Search

variable {α κ : Type} [LT κ] [DecidableLT κ]

def lowerBound (key : α → κ) (xs : List α) (x : α) : Nat :=
  search (fun i => xs[i]?.any fun y => decide (key y < key x)) xs.length 0 xs.length

def upperBound (key : α → κ) (xs : List α) (x : α) : Nat :=
  search (fun i => xs[i]?.any fun y => !decide (key x < key y)) xs.length 0 xs.length

def binarySearch (key : α → κ) (xs : List α) (x : α) : Bool :=
  xs[lowerBound key xs x]?.any fun y => !decide (key x < key y)

/-- `std::sort`; it leaves the order of equivalent elements open. -/
def sortBy (key : α → κ) (xs : List α) : List α :=
  xs.mergeSort fun x y => !decide (key y < key x)

theorem sortBy_perm (key : α → κ) (xs : List α) : (sortBy key xs).Perm xs :=
  List.mergeSort_perm xs _

theorem lowerBound_edge (key : α → κ) (xs : List α) (x : α) :
    Edge (fun i => xs[i]?.any fun y => decide (key y < key x)) 0 xs.length
      (lowerBound key xs x) := by
  have hedge := search_edge (fun i => xs[i]?.any fun y => decide (key y < key x)) xs.length 0
    xs.length le_rfl
  rwa [Nat.zero_add] at hedge

theorem upperBound_edge (key : α → κ) (xs : List α) (x : α) :
    Edge (fun i => xs[i]?.any fun y => !decide (key x < key y)) 0 xs.length
      (upperBound key xs x) := by
  have hedge := search_edge (fun i => xs[i]?.any fun y => !decide (key x < key y)) xs.length 0
    xs.length le_rfl
  rwa [Nat.zero_add] at hedge

end Search

/-! ## Sorted sequences -/

section Sorted

variable {α κ : Type} [LE κ] [Std.IsLinearOrder κ] {key : α → κ} {xs : List α} {x : α}

theorem key_le_of_le (hsorted : xs.Pairwise fun x y => key x ≤ key y) {i j : Nat} (hij : i ≤ j)
    (hi : i < xs.length) (hj : j < xs.length) : key xs[i] ≤ key xs[j] := by
  obtain rfl | hlt := Nat.eq_or_lt_of_le hij
  · exact Std.le_refl _
  · exact List.pairwise_iff_getElem.mp hsorted i j hi hj hlt

variable [LT κ] [DecidableLT κ] [Std.LawfulOrderLT κ]

theorem pairwise_sortBy (key : α → κ) (xs : List α) :
    (sortBy key xs).Pairwise fun x y => key x ≤ key y := by
  have hsorted : (sortBy key xs).Pairwise fun x y => (!decide (key y < key x)) = true :=
    List.pairwise_mergeSort
      (fun a b c hab hbc => by
        simp only [Bool.not_eq_true', decide_eq_false_iff_not, Std.not_lt] at hab hbc ⊢
        exact Std.le_trans hab hbc)
      (fun a b => by
        simp only [Bool.or_eq_true, Bool.not_eq_true', decide_eq_false_iff_not, Std.not_lt]
        exact Std.le_total) xs
  exact hsorted.imp fun h => by simpa [Std.not_lt] using h

theorem binarySearch_iff (hsorted : xs.Pairwise fun x y => key x ≤ key y) :
    binarySearch key xs x = true ↔ ∃ y ∈ xs, key y = key x := by
  have hedge := lowerBound_edge key xs x
  unfold binarySearch
  constructor
  · intro hfound
    have hlt : lowerBound key xs x < xs.length := by
      by_contra hend
      rw [List.getElem?_eq_none (by omega)] at hfound
      cases hfound
    have hright := hedge.right.resolve_left hlt.ne
    simp only [List.getElem?_eq_getElem hlt, Option.any_some, Bool.not_eq_true',
      decide_eq_false_iff_not, Std.not_lt] at hfound hright
    exact ⟨_, List.getElem_mem hlt, Std.le_antisymm hfound hright⟩
  · rintro ⟨y, hy, heq⟩
    obtain ⟨i, hi, rfl⟩ := List.mem_iff_getElem.mp hy
    -- everything left of the bound is below the key
    have hle : lowerBound key xs x ≤ i := by
      by_contra hlt
      have hleft := hedge.left.resolve_left (by omega)
      have hbefore : lowerBound key xs x - 1 < xs.length := by
        have := hedge.le
        omega
      simp only [List.getElem?_eq_getElem hbefore, Option.any_some, decide_eq_true_eq] at hleft
      have hki := key_le_of_le hsorted (show i ≤ lowerBound key xs x - 1 by omega) hi hbefore
      exact Std.lt_irrefl (heq ▸ Std.lt_of_le_of_lt hki hleft)
    have hlt : lowerBound key xs x < xs.length := by omega
    simp only [List.getElem?_eq_getElem hlt, Option.any_some, Bool.not_eq_true',
      decide_eq_false_iff_not, Std.not_lt]
    exact heq ▸ key_le_of_le hsorted hle hlt hi

theorem upperBound_spec (hsorted : xs.Pairwise fun x y => key x ≤ key y) {y : α} (hy : y ∈ xs)
    (heq : key y = key x) :
    ∃ i z, upperBound key xs x = i + 1 ∧ xs[i]? = some z ∧ key z = key x := by
  have hedge := upperBound_edge key xs x
  obtain ⟨i, hi, rfl⟩ := List.mem_iff_getElem.mp hy
  have hlt : i < upperBound key xs x := by
    by_contra hle
    have hbound : upperBound key xs x < xs.length := by omega
    have hright := hedge.right.resolve_left hbound.ne
    simp only [List.getElem?_eq_getElem hbound, Option.any_some, Bool.not_eq_false',
      decide_eq_true_eq] at hright
    have hki := key_le_of_le hsorted (show upperBound key xs x ≤ i by omega) hbound hi
    exact Std.lt_irrefl (heq ▸ Std.lt_of_lt_of_le hright hki)
  have hbefore : upperBound key xs x - 1 < xs.length := by
    have := hedge.le
    omega
  have hleft := hedge.left.resolve_left (by omega)
  simp only [List.getElem?_eq_getElem hbefore, Option.any_some, Bool.not_eq_true',
    decide_eq_false_iff_not, Std.not_lt] at hleft
  have hki := key_le_of_le hsorted (show i ≤ upperBound key xs x - 1 by omega) hi hbefore
  exact ⟨upperBound key xs x - 1, _, by omega, List.getElem?_eq_getElem hbefore,
    Std.le_antisymm hleft (heq ▸ hki)⟩

end Sorted

end ExplorerKV.Foundation

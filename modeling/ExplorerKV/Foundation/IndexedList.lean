import Mathlib

/-!
# Lists stored as records

A list kept in a store as one record for each position, with a reverse index
from the key of an element to its position.  `Stored key node index xs` says
that `node` and `index` hold `xs`.  The operations are those a store offers:
append a record, overwrite one, exchange two, remove the last.  Each lemma
takes the new contents pointwise, so the order of the writes does not matter.
-/

namespace ExplorerKV.Foundation

variable {α κ : Type} {key : α → κ}

structure Stored (key : α → κ) (node : Int → Option α) (index : κ → Option Int)
    (xs : List α) : Prop where
  node_eq : ∀ i : Int, node i = if 0 ≤ i then xs[i.toNat]? else none
  index_eq : ∀ (i : Nat) (x : α), xs[i]? = some x → index (key x) = some (i : Int)

namespace Stored

variable {node node' : Int → Option α} {index index' : κ → Option Int}
  {xs ys zs : List α} {x y : α}

theorem node_natCast (h : Stored key node index xs) (i : Nat) :
    node (i : Int) = xs[i]? := by
  rw [h.node_eq]
  simp

theorem node_append (h : Stored key node index (xs ++ x :: ys)) :
    node (xs.length : Int) = some x := by
  rw [h.node_natCast]
  simp

theorem index_append (h : Stored key node index (xs ++ x :: ys)) :
    index (key x) = some (xs.length : Int) :=
  h.index_eq _ _ (by simp)

theorem nodup (h : Stored key node index xs) : (xs.map key).Nodup := by
  rw [List.nodup_iff_injective_get]
  intro i j hij
  have hget : ∀ k : Fin (xs.map key).length,
      index ((xs.map key).get k) = some (k : Int) := by
    intro k
    have hk : (k : Nat) < xs.length := by simpa using k.isLt
    rw [List.get_eq_getElem, List.getElem_map]
    exact h.index_eq k _ (List.getElem?_eq_getElem hk)
  have heq := hget i
  rw [hij, hget j] at heq
  exact Fin.ext (by simpa using heq.symm)

theorem isSome_iff (h : Stored key node index xs) (i : Int) :
    (node i).isSome ↔ 0 ≤ i ∧ i < xs.length := by
  rw [h.node_eq]
  by_cases hi : 0 ≤ i
  · simp [hi]
  · simp [hi]

theorem empty (node : Int → Option α) (hnode : ∀ i, node i = none)
    (index : κ → Option Int) : Stored key node index [] :=
  ⟨fun i => by simp [hnode], by simp⟩

theorem set (h : Stored key node index (xs ++ x :: ys))
    (hnode : ∀ i, node' i = if i = xs.length then some y else node i)
    (hkey : key y = key x) : Stored key node' index (xs ++ y :: ys) where
  node_eq i := by
    rw [hnode, h.node_eq]
    by_cases hi : i = xs.length
    · simp [hi]
    · rw [if_neg hi]
      split
      · simp only [List.getElem?_append, List.getElem?_cons]
        split
        · rfl
        · rw [if_neg (by omega), if_neg (by omega)]
      · rfl
  index_eq i z hz := by
    simp only [List.getElem?_append, List.getElem?_cons] at hz
    by_cases hi : i = xs.length
    · subst hi
      obtain rfl : y = z := by simpa using hz
      rw [hkey]
      exact h.index_append
    · refine h.index_eq i z ?_
      simp only [List.getElem?_append, List.getElem?_cons]
      split at hz
      · rename_i hlt
        rw [if_pos hlt, hz]
      · rename_i hlt
        rw [if_neg hlt, if_neg (by omega)]
        rwa [if_neg (by omega)] at hz

theorem dropLast (h : Stored key node index (xs ++ [x]))
    (hnode : ∀ i, node' i = if i = xs.length then none else node i)
    (hindex : ∀ k, k ≠ key x → index' k = index k) :
    Stored key node' index' xs where
  node_eq i := by
    rw [hnode, h.node_eq]
    by_cases hi : i = xs.length
    · simp [hi]
    · rw [if_neg hi]
      split
      · rcases lt_or_ge i.toNat xs.length with hlt | hge
        · rw [List.getElem?_append_left hlt]
        · rw [List.getElem?_eq_none hge, List.getElem?_eq_none]
          simp
          omega
      · rfl
  index_eq i z hz := by
    have hlt := (List.getElem?_eq_some_iff.mp hz).1
    have hold : (xs ++ [x])[i]? = some z := by
      rwa [List.getElem?_append_left hlt]
    rw [hindex, h.index_eq i z hold]
    intro heq
    have hlast := h.index_append
    rw [← heq, h.index_eq i z hold] at hlast
    have : i = xs.length := by simpa using hlast
    omega

variable [DecidableEq κ]

theorem append (h : Stored key node index xs)
    (hnode : ∀ i, node' i = if i = xs.length then some x else node i)
    (hindex : ∀ k, index' k = if k = key x then some (xs.length : Int) else index k)
    (hfresh : key x ∉ xs.map key) : Stored key node' index' (xs ++ [x]) where
  node_eq i := by
    rw [hnode, h.node_eq]
    by_cases hi : i = xs.length
    · simp [hi]
    · rw [if_neg hi]
      split
      · rcases lt_or_ge i.toNat xs.length with hlt | hge
        · rw [List.getElem?_append_left hlt]
        · rw [List.getElem?_eq_none hge, List.getElem?_eq_none]
          simp
          omega
      · rfl
  index_eq i z hz := by
    rw [hindex]
    rcases lt_trichotomy i xs.length with hlt | rfl | hgt
    · rw [List.getElem?_append_left hlt] at hz
      have hmem : key z ∈ xs.map key :=
        List.mem_map_of_mem (List.mem_of_getElem? hz)
      have hne : key z ≠ key x := fun heq => hfresh (by rwa [heq] at hmem)
      rw [if_neg hne, h.index_eq i z hz]
    · obtain rfl : x = z := by simpa using hz
      rw [if_pos rfl]
    · rw [List.getElem?_eq_none (by simp; omega)] at hz
      cases hz

theorem swap (h : Stored key node index (xs ++ x :: ys ++ y :: zs))
    (hnode : ∀ i, node' i =
      if i = xs.length then some y
      else if i = (xs ++ x :: ys).length then some x else node i)
    (hindex : ∀ k, index' k =
      if k = key x then some ((xs ++ x :: ys).length : Int)
      else if k = key y then some (xs.length : Int) else index k) :
    Stored key node' index' (xs ++ y :: ys ++ x :: zs) := by
  have hnodup := h.nodup
  have hget : ∀ i : Nat, (xs ++ y :: ys ++ x :: zs)[i]? =
      if i = xs.length then some y
      else if i = (xs ++ x :: ys).length then some x
      else (xs ++ x :: ys ++ y :: zs)[i]? := by
    intro i
    simp only [List.append_assoc, List.cons_append, List.getElem?_append,
      List.getElem?_cons, List.length_append, List.length_cons]
    split_ifs <;> first | rfl | omega
  constructor
  · intro i
    rw [hnode, h.node_eq]
    by_cases hi : 0 ≤ i
    · obtain ⟨n, rfl⟩ := Int.eq_ofNat_of_zero_le hi
      simp only [Int.natCast_nonneg, if_true, Int.toNat_natCast, Nat.cast_inj, hget]
    · rw [if_neg (by omega), if_neg (by omega), if_neg hi, if_neg hi]
  · intro i z hz
    rw [hget] at hz
    rw [hindex]
    have hxy : key y ≠ key x := by
      intro heq
      simp [heq, List.nodup_append] at hnodup
    by_cases hix : i = xs.length
    · obtain rfl : y = z := by simpa [hix] using hz
      rw [if_neg hxy, if_pos rfl, hix]
    rw [if_neg hix] at hz
    by_cases hiy : i = (xs ++ x :: ys).length
    · obtain rfl : x = z := by simpa [hiy] using hz
      rw [if_pos rfl, hiy]
    rw [if_neg hiy] at hz
    have hold := h.index_eq i z hz
    have hx : index (key x) = some (xs.length : Int) :=
      h.index_eq _ _ (by simp)
    have hy : index (key y) = some ((xs ++ x :: ys).length : Int) :=
      h.index_append
    rw [if_neg, if_neg, hold]
    · intro heq
      rw [heq, hy] at hold
      exact hiy (by exact_mod_cast (Option.some.inj hold).symm)
    · intro heq
      rw [heq, hx] at hold
      exact hix (by simpa using hold.symm)

end Stored

end ExplorerKV.Foundation

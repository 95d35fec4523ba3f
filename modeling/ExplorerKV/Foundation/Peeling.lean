import Mathlib

/-!
# Peeling a finite graph

`R c p` says that `c` is a child of `p`.  A list peels a set when each of its
elements comes after all of its children in the set, so that it is a leaf of what
is left when its turn comes.
-/

namespace ExplorerKV.Foundation

variable {α : Type} {R : α → α → Prop} {S : α → Prop}

inductive Peeling (R : α → α → Prop) (S : α → Prop) : List α → Prop
  | nil : Peeling R S []
  | snoc {l : List α} {a : α} (before : Peeling R S l) (here : S a) (fresh : a ∉ l)
      (leaf : ∀ c, S c → R c a → c ∈ l) : Peeling R S (l ++ [a])

namespace Peeling

variable {l : List α} {a c : α}

theorem mem (h : Peeling R S l) (ha : a ∈ l) : S a := by
  induction h with
  | nil => cases ha
  | snoc _ here _ _ ih =>
      rcases List.mem_append.mp ha with ha | ha
      · exact ih ha
      · exact List.mem_singleton.mp ha ▸ here

theorem nodup (h : Peeling R S l) : l.Nodup := by
  induction h with
  | nil => exact List.nodup_nil
  | snoc _ _ fresh _ ih => exact List.nodup_append.mpr ⟨ih, List.nodup_singleton _, by
      intro b hb c hc hbc
      exact fresh (List.mem_singleton.mp hc ▸ hbc ▸ hb)⟩

theorem child (h : Peeling R S l) (ha : a ∈ l) (hc : S c) (hca : R c a) : c ∈ l := by
  induction h with
  | nil => cases ha
  | snoc _ _ _ leaf ih =>
      rcases List.mem_append.mp ha with ha | ha
      · exact List.mem_append_left _ (ih ha)
      · exact List.mem_append_left _ (leaf c hc (List.mem_singleton.mp ha ▸ hca))

theorem descendant (h : Peeling R S l) (hR : ∀ c p, R c p → S c) (ha : a ∈ l)
    (hca : Relation.ReflTransGen R c a) : c ∈ l := by
  induction hca using Relation.ReflTransGen.head_induction_on with
  | refl => exact ha
  | head hstep _ ih => exact h.child ih (hR _ _ hstep) hstep

theorem pairwise (h : Peeling R S l) : l.Pairwise fun a b => ¬R b a := by
  induction h with
  | nil => exact .nil
  | snoc before here fresh _ ih =>
      refine List.pairwise_append.mpr ⟨ih, List.pairwise_singleton _ _, ?_⟩
      intro a ha b hb hba
      obtain rfl := List.mem_singleton.mp hb
      exact fresh (before.child ha here hba)

end Peeling

theorem exists_length_bound (α : Type) [Finite α] :
    ∃ bound, ∀ l : List α, l.Nodup → l.length ≤ bound := by
  have := Fintype.ofFinite α
  exact ⟨Fintype.card α, fun _ hl => hl.length_le_card⟩

theorem wellFounded_of_acyclic [Finite α] (hacyclic : ∀ a, ¬Relation.TransGen R a a) :
    WellFounded R := by
  have : IsTrans α (Relation.TransGen R) := ⟨fun _ _ _ => .trans⟩
  have : Std.Irrefl (Relation.TransGen R) := ⟨hacyclic⟩
  exact (Finite.wellFounded_of_trans_of_irrefl (Relation.TransGen R)).mono
    fun _ _ => Relation.TransGen.single

theorem acyclic_of_new {R' : α → α → Prop} {v : α}
    (hold : ∀ a b, R' a b → a ≠ v → b ≠ v → R a b) (hacyclic : ∀ a, ¬Relation.TransGen R a a)
    (hnew : ¬Relation.TransGen R' v v) (a : α) : ¬Relation.TransGen R' a a := by
  have havoid : ∀ a b, Relation.TransGen R' a b → a ≠ v → b ≠ v →
      Relation.TransGen R a b ∨ Relation.TransGen R' a v ∧ Relation.TransGen R' v b := by
    intro a b hpath ha hb
    induction hpath with
    | single hstep => exact .inl (.single (hold _ _ hstep ha hb))
    | @tail c d hpath hstep ih =>
        by_cases hc : c = v
        · subst hc
          exact .inr ⟨hpath, .single hstep⟩
        · exact (ih hc).imp (fun hin => hin.tail (hold _ _ hstep hc hb))
            fun hthrough => ⟨hthrough.1, hthrough.2.tail hstep⟩
  intro hcycle
  by_cases ha : a = v
  · exact hnew (ha ▸ hcycle)
  · exact (havoid a a hcycle ha ha).elim (hacyclic a) fun hthrough =>
      hnew (hthrough.2.trans hthrough.1)

end ExplorerKV.Foundation

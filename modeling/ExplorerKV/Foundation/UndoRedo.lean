import ExplorerKV.Foundation.Exec

/-!
# Undoing and redoing a list of steps

Steps that are undone last first and then redone in their order lead back to
the start as soon as each of them does.  `same` compares states by what the
steps see; a redo only has to work on a state that looks like the one its undo
has left.
-/

namespace ExplorerKV.Foundation

variable {ε σ α : Type}

/-- An undone step can be redone, on any state that looks like the one undone. -/
def Redoable (same : σ → σ → Prop) (redo : Exec ε σ PUnit) (s t : σ) : Prop :=
  ∀ r, same t r → ∃ s', redo r = .ok (⟨⟩, s') ∧ same s s'

theorem undo_redo {same : σ → σ → Prop} (hrefl : ∀ s, same s s)
    (undo redo : α → Exec ε σ PUnit) (inv : List α → σ → Prop)
    (hstep : ∀ xs x s, inv (xs ++ [x]) s →
      ∃ t, undo x s = .ok (⟨⟩, t) ∧ inv xs t ∧ Redoable same (redo x) s t)
    {xs : List α} {s : σ} (hinv : inv xs s) :
    ∃ t s', (forM xs.reverse undo : Exec ε σ PUnit) s = .ok (⟨⟩, t) ∧
      (forM xs redo : Exec ε σ PUnit) t = .ok (⟨⟩, s') ∧ same s s' := by
  induction xs using List.reverseRecOn generalizing s with
  | nil => exact ⟨s, s, rfl, rfl, hrefl s⟩
  | append_singleton xs x ih =>
      obtain ⟨t1, hundo, hinv1, hredo⟩ := hstep xs x s hinv
      obtain ⟨t, r, hundos, hredos, hsame⟩ := ih hinv1
      obtain ⟨s', hlast, hback⟩ := hredo r hsame
      refine ⟨t, s', ?_, ?_, hback⟩
      · rw [List.reverse_append, List.reverse_singleton, List.singleton_append,
          List.forM_cons, bind_eq_ok]
        exact ⟨_, t1, hundo, hundos⟩
      · rw [List.forM_append, bind_eq_ok]
        refine ⟨_, r, hredos, ?_⟩
        rw [List.forM_cons, bind_eq_ok]
        exact ⟨_, s', hlast, rfl⟩

end ExplorerKV.Foundation

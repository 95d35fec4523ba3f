import Mathlib.Logic.Function.Basic

/-!
# Mutual exclusion with a flag

Threads at program points, and a mutex that is a flag.  Some program points are
inside the lock.  A thread may only come inside when the flag is clear; whoever
clears the flag, it is clear.
-/

namespace ExplorerKV.Foundation

variable {τ π : Type} {inside : π → Prop} {pc : τ → π}

def Exclusive (inside : π → Prop) (pc : τ → π) : Prop :=
  ∀ t u, inside (pc t) → inside (pc u) → t = u

/-- At most one thread is inside, and the flag is set while there is one. -/
structure Guarded (inside : π → Prop) (pc : τ → π) (locked : Bool) : Prop where
  exclusive : Exclusive inside pc
  locked_of_inside : ∀ t, inside (pc t) → locked = true

namespace Guarded

variable {locked : Bool}

theorem of_none_inside (locked : Bool) (h : ∀ t, ¬inside (pc t)) : Guarded inside pc locked :=
  ⟨fun t _ ht => absurd ht (h t), fun t ht => absurd ht (h t)⟩

theorem of_subset (h : Guarded inside pc locked) {pc' : τ → π}
    (hsub : ∀ t, inside (pc' t) → inside (pc t)) : Guarded inside pc' locked where
  exclusive t u ht hu := h.exclusive t u (hsub t ht) (hsub u hu)
  locked_of_inside t ht := h.locked_of_inside t (hsub t ht)

variable [DecidableEq τ] {t : τ} {p : π}

theorem inside_update (hp : ¬inside p) {u : τ} (hu : inside (Function.update pc t p u)) :
    u ≠ t ∧ inside (pc u) := by
  by_cases hut : u = t
  · subst hut
    rw [Function.update_self] at hu
    exact absurd hu hp
  · rw [Function.update_of_ne hut] at hu
    exact ⟨hut, hu⟩

theorem move (h : Guarded inside pc locked) (ht : inside (pc t)) :
    Guarded inside (Function.update pc t p) locked := by
  refine h.of_subset fun u hu => ?_
  by_cases hut : u = t
  · exact hut ▸ ht
  · rwa [Function.update_of_ne hut] at hu

theorem acquire (h : Guarded inside pc false) : Guarded inside (Function.update pc t p) true := by
  have honly : ∀ u, inside (Function.update pc t p u) → u = t := fun u hu => by
    by_contra hut
    rw [Function.update_of_ne hut] at hu
    exact absurd (h.locked_of_inside u hu) (by simp)
  exact ⟨fun u v hu hv => (honly u hu).trans (honly v hv).symm, fun _ _ => rfl⟩

theorem release (h : Guarded inside pc locked) (ht : inside (pc t)) (hp : ¬inside p)
    (locked' : Bool) : Guarded inside (Function.update pc t p) locked' :=
  of_none_inside locked' fun u hu =>
    (inside_update hp hu).1 (h.exclusive u t (inside_update hp hu).2 ht)

end Guarded

end ExplorerKV.Foundation

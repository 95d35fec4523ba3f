import ExplorerKV.Foundation.Exec

/-!
# Computations that move along a preorder

`Steps R m`: whenever `m` ends normally, its last state is related by `R` to
its first.  With `R` a preorder the rules follow the constructors of a program,
so a property of every write of a program is one of the whole program.  A
predicate that is never lost is the preorder `Kept P`.
-/

namespace ExplorerKV.Foundation

variable {ε σ α β γ : Type}

structure Steps (R : σ → σ → Prop) (m : Exec ε σ α) : Prop where
  run : ∀ s, wp m (fun _ s' => R s s') (fun _ => True) s

/-- What holds in the first state holds in the second. -/
def Kept (P : σ → Prop) (s s' : σ) : Prop := P s → P s'

instance (P : σ → Prop) : IsPreorder σ (Kept P) where
  refl _ h := h
  trans _ _ _ h h' hP := h' (h hP)

namespace Steps

variable {R : σ → σ → Prop}

theorem throw (e : ε) : Steps R (MonadExcept.throw e : Exec ε σ α) :=
  ⟨fun _ => trivial⟩

theorem ite {c : Prop} [Decidable c] {m m' : Exec ε σ α} (hm : Steps R m)
    (hm' : Steps R m') : Steps R (if c then m else m') :=
  ⟨fun s => wp_ite (fun _ => hm.run s) fun _ => hm'.run s⟩

theorem mono {R' : σ → σ → Prop} {m : Exec ε σ α} (hm : Steps R m)
    (h : ∀ s s', R s s' → R' s s') : Steps R' m :=
  ⟨fun s => wp_mono (hm.run s) (fun _ s' => h s s') fun _ he => he⟩

theorem of_run {m : Exec ε σ α} {a : α} {s s' : σ} (hm : Steps R m)
    (hrun : m s = .ok (a, s')) : R s s' := by
  have h := hm.run s
  rwa [wp, hrun] at h

variable [IsPreorder σ R]

theorem pure (a : α) : Steps R (Pure.pure a : Exec ε σ α) :=
  ⟨fun s => Std.Refl.refl s⟩

theorem get : Steps R (MonadState.get : Exec ε σ σ) :=
  ⟨fun s => Std.Refl.refl s⟩

theorem bind {m : Exec ε σ α} {f : α → Exec ε σ β} (hm : Steps R m)
    (hf : ∀ a, Steps R (f a)) : Steps R (m >>= f) :=
  ⟨fun s => wp_seq (hm.run s) fun a s' h =>
    wp_mono ((hf a).run s') (fun _ _ h' => IsTrans.trans _ _ _ h h') fun _ he => he⟩

theorem forM {xs : List γ} {f : γ → Exec ε σ PUnit} (hf : ∀ x, Steps R (f x)) :
    Steps R (ForM.forM xs f) := by
  induction xs with
  | nil => exact pure _
  | cons x xs ih =>
      rw [List.forM_cons]
      exact bind (hf x) fun _ => ih

theorem mapM {xs : List γ} {f : γ → Exec ε σ β} (hf : ∀ x, Steps R (f x)) :
    Steps R (xs.mapM f) := by
  induction xs with
  | nil => exact pure _
  | cons x xs ih =>
      rw [List.mapM_cons]
      exact bind (hf x) fun _ => bind ih fun _ => pure _

theorem foldlM {xs : List γ} {f : β → γ → Exec ε σ β} (hf : ∀ b x, Steps R (f b x))
    (b : β) : Steps R (xs.foldlM f b) := by
  induction xs generalizing b with
  | nil => exact pure _
  | cons x xs ih =>
      rw [List.foldlM_cons]
      exact bind (hf b x) fun b' => ih b'

end Steps

end ExplorerKV.Foundation

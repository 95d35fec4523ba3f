import ExplorerKV.Foundation.Runs

/-!
# Computations in lockstep

`Lockstep Q m m' s t`: started in `s` and in `t`, the two computations end
alike, either with the same value in states related by `Q`, or with the same
fault.  The rules follow the constructors of a program; a loop carries a ghost
value that each round advances.
-/

namespace ExplorerKV.Foundation

variable {ε σ τ α β γ π : Type}

inductive Lockstep (Q : α → σ → τ → Prop) (m : Exec ε σ α) (m' : Exec ε τ α) (s : σ)
    (t : τ) : Prop where
  | ok {a : α} {s' : σ} {t' : τ} (hs : m s = .ok (a, s')) (ht : m' t = .ok (a, t'))
      (hQ : Q a s' t')
  | error {e : ε} (hs : m s = .error e) (ht : m' t = .error e)

section Rules

variable {Q R : α → σ → τ → Prop} {m : Exec ε σ α} {m' : Exec ε τ α} {s : σ} {t : τ}

theorem lockstep_pure {a : α} (h : Q a s t) :
    Lockstep Q (pure a : Exec ε σ α) (pure a) s t := .ok rfl rfl h

theorem lockstep_throw (e : ε) :
    Lockstep Q (throw e : Exec ε σ α) (throw e) s t := .error rfl rfl

theorem lockstep_mono (h : Lockstep R m m' s t) (hQ : ∀ a s' t', R a s' t' → Q a s' t') :
    Lockstep Q m m' s t := by
  cases h with
  | ok hs ht hR => exact .ok hs ht (hQ _ _ _ hR)
  | error hs ht => exact .error hs ht

theorem lockstep_seq {f : α → Exec ε σ β} {f' : α → Exec ε τ β} {Q : β → σ → τ → Prop}
    (h : Lockstep R m m' s t)
    (hf : ∀ a s' t', R a s' t' → Lockstep Q (f a) (f' a) s' t') :
    Lockstep Q (m >>= f) (m' >>= f') s t := by
  cases h with
  | @ok a s' t' hs ht hR =>
      cases hf a s' t' hR with
      | ok hs' ht' hQ =>
          exact .ok (by rw [bind_run, hs]; exact hs') (by rw [bind_run, ht]; exact ht') hQ
      | error hs' ht' =>
          exact .error (by rw [bind_run, hs]; exact hs') (by rw [bind_run, ht]; exact ht')
  | error hs ht => exact .error (by rw [bind_run, hs]) (by rw [bind_run, ht])

theorem lockstep_ite {c : Prop} [Decidable c] {m₂ : Exec ε σ α} {m₂' : Exec ε τ α}
    (hpos : c → Lockstep Q m m' s t) (hneg : ¬c → Lockstep Q m₂ m₂' s t) :
    Lockstep Q (if c then m else m₂) (if c then m' else m₂') s t := by
  by_cases hc : c
  · simpa [hc] using hpos hc
  · simpa [hc] using hneg hc

theorem lockstep_wp {P : α → τ → Prop} {E : ε → Prop} (h : Lockstep R m m' s t)
    (hwp : wp m' P E t) : Lockstep (fun a s' t' => R a s' t' ∧ P a t') m m' s t := by
  cases h with
  | ok hs ht hR => exact .ok hs ht ⟨hR, wp_of_ok hwp ht⟩
  | error hs ht => exact .error hs ht

theorem wp_of_lockstep {P : α → τ → Prop} {E : ε → Prop} (h : Lockstep R m m' s t)
    (hwp : wp m' P E t) : wp m (fun a s' => ∃ t', R a s' t' ∧ P a t') E s := by
  rw [wp]
  cases h with
  | ok hs ht hR =>
      rw [hs]
      exact ⟨_, hR, wp_of_ok hwp ht⟩
  | error hs ht =>
      rw [hs]
      have hE := wp_of_error hwp ht
      exact hE

end Rules

section Loops

variable {s : σ} {t : τ} {allowed : π → α → Prop} {next : π → α → π}

theorem lockstep_forM {xs : List α} {f : α → Exec ε σ PUnit} {f' : α → Exec ε τ PUnit}
    (Inv : π → σ → τ → Prop)
    (hstep : ∀ p x s t, allowed p x → Inv p s t →
      Lockstep (fun _ s' t' => Inv (next p x) s' t') (f x) (f' x) s t)
    {p : π} (hrun : Along allowed next p xs) (hinit : Inv p s t) :
    Lockstep (fun _ s' t' => Inv (xs.foldl next p) s' t') (forM xs f) (forM xs f') s t := by
  induction xs generalizing p s t with
  | nil => exact .ok rfl rfl hinit
  | cons x xs ih =>
      rw [List.forM_cons, List.forM_cons]
      exact lockstep_seq (hstep p x s t hrun.1 hinit) fun _ _ _ hI => ih hrun.2 hI

end Loops

theorem along_flatMap {allowed : π → α → Prop} {next : π → α → π}
    {g : γ → List α} {p : π} {ys : List γ} :
    Along allowed next p (ys.flatMap g) ↔
      Along (fun p y => Along allowed next p (g y)) (fun p y => (g y).foldl next p) p ys := by
  induction ys generalizing p with
  | nil => exact Iff.rfl
  | cons y ys ih => rw [List.flatMap_cons, along_append, along_cons, ih]

end ExplorerKV.Foundation

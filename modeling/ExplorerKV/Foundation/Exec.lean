import Mathlib

/-!
# Stateful computations that may fail

`Exec ε σ α` is a computation over a state `σ` that ends with a value or with
a fault `ε`.  `wp m Q E s` says how `m` ends when it is started in `s`: with a
value and a state satisfying `Q`, or with a fault satisfying `E`.  The rules
below follow the constructors of a program; a loop is handled by an invariant
over the part of the list already visited.
-/

namespace ExplorerKV.Foundation

abbrev Exec (ε σ α : Type) := StateT σ (Except ε) α

variable {ε σ α β : Type}

/-- How `m` ends from `s`: `Q` on a normal end, `E` on a fault. -/
def wp (m : Exec ε σ α) (Q : α → σ → Prop) (E : ε → Prop) (s : σ) : Prop :=
  match m s with
  | .ok (a, s') => Q a s'
  | .error e => E e

section Rules

variable {Q Q' : α → σ → Prop} {E E' : ε → Prop} {s : σ}

theorem wp_of_ok {m : Exec ε σ α} {a : α} {s' : σ}
    (h : wp m Q E s) (hrun : m s = .ok (a, s')) : Q a s' := by
  simpa [wp, hrun] using h

theorem wp_of_error {m : Exec ε σ α} {e : ε}
    (h : wp m Q E s) (hrun : m s = .error e) : E e := by
  simpa [wp, hrun] using h

theorem wp_iff {m : Exec ε σ α} :
    wp m Q E s ↔ (∀ a s', m s = .ok (a, s') → Q a s') ∧
      ∀ e, m s = .error e → E e := by
  unfold wp
  cases m s with
  | ok r =>
      obtain ⟨a, s'⟩ := r
      simp
  | error e => simp

theorem exists_of_wp {m : Exec ε σ α} (h : wp m Q (fun _ => False) s) :
    ∃ a s', m s = .ok (a, s') ∧ Q a s' := by
  unfold wp at h
  cases hm : m s with
  | ok r =>
      rw [hm] at h
      exact ⟨r.1, r.2, rfl, h⟩
  | error e =>
      rw [hm] at h
      exact h.elim

theorem run_of_wp {m : Exec ε σ α} {a : α} {s' : σ}
    (h : wp m (fun b t => b = a ∧ t = s') (fun _ => False) s) : m s = .ok (a, s') := by
  obtain ⟨_, _, hrun, rfl, rfl⟩ := exists_of_wp h
  exact hrun

theorem wp_mono {m : Exec ε σ α} (h : wp m Q E s)
    (hQ : ∀ a s', Q a s' → Q' a s') (hE : ∀ e, E e → E' e) :
    wp m Q' E' s := by
  rw [wp_iff] at h ⊢
  exact ⟨fun a s' hrun => hQ a s' (h.1 a s' hrun), fun e hrun => hE e (h.2 e hrun)⟩

theorem wp_trivial (m : Exec ε σ α) : wp m (fun _ _ => True) (fun _ => True) s :=
  wp_iff.mpr ⟨fun _ _ _ => trivial, fun _ _ => trivial⟩

theorem wp_and {m : Exec ε σ α} (h : wp m Q E s) (h' : wp m Q' E' s) :
    wp m (fun a s' => Q a s' ∧ Q' a s') (fun e => E e ∧ E' e) s := by
  rw [wp_iff] at h h' ⊢
  exact ⟨fun a s' hrun => ⟨h.1 a s' hrun, h'.1 a s' hrun⟩,
    fun e hrun => ⟨h.2 e hrun, h'.2 e hrun⟩⟩

theorem wp_strengthen {m : Exec ε σ α} (h : wp m Q E s)
    (h' : wp m Q' (fun _ => True) s) :
    wp m (fun a s' => Q a s' ∧ Q' a s') E s :=
  wp_mono (wp_and h h') (fun _ _ hQ => hQ) fun _ he => he.1

@[simp] theorem wp_pure (a : α) : wp (pure a : Exec ε σ α) Q E s ↔ Q a s := Iff.rfl

@[simp] theorem wp_throw (e : ε) : wp (throw e : Exec ε σ α) Q E s ↔ E e := Iff.rfl

@[simp] theorem wp_get {Q : σ → σ → Prop} :
    wp (get : Exec ε σ σ) Q E s ↔ Q s s := Iff.rfl

@[simp] theorem wp_set {Q : PUnit → σ → Prop} (s' : σ) :
    wp (set s' : Exec ε σ PUnit) Q E s ↔ Q ⟨⟩ s' := Iff.rfl

@[simp] theorem wp_modify {Q : PUnit → σ → Prop} (f : σ → σ) :
    wp (modify f : Exec ε σ PUnit) Q E s ↔ Q ⟨⟩ (f s) := Iff.rfl

theorem bind_run (m : Exec ε σ α) (f : α → Exec ε σ β) (s : σ) :
    (m >>= f) s = match m s with
      | .ok (a, s') => f a s'
      | .error e => .error e := by
  change (m s).bind _ = _
  cases m s with
  | ok r => rfl
  | error e => rfl

theorem bind_eq_ok {m : Exec ε σ α} {f : α → Exec ε σ β} {s s'' : σ} {b : β} :
    (m >>= f) s = .ok (b, s'') ↔ ∃ a s', m s = .ok (a, s') ∧ f a s' = .ok (b, s'') := by
  rw [bind_run]
  cases m s with
  | ok r =>
      obtain ⟨a, s'⟩ := r
      simp
  | error e => simp

theorem except_bind_eq_ok {x : Except ε α} {f : α → Except ε β} {b : β} :
    (x >>= f) = .ok b ↔ ∃ a, x = .ok a ∧ f a = .ok b := by
  cases x with
  | ok a => simp [bind, Except.bind]
  | error e => simp [bind, Except.bind]

@[simp] theorem wp_bind {m : Exec ε σ α} {f : α → Exec ε σ β} {Q : β → σ → Prop} :
    wp (m >>= f) Q E s ↔ wp m (fun a s' => wp (f a) Q E s') E s := by
  unfold wp
  rw [bind_run]
  cases m s with
  | ok r => rfl
  | error e => rfl

@[simp] theorem wp_map {m : Exec ε σ α} {f : α → β} {Q : β → σ → Prop} :
    wp (f <$> m) Q E s ↔ wp m (fun a s' => Q (f a) s') E s := by
  rw [← bind_pure_comp, wp_bind]
  simp

theorem wp_seq {m : Exec ε σ α} {f : α → Exec ε σ β} {R : α → σ → Prop}
    {Q : β → σ → Prop} (h : wp m R E s)
    (hf : ∀ a s', R a s' → wp (f a) Q E s') : wp (m >>= f) Q E s :=
  wp_bind.mpr (wp_mono h hf fun _ he => he)

theorem wp_ite {c : Prop} [Decidable c] {m m' : Exec ε σ α}
    (hpos : c → wp m Q E s) (hneg : ¬c → wp m' Q E s) :
    wp (if c then m else m') Q E s := by
  by_cases hc : c
  · simpa [hc] using hpos hc
  · simpa [hc] using hneg hc

end Rules

section Loops

variable {E : ε → Prop} {s : σ}

/-- Loop rule: `I` holds of the visited prefix before and after each round. -/
theorem wp_forM {xs : List α} {f : α → Exec ε σ PUnit} (I : List α → σ → Prop)
    (hinit : I [] s)
    (hstep : ∀ done x rest s, xs = done ++ x :: rest → I done s →
      wp (f x) (fun _ s' => I (done ++ [x]) s') E s) :
    wp (forM xs f) (fun _ s' => I xs s') E s := by
  suffices h : ∀ done rest s, xs = done ++ rest → I done s →
      wp (forM rest f) (fun _ s' => I xs s') E s from h [] xs s rfl hinit
  intro done rest
  induction rest generalizing done with
  | nil =>
      intro s hxs hI
      have hdone : xs = done := by simpa using hxs
      change I xs s
      rwa [hdone]
  | cons x rest ih =>
      intro s hxs hI
      rw [List.forM_cons]
      exact wp_seq (hstep done x rest s hxs hI) fun _ s' hI' =>
        ih (done ++ [x]) s' (by simpa using hxs) hI'

theorem wp_foldlM {xs : List α} {f : β → α → Exec ε σ β} {b : β}
    (I : List α → β → σ → Prop) (hinit : I [] b s)
    (hstep : ∀ done x rest b s, xs = done ++ x :: rest → I done b s →
      wp (f b x) (fun b' s' => I (done ++ [x]) b' s') E s) :
    wp (xs.foldlM f b) (fun b' s' => I xs b' s') E s := by
  suffices h : ∀ done rest b s, xs = done ++ rest → I done b s →
      wp (rest.foldlM f b) (fun b' s' => I xs b' s') E s from
    h [] xs b s rfl hinit
  intro done rest
  induction rest generalizing done with
  | nil =>
      intro b s hxs hI
      have hdone : xs = done := by simpa using hxs
      change I xs b s
      rwa [hdone]
  | cons x rest ih =>
      intro b s hxs hI
      rw [List.foldlM_cons]
      exact wp_seq (hstep done x rest b s hxs hI) fun b' s' hI' =>
        ih (done ++ [x]) b' s' (by simpa using hxs) hI'

theorem wp_foldlM_zipIdx {xs : List α} {f : β → α × Nat → Exec ε σ β} {b : β}
    (I : List α → β → σ → Prop) (hinit : I [] b s)
    (hstep : ∀ done x rest b s, xs = done ++ x :: rest → I done b s →
      wp (f b (x, done.length)) (fun b' s' => I (done ++ [x]) b' s') E s) :
    wp (xs.zipIdx.foldlM f b) (fun b' s' => I xs b' s') E s := by
  suffices h : ∀ done rest b s, xs = done ++ rest → I done b s →
      wp ((rest.zipIdx done.length).foldlM f b) (fun b' s' => I xs b' s') E s from
    h [] xs b s rfl hinit
  intro done rest
  induction rest generalizing done with
  | nil =>
      intro b s hxs hI
      have hdone : xs = done := by simpa using hxs
      change I xs b s
      rwa [hdone]
  | cons x rest ih =>
      intro b s hxs hI
      rw [List.zipIdx_cons, List.foldlM_cons]
      refine wp_seq (hstep done x rest b s hxs hI) fun b' s' hI' => ?_
      have hrest := ih (done ++ [x]) b' s' (by simpa using hxs) hI'
      rwa [List.length_append, List.length_singleton] at hrest

/-- A loop whose rounds all preserve `I` preserves `I`. -/
theorem wp_forM_const {xs : List α} {f : α → Exec ε σ PUnit} (I : σ → Prop)
    (hinit : I s) (hstep : ∀ x ∈ xs, ∀ s, I s → wp (f x) (fun _ s' => I s') E s) :
    wp (forM xs f) (fun _ s' => I s') E s :=
  wp_forM (fun _ => I) hinit fun _ x _ s hxs hI =>
    hstep x (by rw [hxs]; simp) s hI

theorem wp_mapM_read {xs : List α} {f : α → Exec ε σ β} {R : α → β → Prop}
    (hstep : ∀ x ∈ xs, wp (f x) (fun y s' => s' = s ∧ R x y) E s) :
    wp (xs.mapM f) (fun ys s' => s' = s ∧ List.Forall₂ R xs ys) E s := by
  induction xs with
  | nil => exact ⟨rfl, .nil⟩
  | cons x xs ih =>
      rw [List.mapM_cons]
      refine wp_seq (hstep x (by simp)) ?_
      rintro y _ ⟨rfl, hy⟩
      refine wp_seq (ih fun x hx => hstep x (by simp [hx])) ?_
      rintro ys _ ⟨rfl, hys⟩
      exact ⟨rfl, .cons hy hys⟩

end Loops

end ExplorerKV.Foundation

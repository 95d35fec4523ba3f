import Mathlib

/-!
# Machines with guarded steps

A machine takes an action in a state or refuses it; several parties take turns
in any order, so a schedule is a list of actions.  An invariant may speak of
the schedule so far as well as of the state.
-/

namespace ExplorerKV.Foundation

variable {σ α : Type}

def runs (step : σ → α → Option σ) (s : σ) (schedule : List α) : Option σ :=
  schedule.foldlM step s

section Runs

variable {step : σ → α → Option σ} {s s' : σ}

@[simp] theorem runs_nil : runs step s [] = some s := rfl

theorem runs_cons (a : α) (as : List α) :
    runs step s (a :: as) = (step s a).bind fun t => runs step t as :=
  List.foldlM_cons

theorem runs_append (as bs : List α) :
    runs step s (as ++ bs) = (runs step s as).bind fun t => runs step t bs :=
  List.foldlM_append

theorem runs_snoc {as : List α} {a : α} :
    runs step s (as ++ [a]) = some s' ↔ ∃ t, runs step s as = some t ∧ step t a = some s' := by
  rw [runs_append, Option.bind_eq_some_iff]
  simp [runs]

theorem runs_split {before after : List α} {a : α}
    (hrun : runs step s (before ++ a :: after) = some s') :
    ∃ t u, runs step s before = some t ∧ step t a = some u ∧ runs step u after = some s' := by
  rw [runs_append] at hrun
  obtain ⟨t, ht, hrest⟩ := Option.bind_eq_some_iff.mp hrun
  rw [runs_cons] at hrest
  obtain ⟨u, hu, hafter⟩ := Option.bind_eq_some_iff.mp hrest
  exact ⟨t, u, ht, hu, hafter⟩

theorem runs_inv (I : List α → σ → Prop) (hinit : I [] s)
    (hstep : ∀ as a t t', runs step s as = some t → I as t → step t a = some t' →
      I (as ++ [a]) t') {schedule : List α} (hrun : runs step s schedule = some s') :
    I schedule s' := by
  induction schedule using List.reverseRecOn generalizing s' with
  | nil =>
      cases hrun
      exact hinit
  | append_singleton as a ih =>
      obtain ⟨t, has, ha⟩ := runs_snoc.mp hrun
      exact hstep as a t s' has (ih has) ha

theorem runs_inv_state (I : σ → Prop) (hinit : I s)
    (hstep : ∀ a t t', I t → step t a = some t' → I t') {schedule : List α}
    (hrun : runs step s schedule = some s') : I s' :=
  runs_inv (fun _ => I) hinit (fun _ a t t' _ => hstep a t t') hrun

/-- Every action of the schedule is taken in a state that suits it. -/
def EachStep (step : σ → α → Option σ) (P : σ → α → Prop) (s : σ) (schedule : List α) : Prop :=
  ∀ before a t, before ++ [a] <+: schedule → runs step s before = some t → P t a

section EachStep

variable {P : σ → α → Prop}

theorem eachStep_nil : EachStep step P s [] := by
  intro before a t hbegins
  simp at hbegins

theorem eachStep_cons {a : α} {as : List α} :
    EachStep step P s (a :: as) ↔ P s a ∧ ∀ t ∈ step s a, EachStep step P t as := by
  constructor
  · intro h
    refine ⟨h [] a s (by simp) rfl, fun t ht before b u hbegins hruns => ?_⟩
    apply h (a :: before) b u (by simpa using hbegins)
    rw [runs_cons, Option.mem_def.mp ht]
    exact hruns
  · rintro ⟨ha, h⟩ before b u hbegins hruns
    cases before with
    | nil =>
        obtain ⟨rfl, -⟩ := List.cons_prefix_cons.mp hbegins
        cases hruns
        exact ha
    | cons b' before =>
        obtain ⟨rfl, hrest⟩ := List.cons_prefix_cons.mp hbegins
        obtain ⟨t, ht, hu⟩ := Option.bind_eq_some_iff.mp (runs_cons _ _ ▸ hruns)
        exact h t ht before b u hrest hu

theorem EachStep.of_prefix {as bs : List α} (h : EachStep step P s bs) (hbegins : as <+: bs) :
    EachStep step P s as :=
  fun before a t hbefore => h before a t (hbefore.trans hbegins)

theorem eachStep_snoc {as : List α} {a : α} (h : EachStep step P s as)
    (ha : ∀ t, runs step s as = some t → P t a) : EachStep step P s (as ++ [a]) := by
  intro before b t hbegins hruns
  rcases List.prefix_concat_iff.mp hbegins with heq | hbegins
  · obtain ⟨rfl, rfl⟩ := List.append_inj' heq rfl |>.imp id List.singleton_inj.mp
    exact ha t hruns
  · exact h before b t hbegins hruns

theorem EachStep.and {Q : σ → α → Prop} {as : List α} (h : EachStep step P s as)
    (h' : EachStep step Q s as) : EachStep step (fun t a => P t a ∧ Q t a) s as :=
  fun before a t hbegins hruns => ⟨h before a t hbegins hruns, h' before a t hbegins hruns⟩

instance [∀ t b, Decidable (P t b)] : (s : σ) → (as : List α) → Decidable (EachStep step P s as)
  | _, [] => .isTrue eachStep_nil
  | _, _ :: as =>
      have : ∀ t, Decidable (EachStep step P t as) := fun t => instDecidableEachStep t as
      decidable_of_iff _ eachStep_cons.symm

end EachStep

theorem runs_inv_of_each {P : σ → α → Prop} (I : σ → Prop) (hinit : I s)
    (hstep : ∀ a t t', I t → P t a → step t a = some t' → I t') {schedule : List α}
    (hrun : runs step s schedule = some s') (heach : EachStep step P s schedule) : I s' := by
  refine runs_inv (fun schedule s' => EachStep step P s schedule → I s')
    (fun _ => hinit) ?_ hrun heach
  intro as a t t' hruns ih ha heach
  have hbefore : EachStep step P s as := fun before b u hbegins =>
    heach before b u (hbegins.trans (List.prefix_append _ _))
  exact hstep a t t' (ih hbefore) (heach as a t (List.prefix_refl _) hruns) ha

theorem EachStep.of_inv {P Q : σ → α → Prop} (I : σ → Prop) (hinit : I s)
    (hstep : ∀ a t t', I t → P t a → step t a = some t' → I t')
    (h : ∀ t a, I t → P t a → Q t a) {schedule : List α} (heach : EachStep step P s schedule) :
    EachStep step Q s schedule := by
  intro before a t hbegins hruns
  have hbefore : before <+: schedule := (List.prefix_append before [a]).trans hbegins
  have hinv : I t := runs_inv_of_each I hinit hstep hruns (heach.of_prefix hbefore)
  exact h t a hinv (heach before a t hbegins hruns)

theorem eachStep_iff_of_kept {P Q : σ → α → Prop} {as : List α} (I : σ → Prop) (hinit : I s)
    (hstep : ∀ a t t', I t → P t a → step t a = some t' → I t')
    (h : ∀ t a, I t → (P t a ↔ Q t a)) : EachStep step P s as ↔ EachStep step Q s as := by
  constructor
  · intro heach
    exact heach.of_inv I hinit hstep fun t a hinv => (h t a hinv).mp
  · intro heach
    have hkeeps : ∀ a t t', I t → Q t a → step t a = some t' → I t' :=
      fun a t t' hinv hq => hstep a t t' hinv ((h t a hinv).mpr hq)
    exact heach.of_inv I hinit hkeeps fun t a hinv => (h t a hinv).mpr

theorem eachStep_iff_of_inv {P Q : σ → α → Prop} {as : List α} (I : σ → Prop) (hinit : I s)
    (hstep : ∀ a t t', I t → step t a = some t' → I t') (h : ∀ t a, I t → (P t a ↔ Q t a)) :
    EachStep step P s as ↔ EachStep step Q s as :=
  eachStep_iff_of_kept I hinit (fun a t t' hinv _ => hstep a t t' hinv) h

end Runs

end ExplorerKV.Foundation

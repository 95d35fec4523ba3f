import ExplorerKV.Foundation.Exec

/-!
# Runs that obey a protocol

A protocol has states `π`; `allowed p x` says that event `x` may happen in
state `p`, and `next p x` is the state after it.  `Along allowed next p xs`
holds when every event of `xs` is allowed in the state its predecessors lead
to.  A program that handles one event at a time keeps an invariant tied to the
protocol state along every such run.
-/

namespace ExplorerKV.Foundation

variable {π ρ α ε σ κ δ ν : Type}

def Along (allowed : π → α → Prop) (next : π → α → π) : π → List α → Prop
  | _, [] => True
  | p, x :: xs => allowed p x ∧ Along allowed next (next p x) xs

section Along

variable {allowed allowed' : π → α → Prop} {next : π → α → π}

instance [∀ p x, Decidable (allowed p x)] (p : π) (xs : List α) :
    Decidable (Along allowed next p xs) := by
  induction xs generalizing p with
  | nil => exact isTrue trivial
  | cons x xs ih => exact inferInstanceAs (Decidable (_ ∧ _))

@[simp] theorem along_nil (p : π) : Along allowed next p [] := trivial

@[simp] theorem along_cons (p : π) (x : α) (xs : List α) :
    Along allowed next p (x :: xs) ↔
      allowed p x ∧ Along allowed next (next p x) xs := Iff.rfl

theorem along_append (p : π) (xs ys : List α) :
    Along allowed next p (xs ++ ys) ↔
      Along allowed next p xs ∧ Along allowed next (xs.foldl next p) ys := by
  induction xs generalizing p with
  | nil => simp
  | cons x xs ih => simp [ih, and_assoc]

theorem Along.mono {p : π} {xs : List α} (h : Along allowed next p xs)
    (himp : ∀ p x, allowed p x → allowed' p x) : Along allowed' next p xs := by
  induction xs generalizing p with
  | nil => trivial
  | cons x xs ih => exact ⟨himp p x h.1, ih h.2⟩

theorem foldl_take_succ {p : π} {xs : List α} {n : Nat} {x : α} (hx : xs[n]? = some x) :
    (xs.take (n + 1)).foldl next p = next ((xs.take n).foldl next p) x := by
  rw [List.take_add_one, hx, Option.toList_some, List.foldl_append]
  rfl

theorem Along.allowed_at {p : π} {xs : List α} (h : Along allowed next p xs) {n : Nat} {x : α}
    (hx : xs[n]? = some x) : allowed ((xs.take n).foldl next p) x := by
  induction n generalizing p xs with
  | zero =>
      cases xs with
      | nil => cases hx
      | cons y ys =>
          obtain rfl := Option.some.inj hx
          exact h.1
  | succ n ih =>
      cases xs with
      | nil => cases hx
      | cons y ys => exact ih h.2 hx

theorem Along.prod {allowed₂ : ρ → α → Prop} {next₂ : ρ → α → ρ} {p : π} {q : ρ}
    {xs : List α} (h : Along allowed next p xs) (h₂ : Along allowed₂ next₂ q xs) :
    Along (fun x a => allowed x.1 a ∧ allowed₂ x.2 a)
      (fun x a => (next x.1 a, next₂ x.2 a)) (p, q) xs := by
  induction xs generalizing p q with
  | nil => trivial
  | cons x xs ih => exact ⟨⟨h.1, h₂.1⟩, ih h.2 h₂.2⟩

theorem Along.and_mem {P : α → Prop} {p : π} {xs : List α}
    (h : Along allowed next p xs) (hP : ∀ x ∈ xs, P x) :
    Along (fun p x => allowed p x ∧ P x) next p xs := by
  induction xs generalizing p with
  | nil => trivial
  | cons x xs ih =>
      obtain ⟨hx, hxs⟩ := List.forall_mem_cons.mp hP
      exact ⟨⟨h.1, hx⟩, ih h.2 hxs⟩

theorem wp_forM_along {op : α → Exec ε σ PUnit} {E : ε → Prop}
    (Inv : π → σ → Prop)
    (hstep : ∀ p x s, allowed p x → Inv p s →
      wp (op x) (fun _ s' => Inv (next p x) s') E s)
    {p : π} {xs : List α} {s : σ}
    (hrun : Along allowed next p xs) (hinit : Inv p s) :
    wp (forM xs op) (fun _ s' => Inv (xs.foldl next p) s') E s := by
  induction xs generalizing p s with
  | nil => exact hinit
  | cons x xs ih =>
      rw [List.forM_cons]
      exact wp_seq (hstep p x s hrun.1 hinit) fun _ s' hI => ih hrun.2 hI

end Along

/-! ## What events put into a set and take out of it -/

/-- An event moves its key into a set, out of it, or not at all. -/
inductive Moves (key : κ) (before after : κ → Prop) : Int → Prop where
  | enter (hout : ¬before key) (h : ∀ k, after k ↔ k = key ∨ before k) :
      Moves key before after 1
  | leave (hin : before key) (h : ∀ k, after k ↔ k ≠ key ∧ before k) :
      Moves key before after (-1)
  | stay (h : ∀ k, after k ↔ before k) : Moves key before after 0

theorem Moves.sum [DecidableEq κ] {key : κ} {before after : κ → Prop} {sign : Int}
    (h : Moves key before after sign) {held : Finset κ} (hheld : ∀ k, k ∈ held ↔ before k)
    (f : κ → Int) :
    ∃ held' : Finset κ, (∀ k, k ∈ held' ↔ after k) ∧
      ∑ k ∈ held', f k = ∑ k ∈ held, f k + sign * f key := by
  cases h with
  | enter hout h =>
      refine ⟨insert key held, fun k => ?_, ?_⟩
      · rw [Finset.mem_insert, h, hheld]
      · rw [Finset.sum_insert fun hmem => hout ((hheld key).mp hmem)]
        omega
  | leave hin h =>
      refine ⟨held.erase key, fun k => ?_, ?_⟩
      · rw [Finset.mem_erase, h, hheld]
      · have hsum := Finset.add_sum_erase held f ((hheld key).mpr hin)
        omega
  | stay h => exact ⟨held, fun k => by rw [h, hheld], by omega⟩

theorem Along.net_sum [DecidableEq κ] {allowed : π → α → Prop} {next : π → α → π}
    {key : α → κ} {member : π → κ → Prop} {sign : α → Int}
    (hmoves : ∀ p x, allowed p x → Moves (key x) (member p) (member (next p x)) (sign x))
    (f : κ → Int) {p : π} {xs : List α} (hrun : Along allowed next p xs) {held : Finset κ}
    (hheld : ∀ k, k ∈ held ↔ member p k) :
    ∃ held' : Finset κ, (∀ k, k ∈ held' ↔ member (xs.foldl next p) k) ∧
      ∑ k ∈ held', f k = ∑ k ∈ held, f k + (xs.map fun x => sign x * f (key x)).sum := by
  induction xs generalizing p held with
  | nil => exact ⟨held, hheld, by simp⟩
  | cons x xs ih =>
      obtain ⟨mid, hmid, hsum⟩ := (hmoves p x hrun.1).sum hheld f
      obtain ⟨last, hlast, hsum'⟩ := ih hrun.2 hmid
      refine ⟨last, hlast, ?_⟩
      rw [hsum', hsum, List.map_cons, List.sum_cons, add_assoc]

section Slices

variable {E : ε → Prop}

/--
A loop over distinct keys in which every round works on the slice of the state
that belongs to its key: each slice sees exactly its own round, and the slices
of the other keys are left alone.  `F` is a frame condition on whole states.
-/
theorem wp_forM_slices {xs : List (κ × δ)} (hnodup : (xs.map Prod.fst).Nodup)
    (slice : σ → κ → ν) (Post : κ → δ → ν → ν → Prop)
    {f : κ × δ → Exec ε σ PUnit} {Pre : κ → δ → ν → Prop}
    {F : σ → σ → Prop} (hrefl : ∀ s, F s s)
    (htrans : ∀ s s' s'', F s s' → F s' s'' → F s s'')
    (hbody : ∀ k d s, (k, d) ∈ xs → Pre k d (slice s k) →
      wp (f (k, d)) (fun _ s' => Post k d (slice s k) (slice s' k) ∧
        (∀ k', k' ≠ k → slice s' k' = slice s k') ∧ F s s') E s)
    {s : σ} (hpre : ∀ k d, (k, d) ∈ xs → Pre k d (slice s k)) :
    wp (forM xs f) (fun _ s' =>
      (∀ k d, (k, d) ∈ xs → Post k d (slice s k) (slice s' k)) ∧
      (∀ k, k ∉ xs.map Prod.fst → slice s' k = slice s k) ∧ F s s') E s := by
  refine wp_forM (fun done s' =>
    (∀ k d, (k, d) ∈ done → Post k d (slice s k) (slice s' k)) ∧
    (∀ k, k ∉ done.map Prod.fst → slice s' k = slice s k) ∧ F s s')
    ⟨by simp, by simp, hrefl s⟩ ?_
  rintro done ⟨k, d⟩ rest s' hxs ⟨hdone, hrest, hF⟩
  rw [hxs, List.map_append, List.map_cons] at hnodup
  have hfresh : k ∉ done.map Prod.fst := fun hk =>
    (List.nodup_append.mp hnodup).2.2 k hk k (by simp) rfl
  have hmem : (k, d) ∈ xs := by simp [hxs]
  have hslice := hrest k hfresh
  refine wp_mono (hbody k d s' hmem (by rw [hslice]; exact hpre k d hmem))
    ?_ fun _ he => he
  rintro _ s'' ⟨hpost, hother, hF'⟩
  refine ⟨?_, ?_, htrans _ _ _ hF hF'⟩
  · intro k' d' hk'
    rcases List.mem_append.mp hk' with hold | hnew
    · have hne : k' ≠ k := fun heq =>
        hfresh (heq ▸ List.mem_map_of_mem hold)
      rw [hother k' hne]
      exact hdone k' d' hold
    · obtain ⟨rfl, rfl⟩ : k' = k ∧ d' = d := by simpa using hnew
      rwa [← hslice]
  · intro k' hk'
    simp only [List.map_append, List.map_cons, List.map_nil, List.mem_append,
      List.mem_singleton, not_or] at hk'
    rw [hother k' hk'.2, hrest k' hk'.1]

end Slices

end ExplorerKV.Foundation

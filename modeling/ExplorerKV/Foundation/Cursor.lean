import Mathlib

/-!
# Cursors over sorted entries

An iterator over a map whose entries are kept in the order of their keys.  A seek
puts it on the first entry that is not below a target, and it then moves one
entry at a time, either way.  An iterator that has left the entries is invalid:
it has no entry, and it must not be moved.
-/

namespace ExplorerKV.Foundation

variable {κ υ : Type}

structure SortedEntries (κ υ : Type) [LT κ] where
  entries : List (κ × υ)
  sorted : entries.Pairwise fun e f => e.1 < f.1

inductive Direction where
  | forward
  | backward
  deriving DecidableEq, Repr

/-- `before` holds the entries below the current one, the nearest first. -/
inductive Cursor (κ υ : Type) where
  | invalid
  | on (before : List (κ × υ)) (entry : κ × υ) (after : List (κ × υ))

namespace Cursor

def current? : Cursor κ υ → Option (κ × υ)
  | .invalid => none
  | .on _ entry _ => some entry

def advance : Direction → Cursor κ υ → Cursor κ υ
  | .forward, .on before entry (next :: after) => .on (entry :: before) next after
  | .backward, .on (prev :: before) entry after => .on before prev (entry :: after)
  | _, _ => .invalid

def ahead : Direction → Cursor κ υ → List (κ × υ)
  | _, .invalid => []
  | .forward, .on _ entry after => entry :: after
  | .backward, .on before entry _ => entry :: before

theorem ahead_of_current (d : Direction) {it : Cursor κ υ} {entry : κ × υ}
    (h : it.current? = some entry) : it.ahead d = entry :: (it.advance d).ahead d := by
  cases it with
  | invalid => cases h
  | on before e after =>
      obtain rfl : e = entry := by simpa [current?] using h
      cases d with
      | forward => cases after <;> rfl
      | backward => cases before <;> rfl

theorem ahead_of_invalid (d : Direction) {it : Cursor κ υ} (h : it.current? = none) :
    it.ahead d = [] := by
  cases it with
  | invalid => cases d <;> rfl
  | on before e after => cases h

end Cursor

/-! ## A test that fails from some entry on -/

section Tests

variable {α : Type} {R : α → α → Prop} {p : α → Bool} {l : List α}

theorem takeWhile_eq_filter (hsorted : l.Pairwise R)
    (hanti : ∀ a ∈ l, ∀ b ∈ l, R a b → p b → p a) : l.takeWhile p = l.filter p := by
  induction l with
  | nil => rfl
  | cons a l ih =>
      have hrest := ih hsorted.of_cons fun b hb c hc => hanti b (.tail _ hb) c (.tail _ hc)
      cases ha : p a with
      | true => simp [ha, hrest]
      | false =>
          have hnone : ∀ b ∈ l, ¬p b = true := fun b hb hpb => by
            have hpa := hanti a (.head _) b (.tail _ hb) (List.rel_of_pairwise_cons hsorted hb) hpb
            simp [ha] at hpa
          simp [ha, List.filter_eq_nil_iff.mpr hnone]

theorem dropWhile_eq_filter (hsorted : l.Pairwise R)
    (hanti : ∀ a ∈ l, ∀ b ∈ l, R a b → p b → p a) :
    l.dropWhile p = l.filter fun a => !p a := by
  induction l with
  | nil => rfl
  | cons a l ih =>
      have hrest := ih hsorted.of_cons fun b hb c hc => hanti b (.tail _ hb) c (.tail _ hc)
      cases ha : p a with
      | true => simp [ha, hrest]
      | false =>
          have hall : ∀ b ∈ l, (!p b) = true := fun b hb => by
            cases hpb : p b with
            | false => rfl
            | true =>
                have hpa := hanti a (.head _) b (.tail _ hb)
                  (List.rel_of_pairwise_cons hsorted hb) hpb
                simp [ha] at hpa
          simp [ha, List.filter_eq_self.mpr hall]

end Tests

namespace SortedEntries

variable [LinearOrder κ]

def seek (m : SortedEntries κ υ) (target : κ) : Cursor κ υ :=
  match m.entries.dropWhile (fun e => e.1 < target) with
  | [] => .invalid
  | entry :: after => .on (m.entries.takeWhile fun e => e.1 < target).reverse entry after

variable (m : SortedEntries κ υ) (target : κ)

theorem takeWhile_below :
    (m.entries.takeWhile fun e => e.1 < target) = m.entries.filter fun e => e.1 < target :=
  takeWhile_eq_filter m.sorted fun e _ f _ hlt hf => by
    simp only [decide_eq_true_eq] at hf ⊢
    exact hlt.trans hf

theorem dropWhile_below :
    (m.entries.dropWhile fun e => e.1 < target) = m.entries.filter fun e => target ≤ e.1 := by
  rw [dropWhile_eq_filter m.sorted fun e _ f _ hlt hf => by
    simp only [decide_eq_true_eq] at hf ⊢
    exact hlt.trans hf]
  exact List.filter_congr fun e _ => by simp [← not_lt]

theorem ahead_forward_seek :
    (m.seek target).ahead .forward = m.entries.filter fun e => target ≤ e.1 := by
  rw [← dropWhile_below, seek]
  cases m.entries.dropWhile (fun e => e.1 < target) <;> rfl

theorem seek_eq_invalid :
    (m.seek target).current? = none ↔ ∀ e ∈ m.entries, e.1 < target := by
  rw [seek, dropWhile_below]
  cases h : m.entries.filter (fun e => target ≤ e.1) with
  | nil => simpa [Cursor.current?] using h
  | cons entry after =>
      have hmem : entry ∈ m.entries ∧ target ≤ entry.1 := by
        simpa using (h ▸ List.mem_cons_self : entry ∈ m.entries.filter fun e => target ≤ e.1)
      simpa [Cursor.current?] using ⟨entry.1, ⟨entry.2, hmem.1⟩, hmem.2⟩

theorem ahead_backward_seek {entry : κ × υ} [Decidable (entry.1 ≠ target)]
    (h : (m.seek target).current? = some entry) :
    (if entry.1 ≠ target then (m.seek target).advance .backward
      else m.seek target).ahead .backward =
        (m.entries.filter fun e => e.1 ≤ target).reverse := by
  cases hdrop : m.entries.dropWhile (fun e => e.1 < target) with
  | nil => simp [seek, hdrop, Cursor.current?] at h
  | cons next after =>
      have hseek : m.seek target =
          .on (m.entries.filter fun e => e.1 < target).reverse next after := by
        rw [seek, hdrop, takeWhile_below]
      obtain rfl : next = entry := by simpa [hseek, Cursor.current?] using h
      have hfrom : target ≤ next.1 ∧ ∀ e ∈ after, next.1 < e.1 := by
        have hmem : next ∈ m.entries.filter fun e => target ≤ e.1 := by
          rw [← dropWhile_below, hdrop]
          exact List.mem_cons_self
        have hsub : (next :: after).Pairwise fun e f => e.1 < f.1 :=
          hdrop ▸ m.sorted.sublist (List.dropWhile_sublist _)
        exact ⟨by simpa using (List.mem_filter.mp hmem).2, (List.pairwise_cons.mp hsub).1⟩
      have hupto : (m.entries.filter fun e => e.1 ≤ target) =
          (m.entries.filter fun e => e.1 < target) ++ if next.1 = target then [next] else [] := by
        have hentries : m.entries =
            (m.entries.filter fun e => e.1 < target) ++ next :: after := by
          rw [← takeWhile_below, ← hdrop, List.takeWhile_append_dropWhile]
        have hbelow : ((m.entries.filter fun e => e.1 < target).filter fun e => e.1 ≤ target) =
            m.entries.filter fun e => e.1 < target :=
          List.filter_eq_self.mpr fun e he => by
            simpa using (show e.1 < target by simpa using (List.mem_filter.mp he).2).le
        have habove : (after.filter fun e => e.1 ≤ target) = [] :=
          List.filter_eq_nil_iff.mpr fun e he => by
            simpa using hfrom.1.trans_lt (hfrom.2 e he)
        conv_lhs => rw [hentries]
        rw [List.filter_append, hbelow, List.filter_cons, habove]
        have hon : next.1 ≤ target ↔ next.1 = target :=
          ⟨fun hle => le_antisymm hle hfrom.1, fun heq => heq.le⟩
        simp [hon]
      rw [hupto, hseek]
      by_cases heq : next.1 = target
      · simp [heq, Cursor.ahead]
      · cases hbefore : (m.entries.filter fun e => e.1 < target).reverse <;>
          simp [heq, hbefore, Cursor.advance, Cursor.ahead]

theorem filter_eq_of_mem {p : κ × υ → Bool} {rows : List (κ × υ)}
    (hsorted : rows.Pairwise fun e f => e.1 < f.1)
    (hmem : ∀ e, e ∈ rows ↔ e ∈ m.entries ∧ p e) : m.entries.filter p = rows := by
  have hnodup : ∀ {l : List (κ × υ)}, (l.Pairwise fun e f => e.1 < f.1) → l.Nodup :=
    fun hl => hl.imp fun hlt heq => (heq ▸ hlt).false
  have hfilter : (m.entries.filter p).Pairwise fun e f => e.1 < f.1 := m.sorted.filter p
  have hperm : (m.entries.filter p).Perm rows := by
    rw [List.perm_ext_iff_of_nodup (hnodup hfilter) (hnodup hsorted)]
    intro e
    rw [hmem, List.mem_filter]
  exact hperm.eq_of_pairwise (fun _ _ _ _ hlt hgt => absurd hgt hlt.not_gt) hfilter hsorted

end SortedEntries

end ExplorerKV.Foundation

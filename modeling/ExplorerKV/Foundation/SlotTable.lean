import Mathlib

/-!
# Slot tables

Values kept in numbered slots, with an index from the key of a value to its
slot.  A value always goes into the slot behind the highest one used so far, so
no slot is used twice.  `Exact key t S` says that the table holds exactly the
values in `S`, each once.  The table also carries a counter of its own, which
the code updates separately; `drift` measures how far it is from the truth.
-/

namespace ExplorerKV.Foundation

structure SlotTable (κ β : Type) where
  slot : Int → Option β
  index : κ → Option Int
  top : Int
  count : Int

namespace SlotTable

variable {κ β : Type}

def used (t : SlotTable κ β) : Set Int := {i | (t.slot i).isSome}

structure Exact (key : β → κ) (t : SlotTable κ β) (S : β → Prop) (drift : Int) :
    Prop where
  index_iff : ∀ k i, t.index k = some i ↔ ∃ b, t.slot i = some b ∧ key b = k
  slot_iff : ∀ b, (∃ i, t.slot i = some b) ↔ S b
  bound : ∀ i b, t.slot i = some b → 0 ≤ i ∧ i ≤ t.top
  top_ge : -1 ≤ t.top
  count_eq : t.count = t.used.ncard + drift

/-- Later tables: the top never falls, and an old slot keeps its value or loses it. -/
structure Grows (t t' : SlotTable κ β) : Prop where
  top_le : t.top ≤ t'.top
  slot_eq : ∀ i, i ≤ t.top → t'.slot i = t.slot i ∨ t'.slot i = none

namespace Grows

theorem refl (t : SlotTable κ β) : Grows t t := ⟨le_rfl, fun _ _ => .inl rfl⟩

theorem trans {t t' t'' : SlotTable κ β} (h : Grows t t') (h' : Grows t' t'') :
    Grows t t'' where
  top_le := h.top_le.trans h'.top_le
  slot_eq i hi := by
    rcases h'.slot_eq i (hi.trans h.top_le) with heq | hnone
    · rw [heq]
      exact h.slot_eq i hi
    · exact .inr hnone

end Grows

namespace Exact

variable {key : β → κ} {t t' : SlotTable κ β} {S S' : β → Prop} {drift : Int} {b : β}

theorem congr (h : Exact key t S drift) (hS : ∀ b, S b ↔ S' b) :
    Exact key t S' drift :=
  { h with slot_iff := fun b => (h.slot_iff b).trans (hS b) }

theorem of_drift {drift' : Int} (h : Exact key t S drift) (hdrift : drift = drift') :
    Exact key t S drift' := hdrift ▸ h

theorem used_finite (h : Exact key t S drift) : t.used.Finite :=
  (Set.finite_Icc 0 t.top).subset fun i hi => by
    obtain ⟨b, hb⟩ := Option.isSome_iff_exists.mp hi
    exact h.bound i b hb

theorem index_of_mem (h : Exact key t S drift) (hb : S b) :
    ∃ i, t.index (key b) = some i ∧ t.slot i = some b := by
  obtain ⟨i, hi⟩ := (h.slot_iff b).mpr hb
  exact ⟨i, (h.index_iff _ i).mpr ⟨b, hi, rfl⟩, hi⟩

theorem slot_injective (h : Exact key t S drift) {i j : Int}
    (hi : t.slot i = some b) (hj : t.slot j = some b) : i = j := by
  have hindex := (h.index_iff (key b) i).mpr ⟨b, hi, rfl⟩
  rw [(h.index_iff (key b) j).mpr ⟨b, hj, rfl⟩] at hindex
  exact (Option.some.inj hindex).symm

theorem empty (key : β → κ) : Exact key ⟨fun _ => none, fun _ => none, -1, 0⟩
    (fun _ => False) 0 where
  index_iff := by simp
  slot_iff := by simp
  bound := by simp
  top_ge := le_rfl
  count_eq := by simp [used]

variable [DecidableEq κ]

theorem insert (h : Exact key t S drift) (hfresh : ∀ c, S c → key c ≠ key b)
    (hslot : ∀ i, t'.slot i = if i = t.top + 1 then some b else t.slot i)
    (hindex : ∀ k, t'.index k = if k = key b then some (t.top + 1) else t.index k)
    (htop : t'.top = t.top + 1) (hcount : t'.count = t.count + 1) :
    Exact key t' (fun c => S c ∨ c = b) drift ∧ Grows t t' := by
  have htop_ge := h.top_ge
  have hunused : t.slot (t.top + 1) = none := by
    cases hb : t.slot (t.top + 1) with
    | none => rfl
    | some c => exact absurd (h.bound _ c hb).2 (by omega)
  refine ⟨⟨fun k i => ?_, fun c => ?_, fun i c hi => ?_, by omega, ?_⟩, ⟨by omega, ?_⟩⟩
  · rw [hindex, hslot]
    by_cases hi : i = t.top + 1
    · subst hi
      by_cases hk : k = key b
      · simp [hk]
      · rw [if_neg hk, if_pos rfl, h.index_iff, hunused]
        simpa using fun heq : key b = k => hk heq.symm
    · by_cases hk : k = key b
      · rw [if_pos hk, if_neg hi]
        constructor
        · intro heq
          exact absurd (Option.some.inj heq).symm hi
        · rintro ⟨c, hc, hkey⟩
          exact absurd (hkey.trans hk) (hfresh c ((h.slot_iff c).mp ⟨i, hc⟩))
      · rw [if_neg hk, if_neg hi, h.index_iff]
  · constructor
    · rintro ⟨i, hi⟩
      rw [hslot] at hi
      split at hi
      · exact .inr (Option.some.inj hi).symm
      · exact .inl ((h.slot_iff c).mp ⟨i, hi⟩)
    · rintro (hc | rfl)
      · obtain ⟨i, hi⟩ := (h.slot_iff c).mpr hc
        refine ⟨i, ?_⟩
        rw [hslot, if_neg, hi]
        rintro rfl
        rw [hunused] at hi
        cases hi
      · exact ⟨t.top + 1, by simp [hslot]⟩
  · rw [hslot] at hi
    split at hi
    · omega
    · have := h.bound i c hi
      omega
  · have hused : t'.used = Insert.insert (t.top + 1) t.used := by
      ext i
      simp only [used, Set.mem_ofPred_eq, hslot, Set.mem_insert_iff]
      split <;> simp_all
    have hnotin : t.top + 1 ∉ t.used := by simp [used, hunused]
    rw [hused, Set.ncard_insert_of_notMem hnotin h.used_finite, hcount, h.count_eq]
    push_cast
    ring
  · intro i hi
    rw [hslot, if_neg (by omega)]
    exact .inl rfl

/-- Take a value out of its slot; the counter goes down by `1 - miss`. -/
theorem remove (h : Exact key t S drift) (hb : S b) {j : Int}
    (hj : t.index (key b) = some j) {miss : Int}
    (hslot : ∀ i, t'.slot i = if i = j then none else t.slot i)
    (hindex : ∀ k, t'.index k = if k = key b then none else t.index k)
    (htop : t'.top = t.top) (hcount : t'.count = t.count - (1 - miss)) :
    Exact key t' (fun c => S c ∧ key c ≠ key b) (drift + miss) ∧ Grows t t' := by
  obtain ⟨i, hi, hbslot⟩ := h.index_of_mem hb
  obtain rfl : i = j := Option.some.inj (hi.symm.trans hj)
  have hother : ∀ k c, t.slot k = some c → k ≠ i → key c ≠ key b := by
    intro k c hc hne hkey
    have hk := (h.index_iff (key b) k).mpr ⟨c, hc, hkey⟩
    rw [hi] at hk
    exact hne (Option.some.inj hk).symm
  refine ⟨⟨fun k l => ?_, fun c => ?_, fun l c hl => ?_, by rw [htop]; exact h.top_ge,
    ?_⟩, ⟨htop.ge, ?_⟩⟩
  · rw [hindex, hslot]
    by_cases hk : k = key b
    · rw [if_pos hk, hk]
      by_cases hl : l = i
      · simp [hl]
      · rw [if_neg hl]
        simpa using fun c hc => hother l c hc hl
    · rw [if_neg hk, h.index_iff]
      by_cases hl : l = i
      · rw [if_pos hl, hl, hbslot]
        simpa using fun heq : key b = k => hk heq.symm
      · rw [if_neg hl]
  · constructor
    · rintro ⟨l, hl⟩
      rw [hslot] at hl
      split at hl
      · cases hl
      · rename_i hne
        exact ⟨(h.slot_iff c).mp ⟨l, hl⟩, hother l c hl hne⟩
    · rintro ⟨hc, hkey⟩
      obtain ⟨l, hl⟩ := (h.slot_iff c).mpr hc
      refine ⟨l, ?_⟩
      rw [hslot, if_neg, hl]
      rintro rfl
      rw [hbslot] at hl
      exact hkey (congrArg key (Option.some.inj hl).symm)
  · rw [hslot] at hl
    split at hl
    · cases hl
    · rw [htop]
      exact h.bound l c hl
  · have hmem : i ∈ t.used := by simp [used, hbslot]
    have hused : t'.used = t.used \ {i} := by
      ext l
      simp only [used, Set.mem_ofPred_eq, hslot, Set.mem_sdiff, Set.mem_singleton_iff]
      split <;> simp_all
    have hncard := Set.ncard_sdiff_singleton_add_one hmem h.used_finite
    rw [hused, hcount, h.count_eq]
    omega
  · intro l _
    rw [hslot]
    split
    · exact .inr rfl
    · exact .inl rfl

end Exact

end SlotTable

end ExplorerKV.Foundation

import ExplorerKV.Logs.NotifyText

/-!
# The conversions of the event trimming

After the row of a block event `handleBlockEvent` asks for the smallest and the
largest id of the table, gets them as text, and deletes the oldest rows once
there are too many.  The ids are 64 bits wide, but are read with `atoi`.
-/

namespace ExplorerKV.Logs.EventTrim

open Foundation

/-- `IFNULL(MIN(id), 0)` -/
def minId (ids : Finset Int) : Int := if h : ids.Nonempty then ids.min' h else 0

/-- `IFNULL(MAX(id), 0)` -/
def maxId (ids : Finset Int) : Int := if h : ids.Nonempty then ids.max' h else 0

def kMaxCount : Int := 3000000

inductive TrimFault where
  /-- `max_id >= min_id` -/
  | assertion
  deriving DecidableEq, Repr

/-- The part of `handleBlockEvent` after the insertion, on the ids of one table. -/
def trim (ids : Finset Int) : Except TrimFault (Finset Int) :=
  let min_id := (atoi (intText (minId ids))).toInt
  let max_id := (atoi (intText (maxId ids))).toInt
  if max_id < min_id then throw .assertion
  else if max_id > min_id + kMaxCount + 500000 then
    pure (ids.filter fun id => ¬id < max_id - kMaxCount)
  else pure ids

def TrimExact (lo hi : Int) : Prop :=
  ∃ ids, trim (Finset.Icc lo hi) = .ok ids ∧
    (∀ id ∈ Finset.Icc lo hi, hi - 3000000 < id → id ∈ ids) ∧ ids.card ≤ 3500001

section Trim

variable {lo hi : Int}

theorem minId_Icc (hle : lo ≤ hi) : minId (Finset.Icc lo hi) = lo := by
  have hne : (Finset.Icc lo hi).Nonempty := Finset.nonempty_Icc.mpr hle
  rw [minId, dif_pos hne]
  apply le_antisymm
  · exact Finset.min'_le _ _ (Finset.left_mem_Icc.mpr hle)
  · exact Finset.le_min' _ _ _ fun id hid => (Finset.mem_Icc.mp hid).1

theorem maxId_Icc (hle : lo ≤ hi) : maxId (Finset.Icc lo hi) = hi := by
  have hne : (Finset.Icc lo hi).Nonempty := Finset.nonempty_Icc.mpr hle
  rw [maxId, dif_pos hne]
  apply le_antisymm
  · exact Finset.max'_le _ _ _ fun id hid => (Finset.mem_Icc.mp hid).2
  · exact Finset.le_max' _ _ (Finset.right_mem_Icc.mpr hle)

theorem trim_Icc (hlo : 1 ≤ lo) (hle : lo ≤ hi) (hhi : hi < 2 ^ 63) :
    trim (Finset.Icc lo hi) =
      if (Int32.ofInt hi).toInt < (Int32.ofInt lo).toInt then .error .assertion
      else if (Int32.ofInt hi).toInt > (Int32.ofInt lo).toInt + 3500000 then
        .ok (Finset.Icc (max lo ((Int32.ofInt hi).toInt - 3000000)) hi)
      else .ok (Finset.Icc lo hi) := by
  have hkept : ∀ bound : Int, ((Finset.Icc lo hi).filter fun id => ¬id < bound) =
      Finset.Icc (max lo bound) hi := by
    intro bound
    ext id
    simp only [Finset.mem_filter, Finset.mem_Icc]
    omega
  have hlimit : ∀ id : Int, id + kMaxCount + 500000 = id + 3500000 := fun id => by
    simp only [kMaxCount]
    omega
  simp only [trim, minId_Icc hle, maxId_Icc hle,
    atoi_intText_of_lt (by omega : -2 ^ 63 ≤ lo) (by omega),
    atoi_intText_of_lt (by omega : -2 ^ 63 ≤ hi) (by omega), hkept, hlimit]
  rfl

/-- Reading an id with `atoi` loses a multiple of `2 ^ 32`. -/
theorem toInt_ofInt_mod (id : Int) : (Int32.ofInt id).toInt % 2 ^ 32 = id % 2 ^ 32 := by
  rw [Int32.toInt_ofInt]
  exact Int.bmod_emod

/--
The step is right for every table whose ids fit into 31 bits.  Beyond, it must
have nothing to delete, and the bits that are left must not change the order.
-/
theorem trim_exact_iff (hlo : 1 ≤ lo) (hle : lo ≤ hi) (hhi : hi < 2 ^ 63) :
    TrimExact lo hi ↔ hi < 2 ^ 31 ∨
      hi - lo ≤ 3500000 ∧ (Int32.ofInt lo).toInt ≤ (Int32.ofInt hi).toInt := by
  have hmodlo := toInt_ofInt_mod lo
  have hmodhi := toInt_ofInt_mod hi
  have hlow := (Int32.ofInt lo).le_toInt
  have hlow' := (Int32.ofInt lo).toInt_lt
  have hhigh := (Int32.ofInt hi).le_toInt
  have hhigh' := (Int32.ofInt hi).toInt_lt
  rw [TrimExact, trim_Icc hlo hle hhi]
  generalize (Int32.ofInt lo).toInt = min_id at *
  generalize (Int32.ofInt hi).toInt = max_id at *
  have hcard : ∀ first : Int, (Finset.Icc first hi).card = (hi + 1 - first).toNat :=
    fun first => Int.card_Icc first hi
  split_ifs with hassert hmany
  · apply iff_of_false
    · rintro ⟨ids, h, -⟩
      cases h
    · omega
  · constructor
    · rintro ⟨ids, heq, -, hcount⟩
      rw [← Except.ok.inj heq, hcard] at hcount
      omega
    · intro h
      refine ⟨_, rfl, fun id hid hnew => ?_, ?_⟩
      · rw [Finset.mem_Icc] at hid ⊢
        omega
      · rw [hcard]
        omega
  · constructor
    · rintro ⟨ids, heq, -, hcount⟩
      rw [← Except.ok.inj heq, hcard] at hcount
      omega
    · intro h
      refine ⟨_, rfl, fun id hid _ => hid, ?_⟩
      rw [hcard]
      omega

end Trim

/-- Four million rows, of which the oldest are deleted. -/
theorem trim_exact_iff_example : TrimExact 1 4000000 :=
  (trim_exact_iff (by decide) (by decide) (by decide)).mpr (.inl (by decide))

/-- The last id that is read as it is, and the first that is not. -/
theorem trim_aborts : ¬∀ lo hi : Int, 1 ≤ lo → lo ≤ hi → hi < 2 ^ 63 → TrimExact lo hi := by
  intro h
  obtain ⟨ids, htrim, -⟩ := h (2 ^ 31 - 1) (2 ^ 31) (by decide) (by decide) (by decide)
  rw [trim_Icc (by decide) (by decide) (by decide), if_pos (by decide)] at htrim
  cases htrim

end ExplorerKV.Logs.EventTrim

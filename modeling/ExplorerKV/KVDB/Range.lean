import ExplorerKV.Foundation.Cursor
import ExplorerKV.Foundation.LineLog

/-!
# Scanning a range of keys

`KVDB::range` walks an iterator of RocksDB from `start` to `end`, upwards or
downwards.  Keys are compared with `strcmp`; RocksDB orders them bytewise.
-/

namespace ExplorerKV.KVDB

open Foundation

/-! ## The order of keys -/

scoped instance linearOrderUInt8 : LinearOrder UInt8 where
  le_refl := UInt8.le_refl
  le_trans _ _ _ := UInt8.le_trans
  le_antisymm _ _ := UInt8.le_antisymm
  le_total := UInt8.le_total
  lt_iff_le_not_ge _ _ := by rw [UInt8.not_le]; exact ⟨fun h => ⟨UInt8.le_of_lt h, h⟩, And.right⟩
  toDecidableLE := inferInstance

abbrev Db := SortedEntries Bytes Bytes

def strcmp : Bytes → Bytes → Int
  | [], [] => 0
  | [], b :: _ => 0 - b.toNat
  | a :: _, [] => a.toNat
  | a :: as, b :: bs =>
      if a = b then if a = 0 then 0 else strcmp as bs else (a.toNat : Int) - b.toNat

def NulFree (s : Bytes) : Prop := 0 ∉ s

theorem strcmp_swap (s t : Bytes) : strcmp t s = -strcmp s t := by
  induction s generalizing t with
  | nil => cases t <;> simp [strcmp]
  | cons a s ih =>
      cases t with
      | nil => simp [strcmp]
      | cons b t =>
          by_cases hab : a = b
          · by_cases hzero : b = 0 <;> simp [strcmp, hab, hzero, ih]
          · have hba : b ≠ a := fun h => hab h.symm
            simp [strcmp, hab, hba]

theorem strcmp_neg {s t : Bytes} (hs : NulFree s) (ht : NulFree t) : strcmp s t < 0 ↔ s < t := by
  induction s generalizing t with
  | nil =>
      cases t with
      | nil => simp [strcmp]
      | cons b t =>
          have hb : b ≠ 0 := fun h => ht (h ▸ List.mem_cons_self)
          have hpos : 0 < b.toNat := Nat.pos_of_ne_zero fun h => hb (UInt8.toNat_inj.mp h)
          simp only [strcmp, List.nil_lt_cons, iff_true]
          omega
  | cons a s ih =>
      cases t with
      | nil => simp [strcmp]
      | cons b t =>
          have ha : a ≠ 0 := fun h => hs (h ▸ List.mem_cons_self)
          have hrest := ih (fun h => hs (.tail _ h)) (fun h => ht (.tail _ h))
          rw [List.cons_lt_cons_iff, strcmp]
          by_cases hab : a = b
          · simp [hab, hab ▸ ha, hrest]
          · simp only [hab, if_false, false_and, or_false, UInt8.lt_iff_toNat_lt]
            omega

theorem strcmp_nonpos {s t : Bytes} (hs : NulFree s) (ht : NulFree t) :
    strcmp s t ≤ 0 ↔ s ≤ t := by
  rw [← not_lt, ← not_lt, ← strcmp_neg ht hs, strcmp_swap t s]
  omega

theorem strcmp_nonneg {s t : Bytes} (hs : NulFree s) (ht : NulFree t) :
    0 ≤ strcmp s t ↔ t ≤ s := by
  rw [← not_lt, ← not_lt, ← strcmp_neg hs ht]

/-! ## The scan -/

inductive RangeFault where
  | assertion
  /-- `key()` of an iterator that is not valid -/
  | invalidIterator
  /-- `cnt` leaves its `int32_t` -/
  | cntOverflow
  deriving DecidableEq, Repr

variable (d : Direction) (within : Bytes → Prop) [DecidablePred within] (limit offset : Int32)

/-- The loop of `rangeGT`, with `Next`, and of `rangeLT`, with `Prev`. -/
def scan (it : Cursor Bytes Bytes) (cnt : Nat) (found : List (Bytes × Bytes)) :
    Except RangeFault (List (Bytes × Bytes)) :=
  match h : it.current? with
  | none => .ok found
  | some entry =>
      if within entry.1 then
        if cnt + 1 = 2 ^ 31 then .error .cntOverflow
        else if offset ≠ 0 ∧ offset.toInt > ((cnt + 1 : Nat) : Int) - 1 then
          scan (it.advance d) (cnt + 1) found
        -- `keys.size() >= limit` compares as `size_t`
        else if ((found ++ [entry]).length : Int) ≥ limit.toInt % 2 ^ 64 then .ok (found ++ [entry])
        else scan (it.advance d) (cnt + 1) (found ++ [entry])
      else .ok found
termination_by (it.ahead d).length
decreasing_by all_goals simp [Cursor.ahead_of_current d h]

def rangeGT (db : Db) (start stop : Bytes) (limit offset : Int32) :
    Except RangeFault (List (Bytes × Bytes)) :=
  if strcmp start stop ≤ 0 then
    scan .forward (fun key => strcmp key stop ≤ 0) limit offset (db.seek start) 0 []
  else .error .assertion

def rangeLT (db : Db) (start stop : Bytes) (limit offset : Int32) :
    Except RangeFault (List (Bytes × Bytes)) :=
  if strcmp start stop ≥ 0 then
    let it := db.seek start
    match it.current? with
    -- `key()` is called without `Valid()`
    | none => .error .invalidIterator
    | some entry =>
        scan .backward (fun key => strcmp key stop ≥ 0) limit offset
          (if entry.1 ≠ start then it.advance .backward else it) 0 []
  else .error .assertion

def range (db : Db) (start stop : Bytes) (limit offset : Int32) :
    Except RangeFault (List (Bytes × Bytes)) :=
  let offset := if offset < 0 then 0 else offset
  if strcmp start stop ≤ 0 then rangeGT db start stop limit offset
  else rangeLT db start stop limit offset

/-! ## What a scan finds -/

theorem scan_invalid {it : Cursor Bytes Bytes} (h : it.current? = none) (cnt : Nat)
    (found : List (Bytes × Bytes)) : scan d within limit offset it cnt found = .ok found := by
  rw [scan]
  split
  · rfl
  · simp_all

theorem scan_current {it : Cursor Bytes Bytes} {entry : Bytes × Bytes}
    (h : it.current? = some entry)
    (cnt : Nat) (found : List (Bytes × Bytes)) :
    scan d within limit offset it cnt found =
      if within entry.1 then
        if cnt + 1 = 2 ^ 31 then .error .cntOverflow
        else if offset ≠ 0 ∧ offset.toInt > ((cnt + 1 : Nat) : Int) - 1 then
          scan d within limit offset (it.advance d) (cnt + 1) found
        else if ((found ++ [entry]).length : Int) ≥ limit.toInt % 2 ^ 64 then .ok (found ++ [entry])
        else scan d within limit offset (it.advance d) (cnt + 1) (found ++ [entry])
      else .ok found := by
  rw [scan]
  split
  · simp_all
  · next e he =>
      obtain rfl : entry = e := Option.some.inj (h.symm.trans he)
      rfl

theorem scan_eq (hlimit : 1 ≤ limit.toInt) (hoffset : 0 ≤ offset.toInt)
    (rows : List (Bytes × Bytes)) (it : Cursor Bytes Bytes) (cnt : Nat)
    (found : List (Bytes × Bytes)) (hrows : it.ahead d = rows) (hcnt : cnt < 2 ^ 31)
    (hfound : found.length = cnt - offset.toNatClampNeg)
    (hopen : found.length < limit.toNatClampNeg) :
    scan d within limit offset it cnt found =
      if min (cnt + (rows.takeWhile fun e => within e.1).length)
          (offset.toNatClampNeg + limit.toNatClampNeg) < 2 ^ 31 then
        .ok (found ++ ((rows.takeWhile fun e => within e.1).drop
          (offset.toNatClampNeg - cnt)).take (limit.toNatClampNeg - found.length))
      else .error .cntOverflow := by
  induction rows generalizing it cnt found with
  | nil =>
      have hend : it.current? = none := by
        cases h : it.current? with
        | none => rfl
        | some entry => simp [Cursor.ahead_of_current d h] at hrows
      have hlow : min cnt (offset.toNatClampNeg + limit.toNatClampNeg) < 2 ^ 31 := by omega
      rw [scan_invalid d within limit offset hend, List.takeWhile_nil, List.length_nil,
        Nat.add_zero, if_pos hlow]
      simp
  | cons entry rows ih =>
      have hhere : it.current? = some entry ∧ (it.advance d).ahead d = rows := by
        cases h : it.current? with
        | none => simp [Cursor.ahead_of_invalid d h] at hrows
        | some e =>
            rw [Cursor.ahead_of_current d h] at hrows
            exact ⟨by rw [(List.cons.inj hrows).1], (List.cons.inj hrows).2⟩
      have hlt := limit.toInt_lt
      have hoff : offset.toNatClampNeg = offset.toInt.toNat := rfl
      have hlim : limit.toNatClampNeg = limit.toInt.toNat := rfl
      have hzero : offset ≠ 0 ↔ offset.toInt ≠ 0 := by
        rw [← Int32.toInt_zero]
        exact not_congr Int32.toInt_inj.symm
      rw [scan_current d within limit offset hhere.1]
      by_cases hin : within entry.1
      · rw [if_pos hin, List.takeWhile_cons_of_pos (by simpa using hin)]
        by_cases hfull : cnt + 1 = 2 ^ 31
        · rw [if_pos hfull, if_neg (by simp only [List.length_cons]; omega)]
        · rw [if_neg hfull]
          by_cases hskip : offset.toInt > ((cnt + 1 : Nat) : Int) - 1
          · have hskipped : found = [] := List.eq_nil_of_length_eq_zero (by omega)
            rw [if_pos ⟨hzero.mpr (by omega), hskip⟩,
              ih _ _ found hhere.2 (by omega) (by omega) hopen, List.length_cons,
              show cnt + 1 + (rows.takeWhile fun e => within e.1).length =
                cnt + ((rows.takeWhile fun e => within e.1).length + 1) by omega,
              show offset.toNatClampNeg - cnt = offset.toNatClampNeg - (cnt + 1) + 1 by omega,
              List.drop_succ_cons]
          · have htaken : offset.toNatClampNeg - cnt = 0 := by omega
            have hlast : ¬(offset ≠ 0 ∧ offset.toInt > ((cnt + 1 : Nat) : Int) - 1) :=
              fun h => hskip h.2
            have hlength : (found ++ [entry]).length = found.length + 1 := by simp
            rw [if_neg hlast, htaken, List.drop_zero]
            by_cases hdone : limit.toNatClampNeg = found.length + 1
            · rw [if_pos (by omega), if_pos (by omega), hdone, Nat.add_sub_cancel_left,
                List.take_succ_cons, List.take_zero]
            · rw [if_neg (by omega), ih _ _ _ hhere.2 (by omega) (by omega) (by omega),
                List.length_cons,
                show cnt + 1 + (rows.takeWhile fun e => within e.1).length =
                  cnt + ((rows.takeWhile fun e => within e.1).length + 1) by omega,
                show offset.toNatClampNeg - (cnt + 1) = 0 by omega, List.drop_zero,
                show limit.toNatClampNeg - found.length =
                  limit.toNatClampNeg - (found ++ [entry]).length + 1 by omega,
                List.take_succ_cons, List.append_assoc, List.singleton_append]
      · have hlow : min cnt (offset.toNatClampNeg + limit.toNatClampNeg) < 2 ^ 31 := by omega
        rw [if_neg hin, List.takeWhile_cons_of_neg (by simpa using hin), List.length_nil,
          Nat.add_zero, if_pos hlow]
        simp

/-! ## The slice -/

/-- The present keys between `start` and `stop`, in the order of the scan. -/
def slice (db : Db) (start stop : Bytes) : List (Bytes × Bytes) :=
  if start ≤ stop then db.entries.filter fun e => start ≤ e.1 ∧ e.1 ≤ stop
  else (db.entries.filter fun e => stop ≤ e.1 ∧ e.1 ≤ start).reverse

def RangeExact (db : Db) (start stop : Bytes) (limit offset : Int32) : Prop :=
  range db start stop limit offset =
    .ok (((slice db start stop).drop offset.toNatClampNeg).take limit.toNatClampNeg)

/--
A descending scan needs a key from its start on, and no scan may visit `2 ^ 31`
entries.
-/
def RangeSafe (db : Db) (start stop : Bytes) (limit offset : Int32) : Prop :=
  (start ≤ stop ∨ ∃ e ∈ db.entries, start ≤ e.1) ∧
    min (slice db start stop).length (offset.toNatClampNeg + limit.toNatClampNeg) < 2 ^ 31

section Slice

variable {db : Db} {start stop : Bytes}

theorem slice_ascending (hkeys : ∀ e ∈ db.entries, NulFree e.1) (hstop : NulFree stop)
    (hle : start ≤ stop) :
    (((db.seek start).ahead .forward).takeWhile fun e => strcmp e.1 stop ≤ 0) =
      slice db start stop := by
  have hwithin : ∀ e ∈ db.entries, (strcmp e.1 stop ≤ 0 ↔ e.1 ≤ stop) :=
    fun e he => strcmp_nonpos (hkeys e he) hstop
  rw [db.ahead_forward_seek start, slice, if_pos hle,
    takeWhile_eq_filter (db.sorted.filter _) fun e he f hf hlt hfstop => ?_, List.filter_filter]
  · refine List.filter_congr fun e he => ?_
    simp [hwithin e he, Bool.and_comm]
  · simp only [decide_eq_true_eq] at hfstop ⊢
    rw [hwithin e (List.mem_filter.mp he).1]
    exact hlt.le.trans ((hwithin f (List.mem_filter.mp hf).1).mp hfstop)

theorem slice_descending (hkeys : ∀ e ∈ db.entries, NulFree e.1) (hstop : NulFree stop)
    (hlt : ¬start ≤ stop) {rows : List (Bytes × Bytes)}
    (hrows : rows = (db.entries.filter fun e => e.1 ≤ start).reverse) :
    (rows.takeWhile fun e => strcmp e.1 stop ≥ 0) = slice db start stop := by
  have hwithin : ∀ e ∈ db.entries, (strcmp e.1 stop ≥ 0 ↔ stop ≤ e.1) :=
    fun e he => strcmp_nonneg (hkeys e he) hstop
  have hmem : ∀ e ∈ rows, e ∈ db.entries := fun e he => by
    rw [hrows, List.mem_reverse] at he
    exact (List.mem_filter.mp he).1
  have hsorted : rows.Pairwise fun e f => f.1 < e.1 := by
    rw [hrows, List.pairwise_reverse]
    exact db.sorted.filter _
  rw [slice, if_neg hlt, takeWhile_eq_filter hsorted fun e he f hf hbelow hfstop => ?_, hrows,
    List.filter_reverse, List.filter_filter]
  · congr 1
    refine List.filter_congr fun e he => ?_
    simp [hwithin e he]
  · simp only [decide_eq_true_eq] at hfstop ⊢
    rw [hwithin e (hmem e he)]
    exact ((hwithin f (hmem f hf)).mp hfstop).trans hbelow.le

end Slice

theorem scan_slice (d : Direction) (within : Bytes → Prop) [DecidablePred within]
    (it : Cursor Bytes Bytes) (limit offset : Int32) (hlimit : 1 ≤ limit) (hoffset : 0 ≤ offset)
    (rows : List (Bytes × Bytes))
    (hrows : ((it.ahead d).takeWhile fun e => within e.1) = rows) :
    scan d within limit offset it 0 [] =
        .ok ((rows.drop offset.toNatClampNeg).take limit.toNatClampNeg) ↔
      min rows.length (offset.toNatClampNeg + limit.toNatClampNeg) < 2 ^ 31 := by
  have hlimit' : 1 ≤ limit.toInt := Int32.le_iff_toInt_le.mp hlimit
  have hoffset' : 0 ≤ offset.toInt := Int32.le_iff_toInt_le.mp hoffset
  have hlim : limit.toNatClampNeg = limit.toInt.toNat := rfl
  rw [scan_eq d within limit offset hlimit' hoffset' _ it 0 [] rfl (by omega)
    (Nat.zero_sub _).symm (by simp only [List.length_nil]; omega), hrows]
  simp only [Nat.zero_add, List.nil_append, Nat.sub_zero, List.length_nil]
  split
  · next h => exact iff_of_true rfl h
  · next h => exact iff_of_false (by simp) h

section Exact

variable {db : Db} {start stop : Bytes} {limit offset : Int32}

theorem range_ascending (hstart : NulFree start) (hstop : NulFree stop) (hoffset : 0 ≤ offset)
    (hle : start ≤ stop) :
    range db start stop limit offset =
      scan .forward (fun key => strcmp key stop ≤ 0) limit offset (db.seek start) 0 [] := by
  have hup : strcmp start stop ≤ 0 := (strcmp_nonpos hstart hstop).mpr hle
  rw [range]
  simp only [if_neg (Int32.not_lt.mpr hoffset)]
  rw [if_pos hup, rangeGT, if_pos hup]

theorem range_descending (hstart : NulFree start) (hstop : NulFree stop) (hoffset : 0 ≤ offset)
    (hle : ¬start ≤ stop) :
    range db start stop limit offset = rangeLT db start stop limit offset := by
  have hup : ¬strcmp start stop ≤ 0 := fun h => hle ((strcmp_nonpos hstart hstop).mp h)
  rw [range]
  simp only [if_neg (Int32.not_lt.mpr hoffset), if_neg hup]

theorem rangeExact_iff_of_start (hkeys : ∀ e ∈ db.entries, NulFree e.1) (hstart : NulFree start)
    (hstop : NulFree stop) (hlimit : 1 ≤ limit) (hoffset : 0 ≤ offset)
    (hfrom : start ≤ stop ∨ ∃ e ∈ db.entries, start ≤ e.1) :
    RangeExact db start stop limit offset ↔
      min (slice db start stop).length (offset.toNatClampNeg + limit.toNatClampNeg) < 2 ^ 31 := by
  rw [RangeExact]
  by_cases hle : start ≤ stop
  · rw [range_ascending hstart hstop hoffset hle]
    exact scan_slice .forward _ _ limit offset hlimit hoffset _ (slice_ascending hkeys hstop hle)
  · obtain ⟨e, he, hge⟩ := hfrom.resolve_left hle
    have hdown : strcmp start stop ≥ 0 := (strcmp_nonneg hstart hstop).mpr (not_le.mp hle).le
    rw [range_descending hstart hstop hoffset hle, rangeLT, if_pos hdown]
    dsimp only
    cases hseek : (db.seek start).current? with
    | none => exact absurd ((db.seek_eq_invalid start).mp hseek e he) hge.not_gt
    | some entry =>
        have hrows := slice_descending hkeys hstop hle (db.ahead_backward_seek start hseek)
        exact scan_slice .backward (fun key => strcmp key stop ≥ 0) _ limit offset hlimit hoffset _
          hrows

theorem range_invalid (hstart : NulFree start) (hstop : NulFree stop) (hoffset : 0 ≤ offset)
    (hle : ¬start ≤ stop) (hnone : ∀ e ∈ db.entries, e.1 < start) :
    range db start stop limit offset = .error .invalidIterator := by
  have hdown : strcmp start stop ≥ 0 := (strcmp_nonneg hstart hstop).mpr (not_le.mp hle).le
  rw [range_descending hstart hstop hoffset hle, rangeLT, if_pos hdown]
  dsimp only
  rw [(db.seek_eq_invalid start).mpr hnone]

end Exact

/-- A range is read back exactly if its scan has a start and does not run out of numbers. -/
theorem range_exact_iff (db : Db) (start stop : Bytes) (limit offset : Int32)
    (hkeys : ∀ e ∈ db.entries, NulFree e.1) (hstart : NulFree start) (hstop : NulFree stop)
    (hlimit : 1 ≤ limit) (hoffset : 0 ≤ offset) :
    RangeExact db start stop limit offset ↔ RangeSafe db start stop limit offset := by
  by_cases hfrom : start ≤ stop ∨ ∃ e ∈ db.entries, start ≤ e.1
  · rw [rangeExact_iff_of_start hkeys hstart hstop hlimit hoffset hfrom, RangeSafe]
    exact (and_iff_right hfrom).symm
  · have hle : ¬start ≤ stop := fun h => hfrom (.inl h)
    have hnone : ∀ e ∈ db.entries, e.1 < start := fun e he =>
      not_le.mp fun hge => hfrom (.inr ⟨e, he, hge⟩)
    rw [RangeExact, range_invalid hstart hstop hoffset hle hnone]
    exact iff_of_false (by simp) fun h => hfrom h.1

def exampleDb : Db :=
  ⟨[([48, 49, 95, 49], [1]), ([49, 48, 95, 48], [2]), ([49, 48, 95, 49], [3]),
    ([49, 49, 95, 55], [4])], by decide⟩

theorem range_exact_iff_example :
    RangeExact exampleDb [49, 48, 95, 57] [49, 48, 95, 48] 1 1 :=
  (range_exact_iff exampleDb [49, 48, 95, 57] [49, 48, 95, 48] 1 1 (by unfold NulFree; decide)
    (by unfold NulFree; decide) (by unfold NulFree; decide) (by decide) (by decide)).mpr
      (by unfold RangeSafe; decide)

/-- The scan for the last block of a store that holds no key. -/
theorem range_key_of_invalid : ¬∀ (db : Db) (start stop : Bytes) (limit offset : Int32),
    (∀ e ∈ db.entries, NulFree e.1) → NulFree start → NulFree stop → 1 ≤ limit → 0 ≤ offset →
      RangeExact db start stop limit offset := by
  intro h
  have hexact := h ⟨[], .nil⟩ [49, 48, 95, 57] [49, 48, 95, 48] 1 0 (by simp)
    (by unfold NulFree; decide) (by unfold NulFree; decide) (by decide) (by decide)
  exact absurd hexact (by unfold RangeExact; decide)

end ExplorerKV.KVDB

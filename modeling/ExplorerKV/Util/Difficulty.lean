import ExplorerKV.Bitcoin.Core

/-!
# Difficulty and compact bits

`BitsToTarget` and `DiffToBits` of `Common.cc`.  The compact form has the size
of the target in its highest byte and the first three bytes of the target, the
mantissa, below it.
-/

namespace ExplorerKV.Util

open Bitcoin

inductive DiffFault where
  | zero
  | notPerfect
  | overflow
  /-- the `while` used up the rounds it was given -/
  | diverge
  deriving DecidableEq, Repr

def bitsDiff1 : UInt32 := 0x1d00ffff

/-- `BitsToTarget`: the shift count is an `unsigned`, bits beyond the 256th are lost. -/
def bitsToTarget (bits : UInt32) : Uint256 :=
  let nbytes := (bits >>> 24) &&& 0xff
  Fin.ofNat (2 ^ 256) ((bits &&& 0xffffff).toNat <<< (8 * (nbytes - 3)).toNat)

/-- The `while` of `DiffToBits`. -/
def stripBytes : Nat → UInt64 → UInt64 → Except DiffFault (UInt64 × UInt64)
  | 0, _, _ => .error .diverge
  | rounds + 1, nbytes, diff =>
      if diff % 256 = 0 then stripBytes rounds (nbytes - 1) (diff / 256)
      else .ok (nbytes, diff)

/-- A non-zero `uint64` has at most seven bytes to strip. -/
def diffToBits (diff : UInt64) : Except DiffFault UInt32 := do
  let nbytes : UInt64 := (bitsDiff1.toUInt64 >>> 24) &&& 0xff
  let value : UInt64 := bitsDiff1.toUInt64 &&& 0xffffff
  if diff = 0 then throw .zero
  let (nbytes, diff) ← stripBytes 8 nbytes diff
  let (nbytes, value) ←
    if value % diff = 0 then pure (nbytes, value / diff)
    else if (value <<< 8) % diff = 0 then pure (nbytes - 1, (value <<< 8) / diff)
    else throw .notPerfect
  if value > 0x00ffffff then throw .overflow
  return (value ||| (nbytes <<< 24)).toUInt32

def diffToTarget (diff : UInt64) : Except DiffFault Uint256 :=
  (diffToBits diff).map bitsToTarget

variable {diff : UInt64}

theorem stripBytes_spec (rounds : Nat) (nbytes : UInt64) (hdiff : diff ≠ 0)
    (hsize : diff.toNat < 256 ^ rounds) (hnbytes : rounds ≤ nbytes.toNat) :
    ∃ k < rounds, ∃ nbytes' diff' : UInt64, stripBytes rounds nbytes diff = .ok (nbytes', diff') ∧
      nbytes'.toNat + k = nbytes.toNat ∧ diff'.toNat * 256 ^ k = diff.toNat ∧ diff' ≠ 0 := by
  have hpos : 0 < diff.toNat := by
    rw [Nat.pos_iff_ne_zero]
    exact fun h => hdiff (UInt64.toNat_inj.mp h)
  induction rounds generalizing nbytes diff with
  | zero => omega
  | succ rounds ih =>
      rw [stripBytes]
      by_cases hmod : diff % 256 = 0
      · have hmod' : diff.toNat % 256 = 0 := by simpa using congrArg UInt64.toNat hmod
        have hquot : (diff / 256).toNat = diff.toNat / 256 := by simp
        have hone : (nbytes - 1).toNat = nbytes.toNat - 1 := by
          rw [UInt64.toNat_sub_of_le]
          · rfl
          · rw [UInt64.le_iff_toNat_le]
            change 1 ≤ nbytes.toNat
            omega
        have hquotPos : 0 < (diff / 256).toNat := by omega
        have hrest : rounds ≤ (nbytes - 1).toNat := by omega
        obtain ⟨k, hk, nbytes', diff', hrun, hsum, hprod, hne⟩ := ih _
          (fun h => by rw [h] at hquotPos; cases hquotPos) (by rw [hquot]; omega) hrest hquotPos
        refine ⟨k + 1, by omega, nbytes', diff', by rw [if_pos hmod, hrun], by omega, ?_, hne⟩
        rw [pow_succ, ← mul_assoc, hprod, hquot]
        omega
      · exact ⟨0, by omega, nbytes, diff, if_neg hmod, rfl, by simp, hdiff⟩

/-- The compact form of a mantissa and a size that fit. -/
structure Packed (bits : UInt32) (nbytes value : Nat) : Prop where
  toNat : bits.toNat = nbytes * 2 ^ 24 + value
  nbytes_lt : nbytes < 2 ^ 8
  value_lt : value < 2 ^ 23

theorem packed (nbytes value : UInt64) (hnbytes : nbytes.toNat < 2 ^ 8)
    (hvalue : value.toNat < 2 ^ 23) :
    Packed (value ||| (nbytes <<< 24)).toUInt32 nbytes.toNat value.toNat where
  toNat := by
    have hshift : (nbytes <<< 24).toNat = nbytes.toNat <<< 24 := by
      rw [UInt64.toNat_shiftLeft]
      change nbytes.toNat <<< 24 % 2 ^ 64 = _
      rw [Nat.shiftLeft_eq]
      omega
    have hor := Nat.shiftLeft_add_eq_or_of_lt (show value.toNat < 2 ^ 24 by omega) nbytes.toNat
    rw [UInt64.toNat_toUInt32, UInt64.toNat_or, hshift, Nat.or_comm, ← hor, Nat.shiftLeft_eq]
    omega
  nbytes_lt := hnbytes
  value_lt := hvalue

namespace Packed

variable {bits : UInt32} {n v : Nat}

theorem signBit (h : Packed bits n v) : bits &&& 0x00800000 = 0 := by
  apply UInt32.toNat_inj.mp
  have hv := h.value_lt
  rw [UInt32.toNat_and, h.toNat]
  change (n * 2 ^ 24 + v) &&& 2 ^ 23 = 0
  have hbit : (n * 2 ^ 24 + v) / 2 ^ 23 % 2 ≠ 1 := by omega
  rw [Nat.and_two_pow, Nat.testBit_eq_decide_div_mod_eq, decide_eq_false hbit]
  rfl

theorem size (h : Packed bits n v) : (bits >>> 24).toNat = n := by
  have hv := h.value_lt
  rw [UInt32.toNat_shiftRight, h.toNat]
  change (n * 2 ^ 24 + v) >>> 24 = n
  rw [Nat.shiftRight_eq_div_pow]
  omega

theorem mantissa (h : Packed bits n v) : (bits &&& 0xffffff).toNat = v := by
  have hv := h.value_lt
  rw [UInt32.toNat_and, h.toNat]
  change (n * 2 ^ 24 + v) &&& (2 ^ 24 - 1) = v
  rw [Nat.and_two_pow_sub_one_eq_mod]
  omega

theorem target (h : Packed bits n v) (hsize : 3 ≤ n) (hfits : n ≤ 29) :
    (bitsToTarget bits).val = v * 2 ^ (8 * (n - 3)) := by
  have hn : ((bits >>> 24) &&& 0xff).toNat = n := by
    rw [UInt32.toNat_and, h.size]
    change n &&& (2 ^ 8 - 1) = n
    rw [Nat.and_two_pow_sub_one_eq_mod, Nat.mod_eq_of_lt h.nbytes_lt]
  have hshift : ((8 : UInt32) * (((bits >>> 24) &&& 0xff) - 3)).toNat = 8 * (n - 3) := by
    rw [UInt32.toNat_mul, UInt32.toNat_sub_of_le, hn]
    · change 8 * (n - 3) % 2 ^ 32 = _
      omega
    · rw [UInt32.le_iff_toNat_le, hn]
      exact hsize
  have hlt : v * 2 ^ (8 * (n - 3)) < 2 ^ 256 := by
    calc v * 2 ^ (8 * (n - 3)) < 2 ^ 23 * 2 ^ (8 * (n - 3)) :=
          Nat.mul_lt_mul_of_pos_right h.value_lt (Nat.two_pow_pos _)
      _ = 2 ^ (23 + 8 * (n - 3)) := (pow_add 2 23 _).symm
      _ ≤ 2 ^ 256 := Nat.pow_le_pow_right (by omega) (by omega)
  rw [bitsToTarget, hshift, h.mantissa, Nat.shiftLeft_eq, Fin.val_ofNat, Nat.mod_eq_of_lt hlt]

end Packed

/-- A target as `DiffToBits` finds it: a quotient of `0xffff` with some bytes more. -/
theorem quotient_mul {m d k n : Nat} (hd : d ∣ 0xffff * 256 ^ m) (hn : n + k + m = 29)
    (hk : 3 ≤ n) :
    0xffff * 256 ^ m / d * 2 ^ (8 * (n - 3)) * (d * 256 ^ k) = 0xffff * 2 ^ 208 := by
  have hpow : 256 ^ m * (2 ^ (8 * (n - 3)) * 256 ^ k) = 2 ^ 208 := by
    rw [show 256 = 2 ^ 8 by norm_num, ← pow_mul, ← pow_mul, ← pow_add, ← pow_add]
    congr 1
    omega
  calc 0xffff * 256 ^ m / d * 2 ^ (8 * (n - 3)) * (d * 256 ^ k)
      = 0xffff * 256 ^ m / d * d * (2 ^ (8 * (n - 3)) * 256 ^ k) := by ring
    _ = 0xffff * (256 ^ m * (2 ^ (8 * (n - 3)) * 256 ^ k)) := by
        rw [Nat.div_mul_cancel hd, mul_assoc]
    _ = 0xffff * 2 ^ 208 := by rw [hpow]

/-- The end of `DiffToBits`. -/
def packBits (nbytes value : UInt64) : Except DiffFault UInt32 :=
  if value > 0x00ffffff then .error .overflow else .ok (value ||| (nbytes <<< 24)).toUInt32

theorem diffToBits_eq {nbytes d : UInt64} (hdiff : diff ≠ 0)
    (hstrip : stripBytes 8 29 diff = .ok (nbytes, d)) :
    diffToBits diff =
      if 0xffff % d = 0 then packBits nbytes (0xffff / d)
      else if 0xffff00 % d = 0 then packBits (nbytes - 1) (0xffff00 / d)
      else .error .notPerfect := by
  have hnbytes : (bitsDiff1.toUInt64 >>> 24) &&& 0xff = 29 := by decide
  have hvalue : bitsDiff1.toUInt64 &&& 0xffffff = 0xffff := by decide
  have hshift : (0xffff : UInt64) <<< 8 = 0xffff00 := by decide
  unfold diffToBits packBits
  simp only [hnbytes, hvalue, hshift, hstrip, if_neg hdiff, bind, Except.bind]
  by_cases hfirst : 0xffff % d = 0
  · simp only [if_pos hfirst]
    rfl
  · simp only [if_neg hfirst]
    by_cases hsecond : 0xffff00 % d = 0
    · simp only [if_pos hsecond]
      rfl
    · simp only [if_neg hsecond]
      rfl

/--
Whenever the difficulty divides evenly, the compact form has a clear sign bit and
at least three bytes, and its target times the difficulty is the largest target.
-/
theorem diffToBits_exact (diff : UInt64) (hdiff : diff ≠ 0)
    (hperfect : diffToBits diff ≠ .error .notPerfect) :
    ∃ bits, diffToBits diff = .ok bits ∧ bits &&& 0x00800000 = 0 ∧ (3 : UInt32) ≤ bits >>> 24 ∧
      (bitsToTarget bits).val * diff.toNat = 0xffff * 2 ^ 208 := by
  obtain ⟨k, hk, nbytes, d, hstrip, hnbytes, hd, hne⟩ :=
    stripBytes_spec 8 29 hdiff diff.toNat_lt (by decide)
  have hpos : 0 < d.toNat := by
    rw [Nat.pos_iff_ne_zero]
    exact fun h => hne (UInt64.toNat_inj.mp h)
  change nbytes.toNat + k = 29 at hnbytes
  -- both branches leave a quotient of `0xffff` with `m` bytes more
  have hok : ∀ (m : Nat) (nbytes' value : UInt64), m ≤ 1 → nbytes'.toNat + m = nbytes.toNat →
      d.toNat ∣ 0xffff * 256 ^ m → value.toNat = 0xffff * 256 ^ m / d.toNat →
      value.toNat < 2 ^ 23 →
      diffToBits diff = packBits nbytes' value →
      ∃ bits, diffToBits diff = .ok bits ∧ bits &&& 0x00800000 = 0 ∧
        (3 : UInt32) ≤ bits >>> 24 ∧
        (bitsToTarget bits).val * diff.toNat = 0xffff * 2 ^ 208 := by
    intro m nbytes' value hm hsize hdvd hvalue hlt hrun
    have hpacked := packed nbytes' value (by omega) hlt
    have hfits : ¬value > 0x00ffffff := by
      rw [gt_iff_lt, UInt64.lt_iff_toNat_lt]
      change ¬2 ^ 24 - 1 < value.toNat
      omega
    rw [packBits, if_neg hfits] at hrun
    refine ⟨_, hrun, hpacked.signBit, ?_, ?_⟩
    · rw [UInt32.le_iff_toNat_le, hpacked.size]
      change 3 ≤ nbytes'.toNat
      omega
    · rw [hpacked.target (by omega) (by omega), hvalue, ← hd]
      exact quotient_mul hdvd (by omega) (by omega)
  have heq := diffToBits_eq hdiff hstrip
  by_cases hfirst : 0xffff % d = 0
  · have hdvd : d.toNat ∣ 0xffff := by
      simpa using Nat.dvd_of_mod_eq_zero (congrArg UInt64.toNat hfirst)
    rw [if_pos hfirst] at heq
    refine hok 0 nbytes (0xffff / d) (by omega) (by omega) (by simpa using hdvd) (by simp) ?_ heq
    have hle := Nat.div_le_self 0xffff d.toNat
    rw [UInt64.toNat_div]
    change 0xffff / d.toNat < 2 ^ 23
    omega
  · rw [if_neg hfirst] at heq
    by_cases hsecond : 0xffff00 % d = 0
    · have hdvd : d.toNat ∣ 0xffff00 := by
        simpa using Nat.dvd_of_mod_eq_zero (congrArg UInt64.toNat hsecond)
      -- one does not divide here, so the quotient is at most half of `0xffff00`
      have htwo : 2 ≤ d.toNat := by
        by_contra hlt
        have hone : d.toNat = 1 := by omega
        refine hfirst (UInt64.toNat_inj.mp ?_)
        rw [UInt64.toNat_mod, hone]
        rfl
      have hsize : (nbytes - 1).toNat + 1 = nbytes.toNat := by
        rw [UInt64.toNat_sub_of_le]
        · change nbytes.toNat - 1 + 1 = nbytes.toNat
          omega
        · rw [UInt64.le_iff_toNat_le]
          change 1 ≤ nbytes.toNat
          omega
      rw [if_pos hsecond] at heq
      refine hok 1 (nbytes - 1) (0xffff00 / d) le_rfl hsize (by simpa using hdvd) (by simp) ?_ heq
      have hle := Nat.div_le_div_left htwo (show 0 < 2 by decide) (a := 0xffff00)
      rw [UInt64.toNat_div]
      change 0xffff00 / d.toNat < 2 ^ 23
      omega
    · rw [if_neg hsecond] at heq
      exact absurd heq hperfect

theorem diffToBits_exact_384 :
    ∃ bits, diffToBits 384 = .ok bits ∧ bits &&& 0x00800000 = 0 ∧ (3 : UInt32) ≤ bits >>> 24 ∧
      (bitsToTarget bits).val * (384 : UInt64).toNat = 0xffff * 2 ^ 208 :=
  diffToBits_exact 384 (by decide) (by decide +kernel)

end ExplorerKV.Util

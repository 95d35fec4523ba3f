import ExplorerKV.Foundation.CString
import Mathlib.Data.List.DropRight

/-!
# Base64

`Strings::toBase64` and `Strings::fromBase64` of `Common.cc`.  Both allocate
their result first and write it from the front; a write behind its end is
`none` here.
-/

namespace ExplorerKV.Util

open Foundation

/-- A buffer of `size` zeros after `written`. -/
def fill (size : Nat) (written : Bytes) : Option Bytes :=
  if written.length ≤ size then some (written ++ List.replicate (size - written.length) 0)
  else none

theorem fill_length (written : Bytes) : fill written.length written = some written := by
  simp [fill]

/-! ## The alphabet -/

def basis64 : Vector UInt8 64 := #v[
  65, 66, 67, 68, 69, 70, 71, 72, 73, 74, 75, 76, 77, 78, 79, 80,
  81, 82, 83, 84, 85, 86, 87, 88, 89, 90, 97, 98, 99, 100, 101, 102,
  103, 104, 105, 106, 107, 108, 109, 110, 111, 112, 113, 114, 115, 116, 117, 118,
  119, 120, 121, 122, 48, 49, 50, 51, 52, 53, 54, 55, 56, 57, 43, 47]

set_option maxRecDepth 4000 in
def pr2six : Vector UInt8 256 := #v[
  64, 64, 64, 64, 64, 64, 64, 64, 64, 64, 64, 64, 64, 64, 64, 64,
  64, 64, 64, 64, 64, 64, 64, 64, 64, 64, 64, 64, 64, 64, 64, 64,
  64, 64, 64, 64, 64, 64, 64, 64, 64, 64, 64, 62, 64, 64, 64, 63,
  52, 53, 54, 55, 56, 57, 58, 59, 60, 61, 64, 64, 64, 64, 64, 64,
  64, 0, 1, 2, 3, 4, 5, 6, 7, 8, 9, 10, 11, 12, 13, 14,
  15, 16, 17, 18, 19, 20, 21, 22, 23, 24, 25, 64, 64, 64, 64, 64,
  64, 26, 27, 28, 29, 30, 31, 32, 33, 34, 35, 36, 37, 38, 39, 40,
  41, 42, 43, 44, 45, 46, 47, 48, 49, 50, 51, 64, 64, 64, 64, 64,
  64, 64, 64, 64, 64, 64, 64, 64, 64, 64, 64, 64, 64, 64, 64, 64,
  64, 64, 64, 64, 64, 64, 64, 64, 64, 64, 64, 64, 64, 64, 64, 64,
  64, 64, 64, 64, 64, 64, 64, 64, 64, 64, 64, 64, 64, 64, 64, 64,
  64, 64, 64, 64, 64, 64, 64, 64, 64, 64, 64, 64, 64, 64, 64, 64,
  64, 64, 64, 64, 64, 64, 64, 64, 64, 64, 64, 64, 64, 64, 64, 64,
  64, 64, 64, 64, 64, 64, 64, 64, 64, 64, 64, 64, 64, 64, 64, 64,
  64, 64, 64, 64, 64, 64, 64, 64, 64, 64, 64, 64, 64, 64, 64, 64,
  64, 64, 64, 64, 64, 64, 64, 64, 64, 64, 64, 64, 64, 64, 64, 64]

/-- An index into `basis_64`. -/
abbrev Six := { n : UInt32 // n.toNat < 64 }

def letter (n : Six) : UInt8 := basis64.get ⟨n.1.toNat, n.2⟩

def padding : UInt8 := 61

def sixOf (c : UInt8) : UInt8 := pr2six.get c.toFin

theorem sixOf_letter_get : ∀ n : Fin 64, (sixOf (basis64.get n)).toNat = n.val := by
  decide +kernel

@[simp] theorem sixOf_letter (n : Six) : (sixOf (letter n)).toNat = n.1.toNat :=
  sixOf_letter_get ⟨n.1.toNat, n.2⟩

/-! ## The six bits of each letter -/

def topSix (a : UInt8) : UInt32 := ((charInt a >>> 2) &&& 0x3f).toUInt32

def lowTwo (a : UInt8) : UInt32 := ((charInt a &&& 0x3) <<< 4).toUInt32

def topFour (b : UInt8) : UInt32 := ((charInt b).toUInt32 &&& 0xf0) >>> 4

def lowFour (b : UInt8) : UInt32 := ((charInt b &&& 0xf) <<< 2).toUInt32

def topTwo (c : UInt8) : UInt32 := ((charInt c).toUInt32 &&& 0xc0) >>> 6

def lowSix (c : UInt8) : UInt32 := (charInt c &&& 0x3f).toUInt32

/-- The shifts of `toBase64` on one char, for each of the 256. -/
theorem charBits_ofFin (c : Fin 256) :
    (topSix (UInt8.ofFin c)).toNat = c.val / 4 ∧ (lowTwo (UInt8.ofFin c)).toNat = c.val % 4 * 16 ∧
      (topFour (UInt8.ofFin c)).toNat = c.val / 16 ∧
      (lowFour (UInt8.ofFin c)).toNat = c.val % 16 * 4 ∧
      (topTwo (UInt8.ofFin c)).toNat = c.val / 64 ∧
        (lowSix (UInt8.ofFin c)).toNat = c.val % 64 := by
  revert c
  decide +kernel

@[simp] theorem topSix_toNat (a : UInt8) : (topSix a).toNat = a.toNat / 4 :=
  (charBits_ofFin a.toFin).1

@[simp] theorem lowTwo_toNat (a : UInt8) : (lowTwo a).toNat = a.toNat % 4 * 16 :=
  (charBits_ofFin a.toFin).2.1

@[simp] theorem topFour_toNat (b : UInt8) : (topFour b).toNat = b.toNat / 16 :=
  (charBits_ofFin b.toFin).2.2.1

@[simp] theorem lowFour_toNat (b : UInt8) : (lowFour b).toNat = b.toNat % 16 * 4 :=
  (charBits_ofFin b.toFin).2.2.2.1

@[simp] theorem topTwo_toNat (c : UInt8) : (topTwo c).toNat = c.toNat / 64 :=
  (charBits_ofFin c.toFin).2.2.2.2.1

@[simp] theorem lowSix_toNat (c : UInt8) : (lowSix c).toNat = c.toNat % 64 :=
  (charBits_ofFin c.toFin).2.2.2.2.2

theorem or_eq_add (high k : Nat) {low : Nat} (hlow : low < 2 ^ k) :
    high * 2 ^ k ||| low = high * 2 ^ k + low := by
  rw [← Nat.shiftLeft_eq, Nat.shiftLeft_add_eq_or_of_lt hlow]

theorem lowTwo_or_topFour (a b : UInt8) :
    (lowTwo a ||| topFour b).toNat = a.toNat % 4 * 16 + b.toNat / 16 := by
  have hb := b.toNat_lt
  rw [UInt32.toNat_or, lowTwo_toNat, topFour_toNat]
  exact or_eq_add (a.toNat % 4) 4 (by omega)

theorem lowFour_or_topTwo (b c : UInt8) :
    (lowFour b ||| topTwo c).toNat = b.toNat % 16 * 4 + c.toNat / 64 := by
  have hc := c.toNat_lt
  rw [UInt32.toNat_or, lowFour_toNat, topTwo_toNat]
  exact or_eq_add (b.toNat % 16) 2 (by omega)

/-! ## The two functions -/

def firstSix (a : UInt8) : Six :=
  ⟨topSix a, by have ha := a.toNat_lt; rw [topSix_toNat]; omega⟩

def secondSix (a b : UInt8) : Six :=
  ⟨lowTwo a ||| topFour b, by have hb := b.toNat_lt; rw [lowTwo_or_topFour]; omega⟩

def thirdSix (b c : UInt8) : Six :=
  ⟨lowFour b ||| topTwo c, by have hc := c.toNat_lt; rw [lowFour_or_topTwo]; omega⟩

def fourthSix (c : UInt8) : Six :=
  ⟨lowSix c, by rw [lowSix_toNat]; omega⟩

/-- `basis_64[((str[i] & 0x3) << 4)]`, the last letter of one char alone -/
def lastOfOne (a : UInt8) : Six :=
  ⟨lowTwo a, by rw [lowTwo_toNat]; omega⟩

/-- `basis_64[((str[i + 1] & 0xF) << 2)]`, the last letter of two -/
def lastOfTwo (b : UInt8) : Six :=
  ⟨lowFour b, by rw [lowFour_toNat]; omega⟩

/-- What `toBase64` writes: its loop takes three chars while there are three. -/
def encode64 : Bytes → Bytes
  | a :: b :: c :: rest =>
      letter (firstSix a) :: letter (secondSix a b) :: letter (thirdSix b c) ::
        letter (fourthSix c) :: encode64 rest
  | [a, b] => [letter (firstSix a), letter (secondSix a b), letter (lastOfTwo b), padding]
  | [a] => [letter (firstSix a), letter (lastOfOne a), padding, padding]
  | [] => []

def toBase64 (str : Bytes) : Option Bytes :=
  fill ((str.length + 2) / 3 * 4) (encode64 str)

def firstByte (x y : UInt8) : UInt8 :=
  UInt8.ofNat ((sixOf x).toNat <<< 2 ||| (sixOf y).toNat >>> 4)

def secondByte (y z : UInt8) : UInt8 :=
  UInt8.ofNat ((sixOf y).toNat <<< 4 ||| (sixOf z).toNat >>> 2)

def thirdByte (z w : UInt8) : UInt8 :=
  UInt8.ofNat ((sixOf z).toNat <<< 6 ||| (sixOf w).toNat)

/-- What `fromBase64` writes: its loop takes four letters while there are more than four. -/
def decode64 : Bytes → Bytes
  | x :: y :: z :: w :: v :: rest =>
      firstByte x y :: secondByte y z :: thirdByte z w :: decode64 (v :: rest)
  | [x, y, z, w] => [firstByte x y, secondByte y z, thirdByte z w]
  | [x, y, z] => [firstByte x y, secondByte y z]
  | [x, y] => [firstByte x y]
  | _ => []

def retlen (len : Nat) : Nat :=
  if len % 4 = 2 then len / 4 * 3 + 1
  else if len % 4 = 3 then len / 4 * 3 + 2
  else len / 4 * 3

def fromBase64 (str : Bytes) : Option Bytes :=
  let bufin := str.rdropWhile fun c => decide (64 ≤ sixOf c)
  fill (retlen bufin.length) (decode64 bufin)

/-! ## The round trip -/

theorem firstByte_letter (a : UInt8) (n : Six) (hn : n.1.toNat / 16 = a.toNat % 4) :
    firstByte (letter (firstSix a)) (letter n) = a := by
  have ha := a.toNat_lt
  apply UInt8.toNat_inj.mp
  have hor := or_eq_add (a.toNat / 4) 2 (show a.toNat % 4 < 2 ^ 2 by omega)
  rw [firstByte, sixOf_letter, sixOf_letter, Nat.shiftLeft_eq, Nat.shiftRight_eq_div_pow]
  change (UInt8.ofNat ((topSix a).toNat * 2 ^ 2 ||| n.1.toNat / 16)).toNat = _
  rw [topSix_toNat, hn, hor, UInt8.toNat_ofNat']
  omega

theorem secondByte_letter (a b : UInt8) (n : Six) (hn : n.1.toNat / 4 = b.toNat % 16) :
    secondByte (letter (secondSix a b)) (letter n) = b := by
  have hb := b.toNat_lt
  apply UInt8.toNat_inj.mp
  have hor := or_eq_add (a.toNat % 4 * 16 + b.toNat / 16) 4 (show b.toNat % 16 < 2 ^ 4 by omega)
  rw [secondByte, sixOf_letter, sixOf_letter, Nat.shiftLeft_eq, Nat.shiftRight_eq_div_pow]
  change (UInt8.ofNat ((lowTwo a ||| topFour b).toNat * 2 ^ 4 ||| n.1.toNat / 4)).toNat = _
  rw [lowTwo_or_topFour, hn, hor, UInt8.toNat_ofNat']
  omega

theorem thirdByte_letter (b c : UInt8) :
    thirdByte (letter (thirdSix b c)) (letter (fourthSix c)) = c := by
  have hc := c.toNat_lt
  apply UInt8.toNat_inj.mp
  have hor := or_eq_add (b.toNat % 16 * 4 + c.toNat / 64) 6 (show c.toNat % 64 < 2 ^ 6 by omega)
  rw [thirdByte, sixOf_letter, sixOf_letter, Nat.shiftLeft_eq]
  change (UInt8.ofNat ((lowFour b ||| topTwo c).toNat * 2 ^ 6 ||| (lowSix c).toNat)).toNat = _
  rw [lowFour_or_topTwo, lowSix_toNat, hor, UInt8.toNat_ofNat']
  omega

theorem decode64_cons (x y z w : UInt8) (rest : Bytes) :
    decode64 (x :: y :: z :: w :: rest) =
      firstByte x y :: secondByte y z :: thirdByte z w :: decode64 rest := by
  cases rest with
  | nil => rfl
  | cons v rest => rfl

/-- What `fromBase64` sees of the encoding: the letters without their padding. -/
def letters : Bytes → Bytes
  | a :: b :: c :: rest =>
      letter (firstSix a) :: letter (secondSix a b) :: letter (thirdSix b c) ::
        letter (fourthSix c) :: letters rest
  | [a, b] => [letter (firstSix a), letter (secondSix a b), letter (lastOfTwo b)]
  | [a] => [letter (firstSix a), letter (lastOfOne a)]
  | [] => []

theorem decode64_letters (str : Bytes) : decode64 (letters str) = str := by
  induction str using letters.induct with
  | case1 a b c rest ih =>
      have hfirst := firstByte_letter a (secondSix a b) (by
        have hb := b.toNat_lt
        change (lowTwo a ||| topFour b).toNat / 16 = _
        rw [lowTwo_or_topFour]
        omega)
      have hsecond := secondByte_letter a b (thirdSix b c) (by
        have hc := c.toNat_lt
        change (lowFour b ||| topTwo c).toNat / 4 = _
        rw [lowFour_or_topTwo]
        omega)
      rw [letters, decode64_cons, hfirst, hsecond, thirdByte_letter, ih]
  | case2 a b =>
      have hfirst := firstByte_letter a (secondSix a b) (by
        have hb := b.toNat_lt
        change (lowTwo a ||| topFour b).toNat / 16 = _
        rw [lowTwo_or_topFour]
        omega)
      have hsecond := secondByte_letter a b (lastOfTwo b) (by
        change (lowFour b).toNat / 4 = _
        rw [lowFour_toNat]
        omega)
      rw [letters, decode64, hfirst, hsecond]
  | case3 a =>
      have hfirst := firstByte_letter a (lastOfOne a) (by
        change (lowTwo a).toNat / 16 = _
        rw [lowTwo_toNat]
        omega)
      rw [letters, decode64, hfirst]
  | case4 => rfl

theorem encode64_eq (str : Bytes) :
    ∃ n, encode64 str = letters str ++ List.replicate n padding := by
  induction str using letters.induct with
  | case1 a b c rest ih =>
      obtain ⟨n, hn⟩ := ih
      exact ⟨n, by rw [encode64, letters, hn]; rfl⟩
  | case2 a b => exact ⟨1, rfl⟩
  | case3 a => exact ⟨2, rfl⟩
  | case4 => exact ⟨0, rfl⟩

theorem encode64_length (str : Bytes) : (encode64 str).length = (str.length + 2) / 3 * 4 := by
  induction str using letters.induct with
  | case1 a b c rest ih =>
      simp only [encode64, List.length_cons, ih]
      omega
  | case2 a b => simp [encode64]
  | case3 a => simp [encode64]
  | case4 => rfl

theorem retlen_add_four (len : Nat) : retlen (len + 4) = retlen len + 3 := by
  have hmod : (len + 4) % 4 = len % 4 := by omega
  have hdiv : (len + 4) / 4 * 3 = len / 4 * 3 + 3 := by omega
  simp only [retlen, hmod, hdiv]
  split_ifs <;> omega

theorem retlen_letters (str : Bytes) : retlen (letters str).length = str.length := by
  induction str using letters.induct with
  | case1 a b c rest ih =>
      simp only [letters, List.length_cons]
      rw [retlen_add_four, ih]
  | case2 a b => simp [letters, retlen]
  | case3 a => simp [letters, retlen]
  | case4 => rfl

theorem sixOf_of_mem_letters {str : Bytes} {c : UInt8} (h : c ∈ letters str) :
    (sixOf c).toNat < 64 := by
  have hletter : ∃ n, c = letter n := by
    induction str using letters.induct with
    | case1 a b c' rest ih =>
        simp only [letters, List.mem_cons] at h
        obtain rfl | rfl | rfl | rfl | h := h
        · exact ⟨_, rfl⟩
        · exact ⟨_, rfl⟩
        · exact ⟨_, rfl⟩
        · exact ⟨_, rfl⟩
        · exact ih h
    | case2 a b =>
        simp only [letters, List.mem_cons, List.not_mem_nil, or_false] at h
        obtain rfl | rfl | rfl := h
        · exact ⟨_, rfl⟩
        · exact ⟨_, rfl⟩
        · exact ⟨_, rfl⟩
    | case3 a =>
        simp only [letters, List.mem_cons, List.not_mem_nil, or_false] at h
        obtain rfl | rfl := h
        · exact ⟨_, rfl⟩
        · exact ⟨_, rfl⟩
    | case4 => cases h
  obtain ⟨n, rfl⟩ := hletter
  rw [sixOf_letter]
  exact n.2

theorem rdropWhile_letters (str : Bytes) (n : Nat) :
    (letters str ++ List.replicate n padding).rdropWhile (fun c => decide (64 ≤ sixOf c)) =
      letters str := by
  induction n with
  | zero =>
      rw [List.replicate_zero, List.append_nil, List.rdropWhile_eq_self_iff]
      intro hne
      have hlast := sixOf_of_mem_letters (List.getLast_mem hne)
      rw [decide_eq_true_eq, UInt8.le_iff_toNat_le, not_le]
      exact hlast
  | succ n ih =>
      have hpad : decide (64 ≤ sixOf padding) = true := by decide +kernel
      rw [List.replicate_succ', ← List.append_assoc, List.rdropWhile_concat, if_pos hpad, ih]

theorem fromBase64_toBase64 (str : Bytes) : (toBase64 str).bind fromBase64 = some str := by
  obtain ⟨n, hencode⟩ := encode64_eq str
  have hto : toBase64 str = some (encode64 str) := by
    rw [toBase64, ← encode64_length, fill_length]
  have hfill : fill str.length str = some str := fill_length str
  rw [hto, Option.bind_some, hencode]
  simp only [fromBase64, rdropWhile_letters, decode64_letters, retlen_letters, hfill]

example : toBase64 [0x4d, 0xe1] = some [84, 101, 69, 61] := by decide +kernel

end ExplorerKV.Util

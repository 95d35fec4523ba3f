import ExplorerKV.Foundation.Digits
import ExplorerKV.Logs.Text

/-!
# Addresses as text

Base58 with a checksum, as `base58.h` has it.  Decoding passes over blanks
before and after the digits, so one address has many spellings; `ToString`
gives one of them.  The hash is that of OpenSSL and stays a parameter.
-/

namespace ExplorerKV.Bitcoin

open Foundation Logs

/-- A C string: its bytes up to the terminating zero. -/
structure CString where
  bytes : Bytes
  no_nul : 0 ∉ bytes

/-- What `Hash` returns: the bytes of a `uint256`. -/
structure Digest where
  bytes : Bytes
  length_eq : bytes.length = 32

/-! ## Base 58 -/

def pszBase58 : Bytes :=
  [49, 50, 51, 52, 53, 54, 55, 56, 57, 65, 66, 67, 68, 69, 70, 71, 72, 74, 75, 76, 77, 78, 80, 81,
    82, 83, 84, 85, 86, 87, 88, 89, 90, 97, 98, 99, 100, 101, 102, 103, 104, 105, 106, 107, 109,
    110, 111, 112, 113, 114, 115, 116, 117, 118, 119, 120, 121, 122]

def base58Char (digit : Nat) : UInt8 := pszBase58.getD digit 0

/-- `strchr(pszBase58, c) - pszBase58` -/
def base58Digit (c : UInt8) : Option Nat := pszBase58.idxOf? c

def encodeBase58 (vch : Bytes) : Bytes :=
  ((Nat.digits 58 (digitsValue 256 (vch.map UInt8.toNat))).map base58Char ++
    (vch.takeWhile (· = 0)).map fun _ => base58Char 0).reverse

/-- `CBigNum::getvch`: little endian, with a byte for the sign behind a top bit -/
def getvch (bn : Nat) : List Nat :=
  let vch := Nat.digits 256 bn
  if 128 ≤ vch.getLastD 0 then vch ++ [0] else vch

def trimSignByte (vch : List Nat) : List Nat :=
  if 2 ≤ vch.length ∧ vch.getLastD 0 = 0 ∧ 128 ≤ vch.dropLast.getLastD 0 then vch.dropLast else vch

/-- `none` is the result `false`. -/
def decodeBase58 (psz : Bytes) : Option Bytes :=
  let psz := psz.dropWhile isSpace
  let digits := psz.takeWhile fun c => (base58Digit c).isSome
  -- after the digits only blanks may follow
  if ((psz.drop digits.length).dropWhile isSpace).isEmpty then
    let bn := digitsValue 58 (digits.map fun c => (base58Digit c).getD 0)
    let nLeadingZeros := (psz.takeWhile (· = base58Char 0)).length
    some (List.replicate nLeadingZeros 0 ++
      ((trimSignByte (getvch bn)).map Nat.toUInt8).reverse)
  else none

section Base58

theorem base58Digit_base58Char : ∀ d < 58, base58Digit (base58Char d) = some d := by
  decide

theorem isSpace_base58Char : ∀ d < 58, isSpace (base58Char d) = false := by
  decide

theorem base58Char_eq_zeroChar : ∀ d < 58, base58Char d = base58Char 0 → d = 0 := by
  decide

theorem trimSignByte_getvch (bn : Nat) : trimSignByte (getvch bn) = Nat.digits 256 bn := by
  unfold getvch
  cases hdigits : Nat.digits 256 bn with
  | nil => rfl
  | cons low rest =>
      have hne : low :: rest ≠ [] := List.cons_ne_nil low rest
      have hlast : (low :: rest).getLastD 0 ≠ 0 := by
        rw [List.getLastD_eq_getLast?, List.getLast?_eq_some_getLast hne]
        have hzero : bn ≠ 0 := fun h => by simp [h] at hdigits
        have hlead := Nat.getLast_digit_ne_zero 256 hzero
        simp only [hdigits] at hlead
        exact hlead
      dsimp only
      split
      · next htop =>
          have hlength : 2 ≤ ((low :: rest) ++ [0]).length := by simp
          have hend : ((low :: rest) ++ [0]).getLastD 0 = 0 := by
            rw [List.getLastD_eq_getLast?, List.getLast?_concat]
            rfl
          have hfront : ((low :: rest) ++ [0]).dropLast = low :: rest := List.dropLast_concat
          rw [trimSignByte, hfront, if_pos ⟨hlength, hend, htop⟩]
      · rw [trimSignByte, if_neg fun h => hlast h.2.1]

theorem exists_zeros (vch : Bytes) :
    ∃ zeros rest, vch = List.replicate zeros 0 ++ rest ∧ rest.head? ≠ some 0 := by
  refine ⟨(vch.takeWhile (· = 0)).length, vch.dropWhile (· = 0), ?_, ?_⟩
  · have hzeros : vch.takeWhile (· = 0) =
        List.replicate (vch.takeWhile (· = 0)).length 0 :=
      List.eq_replicate_of_mem fun b hb => by simpa using List.mem_takeWhile_imp hb
    conv_lhs => rw [← List.takeWhile_append_dropWhile (p := (· = 0)) (l := vch), hzeros]
  · intro hhead
    have hnot := List.head?_dropWhile_not (· = 0) vch
    rw [hhead] at hnot
    simp at hnot

variable {zeros : Nat} {rest : Bytes}

theorem encodeBase58_zeros (hhead : rest.head? ≠ some 0) :
    encodeBase58 (List.replicate zeros 0 ++ rest) =
      (List.replicate zeros 0 ++ radixDigits 58 (digitsValue 256 (rest.map UInt8.toNat))).map
        base58Char := by
  have hvalue : digitsValue 256 ((List.replicate zeros 0 ++ rest).map UInt8.toNat) =
      digitsValue 256 (rest.map UInt8.toNat) := by
    rw [List.map_append, List.map_replicate]
    exact digitsValue_zeros zeros
  have hzeros : (List.replicate zeros 0 ++ rest).takeWhile (· = 0) = List.replicate zeros 0 := by
    rw [List.takeWhile_append_of_pos fun b hb => by simp [List.eq_of_mem_replicate hb]]
    cases rest with
    | nil => simp
    | cons b rest => simp_all
  rw [encodeBase58, hvalue, hzeros]
  simp [radixDigits, List.map_reverse]

theorem decodeBase58_encodeBase58 (vch : Bytes) : decodeBase58 (encodeBase58 vch) = some vch := by
  obtain ⟨zeros, rest, rfl, hhead⟩ := exists_zeros vch
  let bn := digitsValue 256 (rest.map UInt8.toNat)
  let digits := List.replicate zeros 0 ++ radixDigits 58 bn
  have hdigit : ∀ d ∈ digits, d < 58 := by
    intro d hd
    rcases List.mem_append.mp hd with hd | hd
    · rw [List.eq_of_mem_replicate hd]
      decide
    · exact lt_of_mem_radixDigits (by decide) hd
  have hspace : (digits.map base58Char).dropWhile isSpace = digits.map base58Char :=
    List.dropWhile_eq_self_iff.mpr fun hlength => by
      obtain ⟨d, hd, heq⟩ := List.mem_map.mp (List.getElem_mem hlength)
      rw [← heq, isSpace_base58Char d (hdigit d hd)]
      exact Bool.false_ne_true
  have hall : ((digits.map base58Char).takeWhile fun c => (base58Digit c).isSome) =
      digits.map base58Char :=
    List.takeWhile_eq_self_iff.mpr fun c hc => by
      obtain ⟨d, hd, rfl⟩ := List.mem_map.mp hc
      rw [base58Digit_base58Char d (hdigit d hd)]
      rfl
  have hread : (digits.map base58Char).map (fun c => (base58Digit c).getD 0) = digits := by
    rw [List.map_map]
    refine (List.map_congr_left fun d hd => ?_).trans (List.map_id digits)
    rw [Function.comp, base58Digit_base58Char d (hdigit d hd)]
    rfl
  have hvalue : digitsValue 58 digits = bn := by
    rw [digitsValue_zeros, digitsValue_radixDigits]
  have hzeros : ((digits.map base58Char).takeWhile (· = base58Char 0)).length = zeros := by
    have hrest : ((radixDigits 58 bn).map base58Char).takeWhile (· = base58Char 0) = [] := by
      have hnot : (radixDigits 58 bn).head? ≠ some 0 := head?_radixDigits
      cases hradix : radixDigits 58 bn with
      | nil => rfl
      | cons d ds =>
          have hd : d < 58 := lt_of_mem_radixDigits (by decide) (hradix ▸ List.mem_cons_self)
          have hne : base58Char d ≠ base58Char 0 := fun h => by
            rw [hradix, base58Char_eq_zeroChar d hd h] at hnot
            exact hnot rfl
          rw [List.map_cons, List.takeWhile_cons_of_neg (by simpa using hne)]
    rw [List.map_append, List.takeWhile_append_of_pos fun c hc => by
      obtain ⟨d, hd, rfl⟩ := List.mem_map.mp hc
      simp [List.eq_of_mem_replicate hd], hrest]
    simp
  have hbytes : (Nat.digits 256 bn).reverse = rest.map UInt8.toNat := by
    apply radixDigits_digitsValue (by decide)
    · intro d hd
      obtain ⟨b, -, rfl⟩ := List.mem_map.mp hd
      exact b.toNat_lt
    · intro h
      apply hhead
      rw [List.head?_map] at h
      obtain ⟨b, hb, hzero⟩ := Option.map_eq_some_iff.mp h
      rw [hb, UInt8.toNat_inj.mp (hzero.trans UInt8.toNat_zero.symm)]
  have hback : (rest.map UInt8.toNat).map Nat.toUInt8 = rest := by
    rw [List.map_map]
    refine (List.map_congr_left fun b _ => ?_).trans (List.map_id rest)
    simp
  rw [encodeBase58_zeros hhead]
  change decodeBase58 (digits.map base58Char) = _
  unfold decodeBase58
  simp only [hspace, hall, hread, hvalue, hzeros, trimSignByte_getvch, ← List.map_reverse, hbytes,
    hback, List.drop_length]
  rfl

end Base58

/-! ## With a checksum -/

section Check

variable (Hash : Bytes → Digest)

def encodeBase58Check (vchIn : Bytes) : Bytes :=
  encodeBase58 (vchIn ++ (Hash vchIn).bytes.take 4)

def decodeBase58Check (psz : Bytes) : Option Bytes :=
  match decodeBase58 psz with
  | none => none
  | some vchRet =>
      if vchRet.length < 4 then none
      else
        let vchBody := vchRet.take (vchRet.length - 4)
        if (Hash vchBody).bytes.take 4 = vchRet.drop (vchRet.length - 4) then some vchBody
        else none

theorem decodeBase58Check_encodeBase58Check (vch : Bytes) :
    decodeBase58Check Hash (encodeBase58Check Hash vch) = some vch := by
  have hcheck : ((Hash vch).bytes.take 4).length = 4 := by
    rw [List.length_take, (Hash vch).length_eq]
    rfl
  have hlength : (vch ++ (Hash vch).bytes.take 4).length - 4 = vch.length := by
    rw [List.length_append, hcheck, Nat.add_sub_cancel]
  have hlong : ¬(vch ++ (Hash vch).bytes.take 4).length < 4 := by
    rw [List.length_append, hcheck]
    omega
  unfold decodeBase58Check encodeBase58Check
  rw [decodeBase58_encodeBase58]
  dsimp only
  rw [if_neg hlong, hlength, List.take_left, List.drop_left, if_pos rfl]

end Check

/-! ## Addresses -/

inductive Network where
  | main
  | testnet
  | regtest
  deriving DecidableEq

inductive Base58Type where
  | pubkeyAddress
  | scriptAddress
  deriving DecidableEq

/-- `Params().Base58Prefix`; the regression test inherits those of the test net. -/
def base58PrefixOf : Network → Base58Type → Bytes
  | .main, .pubkeyAddress => [0]
  | .main, .scriptAddress => [5]
  | _, .pubkeyAddress => [111]
  | _, .scriptAddress => [196]

structure CBitcoinAddress where
  vchVersion : Bytes
  vchData : Bytes
  deriving DecidableEq

section Address

variable (Hash : Bytes → Digest) (network : Network)

/-- `SetString` with one version byte. -/
def CBitcoinAddress.ofString (psz : Bytes) : CBitcoinAddress :=
  let vchTemp := (decodeBase58Check Hash psz).getD []
  if vchTemp.length < 1 then ⟨[], []⟩ else ⟨vchTemp.take 1, vchTemp.drop 1⟩

def CBitcoinAddress.isValid (addr : CBitcoinAddress) : Bool :=
  addr.vchData.length = 20 && (addr.vchVersion = base58PrefixOf network .pubkeyAddress ||
    addr.vchVersion = base58PrefixOf network .scriptAddress)

def CBitcoinAddress.toString (addr : CBitcoinAddress) : Bytes :=
  encodeBase58Check Hash (addr.vchVersion ++ addr.vchData)

def canonical? (psz : Bytes) : Option Bytes :=
  let addr := CBitcoinAddress.ofString Hash psz
  if addr.isValid network then some (addr.toString Hash) else none

theorem length_base58PrefixOf (type : Base58Type) : (base58PrefixOf network type).length = 1 := by
  cases network <;> cases type <;> rfl

theorem ofString_toString {addr : CBitcoinAddress} (hvalid : addr.isValid network) :
    CBitcoinAddress.ofString Hash (addr.toString Hash) = addr := by
  have hversion : addr.vchVersion.length = 1 := by
    simp only [CBitcoinAddress.isValid, Bool.and_eq_true, Bool.or_eq_true,
      decide_eq_true_eq] at hvalid
    rcases hvalid.2 with h | h <;> rw [h, length_base58PrefixOf]
  have hlength : ¬(addr.vchVersion ++ addr.vchData).length < 1 := by
    rw [List.length_append, hversion]
    omega
  unfold CBitcoinAddress.ofString CBitcoinAddress.toString
  rw [decodeBase58Check_encodeBase58Check, Option.getD_some]
  dsimp only
  rw [if_neg hlength, ← hversion, List.take_left, List.drop_left]

theorem canonical?_idem {psz a : Bytes} (h : canonical? Hash network psz = some a) :
    canonical? Hash network a = some a := by
  unfold canonical? at h
  dsimp only at h
  split at h
  · next hvalid =>
      obtain rfl := Option.some.inj h
      rw [canonical?, ofString_toString Hash network hvalid]
      exact if_pos hvalid
  · cases h

end Address

def examplePayload : Bytes :=
  [0, 98, 233, 7, 177, 92, 191, 39, 213, 66, 83, 153, 235, 246, 240, 251, 80, 235, 184, 143, 24]

def exampleHash (bytes : Bytes) : Digest :=
  if bytes = examplePayload then
    ⟨[194, 155, 125, 147, 126, 48, 73, 226, 121, 57, 30, 98, 253, 240, 12, 18, 222, 247, 68, 64,
      19, 221, 246, 33, 88, 8, 209, 14, 159, 45, 89, 150], rfl⟩
  else ⟨List.replicate 32 0, rfl⟩

/-- `1A1zP1eP5QGefi2DMPTfTL5SLmv7DivfNa` -/
def exampleAddress : Bytes :=
  [49, 65, 49, 122, 80, 49, 101, 80, 53, 81, 71, 101, 102, 105, 50, 68, 77, 80, 84, 102, 84, 76,
    53, 83, 76, 109, 118, 55, 68, 105, 118, 102, 78, 97]

example : canonical? exampleHash .main (32 :: exampleAddress) = some exampleAddress := by
  decide +kernel

end ExplorerKV.Bitcoin

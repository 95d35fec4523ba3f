import ExplorerKV.Foundation.CString
import ExplorerKV.Logs.Text

/-!
# URL parameters

`UrlEncode` and `UrlDecode` of `Util.cc`, as `cb_kv` uses them: the parameters
arrive joined by commas.  Both functions size their buffer first and write it
through a pointer.
-/

namespace ExplorerKV.Util

open Foundation Logs

def percent : UInt8 := 37

def plus : UInt8 := 43

def isUpper (c : UInt8) : Bool := 65 ≤ c && c ≤ 90

/-- `isalnum`, in the locale `C` -/
def isAlnum (c : UInt8) : Bool := isDigit c || isUpper c || (97 ≤ c && c ≤ 122)

/-- `isalnum`, `-`, `_`, `.` and `~` -/
def isUnreserved (c : UInt8) : Bool := isAlnum c || c = 45 || c = 95 || c = 46 || c = 126

/-- `from_hex`: on what is no hex digit too -/
def fromHex (ch : UInt8) : UInt8 :=
  if isDigit ch then ch - 48 else (if isUpper ch then ch + 32 else ch) - 97 + 10

def hexDigits : Vector UInt8 16 :=
  #v[48, 49, 50, 51, 52, 53, 54, 55, 56, 57, 65, 66, 67, 68, 69, 70]

/-- `to_hex`: the argument is a `char` again. -/
def toHex (code : UInt8) : UInt8 := hexDigits.get ⟨(code % 16).toNat, Nat.mod_lt _ (by decide)⟩

/-- `to_hex(*pstr >> 4)` -/
def hexHigh (c : UInt8) : UInt8 := toHex (charInt c >>> 4).toInt8.toUInt8

/-- `to_hex(*pstr & 0xFU)` -/
def hexLow (c : UInt8) : UInt8 := toHex (c &&& 0xf)

/-- `from_hex(pstr[1]) << 4 | from_hex(pstr[2])` -/
def fromHexPair (high low : UInt8) : UInt8 :=
  (charInt (fromHex high) <<< 4 ||| charInt (fromHex low)).toInt8.toUInt8

/-- One turn of the `while` of `UrlEncode`. -/
def putEncoded (size : Nat) (buf : Bytes) (c : UInt8) : Except MemFault Bytes :=
  if isUnreserved c then put size buf c
  else do
    let buf ← put size buf percent
    let buf ← put size buf (hexHigh c)
    put size buf (hexLow c)

def encodeLoop (str : CharPtr) (size : Nat) : Nat → Nat → Bytes → Except MemFault Bytes
  | 0, _, _ => .error .diverge
  | rounds + 1, i, buf => do
      let c ← charAt str i
      if c = 0 then put size buf 0
      else
        let buf ← putEncoded size buf c
        encodeLoop str size rounds (i + 1) buf

/-- `resize(strlen(c_str()))` cuts the result at its first `NUL`. -/
def UrlEncode (str : CharPtr) : Except MemFault Bytes :=
  (encodeLoop str (str.val.length * 3 + 1) (str.val.length + 1) 0 []).map fun buf => (cStr buf).val

def decodeLoop (str : CharPtr) (size : Nat) : Nat → Nat → Bytes → Except MemFault Bytes
  | 0, _, _ => .error .diverge
  | rounds + 1, i, buf => do
      let c ← charAt str i
      if c = 0 then put size buf 0
      else if c = percent then
        let high ← charAt str (i + 1)
        -- `pstr[2]` is looked at only behind a char that is not the `NUL`
        if high = 0 then decodeLoop str size rounds (i + 1) buf
        else
          let low ← charAt str (i + 2)
          if low = 0 then decodeLoop str size rounds (i + 1) buf
          else
            let buf ← put size buf (fromHexPair high low)
            decodeLoop str size rounds (i + 3) buf
      else
        let buf ← put size buf (if c = plus then 32 else c)
        decodeLoop str size rounds (i + 1) buf

def UrlDecode (str : CharPtr) : Except MemFault Bytes :=
  (decodeLoop str (str.val.length + 1) (str.val.length + 1) 0 []).map fun buf => (cStr buf).val

/-! ## What the two loops write -/

def encodeByte (c : UInt8) : Bytes :=
  if isUnreserved c then [c] else [percent, hexHigh c, hexLow c]

def decodeBytes : Bytes → Bytes
  | [] => []
  | c :: rest =>
      if c = percent then
        match rest with
        | high :: low :: rest => fromHexPair high low :: decodeBytes rest
        | rest => decodeBytes rest
      else (if c = plus then 32 else c) :: decodeBytes rest

theorem decodeBytes_pair (high low : UInt8) (rest : Bytes) :
    decodeBytes (percent :: high :: low :: rest) = fromHexPair high low :: decodeBytes rest := by
  rw [decodeBytes, if_pos rfl]

theorem decodeBytes_short {rest : Bytes}
    (h : ∀ high low rest', rest = high :: low :: rest' → False) :
    decodeBytes (percent :: rest) = decodeBytes rest := by
  match rest with
  | [] => rfl
  | [c] => rfl
  | high :: low :: rest => exact (h high low rest rfl).elim

theorem decodeBytes_cons {c : UInt8} (hc : c ≠ percent) (rest : Bytes) :
    decodeBytes (c :: rest) = (if c = plus then 32 else c) :: decodeBytes rest := by
  match rest with
  | [] => simp [decodeBytes, hc]
  | [d] => simp [decodeBytes, hc]
  | high :: low :: rest => rw [decodeBytes, if_neg hc]

theorem encodeByte_length (c : UInt8) : (encodeByte c).length ≤ 3 := by
  unfold encodeByte
  split <;> simp

theorem putEncoded_ok {size : Nat} {buf : Bytes} (h : buf.length + 3 ≤ size) (c : UInt8) :
    putEncoded size buf c = .ok (buf ++ encodeByte c) := by
  unfold putEncoded encodeByte
  split
  · exact put_ok (by omega) c
  · rw [put_ok (by omega)]
    simp only [bind, Except.bind]
    rw [put_ok (by simp; omega)]
    simp only []
    rw [put_ok (by simp; omega)]
    simp

variable {str : CharPtr}

theorem encodeLoop_eq (size rounds i : Nat) (buf : Bytes) {rest : Bytes}
    (hrest : str.val.drop i = rest) (hi : i ≤ str.val.length) (hrounds : rest.length < rounds)
    (hroom : buf.length + 3 * rest.length < size) :
    encodeLoop str size rounds i buf = .ok (buf ++ rest.flatMap encodeByte ++ [0]) := by
  induction rest generalizing rounds i buf with
  | nil =>
      cases rounds with
      | zero => omega
      | succ rounds =>
          rw [encodeLoop, charAt_end hrest hi]
          change put size buf 0 = _
          rw [put_ok (by simpa using hroom)]
          simp
  | cons c rest ih =>
      cases rounds with
      | zero => omega
      | succ rounds =>
          have hlength := encodeByte_length c
          simp only [List.length_cons] at hrounds hroom
          rw [encodeLoop, charAt_cons hrest]
          simp only [bind, Except.bind, if_neg (ne_zero_of_drop hrest)]
          rw [putEncoded_ok (by omega)]
          simp only []
          rw [ih rounds (i + 1) _ (drop_succ_of_drop hrest) (lt_of_drop_cons hrest) (by omega)
            (by simp only [List.length_append]; omega)]
          simp

theorem UrlEncode_eq (str : CharPtr) :
    UrlEncode str = .ok (cStr (str.val.flatMap encodeByte ++ [0])).val := by
  rw [UrlEncode, encodeLoop_eq _ _ 0 [] rfl (Nat.zero_le _) (by simp) (by simp; omega)]
  rfl

theorem fromHexPair_hex_ofFin (c : Fin 256) :
    fromHexPair (hexHigh (UInt8.ofFin c)) (hexLow (UInt8.ofFin c)) = UInt8.ofFin c := by
  revert c
  decide +kernel

theorem fromHexPair_hex (c : UInt8) : fromHexPair (hexHigh c) (hexLow c) = c :=
  fromHexPair_hex_ofFin c.toFin

theorem isUnreserved_ofFin (c : Fin 256) (h : isUnreserved (UInt8.ofFin c) = true) :
    UInt8.ofFin c ≠ percent ∧ UInt8.ofFin c ≠ plus := by
  revert c
  decide +kernel

theorem decodeBytes_encodeByte (c : UInt8) (rest : Bytes) :
    decodeBytes (encodeByte c ++ rest) = c :: decodeBytes rest := by
  unfold encodeByte
  split
  · next h =>
      obtain ⟨hpercent, hplus⟩ := isUnreserved_ofFin c.toFin h
      change c ≠ percent at hpercent
      change c ≠ plus at hplus
      rw [List.singleton_append, decodeBytes_cons hpercent, if_neg hplus]
  · change decodeBytes (percent :: hexHigh c :: hexLow c :: rest) = _
    rw [decodeBytes_pair, fromHexPair_hex]

theorem decodeBytes_encode (s : Bytes) : decodeBytes (s.flatMap encodeByte) = s := by
  induction s with
  | nil => rfl
  | cons c s ih => rw [List.flatMap_cons, decodeBytes_encodeByte, ih]

theorem decodeLoop_eq (size rounds i : Nat) (buf : Bytes) {rest : Bytes}
    (hrest : str.val.drop i = rest) (hi : i ≤ str.val.length) (hrounds : rest.length < rounds)
    (hroom : buf.length + rest.length < size) :
    decodeLoop str size rounds i buf = .ok (buf ++ decodeBytes rest ++ [0]) := by
  induction rest using decodeBytes.induct generalizing rounds i buf with
  | case1 =>
      cases rounds with
      | zero => omega
      | succ rounds =>
          rw [decodeLoop, charAt_end hrest hi]
          change put size buf 0 = _
          rw [put_ok (by simpa using hroom)]
          simp [decodeBytes]
  | case2 high low rest ih =>
      cases rounds with
      | zero => omega
      | succ rounds =>
          have hhigh := drop_succ_of_drop hrest
          have hlow := drop_succ_of_drop hhigh
          simp only [List.length_cons] at hrounds hroom
          rw [decodeLoop, charAt_cons hrest]
          simp only [bind, Except.bind, if_neg (ne_zero_of_drop hrest), if_true]
          rw [charAt_cons hhigh]
          simp only [if_neg (ne_zero_of_drop hhigh)]
          rw [charAt_cons hlow]
          simp only [if_neg (ne_zero_of_drop hlow)]
          rw [put_ok (by omega)]
          simp only []
          rw [ih rounds (i + 3) _ (drop_succ_of_drop hlow) (lt_of_drop_cons hlow) (by omega)
            (by simp only [List.length_append, List.length_singleton]; omega), decodeBytes_pair]
          simp
  | case3 rest hshort ih =>
      cases rounds with
      | zero => omega
      | succ rounds =>
          have hnext := drop_succ_of_drop hrest
          have hi' := lt_of_drop_cons hrest
          simp only [List.length_cons] at hrounds hroom
          have hskip := ih rounds (i + 1) buf hnext hi' (by omega) (by omega)
          rw [decodeLoop, charAt_cons hrest, decodeBytes_short hshort, ← hskip]
          simp only [bind, Except.bind, if_neg (ne_zero_of_drop hrest), if_true]
          -- the percent sign has at most one char behind it
          match rest with
          | [] =>
              rw [charAt_end hnext hi']
              rfl
          | [c] =>
              rw [charAt_cons hnext]
              simp only [if_neg (ne_zero_of_drop hnext)]
              rw [charAt_end (drop_succ_of_drop hnext) (lt_of_drop_cons hnext)]
              rfl
          | high :: low :: rest => exact (hshort high low rest rfl).elim
  | case4 c rest hc ih =>
      cases rounds with
      | zero => omega
      | succ rounds =>
          simp only [List.length_cons] at hrounds hroom
          rw [decodeLoop, charAt_cons hrest]
          simp only [bind, Except.bind, if_neg (ne_zero_of_drop hrest), if_neg hc]
          rw [put_ok (by omega)]
          simp only []
          rw [ih rounds (i + 1) _ (drop_succ_of_drop hrest) (lt_of_drop_cons hrest) (by omega)
            (by simp only [List.length_append, List.length_singleton]; omega), decodeBytes_cons hc]
          simp

theorem UrlDecode_eq (str : CharPtr) :
    UrlDecode str = .ok (cStr (decodeBytes str.val ++ [0])).val := by
  rw [UrlDecode, decodeLoop_eq _ _ 0 [] rfl (Nat.zero_le _) (by simp) (by simp)]
  rfl

/-! ## The parameters of a request -/

theorem encodeByte_plain_ofFin (c : Fin 256) :
    (encodeByte (UInt8.ofFin c)).all (fun x => x ≠ comma ∧ x ≠ 0) = true := by
  revert c
  decide +kernel

theorem not_mem_flatMap_encodeByte (s : Bytes) :
    comma ∉ s.flatMap encodeByte ∧ (0 : UInt8) ∉ s.flatMap encodeByte := by
  have hplain : ∀ x ∈ s.flatMap encodeByte, x ≠ comma ∧ x ≠ 0 := by
    intro x hx
    obtain ⟨c, -, hx⟩ := List.mem_flatMap.mp hx
    simpa using List.all_eq_true.mp (encodeByte_plain_ofFin c.toFin) x hx
  exact ⟨fun h => (hplain _ h).1 rfl, fun h => (hplain _ h).2 rfl⟩

theorem flatMap_encodeByte_ne_nil {s : Bytes} (h : s ≠ []) : s.flatMap encodeByte ≠ [] := by
  intro hnil
  apply h
  rw [← decodeBytes_encode s, hnil]
  rfl

theorem UrlEncode_ok (str : CharPtr) : UrlEncode str = .ok (str.val.flatMap encodeByte) := by
  rw [UrlEncode_eq, cStr_terminated (not_mem_flatMap_encodeByte _).2]

theorem UrlDecode_encoded (str : CharPtr) :
    UrlDecode (cStr (str.val.flatMap encodeByte)) = .ok str.val := by
  rw [UrlDecode_eq, cStr_of_not_mem (not_mem_flatMap_encodeByte _).2, decodeBytes_encode,
    cStr_terminated str.property]

theorem split_encoded (params : List CharPtr) (hne : params ≠ [])
    (hparts : ∀ param ∈ params, param.val ≠ []) :
    splitAll ([comma].intercalate (params.map fun param => param.val.flatMap encodeByte)) comma =
      params.map fun param => param.val.flatMap encodeByte := by
  apply splitAll_intercalate
  · exact fun hnil => hne (List.map_eq_nil_iff.mp hnil)
  · intro piece hpiece
    obtain ⟨param, -, rfl⟩ := List.mem_map.mp hpiece
    exact (not_mem_flatMap_encodeByte _).1
  · intro hlast
    obtain ⟨param, hparam, hnil⟩ := List.mem_map.mp (List.mem_of_getLast? hlast)
    exact flatMap_encodeByte_ne_nil (hparts param hparam) hnil

/--
Parameters that are joined by commas come back from `split` and `UrlDecode`; and
`UrlDecode` stays inside its argument and its buffer, whatever the argument.
-/
theorem urlDecode_urlEncode :
    (∀ params : List CharPtr, params ≠ [] → (∀ param ∈ params, param.val ≠ []) →
      ∃ encoded, params.mapM UrlEncode = .ok encoded ∧
        (splitAll ([comma].intercalate encoded) comma).mapM (fun param => UrlDecode (cStr param)) =
          .ok (params.map Subtype.val)) ∧
      ∀ str : CharPtr, ∃ decoded, UrlDecode str = .ok decoded := by
  constructor
  · intro params hne hparts
    refine ⟨_, mapM_ok fun param _ => UrlEncode_ok param, ?_⟩
    rw [split_encoded params hne hparts, List.mapM_map]
    exact mapM_ok fun param _ => UrlDecode_encoded param
  · exact fun str => ⟨_, UrlDecode_eq str⟩

-- `fo%20%2B+%2`: the escape at the end is cut off
example : (UrlDecode (cStr [102, 111, 37, 50, 48, 37, 50, 66, 43, 37, 50])).toOption =
    some [102, 111, 32, 43, 32, 50] := by
  decide +kernel

end ExplorerKV.Util

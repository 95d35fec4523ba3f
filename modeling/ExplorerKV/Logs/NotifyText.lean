import ExplorerKV.Foundation.Digits
import ExplorerKV.Logs.Notify

/-!
# Writing a notification and reading it back

`NotifyItem::toStr` prints the columns of an item, two layouts for two kinds;
`NotifyItem::parse` splits at the commas and converts each column.  The time
column is printed by `strftime` and read by `strptime`, which are parameters.
-/

namespace ExplorerKV.Logs

open Bitcoin Foundation

structure NotifyItem where
  timestamp : UInt32
  type : Int32
  height : Int32
  amount : Int64
  hash : Uint256
  /-- the characters of `address_` before its NUL -/
  address : Bytes
  deriving DecidableEq, Repr

/-! ## Printing -/

/-- A digit of `%02x`. -/
def hexByte (d : Nat) : UInt8 := if d < 10 then 48 + d.toUInt8 else 87 + d.toUInt8

/-- `uint256::ToString` -/
def hashText (hash : Uint256) : Bytes := (fixedDigits 16 64 hash.val).map hexByte

/-- The columns `toStr` prints; none of an unknown type. -/
def NotifyItem.columns (date : UInt32 → Bytes) (item : NotifyItem) : List Bytes :=
  if isTxEvent item.type.toInt then
    [date item.timestamp, intText item.type.toInt, item.address, intText item.height.toInt,
      hashText item.hash, intText item.amount.toInt]
  else if isBlockEvent item.type.toInt then
    [date item.timestamp, intText item.type.toInt, intText item.height.toInt, hashText item.hash]
  else []

def NotifyItem.toStr (date : UInt32 → Bytes) (item : NotifyItem) : Bytes :=
  [comma].intercalate (item.columns date)

/-! ## Parsing -/

/--
`NotifyItem::parse` with the time column and the widths of the fields; `none`
where it returns false or an assertion fails.
-/
def NotifyItem.parse (str2time : Bytes → Int) (line : Bytes) : Option NotifyItem :=
  match split line comma 6, Logs.parse line with
  | timeText :: _, .item event => some
      { timestamp := .ofInt (str2time timeText)
        type := .ofInt event.type
        height := .ofInt event.height
        amount := .ofInt event.amount
        hash := event.hash
        address := event.address }
  | _, _ => none

/-! ## Columns read back -/

theorem isDigit_of_mem {n : Nat} {b : UInt8} (h : b ∈ decimalText n) : isDigit b := by
  have hrange := mem_decimalText h
  simp [isDigit, hrange.1, hrange.2]

theorem decimalValue_decimalText (n : Nat) : decimalValue (decimalText n) = n := by
  rw [decimalValue, List.takeWhile_eq_self_iff.mpr fun b hb => isDigit_of_mem hb,
    foldl_decimalText]

theorem isSpace_of_isDigit {b : UInt8} (h : isDigit b) : isSpace b = false := by
  simp only [isDigit, isSpace, Bool.and_eq_true, decide_eq_true_eq, UInt8.le_iff_toNat_le,
    Bool.or_eq_false_iff, Bool.and_eq_false_iff, decide_eq_false_iff_not] at h ⊢
  have hlow : (48 : UInt8).toNat = 48 := rfl
  have hnine : (9 : UInt8).toNat = 9 := rfl
  have hlast : (13 : UInt8).toNat = 13 := rfl
  refine ⟨fun heq => ?_, .inr ?_⟩
  · rw [heq] at h
    exact absurd h.1 (by decide)
  · omega

theorem signedValue_of_isDigit {b : UInt8} {s : Bytes} (h : isDigit b) :
    signedValue (b :: s) = decimalValue (b :: s) := by
  unfold signedValue
  rw [List.dropWhile_cons_of_neg (by simp [isSpace_of_isDigit h])]
  split
  · next heq =>
      rw [(List.cons.inj heq).1] at h
      exact absurd h (by decide)
  · next heq =>
      rw [(List.cons.inj heq).1] at h
      exact absurd h (by decide)
  · rfl

theorem signedValue_intText (i : Int) : signedValue (intText i) = i := by
  cases i with
  | ofNat n =>
      cases htext : decimalText n with
      | nil => exact absurd htext (by simp [decimalText, decimalDigits_ne_nil])
      | cons b s =>
          have hdigit : isDigit b := isDigit_of_mem (n := n) (by simp [htext])
          rw [intText, htext, signedValue_of_isDigit hdigit, ← htext, decimalValue_decimalText]
          rfl
  | negSucc n =>
      change -(decimalValue (decimalText (n + 1)) : Int) = Int.negSucc n
      rw [decimalValue_decimalText]
      rfl

theorem strtol_intText {i : Int} (hlow : -2 ^ 63 ≤ i) (hhigh : i < 2 ^ 63) :
    strtol (intText i) = i := by
  rw [strtol, signedValue_intText]
  omega

theorem atoi_intText_of_lt {i : Int} (hlow : -2 ^ 63 ≤ i) (hhigh : i < 2 ^ 63) :
    atoi (intText i) = .ofInt i := by
  rw [atoi, strtol_intText hlow hhigh]

theorem atoi_intText (n : Int32) : atoi (intText n.toInt) = n := by
  have hlow := n.le_toInt
  have hhigh := n.toInt_lt
  rw [atoi_intText_of_lt (by omega) (by omega), Int32.ofInt_toInt]

theorem atoll_intText (n : Int64) : atoll (intText n.toInt) = n := by
  rw [atoll, strtol_intText n.le_toInt n.toInt_lt, Int64.ofInt_toInt]

theorem comma_not_mem_intText (i : Int) : comma ∉ intText i :=
  not_mem_intText (by decide) (.inl (by decide)) i

theorem intText_ne_nil (i : Int) : intText i ≠ [] := by
  cases i with
  | ofNat n => simp [intText, decimalText, decimalDigits_ne_nil]
  | negSucc n => simp [intText]

theorem hexDigit_hexByte : ∀ d < 16, hexDigit (hexByte d) = some d := by
  decide

theorem hexByte_ne : ∀ d < 16, hexByte d ≠ comma ∧ isSpace (hexByte d) = false ∧
    hexByte d ≠ 120 ∧ hexByte d ≠ 88 := by
  decide

theorem mem_hashText {hash : Uint256} {b : UInt8} (h : b ∈ hashText hash) :
    b ≠ comma ∧ isSpace b = false ∧ b ≠ 120 ∧ b ≠ 88 := by
  obtain ⟨d, hd, rfl⟩ := List.mem_map.mp h
  exact hexByte_ne d (lt_of_mem_fixedDigits (by decide) hd)

theorem uint256OfHex_hashText (hash : Uint256) : uint256OfHex (hashText hash) = hash := by
  have hdrop : (hashText hash).dropWhile isSpace = hashText hash :=
    List.dropWhile_eq_self_iff.mpr fun hlength => by
      simp [(mem_hashText (List.getElem_mem hlength)).2.1]
  have hplain : ¬((hashText hash).take 2 = [48, 120] ∨ (hashText hash).take 2 = [48, 88]) := by
    rintro (h | h)
    · have hmem : (120 : UInt8) ∈ (hashText hash).take 2 := by simp [h]
      exact (mem_hashText (List.mem_of_mem_take hmem)).2.2.1 rfl
    · have hmem : (88 : UInt8) ∈ (hashText hash).take 2 := by simp [h]
      exact (mem_hashText (List.mem_of_mem_take hmem)).2.2.2 rfl
  have hdigits : (hashText hash).map hexDigit = (fixedDigits 16 64 hash.val).map some := by
    rw [hashText, List.map_map]
    exact List.map_congr_left fun d hd => hexDigit_hexByte d (lt_of_mem_fixedDigits (by decide) hd)
  have hall : ((fixedDigits 16 64 hash.val).map some).takeWhile Option.isSome =
      (fixedDigits 16 64 hash.val).map some :=
    List.takeWhile_eq_self_iff.mpr fun d hd => by
      obtain ⟨_, -, rfl⟩ := List.mem_map.mp hd
      rfl
  have hsome : ((fixedDigits 16 64 hash.val).map some).reduceOption =
      fixedDigits 16 64 hash.val := by
    simp [List.reduceOption]
  have hvalue : digitsValue 16 (fixedDigits 16 64 hash.val) = hash.val := by
    rw [digitsValue_fixedDigits, show 16 ^ 64 = 2 ^ 256 by norm_num, Nat.mod_eq_of_lt hash.isLt]
  unfold uint256OfHex
  rw [hdrop]
  dsimp only
  rw [if_neg hplain, hdigits, hall, hsome]
  apply Fin.ext
  rw [Fin.val_ofNat, ← digitsValue, hvalue, Nat.mod_eq_of_lt hash.isLt]

/-! ## The round trip -/

theorem split_intercalate {columns : List Bytes} {limit : Nat} (hne : columns ≠ [])
    (hplain : ∀ column ∈ columns, comma ∉ column) (hlast : columns.getLast? ≠ some [])
    (hlimit : columns.length ≤ limit) :
    split ([comma].intercalate columns) comma limit = columns := by
  rw [split_eq_take, splitAll_intercalate hne hplain hlast, List.take_of_length_le hlimit]

/-- A type the format knows, with what a block leaves empty, and an address that fits. -/
structure NotifyItem.Defined (item : NotifyItem) : Prop where
  type : isTxEvent item.type.toInt ∨
    isBlockEvent item.type.toInt ∧ item.address = [] ∧ item.amount = 0
  length : item.address.length ≤ 35
  plain : ∀ b ∈ item.address, b ≠ comma ∧ b ≠ newline ∧ b ≠ 0

section RoundTrip

variable {date : UInt32 → Bytes} {str2time : Bytes → Int} {item : NotifyItem}

theorem not_tx_of_block {type : Int} (h : isBlockEvent type) : isTxEvent type = false := by
  simp only [isBlockEvent, isTxEvent, Bool.and_eq_true, decide_eq_true_eq, Bool.and_eq_false_iff,
    decide_eq_false_iff_not] at h ⊢
  omega

/-- With a date text that is read back, an item of a defined type is read back. -/
theorem parse_toStr (hdefined : item.Defined) (hcomma : comma ∉ date item.timestamp)
    (hdate : str2time (date item.timestamp) = item.timestamp.toNat) :
    NotifyItem.parse str2time (item.toStr date) = some item := by
  have hhash : comma ∉ hashText item.hash := fun h => (mem_hashText h).1 rfl
  have haddress : comma ∉ item.address := fun h => (hdefined.plain _ h).1 rfl
  have hfits : (item.address.takeWhile (· ≠ 0)).take 35 = item.address := by
    rw [List.takeWhile_eq_self_iff.mpr fun b hb => by simpa using (hdefined.plain b hb).2.2,
      List.take_of_length_le hdefined.length]
  have htime : UInt32.ofInt (item.timestamp.toNat : Int) = item.timestamp := by
    have hlt := item.timestamp.toNat_lt
    have hmod : (item.timestamp.toNat : Int) % 2 ^ 32 = item.timestamp.toNat := by omega
    rw [UInt32.ofInt, hmod, Int.toNat_natCast, UInt32.ofNat_toNat]
  rcases hdefined.type with htx | ⟨hblock, hempty, hzero⟩
  · have hsplit : split (item.toStr date) comma 6 = [date item.timestamp,
        intText item.type.toInt, item.address, intText item.height.toInt, hashText item.hash,
        intText item.amount.toInt] := by
      rw [NotifyItem.toStr, NotifyItem.columns, if_pos htx]
      apply split_intercalate (by simp)
      · simp [hcomma, haddress, hhash, comma_not_mem_intText]
      · simp [intText_ne_nil]
      · simp
    have hevent : Logs.parse (item.toStr date) = .item ⟨item.type.toInt, item.height.toInt,
        item.amount.toInt, item.hash, item.address⟩ := by
      simp only [Logs.parse, hsplit, atoi_intText, atoll_intText, uint256OfHex_hashText, hfits,
        if_pos htx]
    simp only [NotifyItem.parse, hsplit, hevent, hdate, htime, Int32.ofInt_toInt,
      Int64.ofInt_toInt]
  · have htx := not_tx_of_block hblock
    have hsplit : split (item.toStr date) comma 6 = [date item.timestamp,
        intText item.type.toInt, intText item.height.toInt, hashText item.hash] := by
      rw [NotifyItem.toStr, NotifyItem.columns, if_neg (by simp [htx]), if_pos hblock]
      apply split_intercalate (by simp)
      · simp [hcomma, hhash, comma_not_mem_intText]
      · simp [hashText, fixedDigits]
      · simp
    have hevent : Logs.parse (item.toStr date) = .item ⟨item.type.toInt, item.height.toInt, 0,
        item.hash, []⟩ := by
      simp only [Logs.parse, hsplit, atoi_intText, uint256OfHex_hashText, htx, if_pos hblock,
        Bool.false_eq_true, if_false]
    have hamount : Int64.ofInt 0 = item.amount := hzero.symm
    simp only [NotifyItem.parse, hsplit, hevent, hdate, htime, Int32.ofInt_toInt, hamount,
      ← hempty]

end RoundTrip

/-- `2016-01-01 12:13:14` -/
def exampleDate : Bytes :=
  [50, 48, 49, 54, 45, 48, 49, 45, 48, 49, 32, 49, 50, 58, 49, 51, 58, 49, 52]

def exampleNotifyItem : NotifyItem where
  timestamp := 1451650394
  type := 20
  height := -1
  amount := 725865
  hash := 0xf3f13a843b8f69a850ad8e45becae5ccd9cc3f5c85f5eb78a54bb9971c50ed9b
  address :=
    [49, 56, 75, 115, 118, 69, 120, 53, 122, 104, 78, 116, 115, 97, 116, 66, 115, 84, 113,
     68, 118, 75, 86, 53, 119, 107, 55, 51, 71, 119, 83, 100, 88, 120]

theorem parse_toStr_example : NotifyItem.parse (fun _ => 1451650394)
    (exampleNotifyItem.toStr fun _ => exampleDate) = some exampleNotifyItem :=
  parse_toStr ⟨.inl (by decide), by decide, by decide +kernel⟩ (by decide) (by decide)

end ExplorerKV.Logs

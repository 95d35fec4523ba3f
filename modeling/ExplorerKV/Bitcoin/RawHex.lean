import ExplorerKV.Bitcoin.Serialize
import ExplorerKV.Logs.NotifyText

/-!
# Raw transactions and blocks as text

`EncodeHexTx`, `DecodeHexTx` and their two siblings of `Util.cc`: the form in
which the log1 files and the raw tables hold transactions and blocks.  Decoding
takes both cases of the digits and does not look at what follows the value.
-/

namespace ExplorerKV.Bitcoin.Wire

open Foundation Logs

/-! ## Hex text -/

def hexStr (bytes : Bytes) : Bytes :=
  bytes.flatMap fun val : UInt8 => [hexByte (val >>> 4).toNat, hexByte (val &&& 15).toNat]

def isHex (str : Bytes) : Bool :=
  str.all (fun c => (hexDigit c).isSome) && decide (0 < str.length) && decide (str.length % 2 = 0)

def parseHex (psz : Bytes) : Bytes :=
  match _hdrop : psz.dropWhile isSpace with
  | high :: low :: rest =>
      match hexDigit high, hexDigit low with
      | some c, some c' => UInt8.ofNat (c * 16 + c') :: parseHex rest
      | _, _ => []
  | _ => []
  termination_by psz.length
  decreasing_by
    have hle := (List.dropWhile_sublist isSpace (l := psz)).length_le
    simp only [_hdrop, List.length_cons] at hle
    omega

/-- A digit in the case `HexStr` prints it. -/
def lowerDigit (c : UInt8) : UInt8 := if 65 ≤ c ∧ c ≤ 70 then c + 32 else c

theorem hexDigit_ofFin : ∀ c : Fin 256, ∀ d, hexDigit (UInt8.ofFin c) = some d →
    d < 16 ∧ hexByte d = lowerDigit (UInt8.ofFin c) ∧ isSpace (UInt8.ofFin c) = false := by
  decide +kernel

theorem hexDigit_eq_some {c : UInt8} {d : Nat} (h : hexDigit c = some d) :
    d < 16 ∧ hexByte d = lowerDigit c ∧ isSpace c = false :=
  hexDigit_ofFin c.toFin d h

theorem hexDigit_lowerDigit_ofFin : ∀ c : Fin 256,
    hexDigit (lowerDigit (UInt8.ofFin c)) = hexDigit (UInt8.ofFin c) := by
  decide +kernel

theorem hexDigit_lowerDigit (c : UInt8) : hexDigit (lowerDigit c) = hexDigit c :=
  hexDigit_lowerDigit_ofFin c.toFin

theorem ofNat_hex_ofFin : ∀ val : Fin 256,
    UInt8.ofNat ((UInt8.ofFin val >>> 4).toNat * 16 + (UInt8.ofFin val &&& 15).toNat) =
      UInt8.ofFin val := by
  decide +kernel

theorem hex_lt_ofFin : ∀ val : Fin 256,
    (UInt8.ofFin val >>> 4).toNat < 16 ∧ (UInt8.ofFin val &&& 15).toNat < 16 := by
  decide +kernel

theorem hex_lt (val : UInt8) : (val >>> 4).toNat < 16 ∧ (val &&& 15).toNat < 16 :=
  hex_lt_ofFin val.toFin

theorem hex_ofNat : ∀ high < 16, ∀ low < 16,
    (UInt8.ofNat (high * 16 + low) >>> 4).toNat = high ∧
      (UInt8.ofNat (high * 16 + low) &&& 15).toNat = low := by
  decide +kernel

theorem parseHex_pair {high low : UInt8} {c c' : Nat} (hhigh : hexDigit high = some c)
    (hlow : hexDigit low = some c') (rest : Bytes) :
    parseHex (high :: low :: rest) = UInt8.ofNat (c * 16 + c') :: parseHex rest := by
  have hdrop : (high :: low :: rest).dropWhile isSpace = high :: low :: rest :=
    List.dropWhile_cons_of_neg (by simp [(hexDigit_eq_some hhigh).2.2])
  rw [parseHex]
  split
  · rename_i heq
    simp only [hdrop, List.cons.injEq] at heq
    obtain ⟨rfl, rfl, rfl⟩ := heq
    rw [hhigh, hlow]
  · rename_i hne
    exact absurd hdrop (hne _ _ _)

@[simp] theorem hexStr_append (bytes bytes' : Bytes) :
    hexStr (bytes ++ bytes') = hexStr bytes ++ hexStr bytes' :=
  List.flatMap_append

theorem hexStr_cons (val : UInt8) (bytes : Bytes) : hexStr (val :: bytes) =
    hexByte (val >>> 4).toNat :: hexByte (val &&& 15).toNat :: hexStr bytes :=
  rfl

theorem length_hexStr (bytes : Bytes) : (hexStr bytes).length = 2 * bytes.length := by
  induction bytes with
  | nil => rfl
  | cons val bytes ih =>
      rw [hexStr_cons, List.length_cons, List.length_cons, ih, List.length_cons]
      ring

theorem parseHex_nil : parseHex [] = [] := by
  rw [parseHex]
  rfl

theorem parseHex_hexStr (bytes : Bytes) : parseHex (hexStr bytes) = bytes := by
  induction bytes with
  | nil => exact parseHex_nil
  | cons val bytes ih =>
      obtain ⟨hhigh, hlow⟩ := hex_lt val
      rw [hexStr_cons, parseHex_pair (hexDigit_hexByte _ hhigh) (hexDigit_hexByte _ hlow), ih]
      exact congrArg (· :: bytes) (ofNat_hex_ofFin val.toFin)

theorem hexStr_parseHex {hex : Bytes} (hdigits : ∀ c ∈ hex, (hexDigit c).isSome)
    (heven : hex.length % 2 = 0) : hexStr (parseHex hex) = hex.map lowerDigit := by
  induction hex using List.twoStepInduction with
  | nil => rw [parseHex_nil]; rfl
  | singleton c => simp at heven
  | cons_cons high low rest ih =>
      obtain ⟨c, hhigh⟩ := Option.isSome_iff_exists.mp (hdigits high (.head _))
      obtain ⟨c', hlow⟩ := Option.isSome_iff_exists.mp (hdigits low (.tail _ (.head _)))
      obtain ⟨hlt, hchar, -⟩ := hexDigit_eq_some hhigh
      obtain ⟨hlt', hchar', -⟩ := hexDigit_eq_some hlow
      obtain ⟨hshift, hmask⟩ := hex_ofNat c hlt c' hlt'
      simp only [List.length_cons] at heven
      rw [parseHex_pair hhigh hlow, hexStr_cons, hshift, hmask, hchar, hchar',
        ih (fun c hc => hdigits c (.tail _ (.tail _ hc))) (by omega)]
      rfl

theorem isHex_iff (hex : Bytes) : isHex hex ↔
    (∀ c ∈ hex, (hexDigit c).isSome) ∧ hex ≠ [] ∧ hex.length % 2 = 0 := by
  simp [isHex, List.length_pos_iff, and_assoc]

theorem isSome_of_mem_hexStr {bytes : Bytes} {c : UInt8} (h : c ∈ hexStr bytes) :
    (hexDigit c).isSome := by
  obtain ⟨val, -, hc⟩ := List.mem_flatMap.mp h
  obtain ⟨hhigh, hlow⟩ := hex_lt val
  rw [List.mem_pair] at hc
  obtain rfl | rfl := hc
  · exact Option.isSome_iff_exists.mpr ⟨_, hexDigit_hexByte _ hhigh⟩
  · exact Option.isSome_iff_exists.mpr ⟨_, hexDigit_hexByte _ hlow⟩

theorem isHex_parseHex_iff {hex bytes : Bytes} (hne : bytes ≠ []) :
    isHex hex ∧ parseHex hex = bytes ↔ hex.map lowerDigit = hexStr bytes := by
  rw [isHex_iff]
  constructor
  · rintro ⟨⟨hdigits, -, heven⟩, rfl⟩
    exact (hexStr_parseHex hdigits heven).symm
  · intro h
    have hlength := congrArg List.length h
    rw [List.length_map, length_hexStr] at hlength
    have hdigits : ∀ c ∈ hex, (hexDigit c).isSome := fun c hc => by
      rw [← hexDigit_lowerDigit]
      exact isSome_of_mem_hexStr (h ▸ List.mem_map_of_mem hc)
    refine ⟨⟨hdigits, fun heq => hne ?_, by omega⟩, ?_⟩
    · rw [heq, List.length_nil] at hlength
      exact List.length_eq_zero_iff.mp (by omega)
    · rw [← parseHex_hexStr (parseHex hex), hexStr_parseHex hdigits (by omega), h, parseHex_hexStr]

/-! ## Transactions and blocks -/

def encodeHexTx (tx : CTransaction) : Bytes := hexStr tx.serialize

def encodeHexBlock (block : CBlock) : Bytes := hexStr block.serialize

/-- `none` is the result `false`. -/
def decodeHex {α : Type} (unserialize : ReadM α) (hex : Bytes) : Option α :=
  if isHex hex then (unserialize.run (parseHex hex)).map Prod.fst else none

def decodeHexTx (hex : Bytes) : Option CTransaction := decodeHex CTransaction.unserialize hex

def decodeHexBlk (hex : Bytes) : Option CBlock := decodeHex CBlock.unserialize hex

theorem decodeHex_eq_some_iff {α : Type} {fits : α → Prop} {serialize : α → Bytes}
    {unserialize : ReadM α} (h : Codec fits serialize unserialize) (hne : ∀ a, serialize a ≠ [])
    {hex : Bytes} {a : α} : decodeHex unserialize hex = some a ↔
      fits a ∧ ∃ rest, hex.map lowerDigit = hexStr (serialize a) ++ hexStr rest := by
  have hrest : ∀ rest, serialize a ++ rest ≠ [] := fun rest => by simp [hne a]
  rw [decodeHex]
  constructor
  · intro hdecode
    by_cases hhex : isHex hex
    · rw [if_pos hhex, Option.map_eq_some_iff] at hdecode
      obtain ⟨⟨b, rest⟩, hrun, rfl⟩ := hdecode
      obtain ⟨hfits, hbytes⟩ := (h _ _ _).mp hrun
      refine ⟨hfits, rest, ?_⟩
      rw [← hexStr_append]
      exact (isHex_parseHex_iff (hrest rest)).mp ⟨hhex, hbytes⟩
    · rw [if_neg hhex] at hdecode
      cases hdecode
  · rintro ⟨hfits, rest, htext⟩
    rw [← hexStr_append] at htext
    obtain ⟨hhex, hbytes⟩ := (isHex_parseHex_iff (hrest rest)).mpr htext
    rw [if_pos hhex, hbytes, h.read_write hfits]
    rfl

theorem serialize_ne_nil (tx : CTransaction) : tx.serialize ≠ [] := fun h => by
  have hlength := congrArg List.length h
  simp [CTransaction.serialize, serializeInt32] at hlength

theorem serialize_header_ne_nil (header : CBlockHeader) : header.serialize ≠ [] := fun h => by
  have hlength := congrArg List.length h
  simp [CBlockHeader.serialize, serializeInt32] at hlength

theorem serialize_block_ne_nil (block : CBlock) : block.serialize ≠ [] := fun h =>
  serialize_header_ne_nil _ (List.append_eq_nil_iff.mp h).1

theorem hexStr_lower (bytes : Bytes) : (hexStr bytes).map lowerDigit = hexStr bytes := by
  rw [← hexStr_parseHex (fun c hc => isSome_of_mem_hexStr hc) (by rw [length_hexStr]; omega),
    parseHex_hexStr]

theorem decodeHexTx_encodeHexTx {tx : CTransaction} (h : tx.Fits) :
    decodeHexTx (encodeHexTx tx) = some tx :=
  (decodeHex_eq_some_iff codec_transaction serialize_ne_nil).mpr
    ⟨h, [], by rw [encodeHexTx, hexStr_lower]; exact (List.append_nil _).symm⟩

theorem decodeHexBlk_encodeHexBlock {block : CBlock} (h : block.Fits) :
    decodeHexBlk (encodeHexBlock block) = some block :=
  (decodeHex_eq_some_iff codec_block serialize_block_ne_nil).mpr
    ⟨h, [], by rw [encodeHexBlock, hexStr_lower]; exact (List.append_nil _).symm⟩

/--
The texts that are accepted begin, but for the case of the digits, with the text
of the block they give; no vector of it is too long.
-/
theorem decodeHexBlk_iff (hex : Bytes) (block : CBlock) : decodeHexBlk hex = some block ↔
    block.Fits ∧ ∃ rest, hex.map lowerDigit = encodeHexBlock block ++ hexStr rest :=
  decodeHex_eq_some_iff codec_block serialize_block_ne_nil

end ExplorerKV.Bitcoin.Wire

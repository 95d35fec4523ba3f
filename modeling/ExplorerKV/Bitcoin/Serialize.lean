import ExplorerKV.Bitcoin.Core
import ExplorerKV.Foundation.Codec

/-!
# The serialization of transactions and blocks

`serialize.h` and the `IMPLEMENT_SERIALIZE` blocks of `core.h`, with all fields
of the classes.  A stream is the bytes it has not read yet.  Any exception of a
reader ends it, and its caller asks for nothing more than that it ended.
-/

namespace ExplorerKV.Bitcoin.Wire

open Foundation

structure CTxIn where
  prevout : COutPoint
  scriptSig : CScript
  nSequence : UInt32
  deriving DecidableEq, Repr

structure CTxOut where
  nValue : Int64
  scriptPubKey : CScript
  deriving DecidableEq, Repr

structure CTransaction where
  nVersion : Int32
  vin : List CTxIn
  vout : List CTxOut
  nLockTime : UInt32
  deriving DecidableEq, Repr

structure CBlockHeader where
  nVersion : Int32
  hashPrevBlock : Uint256
  hashMerkleRoot : Uint256
  nTime : UInt32
  nBits : UInt32
  nNonce : UInt32
  deriving DecidableEq, Repr

structure CBlock extends CBlockHeader where
  vtx : List CTransaction
  deriving DecidableEq, Repr

/-! ## Integers -/

def unserializeUInt32 : ReadM UInt32 := do
  let n ← readLittleEndian 4
  return UInt32.ofNat n

def unserializeInt32 : ReadM Int32 := do
  let n ← readLittleEndian 4
  return (UInt32.ofNat n).toInt32

def unserializeInt64 : ReadM Int64 := do
  let n ← readLittleEndian 8
  return (UInt64.ofNat n).toInt64

def unserializeUint256 : ReadM Uint256 := do
  let n ← readLittleEndian 32
  return Fin.ofNat (2 ^ 256) n

def serializeUInt32 (n : UInt32) : Bytes := littleEndianBytes 4 n.toNat

def serializeInt32 (n : Int32) : Bytes := littleEndianBytes 4 n.toUInt32.toNat

def serializeInt64 (n : Int64) : Bytes := littleEndianBytes 8 n.toUInt64.toNat

def serializeUint256 (n : Uint256) : Bytes := littleEndianBytes 32 n.val

theorem codec_uint32 : Codec (fun _ => True) serializeUInt32 unserializeUInt32 :=
  (codec_littleEndian 4).map (fun _ h => ⟨trivial, UInt32.toNat_ofNat_of_lt' h⟩)
    fun n _ => ⟨n.toNat_lt, UInt32.ofNat_toNat⟩

theorem codec_int32 : Codec (fun _ => True) serializeInt32 unserializeInt32 :=
  (codec_littleEndian 4).map
    (fun n h => ⟨trivial, by rw [UInt32.toUInt32_toInt32, UInt32.toNat_ofNat_of_lt' h]⟩)
    fun n _ => ⟨n.toUInt32.toNat_lt, by rw [UInt32.ofNat_toNat, Int32.toInt32_toUInt32]⟩

theorem codec_int64 : Codec (fun _ => True) serializeInt64 unserializeInt64 :=
  (codec_littleEndian 8).map
    (fun n h => ⟨trivial, by rw [UInt64.toUInt64_toInt64, UInt64.toNat_ofNat_of_lt' h]⟩)
    fun n _ => ⟨n.toUInt64.toNat_lt, by rw [UInt64.ofNat_toNat, Int64.toInt64_toUInt64]⟩

theorem codec_uint256 : Codec (fun _ => True) serializeUint256 unserializeUint256 := by
  have hbound : (256 : Nat) ^ 32 = 2 ^ 256 := by norm_num
  refine (codec_littleEndian 32).map (fun n h => ⟨trivial, ?_⟩) fun n _ => ⟨?_, ?_⟩
  · rw [Fin.val_ofNat, Nat.mod_eq_of_lt (h.trans_eq hbound)]
  · exact n.isLt.trans_eq hbound.symm
  · exact Fin.ext (by rw [Fin.val_ofNat, Nat.mod_eq_of_lt n.isLt])

/-! ## Sizes -/

def MAX_SIZE : Nat := 0x02000000

def writeCompactSize (nSize : Nat) : Bytes :=
  if nSize < 253 then littleEndianBytes 1 nSize
  else if nSize ≤ 0xffff then littleEndianBytes 1 253 ++ littleEndianBytes 2 nSize
  else if nSize ≤ 0xffffffff then littleEndianBytes 1 254 ++ littleEndianBytes 4 nSize
  else littleEndianBytes 1 255 ++ littleEndianBytes 8 nSize

/-- A size of that many bytes, canonical from `least` on. -/
def readSizeOf (width least : Nat) : ReadM Nat := do
  let xSize ← readLittleEndian width
  if xSize < least then failure else return xSize

def readSizeAfter (chSize : Nat) : ReadM Nat :=
  if chSize < 253 then return chSize
  else if chSize = 253 then readSizeOf 2 253
  else if chSize = 254 then readSizeOf 4 0x10000
  else readSizeOf 8 0x100000000

def readCompactSize : ReadM Nat := do
  let chSize ← readLittleEndian 1
  let nSizeRet ← readSizeAfter chSize
  if MAX_SIZE < nSizeRet then failure else return nSizeRet

theorem codec_sizeOf (width least : Nat) :
    Codec (fun n => n < 256 ^ width ∧ ¬n < least) (littleEndianBytes width)
      (readSizeOf width least) :=
  (codec_littleEndian width).guard (· < least)

theorem codec_compactSize : Codec (· ≤ MAX_SIZE) writeCompactSize readCompactSize := by
  have hmarked : Codec (· < 256 ^ 8) writeCompactSize
      (do let chSize ← readLittleEndian 1; readSizeAfter chSize) := by
    intro bytes n rest
    rw [(codec_littleEndian 1).bind_iff]
    constructor
    · rintro ⟨ch, tail, hch, rfl, hk⟩
      rw [readSizeAfter] at hk
      split_ifs at hk with h253 h253' h254
      · obtain ⟨rfl, rfl⟩ := Codec.pure_iff.mp hk
        exact ⟨by omega, by rw [writeCompactSize, if_pos h253]⟩
      all_goals
        obtain ⟨⟨hlt, hleast⟩, rfl⟩ := (codec_sizeOf _ _ _ _ _).mp hk
        refine ⟨by omega, ?_⟩
      · rw [writeCompactSize, if_neg hleast, if_pos (by omega), h253', List.append_assoc]
      · rw [writeCompactSize, if_neg (by omega), if_neg (by omega), if_pos (by omega), h254,
          List.append_assoc]
      · rw [writeCompactSize, if_neg (by omega), if_neg (by omega), if_neg (by omega),
          show ch = 255 by omega, List.append_assoc]
    · rintro ⟨hn, rfl⟩
      have hsizeOf : ∀ width least, n < 256 ^ width → ¬n < least →
          (readSizeOf width least).run (littleEndianBytes width n ++ rest) = some (n, rest) :=
        fun width least hlt hleast => (codec_sizeOf width least).read_write ⟨hlt, hleast⟩ rest
      rw [writeCompactSize]
      split_ifs with h253 h16 h32
      · exact ⟨n, rest, by omega, rfl, by rw [readSizeAfter, if_pos h253]; rfl⟩
      · exact ⟨253, _, by omega, List.append_assoc .., hsizeOf 2 253 (by omega) h253⟩
      · exact ⟨254, _, by omega, List.append_assoc .., hsizeOf 4 _ (by omega) (by omega)⟩
      · exact ⟨255, _, by omega, List.append_assoc .., hsizeOf 8 _ hn (by omega)⟩
  intro bytes n rest
  have hguard := hmarked.guard (MAX_SIZE < ·) bytes n rest
  rw [bind_assoc] at hguard
  rw [readCompactSize, hguard, MAX_SIZE]
  constructor
  · exact fun h => ⟨by omega, h.2⟩
  · exact fun h => ⟨by omega, h.2⟩

/-! ## Vectors -/

def serializeScript (v : CScript) : Bytes := writeCompactSize v.length ++ v

def unserializeScript : ReadM CScript := do
  let nSize ← readCompactSize
  readInBlocks (1 + 4999999).toPNat' takeBytes nSize

def serializeVector {α : Type} (serialize : α → Bytes) (v : List α) : Bytes :=
  writeCompactSize v.length ++ v.flatMap serialize

def unserializeVector {α : Type} (sizeof : Nat) (unserialize : ReadM α) : ReadM (List α) := do
  let nSize ← readCompactSize
  readInBlocks (5000000 / sizeof).toPNat' (readTimes unserialize) nSize

theorem readInBlocks_takeBytes (block : ℕ+) (n : Nat) :
    readInBlocks block takeBytes n = takeBytes n :=
  readInBlocks_eq rfl takeBytes_add n

theorem readInBlocks_readTimes {α : Type} (block : ℕ+) (unserialize : ReadM α) (n : Nat) :
    readInBlocks block (readTimes unserialize) n = readTimes unserialize n :=
  readInBlocks_eq rfl (readTimes_add unserialize) n

theorem codec_script : Codec (fun v : CScript => v.length ≤ MAX_SIZE) serializeScript
    unserializeScript := by
  intro bytes v rest
  rw [unserializeScript, codec_compactSize.bind_iff]
  simp only [readInBlocks_takeBytes, (codec_takeBytes _) _ v rest]
  constructor
  · rintro ⟨n, _, hn, rfl, rfl, rfl⟩
    exact ⟨hn, (List.append_assoc ..).symm⟩
  · rintro ⟨hn, rfl⟩
    exact ⟨v.length, _, hn, List.append_assoc .., rfl, rfl⟩

theorem codec_vector {α : Type} {fits : α → Prop} {serialize : α → Bytes} {unserialize : ReadM α}
    (sizeof : Nat) (h : Codec fits serialize unserialize) :
    Codec (fun v : List α => v.length ≤ MAX_SIZE ∧ ∀ a ∈ v, fits a) (serializeVector serialize)
      (unserializeVector sizeof unserialize) := by
  have hread : unserializeVector sizeof unserialize =
      readCompactSize >>= readTimes unserialize := by
    simp only [unserializeVector, readInBlocks_readTimes]
  exact hread ▸ codec_compactSize.counted h

/-! ## Transactions -/

def COutPoint.serialize (out : COutPoint) : Bytes :=
  serializeUint256 out.hash ++ serializeUInt32 out.n

def COutPoint.unserialize : ReadM COutPoint := do
  let hash ← unserializeUint256
  let n ← unserializeUInt32
  return ⟨hash, n⟩

def CTxIn.serialize (txin : CTxIn) : Bytes :=
  COutPoint.serialize txin.prevout ++ serializeScript txin.scriptSig ++
    serializeUInt32 txin.nSequence

def CTxIn.unserialize : ReadM CTxIn := do
  let prevout ← COutPoint.unserialize
  let scriptSig ← unserializeScript
  let nSequence ← unserializeUInt32
  return ⟨prevout, scriptSig, nSequence⟩

def CTxOut.serialize (txout : CTxOut) : Bytes :=
  serializeInt64 txout.nValue ++ serializeScript txout.scriptPubKey

def CTxOut.unserialize : ReadM CTxOut := do
  let nValue ← unserializeInt64
  let scriptPubKey ← unserializeScript
  return ⟨nValue, scriptPubKey⟩

def CTransaction.serialize (tx : CTransaction) : Bytes :=
  serializeInt32 tx.nVersion ++ serializeVector CTxIn.serialize tx.vin ++
    serializeVector CTxOut.serialize tx.vout ++ serializeUInt32 tx.nLockTime

def CTransaction.unserialize : ReadM CTransaction := do
  let nVersion ← unserializeInt32
  let vin ← unserializeVector 72 CTxIn.unserialize
  let vout ← unserializeVector 32 CTxOut.unserialize
  let nLockTime ← unserializeUInt32
  return ⟨nVersion, vin, vout, nLockTime⟩

def CBlockHeader.serialize (header : CBlockHeader) : Bytes :=
  serializeInt32 header.nVersion ++ serializeUint256 header.hashPrevBlock ++
    serializeUint256 header.hashMerkleRoot ++ serializeUInt32 header.nTime ++
    serializeUInt32 header.nBits ++ serializeUInt32 header.nNonce

def CBlockHeader.unserialize : ReadM CBlockHeader := do
  let nVersion ← unserializeInt32
  let hashPrevBlock ← unserializeUint256
  let hashMerkleRoot ← unserializeUint256
  let nTime ← unserializeUInt32
  let nBits ← unserializeUInt32
  let nNonce ← unserializeUInt32
  return ⟨nVersion, hashPrevBlock, hashMerkleRoot, nTime, nBits, nNonce⟩

def CBlock.serialize (block : CBlock) : Bytes :=
  block.toCBlockHeader.serialize ++ serializeVector CTransaction.serialize block.vtx

def CBlock.unserialize : ReadM CBlock := do
  let header ← CBlockHeader.unserialize
  let vtx ← unserializeVector 64 CTransaction.unserialize
  return ⟨header, vtx⟩

/-! ## What is read back -/

/-- Every vector of the transaction keeps to `MAX_SIZE`. -/
structure CTransaction.Fits (tx : CTransaction) : Prop where
  vin : tx.vin.length ≤ MAX_SIZE ∧ ∀ txin ∈ tx.vin, txin.scriptSig.length ≤ MAX_SIZE
  vout : tx.vout.length ≤ MAX_SIZE ∧ ∀ txout ∈ tx.vout, txout.scriptPubKey.length ≤ MAX_SIZE

def CBlock.Fits (block : CBlock) : Prop :=
  block.vtx.length ≤ MAX_SIZE ∧ ∀ tx ∈ block.vtx, tx.Fits

theorem codec_outPoint : Codec (fun _ => True) COutPoint.serialize COutPoint.unserialize := by
  intro bytes out rest
  simp only [COutPoint.unserialize, codec_uint256.bind_iff, codec_uint32.bind_iff, Codec.pure_iff]
  constructor
  · rintro ⟨hash, _, -, rfl, n, _, -, rfl, rfl, rfl⟩
    exact ⟨trivial, (List.append_assoc ..).symm⟩
  · rintro ⟨-, rfl⟩
    exact ⟨out.hash, _, trivial, List.append_assoc .., out.n, _, trivial, rfl, rfl, rfl⟩

theorem codec_txIn : Codec (fun txin : CTxIn => txin.scriptSig.length ≤ MAX_SIZE) CTxIn.serialize
    CTxIn.unserialize := by
  intro bytes txin rest
  simp only [CTxIn.unserialize, CTxIn.serialize, codec_outPoint.bind_iff, codec_script.bind_iff,
    codec_uint32.bind_iff, Codec.pure_iff, List.append_assoc]
  constructor
  · rintro ⟨prevout, _, -, rfl, scriptSig, _, hscript, rfl, nSequence, _, -, rfl, rfl, rfl⟩
    exact ⟨hscript, rfl⟩
  · rintro ⟨hscript, rfl⟩
    exact ⟨txin.prevout, _, trivial, rfl, txin.scriptSig, _, hscript, rfl, txin.nSequence, _,
      trivial, rfl, rfl, rfl⟩

theorem codec_txOut : Codec (fun txout : CTxOut => txout.scriptPubKey.length ≤ MAX_SIZE)
    CTxOut.serialize CTxOut.unserialize := by
  intro bytes txout rest
  simp only [CTxOut.unserialize, CTxOut.serialize, codec_int64.bind_iff, codec_script.bind_iff,
    Codec.pure_iff, List.append_assoc]
  constructor
  · rintro ⟨nValue, _, -, rfl, scriptPubKey, _, hscript, rfl, rfl, rfl⟩
    exact ⟨hscript, rfl⟩
  · rintro ⟨hscript, rfl⟩
    exact ⟨txout.nValue, _, trivial, rfl, txout.scriptPubKey, _, hscript, rfl, rfl, rfl⟩

theorem codec_transaction : Codec CTransaction.Fits CTransaction.serialize
    CTransaction.unserialize := by
  intro bytes tx rest
  simp only [CTransaction.unserialize, CTransaction.serialize, codec_int32.bind_iff,
    (codec_vector 72 codec_txIn).bind_iff, (codec_vector 32 codec_txOut).bind_iff,
    codec_uint32.bind_iff, Codec.pure_iff, List.append_assoc]
  constructor
  · rintro ⟨nVersion, _, -, rfl, vin, _, hvin, rfl, vout, _, hvout, rfl, nLockTime, _, -, rfl, rfl,
      rfl⟩
    exact ⟨⟨hvin, hvout⟩, rfl⟩
  · rintro ⟨⟨hvin, hvout⟩, rfl⟩
    exact ⟨tx.nVersion, _, trivial, rfl, tx.vin, _, hvin, rfl, tx.vout, _, hvout, rfl, tx.nLockTime,
      _, trivial, rfl, rfl, rfl⟩

theorem codec_blockHeader : Codec (fun _ => True) CBlockHeader.serialize
    CBlockHeader.unserialize := by
  intro bytes header rest
  simp only [CBlockHeader.unserialize, CBlockHeader.serialize, codec_int32.bind_iff,
    codec_uint256.bind_iff, codec_uint32.bind_iff, Codec.pure_iff, List.append_assoc]
  constructor
  · rintro ⟨nVersion, _, -, rfl, hashPrevBlock, _, -, rfl, hashMerkleRoot, _, -, rfl, nTime, _, -,
      rfl, nBits, _, -, rfl, nNonce, _, -, rfl, rfl, rfl⟩
    exact ⟨trivial, rfl⟩
  · rintro ⟨-, rfl⟩
    exact ⟨_, _, trivial, rfl, _, _, trivial, rfl, _, _, trivial, rfl, _, _, trivial, rfl, _, _,
      trivial, rfl, _, _, trivial, rfl, rfl, rfl⟩

theorem codec_block : Codec CBlock.Fits CBlock.serialize CBlock.unserialize := by
  intro bytes block rest
  simp only [CBlock.unserialize, CBlock.serialize, codec_blockHeader.bind_iff,
    (codec_vector 64 codec_transaction).bind_iff, Codec.pure_iff, List.append_assoc]
  constructor
  · rintro ⟨header, _, -, rfl, vtx, _, hvtx, rfl, rfl, rfl⟩
    exact ⟨hvtx, rfl⟩
  · rintro ⟨hvtx, rfl⟩
    exact ⟨block.toCBlockHeader, _, trivial, rfl, block.vtx, _, hvtx, rfl, rfl, rfl⟩

end ExplorerKV.Bitcoin.Wire

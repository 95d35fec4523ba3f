import ExplorerKV.Parser.Frames

/-!
# Accepting and rejecting a block

`acceptBlock` and `rejectBlock` of `Parser.cc`, in the order of their writes.
Both read the raw block from `0_raw_blocks` by the id their row carries.
-/

namespace ExplorerKV.Parser

open Bitcoin Foundation

/-- A row of `0_raw_blocks`, with its `hex` decoded. -/
structure RawBlock where
  blockHash : Uint256
  blockHeight : Int
  blk : CBlock
  deriving DecidableEq, Repr

/-- The table by `id`. -/
abbrev RawBlocks := Int → Option RawBlock

variable (cfg : Config) (raw : RawTxs) (blocks : RawBlocks)

/-- `_getBlockRawHexByBlockId`, and the decoding of its result. -/
def getBlockRawHexByBlockId (blkId : Int) : ParserM RawBlock :=
  match blocks blkId with
  | some block => pure block
  | none => throw (.noRawBlock blkId)

/-- `blk.vtx[0]`, named by its hash. -/
def coinbaseOf (blk : CBlock) : ParserM Uint256 :=
  match blk.vtx with
  | coinbase :: _ => pure coinbase
  | [] => throw .undefinedBehaviour

def insertBlock (blockHash : Uint256) (blk : CBlock) (height : Int)
    (maxBlkTimestamp : Nat) : ParserM Unit := do
  let rewardBlock := getBlockValue cfg.subsidyHalvingInterval height 0
  let coinbase ← coinbaseOf blk
  let valueOut ← getValueOut (raw coinbase).tx
  let rewardFees := valueOut - rewardBlock
  assertion .insertBlock (rewardFees ≥ 0)
  kvSet (.blockObject blockHash)
    { height := height
      timestamp := blk.nTime
      prevBlockHash := blk.hashPrevBlock
      nextBlockHash := 0
      txCount := blk.vtx.length
      rewardBlock := rewardBlock
      rewardFees := rewardFees
      isOrphan := false
      currMaxTimestamp := maxBlkTimestamp }
  kvSet (.blockHeight height) blockHash
  if height > 0 then
    let prevBlock ← kvGet (.blockObject blk.hashPrevBlock)
    kvSet (.blockObject blk.hashPrevBlock)
      { prevBlock with nextBlockHash := blockHash }

/-- The hashes that fit into one `12_` record. -/
def kBatchSize : Nat := 500

def insertBlockTxs (blockHash : Uint256) (blk : CBlock) : ParserM Unit := do
  let value ← blk.vtx.zipIdx.foldlM (fun value (txHash, i) => do
    let value := value ++ [txHash]
    if (i + 1) % kBatchSize = 0 then
      kvSet (.blockTxsStr blockHash (i / kBatchSize)) value
      pure []
    else pure value) []
  if value.length ≠ 0 then
    kvSet (.blockTxsStr blockHash (blk.vtx.length / kBatchSize)) value

/-- `_removeOrphanBlockHash`: the `set<string>` orders the hashes by value. -/
def removeOrphanBlockHash (hash : Uint256) (value : List Uint256) : List Uint256 :=
  (value.toFinset.erase hash).sort

def insertOrphanBlockHash (hash : Uint256) (value : List Uint256) : List Uint256 :=
  if value.length = 0 then [hash]
  else (insert hash value.toFinset).sort

/-- The `13_` part of `acceptBlock`. -/
def removeOrphan (height : Int) (hash : Uint256) : ParserM Unit := do
  match ← kvGetMayNotExist (.blockOrphan height) with
  | some value =>
      let value := removeOrphanBlockHash hash value
      if value.length > 0 then kvSet (.blockOrphan height) value
      else kvDel (.blockOrphan height)
  | none => pure ()

/-- The `13_` part of `rejectBlock`. -/
def insertOrphan (height : Int) (hash : Uint256) : ParserM Unit := do
  let value ← kvGetMayNotExist (.blockOrphan height)
  kvSet (.blockOrphan height) (insertOrphanBlockHash hash (value.getD []))

/-- `currBlockHeight_`, and the line of the notification log. -/
def noteBlock (accept : Bool) (hash : Uint256) (height : Int) : ParserM Unit :=
  modify fun s => { s with
    currBlockHeight := height
    notifyLog := s.notifyLog ++ [NotifyItem.block accept hash height] }

def acceptBlock (txLog2 : TxLog2) : ParserM Unit := do
  let block ← getBlockRawHexByBlockId blocks txLog2.blkId
  insertBlock cfg raw block.blockHash block.blk txLog2.blkHeight txLog2.maxBlkTimestamp
  insertBlockTxs block.blockHash block.blk
  removeOrphan txLog2.blkHeight block.blockHash
  kvSet (.blockTimestamp txLog2.maxBlkTimestamp txLog2.blkHeight) block.blockHash
  noteBlock true block.blockHash txLog2.blkHeight

def rejectBlock (txLog2 : TxLog2) : ParserM Unit := do
  let height := txLog2.blkHeight
  let block ← getBlockRawHexByBlockId blocks txLog2.blkId
  insertOrphan height block.blockHash
  kvDel (.blockHeight height)
  let record ← kvGet (.blockObject block.blockHash)
  kvSet (.blockObject block.blockHash) { record with isOrphan := true }
  kvDel (.blockTimestamp txLog2.maxBlkTimestamp height)
  if height > 0 then
    let prevBlock ← kvGet (.blockObject block.blk.hashPrevBlock)
    kvSet (.blockObject block.blk.hashPrevBlock) { prevBlock with nextBlockHash := 0 }
  noteBlock false block.blockHash height

/-! ## Frames -/

/-- `10_`, `11_`, `13_` and `14_` -/
def Key.OfBlockIndex : Key → Prop
  | .blockHeight _ | .blockObject _ | .blockOrphan _ | .blockTimestamp _ _ => True
  | _ => False

theorem insertBlockTxs_spec {E : Fault → Prop} {s : ParserState} (blockHash : Uint256)
    (blk : CBlock) : wp (insertBlockTxs blockHash blk)
      (fun _ s' => SameOn Key.OfBlockIndex s s') E s := by
  have hset : ∀ n (value : List Uint256) (s' : ParserState), SameOn Key.OfBlockIndex s s' →
      SameOn Key.OfBlockIndex s (s'.write ⟨.blockTxsStr blockHash n, some value⟩) := by
    intro n value s' h key hkey
    rw [ParserState.write_kv_of_ne _ _ (by rintro rfl; exact hkey), h key hkey]
  unfold insertBlockTxs
  refine wp_seq (wp_foldlM (fun _ _ s' => SameOn Key.OfBlockIndex s s') (fun _ _ => rfl)
    ?_) ?_
  · rintro _ ⟨txHash, i⟩ _ value s' _ h
    apply wp_ite
    · intro _
      exact hset _ _ s' h
    · intro _
      exact h
  · intro value s' h
    apply wp_ite
    · intro _
      exact hset _ _ s' h
    · intro _
      exact h

theorem noteBlock_spec {E : Fault → Prop} {s : ParserState} (accept : Bool)
    (hash : Uint256) (height : Int) :
    wp (noteBlock accept hash height) (fun _ s' => s'.kv = s.kv) E s := by
  simp [noteBlock]

end ExplorerKV.Parser

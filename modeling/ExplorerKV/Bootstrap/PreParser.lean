import ExplorerKV.Bootstrap.PrePass
import ExplorerKV.Log2.BlockTimestamp
import ExplorerKV.Parser.BlockOps

/-!
# The bootstrap importer

`PreParser` reads the blocks from height zero up and writes the records of
confirmed transactions only.  The record of an address's latest transaction is
held back until the next one comes or the import ends, and the unspent outputs
stay in memory until all blocks are done.
-/

namespace ExplorerKV.Bootstrap

open Bitcoin Foundation
open ExplorerKV.Log2 (BlockTimestamp)
open ExplorerKV.Parser (Config RawTxs RawBlock BalanceMap outputAddresses receiveBalance
  receivedPart sentPart txObjectOutputs kBatchSize)

inductive PreFault where
  /-- the exceptions of the two `find` functions -/
  | cannotFindAddress (address : Address)
  | cannotFindTx (hash : Uint256)
  /-- the exception of `delOutput` -/
  | alreadyDeleteOutput (hash : Uint256) (n : Nat)
  /-- the exception of `GetValueOut` -/
  | valueOutOfRange
  /-- the `assert` of `pushBlock` -/
  | assertion
  /-- reading through a null pointer, or past the end of a vector -/
  | undefinedBehaviour
  deriving DecidableEq, Repr

structure AddrTx where
  balanceDiff : Int
  txHeight : Int
  txBlockTime : Nat
  txHash : Uint256
  deriving DecidableEq, Repr

structure AddrInfo where
  received : Int
  sent : Int
  txCount : Int
  unspentTxCount : Int
  /-- the latest transaction, not yet saved -/
  addrTx : AddrTx
  deriving DecidableEq, Repr

def AddrInfo.zero : AddrInfo := ⟨0, 0, 0, 0, ⟨0, 0, 0, 0⟩⟩

structure TxInfo where
  blockHeight : Int
  /-- `outputs_`, with `none` for a null pointer -/
  outputs : Option (List (Option TxOutput))
  deriving DecidableEq, Repr

structure BlockInfo where
  height : Int
  blockHash : Uint256
  header : CBlock
  nextBlockHash : Uint256
  txCount : Nat
  rewardBlock : Int
  rewardFee : Int
  currMaxTimestamp : Nat
  deriving DecidableEq, Repr

def BlockInfo.zero : BlockInfo := ⟨0, 0, ⟨0, 0, []⟩, 0, 0, 0, 0, 0⟩

/-- The entries of the two vectors are named by their keys. -/
structure PreParserState where
  kv : KVDB
  addrInfo : Address → AddrInfo
  txInfo : Uint256 → TxInfo
  blkTs : BlockTimestamp
  blockInfo : BlockInfo

abbrev PreParserM (α : Type) := Exec PreFault PreParserState α

/-- The lines of the files of the two pre-passes. -/
structure PreFiles where
  addrs : List Address
  txs : List Uint256

def PreParserState.initial : PreParserState where
  kv := KVDB.empty
  addrInfo := fun _ => AddrInfo.zero
  txInfo := fun _ => ⟨-1, none⟩
  blkTs := ⟨2016, 0, []⟩
  blockInfo := BlockInfo.zero

def PreParserState.write (s : PreParserState) (key : Key) (val : key.Val) :
    PreParserState :=
  { s with kv := s.kv.apply ⟨key, some val⟩ }

/-- `gKVHandler->set` -/
def setKV (key : Key) (val : key.Val) : PreParserM Unit :=
  modify fun s => s.write key val

def putAddrInfo (address : Address) (info : AddrInfo) : PreParserM Unit :=
  modify fun s => { s with addrInfo := Function.update s.addrInfo address info }

def putTxInfo (hash : Uint256) (info : TxInfo) : PreParserM Unit :=
  modify fun s => { s with txInfo := Function.update s.txInfo hash info }

/-- The entry before `upper_bound(needle)` in the sorted lines. -/
def findLine {α : Type} [LinearOrder α] (lines : List α) (needle : α) : Option α :=
  (lines.filter (· ≤ needle)).max?

variable (cfg : Config) (raw : RawTxs) (files : PreFiles)

/-- `AddrHandler::find` -/
def findAddr (address : Address) : PreParserM Address :=
  match findLine files.addrs address with
  | some line => pure line
  | none => throw (.cannotFindAddress address)

/-- `TxHandler::find` -/
def findTx (hash : Uint256) : PreParserM Uint256 :=
  match findLine files.txs hash with
  | some line => pure line
  | none => throw (.cannotFindTx hash)

/-! ## Outputs in memory -/

def addOutputs (hash : Uint256) (tx : CTransaction) (height : Int) : PreParserM Unit := do
  let line ← findTx files hash
  putTxInfo line ⟨height, some ((txObjectOutputs cfg tx).map some)⟩

/-- The read of `*(pTxInfo->outputs_ + prevPostion)`, and of what it points to. -/
def readOutput (hash : Uint256) (n : Nat) : PreParserM TxOutput := do
  let line ← findTx files hash
  let s ← get
  match (s.txInfo line).outputs.bind (·[n]?) with
  | some (some output) => pure output
  | _ => throw .undefinedBehaviour

/-- `TxHandler::delOutput`; the last output takes the vector with it. -/
def delOutput (hash : Uint256) (n : Nat) : PreParserM Unit := do
  let line ← findTx files hash
  let s ← get
  match (s.txInfo line).outputs with
  | some outputs =>
      match outputs[n]? with
      | some (some _) =>
          let outputs := outputs.set n none
          putTxInfo line { s.txInfo line with
            outputs := if outputs.all (·.isNone) then none else some outputs }
      | some none => throw (.alreadyDeleteOutput line n)
      | none => throw .undefinedBehaviour
  | none => throw (.alreadyDeleteOutput line n)

/-! ## Transactions -/

def saveAddrTx (address : Address) : PreParserM Unit := do
  let s ← get
  let addrInfo := s.addrInfo address
  let t := addrInfo.addrTx
  let addressTxIndex := addrInfo.txCount - 1
  setKV (.addrTx address addressTxIndex)
    { balanceDiff := t.balanceDiff, txHash := t.txHash, txHeight := t.txHeight,
      txBlockTime := t.txBlockTime }
  setKV (.addrTxIndex address (.hex t.txHash)) addressTxIndex

/-- One address of `handleAddressTxs`. -/
def handleAddressTx (height : Int) (blockTime : Nat) (txHash : Uint256) (address : Address)
    (balanceDiff : Int) : PreParserM Unit := do
  let line ← findAddr files address
  let s ← get
  if (s.addrInfo line).addrTx.txBlockTime ≠ 0 then saveAddrTx line
  let addrInfo := s.addrInfo line
  putAddrInfo line { addrInfo with
    received := addrInfo.received + receivedPart balanceDiff
    sent := addrInfo.sent + sentPart balanceDiff
    txCount := addrInfo.txCount + 1
    addrTx :=
      { balanceDiff := balanceDiff, txHeight := height, txBlockTime := blockTime,
        txHash := txHash } }

def handleAddressTxs (addressBalance : BalanceMap) (height : Int) (blockTime : Nat)
    (txHash : Uint256) : PreParserM Unit :=
  forM addressBalance fun (address, balanceDiff) =>
    handleAddressTx files height blockTime txHash address balanceDiff

/-- What the input loop of `parseTx` gathers. -/
structure InputTotals where
  inputs : List TxInput
  valueIn : Int
  addressBalance : BalanceMap
  deriving DecidableEq, Repr

/-- One input of `parseTx`. -/
def parseTxInput (txHash : Uint256) (tx : CTransaction) (totals : InputTotals)
    (input : CTxIn) (n : Nat) : PreParserM InputTotals :=
  if tx.isCoinBase then
    let txInput : TxInput :=
      { sequence := input.nSequence, prevTxHash := 0, prevPosition := -1, prevValue := 0,
        prevAddresses := [] }
    pure { totals with inputs := totals.inputs ++ [txInput] }
  else do
    let prevPosition := input.prevout.n.toNat
    let output ← readOutput files input.prevout.hash prevPosition
    setKV (.txSpend input.prevout.hash prevPosition) { position := n, txHash := txHash }
    delOutput files input.prevout.hash prevPosition
    let txInput : TxInput :=
      { sequence := input.nSequence, prevTxHash := input.prevout.hash,
        prevPosition := prevPosition, prevValue := output.value,
        prevAddresses := output.addresses }
    pure
      { inputs := totals.inputs ++ [txInput]
        valueIn := totals.valueIn + output.value
        addressBalance := output.addresses.foldl (fun balance address =>
          balance.add address (output.value * -1)) totals.addressBalance }

def parseTxInputs (txHash : Uint256) (tx : CTransaction) : PreParserM InputTotals :=
  tx.vin.zipIdx.foldlM (fun totals (input, n) =>
    parseTxInput files txHash tx totals input n) ⟨[], 0, []⟩

/-- `GetValueOut`, whose exception ends the import. -/
def getValueOut (tx : CTransaction) : PreParserM Int :=
  match tx.getValueOut with
  | some valueOut => pure valueOut
  | none => throw .valueOutOfRange

def parseTx (height : Int) (txHash : Uint256) (blockNTime : Nat) : PreParserM Unit := do
  if isIgnoredTx height txHash then return
  let tx := (raw txHash).tx
  let totals ← parseTxInputs files txHash tx
  let addressBalance := receiveBalance cfg tx totals.addressBalance
  let valueOut ← getValueOut tx
  let fee :=
    if tx.isCoinBase then valueOut - getBlockValue cfg.subsidyHalvingInterval height 0
    else totals.valueIn - valueOut
  addOutputs cfg files txHash tx height
  setKV (.txObject txHash)
    { blockHeight := height
      blockTime := blockNTime
      isCoinbase := tx.isCoinBase
      version := tx.nVersion
      lockTime := tx.nLockTime
      size := (raw txHash).hexLength / 2
      fee := fee
      inputs := totals.inputs
      inputsCount := tx.vin.length
      inputsValue := totals.valueIn
      outputs := txObjectOutputs cfg tx
      outputsCount := tx.vout.length
      outputsValue := valueOut
      isDoubleSpend := false }
  handleAddressTxs files addressBalance height blockNTime txHash

/-! ## Blocks -/

def saveBlock (b : BlockInfo) : PreParserM Unit := do
  setKV (.blockObject b.blockHash)
    { height := b.height
      timestamp := b.header.nTime
      prevBlockHash := b.header.hashPrevBlock
      nextBlockHash := b.nextBlockHash
      txCount := b.txCount
      rewardBlock := b.rewardBlock
      rewardFees := b.rewardFee
      isOrphan := false
      currMaxTimestamp := b.currMaxTimestamp }
  setKV (.blockHeight b.height) b.blockHash
  setKV (.blockTimestamp b.currMaxTimestamp b.height) b.blockHash

def insertBlockTxs (blockHash : Uint256) (blk : CBlock) : PreParserM Unit := do
  let value ← blk.vtx.zipIdx.foldlM (fun value (txHash, i) => do
    let value := value ++ [txHash]
    if (i + 1) % kBatchSize = 0 then
      setKV (.blockTxsStr blockHash (i / kBatchSize)) value
      pure []
    else pure value) []
  if value.length ≠ 0 then
    setKV (.blockTxsStr blockHash (blk.vtx.length / kBatchSize)) value

/-- `blk.vtx[0].GetValueOut()` -/
def coinbaseValueOut (blk : CBlock) : PreParserM Int :=
  match blk.vtx with
  | coinbase :: _ => getValueOut (raw coinbase).tx
  | [] => throw .undefinedBehaviour

def parseBlock (stopHeight : Int) (block : RawBlock) (height : Int) : PreParserM Unit := do
  let s ← get
  match s.blkTs.pushBlock height block.blk.nTime.toNat with
  | none => throw .assertion
  | some blkTs =>
      set { s with blkTs := blkTs }
      let valueOut ← coinbaseValueOut raw block.blk
      let rewardBlock := getBlockValue cfg.subsidyHalvingInterval height 0
      let cur : BlockInfo :=
        { height := height
          blockHash := block.blockHash
          header := block.blk
          nextBlockHash := 0
          txCount := block.blk.vtx.length
          rewardBlock := rewardBlock
          rewardFee := valueOut - rewardBlock
          currMaxTimestamp := blkTs.getMaxTimestamp }
      if height > 0 then saveBlock { s.blockInfo with nextBlockHash := cur.blockHash }
      modify fun s => { s with blockInfo := cur }
      if height = stopHeight then saveBlock cur
      insertBlockTxs block.blockHash block.blk

/-! ## The dumps at the end -/

structure AddrUnspent where
  /-- the address at `addrOffset_` of the sorted vector -/
  address : Address
  height : Int
  value : Int
  position : Nat
  position2 : Nat
  hash : Uint256
  deriving DecidableEq, Repr

/-- `AddrUnspent::operator<`, as the order of a sort. -/
def AddrUnspent.le (x y : AddrUnspent) : Bool :=
  x.address < y.address || (x.address == y.address && x.height ≤ y.height)

def unspentItems (hash : Uint256) (info : TxInfo) : PreParserM (List AddrUnspent) :=
  (info.outputs.getD []).zipIdx.foldlM (fun items (output, i) =>
    match output with
    | none => pure items
    | some output =>
        output.addresses.zipIdx.foldlM (fun items (address, j) => do
          let line ← findAddr files address
          let txLine ← findTx files hash
          let s ← get
          pure (items ++ [⟨line, (s.txInfo txLine).blockHeight, output.value, i, j, hash⟩]))
          items) []

/-- One item of `dump2kvdb`. -/
def dumpUnspent (item : AddrUnspent) : PreParserM Unit := do
  let s ← get
  let addrInfo := s.addrInfo item.address
  putAddrInfo item.address { addrInfo with unspentTxCount := addrInfo.unspentTxCount + 1 }
  let addressUnspentIndex := addrInfo.unspentTxCount
  setKV (.addrUnspentIndex item.address item.hash item.position) addressUnspentIndex
  setKV (.addrUnspent item.address addressUnspentIndex)
    { value := item.value, txHash := item.hash, position := item.position,
      position2 := item.position2 }

/-- `dumpUnspentOutputToFile`: the transactions are visited in the order of the vector. -/
def dumpUnspentOutputToFile : PreParserM Unit := do
  let items ← (files.txs.insertionSort (· ≤ ·)).foldlM (fun items hash => do
    let s ← get
    let pushed ← unspentItems files hash (s.txInfo hash)
    putTxInfo hash { s.txInfo hash with outputs := none }
    pure (items ++ pushed)) []
  forM (items.insertionSort (AddrUnspent.le · ·)) dumpUnspent

/-- One address of `dumpAddressAndTxs`. -/
def dumpAddress (address : Address) : PreParserM Unit := do
  saveAddrTx address
  let s ← get
  let addr := s.addrInfo address
  setKV (.addrObject address)
    { txCount := addr.txCount
      received := addr.received
      sent := addr.sent
      unconfirmedTxCount := 0
      unconfirmedReceived := 0
      unconfirmedSent := 0
      unspentTxCount := addr.unspentTxCount
      unspentTxIndex := addr.unspentTxCount - 1
      lastConfirmedTxIdx := addr.txCount - 1 }

def dumpAddressAndTxs : PreParserM Unit :=
  forM (files.addrs.insertionSort (· ≤ ·)) dumpAddress

/-- `PreParser::run` over the blocks of the heights 0, 1, … -/
def run (chain : List RawBlock) : PreParserM Unit := do
  forM chain.zipIdx fun (block, height) => do
    parseBlock cfg raw (chain.length - 1) block height
    forM block.blk.vtx fun txHash =>
      parseTx cfg raw files height txHash block.blk.nTime.toNat
  dumpUnspentOutputToFile files
  dumpAddressAndTxs files

end ExplorerKV.Bootstrap

import ExplorerKV.Parser.State

/-!
# Accepting, confirming, unconfirming and rejecting a transaction

The four transaction operations of `Parser.cc` and their helpers, in the order
of their writes.
-/

namespace ExplorerKV.Parser

open Bitcoin Foundation

variable (cfg : Config)

/-! ## Helpers shared by the operations -/

def getPrevTxOutputs (tx : CTransaction) : ParserM (List TxOutput) :=
  if tx.isCoinBase then pure []
  else tx.vin.mapM fun input => do
    let prevTx ← kvGetUnchecked (.txObject input.prevout.hash)
    match prevTx.outputs[input.prevout.n.toNat]? with
    | some output => pure output
    | none => throw .undefinedBehaviour

def spendBalance (prevTxOutputs : List TxOutput) (balance : BalanceMap) :
    BalanceMap :=
  prevTxOutputs.foldl (fun balance output =>
    output.addresses.foldl (fun balance address =>
      balance.add address (output.value * -1)) balance) balance

def receiveBalance (tx : CTransaction) (balance : BalanceMap) : BalanceMap :=
  tx.vout.foldl (fun balance out =>
    (outputAddresses cfg out).foldl (fun balance address =>
      balance.add address out.nValue) balance) balance

def getTxAddressBalance (tx : CTransaction) : ParserM BalanceMap := do
  let prevTxOutputs ← getPrevTxOutputs tx
  pure (receiveBalance cfg tx (spendBalance prevTxOutputs []))

/-- `_acceptTx_insertAddressUnspent` -/
def insertAddressUnspent (nValue : Int) (address : Address) (hash : Uint256)
    (position position2 : Nat) : ParserM Unit := do
  let addr ← getAddressInfo cfg address
  let addr := { addr with
    unspentTxIndex := addr.unspentTxIndex + 1
    unspentTxCount := addr.unspentTxCount + 1 }
  putAddressInfo address addr
  kvSet (.addrUnspentIndex address hash position) addr.unspentTxIndex
  kvSet (.addrUnspent address addr.unspentTxIndex)
    { value := nValue, txHash := hash, position := position,
      position2 := position2 }

def flushAddressInfo (addressBalance : BalanceMap) : ParserM Unit :=
  forM addressBalance fun (address, _) => do
    let addr ← getAddressInfo cfg address
    kvSet (.addrObject address) addr

def updateUnconfirmedTxPool (count size : Int) : ParserM Unit := do
  modify fun s => { s with
    unconfirmedTxsCount := s.unconfirmedTxsCount + count
    unconfirmedTxsSize := s.unconfirmedTxsSize + size }
  let s ← get
  kvSet .unconfirmedTxsCount s.unconfirmedTxsCount
  kvSet .unconfirmedTxsSize s.unconfirmedTxsSize

def addUnconfirmedTxPool (txLog2 : TxLog2) : ParserM Unit :=
  updateUnconfirmedTxPool 1 (txLog2.txHexLength / 2 : Nat)

def removeUnconfirmedTxPool (txLog2 : TxLog2) : ParserM Unit :=
  updateUnconfirmedTxPool (-1) (-(txLog2.txHexLength / 2 : Nat))

def isWriteNotificationLogs (s : ParserState) : Bool :=
  !(s.currBlockHeight != -1 && cfg.notifyBeginHeight != -1 &&
    s.currBlockHeight < cfg.notifyBeginHeight)

def writeNotificationLogs (addressBalance : BalanceMap) (txLog2 : TxLog2) :
    ParserM Unit := do
  let s ← get
  if isWriteNotificationLogs cfg s then
    set { s with
      notifyLog := s.notifyLog ++ addressBalance.map fun (address, diff) =>
        NotifyItem.tx txLog2.type address txLog2.txHash txLog2.blkHeight diff }

/-- `GetValueOut`, whose exception ends the operation. -/
def getValueOut (tx : CTransaction) : ParserM Int :=
  match tx.getValueOut with
  | some valueOut => pure valueOut
  | none => throw .valueOutOfRange

/-! ## acceptTx -/

/-- The output loop of `acceptTx`. -/
def acceptTxOutputs (txLog2 : TxLog2) (balance : BalanceMap) :
    ParserM BalanceMap :=
  txLog2.tx.vout.zipIdx.foldlM (fun balance (out, n) =>
    (outputAddresses cfg out).zipIdx.foldlM (fun balance (address, j) => do
      insertAddressUnspent cfg out.nValue address txLog2.txHash n j
      pure (balance.add address out.nValue)) balance) balance

/-- `_acceptTx_removeUnspentOutputs` -/
def removeUnspentOutputs (tx : CTransaction) (prevTxOutputs : List TxOutput) :
    ParserM Unit := do
  assertion .removeUnspentOutputs (prevTxOutputs.length = tx.vin.length)
  forM (tx.vin.zip prevTxOutputs) fun (input, output) =>
    forM output.addresses fun address => do
      let addr ← getAddressInfo cfg address
      putAddressInfo address
        { addr with unspentTxCount := addr.unspentTxCount - 1 }
      let index ← kvGet
        (.addrUnspentIndex address input.prevout.hash input.prevout.n.toNat)
      kvDel (.addrUnspent address index)
      kvDel
        (.addrUnspentIndex address input.prevout.hash input.prevout.n.toNat)

/-- `_acceptTx_insertSpendTxs` -/
def insertSpendTxs (hash : Uint256) (tx : CTransaction) : ParserM Unit :=
  forM tx.vin.zipIdx fun (input, n) =>
    kvSet (.txSpend input.prevout.hash input.prevout.n.toNat)
      { position := n, txHash := hash }

/-- The input part of `acceptTx`. -/
def acceptTxInputs (txLog2 : TxLog2) (prevTxOutputs : List TxOutput) :
    ParserM Unit :=
  if txLog2.tx.isCoinBase then pure ()
  else do
    removeUnspentOutputs cfg txLog2.tx prevTxOutputs
    insertSpendTxs txLog2.txHash txLog2.tx

def receivedPart (balanceDiff : Int) : Int :=
  if balanceDiff > 0 then balanceDiff else 0

def sentPart (balanceDiff : Int) : Int :=
  if balanceDiff < 0 then balanceDiff * -1 else 0

/-- One address of `_accpetTx_insertAddressTxs`. -/
def insertAddressTx (txLog2 : TxLog2) (address : Address) (balanceDiff : Int) :
    ParserM Unit := do
  let addr ← getAddressInfo cfg address
  let addressTxIndex := addr.txCount
  kvSet (.addrTx address addressTxIndex)
    { balanceDiff := balanceDiff, txHash := txLog2.txHash, txHeight := -1,
      txBlockTime := txLog2.maxBlkTimestamp }
  kvSet (.addrTxIndex address (.hex txLog2.txHash)) addressTxIndex
  putAddressInfo address { addr with
    received := addr.received + receivedPart balanceDiff
    sent := addr.sent + sentPart balanceDiff
    unconfirmedReceived := addr.unconfirmedReceived + receivedPart balanceDiff
    unconfirmedSent := addr.unconfirmedSent + sentPart balanceDiff
    unconfirmedTxCount := addr.unconfirmedTxCount + 1
    txCount := addr.txCount + 1 }

/-- `_accpetTx_insertAddressTxs` -/
def insertAddressTxs (txLog2 : TxLog2) (addressBalance : BalanceMap) :
    ParserM Unit :=
  forM addressBalance fun (address, balanceDiff) =>
    insertAddressTx cfg txLog2 address balanceDiff

def isRepeatedTx (txLog2 : TxLog2) : Bool :=
  (txLog2.blkHeight == 91842 && txLog2.txHash ==
    0xd5d27987d2a3dfc724e359870c6644b40e497bdc0589a033220fe15429d88599) ||
  (txLog2.blkHeight == 91880 && txLog2.txHash ==
    0xe3bf3d07d4b0375638d5f1db5255fe07ba2c4cb067cd81b84ee974b6585fb468)

def txObjectInputs (tx : CTransaction) (prevTxOutputs : List TxOutput) :
    List TxInput :=
  if tx.isCoinBase then
    tx.vin.map fun input =>
      { sequence := input.nSequence, prevTxHash := 0, prevPosition := -1,
        prevValue := 0, prevAddresses := [] }
  else
    (tx.vin.zip prevTxOutputs).map fun (input, output) =>
      { sequence := input.nSequence, prevTxHash := input.prevout.hash,
        prevPosition := input.prevout.n.toNat, prevValue := output.value,
        prevAddresses := output.addresses }

def txObjectOutputs (tx : CTransaction) : List TxOutput :=
  tx.vout.map fun out =>
    { value := out.nValue, addresses := outputAddresses cfg out }

def acceptTx (txLog2 : TxLog2) : ParserM Unit := do
  assertion .acceptTx (txLog2.blkHeight = -1)
  if isRepeatedTx txLog2 then return
  let tx := txLog2.tx
  let prevTxOutputs ← getPrevTxOutputs tx
  let valueIn := (prevTxOutputs.map (·.value)).sum
  let addressBalance ←
    acceptTxOutputs cfg txLog2 (spendBalance prevTxOutputs [])
  let valueOut ← getValueOut tx
  let fee := if tx.isCoinBase then valueOut else valueIn - valueOut
  kvSet (.txObject txLog2.txHash)
    { blockHeight := -1
      blockTime := 0
      isCoinbase := tx.isCoinBase
      version := tx.nVersion
      lockTime := tx.nLockTime
      size := txLog2.txHexLength / 2
      fee := fee
      inputs := txObjectInputs tx prevTxOutputs
      inputsCount := tx.vin.length
      inputsValue := valueIn
      outputs := txObjectOutputs cfg tx
      outputsCount := tx.vout.length
      outputsValue := valueOut
      isDoubleSpend := false }
  acceptTxInputs cfg txLog2 prevTxOutputs
  insertAddressTxs cfg txLog2 addressBalance
  kvSet (.txUnconfirmed txLog2.txHash)
    { txHash := txLog2.txHash, fee := fee, size := txLog2.txHexLength / 2 }
  flushAddressInfo cfg addressBalance
  addUnconfirmedTxPool txLog2
  writeNotificationLogs cfg addressBalance txLog2

/-! ## confirmTx -/

structure AddressTxNode where
  txBlockTime : Nat
  txHeight : Int
  balanceDiff : Int
  idx : Int
  deriving DecidableEq, Repr

def getAddressTxNode (address : Address) (txhash : Uint256) :
    ParserM AddressTxNode := do
  let index ← kvGet (.addrTxIndex address (.hex txhash))
  let addressTx ← kvGet (.addrTx address index)
  pure
    { txBlockTime := addressTx.txBlockTime, txHeight := addressTx.txHeight,
      balanceDiff := addressTx.balanceDiff, idx := index }

def switchTxNode (address : Address) (idx1 idx2 : Int) : ParserM Unit := do
  let addressTx1 ← kvGetUnchecked (.addrTx address idx1)
  let addressTx2 ← kvGetUnchecked (.addrTx address idx2)
  kvSet (.addrTx address idx1) addressTx2
  kvSet (.addrTx address idx2) addressTx1
  kvSet (.addrTxIndex address (.hex addressTx1.txHash)) idx2
  kvSet (.addrTxIndex address (.hex addressTx2.txHash)) idx1

/-- The `while (1)` of `confirmTx`. -/
def moveToConfirmed (address : Address) (txhash : Uint256)
    (lastConfirmedTxIdx : Int) : Nat → ParserM AddressTxNode
  | 0 => throw .diverge
  | rounds + 1 => do
      let currNode ← getAddressTxNode address txhash
      if lastConfirmedTxIdx + 1 = currNode.idx then pure currNode
      else
        switchTxNode address (lastConfirmedTxIdx + 1) currNode.idx
        moveToConfirmed address txhash lastConfirmedTxIdx rounds

def confirmAddressTxNode (address : Address) (node : AddressTxNode)
    (addr : AddressInfo) : ParserM Unit := do
  putAddressInfo address { addr with
    unconfirmedReceived := addr.unconfirmedReceived - receivedPart node.balanceDiff
    unconfirmedSent := addr.unconfirmedSent - sentPart node.balanceDiff
    unconfirmedTxCount := addr.unconfirmedTxCount - 1
    lastConfirmedTxIdx := node.idx }
  let addressTx ← kvGet (.addrTx address node.idx)
  kvSet (.addrTx address node.idx)
    { addressTx with txBlockTime := node.txBlockTime, txHeight := node.txHeight }

/-- One address of `confirmTx`. -/
def confirmAddress (txLog2 : TxLog2) (address : Address) : ParserM Unit := do
  let addrInfo ← getAddressInfo cfg address
  let currNode ← moveToConfirmed address txLog2.txHash
    addrInfo.lastConfirmedTxIdx cfg.swapRounds
  confirmAddressTxNode address
    { currNode with
      txBlockTime := txLog2.maxBlkTimestamp, txHeight := txLog2.blkHeight }
    addrInfo

def confirmedFee (txLog2 : TxLog2) (txObject : Tx) : ParserM Int :=
  if txLog2.tx.isCoinBase then do
    let valueOut ← getValueOut txLog2.tx
    pure (valueOut - getBlockValue cfg.subsidyHalvingInterval txLog2.blkHeight 0)
  else pure txObject.fee

def confirmTx (txLog2 : TxLog2) : ParserM Unit := do
  let addressBalance ← getTxAddressBalance cfg txLog2.tx
  forM addressBalance fun (address, _) => confirmAddress cfg txLog2 address
  let txObject ← kvGet (.txObject txLog2.txHash)
  let fee ← confirmedFee cfg txLog2 txObject
  kvSet (.txObject txLog2.txHash)
    { txObject with
      fee := fee
      blockHeight := txLog2.blkHeight
      blockTime := txLog2.maxBlkTimestamp }
  kvDel (.txUnconfirmed txLog2.txHash)
  flushAddressInfo cfg addressBalance
  removeUnconfirmedTxPool txLog2
  writeNotificationLogs cfg addressBalance txLog2

/-! ## unconfirmTx -/

def unconfirmAddressTxNode (address : Address) (node : AddressTxNode)
    (addr : AddressInfo) : ParserM Unit := do
  let lastConfirmedTxIdx := addr.lastConfirmedTxIdx - 1
  putAddressInfo address { addr with
    unconfirmedReceived := addr.unconfirmedReceived + receivedPart node.balanceDiff
    unconfirmedSent := addr.unconfirmedSent + sentPart node.balanceDiff
    unconfirmedTxCount := addr.unconfirmedTxCount + 1
    lastConfirmedTxIdx := lastConfirmedTxIdx }
  assertion .unconfirmAddressTxNode (lastConfirmedTxIdx ≥ -1)
  assertion .unconfirmAddressTxNode (node.idx - 1 = lastConfirmedTxIdx)
  let addressTx ← kvGet (.addrTx address node.idx)
  kvSet (.addrTx address node.idx)
    { addressTx with txBlockTime := 0, txHeight := -1 }

/-- One address of `unconfirmTx`. -/
def unconfirmAddress (txLog2 : TxLog2) (address : Address) : ParserM Unit := do
  let addrInfo ← getAddressInfo cfg address
  let currNode ← getAddressTxNode address txLog2.txHash
  unconfirmAddressTxNode address currNode addrInfo

def unconfirmTx (txLog2 : TxLog2) : ParserM Unit := do
  let addressBalance ← getTxAddressBalance cfg txLog2.tx
  forM addressBalance fun (address, _) => unconfirmAddress cfg txLog2 address
  let txObject ← kvGet (.txObject txLog2.txHash)
  kvSet (.txObject txLog2.txHash)
    { txObject with blockTime := 0, blockHeight := -1 }
  kvSet (.txUnconfirmed txLog2.txHash)
    { txHash := txLog2.txHash, fee := txObject.fee, size := txObject.size }
  flushAddressInfo cfg addressBalance
  addUnconfirmedTxPool txLog2
  writeNotificationLogs cfg addressBalance txLog2

/-! ## rejectTx -/

/--
`_removeAddressTxNode`.  The `22_` key is not composed from `ToString()` here:
the `uint256` object itself is passed for `%s`.
-/
def removeAddressTxNode (txLog2 : TxLog2) (address : Address) (idx : Int)
    (balanceDiff : Int) (addr : AddressInfo) : ParserM Unit := do
  assertion .removeAddressTxNode (addr.txCount = idx + 1)
  kvDel (.addrTx address idx)
  kvDel (.addrTxIndex address (cfg.formatObject txLog2 address))
  putAddressInfo address { addr with
    txCount := addr.txCount - 1
    received := addr.received - receivedPart balanceDiff
    sent := addr.sent - sentPart balanceDiff
    unconfirmedReceived := addr.unconfirmedReceived - receivedPart balanceDiff
    unconfirmedSent := addr.unconfirmedSent - sentPart balanceDiff
    unconfirmedTxCount := addr.unconfirmedTxCount - 1 }

/-- The `while (1)` of `_rejectAddressTxs`. -/
def moveToLast (address : Address) (txhash : Uint256) (txCount : Int) :
    Nat → ParserM AddressTxNode
  | 0 => throw .diverge
  | rounds + 1 => do
      let currNode ← getAddressTxNode address txhash
      if currNode.idx + 1 = txCount then pure currNode
      else
        assertion .rejectAddressTxs (txCount ≥ 2)
        switchTxNode address (txCount - 1) currNode.idx
        moveToLast address txhash txCount rounds

/-- One address of `_rejectAddressTxs`. -/
def rejectAddress (txLog2 : TxLog2) (address : Address) : ParserM Unit := do
  let addrInfo ← getAddressInfo cfg address
  let currNode ← moveToLast address txLog2.txHash addrInfo.txCount cfg.swapRounds
  removeAddressTxNode cfg txLog2 address (addrInfo.txCount - 1)
    currNode.balanceDiff addrInfo

def rejectAddressTxs (txLog2 : TxLog2) (addressBalance : BalanceMap) :
    ParserM Unit :=
  forM addressBalance fun (address, _) => rejectAddress cfg txLog2 address

/-- The input loop of `rejectTx`: the previous outputs become unspent again. -/
def rejectTxInputs (tx : CTransaction) (prevTxOutputs : List TxOutput)
    (balance : BalanceMap) : ParserM BalanceMap :=
  if tx.isCoinBase then pure balance
  else
    (tx.vin.zip prevTxOutputs).foldlM (fun balance (input, output) => do
      kvDel (.txSpend input.prevout.hash input.prevout.n.toNat)
      output.addresses.zipIdx.foldlM (fun balance (address, j) => do
        insertAddressUnspent cfg output.value address input.prevout.hash
          input.prevout.n.toNat j
        pure (balance.add address (output.value * -1))) balance) balance

/-- The output loop of `rejectTx`: the outputs of the transaction disappear. -/
def rejectTxOutputs (txLog2 : TxLog2) (balance : BalanceMap) :
    ParserM BalanceMap :=
  txLog2.tx.vout.zipIdx.foldlM (fun balance (out, n) =>
    (outputAddresses cfg out).foldlM (fun balance address => do
      let index ← kvGet (.addrUnspentIndex address txLog2.txHash n)
      kvDel (.addrUnspent address index)
      kvDel (.addrUnspentIndex address txLog2.txHash n)
      pure (balance.add address out.nValue)) balance) balance

def rejectTx (txLog2 : TxLog2) : ParserM Unit := do
  let prevTxOutputs ← getPrevTxOutputs txLog2.tx
  let addressBalance ← rejectTxInputs cfg txLog2.tx prevTxOutputs []
  let addressBalance ← rejectTxOutputs cfg txLog2 addressBalance
  let txObject ← kvGet (.txObject txLog2.txHash)
  kvSet (.txObject txLog2.txHash) { txObject with isDoubleSpend := true }
  kvDel (.txUnconfirmed txLog2.txHash)
  rejectAddressTxs cfg txLog2 addressBalance
  flushAddressInfo cfg addressBalance
  removeUnconfirmedTxPool txLog2
  writeNotificationLogs cfg addressBalance txLog2

/-! ## Runs -/

def applyTxLog2 (txLog2 : TxLog2) : ParserM Unit :=
  match txLog2.type with
  | .txAccept => acceptTx cfg txLog2
  | .txConfirm => confirmTx cfg txLog2
  | .txUnconfirm => unconfirmTx cfg txLog2
  | .txReject => rejectTx cfg txLog2

end ExplorerKV.Parser

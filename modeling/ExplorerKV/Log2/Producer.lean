import ExplorerKV.Log2.BlockConflicts
import ExplorerKV.Log2.BlockTimestamp
import ExplorerKV.Logs.Log1Producer
import ExplorerKV.Parser.RawBlockRetention

/-!
# Log2Producer

The program handles the log1 items one after the other.  An item changes the
memory pool and the current block, and its rows, the new state of
`0_memrepo_txs` and the offset in log1 are committed in one transaction.  What is
done before that, row by row, is temporary.  A start takes the state from the
tables and from the parser's store.
-/

namespace ExplorerKV.Log2

open Bitcoin Foundation ExplorerKV.Parser
open Logs (Log1)

inductive ProducerFault where
  | repo (fault : RepoFault)
  /-- the `assert`s of `handleBlock` and the exception of two blocks of one height -/
  | heightGap
  | noBlockOfHash
  | notParent
  | sameHeight
  /-- the `assert`s of `BlockTimestamp` -/
  | heightTwice
  | noTimestamps
  /-- the `assert` of `insertRawBlock` -/
  | rawBlockHeight
  /-- "thare are conflict txs, should not happened" -/
  | conflictTxs
  /-- `vtx[0]` of a block without transactions -/
  | noCoinBase
  /-- the exception of `updateOrThrowEx` -/
  | affectedRows
  /-- a second row for a unique key -/
  | duplicateEntry
  /-- "table.0_memrepo_txs SHOULD be empty" -/
  | memrepoNotEmpty
  /-- the exceptions of `initLog2` -/
  | notCaughtUp
  | noBlockHeight
  | invalidBegin
  | noRawTx
  | addTxFailed
  deriving DecidableEq, Repr

/-- The members of a `std::set` in the order of its iterator. -/
def inOrder {α : Type} [LinearOrder α] (s : Finset α) : List α := s.sort

@[simp] theorem mem_inOrder {α : Type} [LinearOrder α] {s : Finset α} {a : α} :
    a ∈ inOrder s ↔ a ∈ s := by
  rw [inOrder, Finset.mem_sort]

theorem nodup_inOrder {α : Type} [LinearOrder α] (s : Finset α) : (inOrder s).Nodup :=
  Finset.sort_nodup s _

structure Log2Tables where
  txlogs2 : List TxLogs2Entry
  nextTxlogs2Id : Int
  /-- the hashes in `raw_txs_0000` to `raw_txs_0063` -/
  rawTxs : Finset Uint256
  /-- `0_raw_blocks`, by id -/
  rawBlocks : List (Int × RawBlock)
  nextRawBlockId : Int
  /-- `0_memrepo_txs`, by position -/
  memrepoTxs : List Uint256
  /-- `log2producer.log1file.offset`, as a number of items -/
  offset : Nat

structure Log2Producer where
  memRepo : MemTxRepository
  blkTs : BlockTimestamp
  currBlockHeight : Int
  currBlockHash : Uint256
  /-- the items read -/
  currLog1FileOffset : Nat
  db : Log2Tables
  /-- the tables after each statement of the last item, the latest first -/
  statements : List Log2Tables

abbrev ProducerM := Exec ProducerFault Log2Producer

def hashedTx (raw : RawTxs) (hash : Uint256) : HashedTx := ⟨(raw hash).tx, hash⟩

def ofRepo {α : Type} (r : RepoResult α) : ProducerM α :=
  match r with
  | .ok a => pure a
  | .error fault => throw (.repo fault)

/-! ## Statements -/

def statement (f : Log2Tables → Log2Tables) : ProducerM Unit :=
  modify fun s => { s with db := f s.db, statements := f s.db :: s.statements }

def insertRawTx (hash : Uint256) : ProducerM Unit := do
  if hash ∈ (← get).db.rawTxs then return ()
  else statement fun db => { db with rawTxs := insert hash db.rawTxs }

def insertRawBlock (block : RawBlock) : ProducerM Int := do
  let db := (← get).db
  match db.rawBlocks.find? fun entry => entry.2.blockHash = block.blockHash with
  | some entry =>
      if entry.2.blockHeight = block.blockHeight then return entry.1 else throw .rawBlockHeight
  | none =>
      statement fun db => { db with
        rawBlocks := db.rawBlocks ++ [(db.nextRawBlockId, block)]
        nextRawBlockId := db.nextRawBlockId + 1 }
      return db.nextRawBlockId

def Log2Tables.insertRow (temporary : Bool) (row : NewRow) (db : Log2Tables) : Log2Tables :=
  { db with
    txlogs2 := db.txlogs2 ++ [⟨row db.nextTxlogs2Id, temporary⟩]
    nextTxlogs2Id := db.nextTxlogs2Id + 1 }

def multiInsert (rows : List NewRow) : ProducerM Unit :=
  forM rows fun row => statement (Log2Tables.insertRow true row)

/--
The repository and `0_memrepo_txs` after the changes of the one are made in the
other.  A `DELETE` takes as many rows as it expects if all of its hashes are there.
-/
def syncToDB (m : MemTxRepository) (memrepoTxs : List Uint256) :
    Except ProducerFault (MemTxRepository × List Uint256) :=
  if (inOrder m.unSyncTxsInsert).any (· ∈ memrepoTxs) then .error .duplicateEntry
  else
    let memrepoTxs := memrepoTxs ++ inOrder m.unSyncTxsInsert
    if (inOrder m.unSyncTxsDelete).all (· ∈ memrepoTxs) then
      .ok ({ m with unSyncTxsInsert := ∅, unSyncTxsDelete := ∅ },
        memrepoTxs.filter fun hash => hash ∉ m.unSyncTxsDelete)
    else .error .affectedRows

/-- A transaction: the given update, `syncToDB` and `updateLog1FileStatus`. -/
def commit (update : Log2Tables → Log2Tables) : ProducerM Unit := do
  let s ← get
  match syncToDB s.memRepo s.db.memrepoTxs with
  | .error fault => throw fault
  | .ok (memRepo, memrepoTxs) =>
      modify fun s => { s with memRepo := memRepo }
      statement fun db => { update db with
        memrepoTxs := memrepoTxs
        offset := s.currLog1FileOffset }

/-- `UPDATE 0_txlogs2 SET batch_id = .. WHERE batch_id = -1` -/
def Log2Tables.setBatchId (db : Log2Tables) : Log2Tables :=
  { db with txlogs2 := db.txlogs2.map fun entry => { entry with temporary := false } }

def commitBatch (expectAffectedRows : Nat) : ProducerM Unit := do
  let affectedRows := ((← get).db.txlogs2.filter fun entry => entry.temporary).length
  if expectAffectedRows ≠ 0 ∧ affectedRows ≠ expectAffectedRows then throw .affectedRows
  else commit Log2Tables.setBatchId

/-! ## The items -/

namespace MemTxRepository

/-- `std::prev(txs_.end())`, the transaction with the greatest hash. -/
def lastItem (m : MemTxRepository) : Option HashedTx :=
  m.txs (Fin.ofNat (2 ^ 256)
    (Nat.findGreatest (fun n => m.isExist (Fin.ofNat (2 ^ 256) n)) (2 ^ 256 - 1)))

/-- The loop of `clearMempoolTxs`: the repository and the hashes `removeTx()` has returned. -/
def clearTxs : Nat → MemTxRepository → List Uint256 → RepoResult (MemTxRepository × List Uint256)
  | 0, _, _ => .error .diverge
  | rounds + 1, m, removedHashes =>
      match m.lastItem with
      | none => .ok (m, removedHashes)
      | some tx => do
          let removed ← getSpentEndTx rounds m tx
          let m ← m.removeTx removed
          clearTxs rounds m (removedHashes ++ [removed])

end MemTxRepository

section Handlers

variable (raw : RawTxs) (blocks : Uint256 → RawBlock) (rounds : Nat)

def blockTxs (block : RawBlock) : List HashedTx := block.blk.vtx.map (hashedTx raw)

def handleTxAccept (hash : Uint256) : ProducerM Unit := do
  let s ← get
  if s.memRepo.isExist hash then return ()
  else
    let (added, memRepo) ← ofRepo (s.memRepo.addTx (hashedTx raw hash))
    if added then
      modify fun s => { s with memRepo := memRepo }
      insertRawTx hash
      commit (Log2Tables.insertRow false (acceptRow s.blkTs.getMaxTimestamp hash))
    else return ()

/-- `handleTxReject` and `clearMempoolTxs`, once the hashes are removed. -/
def rejectRemoved (memRepo : MemTxRepository) (removeHashes : List Uint256) :
    ProducerM Unit := do
  modify fun s => { s with memRepo := memRepo }
  let values := removeHashes.map rejectRow
  multiInsert values
  commitBatch values.length

def handleTxReject (hash : Uint256) : ProducerM Unit := do
  let s ← get
  if s.memRepo.isExist hash then
    insertRawTx hash
    let removed ← ofRepo (s.memRepo.removeTxAndChildTx rounds (hashedTx raw hash) [])
    rejectRemoved removed.1 removed.2
  else return ()

def clearMempoolTxs : ProducerM Unit := do
  let removed ← ofRepo ((← get).memRepo.clearTxs rounds [])
  rejectRemoved removed.1 removed.2
  if (← get).db.memrepoTxs = [] then return () else throw .memrepoNotEmpty

/-- The rest of `handleBlockAccept`, after the memory is swept. -/
def acceptSwept (block : RawBlock) (sweep : Sweep) : ProducerM Unit := do
  modify fun s => { s with memRepo := sweep.repo }
  let blockId ← insertRawBlock block
  forM block.blk.vtx insertRawTx
  let values := blockAcceptRows sweep.conflictTxs (inOrder sweep.alreadyInMemTxHashs) block blockId
    (← get).blkTs.getMaxTimestamp
  multiInsert values
  commitBatch values.length

def handleBlockAccept (block : RawBlock) : ProducerM Unit := do
  let s ← get
  match s.blkTs.pushBlock block.blockHeight block.blk.nTime.toNat with
  | none => throw .heightTwice
  | some blkTs =>
      modify fun s => { s with blkTs := blkTs }
      let sweep ← ofRepo (s.memRepo.sweepBlock rounds (blockTxs raw block))
      acceptSwept block sweep

def readdTx (tx : HashedTx) : ProducerM Unit := do
  if tx.isCoinBase then return ()
  else
    let (added, memRepo) ← ofRepo ((← get).memRepo.addTx tx)
    if added then modify fun s => { s with memRepo := memRepo }
    else throw .conflictTxs

def handleBlockRollback (block : RawBlock) : ProducerM Unit := do
  forM (blockTxs raw block).reverse readdTx
  let blockId ← insertRawBlock block
  let s ← get
  if block.blk.vtx = [] then throw .noCoinBase
  else
    let values := blockRollbackRows block blockId s.blkTs.getMaxTimestamp
    match s.blkTs.popBlock with
    | none => throw .noTimestamps
    | some blkTs =>
        modify fun s => { s with blkTs := blkTs }
        multiInsert values
        commitBatch values.length

def getBlockByHash (hash : Uint256) : ProducerM CBlock := do
  match (← get).db.rawBlocks.filter fun entry => entry.2.blockHash = hash with
  | [entry] => return entry.2.blk
  | _ => throw .noBlockOfHash

def handleBlock (blockHeight : Int) (hash : Uint256) : ProducerM Unit := do
  let s ← get
  if blockHeight > s.currBlockHeight then
    if blockHeight = s.currBlockHeight + 1 then
      handleBlockAccept raw rounds ⟨hash, blockHeight, (blocks hash).blk⟩
    else throw .heightGap
  else if blockHeight < s.currBlockHeight then
    if blockHeight + 1 = s.currBlockHeight then
      let currBlock ← getBlockByHash s.currBlockHash
      if currBlock.hashPrevBlock = hash then
        handleBlockRollback raw ⟨s.currBlockHash, s.currBlockHeight, currBlock⟩
      else throw .notParent
    else throw .heightGap
  else throw .sameHeight
  modify fun s => { s with currBlockHeight := blockHeight, currBlockHash := hash }

/-- One round of the loop in `run`. -/
def handleItem (item : Log1) : ProducerM Unit := do
  modify fun s => { s with
    currLog1FileOffset := s.currLog1FileOffset + 1
    statements := [] }
  match item with
  | .acceptTx hash => handleTxAccept raw hash
  | .removeTx hash => handleTxReject raw rounds hash
  | .block height hash => handleBlock raw blocks rounds height hash
  | .clearMemtxs => clearMempoolTxs rounds

end Handlers

/-! ## A start -/

/-- `log2.begin.block.height` and `log2.begin.block.hash` -/
structure BeginBlock where
  height : Int
  hash : Uint256
  height_nonneg : 0 ≤ height
  hash_ne_zero : hash ≠ 0

/-- A `10_` key with its value and the timestamp of the block. -/
structure StoredBlock where
  height : Int
  hash : Uint256
  timestamp : Nat

/-- What a start reads of the parser's store. -/
structure StoredChain where
  /-- `90_tparser_txlogs_offset_id` -/
  txlogsOffset : Int
  /-- the `10_` keys, from the lowest -/
  blocks : List StoredBlock

/-- One row of `_initLog2_loadMemrepoTxs`. -/
def loadMemrepoTx (raw : RawTxs) (rawTxs : Finset Uint256) (m : MemTxRepository)
    (hash : Uint256) : Except ProducerFault MemTxRepository :=
  if hash ∈ rawTxs then
    match m.addTx (hashedTx raw hash) with
    | .ok (true, m) => .ok m
    | .ok (false, _) => .error .addTxFailed
    | .error fault => .error (.repo fault)
  else .error .noRawTx

def pushStored (blkTs : BlockTimestamp) (block : StoredBlock) :
    Except ProducerFault BlockTimestamp :=
  match blkTs.pushBlock block.height block.timestamp with
  | some blkTs => .ok blkTs
  | none => .error .heightTwice

/-- The current block of `initLog2`. -/
def beginBlock (start : BeginBlock) (store : StoredChain) (lastTxlogs2Id : Int) :
    Except ProducerFault (Int × Uint256) :=
  if lastTxlogs2Id > 0 then
    match store.blocks.getLast? with
    | none => .error .noBlockHeight
    | some block =>
        if block.hash = 0 ∨ block.height < 0 then .error .invalidBegin
        else .ok (block.height, block.hash)
  else .ok (start.height, start.hash)

def initLog2 (raw : RawTxs) (start : BeginBlock) (store : StoredChain) (db : Log2Tables) :
    Except ProducerFault Log2Producer := do
  let txlogs2 := db.txlogs2.filter fun entry => !entry.temporary
  let lastTxlogs2Id := (txlogs2.getLast?.map fun entry => entry.row.id).getD 0
  if store.txlogsOffset ≠ lastTxlogs2Id then throw .notCaughtUp
  let (height, hash) ← beginBlock start store lastTxlogs2Id
  let memRepo ← db.memrepoTxs.foldlM (loadMemrepoTx raw db.rawTxs) .empty
  let blkTs ← (store.blocks.filter fun block => height - 2016 * 2 ≤ block.height).foldlM
    pushStored ⟨2016 * 2, 0, []⟩
  return {
    memRepo := { memRepo with unSyncTxsInsert := ∅, unSyncTxsDelete := ∅ }
    blkTs := blkTs
    currBlockHeight := height
    currBlockHash := hash
    currLog1FileOffset := db.offset
    db := { db with txlogs2 := txlogs2 }
    statements := [] }

end ExplorerKV.Log2

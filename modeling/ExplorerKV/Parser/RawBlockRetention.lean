import ExplorerKV.Foundation.Machine
import ExplorerKV.Parser.BlockOps

/-!
# Producer, parser and the cleanup of old rows

Log2Producer fills `0_raw_blocks` and `0_txlogs2`; a thread of the parser
fetches rows into a buffer of 200, another handles them.  The fetching thread
deletes old rows of both tables.  One action is one SQL statement, or what a
thread does between two of them.
-/

namespace ExplorerKV.Parser

open Bitcoin Foundation

/-- A row of `0_txlogs2`; its `batch_id` is -1 while it is temporary. -/
structure TxLogs2Entry where
  row : TxLog2Row
  temporary : Bool
  deriving DecidableEq, Repr

inductive ProducerPc where
  | stopped
  | idle
  /-- `insertRawBlock` has returned; `accept` tells an advance from a rollback -/
  | haveBlock (accept : Bool) (block : RawBlock) (blockId : Int)
  /-- temporary rows are in the table -/
  | staged (expectAffectedRows : Nat)
  deriving DecidableEq, Repr

inductive FetchPc where
  | idle
  /-- with a row, before the one and the other `DELETE` -/
  | deletingRows (row : TxLog2Row)
  | deletingBlocks (row : TxLog2Row)
  | pushing (row : TxLog2Row)
  deriving DecidableEq, Repr

inductive HandlerPc where
  | idle
  | handling (row : TxLog2Row)
  /-- the raw block was not found -/
  | failed
  deriving DecidableEq, Repr

structure LagState where
  txlogs2 : List TxLogs2Entry
  nextTxlogs2Id : Int
  /-- `0_raw_blocks`, by id -/
  rawBlocks : List (Int × RawBlock)
  nextRawBlockId : Int
  producer : ProducerPc
  fetcher : FetchPc
  lastTxLog2Id : Int
  /-- `txlogsBuffer_`, the oldest row first -/
  buffer : List TxLog2Row
  handler : HandlerPc
  /-- `90_tparser_txlogs_offset_id` -/
  lastHandledId : Int
  /-- the rows handled so far, and the rows the cleanup has deleted -/
  handled : List TxLog2Row
  deletedRows : List TxLog2Row

/-! ## The rows of a batch, less their ids -/

abbrev NewRow := Int → TxLog2Row

def acceptRow (maxTimestamp : Int) (hash : Uint256) : NewRow :=
  fun id => ⟨id, .txAccept, -1, -1, maxTimestamp, hash⟩

def rejectRow (hash : Uint256) : NewRow :=
  fun id => ⟨id, .txReject, -1, -1, 0, hash⟩

def blockRow (type : Log2Type) (block : RawBlock) (blockId maxTimestamp : Int)
    (hash : Uint256) : NewRow :=
  fun id => ⟨id, type, block.blockHeight, blockId, maxTimestamp, hash⟩

/-- The values of `handleBlockAccept`. -/
def blockAcceptRows (conflictTxs alreadyInMemTxHashs : List Uint256) (block : RawBlock)
    (blockId maxTimestamp : Int) : List NewRow :=
  conflictTxs.map rejectRow ++ block.blk.vtx.flatMap fun hash =>
    (if hash ∈ alreadyInMemTxHashs then [] else [acceptRow maxTimestamp hash]) ++
      [blockRow .txConfirm block blockId maxTimestamp hash]

/-- The values of `handleBlockRollback`. -/
def blockRollbackRows (block : RawBlock) (blockId maxTimestamp : Int) : List NewRow :=
  block.blk.vtx.reverse.map (blockRow .txUnconfirm block blockId maxTimestamp) ++
    block.blk.vtx.head?.toList.map (blockRow .txReject block blockId maxTimestamp)

def numberRows (nextId : Int) : List NewRow → List TxLog2Row
  | [] => []
  | row :: rows => row nextId :: numberRows (nextId + 1) rows

inductive LagAction where
  | handleTxAccept (maxTimestamp : Int) (hash : Uint256)
  /-- `handleTxReject` and `clearMempoolTxs`, up to the commit -/
  | removeTxs (hashes : List Uint256)
  | insertRawBlock (accept : Bool) (block : RawBlock)
  /-- `multiInsert` of a block's rows -/
  | insertBlockRows (conflictTxs alreadyInMemTxHashs : List Uint256) (maxTimestamp : Int)
  | commitBatch
  /-- a restart of the producer -/
  | initLog2
  /-- the `SELECT` of `tryFetchTxLog2FromDB` -/
  | selectRow
  | deleteRows
  | deleteBlocks
  | pushFront
  | popBack
  | handle
  /-- a restart of the parser -/
  | restart

/-- Rows for which the parser reads `0_raw_blocks`. -/
def needsBlock (raw : RawTxs) (row : TxLog2Row) : Bool :=
  (raw row.txHash).tx.isCoinBase && (row.type == .txConfirm || row.type == .txReject)

namespace LagState

def initial : LagState where
  txlogs2 := []
  nextTxlogs2Id := 1
  rawBlocks := []
  nextRawBlockId := 1
  producer := .idle
  fetcher := .idle
  lastTxLog2Id := 0
  buffer := []
  handler := .idle
  lastHandledId := 0
  handled := []
  deletedRows := []

def kKeepNum : Int := 200 * 10000

/-- `SELECT * FROM 0_raw_blocks WHERE id = ..` -/
def blockById (s : LagState) : RawBlocks := fun id =>
  (s.rawBlocks.find? fun entry => entry.1 = id).map Prod.snd

/-- `IFNULL(max(id), 0)` -/
def maxRawBlockId (s : LagState) : Int :=
  (s.rawBlocks.map Prod.fst).foldl max 0

/-- New rows at the end of `0_txlogs2`. -/
def insertRows (s : LagState) (temporary : Bool) (rows : List NewRow) : LagState :=
  { s with
    txlogs2 := s.txlogs2 ++ (numberRows s.nextTxlogs2Id rows).map fun row => ⟨row, temporary⟩
    nextTxlogs2Id := s.nextTxlogs2Id + rows.length }

/-- `insertRawBlock`; the producer aborts on a height that does not match. -/
def insertRawBlock (s : LagState) (accept : Bool) (block : RawBlock) : LagState :=
  match s.rawBlocks.find? fun entry => entry.2.blockHash = block.blockHash with
  | some (id, old) =>
      if old.blockHeight = block.blockHeight then
        { s with producer := .haveBlock accept block id }
      else { s with producer := .stopped }
  | none =>
      { s with
        rawBlocks := s.rawBlocks ++ [(s.nextRawBlockId, block)]
        nextRawBlockId := s.nextRawBlockId + 1
        producer := .haveBlock accept block s.nextRawBlockId }

def commitBatch (s : LagState) (expectAffectedRows : Nat) : LagState :=
  if (s.txlogs2.filter fun entry => entry.temporary).length = expectAffectedRows then
    { s with
      txlogs2 := s.txlogs2.map fun entry => { entry with temporary := false }
      producer := .idle }
  else { s with producer := .stopped }

/-- `initLog2` goes on only if the parser has handled the last row there is. -/
def initLog2 (s : LagState) : LagState :=
  let txlogs2 := s.txlogs2.filter fun entry => !entry.temporary
  let lastTxlogs2Id := (txlogs2.getLast?.map fun entry => entry.row.id).getD 0
  { s with
    txlogs2 := txlogs2
    producer := if s.lastHandledId = lastTxlogs2Id then .idle else .stopped }

def isCleanup (row : TxLog2Row) : Bool :=
  row.id > kKeepNum && row.id % 20000 == 0

def deleteRows (s : LagState) (row : TxLog2Row) : LagState :=
  { s with
    txlogs2 := s.txlogs2.filter fun entry => ¬entry.row.id < row.id - kKeepNum
    deletedRows := s.deletedRows ++
      (s.txlogs2.filter fun entry => entry.row.id < row.id - kKeepNum).map TxLogs2Entry.row
    fetcher := .deletingBlocks row }

def deleteBlocks (s : LagState) (row : TxLog2Row) : LagState :=
  { s with
    rawBlocks := s.rawBlocks.filter fun entry => ¬entry.1 < s.maxRawBlockId - 4320
    fetcher := .pushing row }

/-- `threadHandleTxlogs`, for one row. -/
def handle (raw : RawTxs) (s : LagState) (row : TxLog2Row) : LagState :=
  if needsBlock raw row ∧ s.blockById row.blkId = none then { s with handler := .failed }
  else
    { s with
      handler := .idle
      lastHandledId := row.id
      handled := s.handled ++ [row] }

def step (raw : RawTxs) (s : LagState) : LagAction → Option LagState
  | .handleTxAccept maxTimestamp hash =>
      if s.producer = .idle then some (s.insertRows false [acceptRow maxTimestamp hash])
      else none
  | .removeTxs hashes =>
      -- no coinbase is ever in the mempool
      if s.producer = .idle ∧ ∀ hash ∈ hashes, (raw hash).tx.isCoinBase = false then
        some { s.insertRows true (hashes.map rejectRow) with
          producer := .staged hashes.length }
      else none
  | .insertRawBlock accept block =>
      if s.producer = .idle then some (s.insertRawBlock accept block) else none
  | .insertBlockRows conflictTxs alreadyInMemTxHashs maxTimestamp =>
      match s.producer with
      | .haveBlock accept block blockId =>
          if ∀ hash ∈ conflictTxs, (raw hash).tx.isCoinBase = false then
            let rows :=
              if accept then
                blockAcceptRows conflictTxs alreadyInMemTxHashs block blockId maxTimestamp
              else blockRollbackRows block blockId maxTimestamp
            some { s.insertRows true rows with producer := .staged rows.length }
          else none
      | _ => none
  | .commitBatch =>
      match s.producer with
      | .staged expectAffectedRows => some (s.commitBatch expectAffectedRows)
      | _ => none
  | .initLog2 => some s.initLog2
  | .selectRow =>
      match s.fetcher, s.txlogs2.find? fun entry =>
          entry.row.id > s.lastTxLog2Id ∧ entry.temporary = false with
      | .idle, some entry =>
          some { s with
            fetcher :=
              if isCleanup entry.row then .deletingRows entry.row else .pushing entry.row }
      | _, _ => none
  | .deleteRows =>
      match s.fetcher with
      | .deletingRows row => some (s.deleteRows row)
      | _ => none
  | .deleteBlocks =>
      match s.fetcher with
      | .deletingBlocks row => some (s.deleteBlocks row)
      | _ => none
  | .pushFront =>
      match s.fetcher with
      | .pushing row =>
          if s.buffer.length < 200 then
            some { s with
              buffer := s.buffer ++ [row]
              lastTxLog2Id := row.id
              fetcher := .idle }
          else none
      | _ => none
  | .popBack =>
      match s.handler, s.buffer with
      | .idle, row :: buffer => some { s with handler := .handling row, buffer := buffer }
      | _, _ => none
  | .handle =>
      match s.handler with
      | .handling row => some (s.handle raw row)
      | _ => none
  | .restart =>
      some { s with
        fetcher := .idle
        lastTxLog2Id := s.lastHandledId
        buffer := []
        handler := .idle }

def run (raw : RawTxs) (schedule : List LagAction) : Option LagState :=
  runs (step raw) initial schedule

end LagState

end ExplorerKV.Parser

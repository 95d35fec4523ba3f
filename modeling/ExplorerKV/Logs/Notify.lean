import ExplorerKV.Foundation.TailReader
import ExplorerKV.Logs.Text

/-!
# The notification daemon

`Notify` reads the lines `NotifyProducer` writes, inserts a row into the event
table of every application a line concerns, and saves its position now and then.
A line is handled one SQL statement at a time, and the daemon may stop between
any two.
-/

namespace ExplorerKV.Logs

open Bitcoin Foundation

/-! ## The text of a line -/

/-- `NotifyItem`, without its time -/
structure NotifyEvent where
  type : Int
  height : Int
  amount : Int
  hash : Uint256
  address : Bytes
  deriving DecidableEq, Repr

inductive ParseResult where
  | item (event : NotifyEvent)
  /-- `parse` returns false -/
  | unknownType
  /-- an assertion on the number of fields -/
  | abort
  deriving DecidableEq, Repr

def isTxEvent (type : Int) : Bool := 20 ≤ type && type ≤ 23

def isBlockEvent (type : Int) : Bool := 10 ≤ type && type ≤ 11

/-- `NotifyItem::parse`; `address_` holds 35 characters. -/
def parse (line : Bytes) : ParseResult :=
  match split line comma 6 with
  | _ :: typeText :: fields =>
      let type := (atoi typeText).toInt
      if isTxEvent type then
        match fields with
        | [address, height, hash, amount] =>
            .item ⟨type, (atoi height).toInt, (atoll amount).toInt, uint256OfHex hash,
              (address.takeWhile (· ≠ 0)).take 35⟩
        | _ => .abort
      else if isBlockEvent type then
        match fields with
        | [height, hash] => .item ⟨type, (atoi height).toInt, 0, uint256OfHex hash, []⟩
        | _ => .abort
      else .unknownType
  | _ => .abort

example : parse [120, 44, 50, 48, 44, 49, 65, 44, 45, 49, 44, 102, 70, 44, 53] =
    .item ⟨20, -1, 5, 255, [49, 65]⟩ := by
  decide +kernel

/-! ## The daemon -/

structure NotifyConfig where
  /-- the rows of `app_subcribe` -/
  subscriptions : List (Int × Bytes)
  /-- `CBitcoinAddress(address).ToString()`, if the address is valid -/
  toAddress : Bytes → Option Bytes

namespace NotifyConfig

variable (cfg : NotifyConfig)

/-- `loadAddressTableFromDB` -/
def loaded : List (Int × Bytes) :=
  cfg.subscriptions.filterMap fun (appID, address) =>
    (cfg.toAddress address).map fun a => (appID, a)

/-- `addressTable_[address]` -/
def addressTable (address : Bytes) : List Int :=
  ((cfg.loaded.filter fun row => row.2 = address).map Prod.fst).toFinset.sort

def appIds : List Int :=
  (cfg.loaded.map Prod.fst).toFinset.sort

end NotifyConfig

/-- A row of an event table, less its `id` and `created_at`. -/
structure EventRow where
  type : Int
  hash : Uint256
  height : Int
  address : Bytes
  amount : Int
  deriving DecidableEq, Repr

/--
`event_app_N`: the rows in the order of their `id`, which counts from one, each
with the line it was made for; rows below `minId` have been deleted.
-/
structure EventTable where
  rows : List (LogLine × EventRow)
  minId : Nat

/-- An SQL statement on an event table. -/
inductive EventStmt where
  | insert (appId : Int) (row : EventRow)
  /-- the row counts are read and old rows deleted -/
  | trim (appId : Int)
  deriving DecidableEq, Repr

namespace EventTable

def kMaxCount : Nat := 3000000

def trim (t : EventTable) : EventTable :=
  let maxId := t.rows.length
  if maxId > t.minId + kMaxCount + 500000 then { t with minId := maxId - kMaxCount } else t

def exec (line : LogLine) (table : Int → EventTable) : EventStmt → Int → EventTable
  | .insert appId row =>
      Function.update table appId
        { table appId with rows := (table appId).rows ++ [(line, row)] }
  | .trim appId => Function.update table appId (table appId).trim

end EventTable

/-- `handleBlockEvent` and `handleTxEvent`, as the statements they execute. -/
def eventStmts (cfg : NotifyConfig) (item : NotifyEvent) : List EventStmt :=
  if isBlockEvent item.type then
    cfg.appIds.flatMap fun appId =>
      [.insert appId ⟨item.type, item.hash, item.height, [], 0⟩, .trim appId]
  else
    (cfg.addressTable item.address).map fun appId =>
      .insert appId ⟨item.type, item.hash, item.height, item.address, item.amount⟩

def eventCount (cfg : NotifyConfig) (item : NotifyEvent) : Nat :=
  if isBlockEvent item.type then cfg.appIds.length
  else (cfg.addressTable item.address).length

inductive NotifyPc where
  | stopped
  /-- `isNewFileExist` and `readLines` -/
  | reading (reader : TailPc)
  /-- in the loop over the lines -/
  | handling (lines : List LogLine)
  | executing (line : LogLine) (stmts : List EventStmt) (cnt : Nat) (rest : List LogLine)

structure NotifyState where
  files : LogFiles
  /-- `notify.file.status` -/
  saved : Option (Nat × Nat)
  table : Int → EventTable
  logFileIndex : Nat
  logFileOffset : Nat
  pc : NotifyPc
  /-- the lines the loop has got past -/
  handled : List LogLine

inductive NotifyAction where
  /-- `NotifyProducer::write`, and its `init` after a restart -/
  | producer (a : WriteAction)
  /-- `init` and `setup` -/
  | start
  | crash
  | readLines (a : TailAction)
  | haveLines
  | nextLine
  | execute
  /-- `late`: `time(nullptr) > lastWriteDBTime + 3` -/
  | endLine (late : Bool)
  deriving DecidableEq, Repr

namespace NotifyState

def kFileMaxSize : Nat := 100 * 1024 * 1024

def initial : NotifyState where
  files := .empty
  saved := none
  table := fun _ => ⟨[], 1⟩
  logFileIndex := 0
  logFileOffset := 0
  pc := .stopped
  handled := []

variable (cfg : NotifyConfig)

def getStatus (s : NotifyState) : NotifyState :=
  match s.saved with
  | none => { s with saved := some (0, 0), logFileIndex := 0, logFileOffset := 0 }
  | some (index, offset) => { s with logFileIndex := index, logFileOffset := offset }

def updateStatus (s : NotifyState) : NotifyState :=
  { s with saved := some (s.logFileIndex, s.logFileOffset) }

/-- What `threadConsumeNotifyLogs` does with the lines it has read. -/
def haveLines (s : NotifyState) (isNewFileExist : Bool) (lines : List LogLine) :
    NotifyState :=
  if isNewFileExist ∧ lines.length = 0 then
    { s with
      logFileIndex := s.logFileIndex + 1
      logFileOffset := 0
      pc := .reading .idle }
  else if lines.length = 0 then { s with pc := .reading .idle }
  else { s with pc := .handling lines }

def beginLine (s : NotifyState) (line : LogLine) (rest : List LogLine) : NotifyState :=
  let s := { s with logFileOffset := line.offset }
  match parse line.text with
  | .abort => { s with pc := .stopped }
  | .unknownType => { s with pc := .handling rest, handled := s.handled ++ [line] }
  | .item item =>
      { s with pc := .executing line (eventStmts cfg item) (eventCount cfg item) rest }

def step (s : NotifyState) : NotifyAction → Option NotifyState
  | .producer a => (s.files.step kFileMaxSize a).map fun files => { s with files := files }
  | .start =>
      match s.pc with
      | .stopped => some { s.getStatus with pc := .reading .idle }
      | _ => none
  | .crash => some { s with pc := .stopped }
  | .readLines a =>
      match s.pc with
      | .reading reader =>
          (tailStep 500 s.files s.logFileIndex s.logFileOffset reader a).map
            fun reader => { s with pc := .reading reader }
      | _ => none
  | .haveLines =>
      match s.pc with
      | .reading (.returned next lines _) => some (s.haveLines next lines)
      | _ => none
  | .nextLine =>
      match s.pc with
      | .handling [] => some { s with pc := .reading .idle }
      | .handling (line :: rest) => some (s.beginLine cfg line rest)
      | _ => none
  | .execute =>
      match s.pc with
      | .executing line (stmt :: stmts) cnt rest =>
          some { s with
            table := EventTable.exec line s.table stmt
            pc := .executing line stmts cnt rest }
      | _ => none
  | .endLine late =>
      match s.pc with
      | .executing line [] cnt rest =>
          let s := { s with pc := .handling rest, handled := s.handled ++ [line] }
          some (if cnt > 0 ∨ late then s.updateStatus else s)
      | _ => none

def run (schedule : List NotifyAction) : Option NotifyState :=
  runs (step cfg) initial schedule

end NotifyState

end ExplorerKV.Logs

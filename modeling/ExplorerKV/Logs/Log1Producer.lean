import ExplorerKV.Foundation.Machine
import ExplorerKV.Logs.Chain
import ExplorerKV.Logs.Text

/-!
# Log1Producer

The program turns bitcoind's log0 into log1.  A start rebuilds the chain from
log1; if bitcoind has begun a new log0 it then catches up by RPC to the first
line of log0, and records that log0 is followed from there.  One action is one
answer of bitcoind, one line of log0, or what the program does between two of
them; it may be asked to stop or be killed at any moment.
-/

namespace ExplorerKV.Logs

open Bitcoin Foundation

/-- A line of log1 or log0.  A block or a transaction is named by its hash. -/
inductive Log1 where
  | block (height : Int) (hash : Uint256)
  | acceptTx (hash : Uint256)
  | removeTx (hash : Uint256)
  | clearMemtxs
  deriving DecidableEq, Repr

/-- `log1.begin.block.height` and `log1.begin.block.hash` -/
structure BeginConfig where
  beginHeight : Int
  beginHash : Uint256
  deriving DecidableEq, Repr

/-- What a start reads of the log0 directory: `BEGIN`, and of `0.log` the
first line with the offset of the second. -/
structure Log0 where
  beginTime : Bytes
  firstLine : Option Log1
  secondLineOffset : Int
  height_nonneg : ∀ height hash, firstLine = some (.block height hash) → 0 ≤ height

inductive InitError where
  | chain (error : ChainError)
  | noBlocks
  deriving DecidableEq, Repr

/-- Where the program is; between `comparing` and `popped`, and in the two
`fetching` states, it waits for bitcoind. -/
inductive ProducerPc where
  | stopped
  | clearing
  | entering
  | searching
  | comparing
  | popped
  | following
  | fetchingHash
  | fetchingBlock (hash : Uint256)
  | recordingBeginTime
  | recordingPosition
  | running
  deriving DecidableEq, Repr

structure ProducerState where
  /-- the lines of the log1 files -/
  log1 : List Log1
  /-- `LOG0_BEGIN_TIME`, empty while there is no such file -/
  log0BeginTime : Bytes
  /-- `LOG0_STATUS` -/
  log0Status : Option (Int × Int)
  pc : ProducerPc
  running : Bool
  chain : Chain
  log0 : Log0
  log0FirstLineHeight : Int
  log0FirstLineHash : Uint256
  log0FileIndex : Int
  log0FileOffset : Int
  /-- the tip when the last block line was written -/
  lastBlock : Option (Int × Uint256)

inductive ProducerAction where
  /-- `init`, up to the first line it writes -/
  | start (log0 : Log0)
  | stop
  /-- an exception outside of the code modelled, or a kill -/
  | exit
  | proceed
  /-- the answers of bitcoind; `none` where the call fails -/
  | getBlockHash (answer : Option Uint256)
  | getBlock (answer : Option Uint256)
  /-- a line of log0 -/
  | log0Item (item : Log1)
  | writeLog0IdxOffset (log0FileIndex log0FileOffset : Int)

def Chain.empty : Chain := ⟨2016 * 2, []⟩

/-! ## Reading log1 -/

section InitLog1

-- the parent of a block, which its hash determines
variable (hashPrevBlock : Uint256 → Uint256)

def loadLine : Log1 → ChainM Unit
  | .block height hash => do
      if (← get).size = 0 then Chain.pushFirst height hash
      else Chain.push height hash (hashPrevBlock hash)
  | _ => pure ()

def loadLog1 (cfg : BeginConfig) (log1 : List Log1) : ChainM Unit := do
  if log1 = [] then
    Chain.pushFirst cfg.beginHeight (if cfg.beginHeight ≥ 0 then cfg.beginHash else 0)
  else forM log1 (loadLine hashPrevBlock)

def initLog1 (cfg : BeginConfig) (log1 : List Log1) : Except InitError Chain :=
  match (loadLog1 hashPrevBlock cfg log1).run Chain.empty with
  | .error error _ => .error (.chain error)
  | .ok _ chain => if chain.size = 0 then .error .noBlocks else .ok chain

end InitLog1

/-! ## The program -/

namespace ProducerState

def emptyLog0 : Log0 := ⟨[], none, 0, fun _ _ h => by cases h⟩

def initial : ProducerState where
  log1 := []
  log0BeginTime := []
  log0Status := none
  pc := .stopped
  running := false
  chain := Chain.empty
  log0 := emptyLog0
  log0FirstLineHeight := -1
  log0FirstLineHash := 0
  log0FileIndex := -1
  log0FileOffset := -1
  lastBlock := none

def writeLog1 (s : ProducerState) (line : Log1) : ProducerState :=
  { s with log1 := s.log1 ++ [line] }

/-- `writeLog1Block`; the chain is at the block already. -/
def writeLog1Block (s : ProducerState) (height : Int) (hash : Uint256) : ProducerState :=
  { s.writeLog1 (.block height hash) with
    lastBlock := some (s.chain.getCurHeight, s.chain.getCurHash) }

/-- `chain_.push`, and the block's line. -/
def pushBlock (hashPrevBlock : Uint256 → Uint256) (s : ProducerState) (height : Int)
    (hash : Uint256) : ProducerState :=
  match (Chain.push height hash (hashPrevBlock hash)).run s.chain with
  | .error _ chain => { s with chain := chain, pc := .stopped }
  | .ok _ chain => { s with chain := chain }.writeLog1Block height hash

theorem pushBlock_next {hashPrevBlock : Uint256 → Uint256} {s : ProducerState} {hash : Uint256}
    (hprev : hashPrevBlock hash = s.chain.getCurHash) :
    s.pushBlock hashPrevBlock (s.chain.getCurHeight + 1) hash = { s with
      log1 := s.log1 ++ [.block (s.chain.getCurHeight + 1) hash]
      chain := Chain.dropOldest
        { s.chain with blocks := (s.chain.getCurHeight + 1, hash) :: s.chain.blocks }
      lastBlock := some (s.chain.getCurHeight + 1, hash) } := by
  rw [pushBlock, Chain.push_next rfl hprev]
  dsimp only [writeLog1Block, writeLog1]
  rw [Chain.getCurHeight_dropOldest, Chain.getCurHash_dropOldest]
  rfl

/-- The check between the two loops of `syncBitcoind`. -/
def leaveSearch (s : ProducerState) : ProducerState :=
  if s.chain.getCurHeight > s.log0FirstLineHeight then { s with pc := .stopped }
  else { s with pc := .following }

variable (hashPrevBlock : Uint256 → Uint256) (cfg : BeginConfig)

def start (s : ProducerState) (log0 : Log0) : ProducerState :=
  match initLog1 hashPrevBlock cfg s.log1 with
  | .error _ => s
  | .ok chain =>
      let s := { s with
        running := true
        chain := chain
        log0 := log0
        log0FirstLineHeight := -1
        log0FirstLineHash := 0
        log0FileIndex := -1
        log0FileOffset := -1 }
      if log0.beginTime ≠ s.log0BeginTime then { s with pc := .clearing }
      else
        match s.log0Status with
        | none => s
        | some (index, offset) =>
            { s with log0FileIndex := index, log0FileOffset := offset, pc := .running }

/-- Up to the next call of bitcoind, test of `running_` or write. -/
def proceed (s : ProducerState) : Option ProducerState :=
  match s.pc with
  | .clearing => some { s.writeLog1 .clearMemtxs with pc := .entering }
  | .entering =>
      if s.running = false then some { s with pc := .recordingBeginTime }
      else
        match s.log0.firstLine with
        | some (.block height hash) =>
            some { s with
              log0FirstLineHeight := height
              log0FirstLineHash := hash
              log0FileIndex := 0
              log0FileOffset := s.log0.secondLineOffset
              pc := .searching }
        | _ => some { s with pc := .stopped }
  | .searching =>
      if s.running = true ∧ s.chain.getCurHeight ≠ -1 then some { s with pc := .comparing }
      else some s.leaveSearch
  | .following =>
      if s.chain.getCurHeight < s.log0FirstLineHeight ∧ s.running = true then
        some { s with pc := .fetchingHash }
      else some { s with pc := .recordingBeginTime }
  | .recordingBeginTime =>
      some { s with log0BeginTime := s.log0.beginTime, pc := .recordingPosition }
  | .recordingPosition =>
      some { s with log0Status := some (s.log0FileIndex, s.log0FileOffset), pc := .running }
  | _ => none

/-- `getblockhash` has been answered. -/
def getBlockHash (s : ProducerState) (hash : Uint256) : Option ProducerState :=
  match s.pc with
  | .comparing =>
      if s.chain.getCurHash = hash then some s.leaveSearch
      else if s.chain.pop.size = 0 then some { s with chain := s.chain.pop, pc := .stopped }
      else some { s with chain := s.chain.pop, pc := .popped }
  | .fetchingHash => some { s with pc := .fetchingBlock hash }
  | _ => none

/-- `getblock` has been answered. -/
def getBlock (s : ProducerState) (block : Uint256) : Option ProducerState :=
  match s.pc with
  | .popped =>
      some { s.writeLog1Block s.chain.getCurHeight block with pc := .searching }
  | .fetchingBlock hash =>
      if block = hash ∧ s.chain.getCurHash = hashPrevBlock block then
        some ({ s with pc := .following }.pushBlock hashPrevBlock (s.chain.getCurHeight + 1) block)
      else some { s with pc := .stopped }
  | _ => none

def log0Item (s : ProducerState) : Log1 → ProducerState
  | .acceptTx hash => s.writeLog1 (.acceptTx hash)
  | .removeTx hash => s.writeLog1 (.removeTx hash)
  | .block height hash => s.pushBlock hashPrevBlock height hash
  | .clearMemtxs => { s with pc := .stopped }

def waiting (s : ProducerState) : Bool :=
  match s.pc with
  | .comparing | .popped | .fetchingHash | .fetchingBlock _ => true
  | _ => false

def step (s : ProducerState) : ProducerAction → Option ProducerState
  | .start log0 => if s.pc = .stopped then some (s.start hashPrevBlock cfg log0) else none
  | .stop => some { s with running := false }
  | .exit => some { s with pc := .stopped }
  | .proceed => s.proceed
  | .getBlockHash answer =>
      match answer with
      | none => if s.waiting then some { s with pc := .stopped } else none
      | some hash => s.getBlockHash hash
  | .getBlock answer =>
      match answer with
      | none => if s.waiting then some { s with pc := .stopped } else none
      | some block => s.getBlock hashPrevBlock block
  | .log0Item item => if s.pc = .running then some (s.log0Item hashPrevBlock item) else none
  | .writeLog0IdxOffset index offset =>
      if s.pc = .running then
        some { s with
          log0FileIndex := index, log0FileOffset := offset, log0Status := some (index, offset) }
      else none

def run (schedule : List ProducerAction) : Option ProducerState :=
  runs (step hashPrevBlock cfg) initial schedule

end ProducerState

end ExplorerKV.Logs

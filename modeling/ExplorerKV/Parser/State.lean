import ExplorerKV.Foundation.Exec
import ExplorerKV.Bitcoin.Script
import ExplorerKV.KVDB.Store

/-!
# The parser's state and its primitives

`ParserM` is a computation over the key-value store, the address cache and the
counters of `Parser`.  Every put and delete is also appended to `written`, so
the store after any prefix of an operation's writes can be recovered; this
trace is the only part of the state the code does not have.
-/

namespace ExplorerKV.Parser

open Bitcoin Foundation

/-- The types of `0_txlogs2` rows: 100, 200, 300 and 400. -/
inductive Log2Type where
  | txAccept
  | txConfirm
  | txUnconfirm
  | txReject
  deriving DecidableEq, Repr

structure TxLog2 where
  id : Int
  type : Log2Type
  blkHeight : Int
  blkId : Int
  maxBlkTimestamp : Nat
  txHash : Uint256
  tx : CTransaction
  /-- the length of `txHex_` -/
  txHexLength : Nat
  deriving DecidableEq, Repr

/-- The `assert`s of the functions below. -/
inductive AssertSite where
  | getAddressInfo
  | acceptTx
  | removeUnspentOutputs
  | unconfirmAddressTxNode
  | removeAddressTxNode
  | rejectAddressTxs
  | insertBlock
  deriving DecidableEq, Repr

inductive Fault where
  /-- the exception of `KVDB::get` -/
  | notFoundKey (key : Key)
  /-- the exception of `GetValueOut` -/
  | valueOutOfRange
  /-- the exception of `_getBlockRawHexByBlockId` -/
  | noRawBlock (blkId : Int)
  | assertion (site : AssertSite)
  /-- reading a record out of an empty value, or past the end of a vector -/
  | undefinedBehaviour
  /-- a `while (1)` used up the rounds it was given -/
  | diverge
  deriving DecidableEq, Repr

/-- What the parser is configured with, and the code outside the repository. -/
structure Config where
  /-- `kMaxCacheCount`; `none` is a cache that never evicts -/
  kMaxCacheCount : Option Nat
  /-- `notification.begin.height` -/
  notifyBeginHeight : Int
  /-- `Params().SubsidyHalvingInterval()` -/
  subsidyHalvingInterval : Int
  /-- RIPEMD160 of SHA256 -/
  Hash160 : List UInt8 → Uint160
  /-- `CBitcoinAddress(dest).ToString()` -/
  addressToString : CTxDestination → Address
  /--
  What `%s` makes of the `uint256` object that `_removeAddressTxNode` passes to
  `Strings::Format` in place of a C string.
  -/
  formatObject : TxLog2 → Address → HashText
  /-- rounds granted to a `while (1)` -/
  swapRounds : Nat

inductive NotifyItem where
  | block (accept : Bool) (hash : Uint256) (height : Int)
  | tx (type : Log2Type) (address : Address) (txHash : Uint256)
      (height : Int) (balanceDiff : Int)
  deriving DecidableEq, Repr

structure CacheEntry where
  info : AddressInfo
  lastUseIdx : Int
  deriving DecidableEq, Repr

structure ParserState where
  kv : KVDB
  addrTxCache : List (Address × CacheEntry)
  lastUseIdx : Int
  unconfirmedTxsCount : Int
  unconfirmedTxsSize : Int
  currBlockHeight : Int
  notifyLog : List NotifyItem
  written : List KVWrite

/-- A parser started on the given store (`Parser::Parser` and `init`). -/
def ParserState.start (kv : KVDB) : ParserState where
  kv := kv
  addrTxCache := []
  lastUseIdx := 0
  unconfirmedTxsCount := (kv .unconfirmedTxsCount).getD 0
  unconfirmedTxsSize := (kv .unconfirmedTxsSize).getD 0
  currBlockHeight := -1
  notifyLog := []
  written := []

def ParserState.initial : ParserState := .start KVDB.empty

abbrev ParserM (α : Type) := Exec Fault ParserState α

/-- `assert(c)` -/
def assertion (site : AssertSite) (c : Prop) [Decidable c] : ParserM Unit :=
  if c then pure () else throw (.assertion site)

/-! ## Store access -/

def ParserState.write (s : ParserState) (w : KVWrite) : ParserState :=
  { s with kv := s.kv.apply w, written := s.written ++ [w] }

def kvSet (key : Key) (val : key.Val) : ParserM Unit :=
  modify fun s => s.write ⟨key, some val⟩

def kvDel (key : Key) : ParserM Unit :=
  modify fun s => s.write ⟨key, none⟩

def kvGetMayNotExist (key : Key) : ParserM (Option key.Val) := do
  let s ← get
  pure (s.kv key)

/-- `KVDB::get` -/
def kvGet (key : Key) : ParserM key.Val := do
  match ← kvGetMayNotExist key with
  | some val => pure val
  | none => throw (.notFoundKey key)

/-- One value of `KVDB::multiGet`, whose caller does not test for absence.  The copies of
the keys that its `Slice`s point into share the buffers of the keys. -/
def kvGetUnchecked (key : Key) : ParserM key.Val := do
  match ← kvGetMayNotExist key with
  | some val => pure val
  | none => throw .undefinedBehaviour

/-! ## The address cache -/

/-- The clearing pass of `_getAddressInfo`, run when the cache has overflowed. -/
def evictCache (kMaxCacheCount : Option Nat) (lastUseIdx : Int)
    (cache : List (Address × CacheEntry)) : List (Address × CacheEntry) :=
  match kMaxCacheCount with
  | none => cache
  | some bound =>
      if cache.length > bound then
        cache.filter fun entry =>
          entry.2.lastUseIdx > lastUseIdx - (bound / 2 : Nat)
      else cache

def getAddressInfo (cfg : Config) (address : Address) : ParserM AddressInfo := do
  let s ← get
  match s.addrTxCache.lookup address with
  | some entry => pure entry.info
  | none =>
      let info := (s.kv (.addrObject address)).getD AddressInfo.empty
      let cache := evictCache cfg.kMaxCacheCount (s.lastUseIdx + 1)
        ((address, ⟨info, s.lastUseIdx⟩) :: s.addrTxCache)
      set { s with addrTxCache := cache, lastUseIdx := s.lastUseIdx + 1 }
      match cache.lookup address with
      | some entry => pure entry.info
      | none => throw (.assertion .getAddressInfo)

def updateCache (address : Address) (info : AddressInfo)
    (cache : List (Address × CacheEntry)) : List (Address × CacheEntry) :=
  cache.map fun entry =>
    if entry.1 = address then (entry.1, { entry.2 with info := info }) else entry

/--
Assignments through the pointer `_getAddressInfo` returned.  A pointer whose
entry has been evicted is no longer reachable through the cache.
-/
def putAddressInfo (address : Address) (info : AddressInfo) : ParserM Unit :=
  modify fun s => { s with addrTxCache := updateCache address info s.addrTxCache }

/-! ## Balance maps -/

/-- `map<string, int64_t>`, ordered by address. -/
abbrev BalanceMap := List (Address × Int)

/-- `addressBalance[address] += value` -/
def BalanceMap.add (address : Address) (value : Int) : BalanceMap → BalanceMap
  | [] => [(address, value)]
  | (a, v) :: rest =>
      if address < a then (address, value) :: (a, v) :: rest
      else if address = a then (a, v + value) :: rest
      else (a, v) :: add address value rest

def outputAddresses (cfg : Config) (out : CTxOut) : List Address :=
  (extractDestinations cfg.Hash160 out.scriptPubKey).map cfg.addressToString

end ExplorerKV.Parser

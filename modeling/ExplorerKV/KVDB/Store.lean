import ExplorerKV.Bitcoin.Core

/-!
# The key-value store

One constructor of `Key` for each key family of `docs/KVDBKeys.md`.  The
values are the FlatBuffers records of `explorer.fbs`, without the fields that
nothing modelled here reads (script texts, creation times, and the parts of a
block that only the API shows).
-/

namespace ExplorerKV

open Bitcoin

abbrev Address := String

/--
The text a hash is spelled with inside a key.  `ToString()` gives `hex`; the
text of a conversion that does not go through `ToString()` is `other`.
-/
inductive HashText where
  | hex (hash : Uint256)
  | other (text : String)
  deriving DecidableEq, Repr

inductive Key where
  | txObject (hash : Uint256)
  | txSpend (hash : Uint256) (position : Nat)
  | txUnconfirmed (hash : Uint256)
  | blockHeight (height : Int)
  | blockObject (hash : Uint256)
  | blockTxsStr (hash : Uint256) (n : Nat)
  | blockOrphan (height : Int)
  | blockTimestamp (timestamp : Nat) (height : Int)
  | addrObject (address : Address)
  | addrTx (address : Address) (index : Int)
  | addrTxIndex (address : Address) (hash : HashText)
  | addrUnspent (address : Address) (index : Int)
  | addrUnspentIndex (address : Address) (hash : Uint256) (position : Nat)
  | unconfirmedTxsSize
  | unconfirmedTxsCount
  | txlogsOffsetId
  deriving DecidableEq, Repr

structure TxInput where
  sequence : UInt32
  prevTxHash : Uint256
  prevPosition : Int
  prevValue : Int
  prevAddresses : List Address
  deriving DecidableEq, Repr

structure TxOutput where
  value : Int
  addresses : List Address
  deriving DecidableEq, Repr

structure Tx where
  blockHeight : Int
  blockTime : Nat
  isCoinbase : Bool
  version : Int
  lockTime : UInt32
  size : Nat
  fee : Int
  inputs : List TxInput
  inputsCount : Nat
  inputsValue : Int
  outputs : List TxOutput
  outputsCount : Nat
  outputsValue : Int
  isDoubleSpend : Bool
  deriving DecidableEq, Repr

structure TxSpentBy where
  position : Nat
  txHash : Uint256
  deriving DecidableEq, Repr

structure UnconfirmedTx where
  txHash : Uint256
  fee : Int
  size : Nat
  deriving DecidableEq, Repr

structure Block where
  height : Int
  timestamp : UInt32
  prevBlockHash : Uint256
  nextBlockHash : Uint256
  txCount : Nat
  rewardBlock : Int
  rewardFees : Int
  isOrphan : Bool
  currMaxTimestamp : Nat
  deriving DecidableEq, Repr

/-- The nine fields of `fbe::Address`, which are those of `AddressInfo`. -/
structure AddressInfo where
  txCount : Int
  received : Int
  sent : Int
  unconfirmedTxCount : Int
  unconfirmedReceived : Int
  unconfirmedSent : Int
  unspentTxCount : Int
  unspentTxIndex : Int
  lastConfirmedTxIdx : Int
  deriving DecidableEq, Repr

/-- `AddressInfo::AddressInfo(lastUseIdx)` -/
def AddressInfo.empty : AddressInfo where
  txCount := 0
  received := 0
  sent := 0
  unconfirmedTxCount := 0
  unconfirmedReceived := 0
  unconfirmedSent := 0
  unspentTxCount := 0
  unspentTxIndex := -1
  lastConfirmedTxIdx := -1

structure AddressTx where
  balanceDiff : Int
  txHash : Uint256
  txHeight : Int
  txBlockTime : Nat
  deriving DecidableEq, Repr

structure AddressUnspent where
  value : Int
  txHash : Uint256
  position : Nat
  position2 : Nat
  deriving DecidableEq, Repr

@[reducible] def Key.Val : Key → Type
  | .txObject _ => Tx
  | .txSpend _ _ => TxSpentBy
  | .txUnconfirmed _ => UnconfirmedTx
  | .blockHeight _ => Uint256
  | .blockObject _ => Block
  | .blockTxsStr _ _ => List Uint256
  | .blockOrphan _ => List Uint256
  | .blockTimestamp _ _ => Uint256
  | .addrObject _ => AddressInfo
  | .addrTx _ _ => AddressTx
  | .addrTxIndex _ _ => Int
  | .addrUnspent _ _ => AddressUnspent
  | .addrUnspentIndex _ _ _ => Int
  | .unconfirmedTxsSize => Int
  | .unconfirmedTxsCount => Int
  | .txlogsOffsetId => Int

abbrev KVDB := (key : Key) → Option key.Val

/-- One put (`some`) or delete (`none`). -/
structure KVWrite where
  key : Key
  val : Option key.Val

namespace KVDB

def empty : KVDB := fun _ => none

def apply (kv : KVDB) (w : KVWrite) : KVDB := Function.update kv w.key w.val

@[simp] theorem apply_self (kv : KVDB) (key : Key) (val : Option key.Val) :
    kv.apply ⟨key, val⟩ key = val :=
  Function.update_self ..

theorem apply_of_ne (kv : KVDB) {key key' : Key} (val : Option key.Val)
    (h : key' ≠ key) : kv.apply ⟨key, val⟩ key' = kv key' :=
  Function.update_of_ne h ..

end KVDB

end ExplorerKV

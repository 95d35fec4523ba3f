import Mathlib

/-!
# Transactions

The part of `bitcoin/core.h` the explorer reads: outpoints, inputs, outputs,
transactions and blocks.  A transaction is named by its hash, so `GetHash` is
not modelled: the hash is what the log rows carry.
-/

namespace ExplorerKV.Bitcoin

abbrev Uint256 := Fin (2 ^ 256)

instance neZeroUint256 : NeZero (2 ^ 256) := ⟨by decide⟩

instance lawfulBEqUint256 : LawfulBEq Uint256 := inferInstance

abbrev CScript := List UInt8

/-- `Hash160` and the key and script identifiers are 20 bytes. -/
abbrev Uint160 := List UInt8

structure COutPoint where
  hash : Uint256
  n : UInt32
  deriving DecidableEq, Repr

def COutPoint.isNull (out : COutPoint) : Bool :=
  out.hash == 0 && out.n == 0xffffffff

structure CTxIn where
  prevout : COutPoint
  nSequence : UInt32
  deriving DecidableEq, Repr

structure CTxOut where
  nValue : Int
  scriptPubKey : CScript
  deriving DecidableEq, Repr

structure CTransaction where
  nVersion : Int
  vin : List CTxIn
  vout : List CTxOut
  nLockTime : UInt32
  deriving DecidableEq, Repr

namespace CTransaction

def isCoinBase (tx : CTransaction) : Bool :=
  match tx.vin with
  | [input] => input.prevout.isNull
  | _ => false

def prevouts (tx : CTransaction) : List COutPoint :=
  if tx.isCoinBase then [] else tx.vin.map (·.prevout)

theorem prevouts_of_isCoinBase {tx : CTransaction} (h : tx.isCoinBase) :
    tx.prevouts = [] := by
  simp [prevouts, h]

theorem prevouts_of_not_isCoinBase {tx : CTransaction} (h : ¬tx.isCoinBase) :
    tx.prevouts = tx.vin.map (·.prevout) := by
  simp [prevouts, h]

end CTransaction

def COIN : Int := 100000000

def maxMoney : Int := 21000000 * COIN

def moneyRange (nValue : Int) : Bool := 0 ≤ nValue && nValue ≤ maxMoney

/-- `GetValueOut`: `none` is the "value out of range" exception. -/
def CTransaction.getValueOut (tx : CTransaction) : Option Int :=
  tx.vout.foldlM (fun nValueOut txout =>
    let nValueOut := nValueOut + txout.nValue
    if moneyRange txout.nValue && moneyRange nValueOut then some nValueOut
    else none) 0

/-- `GetBlockValue`, with the halving interval of the selected network. -/
def getBlockValue (subsidyHalvingInterval : Int) (nHeight nFees : Int) : Int :=
  let nSubsidy := 50 * COIN
  let halvings := nHeight.tdiv subsidyHalvingInterval
  if halvings ≥ 64 then nFees
  else (nSubsidy >>> halvings.toNat) + nFees

structure CBlock where
  hashPrevBlock : Uint256
  nTime : UInt32
  /-- the hashes of `vtx`, the coinbase first -/
  vtx : List Uint256
  deriving DecidableEq, Repr

end ExplorerKV.Bitcoin

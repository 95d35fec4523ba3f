import ExplorerKV.Bitcoin.Core

/-!
# Output scripts and their destinations

`Solver` and `ExtractDestinations` of `bitcoin/script.cpp`.  A script is a
byte string; `getOp` reads one operation.  The templates contain no push
operation, so reading one of theirs gives its opcode and an empty operand.
-/

namespace ExplorerKV.Bitcoin

abbrev ValType := List UInt8

inductive TxnOutType where
  | nonstandard
  | pubkey
  | pubkeyhash
  | scripthash
  | multisig
  | nullData
  deriving DecidableEq, Repr

inductive CTxDestination where
  | noDestination
  | keyID (id : Uint160)
  | scriptID (id : Uint160)
  deriving DecidableEq, Repr

namespace Op

def zero : UInt8 := 0x00
def pushdata1 : UInt8 := 0x4c
def pushdata2 : UInt8 := 0x4d
def pushdata4 : UInt8 := 0x4e
def one : UInt8 := 0x51
def sixteen : UInt8 := 0x60
def ret : UInt8 := 0x6a
def dup : UInt8 := 0x76
def equal : UInt8 := 0x87
def equalverify : UInt8 := 0x88
def hash160 : UInt8 := 0xa9
def checksig : UInt8 := 0xac
def checkmultisig : UInt8 := 0xae
def smalldata : UInt8 := 0xf9
def smallinteger : UInt8 := 0xfa
def pubkeys : UInt8 := 0xfb
def pubkeyhash : UInt8 := 0xfd
def pubkey : UInt8 := 0xfe
def invalidopcode : UInt8 := 0xff

end Op

def littleEndian : List UInt8 → Nat
  | [] => 0
  | b :: bytes => b.toNat + 256 * littleEndian bytes

/-- The operand of `nSize` bytes, when the script still holds it. -/
def takeOperand (opcode : UInt8) (nSize : Nat) (pc : CScript) :
    Option (UInt8 × ValType × CScript) :=
  if pc.length < nSize then none
  else some (opcode, pc.take nSize, pc.drop nSize)

/-- `GetOp2`: opcode, operand and the rest of the script. -/
def getOp : CScript → Option (UInt8 × ValType × CScript)
  | [] => none
  | opcode :: pc =>
      if opcode < Op.pushdata1 then takeOperand opcode opcode.toNat pc
      else if opcode = Op.pushdata1 then
        match pc with
        | [] => none
        | size :: pc => takeOperand opcode size.toNat pc
      else if opcode = Op.pushdata2 then
        if pc.length < 2 then none
        else takeOperand opcode (littleEndian (pc.take 2)) (pc.drop 2)
      else if opcode = Op.pushdata4 then
        if pc.length < 4 then none
        else takeOperand opcode (littleEndian (pc.take 4)) (pc.drop 4)
      else some (opcode, [], pc)

def isPubkeySize (vch : ValType) : Bool := 33 ≤ vch.length && vch.length ≤ 65

/--
The inner loop of `OP_PUBKEYS`: collect operands as long as they have the size
of a public key.  Every round consumes at least one byte, so the length of the
script bounds the rounds.  A failed read leaves `OP_INVALIDOPCODE`.
-/
def takePubkeys : Nat → UInt8 → ValType → CScript → List ValType →
    UInt8 × ValType × CScript × List ValType
  | 0, opcode, vch, pc, solutions => (opcode, vch, pc, solutions)
  | fuel + 1, opcode, vch, pc, solutions =>
      if isPubkeySize vch then
        match getOp pc with
        | none => (Op.invalidopcode, [], pc, solutions ++ [vch])
        | some (opcode', vch', pc') =>
            takePubkeys fuel opcode' vch' pc' (solutions ++ [vch])
      else (opcode, vch, pc, solutions)

def maxOpReturnRelay : Nat := 40

def isSmallInteger (opcode : UInt8) : Bool :=
  opcode == Op.zero || (Op.one ≤ opcode && opcode ≤ Op.sixteen)

def decodeOpN (opcode : UInt8) : UInt8 :=
  if opcode = Op.zero then 0 else opcode - (Op.one - 1)

def matchOp (opcode2 opcode1 : UInt8) (vch1 : ValType)
    (solutions : List ValType) : Option (List ValType) :=
  if opcode2 = Op.pubkey then
    if isPubkeySize vch1 then some (solutions ++ [vch1]) else none
  else if opcode2 = Op.pubkeyhash then
    if vch1.length = 20 then some (solutions ++ [vch1]) else none
  else if opcode2 = Op.smallinteger then
    if isSmallInteger opcode1 then some (solutions ++ [[decodeOpN opcode1]])
    else none
  else if opcode2 = Op.smalldata then
    if vch1.length > maxOpReturnRelay then none else some solutions
  else if opcode1 ≠ opcode2 ∨ vch1 ≠ [] then none
  else some solutions

/-- The `while (true)` of `Solver` for one template. -/
def matchTemplate : List UInt8 → CScript → List ValType → Option (List ValType)
  | [], [], solutions => some solutions
  | [], _ :: _, _ => none
  | opcode2 :: template, pc, solutions => do
      let (opcode1, vch1, pc) ← getOp pc
      if opcode2 = Op.pubkeys then
        let (opcode1, vch1, pc, solutions) :=
          takePubkeys (pc.length + 1) opcode1 vch1 pc solutions
        match template with
        | [] => none
        | opcode2 :: template =>
            let solutions ← matchOp opcode2 opcode1 vch1 solutions
            matchTemplate template pc solutions
      else
        let solutions ← matchOp opcode2 opcode1 vch1 solutions
        matchTemplate template pc solutions

/-- `mTemplates`, in the order of the multimap. -/
def templates : List (TxnOutType × List UInt8) :=
  [(.pubkey, [Op.pubkey, Op.checksig]),
   (.pubkeyhash,
     [Op.dup, Op.hash160, Op.pubkeyhash, Op.equalverify, Op.checksig]),
   (.multisig,
     [Op.smallinteger, Op.pubkeys, Op.smallinteger, Op.checkmultisig]),
   (.nullData, [Op.ret, Op.smalldata]),
   (.nullData, [Op.ret])]

/-- The additional checks for `TX_MULTISIG`. -/
def multisigOk (solutions : List ValType) : Bool :=
  match solutions.head?.bind (·.head?), solutions.getLast?.bind (·.head?) with
  | some m, some n =>
      !(m < 1 || n < 1 || m > n || solutions.length - 2 != n.toNat)
  | _, _ => false

def isPayToScriptHash (script : CScript) : Bool :=
  script.length == 23 && script[0]? == some Op.hash160 &&
    script[1]? == some 0x14 && script[22]? == some Op.equal

def scanTemplates (script : CScript) :
    List (TxnOutType × List UInt8) → Option (TxnOutType × List ValType)
  | [] => none
  | (type, template) :: rest =>
      match matchTemplate template script [] with
      | some solutions =>
          if type = .multisig && !multisigOk solutions then none
          else some (type, solutions)
      | none => scanTemplates script rest

/-- `Solver`: `none` where the source returns `false`. -/
def solver (script : CScript) : Option (TxnOutType × List ValType) :=
  if isPayToScriptHash script then
    some (.scripthash, [(script.drop 2).take 20])
  else scanTemplates script templates

/-- `CPubKey::GetLen` -/
def pubKeyLen (header : UInt8) : Nat :=
  if header = 2 ∨ header = 3 then 33
  else if header = 4 ∨ header = 6 ∨ header = 7 then 65
  else 0

/--
The bytes a `CPubKey` built from `vch` hands to `Hash160`: an invalid key has
size zero, so all invalid keys share one identifier.
-/
def pubKeyBytes : ValType → ValType
  | [] => []
  | header :: vch =>
      if pubKeyLen header = vch.length + 1 then header :: vch else []

section Destinations

variable (Hash160 : List UInt8 → Uint160)

/-- `CPubKey(vch).GetID()` -/
def pubKeyID (vch : ValType) : CTxDestination :=
  .keyID (Hash160 (pubKeyBytes vch))

/-- `ExtractDestination`, on the first solution of the script. -/
def extractDestination (type : TxnOutType) (solutions : List ValType) :
    Option CTxDestination :=
  match type, solutions with
  | .pubkey, vch :: _ => some (pubKeyID Hash160 vch)
  | .pubkeyhash, id :: _ => some (.keyID id)
  | .scripthash, id :: _ => some (.scriptID id)
  | _, _ => none

/--
`ExtractDestinations`: the list left in `addressRet`.  It is empty whenever
the source returns `false`, which is all its callers use of the result.
-/
def extractDestinations (script : CScript) : List CTxDestination :=
  match solver script with
  | none => []
  | some (.nullData, _) => []
  | some (.multisig, solutions) =>
      (solutions.tail.dropLast).map (pubKeyID Hash160)
  | some (type, solutions) => (extractDestination Hash160 type solutions).toList

/-- The result of `ExtractDestinations`. -/
def extractDestinationsOk (script : CScript) : Bool :=
  match solver script with
  | none => false
  | some (.nullData, _) => false
  | some (.multisig, _) => true
  | some (type, solutions) => (extractDestination Hash160 type solutions).isSome

theorem extractDestinations_of_not_ok {script : CScript}
    (h : extractDestinationsOk Hash160 script = false) :
    extractDestinations Hash160 script = [] := by
  unfold extractDestinationsOk at h
  unfold extractDestinations
  cases hsolver : solver script with
  | none => rfl
  | some solved =>
      obtain ⟨type, solutions⟩ := solved
      rw [hsolver] at h
      cases type with
      | nullData => rfl
      | multisig => cases h
      | _ => simpa using h

end Destinations

def repeatedKeyScript (key : ValType) : CScript :=
  [Op.one, 33] ++ key ++ [33] ++ key ++ [Op.one + 1, Op.checkmultisig]

theorem extractDestinations_repeatedKey (Hash160 : List UInt8 → Uint160) :
    extractDestinations Hash160 (repeatedKeyScript (2 :: List.replicate 32 7)) =
      List.replicate 2 (pubKeyID Hash160 (2 :: List.replicate 32 7)) := by
  rfl

end ExplorerKV.Bitcoin

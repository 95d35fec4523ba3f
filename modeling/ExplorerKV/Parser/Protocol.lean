import ExplorerKV.Foundation.Runs
import ExplorerKV.Parser.TxOps

/-!
# The `0_txlogs2` protocol

A run is a list of rows.  `fetchTxLog2` turns a row into the `TxLog2` the
parser works on, with the raw transaction that the explorer database holds for
its hash.  A `Ledger` is what the rows handled so far say about each
transaction; `TxAllowed` is the automaton of `docs/TXLOGS.md`, `Lifo` says that
unconfirms undo confirms in reverse, `Deps` is the dependency order.
-/

namespace ExplorerKV.Parser

open Bitcoin Foundation

/-! ## Rows -/

structure TxLog2Row where
  id : Int
  type : Log2Type
  blkHeight : Int
  blkId : Int
  maxBlkTimestamp : Int
  txHash : Uint256
  deriving DecidableEq, Repr

structure RawTx where
  tx : CTransaction
  /-- the length of the hex text -/
  hexLength : Nat
  deriving DecidableEq, Repr

abbrev RawTxs := Uint256 → RawTx

/-- `UNCONFIRM_TX_TIMESTAMP`, 2030-01-01 -/
def unconfirmTxTimestamp : Nat := 1893456000

/-- `tryFetchTxLog2FromDB`, on the row it has selected. -/
def fetchTxLog2 (raw : RawTxs) (row : TxLog2Row) : TxLog2 where
  id := row.id
  type := row.type
  blkHeight := row.blkHeight
  blkId := row.blkId
  maxBlkTimestamp :=
    if row.type = .txAccept then unconfirmTxTimestamp
    else (row.maxBlkTimestamp % 2 ^ 32).toNat
  txHash := row.txHash
  tx := (raw row.txHash).tx
  txHexLength := (raw row.txHash).hexLength

@[simp] theorem fetchTxLog2_txHash (raw : RawTxs) (row : TxLog2Row) :
    (fetchTxLog2 raw row).txHash = row.txHash := rfl

@[simp] theorem fetchTxLog2_tx (raw : RawTxs) (row : TxLog2Row) :
    (fetchTxLog2 raw row).tx = (raw row.txHash).tx := rfl

/--
What the object passed for `%s` is spelled as in a key is never the text of
another transaction's hash.
-/
def Config.FormatsNoOtherHash (cfg : Config) : Prop :=
  ∀ txLog2 address hash, cfg.formatObject txLog2 address = .hex hash →
    hash = txLog2.txHash

def applyRow (cfg : Config) (raw : RawTxs) (row : TxLog2Row) : ParserM Unit :=
  applyTxLog2 cfg (fetchTxLog2 raw row)

def applyRows (cfg : Config) (raw : RawTxs) (rows : List TxLog2Row) :
    ParserM Unit :=
  forM rows (applyRow cfg raw)

theorem applyRows_append {cfg : Config} {raw : RawTxs} {earlier later : List TxLog2Row} :
    applyRows cfg raw (earlier ++ later) =
      (do applyRows cfg raw earlier; applyRows cfg raw later) :=
  List.forM_append

/-- `applyRows` on an empty store. -/
def runRows (cfg : Config) (raw : RawTxs) (rows : List TxLog2Row) :
    Except Fault (Unit × ParserState) :=
  applyRows cfg raw rows ParserState.initial

/-! ## The ledger -/

inductive TxStatus where
  | absent
  | unconfirmed
  | confirmed
  deriving DecidableEq, Repr

def Log2Type.statusBefore : Log2Type → TxStatus
  | .txAccept => .absent
  | .txConfirm | .txReject => .unconfirmed
  | .txUnconfirm => .confirmed

def Log2Type.statusAfter : Log2Type → TxStatus
  | .txAccept | .txUnconfirm => .unconfirmed
  | .txConfirm => .confirmed
  | .txReject => .absent

structure Ledger where
  status : Uint256 → TxStatus
  /-- the confirmed transactions, the latest first -/
  confirmed : List Uint256
  /-- the transactions of all rejects so far -/
  rejected : List Uint256

namespace Ledger

def empty : Ledger := ⟨fun _ => .absent, [], []⟩

/-- Accepted, and not rejected since. -/
def Live (p : Ledger) (hash : Uint256) : Prop := p.status hash ≠ .absent

instance (p : Ledger) (hash : Uint256) : Decidable (p.Live hash) :=
  inferInstanceAs (Decidable (_ ≠ _))

def next (p : Ledger) (row : TxLog2Row) : Ledger where
  status := Function.update p.status row.txHash row.type.statusAfter
  confirmed :=
    match row.type with
    | .txConfirm => row.txHash :: p.confirmed
    | .txUnconfirm => p.confirmed.erase row.txHash
    | .txAccept | .txReject => p.confirmed
  rejected := if row.type = .txReject then row.txHash :: p.rejected else p.rejected

def after (rows : List TxLog2Row) : Ledger := rows.foldl next empty

/-- The allowed transitions of a transaction, and the heights they carry. -/
structure TxAllowed (p : Ledger) (row : TxLog2Row) : Prop where
  status : p.status row.txHash = row.type.statusBefore
  accept_height : row.type = .txAccept → row.blkHeight = -1
  confirm_height : row.type = .txConfirm → 0 ≤ row.blkHeight

instance (p : Ledger) (row : TxLog2Row) : Decidable (p.TxAllowed row) :=
  decidable_of_iff (p.status row.txHash = row.type.statusBefore ∧
      (row.type = .txAccept → row.blkHeight = -1) ∧
      (row.type = .txConfirm → 0 ≤ row.blkHeight))
    ⟨fun h => ⟨h.1, h.2.1, h.2.2⟩, fun h => ⟨h.1, h.2, h.3⟩⟩

/-- An unconfirm undoes the latest confirm that is still in force. -/
def Lifo (p : Ledger) (row : TxLog2Row) : Prop :=
  row.type = .txUnconfirm → p.confirmed.head? = some row.txHash

instance (p : Ledger) (row : TxLog2Row) : Decidable (p.Lifo row) :=
  inferInstanceAs (Decidable (_ → _))

def NotSpent (raw : RawTxs) (p : Ledger) (out : COutPoint) : Prop :=
  ∀ hash, p.Live hash → out ∉ (raw hash).tx.prevouts

/--
The dependency order: a transaction is accepted after the transactions it
spends and rejected before them, and no output is spent by two live ones.
-/
structure Deps (raw : RawTxs) (p : Ledger) (row : TxLog2Row) : Prop where
  accept_nodup : row.type = .txAccept → (raw row.txHash).tx.prevouts.Nodup
  accept_prevout : row.type = .txAccept →
    ∀ out ∈ (raw row.txHash).tx.prevouts,
      p.Live out.hash ∧ out.n.toNat < (raw out.hash).tx.vout.length ∧
        p.NotSpent raw out
  reject_unspent : row.type = .txReject →
    ∀ out : COutPoint, out.hash = row.txHash → p.NotSpent raw out

/-! ## Facts about ledgers -/

theorem next_status (p : Ledger) (row : TxLog2Row) (hash : Uint256) :
    (p.next row).status hash =
      if hash = row.txHash then row.type.statusAfter else p.status hash := by
  simp [next, Function.update_apply]

theorem next_live (p : Ledger) (row : TxLog2Row) (hash : Uint256) :
    (p.next row).Live hash ↔
      if hash = row.txHash then row.type ≠ .txReject else p.Live hash := by
  unfold Live
  rw [next_status]
  by_cases heq : hash = row.txHash
  · cases htype : row.type <;> simp [heq, Log2Type.statusAfter]
  · simp [heq]

/-- The stack holds exactly the confirmed transactions, each once. -/
structure WellFormed (p : Ledger) : Prop where
  nodup : p.confirmed.Nodup
  mem_iff : ∀ hash, hash ∈ p.confirmed ↔ p.status hash = .confirmed

theorem wellFormed_empty : empty.WellFormed := ⟨List.nodup_nil, by simp [empty]⟩

theorem WellFormed.next {p : Ledger} {row : TxLog2Row} (hp : p.WellFormed)
    (hallowed : p.TxAllowed row) : (p.next row).WellFormed := by
  obtain ⟨hnodup, hmem⟩ := hp
  have hrow := hmem row.txHash
  rw [hallowed.status] at hrow
  have hiff : ∀ hash, (p.next row).status hash = .confirmed ↔
      if hash = row.txHash then row.type.statusAfter = .confirmed
      else hash ∈ p.confirmed := by
    intro hash
    rw [next_status, hmem]
    split <;> rfl
  constructor
  · cases htype : row.type with
    | txConfirm =>
        simp only [htype, Log2Type.statusBefore] at hrow
        simp only [Ledger.next, htype]
        exact List.nodup_cons.mpr ⟨by simp [hrow], hnodup⟩
    | txUnconfirm =>
        simp only [Ledger.next, htype]
        exact hnodup.erase _
    | txAccept | txReject => simpa only [Ledger.next, htype] using hnodup
  · intro hash
    rw [hiff]
    cases htype : row.type with
    | txConfirm =>
        simp only [Ledger.next, htype, List.mem_cons, Log2Type.statusAfter]
        by_cases heq : hash = row.txHash <;> simp [heq]
    | txUnconfirm =>
        simp only [Ledger.next, htype, hnodup.mem_erase_iff, Log2Type.statusAfter]
        by_cases heq : hash = row.txHash <;> simp [heq]
    | txAccept | txReject =>
        simp only [htype, Log2Type.statusBefore] at hrow
        simp only [Ledger.next, htype, Log2Type.statusAfter]
        by_cases heq : hash = row.txHash <;> simp [heq, hrow]

end Ledger

def ObeysAutomaton (rows : List TxLog2Row) : Prop :=
  Along Ledger.TxAllowed Ledger.next .empty rows

/-- Runs that obey the automaton and whose unconfirms are in reverse order. -/
def ObeysLifo (rows : List TxLog2Row) : Prop :=
  Along (fun p row => p.TxAllowed row ∧ p.Lifo row) Ledger.next .empty rows

instance (rows : List TxLog2Row) : Decidable (ObeysLifo rows) :=
  inferInstanceAs (Decidable (Along _ _ _ _))

theorem ObeysLifo.automaton {rows : List TxLog2Row} (h : ObeysLifo rows) :
    ObeysAutomaton rows :=
  h.mono fun _ _ hrow => hrow.1

/-- Runs that obey the automaton and the dependency order. -/
def ObeysDeps (raw : RawTxs) (rows : List TxLog2Row) : Prop :=
  Along (fun p row => p.TxAllowed row ∧ p.Deps raw row) Ledger.next .empty rows

/-! ## A small run -/

def exampleConfig : Config where
  kMaxCacheCount := none
  notifyBeginHeight := -1
  subsidyHalvingInterval := 210000
  Hash160 := fun bytes => bytes.take 20
  addressToString := fun dest =>
    match dest with
    | .noDestination => ""
    | .keyID id => String.ofList ('1' :: id.map fun b => Char.ofNat b.toNat)
    | .scriptID id => String.ofList ('3' :: id.map fun b => Char.ofNat b.toNat)
  formatObject := fun _ _ => .other ""
  swapRounds := 2

def payToPubkeyHash (id : Uint160) : CScript :=
  [Op.dup, Op.hash160, 20] ++ id ++ [Op.equalverify, Op.checksig]

def nullOutPoint : COutPoint := ⟨0, 0xffffffff⟩

def exampleRaw : RawTxs := fun _ =>
  { tx :=
      { nVersion := 1
        vin := [⟨nullOutPoint, 0xffffffff⟩]
        vout := [⟨50 * COIN, payToPubkeyHash (List.replicate 20 65)⟩]
        nLockTime := 0 }
    hexLength := 170 }

def exampleRows : List TxLog2Row :=
  [⟨1, .txAccept, -1, -1, 0, 7⟩,
   ⟨2, .txConfirm, 100, 1, 1400000000, 7⟩,
   ⟨3, .txAccept, -1, -1, 0, 8⟩,
   ⟨4, .txConfirm, 101, 2, 1400000600, 8⟩,
   ⟨5, .txUnconfirm, 101, 2, 1400000600, 8⟩,
   ⟨6, .txReject, -1, -1, 0, 8⟩]

theorem exampleRows_isOk :
    (runRows exampleConfig exampleRaw exampleRows).isOk = true := by
  decide +kernel

theorem exists_of_isOk {ε σ : Type} {result : Except ε (Unit × σ)}
    (h : result.isOk = true) : ∃ s, result = .ok ((), s) := by
  cases result with
  | ok r => exact ⟨r.2, rfl⟩
  | error e => cases h

end ExplorerKV.Parser

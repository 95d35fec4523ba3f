import ExplorerKV.Parser.UnconfirmedTimes

/-!
# The three balance maps of a transaction

`acceptTx` and `rejectTx` accumulate the map from addresses to balance changes
while they write; `getTxAddressBalance`, for the other two operations, only
reads.  It also tests the result of `ExtractDestinations`, which the two loops
ignore.
-/

namespace ExplorerKV.Parser

open Bitcoin Foundation

variable (cfg : Config)

/-! ## The maps, cut out of their operations -/

/-- `acceptTx` up to the end of its output loop. -/
def acceptTxBalance (txLog2 : TxLog2) : ParserM (List TxOutput × BalanceMap) := do
  let prevTxOutputs ← getPrevTxOutputs txLog2.tx
  let addressBalance ← acceptTxOutputs cfg txLog2 (spendBalance prevTxOutputs [])
  pure (prevTxOutputs, addressBalance)

/-- The rest of `acceptTx`. -/
def acceptTxFinish (txLog2 : TxLog2) (prevTxOutputs : List TxOutput)
    (addressBalance : BalanceMap) : ParserM Unit := do
  let tx := txLog2.tx
  let valueIn := (prevTxOutputs.map (·.value)).sum
  let valueOut ← getValueOut tx
  let fee := if tx.isCoinBase then valueOut else valueIn - valueOut
  kvSet (.txObject txLog2.txHash)
    { blockHeight := -1
      blockTime := 0
      isCoinbase := tx.isCoinBase
      version := tx.nVersion
      lockTime := tx.nLockTime
      size := txLog2.txHexLength / 2
      fee := fee
      inputs := txObjectInputs tx prevTxOutputs
      inputsCount := tx.vin.length
      inputsValue := valueIn
      outputs := txObjectOutputs cfg tx
      outputsCount := tx.vout.length
      outputsValue := valueOut
      isDoubleSpend := false }
  acceptTxInputs cfg txLog2 prevTxOutputs
  insertAddressTxs cfg txLog2 addressBalance
  kvSet (.txUnconfirmed txLog2.txHash)
    { txHash := txLog2.txHash, fee := fee, size := txLog2.txHexLength / 2 }
  flushAddressInfo cfg addressBalance
  addUnconfirmedTxPool txLog2
  writeNotificationLogs cfg addressBalance txLog2

/-- `rejectTx` up to the end of its output loop. -/
def rejectTxBalance (txLog2 : TxLog2) : ParserM BalanceMap := do
  let prevTxOutputs ← getPrevTxOutputs txLog2.tx
  let addressBalance ← rejectTxInputs cfg txLog2.tx prevTxOutputs []
  rejectTxOutputs cfg txLog2 addressBalance

/-- The rest of `rejectTx`. -/
def rejectTxFinish (txLog2 : TxLog2) (addressBalance : BalanceMap) : ParserM Unit := do
  let txObject ← kvGet (.txObject txLog2.txHash)
  kvSet (.txObject txLog2.txHash) { txObject with isDoubleSpend := true }
  kvDel (.txUnconfirmed txLog2.txHash)
  rejectAddressTxs cfg txLog2 addressBalance
  flushAddressInfo cfg addressBalance
  removeUnconfirmedTxPool txLog2
  writeNotificationLogs cfg addressBalance txLog2

theorem acceptTx_eq (txLog2 : TxLog2) : acceptTx cfg txLog2 = (do
    assertion .acceptTx (txLog2.blkHeight = -1)
    if isRepeatedTx txLog2 then return
    let (prevTxOutputs, addressBalance) ← acceptTxBalance cfg txLog2
    acceptTxFinish cfg txLog2 prevTxOutputs addressBalance) := by
  simp only [acceptTx, acceptTxBalance, acceptTxFinish, bind_assoc, pure_bind]

theorem rejectTx_eq (txLog2 : TxLog2) : rejectTx cfg txLog2 = (do
    let addressBalance ← rejectTxBalance cfg txLog2
    rejectTxFinish cfg txLog2 addressBalance) := by
  simp only [rejectTx, rejectTxBalance, rejectTxFinish, bind_assoc]

/-- The output loop of `getTxAddressBalance`, with its `continue`. -/
def receiveDecoded (tx : CTransaction) (balance : BalanceMap) : BalanceMap :=
  tx.vout.foldl (fun balance out =>
    if extractDestinationsOk cfg.Hash160 out.scriptPubKey then
      (outputAddresses cfg out).foldl (fun balance address =>
        balance.add address out.nValue) balance
    else balance) balance

theorem receiveDecoded_eq (tx : CTransaction) (balance : BalanceMap) :
    receiveDecoded cfg tx balance = receiveBalance cfg tx balance := by
  unfold receiveDecoded receiveBalance
  congr 1
  funext balance out
  cases hok : extractDestinationsOk cfg.Hash160 out.scriptPubKey with
  | true => rfl
  | false =>
      have hnone : outputAddresses cfg out = [] := by
        simp [outputAddresses, extractDestinations_of_not_ok _ hok]
      rw [hnone]
      rfl

/-- `getTxAddressBalance`, with the test of its output loop. -/
def decodedTxAddressBalance (tx : CTransaction) : ParserM BalanceMap := do
  let prevTxOutputs ← getPrevTxOutputs tx
  pure (receiveDecoded cfg tx (spendBalance prevTxOutputs []))

theorem decodedTxAddressBalance_eq (tx : CTransaction) :
    decodedTxAddressBalance cfg tx = getTxAddressBalance cfg tx := by
  simp only [decodedTxAddressBalance, getTxAddressBalance, receiveDecoded_eq]

/-! ## What they read of the store -/

/-- The `01_` records of the previous transactions carry the outputs `stored`. -/
def PrevStored (stored : Uint256 → List TxOutput) (tx : CTransaction) (s : ParserState) : Prop :=
  ∀ out ∈ tx.prevouts, ∀ txObject : Tx, s.kv (.txObject out.hash) = some txObject →
    txObject.outputs = stored out.hash

def storedPrevOutputs (stored : Uint256 → List TxOutput) (tx : CTransaction) : List TxOutput :=
  tx.prevouts.filterMap fun out => (stored out.hash)[out.n.toNat]?

def storedBalance (stored : Uint256 → List TxOutput) (tx : CTransaction) : BalanceMap :=
  receiveBalance cfg tx (spendBalance (storedPrevOutputs stored tx) [])

section Maps

variable {cfg} {stored : Uint256 → List TxOutput} {tx : CTransaction} {txLog2 : TxLog2}
  {s : ParserState}

theorem getPrevTxOutputs_stored (h : PrevStored stored tx s) :
    wp (getPrevTxOutputs tx) (fun prevTxOutputs s' => s' = s ∧
      prevTxOutputs = storedPrevOutputs stored tx ∧
      (tx.isCoinBase → prevTxOutputs = []) ∧
      (¬tx.isCoinBase → prevTxOutputs.length = tx.vin.length)) (fun _ => True) s := by
  unfold getPrevTxOutputs
  apply wp_ite
  · intro hcb
    have hnone := CTransaction.prevouts_of_isCoinBase hcb
    simp [storedPrevOutputs, hnone, hcb]
  intro hcb
  have hprevouts := CTransaction.prevouts_of_not_isCoinBase hcb
  refine wp_mono (wp_mapM_read (E := fun _ => True) (R := fun input output =>
    (stored input.prevout.hash)[input.prevout.n.toNat]? = some output)
    fun input hinput => ?_) ?_ fun _ _ => trivial
  · have hmem : input.prevout ∈ tx.prevouts := by
      rw [hprevouts]
      exact List.mem_map_of_mem hinput
    rw [wp_bind]
    refine wp_kvGetUnchecked_of _ (fun prevTx hprev => ?_) fun _ => trivial
    rw [← h _ hmem prevTx hprev]
    cases houtput : prevTx.outputs[input.prevout.n.toNat]? with
    | some output => exact ⟨rfl, rfl⟩
    | none => trivial
  · rintro outputs s' ⟨rfl, hall⟩
    refine ⟨rfl, ?_, fun h => absurd h hcb, fun _ => hall.length_eq.symm⟩
    rw [storedPrevOutputs, hprevouts, List.filterMap_map]
    exact (filterMap_of_forall₂ hall).symm

theorem acceptTxBalance_spec (h : PrevStored stored txLog2.tx s) :
    wp (acceptTxBalance cfg txLog2)
      (fun result _ => result.2 = storedBalance cfg stored txLog2.tx) (fun _ => True) s := by
  apply wp_seq (getPrevTxOutputs_stored h)
  rintro _ s ⟨rfl, rfl, -⟩
  apply wp_seq (acceptTxOutputs_balance cfg txLog2 _)
  rintro _ _ rfl
  rfl

theorem getTxAddressBalance_spec_of_stored (h : PrevStored stored tx s) :
    wp (getTxAddressBalance cfg tx)
      (fun balance _ => balance = storedBalance cfg stored tx) (fun _ => True) s := by
  apply wp_seq (getPrevTxOutputs_stored h)
  rintro _ s ⟨rfl, rfl, -⟩
  rfl

theorem rejectTxBalance_spec (h : PrevStored stored txLog2.tx s) :
    wp (rejectTxBalance cfg txLog2)
      (fun balance _ => balance = storedBalance cfg stored txLog2.tx) (fun _ => True) s := by
  apply wp_seq (getPrevTxOutputs_stored h)
  rintro _ s ⟨rfl, rfl, hcoinbase, hlength⟩
  apply wp_seq (rejectTxInputs_balance cfg [] hcoinbase hlength)
  rintro _ s' rfl
  exact wp_mono (rejectTxOutputs_effects (fun _ => True) _ fun _ _ _ => trivial)
    (fun _ _ hbalance => hbalance.1) fun _ he => he

/-! ## Between the accept of a transaction and its reject -/

theorem prevStored_of_run {raw : RawTxs} {rows : List TxLog2Row} (hrows : ObeysAutomaton rows)
    (hrun : runRows cfg raw rows = .ok ((), s)) (tx : CTransaction) :
    PrevStored (fun hash => txObjectOutputs cfg (raw hash).tx) tx s :=
  fun out _ txObject htxObject =>
    (wp_of_ok (applyRows_objects hrows) hrun).objects.outputs out.hash txObject htxObject

/--
As long as the outputs of its previous transactions are stored as they are,
the three maps of a transaction are one.
-/
theorem balanceMaps_agree {txLog2' : TxLog2} {s₁ s₁' s₂ s₂' s₃ s₃' : ParserState}
    {prevTxOutputs : List TxOutput} {accepted found rejected : BalanceMap}
    (htx : txLog2'.tx = txLog2.tx) (hstored₁ : PrevStored stored txLog2.tx s₁)
    (hstored₂ : PrevStored stored txLog2.tx s₂) (hstored₃ : PrevStored stored txLog2.tx s₃)
    (haccept : acceptTxBalance cfg txLog2 s₁ = .ok ((prevTxOutputs, accepted), s₁'))
    (hget : decodedTxAddressBalance cfg txLog2.tx s₂ = .ok (found, s₂'))
    (hreject : rejectTxBalance cfg txLog2' s₃ = .ok (rejected, s₃')) :
    accepted = found ∧ found = rejected := by
  rw [decodedTxAddressBalance_eq] at hget
  rw [← htx] at hstored₃
  have haccepted := wp_of_ok (acceptTxBalance_spec hstored₁) haccept
  have hfound := wp_of_ok (getTxAddressBalance_spec_of_stored hstored₂) hget
  have hrejected := wp_of_ok (rejectTxBalance_spec hstored₃) hreject
  rw [htx] at hrejected
  exact ⟨haccepted.trans hfound.symm, hfound.trans hrejected.symm⟩

end Maps

/-- `spendRaw` with a coinbase that pays one address. -/
def spendOneRaw : RawTxs := spendRaw (payToPubkeyHash (List.replicate 20 65))

/-- The store after a number of rows of `spendRows`. -/
def spendState (n : Nat) : ParserState :=
  match runRows exampleConfig spendOneRaw (spendRows.take n) with
  | .ok (_, s) => s
  | .error _ => .initial

def spendAccept : TxLog2 := fetchTxLog2 spendOneRaw ⟨3, .txAccept, -1, -1, 0, 9⟩

def spendReject : TxLog2 := fetchTxLog2 spendOneRaw ⟨4, .txReject, -1, -1, 0, 9⟩

theorem spendState_stored {n : Nat} (hrows : ObeysLifo (spendRows.take n))
    (hok : (runRows exampleConfig spendOneRaw (spendRows.take n)).isOk = true) :
    PrevStored (fun hash => txObjectOutputs exampleConfig (spendOneRaw hash).tx) spendAccept.tx
      (spendState n) := by
  obtain ⟨s, hrun⟩ := exists_of_isOk hok
  have hstate : spendState n = s := by
    simp [spendState, hrun]
  rw [hstate]
  exact prevStored_of_run hrows.automaton hrun _

theorem exists_of_isOk_pair {ε α σ : Type} {result : Except ε (α × σ)}
    (h : result.isOk = true) : ∃ a s, result = .ok (a, s) := by
  cases result with
  | ok r => exact ⟨r.1, r.2, rfl⟩
  | error e => cases h

theorem balanceMaps_agree_example : ∃ prevTxOutputs accepted found rejected s₁ s₂ s₃,
    acceptTxBalance exampleConfig spendAccept (spendState 2) =
      .ok ((prevTxOutputs, accepted), s₁) ∧
    decodedTxAddressBalance exampleConfig spendAccept.tx (spendState 3) = .ok (found, s₂) ∧
    rejectTxBalance exampleConfig spendReject (spendState 3) = .ok (rejected, s₃) ∧
    accepted = found ∧ found = rejected := by
  have haccept : (acceptTxBalance exampleConfig spendAccept (spendState 2)).isOk = true := by
    decide +kernel
  have hget : (decodedTxAddressBalance exampleConfig spendAccept.tx
      (spendState 3)).isOk = true := by
    decide +kernel
  have hreject : (rejectTxBalance exampleConfig spendReject (spendState 3)).isOk = true := by
    decide +kernel
  have hstored₂ := spendState_stored (n := 2) (by decide) (by decide +kernel)
  have hstored₃ := spendState_stored (n := 3) (by decide) (by decide +kernel)
  obtain ⟨⟨prevTxOutputs, accepted⟩, s₁, haccept⟩ := exists_of_isOk_pair haccept
  obtain ⟨found, s₂, hget⟩ := exists_of_isOk_pair hget
  obtain ⟨rejected, s₃, hreject⟩ := exists_of_isOk_pair hreject
  exact ⟨prevTxOutputs, accepted, found, rejected, s₁, s₂, s₃, haccept, hget, hreject,
    balanceMaps_agree rfl hstored₂ hstored₃ hstored₃ haccept hget hreject⟩

end ExplorerKV.Parser

import ExplorerKV.Parser.Frames
import ExplorerKV.Parser.UnspentLists

/-!
# The times of unconfirmed records

The schema wants no block time in the record of an unconfirmed transaction.
Three of the four operations obey it; the `21_` records of an accept carry the
time of the fetched row, which `tryFetchTxLog2FromDB` has replaced by one in
2030.  The lemmas below hold for every configuration, a cache that evicts
included: they follow the `01_` records, whose outputs determine the balance
map, and ask of the `21_` records only whether an operation writes any.
-/

namespace ExplorerKV.Parser

open Bitcoin Foundation

/-- Records of unconfirmed transactions carry no block time. -/
structure UnconfirmedTimesZero (s : ParserState) : Prop where
  txObject : ∀ hash (txObject : Tx), s.kv (.txObject hash) = some txObject →
    txObject.blockHeight = -1 → txObject.blockTime = 0
  addressTx : ∀ address i (x : AddressTx), s.kv (.addrTx address i) = some x →
    x.txHeight = -1 → x.txBlockTime = 0

def Key.OfTxObject : Key → Prop
  | .txObject _ => True
  | _ => False

/-- The keys of the two record families. -/
def Key.Timed (key : Key) : Prop := Key.OfTxObject key ∨ key.OfAddrTx

/-- The `01_` records: their outputs, and their times while unconfirmed. -/
structure ObjectsInv (cfg : Config) (raw : RawTxs) (s : ParserState) : Prop where
  objects : Objects cfg raw s.kv
  times : ∀ hash (txObject : Tx), s.kv (.txObject hash) = some txObject →
    txObject.blockHeight = -1 → txObject.blockTime = 0

def TouchesNone (cfg : Config) (raw : RawTxs) (hash : Uint256) : Prop :=
  ∀ address, ¬Touches cfg raw hash address

theorem not_timed_of_utxo (key : Key) (h : key.OfUtxo) : ¬Key.Timed key := by
  rintro (h' | h') <;> cases key <;> first | exact h | exact h'

theorem not_txObject_of_addrTx {address : Address} (key : Key)
    (h : Key.OfAddrTxOf address key) : ¬Key.OfTxObject key := by
  intro h'
  cases key <;> first | exact h | exact h'

/-! ## The balance maps, whatever the cache does -/

section Balances

variable (cfg : Config) {s : ParserState}

theorem acceptTxOutputs_balance (txLog2 : TxLog2) (balance : BalanceMap) :
    wp (acceptTxOutputs cfg txLog2 balance)
      (fun balance' _ => balance' = receiveBalance cfg txLog2.tx balance)
      (fun _ => True) s := by
  apply wp_foldlM_zipIdx (fun done balance' _ => balance' = done.foldl (fun balance out =>
    (outputAddresses cfg out).foldl (fun balance address =>
      balance.add address out.nValue) balance) balance) rfl
  rintro done out _ _ s - rfl
  rw [List.foldl_append]
  generalize done.foldl _ balance = balance
  apply wp_foldlM_zipIdx (fun done balance' _ => balance' = done.foldl (fun balance address =>
    balance.add address out.nValue) balance) rfl
  rintro done' address _ _ s - rfl
  apply wp_seq (wp_trivial _)
  intro _ s' _
  rw [List.foldl_append]
  rfl

theorem rejectTxInputs_balance {tx : CTransaction} {prevTxOutputs : List TxOutput}
    (balance : BalanceMap) (hcoinbase : tx.isCoinBase → prevTxOutputs = [])
    (hlength : ¬tx.isCoinBase → prevTxOutputs.length = tx.vin.length) :
    wp (rejectTxInputs cfg tx prevTxOutputs balance)
      (fun balance' _ => balance' = spendBalance prevTxOutputs balance)
      (fun _ => True) s := by
  apply wp_ite
  · intro hcb
    rw [hcoinbase hcb]
    rfl
  intro hcb
  have hspend : spendBalance ((tx.vin.zip prevTxOutputs).map Prod.snd) balance =
      spendBalance prevTxOutputs balance := by
    rw [List.map_snd_zip (hlength hcb).le]
  refine wp_mono (E := fun _ => True) (Q := fun balance' _ =>
    balance' = spendBalance ((tx.vin.zip prevTxOutputs).map Prod.snd) balance) ?_
    (fun _ _ h => h.trans hspend) fun _ h => h
  apply wp_foldlM (fun done balance' _ => balance' = spendBalance (done.map Prod.snd) balance)
    rfl
  rintro done ⟨input, output⟩ _ _ s - rfl
  simp only [wp_bind, wp_kvDel, List.map_append]
  unfold spendBalance
  rw [List.foldl_append]
  generalize (done.map Prod.snd).foldl _ balance = balance
  apply wp_foldlM_zipIdx (fun done balance' _ => balance' = done.foldl
    (fun balance address => balance.add address (output.value * -1)) balance) rfl
  rintro done' address _ _ s - rfl
  apply wp_seq (wp_trivial _)
  intro _ s' _
  rw [List.foldl_append]
  rfl

variable {cfg} {raw : RawTxs} {hash : Uint256}

theorem getTxAddressBalance_read (hobj : Objects cfg raw s.kv) :
    wp (getTxAddressBalance cfg (raw hash).tx)
      (fun balance s' => s' = s ∧ balance = txBalance cfg raw hash) (fun _ => True) s := by
  apply wp_seq (wp_mono (getPrevTxOutputs_spec hobj) (fun _ _ h => h) fun _ _ => trivial)
  rintro _ s ⟨rfl, rfl, -⟩
  exact ⟨rfl, rfl⟩

/-- The only `21_` and `22_` records written are those of touched addresses. -/
theorem forM_balance_same {f : Address × Int → ParserM Unit}
    (hf : ∀ x, Steps (SameOn Key.OfTxObject) (f x)) :
    wp (forM (txBalance cfg raw hash) f) (fun _ s' => SameOn Key.OfTxObject s s' ∧
      (TouchesNone cfg raw hash → SameOn Key.OfAddrTx s s')) (fun _ => True) s := by
  cases hbalance : txBalance cfg raw hash with
  | nil => exact ⟨fun _ _ => rfl, fun _ _ _ => rfl⟩
  | cons entry rest =>
      have htouches : Touches cfg raw hash entry.1 := by
        simp [Touches, hbalance, BalanceMap.keys]
      exact wp_mono ((Steps.forM hf).run s)
        (fun _ _ hsame => ⟨hsame, fun hnone => absurd htouches (hnone _)⟩) fun _ he => he

/-- What an accept leaves in the list of every address it touches. -/
def Stamped (txLog2 : TxLog2) (address : Address) (s : ParserState) : Prop :=
  ∃ i diff, s.kv (.addrTx address i) =
    some ⟨diff, txLog2.txHash, -1, txLog2.maxBlkTimestamp⟩

theorem insertAddressTx_stamped (txLog2 : TxLog2) (address : Address) (diff : Int) :
    wp (insertAddressTx cfg txLog2 address diff) (fun _ s' => Stamped txLog2 address s' ∧
      ∀ other, other ≠ address → Stamped txLog2 other s → Stamped txLog2 other s')
      (fun _ => True) s := by
  have hinfo := (getAddressInfo_same (R := SameOn fun _ => True) cfg address).run s
  apply wp_seq hinfo
  intro addr s1 hsame
  simp only [wp_bind, wp_kvSet, wp_putAddressInfo]
  constructor
  · refine ⟨addr.txCount, diff, ?_⟩
    rw [ParserState.put_kv, ParserState.write_kv_of_ne _ _ (by simp),
      ParserState.write_kv_self]
  · rintro other hne ⟨i, diff', hkv⟩
    refine ⟨i, diff', ?_⟩
    rw [ParserState.put_kv, ParserState.write_kv_of_ne _ _ (by simp),
      ParserState.write_kv_of_ne _ _ (by simp [hne]), hsame _ trivial, hkv]

theorem insertAddressTxs_stamped (txLog2 : TxLog2) {balance : BalanceMap}
    (hnodup : (balance.map Prod.fst).Nodup) :
    wp (insertAddressTxs cfg txLog2 balance)
      (fun _ s' => ∀ address ∈ balance.keys, Stamped txLog2 address s')
      (fun _ => True) s := by
  apply wp_forM (fun done s' => ∀ address ∈ BalanceMap.keys done, Stamped txLog2 address s')
    (by simp [BalanceMap.keys])
  rintro done ⟨address, diff⟩ rest s' hxs hdone
  apply wp_mono (insertAddressTx_stamped txLog2 address diff) _ fun _ he => he
  rintro _ s'' ⟨hnew, hkeep⟩ other hother
  rw [BalanceMap.keys, List.map_append, List.mem_append] at hother
  rcases hother with hold | hlast
  · have hne : other ≠ address := by
      rintro rfl
      rw [hxs, List.map_append, List.map_cons] at hnodup
      exact (List.nodup_append.mp hnodup).2.2 _ hold _ (by simp) rfl
    exact hkeep other hne (hdone other hold)
  · obtain rfl : other = address := by simpa using hlast
    exact hnew

end Balances

/-! ## The operations -/

namespace ObjectsInv

variable {cfg : Config} {raw : RawTxs} {s s' : ParserState} {hash : Uint256}

theorem of_same (h : ObjectsInv cfg raw s) (hsame : SameOn Key.OfTxObject s s') :
    ObjectsInv cfg raw s' := by
  have hkv : ∀ hash, s'.kv (.txObject hash) = s.kv (.txObject hash) := fun hash =>
    hsame _ trivial
  exact ⟨⟨fun hash txObject htx => h.objects.outputs hash txObject (hkv hash ▸ htx)⟩,
    fun hash txObject htx => h.times hash txObject (hkv hash ▸ htx)⟩

theorem of_timed (h : ObjectsInv cfg raw s) (hsame : SameOn Key.Timed s s') :
    ObjectsInv cfg raw s' :=
  h.of_same (hsame.mono fun _ => .inl)

theorem write (h : ObjectsInv cfg raw s) {txObject : Tx}
    (houtputs : txObject.outputs = txObjectOutputs cfg (raw hash).tx)
    (htime : txObject.blockHeight = -1 → txObject.blockTime = 0) :
    ObjectsInv cfg raw (s.write ⟨.txObject hash, some txObject⟩) := by
  have hkv : ∀ other (rec : Tx),
      (s.write ⟨.txObject hash, some txObject⟩).kv (.txObject other) = some rec →
      other = hash ∧ rec = txObject ∨ s.kv (.txObject other) = some rec := by
    intro other rec hrec
    by_cases heq : other = hash
    · subst heq
      rw [ParserState.write_kv_self] at hrec
      exact .inl ⟨rfl, (Option.some.inj hrec).symm⟩
    · rw [ParserState.write_kv_of_ne _ _ (by simpa using heq)] at hrec
      exact .inr hrec
  refine ⟨⟨fun other rec hrec => ?_⟩, fun other rec hrec => ?_⟩
  · rcases hkv other rec hrec with ⟨rfl, rfl⟩ | hold
    · exact houtputs
    · exact h.objects.outputs other rec hold
  · rcases hkv other rec hrec with ⟨rfl, rfl⟩ | hold
    · exact htime
    · exact h.times other rec hold

end ObjectsInv

/-- What every operation does to the two record families. -/
structure TimesKept (cfg : Config) (raw : RawTxs) (hash : Uint256) (s s' : ParserState) :
    Prop where
  objects : ObjectsInv cfg raw s'
  lists : TouchesNone cfg raw hash → SameOn Key.OfAddrTx s s'

section Operations

variable {cfg : Config} {raw : RawTxs} {s s' s'' : ParserState} {row : TxLog2Row}
  {hash : Uint256}

theorem TimesKept.timed (h : TimesKept cfg raw hash s s') (hsame : SameOn Key.Timed s' s'') :
    TimesKept cfg raw hash s s'' :=
  ⟨h.objects.of_timed hsame, fun hnone key hkey =>
    (hsame key (.inr hkey)).trans (h.lists hnone key hkey)⟩

theorem Stamped.timed {txLog2 : TxLog2} {address : Address} (h : Stamped txLog2 address s)
    (hsame : SameOn Key.Timed s s') : Stamped txLog2 address s' := by
  obtain ⟨i, diff, hkv⟩ := h
  exact ⟨i, diff, (hsame (.addrTx address i) (.inr trivial)).trans hkv⟩

/-- The step of an operation that writes the `01_` record. -/
theorem ObjectsInv.kept_write (h : ObjectsInv cfg raw s) (txObject : Tx)
    (houtputs : txObject.outputs = txObjectOutputs cfg (raw hash).tx)
    (htime : txObject.blockHeight = -1 → txObject.blockTime = 0) :
    TimesKept cfg raw hash s (s.write ⟨.txObject hash, some txObject⟩) :=
  ⟨h.write houtputs htime, fun _ _ hkey => s.write_kv_of_ne _ (by rintro rfl; exact hkey)⟩

theorem TimesKept.refl (h : ObjectsInv cfg raw s) : TimesKept cfg raw hash s s :=
  ⟨h, fun _ _ _ => rfl⟩

theorem TimesKept.trans (h : TimesKept cfg raw hash s s')
    (h' : TimesKept cfg raw hash s' s'') : TimesKept cfg raw hash s s'' :=
  ⟨h'.objects, fun hnone key hkey => (h'.lists hnone key hkey).trans (h.lists hnone key hkey)⟩

theorem TimesKept.forM (h : TimesKept cfg raw hash s s') {f : Address × Int → ParserM Unit}
    (hf : ∀ x, Steps (SameOn Key.OfTxObject) (f x)) :
    wp (forM (txBalance cfg raw hash) f) (fun _ s'' => TimesKept cfg raw hash s s'')
      (fun _ => True) s' :=
  wp_mono (forM_balance_same hf)
    (fun _ _ hsame => h.trans ⟨h.objects.of_same hsame.1, hsame.2⟩) fun _ he => he

theorem kvSet_timed {key : Key} (hkey : ¬Key.Timed key) (val : key.Val) :
    Steps (SameOn Key.Timed) (kvSet key val) :=
  kvSet_same hkey val

theorem tail_timed (txLog2 : TxLog2) (balance : BalanceMap) (count size : Int) :
    Steps (SameOn Key.Timed) (do
      flushAddressInfo cfg balance
      updateUnconfirmedTxPool count size
      writeNotificationLogs cfg balance txLog2) :=
  tail_same cfg (fun _ => by rintro (h | h) <;> exact h) (by rintro (h | h) <;> exact h)
    (by rintro (h | h) <;> exact h) balance txLog2 count size

theorem not_timed_txUnconfirmed : ¬Key.Timed (.txUnconfirmed hash) := by
  rintro (h | h) <;> exact h

theorem acceptTx_times (hinv : ObjectsInv cfg raw s) (hheight : row.blkHeight = -1) :
    wp (acceptTx cfg (fetchTxLog2 raw row)) (fun _ s' =>
      TimesKept cfg raw row.txHash s s' ∧
      ∀ address, Touches cfg raw row.txHash address →
        Stamped (fetchTxLog2 raw row) address s') (fun _ => True) s := by
  unfold acceptTx
  rw [wp_bind, wp_assertion]
  refine ⟨fun _ => ?_, fun _ => trivial⟩
  rw [if_neg (by simp [isRepeatedTx, fetchTxLog2, hheight])]
  simp only [fetchTxLog2_tx, fetchTxLog2_txHash]
  apply wp_seq (wp_mono (getPrevTxOutputs_spec hinv.objects) (fun _ _ h => h) fun _ _ => trivial)
  rintro _ s ⟨rfl, rfl, -⟩
  -- the outputs
  apply wp_seq (wp_strengthen (acceptTxOutputs_balance cfg _ _)
    ((acceptTxOutputs_same (R := SameOn Key.Timed) cfg not_timed_of_utxo _ _).run s))
  rintro _ s1 ⟨rfl, hsame1⟩
  have hkept1 : TimesKept cfg raw row.txHash s s1 :=
    ⟨hinv.of_timed hsame1, fun _ => hsame1.mono fun _ => .inr⟩
  apply wp_bind.mpr (wp_getValueOut_of (fun valueOut => ?_) fun _ => trivial)
  rw [wp_bind, wp_kvSet]
  generalize hobject : (Tx.mk _ _ _ _ _ _ _ _ _ _ _ _ _ _) = txObject
  have hkept2 := hkept1.trans (hkept1.objects.kept_write txObject
    (by rw [← hobject]) (by rw [← hobject]; exact fun _ => rfl))
  generalize s1.write ⟨.txObject row.txHash, some txObject⟩ = s2 at hkept2 ⊢
  -- the inputs
  apply wp_seq ((acceptTxInputs_same (R := SameOn Key.Timed) cfg not_timed_of_utxo _ _).run s2)
  intro _ s3 hsame3
  have hkept3 := hkept2.timed hsame3
  -- the lists
  apply wp_seq (wp_strengthen
    (insertAddressTxs_stamped (fetchTxLog2 raw row) (txBalance_nodup cfg raw row.txHash))
    (hkept3.forM fun x => insertAddressTx_same cfg not_txObject_of_addrTx x.2))
  rintro _ s4 ⟨hstamped, hkept4⟩
  apply wp_mono ((Steps.bind (kvSet_timed not_timed_txUnconfirmed _) fun _ =>
    tail_timed _ _ 1 _).run s4) _ fun _ he => he
  intro _ s5 hsame5
  exact ⟨hkept4.timed hsame5, fun address h => (hstamped address h).timed hsame5⟩

theorem confirmTx_times (hinv : ObjectsInv cfg raw s) (hheight : 0 ≤ row.blkHeight) :
    wp (confirmTx cfg (fetchTxLog2 raw row))
      (fun _ s' => TimesKept cfg raw row.txHash s s') (fun _ => True) s := by
  unfold confirmTx
  simp only [fetchTxLog2_tx, fetchTxLog2_txHash]
  apply wp_seq (getTxAddressBalance_read hinv.objects)
  rintro _ s ⟨rfl, rfl⟩
  apply wp_seq ((TimesKept.refl hinv).forM fun x =>
    confirmAddress_same cfg not_txObject_of_addrTx)
  intro _ s1 hkept1
  apply wp_bind.mpr (wp_kvGet_of _ (fun txObject htxObject => ?_) fun _ => trivial)
  apply wp_seq (confirmedFee_spec txObject fun _ => trivial)
  rintro fee s1 rfl
  rw [wp_bind, wp_kvSet]
  have hkept2 := hkept1.trans (hkept1.objects.kept_write
    { txObject with
      fee := fee
      blockHeight := row.blkHeight
      blockTime := (fetchTxLog2 raw row).maxBlkTimestamp }
    (hkept1.objects.objects.outputs _ txObject htxObject) fun h => by
      simp only at h
      omega)
  exact wp_mono ((Steps.bind (kvDel_same not_timed_txUnconfirmed) fun _ =>
    tail_timed _ _ (-1) _).run _) (fun _ _ hsame => hkept2.timed hsame) fun _ he => he

theorem unconfirmTx_times (hinv : ObjectsInv cfg raw s) :
    wp (unconfirmTx cfg (fetchTxLog2 raw row))
      (fun _ s' => TimesKept cfg raw row.txHash s s') (fun _ => True) s := by
  unfold unconfirmTx
  simp only [fetchTxLog2_tx, fetchTxLog2_txHash]
  apply wp_seq (getTxAddressBalance_read hinv.objects)
  rintro _ s ⟨rfl, rfl⟩
  apply wp_seq ((TimesKept.refl hinv).forM fun x =>
    unconfirmAddress_same cfg not_txObject_of_addrTx)
  intro _ s1 hkept1
  apply wp_bind.mpr (wp_kvGet_of _ (fun txObject htxObject => ?_) fun _ => trivial)
  rw [wp_bind, wp_kvSet]
  have hkept2 := hkept1.trans (hkept1.objects.kept_write
    { txObject with blockTime := 0, blockHeight := -1 }
    (hkept1.objects.objects.outputs _ txObject htxObject) fun _ => rfl)
  exact wp_mono ((Steps.bind (kvSet_timed not_timed_txUnconfirmed _) fun _ =>
    tail_timed _ _ 1 _).run _) (fun _ _ hsame => hkept2.timed hsame) fun _ he => he

theorem rejectTx_times (hinv : ObjectsInv cfg raw s) :
    wp (rejectTx cfg (fetchTxLog2 raw row))
      (fun _ s' => TimesKept cfg raw row.txHash s s') (fun _ => True) s := by
  unfold rejectTx
  simp only [fetchTxLog2_tx, fetchTxLog2_txHash]
  apply wp_seq (wp_mono (getPrevTxOutputs_spec hinv.objects) (fun _ _ h => h) fun _ _ => trivial)
  rintro _ s ⟨rfl, rfl, hread⟩
  apply wp_seq (wp_strengthen (rejectTxInputs_balance cfg [] prevOutputs_of_isCoinBase
    fun hcb => length_prevOutputs hcb hread)
    ((rejectTxInputs_same (R := SameOn Key.Timed) cfg not_timed_of_utxo _ _ _).run s))
  rintro _ s1 ⟨rfl, hsame1⟩
  apply wp_seq (wp_strengthen (rejectTxOutputs_effects (fun _ => True) _ fun _ _ _ => trivial)
    ((rejectTxOutputs_same (R := SameOn Key.Timed) cfg not_timed_of_utxo _ _).run s1))
  rintro _ s2 ⟨⟨rfl, -⟩, hsame2⟩
  have hkept2 : TimesKept cfg raw row.txHash s s2 :=
    ((TimesKept.refl hinv).timed hsame1).timed hsame2
  apply wp_bind.mpr (wp_kvGet_of _ (fun txObject htxObject => ?_) fun _ => trivial)
  rw [wp_bind, wp_kvSet]
  have hkept3 := hkept2.trans (hkept2.objects.kept_write
    { txObject with isDoubleSpend := true }
    (hkept2.objects.objects.outputs _ txObject htxObject)
    (hkept2.objects.times _ txObject htxObject))
  apply wp_seq ((kvDel_same (R := SameOn Key.Timed) not_timed_txUnconfirmed).run _)
  intro _ s4 hsame4
  apply wp_seq ((hkept3.timed hsame4).forM fun x =>
    rejectAddress_same cfg not_txObject_of_addrTx)
  intro _ s5 hkept5
  exact wp_mono ((tail_timed _ _ (-1) _).run s5) (fun _ _ hsame => hkept5.timed hsame)
    fun _ he => he

theorem applyRow_times {p : Ledger} (hallowed : p.TxAllowed row)
    (hinv : ObjectsInv cfg raw s) :
    wp (applyRow cfg raw row) (fun _ s' => TimesKept cfg raw row.txHash s s')
      (fun _ => True) s := by
  rw [applyRow_eq]
  cases htype : row.type with
  | txAccept =>
      exact wp_mono (acceptTx_times hinv (hallowed.accept_height htype)) (fun _ _ h => h.1)
        fun _ he => he
  | txConfirm => exact confirmTx_times hinv (hallowed.confirm_height htype)
  | txUnconfirm => exact unconfirmTx_times hinv
  | txReject => exact rejectTx_times hinv

end Operations

/-! ## Runs -/

def AcceptsTouchNone (cfg : Config) (raw : RawTxs) (rows : List TxLog2Row) : Prop :=
  ∀ row ∈ rows, row.type = .txAccept → TouchesNone cfg raw row.txHash

/-- With no address touched so far there are no address lists. -/
structure NoLists (cfg : Config) (raw : RawTxs) (p : Ledger) (s : ParserState) : Prop where
  objects : ObjectsInv cfg raw s
  live : ∀ hash, p.Live hash → TouchesNone cfg raw hash
  empty : ∀ address i, s.kv (.addrTx address i) = none

section Runs

variable {cfg : Config} {raw : RawTxs} {p : Ledger} {s : ParserState} {row : TxLog2Row}
  {rows : List TxLog2Row}

theorem objectsInv_initial : ObjectsInv cfg raw .initial :=
  ⟨⟨fun _ _ h => by cases h⟩, fun _ _ h => by cases h⟩

theorem applyRows_objects (hrows : ObeysAutomaton rows) :
    wp (applyRows cfg raw rows) (fun _ s => ObjectsInv cfg raw s) (fun _ => True) .initial :=
  wp_forM_along (fun _ => ObjectsInv cfg raw) (fun _ _ _ hallowed hinv =>
    wp_mono (applyRow_times hallowed hinv) (fun _ _ h => h.objects) fun _ he => he)
    hrows objectsInv_initial

theorem NoLists.unconfirmedTimesZero (h : NoLists cfg raw p s) : UnconfirmedTimesZero s :=
  ⟨h.objects.times, fun address i x hx => by cases (h.empty address i).symm.trans hx⟩

theorem applyRow_noLists (hallowed : p.TxAllowed row)
    (hnone : row.type = .txAccept → TouchesNone cfg raw row.txHash)
    (hinv : NoLists cfg raw p s) :
    wp (applyRow cfg raw row) (fun _ s' => NoLists cfg raw (p.next row) s') (fun _ => True)
      s := by
  have htouches : TouchesNone cfg raw row.txHash := by
    cases htype : row.type with
    | txAccept => exact hnone htype
    | txConfirm | txUnconfirm | txReject =>
        exact hinv.live _ (by
          simp [Ledger.Live, hallowed.status, htype, Log2Type.statusBefore])
  apply wp_mono (applyRow_times hallowed hinv.objects) _ fun _ he => he
  intro _ s' hkept
  refine ⟨hkept.objects, fun hash hlive => ?_, fun address i => ?_⟩
  · rw [Ledger.next_live] at hlive
    by_cases heq : hash = row.txHash
    · rwa [heq]
    · exact hinv.live hash (by rwa [if_neg heq] at hlive)
  · rw [hkept.lists htouches (.addrTx address i) trivial, hinv.empty]

theorem applyRows_noLists (hrows : ObeysAutomaton rows)
    (hnone : AcceptsTouchNone cfg raw rows) :
    wp (applyRows cfg raw rows) (fun _ s => NoLists cfg raw (.after rows) s) (fun _ => True)
      .initial :=
  wp_forM_along (NoLists cfg raw)
    (fun _ _ _ hallowed hinv => applyRow_noLists hallowed.1 hallowed.2 hinv)
    (hrows.and_mem hnone)
    ⟨objectsInv_initial, fun _ h => absurd rfl h, fun _ _ => rfl⟩

theorem Stamped.not_zero {address : Address} (htype : row.type = .txAccept)
    (h : Stamped (fetchTxLog2 raw row) address s) : ¬UnconfirmedTimesZero s := by
  intro hzero
  obtain ⟨i, diff, hkv⟩ := h
  have htime := hzero.addressTx address i _ hkv rfl
  simp [fetchTxLog2, htype, unconfirmTxTimestamp] at htime

end Runs

/--
After every operation of a run that obeys the automaton the records of
unconfirmed transactions carry no block time, if and only if no transaction
that the run accepts touches an address.
-/
theorem unconfirmedTimesZero_iff (cfg : Config) (raw : RawTxs) (rows : List TxLog2Row)
    (hrows : ObeysAutomaton rows) {s : ParserState}
    (hrun : runRows cfg raw rows = .ok ((), s)) :
    (∀ done rest t, rows = done ++ rest → runRows cfg raw done = .ok ((), t) →
      UnconfirmedTimesZero t) ↔
    AcceptsTouchNone cfg raw rows := by
  constructor
  · intro hzero row hrow htype address htouches
    obtain ⟨done, rest, rfl⟩ := List.append_of_mem hrow
    obtain ⟨hdone, hallowed, -⟩ := (along_append _ done (row :: rest)).mp hrows
    -- the run up to this accept, and the accept itself
    rw [runRows, applyRows_append, bind_eq_ok] at hrun
    obtain ⟨_, s1, hrun1, hrun⟩ := hrun
    rw [applyRows, List.forM_cons, bind_eq_ok] at hrun
    obtain ⟨_, t, hrun2, -⟩ := hrun
    have hobjects := wp_of_ok (applyRows_objects hdone) hrun1
    rw [applyRow_eq, htype] at hrun2
    have hstamped := (wp_of_ok (acceptTx_times hobjects (hallowed.accept_height htype))
      hrun2).2 address htouches
    apply hstamped.not_zero htype
    apply hzero (done ++ [row]) rest t (by simp)
    rw [runRows, applyRows_append, bind_eq_ok]
    refine ⟨_, s1, hrun1, ?_⟩
    rw [applyRows, List.forM_cons, bind_eq_ok]
    exact ⟨_, t, by rw [applyRow_eq, htype]; exact hrun2, rfl⟩
  · rintro hnone done rest t rfl hrun'
    have hdone := ((along_append _ done rest).mp hrows).1
    exact (wp_of_ok (applyRows_noLists hdone fun row hrow =>
      hnone row (List.mem_append_left _ hrow)) hrun').unconfirmedTimesZero

theorem unconfirmedTimesZero_iff_example :
    ∃ s, runRows exampleConfig exampleRaw exampleRows = .ok ((), s) ∧
      ((∀ done rest t, exampleRows = done ++ rest →
        runRows exampleConfig exampleRaw done = .ok ((), t) → UnconfirmedTimesZero t) ↔
      AcceptsTouchNone exampleConfig exampleRaw exampleRows) := by
  obtain ⟨s, hs⟩ := exists_of_isOk exampleRows_isOk
  exact ⟨s, hs, unconfirmedTimesZero_iff exampleConfig exampleRaw exampleRows
    (ObeysLifo.automaton (by decide)) hs⟩

/-- A newly accepted coinbase is listed with a time in 2030. -/
theorem unconfirmedTimes_not_zero :
    ObeysAutomaton [⟨1, .txAccept, -1, -1, 0, 7⟩] ∧
    ∃ s, runRows exampleConfig exampleRaw [⟨1, .txAccept, -1, -1, 0, 7⟩] = .ok ((), s) ∧
      s.kv (.addrTx (exampleConfig.addressToString (.keyID (List.replicate 20 65))) 0) =
        some ⟨50 * COIN, 7, -1, 1893456000⟩ ∧ ¬UnconfirmedTimesZero s := by
  have hrecord : (runRows exampleConfig exampleRaw [⟨1, .txAccept, -1, -1, 0, 7⟩]).map
      (fun r => r.2.kv (.addrTx
        (exampleConfig.addressToString (.keyID (List.replicate 20 65))) 0)) =
      .ok (some ⟨50 * COIN, 7, -1, 1893456000⟩) := by
    decide +kernel
  refine ⟨ObeysLifo.automaton (by decide), ?_⟩
  cases hrun : runRows exampleConfig exampleRaw [⟨1, .txAccept, -1, -1, 0, 7⟩] with
  | error e => cases hrun ▸ hrecord
  | ok r =>
      rw [hrun] at hrecord
      have hkv := Except.ok.inj hrecord
      refine ⟨r.2, rfl, hkv, fun hzero => ?_⟩
      have htime := hzero.addressTx _ 0 _ hkv rfl
      cases htime

end ExplorerKV.Parser

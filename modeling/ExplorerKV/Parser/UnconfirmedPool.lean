import ExplorerKV.Parser.UnconfirmedTimes

/-!
# The pool of unconfirmed transactions

`03_{hash}` is the record of an unconfirmed transaction, `01_{hash}` says by
its height whether the transaction is one, and two counters, each with a `90_`
key of its own, say how many there are and how large they are together.  Only
these keys and the counters are followed here, so the lemmas hold for every
configuration, whatever the address cache does.
-/

namespace ExplorerKV.Parser

open Bitcoin Foundation

/-! ## What an operation does to them -/

def Key.OfPool : Key → Prop
  | .txObject _ | .txUnconfirmed _ | .unconfirmedTxsCount | .unconfirmedTxsSize => True
  | _ => False

/-- The records and the counters are as they were. -/
structure SamePool (s s' : ParserState) : Prop where
  kv : SameOn Key.OfPool s s'
  count : s'.unconfirmedTxsCount = s.unconfirmedTxsCount
  size : s'.unconfirmedTxsSize = s.unconfirmedTxsSize

instance : Framed Key.OfPool SamePool where
  refl _ := ⟨fun _ _ => rfl, rfl, rfl⟩
  trans _ _ _ h h' := ⟨fun key hkey => (h'.kv key hkey).trans (h.kv key hkey),
    h'.count.trans h.count, h'.size.trans h.size⟩
  write s _ val hkey := ⟨fun _ hk => s.write_kv_of_ne val fun heq => hkey (heq ▸ hk), rfl, rfl⟩
  cache _ _ _ := ⟨fun _ _ => rfl, rfl, rfl⟩

theorem SamePool.refl (s : ParserState) : SamePool s s := ⟨fun _ _ => rfl, rfl, rfl⟩

theorem SamePool.then {s s' s'' : ParserState} (h : SamePool s s') (h' : SamePool s' s'') :
    SamePool s s'' :=
  IsTrans.trans _ _ _ h h'

theorem SamePool.txObject {s s' : ParserState} (h : SamePool s s') (hash : Uint256) :
    s'.kv (.txObject hash) = s.kv (.txObject hash) :=
  h.kv _ trivial

theorem SamePool.txUnconfirmed {s s' : ParserState} (h : SamePool s s') (hash : Uint256) :
    s'.kv (.txUnconfirmed hash) = s.kv (.txUnconfirmed hash) :=
  h.kv _ trivial

/-- The counters have moved, and their keys hold them. -/
structure PoolCounted (count size : Int) (s s' : ParserState) : Prop where
  txObject : ∀ hash, s'.kv (.txObject hash) = s.kv (.txObject hash)
  txUnconfirmed : ∀ hash, s'.kv (.txUnconfirmed hash) = s.kv (.txUnconfirmed hash)
  count : s'.unconfirmedTxsCount = s.unconfirmedTxsCount + count
  size : s'.unconfirmedTxsSize = s.unconfirmedTxsSize + size
  countKey : s'.kv .unconfirmedTxsCount = some s'.unconfirmedTxsCount
  sizeKey : s'.kv .unconfirmedTxsSize = some s'.unconfirmedTxsSize

/-- The records of one transaction are new, and the counters have moved. -/
structure PoolEffect (hash : Uint256) (txObject : Tx) (record : Option UnconfirmedTx)
    (count size : Int) (s s' : ParserState) : Prop where
  txObject_of_ne : ∀ other, other ≠ hash → s'.kv (.txObject other) = s.kv (.txObject other)
  record_of_ne : ∀ other, other ≠ hash →
    s'.kv (.txUnconfirmed other) = s.kv (.txUnconfirmed other)
  txObject_self : s'.kv (.txObject hash) = some txObject
  record_self : s'.kv (.txUnconfirmed hash) = record
  count : s'.unconfirmedTxsCount = s.unconfirmedTxsCount + count
  size : s'.unconfirmedTxsSize = s.unconfirmedTxsSize + size
  countKey : s'.kv .unconfirmedTxsCount = some s'.unconfirmedTxsCount
  sizeKey : s'.kv .unconfirmedTxsSize = some s'.unconfirmedTxsSize

section Effects

variable {cfg : Config} {raw : RawTxs} {row : TxLog2Row} {hash : Uint256} {txObject : Tx}
  {record : Option UnconfirmedTx} {count size : Int} {s s1 s2 s3 s4 : ParserState}

theorem PoolEffect.of_writes (h1 : SamePool s s1)
    (h2 : SamePool (s1.write ⟨.txObject hash, some txObject⟩) s2)
    (h3 : SamePool (s2.write ⟨.txUnconfirmed hash, record⟩) s3)
    (h4 : PoolCounted count size s3 s4) :
    PoolEffect hash txObject record count size s s4 where
  txObject_of_ne other hne := by
    rw [h4.txObject, h3.txObject, ParserState.write_kv_of_ne _ _ (by simp), h2.txObject,
      ParserState.write_kv_of_ne _ _ (by simpa using hne), h1.txObject]
  record_of_ne other hne := by
    rw [h4.txUnconfirmed, h3.txUnconfirmed, ParserState.write_kv_of_ne _ _ (by simpa using hne),
      h2.txUnconfirmed, ParserState.write_kv_of_ne _ _ (by simp), h1.txUnconfirmed]
  txObject_self := by
    rw [h4.txObject, h3.txObject, ParserState.write_kv_of_ne _ _ (by simp), h2.txObject,
      ParserState.write_kv_self]
  record_self := by
    rw [h4.txUnconfirmed, h3.txUnconfirmed, ParserState.write_kv_self]
  count := by
    rw [h4.count, h3.count, ParserState.write_unconfirmedTxsCount, h2.count,
      ParserState.write_unconfirmedTxsCount, h1.count]
  size := by
    rw [h4.size, h3.size, ParserState.write_unconfirmedTxsSize, h2.size,
      ParserState.write_unconfirmedTxsSize, h1.size]
  countKey := h4.countKey
  sizeKey := h4.sizeKey

theorem tail_counted (cfg : Config) (balance : BalanceMap) (txLog2 : TxLog2) (count size : Int) :
    wp (do
        flushAddressInfo cfg balance
        updateUnconfirmedTxPool count size
        writeNotificationLogs cfg balance txLog2)
      (fun _ s' => PoolCounted count size s s') (fun _ => True) s := by
  apply wp_seq ((flushAddressInfo_same (R := SamePool) cfg (fun _ => id) balance).run s)
  intro _ s1 hflush
  rw [wp_bind]
  simp only [updateUnconfirmedTxPool, wp_bind, wp_modify, wp_get, wp_kvSet]
  apply wp_mono (writeNotificationLogs_spec balance txLog2) _ fun _ he => he
  rintro _ s2 ⟨hkv, -, hcount, hsize⟩
  simp only [ParserState.write_unconfirmedTxsCount,
    ParserState.write_unconfirmedTxsSize] at hcount hsize
  constructor
  · intro hash
    rw [hkv, ParserState.write_kv_of_ne _ _ (by simp), ParserState.write_kv_of_ne _ _ (by simp)]
    exact hflush.kv _ trivial
  · intro hash
    rw [hkv, ParserState.write_kv_of_ne _ _ (by simp), ParserState.write_kv_of_ne _ _ (by simp)]
    exact hflush.kv _ trivial
  · rw [hcount, hflush.count]
  · rw [hsize, hflush.size]
  · rw [hkv, hcount, ParserState.write_kv_of_ne _ _ (by simp), ParserState.write_kv_self]
  · rw [hkv, hsize, ParserState.write_kv_self]

theorem not_pool_of_utxo (key : Key) (h : key.OfUtxo) : ¬Key.OfPool key := by
  intro h'
  cases key <;> first | exact h | exact h'

theorem not_pool_of_addrTx {address : Address} (key : Key) (h : Key.OfAddrTxOf address key) :
    ¬Key.OfPool key := by
  intro h'
  cases key <;> first | exact h | exact h'

theorem acceptTx_pool (hheight : row.blkHeight = -1) :
    wp (acceptTx cfg (fetchTxLog2 raw row)) (fun _ s' => ∃ txObject record,
      PoolEffect row.txHash txObject (some record) 1 ((raw row.txHash).hexLength / 2 : Nat) s s' ∧
      txObject.blockHeight = -1 ∧ txObject.size = (raw row.txHash).hexLength / 2 ∧
      record.size = (raw row.txHash).hexLength / 2) (fun _ => True) s := by
  unfold acceptTx
  rw [wp_bind, wp_assertion]
  refine ⟨fun _ => ?_, fun _ => trivial⟩
  rw [if_neg (by simp [isRepeatedTx, fetchTxLog2, hheight])]
  simp only [fetchTxLog2_tx, fetchTxLog2_txHash]
  apply wp_seq ((getPrevTxOutputs_steps (R := SamePool) _).run s)
  intro prevTxOutputs s0 h0
  apply wp_seq ((acceptTxOutputs_same (R := SamePool) cfg not_pool_of_utxo _ _).run s0)
  intro balance s1 h1
  apply wp_seq ((getValueOut_steps (R := SamePool) _).run s1)
  intro valueOut s2 h2
  rw [wp_bind, wp_kvSet]
  generalize hobject : (Tx.mk _ _ _ _ _ _ _ _ _ _ _ _ _ _) = txObject
  apply wp_seq ((acceptTxInputs_same (R := SamePool) cfg not_pool_of_utxo _ _).run _)
  intro _ s3 h3
  have hlists : Steps SamePool (insertAddressTxs cfg (fetchTxLog2 raw row) balance) :=
    .forM fun x => insertAddressTx_same cfg not_pool_of_addrTx x.2
  apply wp_seq (hlists.run s3)
  intro _ s4 h4
  rw [wp_bind, wp_kvSet]
  generalize hrecord : (UnconfirmedTx.mk _ _ _) = record
  apply wp_mono (tail_counted cfg _ _ _ _) _ fun _ he => he
  intro _ s5 h5
  refine ⟨txObject, record, .of_writes ((h0.then h1).then h2) (h3.then h4) (.refl _) h5, ?_, ?_, ?_⟩
  · rw [← hobject]
  · rw [← hobject]
    rfl
  · rw [← hrecord]
    rfl

theorem confirmTx_pool : wp (confirmTx cfg (fetchTxLog2 raw row)) (fun _ s' =>
      ∃ old txObject, s.kv (.txObject row.txHash) = some old ∧
        PoolEffect row.txHash txObject none (-1) (-((raw row.txHash).hexLength / 2 : Nat)) s s' ∧
        txObject.blockHeight = row.blkHeight ∧ txObject.size = old.size) (fun _ => True) s := by
  unfold confirmTx
  simp only [fetchTxLog2_tx, fetchTxLog2_txHash]
  apply wp_seq ((getTxAddressBalance_steps (R := SamePool) cfg _).run s)
  intro balance s0 h0
  apply wp_seq ((Steps.forM (R := SamePool) fun x =>
    confirmAddress_same cfg not_pool_of_addrTx).run s0)
  intro _ s1 h1
  apply wp_bind.mpr (wp_kvGet_of _ (fun old hold => ?_) fun _ => trivial)
  apply wp_seq ((confirmedFee_steps (R := SamePool) cfg _ _).run s1)
  intro fee s1' h1'
  rw [wp_bind, wp_kvSet, wp_bind, wp_kvDel]
  have hpool := (h0.then h1).then h1'
  rw [h1.txObject, h0.txObject] at hold
  apply wp_mono (tail_counted cfg _ _ _ _) _ fun _ he => he
  intro _ s2 h2
  exact ⟨old, _, hold, .of_writes hpool (.refl _) (.refl _) h2, rfl, rfl⟩

theorem unconfirmTx_pool : wp (unconfirmTx cfg (fetchTxLog2 raw row)) (fun _ s' =>
      ∃ old txObject record, s.kv (.txObject row.txHash) = some old ∧
        PoolEffect row.txHash txObject (some record) 1 ((raw row.txHash).hexLength / 2 : Nat)
          s s' ∧
        txObject.blockHeight = -1 ∧ txObject.size = old.size ∧ record.size = old.size)
      (fun _ => True) s := by
  unfold unconfirmTx
  simp only [fetchTxLog2_tx, fetchTxLog2_txHash]
  apply wp_seq ((getTxAddressBalance_steps (R := SamePool) cfg _).run s)
  intro balance s0 h0
  apply wp_seq ((Steps.forM (R := SamePool) fun x =>
    unconfirmAddress_same cfg not_pool_of_addrTx).run s0)
  intro _ s1 h1
  apply wp_bind.mpr (wp_kvGet_of _ (fun old hold => ?_) fun _ => trivial)
  rw [wp_bind, wp_kvSet, wp_bind, wp_kvSet]
  rw [h1.txObject, h0.txObject] at hold
  apply wp_mono (tail_counted cfg _ _ _ _) _ fun _ he => he
  intro _ s2 h2
  exact ⟨old, _, _, hold, .of_writes (h0.then h1) (.refl _) (.refl _) h2, rfl, rfl, rfl⟩

theorem rejectTx_pool : wp (rejectTx cfg (fetchTxLog2 raw row)) (fun _ s' => ∃ txObject,
      PoolEffect row.txHash txObject none (-1) (-((raw row.txHash).hexLength / 2 : Nat)) s s')
      (fun _ => True) s := by
  unfold rejectTx
  simp only [fetchTxLog2_tx, fetchTxLog2_txHash]
  apply wp_seq ((getPrevTxOutputs_steps (R := SamePool) _).run s)
  intro prevTxOutputs s0 h0
  apply wp_seq ((rejectTxInputs_same (R := SamePool) cfg not_pool_of_utxo _ _ _).run s0)
  intro _ s1 h1
  apply wp_seq ((rejectTxOutputs_same (R := SamePool) cfg not_pool_of_utxo _ _).run s1)
  intro balance s2 h2
  apply wp_bind.mpr (wp_kvGet_of _ (fun old hold => ?_) fun _ => trivial)
  rw [wp_bind, wp_kvSet, wp_bind, wp_kvDel]
  apply wp_seq ((Steps.forM (R := SamePool) fun x =>
    rejectAddress_same cfg not_pool_of_addrTx).run _)
  intro _ s3 h3
  apply wp_mono (tail_counted cfg _ _ _ _) _ fun _ he => he
  intro _ s4 h4
  exact ⟨_, .of_writes ((h0.then h1).then h2) (.refl _) h3 h4⟩

end Effects

/-! ## The invariant -/

def txSize (raw : RawTxs) (hash : Uint256) : Nat := (raw hash).hexLength / 2

structure PoolInv (raw : RawTxs) (p : Ledger) (s : ParserState) : Prop where
  record : ∀ hash, p.status hash = .unconfirmed →
    ∃ record, s.kv (.txUnconfirmed hash) = some record ∧ record.size = txSize raw hash
  noRecord : ∀ hash, p.status hash ≠ .unconfirmed → s.kv (.txUnconfirmed hash) = none
  txObject : ∀ hash, p.Live hash → ∃ txObject, s.kv (.txObject hash) = some txObject ∧
    txObject.size = txSize raw hash ∧ (txObject.blockHeight = -1 ↔ p.status hash = .unconfirmed)
  pool : ∃ pool : Finset Uint256, (∀ hash, hash ∈ pool ↔ p.status hash = .unconfirmed) ∧
    s.unconfirmedTxsCount = pool.card ∧
    s.unconfirmedTxsSize = ∑ hash ∈ pool, (txSize raw hash : Int)
  countKey : (s.kv .unconfirmedTxsCount).getD 0 = s.unconfirmedTxsCount
  sizeKey : (s.kv .unconfirmedTxsSize).getD 0 = s.unconfirmedTxsSize

/-- What an operation must leave of its own transaction, by the status it leaves. -/
def LeavesStatus (raw : RawTxs) (hash : Uint256) (status : TxStatus) (txObject : Tx)
    (record : Option UnconfirmedTx) : Prop :=
  match status with
  | .unconfirmed => txObject.blockHeight = -1 ∧ txObject.size = txSize raw hash ∧
      ∃ r, record = some r ∧ r.size = txSize raw hash
  | .confirmed => txObject.blockHeight ≠ -1 ∧ txObject.size = txSize raw hash ∧ record = none
  | .absent => record = none

def poolSign : Log2Type → Int
  | .txAccept | .txUnconfirm => 1
  | .txConfirm | .txReject => -1

section Steps

variable {cfg : Config} {raw : RawTxs} {row : TxLog2Row} {p : Ledger} {s s' : ParserState}

theorem poolInv_initial : PoolInv raw .empty .initial where
  record _ h := by cases h
  noRecord _ _ := rfl
  txObject _ h := absurd rfl h
  pool := ⟨∅, fun hash => by simp [Ledger.empty], rfl, rfl⟩
  countKey := rfl
  sizeKey := rfl

theorem PoolInv.restart (h : PoolInv raw p s) : PoolInv raw p (.start s.kv) where
  record := h.record
  noRecord := h.noRecord
  txObject := h.txObject
  pool := by
    obtain ⟨pool, hmem, hcount, hsize⟩ := h.pool
    exact ⟨pool, hmem, h.countKey.trans hcount, h.sizeKey.trans hsize⟩
  countKey := rfl
  sizeKey := rfl

theorem moves_pool (hallowed : p.TxAllowed row) :
    Moves row.txHash (fun hash => p.status hash = .unconfirmed)
      (fun hash => (p.next row).status hash = .unconfirmed) (poolSign row.type) := by
  have hbefore := hallowed.status
  have hafter := p.next_status row
  cases htype : row.type with
  | txAccept | txUnconfirm =>
      rw [htype] at hbefore
      apply Moves.enter
      · rw [hbefore]
        exact TxStatus.noConfusion
      · intro hash
        rw [hafter, htype]
        by_cases heq : hash = row.txHash <;> simp [heq, Log2Type.statusAfter]
  | txConfirm | txReject =>
      rw [htype] at hbefore
      apply Moves.leave
      · exact hbefore
      · intro hash
        rw [hafter, htype]
        by_cases heq : hash = row.txHash <;> simp [heq, Log2Type.statusAfter]

theorem PoolInv.effect (h : PoolInv raw p s) (hallowed : p.TxAllowed row) (txObject : Tx)
    (record : Option UnconfirmedTx)
    (hleaves : LeavesStatus raw row.txHash row.type.statusAfter txObject record)
    (heffect : PoolEffect row.txHash txObject record (poolSign row.type)
      (poolSign row.type * (txSize raw row.txHash : Nat)) s s') :
    PoolInv raw (p.next row) s' where
  record hash hstatus := by
    rw [Ledger.next_status] at hstatus
    split at hstatus
    · rename_i heq
      rw [hstatus] at hleaves
      obtain ⟨-, -, r, hr, hsize⟩ := hleaves
      rw [heq, heffect.record_self]
      exact ⟨r, hr, hsize⟩
    · rename_i hne
      rw [heffect.record_of_ne _ hne]
      exact h.record hash hstatus
  noRecord hash hstatus := by
    rw [Ledger.next_status] at hstatus
    split at hstatus
    · rename_i heq
      rw [heq, heffect.record_self]
      cases hafter : row.type.statusAfter with
      | unconfirmed => exact absurd hafter hstatus
      | confirmed =>
          rw [hafter] at hleaves
          exact hleaves.2.2
      | absent =>
          rw [hafter] at hleaves
          exact hleaves
    · rename_i hne
      rw [heffect.record_of_ne _ hne]
      exact h.noRecord hash hstatus
  txObject hash hlive := by
    rw [Ledger.Live, Ledger.next_status] at hlive
    rw [Ledger.next_status]
    split at hlive
    · rename_i heq
      rw [if_pos heq, heq, heffect.txObject_self]
      cases hafter : row.type.statusAfter with
      | absent => exact absurd hafter hlive
      | unconfirmed =>
          rw [hafter] at hleaves
          exact ⟨txObject, rfl, hleaves.2.1, by simp [hleaves.1]⟩
      | confirmed =>
          rw [hafter] at hleaves
          exact ⟨txObject, rfl, hleaves.2.1, by simp [hleaves.1]⟩
    · rename_i hne
      rw [if_neg hne, heffect.txObject_of_ne _ hne]
      exact h.txObject hash hlive
  pool := by
    obtain ⟨pool, hmem, hcount, hsize⟩ := h.pool
    obtain ⟨pool', hmem', hcard⟩ := (moves_pool hallowed).sum hmem fun _ => 1
    obtain ⟨pool'', hmem'', hsum⟩ := (moves_pool hallowed).sum hmem fun hash => txSize raw hash
    have heq : pool'' = pool' := Finset.ext fun hash => (hmem'' hash).trans (hmem' hash).symm
    refine ⟨pool', hmem', ?_, ?_⟩
    · rw [Finset.sum_const, Finset.sum_const, nsmul_eq_mul, nsmul_eq_mul] at hcard
      rw [heffect.count, hcount]
      omega
    · rw [heffect.size, hsize, ← hsum, heq]
  countKey := by
    rw [heffect.countKey]
    rfl
  sizeKey := by
    rw [heffect.sizeKey]
    rfl

theorem PoolInv.size_old (h : PoolInv raw p s) {hash : Uint256} (hlive : p.Live hash) {old : Tx}
    (hold : s.kv (.txObject hash) = some old) : old.size = txSize raw hash := by
  obtain ⟨txObject, htxObject, hsize, -⟩ := h.txObject hash hlive
  rw [← hsize, Option.some.inj (hold.symm.trans htxObject)]

theorem applyRow_poolInv (hallowed : p.TxAllowed row) (hinv : PoolInv raw p s) :
    wp (applyRow cfg raw row) (fun _ s' => PoolInv raw (p.next row) s' ∧
      s'.kv .unconfirmedTxsCount = some s'.unconfirmedTxsCount ∧
      s'.kv .unconfirmedTxsSize = some s'.unconfirmedTxsSize) (fun _ => True) s := by
  have hstatus := hallowed.status
  rw [applyRow_eq]
  cases htype : row.type with
  | txAccept =>
      apply wp_mono (acceptTx_pool (hallowed.accept_height htype)) _ fun _ he => he
      rintro _ s' ⟨txObject, record, h, hheight, hsize, hrecord⟩
      refine ⟨hinv.effect hallowed txObject (some record) ?_ ?_, h.countKey, h.sizeKey⟩
      · rw [htype]
        exact ⟨hheight, hsize, record, rfl, hrecord⟩
      · simpa [htype, poolSign, txSize] using h
  | txConfirm =>
      apply wp_mono confirmTx_pool _ fun _ he => he
      rintro _ s' ⟨old, txObject, hold, h, hheight, hsize⟩
      have hlive : p.Live row.txHash := by
        simp [Ledger.Live, hstatus, htype, Log2Type.statusBefore]
      have hconfirmed := hallowed.confirm_height htype
      refine ⟨hinv.effect hallowed txObject none ?_ ?_, h.countKey, h.sizeKey⟩
      · rw [htype]
        exact ⟨by omega, hsize.trans (hinv.size_old hlive hold), rfl⟩
      · simpa [htype, poolSign, txSize] using h
  | txUnconfirm =>
      apply wp_mono unconfirmTx_pool _ fun _ he => he
      rintro _ s' ⟨old, txObject, record, hold, h, hheight, hsize, hrecord⟩
      have hlive : p.Live row.txHash := by
        simp [Ledger.Live, hstatus, htype, Log2Type.statusBefore]
      have hold := hinv.size_old hlive hold
      refine ⟨hinv.effect hallowed txObject (some record) ?_ ?_, h.countKey, h.sizeKey⟩
      · rw [htype]
        exact ⟨hheight, hsize.trans hold, record, rfl, hrecord.trans hold⟩
      · simpa [htype, poolSign, txSize] using h
  | txReject =>
      apply wp_mono rejectTx_pool _ fun _ he => he
      rintro _ s' ⟨txObject, h⟩
      refine ⟨hinv.effect hallowed txObject none ?_ ?_, h.countKey, h.sizeKey⟩
      · rw [htype]
        rfl
      · simpa [htype, poolSign, txSize] using h

end Steps

/-! ## Runs with restarts -/

inductive PoolItem where
  | row (row : TxLog2Row)
  | restart
  deriving DecidableEq, Repr

def rowOf : PoolItem → Option TxLog2Row
  | .row row => some row
  | .restart => none

def itemRows (items : List PoolItem) : List TxLog2Row := items.filterMap rowOf

@[simp] theorem itemRows_nil : itemRows [] = [] := rfl

@[simp] theorem itemRows_row (row : TxLog2Row) (items : List PoolItem) :
    itemRows (.row row :: items) = row :: itemRows items := rfl

@[simp] theorem itemRows_restart (items : List PoolItem) :
    itemRows (.restart :: items) = itemRows items := rfl

def applyItem (cfg : Config) (raw : RawTxs) : PoolItem → ParserM Unit
  | .row row => applyRow cfg raw row
  | .restart => modify fun s => .start s.kv

def applyItems (cfg : Config) (raw : RawTxs) (items : List PoolItem) : ParserM Unit :=
  forM items (applyItem cfg raw)

/-- What the store and the counters say of the unconfirmed transactions. -/
structure PoolExact (p : Ledger) (s : ParserState) : Prop where
  record : ∀ hash, (s.kv (.txUnconfirmed hash)).isSome ↔
    p.Live hash ∧ p.status hash = .unconfirmed
  txObject : ∀ hash, p.Live hash → ∃ txObject, s.kv (.txObject hash) = some txObject ∧
    (txObject.blockHeight = -1 ↔ p.status hash = .unconfirmed)
  counters : ∃ pool : Finset Uint256,
    (∀ hash, hash ∈ pool ↔ (s.kv (.txUnconfirmed hash)).isSome) ∧
    s.unconfirmedTxsCount = pool.card ∧
    s.unconfirmedTxsSize = ∑ hash ∈ pool,
      ((s.kv (.txUnconfirmed hash)).elim 0 (fun record => (record.size : Int)))
  reload : (ParserState.start s.kv).unconfirmedTxsCount = s.unconfirmedTxsCount ∧
    (ParserState.start s.kv).unconfirmedTxsSize = s.unconfirmedTxsSize

/-- The `90_` keys hold the counters. -/
def PoolKeys (s : ParserState) : Prop :=
  s.kv .unconfirmedTxsCount = some s.unconfirmedTxsCount ∧
    s.kv .unconfirmedTxsSize = some s.unconfirmedTxsSize

section Runs

variable {cfg : Config} {raw : RawTxs} {p : Ledger} {s : ParserState} {items : List PoolItem}

theorem PoolInv.record_iff (h : PoolInv raw p s) (hash : Uint256) :
    (s.kv (.txUnconfirmed hash)).isSome ↔ p.status hash = .unconfirmed := by
  by_cases hstatus : p.status hash = .unconfirmed
  · obtain ⟨record, hrecord, -⟩ := h.record hash hstatus
    simp [hrecord, hstatus]
  · simp [h.noRecord hash hstatus, hstatus]

theorem PoolInv.exact (h : PoolInv raw p s) : PoolExact p s where
  record hash := by
    rw [h.record_iff]
    constructor
    · intro hstatus
      exact ⟨by simp [Ledger.Live, hstatus], hstatus⟩
    · exact And.right
  txObject hash hlive := by
    obtain ⟨txObject, htxObject, -, hheight⟩ := h.txObject hash hlive
    exact ⟨txObject, htxObject, hheight⟩
  counters := by
    obtain ⟨pool, hmem, hcount, hsize⟩ := h.pool
    refine ⟨pool, fun hash => (hmem hash).trans (h.record_iff hash).symm, hcount, ?_⟩
    rw [hsize]
    apply Finset.sum_congr rfl
    intro hash hhash
    obtain ⟨record, hrecord, hrecordSize⟩ := h.record hash ((hmem hash).mp hhash)
    rw [hrecord, ← hrecordSize]
    rfl
  reload := ⟨h.countKey, h.sizeKey⟩

/-- Items as steps of the ledger; the flag tells whether a row has been handled. -/
def ItemAllowed (p : Ledger × Bool) : PoolItem → Prop
  | .row row => p.1.TxAllowed row
  | .restart => True

def nextItem (p : Ledger × Bool) : PoolItem → Ledger × Bool
  | .row row => (p.1.next row, true)
  | .restart => p

theorem along_items {p : Ledger × Bool}
    (h : Along Ledger.TxAllowed Ledger.next p.1 (itemRows items)) :
    Along ItemAllowed nextItem p items := by
  induction items generalizing p with
  | nil => trivial
  | cons item items ih =>
      cases item with
      | row row =>
          rw [itemRows_row] at h
          exact ⟨h.1, ih h.2⟩
      | restart => exact ⟨trivial, ih h⟩

theorem foldl_nextItem (p : Ledger × Bool) : items.foldl nextItem p =
    ((itemRows items).foldl Ledger.next p.1,
      p.2 || !(itemRows items).isEmpty) := by
  induction items generalizing p with
  | nil => simp
  | cons item items ih =>
      cases item with
      | row row => simp [ih, nextItem]
      | restart => simp [ih, nextItem]

theorem applyItem_poolInv {p : Ledger × Bool} {item : PoolItem} (hallowed : ItemAllowed p item)
    (hinv : PoolInv raw p.1 s ∧ (p.2 → PoolKeys s)) :
    wp (applyItem cfg raw item) (fun _ s' =>
      PoolInv raw (nextItem p item).1 s' ∧ ((nextItem p item).2 → PoolKeys s'))
      (fun _ => True) s := by
  cases item with
  | row row =>
      exact wp_mono (applyRow_poolInv hallowed hinv.1) (fun _ _ h => ⟨h.1, fun _ => h.2⟩)
        fun _ he => he
  | restart =>
      refine ⟨hinv.1.restart, fun hhandled => ?_⟩
      obtain ⟨hcount, hsize⟩ := hinv.2 hhandled
      constructor
      · simp [ParserState.start, hcount]
      · simp [ParserState.start, hsize]

/--
After every run, with restarts anywhere in it, the pool is exactly that of the
live unconfirmed transactions, and a restart would find it so.
-/
theorem unconfirmedPool_exact (hrows : ObeysAutomaton (itemRows items))
    (hrun : applyItems cfg raw items .initial = .ok ((), s)) :
    PoolExact (Ledger.after (itemRows items)) s ∧
      (itemRows items ≠ [] → PoolKeys s) := by
  have hitems : Along ItemAllowed nextItem (.empty, false) items := along_items hrows
  have hinv := wp_of_ok (wp_forM_along (fun p s => PoolInv raw p.1 s ∧ (p.2 → PoolKeys s))
    (fun _ _ _ => applyItem_poolInv) hitems ⟨poolInv_initial, fun h => by cases h⟩) hrun
  rw [foldl_nextItem] at hinv
  exact ⟨hinv.1.exact, fun hne => hinv.2 (by simpa using hne)⟩

/-- `exampleRows` with a restart after the third row. -/
def restartedItems : List PoolItem :=
  (exampleRows.take 3).map .row ++ .restart :: (exampleRows.drop 3).map .row

theorem unconfirmedPool_exact_example : ∃ s,
    applyItems exampleConfig exampleRaw restartedItems .initial = .ok ((), s) ∧
    PoolExact (Ledger.after exampleRows) s ∧ (exampleRows ≠ [] → PoolKeys s) := by
  have hok : (applyItems exampleConfig exampleRaw restartedItems .initial).isOk = true := by
    decide +kernel
  obtain ⟨s, hrun⟩ := exists_of_isOk hok
  have hrows : ObeysAutomaton (itemRows restartedItems) :=
    ObeysLifo.automaton (by decide)
  exact ⟨s, hrun, unconfirmedPool_exact hrows hrun⟩

end Runs

end ExplorerKV.Parser

import ExplorerKV.Parser.AddressLists
import ExplorerKV.Parser.Eviction

/-!
# Runs with an evicting cache

The accesses of an operation are a function of its row and of the raw
transactions: first the lookups before changes, then one lookup for each
address that is flushed.  As long as a run keeps what it has not flushed, the
bounded cache and one that never evicts go in lockstep, so the stores are equal
after each operation.
-/

namespace ExplorerKV.Parser

open Bitcoin Foundation

section Accesses

variable (cfg : Config) (raw : RawTxs)

def spentAddresses (tx : CTransaction) : List Address :=
  (prevOutputs cfg raw tx).flatMap (·.addresses)

def modifiedAddresses (row : TxLog2Row) : List Address :=
  match row.type with
  | .txAccept => (raw row.txHash).tx.vout.flatMap (outputAddresses cfg) ++
      (spentAddresses cfg raw (raw row.txHash).tx ++ (txBalance cfg raw row.txHash).keys)
  | .txConfirm | .txUnconfirm => (txBalance cfg raw row.txHash).keys
  | .txReject => spentAddresses cfg raw (raw row.txHash).tx ++
      (txBalance cfg raw row.txHash).keys

def cacheAccesses (row : TxLog2Row) : List CacheAccess :=
  (modifiedAddresses cfg raw row).map .modify ++
    (txBalance cfg raw row.txHash).keys.map .flush

def KeepsUnflushed (rows : List TxLog2Row) : Prop :=
  Along (CacheShape.Keeps cfg.kMaxCacheCount) (CacheShape.next cfg.kMaxCacheCount)
    .empty (rows.flatMap (cacheAccesses cfg raw))

instance (rows : List TxLog2Row) : Decidable (KeepsUnflushed cfg raw rows) :=
  inferInstanceAs (Decidable (Along _ _ _ _))

end Accesses

/-! ## Parts of an operation in lockstep -/

/-- The computation does not use the cache. -/
structure CacheFree {α : Type} (m : ParserM α) : Prop where
  run : ∀ c s t, Mirrors c s t → Lockstep (fun _ s' t' => Mirrors c s' t') m m s t

/-- With the address in the cache, the computation changes its information once. -/
structure Modifies {α : Type} (address : Address) (m : ParserM α) : Prop where
  run : ∀ c s t, Mirrors c s t → address ∈ c.addresses →
    Lockstep (fun _ s' t' =>
      Mirrors { c with unflushed := address :: c.unflushed } s' t') m m s t

/-- The two computations make these lookups. -/
structure Follows {α : Type} (bound : Option Nat) (accesses : List CacheAccess)
    (m m' : ParserM α) : Prop where
  run : ∀ c s t, Along (CacheShape.Keeps bound) (CacheShape.next bound) c accesses →
    Mirrors c s t →
    Lockstep (fun _ s' t' => Mirrors (accesses.foldl (CacheShape.next bound) c) s' t')
      m m' s t

section Rules

variable {α β γ : Type} {bound : Option Nat} {address : Address}
  {accesses accesses' : List CacheAccess}

namespace CacheFree

theorem pure (a : α) : CacheFree (Pure.pure a : ParserM α) :=
  ⟨fun _ _ _ h => lockstep_pure h⟩

theorem throw (e : Fault) : CacheFree (MonadExcept.throw e : ParserM α) :=
  ⟨fun _ _ _ _ => lockstep_throw e⟩

theorem bind {m : ParserM α} {f : α → ParserM β} (hm : CacheFree m)
    (hf : ∀ a, CacheFree (f a)) : CacheFree (m >>= f) :=
  ⟨fun c s t h => lockstep_seq (hm.run c s t h) fun a s' t' h' => (hf a).run c s' t' h'⟩

theorem ite {p : Prop} [Decidable p] {m m' : ParserM α} (hm : CacheFree m)
    (hm' : CacheFree m') : CacheFree (if p then m else m') :=
  ⟨fun c s t h => lockstep_ite (fun _ => hm.run c s t h) fun _ => hm'.run c s t h⟩

theorem assertion (site : AssertSite) (p : Prop) [Decidable p] :
    CacheFree (Parser.assertion site p) :=
  ite (pure ()) (throw _)

theorem getMayNotExist (key : Key) : CacheFree (kvGetMayNotExist key) :=
  ⟨fun _ s t h => .ok (show kvGetMayNotExist key s = .ok (s.kv key, s) from rfl)
    (by rw [h.kv]; rfl) h⟩

theorem get (key : Key) : CacheFree (kvGet key) :=
  bind (getMayNotExist key) fun val => by
    cases val with
    | some val => exact pure val
    | none => exact throw _

theorem getUnchecked (key : Key) : CacheFree (kvGetUnchecked key) :=
  bind (getMayNotExist key) fun val => by
    cases val with
    | some val => exact pure val
    | none => exact throw _

theorem set (key : Key) (val : key.Val) (hkey : ∀ a, key ≠ .addrObject a) :
    CacheFree (kvSet key val) :=
  ⟨fun _ _ _ h => .ok rfl rfl (h.write key (some val) hkey)⟩

theorem del (key : Key) (hkey : ∀ a, key ≠ .addrObject a) : CacheFree (kvDel key) :=
  ⟨fun _ _ _ h => .ok rfl rfl (h.write key none hkey)⟩

theorem forM {xs : List γ} {f : γ → ParserM PUnit} (hf : ∀ x, CacheFree (f x)) :
    CacheFree (ForM.forM xs f) := by
  induction xs with
  | nil => exact pure _
  | cons x xs ih =>
      rw [List.forM_cons]
      exact bind (hf x) fun _ => ih

theorem mapM {xs : List γ} {f : γ → ParserM β} (hf : ∀ x, CacheFree (f x)) :
    CacheFree (xs.mapM f) := by
  induction xs with
  | nil => exact pure _
  | cons x xs ih =>
      rw [List.mapM_cons]
      exact bind (hf x) fun _ => bind ih fun _ => pure _

theorem foldlM {xs : List γ} {f : β → γ → ParserM β} (hf : ∀ b x, CacheFree (f b x))
    (b : β) : CacheFree (xs.foldlM f b) := by
  induction xs generalizing b with
  | nil => exact pure _
  | cons x xs ih =>
      rw [List.foldlM_cons]
      exact bind (hf b x) fun b' => ih b'

end CacheFree

namespace Modifies

theorem put (address : Address) (info : AddressInfo) :
    Modifies address (putAddressInfo address info) :=
  ⟨fun _ _ _ h ha => .ok rfl rfl (h.put ha info)⟩

theorem after {m : ParserM α} {f : α → ParserM β} (hm : CacheFree m)
    (hf : ∀ a, Modifies address (f a)) : Modifies address (m >>= f) :=
  ⟨fun c s t h ha => lockstep_seq (hm.run c s t h) fun a s' t' h' =>
    (hf a).run c s' t' h' ha⟩

theorem before {m : ParserM α} {f : α → ParserM β} (hm : Modifies address m)
    (hf : ∀ a, CacheFree (f a)) : Modifies address (m >>= f) :=
  ⟨fun c s t h ha => lockstep_seq (hm.run c s t h ha) fun a s' t' h' =>
    (hf a).run _ s' t' h'⟩

end Modifies

namespace Follows

theorem nil {m : ParserM α} (hm : CacheFree m) : Follows bound [] m m :=
  ⟨fun c s t _ h => hm.run c s t h⟩

theorem seq {m m' : ParserM α} {f f' : α → ParserM β} (hm : Follows bound accesses m m')
    (hf : ∀ a, Follows bound accesses' (f a) (f' a)) :
    Follows bound (accesses ++ accesses') (m >>= f) (m' >>= f') := by
  refine ⟨fun c s t hkeeps h => ?_⟩
  obtain ⟨hkeeps, hkeeps'⟩ := (along_append ..).mp hkeeps
  rw [List.foldl_append]
  exact lockstep_seq (hm.run c s t hkeeps h) fun a s' t' h' =>
    (hf a).run _ s' t' hkeeps' h'

theorem after {m : ParserM α} {f f' : α → ParserM β} (hm : CacheFree m)
    (hf : ∀ a, Follows bound accesses (f a) (f' a)) :
    Follows bound accesses (m >>= f) (m >>= f') :=
  seq (nil hm) hf

theorem before {m m' : ParserM α} {f : α → ParserM β} (hm : Follows bound accesses m m')
    (hf : ∀ a, CacheFree (f a)) : Follows bound accesses (m >>= f) (m' >>= f) := by
  have h : Follows bound (accesses ++ []) (m >>= f) (m' >>= f) :=
    seq hm fun a => nil (hf a)
  rwa [List.append_nil] at h

theorem forM {xs : List γ} {f f' : γ → ParserM PUnit} {g : γ → List CacheAccess}
    (hf : ∀ x, Follows bound (g x) (f x) (f' x)) :
    Follows bound (xs.flatMap g) (ForM.forM xs f) (ForM.forM xs f') := by
  induction xs with
  | nil => exact nil (.pure _)
  | cons x xs ih =>
      rw [List.forM_cons, List.forM_cons, List.flatMap_cons]
      exact seq (hf x) fun _ => ih

theorem foldlM {xs : List γ} {f f' : β → γ → ParserM β} {g : γ → List CacheAccess}
    (hf : ∀ b x, Follows bound (g x) (f b x) (f' b x)) (b : β) :
    Follows bound (xs.flatMap g) (xs.foldlM f b) (xs.foldlM f' b) := by
  induction xs generalizing b with
  | nil => exact nil (.pure _)
  | cons x xs ih =>
      rw [List.foldlM_cons, List.foldlM_cons, List.flatMap_cons]
      exact seq (hf b x) fun b' => ih b'

theorem modify {cfg : Config} {f : AddressInfo → ParserM β}
    (hf : ∀ info, Modifies address (f info)) :
    Follows cfg.kMaxCacheCount [.modify address] (getAddressInfo cfg address >>= f)
      (getAddressInfo cfg.unbounded address >>= f) := by
  refine ⟨fun c s t hkeeps h => ?_⟩
  have hkeeps := hkeeps.1
  refine lockstep_seq (getAddressInfo_lockstep h hkeeps) fun info s' t' h' => ?_
  have hmodify := (hf info).run _ s' t' h'.1 (hkeeps address (by simp [CacheAccess.address]))
  rwa [CacheShape.lookup_unflushed] at hmodify

theorem flush (cfg : Config) (address : Address) :
    Follows cfg.kMaxCacheCount [.flush address]
      (getAddressInfo cfg address >>= fun addr => kvSet (.addrObject address) addr)
      (getAddressInfo cfg.unbounded address >>= fun addr =>
        kvSet (.addrObject address) addr) := by
  refine ⟨fun c s t hkeeps h => ?_⟩
  have hkeeps := hkeeps.1
  refine lockstep_seq (getAddressInfo_lockstep h hkeeps) ?_
  rintro info s' t' ⟨h', rfl⟩
  have hflush := h'.flush (hkeeps address (by simp [CacheAccess.address]))
  rw [CacheShape.lookup_unflushed] at hflush
  exact .ok rfl rfl hflush

end Follows

end Rules

/-! ## The helpers -/

section Helpers

variable (cfg : Config)

theorem getPrevTxOutputs_cacheFree (tx : CTransaction) :
    CacheFree (getPrevTxOutputs tx) := by
  refine .ite (.pure _) (.mapM fun input => .bind (.getUnchecked _) fun prevTx => ?_)
  cases prevTx.outputs[input.prevout.n.toNat]? with
  | some output => exact .pure _
  | none => exact .throw _

theorem getTxAddressBalance_cacheFree (tx : CTransaction) :
    CacheFree (getTxAddressBalance cfg tx) :=
  .bind (getPrevTxOutputs_cacheFree tx) fun _ => .pure _

theorem getValueOut_cacheFree (tx : CTransaction) : CacheFree (getValueOut tx) := by
  unfold getValueOut
  cases tx.getValueOut with
  | some valueOut => exact .pure _
  | none => exact .throw _

theorem insertAddressUnspent_follows (nValue : Int) (address : Address) (hash : Uint256)
    (position position2 : Nat) :
    Follows cfg.kMaxCacheCount [.modify address]
      (insertAddressUnspent cfg nValue address hash position position2)
      (insertAddressUnspent cfg.unbounded nValue address hash position position2) :=
  .modify fun _ => .before (.put ..) fun _ =>
    .bind (.set _ _ (by simp)) fun _ => .set _ _ (by simp)

theorem switchTxNode_cacheFree (address : Address) (idx1 idx2 : Int) :
    CacheFree (switchTxNode address idx1 idx2) :=
  .bind (.getUnchecked _) fun _ => .bind (.getUnchecked _) fun _ =>
    .bind (.set _ _ (by simp)) fun _ => .bind (.set _ _ (by simp)) fun _ =>
      .bind (.set _ _ (by simp)) fun _ => .set _ _ (by simp)

theorem getAddressTxNode_cacheFree (address : Address) (txhash : Uint256) :
    CacheFree (getAddressTxNode address txhash) :=
  .bind (.get _) fun _ => .bind (.get _) fun _ => .pure _

theorem moveToConfirmed_cacheFree (address : Address) (txhash : Uint256)
    (lastConfirmedTxIdx : Int) (rounds : Nat) :
    CacheFree (moveToConfirmed address txhash lastConfirmedTxIdx rounds) := by
  induction rounds with
  | zero => exact .throw _
  | succ rounds ih =>
      exact .bind (getAddressTxNode_cacheFree ..) fun _ =>
        .ite (.pure _) (.bind (switchTxNode_cacheFree ..) fun _ => ih)

theorem moveToLast_cacheFree (address : Address) (txhash : Uint256) (txCount : Int)
    (rounds : Nat) : CacheFree (moveToLast address txhash txCount rounds) := by
  induction rounds with
  | zero => exact .throw _
  | succ rounds ih =>
      exact .bind (getAddressTxNode_cacheFree ..) fun _ => .ite (.pure _)
        (.bind (.assertion ..) fun _ => .bind (switchTxNode_cacheFree ..) fun _ => ih)

theorem confirmAddress_follows (txLog2 : TxLog2) (address : Address) :
    Follows cfg.kMaxCacheCount [.modify address] (confirmAddress cfg txLog2 address)
      (confirmAddress cfg.unbounded txLog2 address) :=
  .modify fun _ => .after (moveToConfirmed_cacheFree ..) fun _ =>
    .before (.put ..) fun _ => .bind (.get _) fun _ => .set _ _ (by simp)

theorem unconfirmAddress_follows (txLog2 : TxLog2) (address : Address) :
    Follows cfg.kMaxCacheCount [.modify address] (unconfirmAddress cfg txLog2 address)
      (unconfirmAddress cfg.unbounded txLog2 address) :=
  .modify fun _ => .after (getAddressTxNode_cacheFree ..) fun _ =>
    .before (.put ..) fun _ => .bind (.assertion ..) fun _ =>
      .bind (.assertion ..) fun _ => .bind (.get _) fun _ => .set _ _ (by simp)

theorem rejectAddress_follows (txLog2 : TxLog2) (address : Address) :
    Follows cfg.kMaxCacheCount [.modify address] (rejectAddress cfg txLog2 address)
      (rejectAddress cfg.unbounded txLog2 address) :=
  .modify fun _ => .after (moveToLast_cacheFree ..) fun _ =>
    .after (.assertion ..) fun _ => .after (.del _ (by simp)) fun _ =>
      .after (.del _ (by simp)) fun _ => .put ..

theorem insertAddressTx_follows (txLog2 : TxLog2) (address : Address) (diff : Int) :
    Follows cfg.kMaxCacheCount [.modify address] (insertAddressTx cfg txLog2 address diff)
      (insertAddressTx cfg.unbounded txLog2 address diff) :=
  .modify fun _ => .after (.set _ _ (by simp)) fun _ =>
    .after (.set _ _ (by simp)) fun _ => .put ..

theorem forM_balance_follows {f f' : Address × Int → ParserM PUnit}
    {access : Address → CacheAccess} (balance : BalanceMap)
    (hf : ∀ a d, Follows cfg.kMaxCacheCount [access a] (f (a, d)) (f' (a, d))) :
    Follows cfg.kMaxCacheCount (balance.keys.map access) (forM balance f)
      (forM balance f') := by
  have hkeys : balance.keys.map access = balance.flatMap fun x => [access x.1] := by
    rw [BalanceMap.keys, List.map_map, List.map_eq_flatMap]
    rfl
  rw [hkeys]
  exact .forM fun x => hf x.1 x.2

theorem flushAddressInfo_follows (balance : BalanceMap) :
    Follows cfg.kMaxCacheCount (balance.keys.map .flush) (flushAddressInfo cfg balance)
      (flushAddressInfo cfg.unbounded balance) :=
  forM_balance_follows cfg balance fun a _ => .flush cfg a

theorem CacheFree.of_run {m : ParserM Unit} (f : ParserState → ParserState)
    (hrun : ∀ s, m s = .ok ((), f s))
    (houtside : ∀ s, (f s).withoutCache = f s.withoutCache)
    (hcache : ∀ s, (f s).addrTxCache = s.addrTxCache)
    (hidx : ∀ s, (f s).lastUseIdx = s.lastUseIdx)
    (hstored : ∀ s a, (f s).kv (.addrObject a) = s.kv (.addrObject a)) : CacheFree m :=
  ⟨fun _ s t h => .ok (hrun s) (hrun t) (h.step
    (by rw [houtside, houtside, h.outside]) (hcache s) (hidx s) (hcache t) (hstored s))⟩

theorem updateUnconfirmedTxPool_cacheFree (count size : Int) :
    CacheFree (updateUnconfirmedTxPool count size) :=
  .of_run (fun s => ({ s with
      unconfirmedTxsCount := s.unconfirmedTxsCount + count
      unconfirmedTxsSize := s.unconfirmedTxsSize + size }.write
        ⟨.unconfirmedTxsCount, some (s.unconfirmedTxsCount + count)⟩).write
        ⟨.unconfirmedTxsSize, some (s.unconfirmedTxsSize + size)⟩)
    (fun _ => rfl) (fun _ => rfl) (fun _ => rfl) (fun _ => rfl) fun s a => by
      rw [ParserState.write_kv_of_ne _ _ (by simp), ParserState.write_kv_of_ne _ _ (by simp)]

theorem writeNotificationLogs_cacheFree (balance : BalanceMap) (txLog2 : TxLog2) :
    CacheFree (writeNotificationLogs cfg balance txLog2) := by
  refine .of_run (fun s => if isWriteNotificationLogs cfg s then { s with
      notifyLog := s.notifyLog ++ balance.map fun entry =>
        NotifyItem.tx txLog2.type entry.1 txLog2.txHash txLog2.blkHeight entry.2 } else s)
    (fun s => ?_) (fun s => ?_) (fun s => ?_) (fun s => ?_) (fun s a => ?_)
  · refine run_of_wp (wp_bind.mpr (wp_get.mpr (wp_ite (fun hwrite => ?_) fun hwrite => ?_)))
    · rw [if_pos hwrite]
      exact ⟨rfl, rfl⟩
    · rw [if_neg hwrite]
      exact ⟨rfl, rfl⟩
  · have hwrite : isWriteNotificationLogs cfg s.withoutCache =
        isWriteNotificationLogs cfg s := rfl
    simp only [hwrite]
    split <;> rfl
  all_goals split <;> rfl

theorem insertOutput_follows (nValue diff : Int) (addresses : List Address)
    (hash : Uint256) (position : Nat) (balance : BalanceMap) :
    Follows cfg.kMaxCacheCount (addresses.map .modify)
      (addresses.zipIdx.foldlM (fun balance (address, j) => do
        insertAddressUnspent cfg nValue address hash position j
        pure (balance.add address diff)) balance)
      (addresses.zipIdx.foldlM (fun balance (address, j) => do
        insertAddressUnspent cfg.unbounded nValue address hash position j
        pure (balance.add address diff)) balance) := by
  have haddresses : addresses.map CacheAccess.modify =
      addresses.zipIdx.flatMap fun x => [.modify x.1] := by
    conv_lhs => rw [← List.zipIdx_map_fst 0 addresses, List.map_map]
    rw [List.map_eq_flatMap]
    rfl
  rw [haddresses]
  exact .foldlM (fun balance x => .before (insertAddressUnspent_follows ..) fun _ =>
    .pure _) balance

theorem acceptTxOutputs_follows (txLog2 : TxLog2) (balance : BalanceMap) :
    Follows cfg.kMaxCacheCount
      ((txLog2.tx.vout.flatMap (outputAddresses cfg)).map .modify)
      (acceptTxOutputs cfg txLog2 balance) (acceptTxOutputs cfg.unbounded txLog2 balance) := by
  have haddresses : (txLog2.tx.vout.flatMap (outputAddresses cfg)).map CacheAccess.modify =
      txLog2.tx.vout.zipIdx.flatMap fun x => (outputAddresses cfg x.1).map .modify := by
    conv_lhs => rw [← List.zipIdx_map_fst 0 txLog2.tx.vout]
    rw [List.flatMap_map, List.map_flatMap]
  rw [haddresses]
  exact .foldlM (fun balance x => insertOutput_follows ..) balance

theorem zip_accesses {vin : List CTxIn} {prevTxOutputs : List TxOutput}
    (hlength : prevTxOutputs.length = vin.length) :
    (prevTxOutputs.flatMap (·.addresses)).map CacheAccess.modify =
      (vin.zip prevTxOutputs).flatMap fun x => x.2.addresses.map .modify := by
  have hzip : (vin.zip prevTxOutputs).map Prod.snd = prevTxOutputs :=
    List.map_snd_zip hlength.le
  conv_lhs => rw [← hzip]
  rw [List.flatMap_map, List.map_flatMap]

theorem insertSpendTxs_cacheFree (hash : Uint256) (tx : CTransaction) :
    CacheFree (insertSpendTxs hash tx) :=
  .forM fun _ => .set _ _ (by simp)

theorem removeUnspentOutputs_follows {tx : CTransaction} {prevTxOutputs : List TxOutput}
    (hlength : prevTxOutputs.length = tx.vin.length) :
    Follows cfg.kMaxCacheCount ((prevTxOutputs.flatMap (·.addresses)).map .modify)
      (removeUnspentOutputs cfg tx prevTxOutputs)
      (removeUnspentOutputs cfg.unbounded tx prevTxOutputs) := by
  rw [zip_accesses hlength]
  refine .after (.assertion ..) fun _ => .forM fun x => ?_
  rw [List.map_eq_flatMap]
  exact .forM fun address => .modify fun _ => .before (.put ..) fun _ =>
    .bind (.get _) fun _ => .bind (.del _ (by simp)) fun _ => .del _ (by simp)

theorem acceptTxInputs_follows (txLog2 : TxLog2) {prevTxOutputs : List TxOutput}
    (hcoinbase : txLog2.tx.isCoinBase → prevTxOutputs = [])
    (hlength : ¬txLog2.tx.isCoinBase → prevTxOutputs.length = txLog2.tx.vin.length) :
    Follows cfg.kMaxCacheCount ((prevTxOutputs.flatMap (·.addresses)).map .modify)
      (acceptTxInputs cfg txLog2 prevTxOutputs)
      (acceptTxInputs cfg.unbounded txLog2 prevTxOutputs) := by
  unfold acceptTxInputs
  by_cases hcb : txLog2.tx.isCoinBase
  · rw [if_pos hcb, if_pos hcb, hcoinbase hcb]
    exact .nil (.pure _)
  · rw [if_neg hcb, if_neg hcb]
    exact .before (removeUnspentOutputs_follows cfg (hlength hcb)) fun _ =>
      insertSpendTxs_cacheFree ..

theorem rejectTxInputs_follows (tx : CTransaction) {prevTxOutputs : List TxOutput}
    (balance : BalanceMap) (hcoinbase : tx.isCoinBase → prevTxOutputs = [])
    (hlength : ¬tx.isCoinBase → prevTxOutputs.length = tx.vin.length) :
    Follows cfg.kMaxCacheCount ((prevTxOutputs.flatMap (·.addresses)).map .modify)
      (rejectTxInputs cfg tx prevTxOutputs balance)
      (rejectTxInputs cfg.unbounded tx prevTxOutputs balance) := by
  unfold rejectTxInputs
  by_cases hcb : tx.isCoinBase
  · rw [if_pos hcb, if_pos hcb, hcoinbase hcb]
    exact .nil (.pure _)
  · rw [if_neg hcb, if_neg hcb, zip_accesses (hlength hcb)]
    exact .foldlM (fun balance x => .after (.del _ (by simp)) fun _ =>
      insertOutput_follows ..) balance

theorem rejectTxOutputs_cacheFree (txLog2 : TxLog2) (balance : BalanceMap) :
    CacheFree (rejectTxOutputs cfg txLog2 balance) :=
  .foldlM (fun balance x => .foldlM (fun balance address => .bind (.get _) fun _ =>
    .bind (.del _ (by simp)) fun _ => .bind (.del _ (by simp)) fun _ => .pure _) balance)
    balance

end Helpers

/-! ## The operations -/

section Operations

variable {cfg : Config} {raw : RawTxs} {p : Ledger} {row : TxLog2Row} {c : CacheShape}
  {s t : ParserState}

theorem tail_follows (balance : BalanceMap) (count size : Int) (txLog2 : TxLog2) :
    Follows cfg.kMaxCacheCount (balance.keys.map .flush)
      (do flushAddressInfo cfg balance
          updateUnconfirmedTxPool count size
          writeNotificationLogs cfg balance txLog2)
      (do flushAddressInfo cfg.unbounded balance
          updateUnconfirmedTxPool count size
          writeNotificationLogs cfg.unbounded balance txLog2) :=
  .before (flushAddressInfo_follows cfg balance) fun _ =>
    .bind (updateUnconfirmedTxPool_cacheFree ..) fun _ =>
      writeNotificationLogs_cacheFree cfg ..

theorem acceptTx_lockstep (hinv : TxInv cfg.unbounded raw p t)
    (hallowed : p.TxAllowed row) (htype : row.type = .txAccept)
    (hkeeps : Along (CacheShape.Keeps cfg.kMaxCacheCount)
      (CacheShape.next cfg.kMaxCacheCount) c (cacheAccesses cfg raw row))
    (h : Mirrors c s t) :
    Lockstep (fun _ s' t' => Mirrors
        ((cacheAccesses cfg raw row).foldl (CacheShape.next cfg.kMaxCacheCount) c) s' t')
      (acceptTx cfg (fetchTxLog2 raw row)) (acceptTx cfg.unbounded (fetchTxLog2 raw row))
      s t := by
  have hheight : (fetchTxLog2 raw row).blkHeight = -1 := hallowed.accept_height htype
  have haccesses : cacheAccesses cfg raw row =
      ((raw row.txHash).tx.vout.flatMap (outputAddresses cfg)).map .modify ++
      ((spentAddresses cfg raw (raw row.txHash).tx).map .modify ++
        ((txBalance cfg raw row.txHash).keys.map .modify ++
          (txBalance cfg raw row.txHash).keys.map .flush)) := by
    simp [cacheAccesses, modifiedAddresses, htype]
  rw [haccesses] at hkeeps ⊢
  obtain ⟨hkeeps1, hkeeps2⟩ := (along_append ..).mp hkeeps
  rw [List.foldl_append]
  have hassertion : assertion .acceptTx ((fetchTxLog2 raw row).blkHeight = -1) = pure () :=
    if_pos hheight
  have hrepeated : ¬isRepeatedTx (fetchTxLog2 raw row) := by simp [isRepeatedTx, hheight]
  unfold acceptTx
  rw [hassertion, pure_bind, pure_bind, if_neg hrepeated, if_neg hrepeated]
  simp only [fetchTxLog2_tx, fetchTxLog2_txHash]
  refine lockstep_seq (lockstep_wp ((getPrevTxOutputs_cacheFree _).run c s t h)
    (getPrevTxOutputs_spec hinv.objects)) ?_
  rintro _ s1 t1 ⟨h1, rfl, rfl, hread⟩
  have houtputs : wp (acceptTxOutputs cfg.unbounded (fetchTxLog2 raw row)
      (spendBalance (prevOutputs cfg raw (raw row.txHash).tx) []))
      (fun balance _ => balance = txBalance cfg raw row.txHash) (fun _ => True) t1 :=
    wp_mono (acceptTxOutputs_effects rfl _ fun _ _ _ _ => trivial) (fun _ _ h => h.1)
      fun _ he => he
  refine lockstep_seq (lockstep_wp ((acceptTxOutputs_follows cfg (fetchTxLog2 raw row)
    _).run c s1 t1 hkeeps1 h1) houtputs) ?_
  rintro _ s2 t2 ⟨h2, rfl⟩
  refine Follows.run ?_ _ s2 t2 hkeeps2 h2
  exact .after (getValueOut_cacheFree _) fun valueOut => .after (.set _ _ (by simp)) fun _ =>
    .seq (acceptTxInputs_follows cfg (fetchTxLog2 raw row) prevOutputs_of_isCoinBase
      fun hcb => length_prevOutputs hcb hread) fun _ =>
    .seq (forM_balance_follows cfg _ fun a d => insertAddressTx_follows ..) fun _ =>
    .after (.set _ _ (by simp)) fun _ => tail_follows ..

theorem cacheAccesses_status (htype : row.type = .txConfirm ∨ row.type = .txUnconfirm) :
    cacheAccesses cfg raw row = (txBalance cfg raw row.txHash).keys.map .modify ++
      (txBalance cfg raw row.txHash).keys.map .flush := by
  rcases htype with htype | htype <;> simp [cacheAccesses, modifiedAddresses, htype]

theorem live_of_status (hallowed : p.TxAllowed row)
    (htype : row.type = .txConfirm ∨ row.type = .txUnconfirm ∨ row.type = .txReject) :
    p.Live row.txHash := by
  unfold Ledger.Live
  rw [hallowed.status]
  rcases htype with htype | htype | htype <;> simp [htype, Log2Type.statusBefore]

theorem getTxAddressBalance_lockstep (hinv : TxInv cfg.unbounded raw p t) {hash : Uint256}
    (hread : ∀ out ∈ (raw hash).tx.prevouts, PrevReadable cfg.unbounded raw t.kv out)
    (h : Mirrors c s t) :
    Lockstep (fun balance s' t' => Mirrors c s' t' ∧ t' = t ∧
        balance = txBalance cfg raw hash)
      (getTxAddressBalance cfg (raw hash).tx)
      (getTxAddressBalance cfg.unbounded (raw hash).tx) s t := by
  have hspec : wp (getTxAddressBalance cfg.unbounded (raw hash).tx)
      (fun balance t' => t' = t ∧ balance = txBalance cfg raw hash) (fun _ => True) t :=
    getTxAddressBalance_spec hinv.objects hread
  exact lockstep_wp ((getTxAddressBalance_cacheFree cfg _).run c s t h) hspec

theorem confirmTx_lockstep (hinv : TxInv cfg.unbounded raw p t)
    (hallowed : p.TxAllowed row) (htype : row.type = .txConfirm)
    (hkeeps : Along (CacheShape.Keeps cfg.kMaxCacheCount)
      (CacheShape.next cfg.kMaxCacheCount) c (cacheAccesses cfg raw row))
    (h : Mirrors c s t) :
    Lockstep (fun _ s' t' => Mirrors
        ((cacheAccesses cfg raw row).foldl (CacheShape.next cfg.kMaxCacheCount) c) s' t')
      (confirmTx cfg (fetchTxLog2 raw row)) (confirmTx cfg.unbounded (fetchTxLog2 raw row))
      s t := by
  obtain ⟨-, hread⟩ := hinv.live row.txHash (live_of_status hallowed (.inl htype))
  rw [cacheAccesses_status (.inl htype)] at hkeeps ⊢
  unfold confirmTx
  refine lockstep_seq (getTxAddressBalance_lockstep hinv hread h) ?_
  rintro _ s1 t1 ⟨h1, rfl, rfl⟩
  refine Follows.run ?_ c s1 t1 hkeeps h1
  exact .seq (forM_balance_follows cfg _ fun a d => confirmAddress_follows ..) fun _ =>
    .after (.get _) fun txObject =>
    .after (.ite (.bind (getValueOut_cacheFree _) fun _ => .pure _) (.pure _)) fun _ =>
    .after (.set _ _ (by simp)) fun _ => .after (.del _ (by simp)) fun _ => tail_follows ..

theorem unconfirmTx_lockstep (hinv : TxInv cfg.unbounded raw p t)
    (hallowed : p.TxAllowed row) (htype : row.type = .txUnconfirm)
    (hkeeps : Along (CacheShape.Keeps cfg.kMaxCacheCount)
      (CacheShape.next cfg.kMaxCacheCount) c (cacheAccesses cfg raw row))
    (h : Mirrors c s t) :
    Lockstep (fun _ s' t' => Mirrors
        ((cacheAccesses cfg raw row).foldl (CacheShape.next cfg.kMaxCacheCount) c) s' t')
      (unconfirmTx cfg (fetchTxLog2 raw row))
      (unconfirmTx cfg.unbounded (fetchTxLog2 raw row)) s t := by
  obtain ⟨-, hread⟩ := hinv.live row.txHash (live_of_status hallowed (.inr (.inl htype)))
  rw [cacheAccesses_status (.inr htype)] at hkeeps ⊢
  unfold unconfirmTx
  refine lockstep_seq (getTxAddressBalance_lockstep hinv hread h) ?_
  rintro _ s1 t1 ⟨h1, rfl, rfl⟩
  refine Follows.run ?_ c s1 t1 hkeeps h1
  exact .seq (forM_balance_follows cfg _ fun a d => unconfirmAddress_follows ..) fun _ =>
    .after (.get _) fun txObject => .after (.set _ _ (by simp)) fun _ =>
    .after (.set _ _ (by simp)) fun _ => tail_follows ..

theorem rejectTx_lockstep (hinv : TxInv cfg.unbounded raw p t)
    (hallowed : p.TxAllowed row) (htype : row.type = .txReject)
    (hkeeps : Along (CacheShape.Keeps cfg.kMaxCacheCount)
      (CacheShape.next cfg.kMaxCacheCount) c (cacheAccesses cfg raw row))
    (h : Mirrors c s t) :
    Lockstep (fun _ s' t' => Mirrors
        ((cacheAccesses cfg raw row).foldl (CacheShape.next cfg.kMaxCacheCount) c) s' t')
      (rejectTx cfg (fetchTxLog2 raw row)) (rejectTx cfg.unbounded (fetchTxLog2 raw row))
      s t := by
  obtain ⟨-, hread⟩ := hinv.live row.txHash (live_of_status hallowed (.inr (.inr htype)))
  have haccesses : cacheAccesses cfg raw row =
      (spentAddresses cfg raw (raw row.txHash).tx).map .modify ++
        ((txBalance cfg raw row.txHash).keys.map .modify ++
          (txBalance cfg raw row.txHash).keys.map .flush) := by
    simp [cacheAccesses, modifiedAddresses, htype]
  rw [haccesses] at hkeeps ⊢
  obtain ⟨hkeeps1, hkeeps2⟩ := (along_append ..).mp hkeeps
  rw [List.foldl_append]
  unfold rejectTx
  simp only [fetchTxLog2_tx, fetchTxLog2_txHash]
  refine lockstep_seq (lockstep_wp ((getPrevTxOutputs_cacheFree _).run c s t h)
    (getPrevTxOutputs_spec hinv.objects)) ?_
  rintro _ s1 t1 ⟨h1, rfl, rfl, -⟩
  have hlength : ¬(raw row.txHash).tx.isCoinBase →
      (prevOutputs cfg raw (raw row.txHash).tx).length = (raw row.txHash).tx.vin.length :=
    fun hcb => length_prevOutputs hcb hread
  have hinputs : wp (rejectTxInputs cfg.unbounded (raw row.txHash).tx
      (prevOutputs cfg raw (raw row.txHash).tx) [])
      (fun balance _ => balance =
        spendBalance (prevOutputs cfg raw (raw row.txHash).tx) []) (fun _ => True) t1 :=
    wp_mono (rejectTxInputs_effects rfl [] prevOutputs_of_isCoinBase
      hlength fun _ _ _ _ => trivial) (fun _ _ h => h.1) fun _ he => he
  refine lockstep_seq (lockstep_wp ((rejectTxInputs_follows cfg _ []
    prevOutputs_of_isCoinBase hlength).run c s1 t1 hkeeps1 h1) hinputs) ?_
  rintro _ s2 t2 ⟨h2, rfl⟩
  have houtputs : wp (rejectTxOutputs cfg.unbounded (fetchTxLog2 raw row)
      (spendBalance (prevOutputs cfg raw (raw row.txHash).tx) []))
      (fun balance _ => balance = txBalance cfg raw row.txHash) (fun _ => True) t2 :=
    wp_mono (rejectTxOutputs_effects (fun _ => True) _ fun _ _ _ => trivial)
      (fun _ _ h => h.1) fun _ he => he
  refine lockstep_seq (lockstep_wp ((rejectTxOutputs_cacheFree cfg (fetchTxLog2 raw row)
    _).run _ s2 t2 h2) houtputs) ?_
  rintro _ s3 t3 ⟨h3, rfl⟩
  refine Follows.run ?_ _ s3 t3 hkeeps2 h3
  exact .after (.get _) fun txObject => .after (.set _ _ (by simp)) fun _ =>
    .after (.del _ (by simp)) fun _ =>
    .seq (forM_balance_follows cfg _ fun a d => rejectAddress_follows ..) fun _ =>
    tail_follows ..

theorem applyRow_lockstep (hinv : TxInv cfg.unbounded raw p t) (hallowed : p.TxAllowed row)
    (hkeeps : Along (CacheShape.Keeps cfg.kMaxCacheCount)
      (CacheShape.next cfg.kMaxCacheCount) c (cacheAccesses cfg raw row))
    (h : Mirrors c s t) :
    Lockstep (fun _ s' t' => Mirrors
        ((cacheAccesses cfg raw row).foldl (CacheShape.next cfg.kMaxCacheCount) c) s' t')
      (applyRow cfg raw row) (applyRow cfg.unbounded raw row) s t := by
  rw [applyRow_eq, applyRow_eq]
  cases htype : row.type with
  | txAccept => exact acceptTx_lockstep hinv hallowed htype hkeeps h
  | txConfirm => exact confirmTx_lockstep hinv hallowed htype hkeeps h
  | txUnconfirm => exact unconfirmTx_lockstep hinv hallowed htype hkeeps h
  | txReject => exact rejectTx_lockstep hinv hallowed htype hkeeps h

theorem applyRows_lockstep (raw : RawTxs) (hrounds : 2 ≤ cfg.swapRounds)
    (hformat : cfg.FormatsNoOtherHash) {rows : List TxLog2Row} (hrows : ObeysAutomaton rows)
    (hkeeps : KeepsUnflushed cfg raw rows) :
    Lockstep (fun _ s t => s.kv = t.kv ∧ ∀ a, s.infoOf a = t.infoOf a)
      (applyRows cfg raw rows) (applyRows cfg.unbounded raw rows) .initial .initial := by
  refine lockstep_mono (lockstep_forM
    (fun (x : Ledger × CacheShape) s t => TxInv cfg.unbounded raw x.1 t ∧ Mirrors x.2 s t)
    (fun x row s t hallowed h => ?_)
    (hrows.prod (along_flatMap.mp hkeeps)) ⟨txInv_initial, Mirrors.initial⟩)
    fun _ s t h => ⟨h.2.kv, h.2.info⟩
  refine lockstep_mono (lockstep_wp (applyRow_lockstep h.1 hallowed.1 hallowed.2 h.2)
    (applyRow_txInv rfl hrounds hformat hallowed.1 h.1)) fun _ s' t' h' => h'.symm

end Operations

/-! ## The stores are equal -/

/--
Along every run that obeys the automaton, for every bound of the cache: if no
lookup evicts an address whose changes are not flushed, the run ends as it does
with a cache that never evicts, with the same fault or with the same store.
-/
theorem cache_transparent (cfg : Config) (raw : RawTxs) (rows : List TxLog2Row)
    (hrounds : 2 ≤ cfg.swapRounds) (hformat : cfg.FormatsNoOtherHash)
    (hrows : ObeysAutomaton rows) (hkeeps : KeepsUnflushed cfg raw rows) :
    (∀ s, runRows cfg raw rows = .ok ((), s) →
      ∃ t, runRows cfg.unbounded raw rows = .ok ((), t) ∧ s.kv = t.kv) ∧
    ∀ e, runRows cfg raw rows = .error e → runRows cfg.unbounded raw rows = .error e := by
  have hrun := applyRows_lockstep raw hrounds hformat hrows hkeeps
  refine ⟨fun s hs => ?_, fun e he => ?_⟩
  · cases hrun with
    | ok hs' ht h =>
        rw [runRows, hs'] at hs
        cases hs
        exact ⟨_, ht, h.1⟩
    | error hs' _ =>
        rw [runRows, hs'] at hs
        cases hs
  · cases hrun with
    | ok hs' _ _ =>
        rw [runRows, hs'] at he
        cases he
    | error hs' ht =>
        rw [runRows, hs'] at he
        cases he
        exact ht

def payingRaw (ids : Uint256 → List UInt8) : RawTxs := fun hash =>
  { tx :=
      { nVersion := 1
        vin := [⟨nullOutPoint, 0xffffffff⟩]
        vout := (ids hash).map fun id => ⟨COIN, payToPubkeyHash (List.replicate 20 id)⟩
        nLockTime := 0 }
    hexLength := 170 }

def smallCacheConfig : Config := { exampleConfig with kMaxCacheCount := some 4 }

def sixAccepts : List TxLog2Row :=
  (List.range 6).map fun n : Nat => ⟨n, .txAccept, -1, -1, 0, Fin.ofNat _ n⟩

/-- Six transactions to six addresses: the fifth address evicts the first four. -/
theorem cache_transparent_example :
    ∃ s t, runRows smallCacheConfig (payingRaw fun hash => [UInt8.ofNat (65 + hash)])
        sixAccepts = .ok ((), s) ∧
      runRows smallCacheConfig.unbounded (payingRaw fun hash => [UInt8.ofNat (65 + hash)])
        sixAccepts = .ok ((), t) ∧ s.kv = t.kv := by
  obtain ⟨s, hs⟩ := exists_of_isOk (show (runRows smallCacheConfig
    (payingRaw fun hash => [UInt8.ofNat (65 + hash)]) sixAccepts).isOk = true by
      decide +kernel)
  obtain ⟨t, ht, hkv⟩ := (cache_transparent smallCacheConfig
    (payingRaw fun hash => [UInt8.ofNat (65 + hash)]) sixAccepts (by decide)
    (fun _ _ _ h => by cases h) (show Along _ _ _ _ by decide) (by decide +kernel)).1 s hs
  exact ⟨s, t, hs, ht, hkv⟩

theorem exists_of_runs_differ {r r' : Except Fault (Unit × ParserState)} {address : Address}
    (h : (r.toOption.bind fun x => x.2.kv (.addrObject address)) ≠
      (r'.toOption.bind fun x => x.2.kv (.addrObject address)))
    (hr : r.isOk = true) (hr' : r'.isOk = true) :
    ∃ s t, r = .ok ((), s) ∧ r' = .ok ((), t) ∧
      s.kv (.addrObject address) ≠ t.kv (.addrObject address) := by
  obtain ⟨s, rfl⟩ := exists_of_isOk hr
  obtain ⟨t, rfl⟩ := exists_of_isOk hr'
  exact ⟨s, t, rfl, rfl, h⟩

/--
A transaction to five addresses fills a cache of four: the first four are
evicted before their records are written, and what they received is lost.
-/
theorem eviction_loses_changes :
    ObeysAutomaton [⟨1, .txAccept, -1, -1, 0, 7⟩] ∧
    ∃ s t, runRows smallCacheConfig (payingRaw fun _ => [65, 66, 67, 68, 69])
        [⟨1, .txAccept, -1, -1, 0, 7⟩] = .ok ((), s) ∧
      runRows smallCacheConfig.unbounded (payingRaw fun _ => [65, 66, 67, 68, 69])
        [⟨1, .txAccept, -1, -1, 0, 7⟩] = .ok ((), t) ∧
      s.kv (.addrObject (exampleConfig.addressToString (.keyID (List.replicate 20 65)))) ≠
        t.kv (.addrObject (exampleConfig.addressToString (.keyID (List.replicate 20 65)))) :=
  ⟨show Along _ _ _ _ by decide, exists_of_runs_differ (by decide +kernel)
    (by decide +kernel) (by decide +kernel)⟩

end ExplorerKV.Parser

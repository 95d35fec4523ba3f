import ExplorerKV.Foundation.UndoRedo
import ExplorerKV.Parser.AddressLists

/-!
# Confirming again what was unconfirmed

Unconfirming the last confirmed transaction of an address leaves its record
where it is, directly behind the confirmed ones.  Confirming it again then
exchanges no records, so the two operations undo each other exactly, unlike the
first confirm and its unconfirm.  The statements below are about single
addresses first (`AddrSlice`), then about one transaction, then about the
transactions of a block, which may share addresses.
-/

namespace ExplorerKV.Parser

open Bitcoin Foundation

/-- The list of an address and its cached information. -/
structure AddrSlice where
  node : Int → Option AddressTx
  index : Uint256 → Option Int
  cached : Option AddressInfo

def ParserState.addrSlice (s : ParserState) (address : Address) : AddrSlice :=
  ⟨s.nodeOf address, s.indexOf address, s.cachedInfo address⟩

/-- The `21_` records of addresses in `D`. -/
def Key.OfNode (D : Address → Prop) : Key → Prop
  | .addrTx a _ => D a
  | _ => False

/-- Nothing but `21_` records of addresses in `D` and the cache has changed. -/
structure NodesOnly (D : Address → Prop) (s s' : ParserState) : Prop where
  kv : ∀ key, ¬Key.OfNode D key → s'.kv key = s.kv key
  count : s'.unconfirmedTxsCount = s.unconfirmedTxsCount
  size : s'.unconfirmedTxsSize = s.unconfirmedTxsSize

namespace NodesOnly

variable {D D' : Address → Prop} {s s' s'' : ParserState}

theorem refl (s : ParserState) : NodesOnly D s s := ⟨fun _ _ => rfl, rfl, rfl⟩

theorem trans (h : NodesOnly D s s') (h' : NodesOnly D s' s'') : NodesOnly D s s'' :=
  ⟨fun key hkey => (h'.kv key hkey).trans (h.kv key hkey), h'.count.trans h.count,
    h'.size.trans h.size⟩

theorem mono (h : NodesOnly D s s') (hD : ∀ a, D a → D' a) : NodesOnly D' s s' :=
  ⟨fun key hkey => h.kv key fun hof => hkey (by cases key <;> first | exact hof | exact hD _ hof),
    h.count, h.size⟩

end NodesOnly

/-- The transaction is the last confirmed one of the address, and this is its record. -/
structure AddrSlice.Last (v : AddrSlice) (hash : Uint256) (k : Int) (entry : AddressTx)
    (info : AddressInfo) : Prop where
  index : v.index hash = some k
  node : v.node k = some entry
  cached : v.cached = some info
  last : info.lastConfirmedTxIdx = k
  nonneg : 0 ≤ k
  txHash : entry.txHash = hash

/-- `_unconfirmAddressTxNode` on the record of the last confirmed transaction. -/
def AddrSlice.reverted (v : AddrSlice) (k : Int) (entry : AddressTx) (info : AddressInfo) :
    AddrSlice where
  node := Function.update v.node k (some { entry with txBlockTime := 0, txHeight := -1 })
  index := v.index
  cached := some { info with
    unconfirmedReceived := info.unconfirmedReceived + receivedPart entry.balanceDiff
    unconfirmedSent := info.unconfirmedSent + sentPart entry.balanceDiff
    unconfirmedTxCount := info.unconfirmedTxCount + 1
    lastConfirmedTxIdx := info.lastConfirmedTxIdx - 1 }

section Address

variable {cfg : Config} {E : Fault → Prop} {s : ParserState} {address : Address}
  {txLog2 : TxLog2} {v : AddrSlice} {k : Int} {entry : AddressTx} {info : AddressInfo}

theorem addrSlice_write (s : ParserState) (address : Address) (k : Int) (info' : AddressInfo)
    (entry' : AddressTx) :
    (((s.touch address).put address info').write ⟨.addrTx address k, some entry'⟩).addrSlice
      address = ⟨Function.update (s.nodeOf address) k (some entry'), s.indexOf address,
        some info'⟩ ∧
    (∀ other, other ≠ address →
      (((s.touch address).put address info').write ⟨.addrTx address k, some entry'⟩).addrSlice
        other = s.addrSlice other) ∧
    NodesOnly (· = address) s
      (((s.touch address).put address info').write ⟨.addrTx address k, some entry'⟩) := by
  have hput : ∀ other, ((s.touch address).put address info').cachedInfo other =
      if other = address then some info' else s.cachedInfo other :=
    fun other => s.touch_put_cachedInfo address other info'
  have hkv : ∀ key, key ≠ .addrTx address k → (((s.touch address).put address info').write
      ⟨.addrTx address k, some entry'⟩).kv key = s.kv key := by
    intro key hkey
    rw [ParserState.write_kv_of_ne _ _ hkey, ParserState.put_kv, ParserState.touch_kv]
  refine ⟨?_, fun other hne => ?_, ?_⟩
  · unfold ParserState.addrSlice
    congr 1
    · funext i
      rw [ParserState.write_addrTx_nodeOf, Function.update_apply, ParserState.put_nodeOf,
        ParserState.touch_nodeOf]
    · rw [ParserState.write_addrTx_indexOf, ParserState.put_indexOf, ParserState.touch_indexOf]
    · rw [ParserState.write_cachedInfo, hput, if_pos rfl]
  · unfold ParserState.addrSlice
    congr 1
    · funext i
      exact hkv (.addrTx other i) (by simp [hne])
    · funext hash
      exact hkv (.addrTxIndex other (.hex hash)) (by simp)
    · rw [ParserState.write_cachedInfo, hput, if_neg hne]
  · exact ⟨fun key hkey => hkv key (by rintro rfl; exact hkey rfl),
      s.touch_unconfirmedTxsCount address, s.touch_unconfirmedTxsSize address⟩

theorem infoOf_of_cached (hcached : s.cachedInfo address = some info) :
    s.infoOf address = info := by
  rw [ParserState.infoOf, hcached]
  rfl

theorem unconfirmAddress_exact (hcfg : cfg.kMaxCacheCount = none)
    (hlast : (s.addrSlice address).Last txLog2.txHash k entry info) :
    wp (unconfirmAddress cfg txLog2 address) (fun _ s' =>
      s'.addrSlice address = (s.addrSlice address).reverted k entry info ∧
      (∀ other, other ≠ address → s'.addrSlice other = s.addrSlice other) ∧
      NodesOnly (· = address) s s') E s := by
  obtain ⟨hindex, hnode, hcached, hk, hnonneg, -⟩ := hlast
  have hindex' : s.kv (.addrTxIndex address (.hex txLog2.txHash)) = some k := hindex
  have hnode' : s.kv (.addrTx address k) = some entry := hnode
  rw [unconfirmAddress, wp_bind, wp_getAddressInfo hcfg, infoOf_of_cached hcached,
    getAddressTxNode, wp_bind, wp_bind]
  apply wp_kvGet_of _ (fun index hval => ?_) fun hnone => by
    rw [ParserState.touch_kv, hindex'] at hnone
    cases hnone
  rw [ParserState.touch_kv, hindex'] at hval
  obtain rfl := Option.some.inj hval
  rw [wp_bind]
  apply wp_kvGet_of _ (fun addressTx hval => ?_) fun hnone => by
    rw [ParserState.touch_kv, hnode'] at hnone
    cases hnone
  rw [ParserState.touch_kv, hnode'] at hval
  obtain rfl := Option.some.inj hval
  simp only [wp_pure, unconfirmAddressTxNode, wp_bind, wp_putAddressInfo, wp_assertion]
  refine ⟨fun _ => ⟨fun _ => ?_, fun hne => absurd (by omega) hne⟩,
    fun hne => absurd (by omega) hne⟩
  apply wp_kvGet_of _ (fun addressTx hval => ?_) fun hnone => by
    rw [ParserState.put_kv, ParserState.touch_kv, hnode'] at hnone
    cases hnone
  rw [ParserState.put_kv, ParserState.touch_kv, hnode'] at hval
  obtain rfl := Option.some.inj hval
  exact addrSlice_write s address k _ _

theorem confirmAddress_exact (hcfg : cfg.kMaxCacheCount = none)
    (hrounds : 2 ≤ cfg.swapRounds) (hlast : v.Last txLog2.txHash k entry info)
    (hs : s.addrSlice address = v.reverted k entry info)
    (hheight : entry.txHeight = txLog2.blkHeight)
    (htime : entry.txBlockTime = txLog2.maxBlkTimestamp) :
    wp (confirmAddress cfg txLog2 address) (fun _ s' =>
      s'.addrSlice address = v ∧
      (∀ other, other ≠ address → s'.addrSlice other = s.addrSlice other) ∧
      NodesOnly (· = address) s s') E s := by
  obtain ⟨hindex, hnode, hcached, hk, hnonneg, -⟩ := hlast
  obtain ⟨rounds, hrounds⟩ : ∃ n, cfg.swapRounds = n + 1 := ⟨cfg.swapRounds - 1, by omega⟩
  have hnodes : s.nodeOf address = Function.update v.node k
      (some { entry with txBlockTime := 0, txHeight := -1 }) := congrArg AddrSlice.node hs
  have hindexes : s.indexOf address = v.index := congrArg AddrSlice.index hs
  have hindex' : s.kv (.addrTxIndex address (.hex txLog2.txHash)) = some k := by
    rw [← hindex, ← hindexes]
    rfl
  have hnode' : s.kv (.addrTx address k) =
      some { entry with txBlockTime := 0, txHeight := -1 } := by
    have h := congrFun hnodes k
    rwa [Function.update_self] at h
  have hcached' := congrArg AddrSlice.cached hs
  rw [confirmAddress, wp_bind, wp_getAddressInfo hcfg, infoOf_of_cached hcached', hrounds,
    moveToConfirmed, getAddressTxNode, wp_bind, wp_bind, wp_bind]
  apply wp_kvGet_of _ (fun index hval => ?_) fun hnone => by
    rw [ParserState.touch_kv, hindex'] at hnone
    cases hnone
  rw [ParserState.touch_kv, hindex'] at hval
  obtain rfl := Option.some.inj hval
  rw [wp_bind]
  apply wp_kvGet_of _ (fun addressTx hval => ?_) fun hnone => by
    rw [ParserState.touch_kv, hnode'] at hnone
    cases hnone
  rw [ParserState.touch_kv, hnode'] at hval
  obtain rfl := Option.some.inj hval
  -- the record stands directly behind the confirmed ones, so the loop ends at once
  rw [wp_pure, if_pos (show info.lastConfirmedTxIdx - 1 + 1 = k by omega), wp_pure,
    confirmAddressTxNode, wp_bind, wp_putAddressInfo, wp_bind]
  apply wp_kvGet_of _ (fun addressTx hval => ?_) fun hnone => by
    rw [ParserState.put_kv, ParserState.touch_kv, hnode'] at hnone
    cases hnone
  rw [ParserState.put_kv, ParserState.touch_kv, hnode'] at hval
  obtain rfl := Option.some.inj hval
  obtain ⟨hself, hother, honly⟩ := addrSlice_write s address k _ _
  refine ⟨hself.trans ?_, hother, honly⟩
  obtain ⟨node, index, cached⟩ := v
  simp only [AddrSlice.mk.injEq] at hcached hnodes hindexes hnode ⊢
  refine ⟨?_, hindexes, ?_⟩
  · rw [hnodes, Function.update_idem, ← hheight, ← htime]
    exact Function.update_eq_self_iff.mpr hnode.symm
  · rw [hcached, ← hk]
    simp

theorem forM_addrSlices {balance : BalanceMap} (hnodup : (balance.map Prod.fst).Nodup)
    (Pre Post : Address → AddrSlice → Prop) {f : Address × Int → ParserM Unit}
    (hbody : ∀ a d s', (a, d) ∈ balance → Pre a (s'.addrSlice a) →
      wp (f (a, d)) (fun _ s'' => Post a (s''.addrSlice a) ∧
        (∀ other, other ≠ a → s''.addrSlice other = s'.addrSlice other) ∧
        NodesOnly (· = a) s' s'') E s')
    (hpre : ∀ a d, (a, d) ∈ balance → Pre a (s.addrSlice a)) :
    wp (forM balance f) (fun _ s' =>
      (∀ a ∈ balance.keys, Post a (s'.addrSlice a)) ∧
      (∀ a, a ∉ balance.keys → s'.addrSlice a = s.addrSlice a) ∧
      NodesOnly (· ∈ balance.keys) s s') E s := by
  have hloop : wp (forM balance f) (fun _ s' =>
      (∀ a d, (a, d) ∈ balance → Post a (s'.addrSlice a)) ∧
      (∀ a, a ∉ balance.map Prod.fst → s'.addrSlice a = s.addrSlice a) ∧
      NodesOnly (· ∈ balance.keys) s s') E s := by
    refine wp_forM_slices hnodup ParserState.addrSlice (fun a _ _ v' => Post a v')
      NodesOnly.refl (fun _ _ _ => NodesOnly.trans) (fun a d s' hmem h => ?_) hpre
    apply wp_mono (hbody a d s' hmem h) _ fun _ he => he
    rintro _ s'' ⟨hpost, hother, honly⟩
    exact ⟨hpost, hother, honly.mono (by rintro _ rfl; exact List.mem_map_of_mem hmem)⟩
  apply wp_mono hloop _ fun _ he => he
  rintro _ s' ⟨hpost, hother, honly⟩
  refine ⟨fun a ha => ?_, hother, honly⟩
  obtain ⟨⟨_, d⟩, hmem, rfl⟩ := List.mem_map.mp ha
  exact hpost _ d hmem

end Address

/-! ## The end of an operation -/

section Tail

variable {cfg : Config} {E : Fault → Prop} {s : ParserState}

theorem flushAddressInfo_cached (hcfg : cfg.kMaxCacheCount = none) (balance : BalanceMap) :
    wp (flushAddressInfo cfg balance) (fun _ s' => ∀ a, s'.cachedInfo a =
      if a ∈ balance.keys then some (s.infoOf a) else s.cachedInfo a) E s := by
  have hloop : wp (flushAddressInfo cfg balance) (fun _ s' =>
      (∀ a, s'.infoOf a = s.infoOf a) ∧ ∀ a, s'.cachedInfo a =
        if a ∈ BalanceMap.keys balance then some (s.infoOf a) else s.cachedInfo a) E s := by
    apply wp_forM (s := s) (fun done s' => (∀ a, s'.infoOf a = s.infoOf a) ∧ ∀ a, s'.cachedInfo a =
      if a ∈ BalanceMap.keys done then some (s.infoOf a) else s.cachedInfo a)
      ⟨fun _ => rfl, fun _ => rfl⟩
    rintro done ⟨address, d⟩ rest s' hxs ⟨hinfo, hcached⟩
    simp only [wp_bind, wp_getAddressInfo hcfg, wp_kvSet]
    refine ⟨fun a => ?_, fun a => ?_⟩
    · rw [write_addrObject_infoOf (s'.cached_touch address), ParserState.touch_infoOf, hinfo]
    · rw [ParserState.write_cachedInfo, ParserState.touch_cachedInfo, hcached, hinfo]
      have hkeys : a ∈ BalanceMap.keys (done ++ [(address, d)]) ↔
          a = address ∨ a ∈ BalanceMap.keys done := by
        simp [BalanceMap.keys, or_comm]
      simp only [hkeys]
      by_cases heq : a = address <;> simp [heq]
  exact wp_mono hloop (fun _ _ h => h.2) fun _ he => he

theorem tail_cached (hcfg : cfg.kMaxCacheCount = none) (balance : BalanceMap)
    (txLog2 : TxLog2) (count size : Int) :
    wp (do
        flushAddressInfo cfg balance
        updateUnconfirmedTxPool count size
        writeNotificationLogs cfg balance txLog2) (fun _ s' => ∀ a, s'.cachedInfo a =
      if a ∈ balance.keys then some (s.infoOf a) else s.cachedInfo a) E s := by
  apply wp_seq (flushAddressInfo_cached hcfg balance)
  intro _ s1 hcached
  simp only [updateUnconfirmedTxPool, writeNotificationLogs, wp_bind, wp_modify, wp_get,
    wp_kvSet]
  exact wp_ite (fun _ => hcached) fun _ => hcached

end Tail

/-! ## One transaction -/

/-- The keys that confirming or unconfirming a transaction writes. -/
def Key.OfStatus (hash : Uint256) (D : Address → Prop) : Key → Prop
  | .addrTx a _ | .addrObject a => D a
  | .txObject other | .txUnconfirmed other => other = hash
  | .unconfirmedTxsCount | .unconfirmedTxsSize => True
  | _ => False

/-- The states agree on the store, on every cached address and on the counters. -/
structure Same (s s' : ParserState) : Prop where
  kv : s'.kv = s.kv
  cached : ∀ a, s'.cachedInfo a = s.cachedInfo a
  count : s'.unconfirmedTxsCount = s.unconfirmedTxsCount
  size : s'.unconfirmedTxsSize = s.unconfirmedTxsSize

structure Counted (s : ParserState) : Prop where
  count : s.kv .unconfirmedTxsCount = some s.unconfirmedTxsCount
  size : s.kv .unconfirmedTxsSize = some s.unconfirmedTxsSize

/-- The second state is the first with the last confirmed transaction unconfirmed. -/
structure Reverted (cfg : Config) (raw : RawTxs) (hash : Uint256) (s t : ParserState) :
    Prop where
  slices : ∀ a, Touches cfg raw hash a → ∃ k entry info,
    (s.addrSlice a).Last hash k entry info ∧
      t.addrSlice a = (s.addrSlice a).reverted k entry info
  other : ∀ a, ¬Touches cfg raw hash a → t.addrSlice a = s.addrSlice a
  object : ∃ txObject : Tx, s.kv (.txObject hash) = some txObject ∧
    t.kv (.txObject hash) = some { txObject with blockTime := 0, blockHeight := -1 }
  rest : ∀ key, ¬Key.OfStatus hash (Touches cfg raw hash) key → t.kv key = s.kv key
  count : t.unconfirmedTxsCount = s.unconfirmedTxsCount + 1
  size : t.unconfirmedTxsSize = s.unconfirmedTxsSize + ((raw hash).hexLength / 2 : Nat)

/-- The fee that the confirm computes is the one the record has. -/
def FeeFinal (cfg : Config) (raw : RawTxs) (row : TxLog2Row) (fee : Int) : Prop :=
  (raw row.txHash).tx.isCoinBase → ∃ valueOut,
    (raw row.txHash).tx.getValueOut = some valueOut ∧
      fee = valueOut - getBlockValue cfg.subsidyHalvingInterval row.blkHeight 0

/-- The records are as the confirm on the row has left them. -/
structure ConfirmedAs (cfg : Config) (raw : RawTxs) (row : TxLog2Row) (s : ParserState) :
    Prop where
  object : ∃ txObject : Tx, s.kv (.txObject row.txHash) = some txObject ∧
    txObject.blockHeight = row.blkHeight ∧
    txObject.blockTime = (fetchTxLog2 raw row).maxBlkTimestamp ∧
    FeeFinal cfg raw row txObject.fee
  pool : s.kv (.txUnconfirmed row.txHash) = none
  records : ∀ a i (x : AddressTx), s.kv (.addrTx a i) = some x → x.txHash = row.txHash →
    x.txHeight = row.blkHeight ∧ x.txBlockTime = (fetchTxLog2 raw row).maxBlkTimestamp
  cached : ∀ a, Touches cfg raw row.txHash a → (s.cachedInfo a).isSome

section Operations

variable {cfg : Config} {raw : RawTxs} {p : Ledger} {s t r : ParserState} {row : TxLog2Row}
  {E : Fault → Prop}

/-- How confirm and unconfirm end, once the lists are done. -/
structure StatusSet (cfg : Config) (raw : RawTxs) (hash : Uint256) (txObject : Tx)
    (record : Option UnconfirmedTx) (count size : Int) (s t : ParserState) : Prop where
  rest : ∀ key, ¬Key.OfTail (Touches cfg raw hash) key →
    key ≠ .txObject hash → key ≠ .txUnconfirmed hash → t.kv key = s.kv key
  object : t.kv (.txObject hash) = some txObject
  pool : t.kv (.txUnconfirmed hash) = record
  flushed : ∀ a, Touches cfg raw hash a → t.kv (.addrObject a) = some (s.infoOf a)
  touched : ∀ a, Touches cfg raw hash a → t.cachedInfo a = some (s.infoOf a)
  untouched : ∀ a, ¬Touches cfg raw hash a → t.cachedInfo a = s.cachedInfo a
  counted : Counted t
  count : t.unconfirmedTxsCount = s.unconfirmedTxsCount + count
  size : t.unconfirmedTxsSize = s.unconfirmedTxsSize + size

theorem statusSet (hcfg : cfg.kMaxCacheCount = none) (s : ParserState) (txObject : Tx)
    (record : Option UnconfirmedTx) (count size : Int) :
    wp (do
        flushAddressInfo cfg (txBalance cfg raw row.txHash)
        updateUnconfirmedTxPool count size
        writeNotificationLogs cfg (txBalance cfg raw row.txHash) (fetchTxLog2 raw row))
      (fun _ t => StatusSet cfg raw row.txHash txObject record count size s t) E
      ((s.write ⟨.txObject row.txHash, some txObject⟩).write
        ⟨.txUnconfirmed row.txHash, record⟩) := by
  have hwritten := statusWritten s row.txHash txObject record
  have hpool := (s.write ⟨.txObject row.txHash, some txObject⟩).write_kv_self
    (.txUnconfirmed row.txHash) record
  have hsame : ∀ a, ((s.write ⟨.txObject row.txHash, some txObject⟩).write
      ⟨.txUnconfirmed row.txHash, record⟩).cachedInfo a = s.cachedInfo a := fun _ => rfl
  have hcount2 : ((s.write ⟨.txObject row.txHash, some txObject⟩).write
      ⟨.txUnconfirmed row.txHash, record⟩).unconfirmedTxsCount = s.unconfirmedTxsCount := rfl
  have hsize2 : ((s.write ⟨.txObject row.txHash, some txObject⟩).write
      ⟨.txUnconfirmed row.txHash, record⟩).unconfirmedTxsSize = s.unconfirmedTxsSize := rfl
  generalize (s.write _).write _ = s2 at hwritten hpool hsame hcount2 hsize2 ⊢
  refine wp_mono (wp_strengthen (tail_spec hcfg (txBalance cfg raw row.txHash)
    (fetchTxLog2 raw row) count size) (tail_cached hcfg (txBalance cfg raw row.txHash)
    (fetchTxLog2 raw row) count size)) ?_ fun _ he => he
  rintro _ t ⟨⟨hkeeps, hflush, hcount, hsize, hkvcount, hkvsize⟩, hcached⟩
  constructor
  · intro key htail hobject hpool
    rw [hkeeps.kv key htail, hwritten.keeps.kv key (by simp [hobject, hpool])]
  · rw [hkeeps.kv _ id, hwritten.object]
  · rw [hkeeps.kv _ id, hpool]
  · intro a ha
    rw [hflush a ha, hwritten.keeps.info]
  · intro a ha
    have hkeys : a ∈ (txBalance cfg raw row.txHash).keys := ha
    rw [hcached, if_pos hkeys, hwritten.keeps.info]
  · intro a ha
    have hkeys : a ∉ (txBalance cfg raw row.txHash).keys := ha
    rw [hcached, if_neg hkeys, hsame]
  · exact ⟨hkvcount, hkvsize⟩
  · rw [hcount, hcount2]
  · rw [hsize, hsize2]

namespace StatusSet

variable {hash : Uint256} {txObject : Tx} {record : Option UnconfirmedTx} {count size : Int}

theorem node (h : StatusSet cfg raw hash txObject record count size s t) (a : Address) :
    t.nodeOf a = s.nodeOf a := by
  funext i
  exact h.rest (.addrTx a i) id (by simp) (by simp)

theorem addrSlice (h : StatusSet cfg raw hash txObject record count size s t) {a : Address}
    (hcached : Touches cfg raw hash a → (s.cachedInfo a).isSome) :
    t.addrSlice a = s.addrSlice a := by
  unfold ParserState.addrSlice
  rw [h.node]
  congr 1
  · funext other
    exact h.rest (.addrTxIndex a (.hex other)) id (by simp) (by simp)
  · by_cases ha : Touches cfg raw hash a
    · obtain ⟨info, hinfo⟩ := Option.isSome_iff_exists.mp (hcached ha)
      rw [h.touched a ha, infoOf_of_cached hinfo, hinfo]
    · exact h.untouched a ha

theorem outside (h : StatusSet cfg raw hash txObject record count size s t) {key : Key}
    (hkey : ¬Key.OfStatus hash (Touches cfg raw hash) key) : t.kv key = s.kv key := by
  apply h.rest key
  · intro htail
    apply hkey
    cases key <;> first | exact htail | exact htail.elim
  · rintro rfl
    exact hkey rfl
  · rintro rfl
    exact hkey rfl

theorem cached (h : StatusSet cfg raw hash txObject record count size s t) {a : Address}
    (ha : Touches cfg raw hash a ∨ (s.cachedInfo a).isSome) : (t.cachedInfo a).isSome := by
  by_cases htouches : Touches cfg raw hash a
  · rw [h.touched a htouches]
    rfl
  · rw [h.untouched a htouches]
    exact ha.resolve_left htouches

end StatusSet

theorem unconfirmTx_exact (hcfg : cfg.kMaxCacheCount = none) (hobj : Objects cfg raw s.kv)
    (hread : ∀ out ∈ (raw row.txHash).tx.prevouts, PrevReadable cfg raw s.kv out)
    (hsome : (s.kv (.txObject row.txHash)).isSome)
    (hlast : ∀ a, Touches cfg raw row.txHash a →
      ∃ k entry info, (s.addrSlice a).Last row.txHash k entry info) :
    wp (unconfirmTx cfg (fetchTxLog2 raw row))
      (fun _ t => Reverted cfg raw row.txHash s t ∧ Counted t) E s := by
  unfold unconfirmTx
  simp only [fetchTxLog2_tx, fetchTxLog2_txHash]
  refine wp_seq (getTxAddressBalance_spec hobj hread) ?_
  rintro _ s ⟨rfl, rfl⟩
  -- the lists
  refine wp_seq (forM_addrSlices (txBalance_nodup cfg raw row.txHash)
    (fun a v => v = s.addrSlice a)
    (fun a w => ∃ k entry info, (s.addrSlice a).Last row.txHash k entry info ∧
      w = (s.addrSlice a).reverted k entry info)
    (fun a d s' hmem hv => ?_) fun _ _ _ => rfl) ?_
  · obtain ⟨k, entry, info, h⟩ := hlast a (List.mem_map_of_mem hmem)
    have h' : (s'.addrSlice a).Last row.txHash k entry info := hv ▸ h
    apply wp_mono (unconfirmAddress_exact hcfg h') _ fun _ he => he
    rintro _ s'' ⟨hslice, hother, honly⟩
    exact ⟨⟨k, entry, info, h, by rw [hslice, hv]⟩, hother, honly⟩
  rintro _ s1 ⟨hslices, hother, honly⟩
  -- the transaction object and the rest
  obtain ⟨txObject, htxObject⟩ := Option.isSome_iff_exists.mp hsome
  have hobj1 : s1.kv (.txObject row.txHash) = some txObject := by
    rw [honly.kv _ id, htxObject]
  rw [wp_bind]
  apply wp_kvGet_of _ (fun val hval => ?_) fun hnone => by cases hobj1.symm.trans hnone
  obtain rfl : txObject = val := Option.some.inj (hobj1.symm.trans hval)
  rw [wp_bind, wp_kvSet, wp_bind, wp_kvSet]
  apply wp_mono (statusSet hcfg s1 _ _ 1 _) _ fun _ he => he
  rintro _ t hset
  have hslice : ∀ a, t.addrSlice a = s1.addrSlice a := by
    intro a
    apply hset.addrSlice
    intro ha
    obtain ⟨k, entry, info, -, hslice⟩ := hslices a ha
    exact Option.isSome_iff_exists.mpr ⟨_, congrArg AddrSlice.cached hslice⟩
  refine ⟨⟨fun a ha => ?_, fun a ha => ?_, ?_, fun key hkey => ?_, ?_, ?_⟩, hset.counted⟩
  · rw [hslice]
    exact hslices a ha
  · rw [hslice]
    exact hother a ha
  · exact ⟨txObject, htxObject, hset.object⟩
  · rw [hset.outside hkey]
    exact honly.kv key fun hnode => hkey (by cases key <;> first | exact hnode | exact hnode.elim)
  · rw [hset.count, honly.count]
  · rw [hset.size, honly.size]
    rfl

theorem Same.refl (s : ParserState) : Same s s := ⟨rfl, fun _ => rfl, rfl, rfl⟩

theorem Same.addrSlice (h : Same s t) (a : Address) : t.addrSlice a = s.addrSlice a := by
  unfold ParserState.addrSlice ParserState.nodeOf ParserState.indexOf
  rw [h.kv, h.cached]

theorem addrObject_of_last {a : Address} {k : Int} {entry : AddressTx} {info : AddressInfo}
    (hclean : ParserState.storedInfo s.kv a = s.infoOf a)
    (h : (s.addrSlice a).Last row.txHash k entry info) :
    s.kv (.addrObject a) = s.cachedInfo a := by
  have hcached : s.cachedInfo a = some info := h.cached
  rw [infoOf_of_cached hcached, ParserState.storedInfo] at hclean
  rw [hcached]
  cases hkv : s.kv (.addrObject a) with
  | some stored =>
      rw [hkv] at hclean
      exact congrArg some hclean
  | none =>
      rw [hkv] at hclean
      have hlast : info.lastConfirmedTxIdx = -1 := by
        rw [← hclean]
        rfl
      have hk := h.last
      have hnonneg := h.nonneg
      omega

theorem confirmedFee_final {txObject : Tx} (hfee : FeeFinal cfg raw row txObject.fee) :
    wp (confirmedFee cfg (fetchTxLog2 raw row)
        { txObject with blockTime := 0, blockHeight := -1 })
      (fun fee s' => fee = txObject.fee ∧ s' = s) E s := by
  apply wp_ite
  · intro hcb
    obtain ⟨valueOut, hvalue, hfee⟩ := hfee hcb
    rw [getValueOut, fetchTxLog2_tx, hvalue]
    exact ⟨hfee.symm, rfl⟩
  · intro _
    exact ⟨rfl, rfl⟩

theorem confirmTx_exact (hcfg : cfg.kMaxCacheCount = none) (hrounds : 2 ≤ cfg.swapRounds)
    (hclean : ∀ a, ParserState.storedInfo s.kv a = s.infoOf a) (hcounted : Counted s)
    (hconfirmed : ConfirmedAs cfg raw row s) (hobj : Objects cfg raw t.kv)
    (hread : ∀ out ∈ (raw row.txHash).tx.prevouts, PrevReadable cfg raw t.kv out)
    (hreverted : Reverted cfg raw row.txHash s t) (hsame : Same t r) :
    wp (confirmTx cfg (fetchTxLog2 raw row)) (fun _ s' => Same s s') E r := by
  unfold confirmTx
  simp only [fetchTxLog2_tx, fetchTxLog2_txHash]
  rw [← hsame.kv] at hobj hread
  refine wp_seq (getTxAddressBalance_spec hobj hread) ?_
  rintro _ r ⟨rfl, rfl⟩
  -- the lists
  refine wp_seq (forM_addrSlices (txBalance_nodup cfg raw row.txHash)
    (fun a v => v = r.addrSlice a) (fun a w => w = s.addrSlice a)
    (fun a d s' hmem hv => ?_) fun _ _ _ => rfl) ?_
  · obtain ⟨k, entry, info, h, hslice⟩ := hreverted.slices a (List.mem_map_of_mem hmem)
    have hv' : s'.addrSlice a = (s.addrSlice a).reverted k entry info := by
      rw [hv, hsame.addrSlice, hslice]
    obtain ⟨hheight, htime⟩ := hconfirmed.records a k entry h.node h.txHash
    exact confirmAddress_exact hcfg hrounds h hv' hheight htime
  rintro _ s1 ⟨hslices, hother, honly⟩
  have hslice1 : ∀ a, s1.addrSlice a = s.addrSlice a := by
    intro a
    by_cases ha : Touches cfg raw row.txHash a
    · exact hslices a ha
    · rw [hother a ha, hsame.addrSlice, hreverted.other a ha]
  -- the transaction object and the rest
  obtain ⟨txObject, htxObject, htxObject'⟩ := hreverted.object
  obtain ⟨txObject2, htx2, hheight, htime, hfee⟩ := hconfirmed.object
  obtain rfl : txObject = txObject2 := Option.some.inj (htxObject.symm.trans htx2)
  have hobj1 : s1.kv (.txObject row.txHash) =
      some { txObject with blockTime := 0, blockHeight := -1 } := by
    rw [honly.kv _ id, hsame.kv, htxObject']
  rw [wp_bind]
  apply wp_kvGet_of _ (fun val hval => ?_) fun hnone => by cases hobj1.symm.trans hnone
  obtain rfl := Option.some.inj (hobj1.symm.trans hval)
  refine wp_seq (confirmedFee_final hfee) ?_
  rintro _ s1 ⟨rfl, rfl⟩
  rw [wp_bind, wp_kvSet, wp_bind, wp_kvDel]
  apply wp_mono (statusSet hcfg s1 _ none (-1) _) _ fun _ he => he
  rintro _ s' hset
  have hcached : ∀ a, s1.cachedInfo a = s.cachedInfo a := fun a =>
    congrArg AddrSlice.cached (hslice1 a)
  have hslice' : ∀ a, s'.addrSlice a = s.addrSlice a := by
    intro a
    rw [hset.addrSlice, hslice1]
    intro ha
    rw [hcached]
    exact hconfirmed.cached a ha
  have hcount : s'.unconfirmedTxsCount = s.unconfirmedTxsCount := by
    rw [hset.count, honly.count, hsame.count, hreverted.count]
    omega
  have hsize : s'.unconfirmedTxsSize = s.unconfirmedTxsSize := by
    rw [hset.size, honly.size, hsame.size, hreverted.size]
    simp [fetchTxLog2]
  refine ⟨funext fun key => ?_, fun a => congrArg AddrSlice.cached (hslice' a), hcount, hsize⟩
  by_cases hkey : Key.OfStatus row.txHash (Touches cfg raw row.txHash) key
  · cases key with
    | addrTx a i => exact congrFun (congrArg AddrSlice.node (hslice' a)) i
    | addrObject a =>
        obtain ⟨k, entry, info, h, -⟩ := hreverted.slices a hkey
        have hinfo : s.cachedInfo a = some info := h.cached
        rw [hset.flushed a hkey, addrObject_of_last (hclean a) h, hinfo,
          infoOf_of_cached ((hcached a).trans hinfo)]
    | txObject hash =>
        obtain rfl : hash = row.txHash := hkey
        have hblkHeight : (fetchTxLog2 raw row).blkHeight = txObject.blockHeight := hheight.symm
        rw [hset.object, htxObject, hblkHeight, ← htime]
    | txUnconfirmed hash =>
        obtain rfl : hash = row.txHash := hkey
        rw [hset.pool, hconfirmed.pool]
    | unconfirmedTxsCount => rw [hset.counted.count, hcounted.count, hcount]
    | unconfirmedTxsSize => rw [hset.counted.size, hcounted.size, hsize]
    | _ => exact hkey.elim
  · rw [hset.outside hkey, honly.kv, hsame.kv, hreverted.rest key hkey]
    intro hnode
    exact hkey (by cases key <;> first | exact hnode | exact hnode.elim)

/-! ## What a confirm leaves behind -/

theorem TxInv.record_live (hinv : TxInv cfg raw p s) {a : Address} {i : Int} {x : AddressTx}
    (hx : s.nodeOf a i = some x) : p.Live x.txHash ∧ Touches cfg raw x.txHash a := by
  obtain ⟨z, hz, hconfirmed, hpending, -⟩ := hinv.lists a
  have hrange := (hz.stored.isSome_iff i).mp (Option.isSome_iff_exists.mpr ⟨x, hx⟩)
  obtain ⟨n, rfl⟩ := Int.eq_ofNat_of_zero_le hrange.1
  have hmem : x ∈ z.list :=
    List.mem_of_getElem? ((hz.stored.node_natCast n).symm.trans hx)
  rcases List.mem_append.mp hmem with h | h
  · have hof : x.txHash ∈ confirmedOf cfg raw p a :=
      hconfirmed ▸ List.mem_map_of_mem h
    obtain ⟨hstatus, htouches⟩ := (mem_confirmedOf hinv.ledger a _).mp hof
    exact ⟨by simp [Ledger.Live, hstatus], htouches⟩
  · obtain ⟨hstatus, htouches⟩ := (hpending _).mp ⟨x, h, rfl⟩
    exact ⟨by simp [Ledger.Live, hstatus], htouches⟩

/-- A record of the confirmed transaction has been stamped, any other one is an old one. -/
def StampedOrOld (txLog2 : TxLog2) (old new : Int → Option AddressTx) : Prop :=
  ∀ i (x : AddressTx), new i = some x →
    (x.txHash = txLog2.txHash → x.txHeight = txLog2.blkHeight ∧
      x.txBlockTime = txLog2.maxBlkTimestamp) ∧
    (x.txHash ≠ txLog2.txHash → ∃ j, old j = some x)

theorem confirmAddress_records (hcfg : cfg.kMaxCacheCount = none)
    (hrounds : 2 ≤ cfg.swapRounds) {txLog2 : TxLog2} {a : Address}
    (hheight : 0 ≤ txLog2.blkHeight) {z : TxZones} (hz : (s.txView a).Holds z)
    {entry : AddressTx} (hentry : entry ∈ z.pending) (hhash : entry.txHash = txLog2.txHash) :
    wp (confirmAddress cfg txLog2 a) (fun _ s' =>
      StampedOrOld txLog2 (s.nodeOf a) (s'.nodeOf a) ∧ AddrTxEffects a s s') E s := by
  apply wp_mono (confirmAddress_spec hcfg hrounds hheight hz hentry hhash) _ fun _ he => he
  rintro _ s' ⟨⟨pending', hperm, hz'⟩, heffects⟩
  refine ⟨fun i x hx => ?_, heffects⟩
  have hrange := (hz'.stored.isSome_iff i).mp (Option.isSome_iff_exists.mpr ⟨x, hx⟩)
  obtain ⟨n, rfl⟩ := Int.eq_ofNat_of_zero_le hrange.1
  have hmem := List.mem_of_getElem? ((hz'.stored.node_natCast n).symm.trans hx)
  have hold : ∀ e ∈ z.list, ∃ j, s.nodeOf a j = some e := by
    intro e he
    obtain ⟨m, hm⟩ := List.mem_iff_getElem?.mp he
    exact ⟨m, (hz.stored.node_natCast m).trans hm⟩
  -- the hashes of the list are distinct, so only the stamped entry has this one
  have hnodup := hz'.stored.nodup
  simp only [TxZones.list, List.append_assoc, List.singleton_append, List.mem_append,
    List.mem_cons] at hmem hnodup
  rw [List.map_append, List.map_cons, List.nodup_middle, List.nodup_cons, List.mem_append,
    hhash, not_or] at hnodup
  obtain ⟨⟨hbefore, hbehind⟩, -⟩ := hnodup
  rcases hmem with h | rfl | h
  · exact ⟨fun heq => absurd (heq ▸ List.mem_map_of_mem h) hbefore,
      fun _ => hold x (List.mem_append_left _ h)⟩
  · exact ⟨fun _ => ⟨rfl, rfl⟩, fun hne => absurd hhash hne⟩
  · exact ⟨fun heq => absurd (heq ▸ List.mem_map_of_mem h) hbehind,
      fun _ => hold x (List.mem_append_right _ (hperm.mem_iff.mpr (.tail _ h)))⟩

theorem ConfirmedAs.of_kept (h : ConfirmedAs cfg raw row s)
    (hobject : t.kv (.txObject row.txHash) = s.kv (.txObject row.txHash))
    (hpool : t.kv (.txUnconfirmed row.txHash) = s.kv (.txUnconfirmed row.txHash))
    (hrecords : ∀ a i x, t.nodeOf a i = some x → x.txHash = row.txHash →
      ∃ j, s.nodeOf a j = some x)
    (hcached : ∀ a, (s.cachedInfo a).isSome → (t.cachedInfo a).isSome) :
    ConfirmedAs cfg raw row t := by
  constructor
  · rw [hobject]
    exact h.object
  · rw [hpool]
    exact h.pool
  · intro a i x hx hhash
    obtain ⟨j, hj⟩ := hrecords a i x hx hhash
    exact h.records a j x hj hhash
  · exact fun a ha => hcached a (h.cached a ha)

theorem Reverted.confirmedAs {hash : Uint256} (h : Reverted cfg raw hash s t)
    (hne : row.txHash ≠ hash) (hconfirmed : ConfirmedAs cfg raw row s) :
    ConfirmedAs cfg raw row t := by
  apply hconfirmed.of_kept
  · exact h.rest _ hne
  · exact h.rest _ hne
  · intro a i x hx hhash
    by_cases ha : Touches cfg raw hash a
    · obtain ⟨k, entry, info, hlast, hslice⟩ := h.slices a ha
      have hnode := congrFun (congrArg AddrSlice.node hslice) i
      change t.nodeOf a i = Function.update (s.nodeOf a) k _ i at hnode
      rw [hx, Function.update_apply] at hnode
      split at hnode
      · have hentry := hlast.txHash
        rw [← hhash, Option.some.inj hnode] at hne
        exact absurd hentry hne
      · exact ⟨i, hnode.symm⟩
    · have hnode := congrFun (congrArg AddrSlice.node (h.other a ha)) i
      exact ⟨i, hnode.symm.trans hx⟩
  · intro a hcached
    by_cases ha : Touches cfg raw hash a
    · obtain ⟨k, entry, info, -, hslice⟩ := h.slices a ha
      exact Option.isSome_iff_exists.mpr ⟨_, congrArg AddrSlice.cached hslice⟩
    · have heq : t.cachedInfo a = s.cachedInfo a := congrArg AddrSlice.cached (h.other a ha)
      rwa [heq]

theorem confirmedFee_feeFinal (txObject : Tx) :
    wp (confirmedFee cfg (fetchTxLog2 raw row) txObject)
      (fun fee s' => FeeFinal cfg raw row fee ∧ s' = s) (fun _ => True) s := by
  apply wp_ite
  · intro _
    rw [wp_bind, getValueOut, fetchTxLog2_tx]
    cases hvalue : (raw row.txHash).tx.getValueOut with
    | some valueOut => exact ⟨fun _ => ⟨valueOut, hvalue, rfl⟩, rfl⟩
    | none => trivial
  · intro hcb
    exact ⟨fun h => absurd h hcb, rfl⟩

theorem confirmTx_confirmedAs (hcfg : cfg.kMaxCacheCount = none)
    (hrounds : 2 ≤ cfg.swapRounds) (hinv : TxInv cfg raw p s) (hallowed : p.TxAllowed row)
    (htype : row.type = .txConfirm) :
    wp (confirmTx cfg (fetchTxLog2 raw row)) (fun _ t =>
      ConfirmedAs cfg raw row t ∧ Counted t ∧ ∀ other : TxLog2Row, other.txHash ≠ row.txHash →
        ConfirmedAs cfg raw other s → ConfirmedAs cfg raw other t) (fun _ => True) s := by
  have hstatus : p.status row.txHash = .unconfirmed := by
    rw [hallowed.status, htype]
    rfl
  obtain ⟨hsome, hreadable⟩ := hinv.live row.txHash (by simp [Ledger.Live, hstatus])
  unfold confirmTx
  simp only [fetchTxLog2_tx, fetchTxLog2_txHash]
  refine wp_seq (getTxAddressBalance_spec hinv.objects hreadable) ?_
  rintro _ s ⟨rfl, rfl⟩
  -- the lists
  refine wp_seq (forM_addresses (txBalance_nodup cfg raw row.txHash)
    (fun a _ v => v = s.txView a)
    (fun a _ w => StampedOrOld (fetchTxLog2 raw row) (s.nodeOf a) w.node)
    (fun a d s' hmem hv => ?_) fun _ _ _ => rfl) ?_
  · obtain ⟨z, hz, -, hpending, -⟩ := hinv.lists a
    obtain ⟨entry, hentry, hhash⟩ := (hpending row.txHash).mpr
      ⟨hstatus, List.mem_map_of_mem hmem⟩
    have hnode : s.nodeOf a = s'.nodeOf a := (congrArg TxView.node hv).symm
    rw [hnode]
    exact confirmAddress_records hcfg hrounds (hallowed.confirm_height htype) (hv ▸ hz)
      hentry hhash
  rintro _ s1 ⟨htouched, huntouched, heffects⟩
  have hrecords : ∀ a, StampedOrOld (fetchTxLog2 raw row) (s.nodeOf a) (s1.nodeOf a) := by
    intro a
    by_cases ha : Touches cfg raw row.txHash a
    · obtain ⟨⟨_, d⟩, hmem, rfl⟩ := List.mem_map.mp ha
      exact htouched _ d hmem
    · intro i x hx
      have hnode : s1.nodeOf a = s.nodeOf a := congrArg TxView.node (huntouched a ha)
      rw [hnode] at hx
      refine ⟨fun heq => absurd ?_ ha, fun _ => ⟨i, hx⟩⟩
      rw [← show x.txHash = row.txHash from heq]
      exact (hinv.record_live hx).2
  -- the transaction object and the rest
  rw [wp_bind]
  apply wp_kvGet_of _ (fun txObject _ => ?_) fun _ => trivial
  refine wp_seq (confirmedFee_feeFinal txObject) ?_
  rintro fee s1 ⟨hfee, rfl⟩
  rw [wp_bind, wp_kvSet, wp_bind, wp_kvDel]
  apply wp_mono (statusSet hcfg s1 _ none (-1) _) _ fun _ he => he
  rintro _ t hset
  have hnode : ∀ a, t.nodeOf a = s1.nodeOf a := hset.node
  refine ⟨⟨⟨_, hset.object, rfl, rfl, hfee⟩, hset.pool, fun a i x hx hhash => ?_,
    fun a ha => hset.cached (.inl ha)⟩, hset.counted, fun other hne hother => ?_⟩
  · exact (hrecords a i x ((congrFun (hnode a) i).symm.trans hx)).1 hhash
  · apply hother.of_kept
    · rw [hset.rest _ id (by simpa using hne) (by simp), heffects.kv_eq id]
    · rw [hset.rest _ id (by simp) (by simpa using hne), heffects.kv_eq id]
    · intro a i x hx hhash
      exact (hrecords a i x ((congrFun (hnode a) i).symm.trans hx)).2 (hhash ▸ hne)
    · exact fun a ha => hset.cached (.inr (heffects.cached ha))

theorem TxInv.last (hinv : TxInv cfg raw p s) {hash : Uint256} {older : List Uint256}
    (hconfirmed : p.confirmed = hash :: older) {a : Address}
    (htouches : Touches cfg raw hash a) (hcached : (s.cachedInfo a).isSome) :
    ∃ k entry info, (s.addrSlice a).Last hash k entry info := by
  obtain ⟨z, hz, hlist, -, -⟩ := hinv.lists a
  obtain ⟨info, hinfo⟩ := Option.isSome_iff_exists.mp hcached
  have hof : confirmedOf cfg raw p a =
      (older.reverse.filter fun other => Touches cfg raw other a) ++ [hash] := by
    simp [confirmedOf, hconfirmed, htouches]
  rw [hof] at hlist
  obtain ⟨before, end', hsplit, -, hend⟩ := List.map_eq_append_iff.mp hlist
  obtain ⟨entry, rfl⟩ : ∃ e, end' = [e] :=
    List.length_eq_one_iff.mp (by simpa using congrArg List.length hend)
  have hhash : entry.txHash = hash := by simpa using hend
  have hstored := hz.stored
  rw [TxZones.list, hsplit, List.append_assoc, List.singleton_append] at hstored
  have hidx := (txPart_eq_summary.mp hz.info).2.2.2.2.2.2
  rw [infoOf_of_cached hinfo, hsplit, List.length_append, List.length_singleton] at hidx
  refine ⟨before.length, entry, info, ?_, hstored.node_append, hinfo, by omega, by omega, hhash⟩
  rw [← hhash]
  exact hstored.index_append

theorem ConfirmedAs.congr {row' : TxLog2Row} (h : ConfirmedAs cfg raw row s)
    (htype : row.type = .txConfirm) (htype' : row'.type = .txConfirm)
    (hhash : row'.txHash = row.txHash) (hheight : row'.blkHeight = row.blkHeight)
    (htime : row'.maxBlkTimestamp = row.maxBlkTimestamp) : ConfirmedAs cfg raw row' s := by
  have hstamp : (fetchTxLog2 raw row').maxBlkTimestamp =
      (fetchTxLog2 raw row).maxBlkTimestamp := by
    simp [fetchTxLog2, htype, htype', htime]
  obtain ⟨hobject, hpool, hrecords, hcached⟩ := h
  constructor
  · rw [hhash, hheight, hstamp]
    unfold FeeFinal at hobject ⊢
    rwa [hhash, hheight]
  · rwa [hhash]
  · rw [hhash, hheight, hstamp]
    exact hrecords
  · rwa [hhash]

end Operations

/-! ## The transactions of a block -/

/-- The rows of a transaction that is confirmed, unconfirmed and confirmed again. -/
structure ReconfirmedTx where
  confirm : TxLog2Row
  undo : TxLog2Row
  again : TxLog2Row
  confirm_type : confirm.type = .txConfirm
  undo_type : undo.type = .txUnconfirm
  again_type : again.type = .txConfirm
  undo_txHash : undo.txHash = confirm.txHash
  again_txHash : again.txHash = confirm.txHash
  again_blkHeight : again.blkHeight = confirm.blkHeight
  again_maxBlkTimestamp : again.maxBlkTimestamp = confirm.maxBlkTimestamp

/-- The transactions are the latest confirmed ones, and nothing happened to them since. -/
structure BlockConfirmed (cfg : Config) (raw : RawTxs) (p : Ledger) (txs : List ReconfirmedTx)
    (s : ParserState) : Prop where
  inv : TxInv cfg raw p s
  latest : ∃ older, p.confirmed = (txs.map fun x => x.confirm.txHash).reverse ++ older
  confirmed : ∀ x ∈ txs, ConfirmedAs cfg raw x.again s
  counted : txs ≠ [] → Counted s

section Blocks

variable {cfg : Config} {raw : RawTxs} {p : Ledger} {s t r : ParserState}
  {txs : List ReconfirmedTx} {x : ReconfirmedTx}

theorem BlockConfirmed.confirm (hcfg : cfg.kMaxCacheCount = none) (hrounds : 2 ≤ cfg.swapRounds)
    (hformat : cfg.FormatsNoOtherHash) (h : BlockConfirmed cfg raw p txs s)
    (hallowed : p.TxAllowed x.confirm) :
    wp (applyRow cfg raw x.confirm)
      (fun _ t => BlockConfirmed cfg raw (p.next x.confirm) (txs ++ [x]) t)
      (fun _ => True) s := by
  have hstatus : p.status x.confirm.txHash = .unconfirmed := by
    rw [hallowed.status, x.confirm_type]
    rfl
  have hrun : applyRow cfg raw x.confirm = confirmTx cfg (fetchTxLog2 raw x.confirm) := by
    rw [applyRow_eq, x.confirm_type]
  have hspec := confirmTx_confirmedAs hcfg hrounds h.inv hallowed x.confirm_type
  rw [← hrun] at hspec
  apply wp_mono (wp_and (applyRow_txInv hcfg hrounds hformat hallowed h.inv) hspec) _
    fun _ _ => trivial
  rintro _ t ⟨hinv, hself, hcounted, hothers⟩
  obtain ⟨older, holder⟩ := h.latest
  refine ⟨hinv, ⟨older, ?_⟩, fun y hy => ?_, fun _ => hcounted⟩
  · simp [Ledger.next, x.confirm_type, holder]
  · rcases List.mem_append.mp hy with hold | hnew
    · -- its transaction is confirmed already, this one is not
      have hne : y.again.txHash ≠ x.confirm.txHash := by
        intro heq
        have hmem : y.confirm.txHash ∈ p.confirmed := by
          rw [holder, List.mem_append, List.mem_reverse]
          exact .inl (List.mem_map_of_mem hold)
        rw [h.inv.ledger.mem_iff, ← y.again_txHash, heq, hstatus] at hmem
        cases hmem
      exact hothers _ hne (h.confirmed y hold)
    · rw [List.mem_singleton.mp hnew]
      exact hself.congr x.confirm_type x.again_type x.again_txHash x.again_blkHeight
        x.again_maxBlkTimestamp

theorem BlockConfirmed.undo (hcfg : cfg.kMaxCacheCount = none) (hrounds : 2 ≤ cfg.swapRounds)
    (hformat : cfg.FormatsNoOtherHash) (h : BlockConfirmed cfg raw p (txs ++ [x]) s) :
    ∃ t, applyRow cfg raw x.undo s = .ok ((), t) ∧
      BlockConfirmed cfg raw (p.next x.undo) txs t ∧
      Redoable Same (applyRow cfg raw x.again) s t := by
  obtain ⟨older, holder⟩ := h.latest
  rw [List.map_append, List.map_singleton, List.reverse_append, List.reverse_singleton,
    List.singleton_append, List.cons_append, ← x.undo_txHash] at holder
  have hstatus : p.status x.undo.txHash = .confirmed := by
    rw [← h.inv.ledger.mem_iff, holder]
    exact List.mem_cons_self
  have hallowed : p.TxAllowed x.undo := by
    constructor
    · rw [hstatus, x.undo_type]
      rfl
    · simp [x.undo_type]
    · simp [x.undo_type]
  have hself := h.confirmed x (by simp)
  have hagain : x.again.txHash = x.undo.txHash := x.again_txHash.trans x.undo_txHash.symm
  obtain ⟨hsome, hreadable⟩ := h.inv.live x.undo.txHash (by simp [Ledger.Live, hstatus])
  have hrun : applyRow cfg raw x.undo = unconfirmTx cfg (fetchTxLog2 raw x.undo) := by
    rw [applyRow_eq, x.undo_type]
  obtain ⟨_, t, ht, hreverted, hcounted⟩ := exists_of_wp (unconfirmTx_exact hcfg
    h.inv.objects hreadable hsome fun a ha => h.inv.last holder ha
      (hself.cached a (by rwa [hagain])))
  rw [← hrun] at ht
  have hspec := applyRow_txInv hcfg hrounds hformat hallowed h.inv
  have hinv := wp_of_ok hspec ht
  refine ⟨t, ht, ⟨hinv, ⟨older, ?_⟩, fun y hy => ?_, fun _ => hcounted⟩, fun r hsame => ?_⟩
  · simp [Ledger.next, x.undo_type, holder]
  · have hne : y.again.txHash ≠ x.undo.txHash := by
      have hnodup := h.inv.ledger.nodup
      rw [holder, List.nodup_cons, List.mem_append, List.mem_reverse] at hnodup
      rintro heq
      rw [← heq, y.again_txHash] at hnodup
      exact hnodup.1 (.inl (List.mem_map_of_mem hy))
    exact hreverted.confirmedAs hne (h.confirmed y (by simp [hy]))
  · have hlive : (p.next x.undo).Live x.again.txHash := by
      rw [Ledger.next_live, if_pos hagain, x.undo_type]
      simp
    have hredo : applyRow cfg raw x.again = confirmTx cfg (fetchTxLog2 raw x.again) := by
      rw [applyRow_eq, x.again_type]
    rw [← hagain] at hreverted
    obtain ⟨_, s', hs', hback⟩ := exists_of_wp (confirmTx_exact hcfg hrounds h.inv.clean
      (h.counted (by simp)) hself hinv.objects (hinv.live _ hlive).2 hreverted hsame)
    exact ⟨s', by rw [hredo]; exact hs', hback⟩

theorem BlockConfirmed.of_run (hcfg : cfg.kMaxCacheCount = none)
    (hrounds : 2 ≤ cfg.swapRounds) (hformat : cfg.FormatsNoOtherHash)
    (hinv : TxInv cfg raw p s)
    (hrows : Along Ledger.TxAllowed Ledger.next p (txs.map ReconfirmedTx.confirm)) :
    wp (forM txs fun x => applyRow cfg raw x.confirm)
      (fun _ t => BlockConfirmed cfg raw
        ((txs.map ReconfirmedTx.confirm).foldl Ledger.next p) txs t) (fun _ => True) s := by
  apply wp_forM (s := s) (fun done t => BlockConfirmed cfg raw
    ((done.map ReconfirmedTx.confirm).foldl Ledger.next p) done t)
    ⟨hinv, ⟨p.confirmed, rfl⟩, by simp, by simp⟩
  intro done x rest t htxs h
  rw [htxs, List.map_append, List.map_cons, along_append] at hrows
  apply wp_mono (h.confirm hcfg hrounds hformat hrows.2.1) _ fun _ he => he
  rintro _ t' h'
  rwa [List.map_append, List.map_singleton, List.foldl_append]

theorem applyRows_map {f : ReconfirmedTx → TxLog2Row} (txs : List ReconfirmedTx) :
    applyRows cfg raw (txs.map f) = forM txs fun x => applyRow cfg raw (f x) := by
  unfold applyRows
  rw [List.forM_map]

end Blocks

/--
In the state right after the transactions of a block have been confirmed,
unconfirming them in reverse and confirming them again at the same height and
time changes neither the store nor what is cached of any address.
-/
theorem reconfirm_block (cfg : Config) (raw : RawTxs) (earlier : List TxLog2Row)
    (block : List ReconfirmedTx) (hcfg : cfg.kMaxCacheCount = none)
    (hrounds : 2 ≤ cfg.swapRounds) (hformat : cfg.FormatsNoOtherHash)
    (hrows : ObeysAutomaton (earlier ++ block.map ReconfirmedTx.confirm)) {s : ParserState}
    (hs : runRows cfg raw (earlier ++ block.map ReconfirmedTx.confirm) = .ok ((), s)) :
    ∃ s', applyRows cfg raw
        (block.reverse.map ReconfirmedTx.undo ++ block.map ReconfirmedTx.again) s =
          .ok ((), s') ∧
      s'.kv = s.kv ∧ (∀ address, s'.cachedInfo address = s.cachedInfo address) ∧
      s'.unconfirmedTxsCount = s.unconfirmedTxsCount ∧
      s'.unconfirmedTxsSize = s.unconfirmedTxsSize := by
  obtain ⟨hearlier, hblock⟩ := (along_append _ _ _).mp hrows
  rw [runRows, applyRows_append, bind_eq_ok] at hs
  obtain ⟨_, s0, hs0, hs⟩ := hs
  have hinv := wp_of_ok (applyRows_txInv raw hcfg hrounds hformat hearlier) hs0
  rw [applyRows_map] at hs
  have hconfirmed := wp_of_ok (BlockConfirmed.of_run hcfg hrounds hformat hinv hblock) hs
  obtain ⟨t, s', hundo, hredo, hsame⟩ := undo_redo Same.refl
    (fun x => applyRow cfg raw x.undo) (fun x => applyRow cfg raw x.again)
    (fun txs s => ∃ p, BlockConfirmed cfg raw p txs s)
    (fun txs x s ⟨p, h⟩ => by
      obtain ⟨t, ht, h', hredo⟩ := h.undo hcfg hrounds hformat
      exact ⟨t, ht, ⟨_, h'⟩, hredo⟩) ⟨_, hconfirmed⟩
  refine ⟨s', ?_, hsame.kv, hsame.cached, hsame.count, hsame.size⟩
  rw [applyRows_append, bind_eq_ok, applyRows_map, applyRows_map]
  exact ⟨(), t, hundo, hredo⟩

def exampleReconfirmedTx (hash : Uint256) : ReconfirmedTx where
  confirm := ⟨3, .txConfirm, 100, 1, 1400000000, hash⟩
  undo := ⟨5, .txUnconfirm, 100, 1, 1400000000, hash⟩
  again := ⟨7, .txConfirm, 100, 1, 1400000000, hash⟩
  confirm_type := rfl
  undo_type := rfl
  again_type := rfl
  undo_txHash := rfl
  again_txHash := rfl
  again_blkHeight := rfl
  again_maxBlkTimestamp := rfl

/-- The two transactions of the block pay the same address. -/
theorem reconfirm_block_example :
    ∃ s s', applyRows exampleConfig exampleRaw
        ([exampleReconfirmedTx 8, exampleReconfirmedTx 7].map ReconfirmedTx.undo ++
          [exampleReconfirmedTx 7, exampleReconfirmedTx 8].map ReconfirmedTx.again) s =
          .ok ((), s') ∧ s'.kv = s.kv ∧ s.kv .unconfirmedTxsCount = some 0 := by
  have hrun : ((runRows exampleConfig exampleRaw
      ([⟨1, .txAccept, -1, -1, 0, 7⟩, ⟨2, .txAccept, -1, -1, 0, 8⟩] ++
        [exampleReconfirmedTx 7, exampleReconfirmedTx 8].map
          ReconfirmedTx.confirm)).toOption.bind
      fun r => r.2.kv .unconfirmedTxsCount) = some 0 := by
    decide +kernel
  cases hs : runRows exampleConfig exampleRaw
      ([⟨1, .txAccept, -1, -1, 0, 7⟩, ⟨2, .txAccept, -1, -1, 0, 8⟩] ++
        [exampleReconfirmedTx 7, exampleReconfirmedTx 8].map ReconfirmedTx.confirm) with
  | error e =>
      rw [hs] at hrun
      cases hrun
  | ok r =>
      rw [hs] at hrun
      obtain ⟨s', hs', hkv, -⟩ := reconfirm_block exampleConfig exampleRaw _
        [exampleReconfirmedTx 7, exampleReconfirmedTx 8] rfl (by decide)
        (fun _ _ _ h => by cases h) (ObeysLifo.automaton (by decide)) hs
      exact ⟨r.2, s', hs', hkv, hrun⟩

end ExplorerKV.Parser

import ExplorerKV.Foundation.IndexedList
import ExplorerKV.Parser.Balance

/-!
# The transaction list of an address

The `21_` records of an address, its `22_` index and its cached information
hold a list with two zones: confirmed transactions in the order of their
confirms, then pending ones in no particular order.  `TxZones` is the abstract
list, `Holds` ties it to the store, and each of the four operations on one
address is shown to act on it as its name says.
-/

namespace ExplorerKV.Parser

open Bitcoin Foundation

/-- What the store and the cache say about an address's transactions. -/
structure TxView where
  node : Int → Option AddressTx
  index : Uint256 → Option Int
  info : AddressInfo

namespace ParserState

def nodeOf (s : ParserState) (address : Address) : Int → Option AddressTx :=
  fun i => s.kv (.addrTx address i)

def indexOf (s : ParserState) (address : Address) : Uint256 → Option Int :=
  fun hash => s.kv (.addrTxIndex address (.hex hash))

def txView (s : ParserState) (address : Address) : TxView where
  node := s.nodeOf address
  index := s.indexOf address
  info := (s.infoOf address).txPart

section Writes

variable (s : ParserState) (address : Address) (i j : Int) (hash : Uint256)

@[simp] theorem touch_nodeOf (other : Address) :
    (s.touch address).nodeOf other = s.nodeOf other := by
  unfold nodeOf
  rw [touch_kv]

@[simp] theorem touch_indexOf (other : Address) :
    (s.touch address).indexOf other = s.indexOf other := by
  unfold indexOf
  rw [touch_kv]

@[simp] theorem put_nodeOf (info : AddressInfo) (other : Address) :
    (s.put address info).nodeOf other = s.nodeOf other := rfl

@[simp] theorem put_indexOf (info : AddressInfo) (other : Address) :
    (s.put address info).indexOf other = s.indexOf other := rfl

theorem write_addrTx_nodeOf (val : Option AddressTx) :
    (s.write ⟨.addrTx address i, val⟩).nodeOf address j =
      if j = i then val else s.nodeOf address j := by
  unfold nodeOf
  by_cases h : j = i
  · rw [h, if_pos rfl, write_kv_self]
  · rw [write_kv_of_ne _ _ (by simpa using h), if_neg h]

@[simp] theorem write_addrTx_indexOf (val : Option AddressTx) :
    (s.write ⟨.addrTx address i, val⟩).indexOf address = s.indexOf address := by
  funext
  exact s.write_kv_of_ne _ (by simp)

theorem write_addrTxIndex_indexOf (val : Option Int) (other : Uint256) :
    (s.write ⟨.addrTxIndex address (.hex hash), val⟩).indexOf address other =
      if other = hash then val else s.indexOf address other := by
  unfold indexOf
  by_cases h : other = hash
  · rw [h, if_pos rfl, write_kv_self]
  · rw [write_kv_of_ne _ _ (by simpa using h), if_neg h]

@[simp] theorem write_addrTxIndex_nodeOf (text : HashText) (val : Option Int) :
    (s.write ⟨.addrTxIndex address text, val⟩).nodeOf address =
      s.nodeOf address := by
  funext
  exact s.write_kv_of_ne _ (by simp)

@[simp] theorem write_addrTx_infoOf (val : Option AddressTx) (other : Address) :
    (s.write ⟨.addrTx address i, val⟩).infoOf other = s.infoOf other :=
  s.write_infoOf _ _ (by simp) other

@[simp] theorem write_addrTxIndex_infoOf (text : HashText) (val : Option Int)
    (other : Address) :
    (s.write ⟨.addrTxIndex address text, val⟩).infoOf other = s.infoOf other :=
  s.write_infoOf _ _ (by simp) other

end Writes

end ParserState

/-! ## Zones -/

def sumOf (part : Int → Int) (entries : List AddressTx) : Int :=
  (entries.map fun entry => part entry.balanceDiff).sum

section Sums

variable (part : Int → Int) (xs ys : List AddressTx)

@[simp] theorem sumOf_nil : sumOf part [] = 0 := rfl

@[simp] theorem sumOf_cons (entry : AddressTx) :
    sumOf part (entry :: xs) = part entry.balanceDiff + sumOf part xs := by
  simp [sumOf]

@[simp] theorem sumOf_append :
    sumOf part (xs ++ ys) = sumOf part xs + sumOf part ys := by
  simp [sumOf]

theorem sumOf_perm {xs ys : List AddressTx} (h : xs.Perm ys) :
    sumOf part xs = sumOf part ys :=
  (h.map _).sum_eq

end Sums

structure TxZones where
  confirmed : List AddressTx
  pending : List AddressTx

namespace TxZones

def list (z : TxZones) : List AddressTx := z.confirmed ++ z.pending

def summary (z : TxZones) : AddressInfo where
  txCount := z.list.length
  received := sumOf receivedPart z.list
  sent := sumOf sentPart z.list
  unconfirmedTxCount := z.pending.length
  unconfirmedReceived := sumOf receivedPart z.pending
  unconfirmedSent := sumOf sentPart z.pending
  unspentTxCount := 0
  unspentTxIndex := -1
  lastConfirmedTxIdx := z.confirmed.length - 1

end TxZones

theorem txPart_eq_summary {info : AddressInfo} {z : TxZones} :
    info.txPart = z.summary ↔
      info.txCount = z.list.length ∧
      info.received = sumOf receivedPart z.list ∧
      info.sent = sumOf sentPart z.list ∧
      info.unconfirmedTxCount = z.pending.length ∧
      info.unconfirmedReceived = sumOf receivedPart z.pending ∧
      info.unconfirmedSent = sumOf sentPart z.pending ∧
      info.lastConfirmedTxIdx = z.confirmed.length - 1 := by
  simp [AddressInfo.txPart, TxZones.summary]

structure TxView.Holds (v : TxView) (z : TxZones) : Prop where
  stored : Stored AddressTx.txHash v.node v.index z.list
  info : v.info = z.summary
  confirmed_height : ∀ entry ∈ z.confirmed, 0 ≤ entry.txHeight
  pending_height : ∀ entry ∈ z.pending, entry.txHeight = -1

/-! ## Effects on one address -/

def Key.OfAddrTxOf (address : Address) : Key → Prop
  | .addrTx a _ | .addrTxIndex a _ => a = address
  | _ => False

/-- Effects on the records and the transaction totals of one address. -/
abbrev AddrTxEffects (address : Address) : ParserState → ParserState → Prop :=
  Effects (Key.OfAddrTxOf address) (TxChange (· = address))

theorem txView_of_effects {K : Key → Prop}
    {P : Address → AddressInfo → AddressInfo → Prop} {s s' : ParserState}
    (h : Effects K P s s') {address : Address}
    (hnode : ∀ i, ¬K (.addrTx address i))
    (hindex : ∀ text, ¬K (.addrTxIndex address text))
    (hinfo : ∀ a, ¬K (.addrObject a))
    (hP : ∀ info info', P address info info' → info'.txPart = info.txPart) :
    s'.txView address = s.txView address := by
  unfold ParserState.txView ParserState.nodeOf ParserState.indexOf
  rw [h.infoOf_eq hinfo address AddressInfo.txPart hP]
  congr 1
  · funext i
    exact h.kv_eq (hnode i)
  · funext hash
    exact h.kv_eq (hindex _)

theorem txView_of_utxoEffects {D : Address → Prop} {s s' : ParserState}
    (h : UtxoEffects D s s') (address : Address) :
    s'.txView address = s.txView address :=
  txView_of_effects h (fun _ => id) (fun _ => id) (fun _ => id)
    fun _ _ hP => hP.2

theorem txView_of_addrTxEffects {address other : Address} {s s' : ParserState}
    (h : AddrTxEffects address s s') (hne : other ≠ address) :
    s'.txView other = s.txView other :=
  txView_of_effects h (fun _ => hne) (fun _ => hne) (fun _ => id)
    fun _ _ hP => absurd hP.1 hne

/-! ## Exchanging two records -/

section Specs

variable {cfg : Config} {E : Fault → Prop} {s : ParserState}
  {address : Address}

private theorem switchTxNode_run {idx1 idx2 : Int} {addressTx1 addressTx2 : AddressTx}
    (h1 : s.nodeOf address idx1 = some addressTx1)
    (h2 : s.nodeOf address idx2 = some addressTx2) :
    wp (switchTxNode address idx1 idx2) (fun _ s' =>
      (∀ i, s'.nodeOf address i =
        if i = idx2 then some addressTx1
        else if i = idx1 then some addressTx2 else s.nodeOf address i) ∧
      (∀ hash, s'.indexOf address hash =
        if hash = addressTx2.txHash then some idx1
        else if hash = addressTx1.txHash then some idx2
        else s.indexOf address hash) ∧
      (∀ other, s'.infoOf other = s.infoOf other) ∧
      AddrTxEffects address s s') E s := by
  unfold switchTxNode
  rw [wp_bind]
  refine wp_kvGetUnchecked_of _ (fun val1 hval1 => ?_)
    (fun hnone => by cases h1.symm.trans hnone)
  obtain rfl : val1 = addressTx1 := Option.some.inj (hval1.symm.trans h1)
  rw [wp_bind]
  refine wp_kvGetUnchecked_of _ (fun val2 hval2 => ?_)
    (fun hnone => by cases h2.symm.trans hnone)
  obtain rfl : val2 = addressTx2 := Option.some.inj (hval2.symm.trans h2)
  simp only [wp_bind, wp_kvSet]
  refine ⟨fun i => ?_, fun hash => ?_, fun other => by simp, ?_⟩
  · simp only [ParserState.write_addrTxIndex_nodeOf,
      ParserState.write_addrTx_nodeOf]
  · simp only [ParserState.write_addrTxIndex_indexOf,
      ParserState.write_addrTx_indexOf]
  · exact .write (.write (.write (.write (.refl s) (by rfl) _) (by rfl) _)
      (by rfl) _) (by rfl) _

/--
`_switchTxNode` on the positions of `x` and `y`, in either order, exchanges
them in the stored list.
-/
theorem switchTxNode_spec {xs ys zs : List AddressTx} {x y : AddressTx}
    (h : Stored AddressTx.txHash (s.nodeOf address) (s.indexOf address)
      (xs ++ x :: ys ++ y :: zs))
    {idx1 idx2 : Int}
    (hidx : idx1 = xs.length ∧ idx2 = (xs ++ x :: ys).length ∨
      idx1 = (xs ++ x :: ys).length ∧ idx2 = xs.length) :
    wp (switchTxNode address idx1 idx2) (fun _ s' =>
      Stored AddressTx.txHash (s'.nodeOf address) (s'.indexOf address)
        (xs ++ y :: ys ++ x :: zs) ∧
      (∀ other, s'.infoOf other = s.infoOf other) ∧
      AddrTxEffects address s s') E s := by
  have hx : s.nodeOf address xs.length = some x := by
    have hlist : xs ++ x :: ys ++ y :: zs = xs ++ x :: (ys ++ y :: zs) := by simp
    exact (hlist ▸ h).node_append
  have hy : s.nodeOf address (xs ++ x :: ys).length = some y := h.node_append
  have hne : x.txHash ≠ y.txHash := by
    have hnodup := h.nodup
    intro heq
    simp [heq, List.nodup_append] at hnodup
  have hpos : (xs.length : Int) ≠ (xs ++ x :: ys).length := by simp; omega
  rcases hidx with ⟨rfl, rfl⟩ | ⟨rfl, rfl⟩
  · refine wp_mono (switchTxNode_run hx hy) ?_ fun _ he => he
    rintro _ s' ⟨hnode, hindex, hinfo, heffects⟩
    refine ⟨h.swap (fun i => ?_) (fun k => ?_), hinfo, heffects⟩
    · rw [hnode]
      split_ifs <;> first | rfl | omega
    · rw [hindex]
      split_ifs with hk hk' <;> first | rfl | exact absurd (hk'.symm.trans hk) hne
  · refine wp_mono (switchTxNode_run hy hx) ?_ fun _ he => he
    rintro _ s' ⟨hnode, hindex, hinfo, heffects⟩
    exact ⟨h.swap hnode hindex, hinfo, heffects⟩

/-! ## Inserting -/

theorem insertAddressTx_spec (hcfg : cfg.kMaxCacheCount = none)
    {txLog2 : TxLog2} {z : TxZones} (hv : (s.txView address).Holds z)
    (hfresh : txLog2.txHash ∉ z.list.map AddressTx.txHash) (balanceDiff : Int) :
    wp (insertAddressTx cfg txLog2 address balanceDiff) (fun _ s' =>
      (s'.txView address).Holds ⟨z.confirmed, z.pending ++
        [⟨balanceDiff, txLog2.txHash, -1, txLog2.maxBlkTimestamp⟩]⟩ ∧
      AddrTxEffects address s s') E s := by
  simp only [insertAddressTx, wp_bind, wp_getAddressInfo hcfg, wp_kvSet,
    wp_putAddressInfo]
  obtain ⟨hcount, hreceived, hsent, hpending, hureceived, husent, hlast⟩ :=
    txPart_eq_summary.mp hv.info
  have hcached : ∀ w w', (((s.touch address).write w).write w').cachedInfo
      address = some (s.infoOf address) := by
    simp [ParserState.touch_cachedInfo]
  constructor
  · constructor
    · have hlist : TxZones.list ⟨z.confirmed, z.pending ++
          [⟨balanceDiff, txLog2.txHash, -1, txLog2.maxBlkTimestamp⟩]⟩ =
          z.list ++ [⟨balanceDiff, txLog2.txHash, -1, txLog2.maxBlkTimestamp⟩] := by
        simp [TxZones.list]
      rw [hlist]
      refine hv.stored.append (fun i => ?_) (fun k => ?_) hfresh
      · simp [ParserState.txView, ParserState.write_addrTx_nodeOf, hcount]
      · simp [ParserState.txView, ParserState.write_addrTxIndex_indexOf, hcount]
    · refine txPart_eq_summary.mpr ?_
      rw [ParserState.put_infoOf (by simp [hcached])]
      simp [TxZones.list] at hcount hreceived hsent
      simp [TxZones.list, *]
      omega
    · exact hv.confirmed_height
    · intro entry hentry
      rcases List.mem_append.mp hentry with hold | hnew
      · exact hv.pending_height entry hold
      · simp [List.mem_singleton.mp hnew]
  · refine .put (.write (.write ((Effects.refl s).touch address) (by rfl) _)
      (by rfl) _) (by simp [hcached]) ⟨rfl, ?_⟩
    simp [AddressInfo.unspentPart]

/-! ## Confirming -/

/-- The node that `_getAddressTxNode` builds from a record at a position. -/
def nodeAt (entry : AddressTx) (idx : Nat) : AddressTxNode where
  txBlockTime := entry.txBlockTime
  txHeight := entry.txHeight
  balanceDiff := entry.balanceDiff
  idx := idx

theorem getAddressTxNode_spec {xs ys : List AddressTx} {entry : AddressTx}
    (h : Stored AddressTx.txHash (s.nodeOf address) (s.indexOf address)
      (xs ++ entry :: ys)) :
    wp (getAddressTxNode address entry.txHash)
      (fun node s' => node = nodeAt entry xs.length ∧ s' = s) E s := by
  unfold getAddressTxNode
  rw [wp_bind]
  refine wp_kvGet_of _ (fun index hindex => ?_)
    (fun hnone => by cases h.index_append.symm.trans hnone)
  obtain rfl : index = xs.length :=
    Option.some.inj (hindex.symm.trans h.index_append)
  rw [wp_bind]
  refine wp_kvGet_of _ (fun addressTx hnode => ?_)
    (fun hnone => by cases h.node_append.symm.trans hnone)
  obtain rfl : entry = addressTx :=
    Option.some.inj (h.node_append.symm.trans hnode)
  exact ⟨rfl, rfl⟩

theorem moveToConfirmed_spec {confirmed pending : List AddressTx}
    {entry : AddressTx}
    (h : Stored AddressTx.txHash (s.nodeOf address) (s.indexOf address)
      (confirmed ++ pending))
    (hentry : entry ∈ pending) {rounds : Nat} (hrounds : 2 ≤ rounds) :
    wp (moveToConfirmed address entry.txHash (confirmed.length - 1) rounds)
      (fun node s' => node = nodeAt entry confirmed.length ∧
        ∃ pending', pending.Perm (entry :: pending') ∧
          Stored AddressTx.txHash (s'.nodeOf address) (s'.indexOf address)
            (confirmed ++ entry :: pending') ∧
          (∀ other, s'.infoOf other = s.infoOf other) ∧
          AddrTxEffects address s s') E s := by
  obtain ⟨rounds, rfl⟩ : ∃ n, rounds = n + 2 := ⟨rounds - 2, by omega⟩
  obtain ⟨before, behind, rfl⟩ := List.append_of_mem hentry
  unfold moveToConfirmed
  cases before with
  | nil =>
      refine wp_seq (getAddressTxNode_spec h) ?_
      rintro _ _ ⟨rfl, rfl⟩
      rw [if_pos (by simp [nodeAt])]
      exact ⟨rfl, behind, .refl _, h, fun _ => rfl, .refl _⟩
  | cons first before =>
      have hlist : confirmed ++ (first :: before ++ entry :: behind) =
          confirmed ++ first :: before ++ entry :: behind := by simp
      rw [hlist] at h
      refine wp_seq (getAddressTxNode_spec h) ?_
      rintro _ _ ⟨rfl, rfl⟩
      rw [if_neg (by simp [nodeAt]; omega)]
      refine wp_seq (switchTxNode_spec h (.inl ⟨by simp, by simp [nodeAt]⟩)) ?_
      rintro _ s' ⟨hstored, hinfo, heffects⟩
      have hlist' : confirmed ++ entry :: before ++ first :: behind =
          confirmed ++ entry :: (before ++ first :: behind) := by simp
      rw [hlist'] at hstored
      unfold moveToConfirmed
      refine wp_seq (getAddressTxNode_spec hstored) ?_
      rintro _ _ ⟨rfl, rfl⟩
      rw [if_pos (by simp [nodeAt])]
      refine ⟨rfl, before ++ first :: behind, ?_, hstored, hinfo, heffects⟩
      calc (first :: before ++ entry :: behind).Perm
            (entry :: (first :: before ++ behind)) := List.perm_middle
        _ |>.Perm (entry :: (before ++ first :: behind)) :=
            (List.perm_middle.symm).cons entry

theorem confirmAddress_spec (hcfg : cfg.kMaxCacheCount = none)
    (hrounds : 2 ≤ cfg.swapRounds) {txLog2 : TxLog2}
    (hheight : 0 ≤ txLog2.blkHeight) {z : TxZones}
    (hv : (s.txView address).Holds z) {entry : AddressTx}
    (hentry : entry ∈ z.pending) (hhash : entry.txHash = txLog2.txHash) :
    wp (confirmAddress cfg txLog2 address) (fun _ s' =>
      (∃ pending', z.pending.Perm (entry :: pending') ∧
        (s'.txView address).Holds ⟨z.confirmed ++ [{ entry with
          txBlockTime := txLog2.maxBlkTimestamp
          txHeight := txLog2.blkHeight }], pending'⟩) ∧
      AddrTxEffects address s s') E s := by
  obtain ⟨hcount, hreceived, hsent, hpending, hureceived, husent, hlast⟩ :=
    txPart_eq_summary.mp hv.info
  unfold confirmAddress
  rw [wp_bind, wp_getAddressInfo hcfg, ← hhash, hlast]
  have hstored : Stored AddressTx.txHash ((s.touch address).nodeOf address)
      ((s.touch address).indexOf address) (z.confirmed ++ z.pending) := by
    rw [ParserState.touch_nodeOf, ParserState.touch_indexOf]
    exact hv.stored
  refine wp_seq (moveToConfirmed_spec hstored hentry hrounds) ?_
  rintro _ s' ⟨rfl, pending', hperm, hstored', hinfo, heffects⟩
  unfold confirmAddressTxNode
  simp only [wp_bind, wp_putAddressInfo, wp_kvSet]
  refine wp_kvGet_of _ (fun addressTx hnode => ?_)
    (fun hnone => by cases hstored'.node_append.symm.trans hnone)
  obtain rfl : entry = addressTx :=
    Option.some.inj (hstored'.node_append.symm.trans hnode)
  have hcached := heffects.cached (s.cached_touch address)
  have hsum : ∀ part, sumOf part z.pending =
      part entry.balanceDiff + sumOf part pending' := fun part => by
    rw [sumOf_perm part hperm, sumOf_cons]
  have hlength : z.pending.length = pending'.length + 1 := by
    simpa using hperm.length_eq
  refine ⟨⟨pending', hperm, ?_⟩, ?_⟩
  · constructor
    · have hlist : TxZones.list ⟨z.confirmed ++ [{ entry with
          txBlockTime := txLog2.maxBlkTimestamp
          txHeight := txLog2.blkHeight }], pending'⟩ =
          z.confirmed ++ { entry with
            txBlockTime := txLog2.maxBlkTimestamp
            txHeight := txLog2.blkHeight } :: pending' := by
        simp [TxZones.list]
      rw [hlist]
      simp only [ParserState.txView, ParserState.write_addrTx_indexOf,
        ParserState.put_indexOf]
      refine hstored'.set (fun i => ?_) rfl
      simp [ParserState.write_addrTx_nodeOf, nodeAt]
    · refine txPart_eq_summary.mpr ?_
      rw [ParserState.write_addrTx_infoOf, ParserState.put_infoOf hcached]
      simp only [TxZones.list, sumOf_append, hsum, List.length_append]
        at hcount hreceived hsent hpending hureceived husent
      simp [TxZones.list, nodeAt, *]
    · intro e he
      rcases List.mem_append.mp he with hold | hnew
      · exact hv.confirmed_height e hold
      · rw [List.mem_singleton.mp hnew]
        exact hheight
    · exact fun e he => hv.pending_height e (hperm.mem_iff.mpr (.tail _ he))
  · refine .write (.put (.trans ((Effects.refl s).touch address) heffects) hcached
      ⟨rfl, ?_⟩) (by rfl) _
    rw [hinfo]
    simp [AddressInfo.unspentPart]

/-! ## Unconfirming -/

theorem unconfirmAddress_spec (hcfg : cfg.kMaxCacheCount = none)
    {txLog2 : TxLog2} {z : TxZones} (hv : (s.txView address).Holds z)
    {entry : AddressTx} (hentry : entry ∈ z.confirmed)
    (hhash : entry.txHash = txLog2.txHash)
    (hE : (∀ confirmed, z.confirmed ≠ confirmed ++ [entry]) →
      E (.assertion .unconfirmAddressTxNode)) :
    wp (unconfirmAddress cfg txLog2 address) (fun _ s' =>
      (∃ confirmed, z.confirmed = confirmed ++ [entry] ∧
        (s'.txView address).Holds ⟨confirmed,
          { entry with txBlockTime := 0, txHeight := -1 } :: z.pending⟩) ∧
      AddrTxEffects address s s') E s := by
  obtain ⟨hcount, hreceived, hsent, hpending, hureceived, husent, hlast⟩ :=
    txPart_eq_summary.mp hv.info
  obtain ⟨before, behind, hsplit⟩ := List.append_of_mem hentry
  have hstored : Stored AddressTx.txHash ((s.touch address).nodeOf address)
      ((s.touch address).indexOf address)
      (before ++ entry :: (behind ++ z.pending)) := by
    rw [ParserState.touch_nodeOf, ParserState.touch_indexOf]
    have hlist : before ++ entry :: (behind ++ z.pending) = z.list := by
      simp [TxZones.list, hsplit]
    rw [hlist]
    exact hv.stored
  unfold unconfirmAddress
  rw [wp_bind, wp_getAddressInfo hcfg, ← hhash]
  refine wp_seq (getAddressTxNode_spec hstored) ?_
  rintro _ _ ⟨rfl, rfl⟩
  have hlen : z.confirmed.length = before.length + behind.length + 1 := by
    simp [hsplit, Nat.add_assoc]
  simp only [unconfirmAddressTxNode, wp_bind, wp_putAddressInfo, wp_assertion,
    wp_kvSet]
  refine ⟨fun _ => ⟨fun hidx => ?_, fun hidx => hE fun confirmed heq => hidx ?_⟩,
    fun hneg => absurd hneg (by rw [hlast]; omega)⟩
  · have hbehind : behind = [] := by
      rw [hlast, hlen] at hidx
      change (before.length : Int) - 1 = _ at hidx
      exact List.length_eq_zero_iff.mp (by omega)
    subst hbehind
    have hcached := s.cached_touch address
    refine wp_kvGet_of _ (fun addressTx hnode => ?_)
      (fun hnone => by cases hstored.node_append.symm.trans hnone)
    obtain rfl : entry = addressTx :=
      Option.some.inj (hstored.node_append.symm.trans hnode)
    refine ⟨⟨before, hsplit, ?_⟩, ?_⟩
    · constructor
      · simp only [ParserState.txView, ParserState.write_addrTx_indexOf,
          ParserState.put_indexOf]
        refine hstored.set (fun i => ?_) rfl
        simp [ParserState.write_addrTx_nodeOf, nodeAt]
      · refine txPart_eq_summary.mpr ?_
        rw [ParserState.write_addrTx_infoOf, ParserState.put_infoOf hcached]
        simp [TxZones.list, hsplit] at hcount hreceived hsent
        simp [TxZones.list, nodeAt, *]
        omega
      · exact fun e he => hv.confirmed_height e (by simp [hsplit, he])
      · intro e he
        rcases List.mem_cons.mp he with rfl | hold
        · rfl
        · exact hv.pending_height e hold
    · refine .write (.put ((Effects.refl s).touch address) hcached ⟨rfl, ?_⟩)
        (by rfl) _
      simp [AddressInfo.unspentPart]
  · -- the index of the entry's hash is its position in both splittings
    have hlist : z.list = confirmed ++ entry :: z.pending := by
      simp [TxZones.list, heq]
    have hindex := hstored.index_append
    rw [ParserState.touch_indexOf] at hindex
    have hpos := hindex.symm.trans (hlist ▸ hv.stored).index_append
    have hbefore : before.length = confirmed.length := by simpa using hpos
    rw [hlast, heq]
    simp [nodeAt, hbefore]

/-! ## Rejecting -/

theorem moveToLast_spec {confirmed pending : List AddressTx}
    {entry : AddressTx}
    (h : Stored AddressTx.txHash (s.nodeOf address) (s.indexOf address)
      (confirmed ++ pending))
    (hentry : entry ∈ pending) {rounds : Nat} (hrounds : 2 ≤ rounds) :
    wp (moveToLast address entry.txHash (confirmed ++ pending).length rounds)
      (fun node s' => node.balanceDiff = entry.balanceDiff ∧
        ∃ pending', pending.Perm (entry :: pending') ∧
          Stored AddressTx.txHash (s'.nodeOf address) (s'.indexOf address)
            (confirmed ++ pending' ++ [entry]) ∧
          (∀ other, s'.infoOf other = s.infoOf other) ∧
          AddrTxEffects address s s') E s := by
  obtain ⟨rounds, rfl⟩ : ∃ n, rounds = n + 2 := ⟨rounds - 2, by omega⟩
  obtain ⟨before, behind, rfl⟩ := List.append_of_mem hentry
  have hlist : confirmed ++ (before ++ entry :: behind) =
      confirmed ++ before ++ entry :: behind := by simp
  rw [hlist] at h ⊢
  unfold moveToLast
  refine wp_seq (getAddressTxNode_spec h) ?_
  rintro _ _ ⟨rfl, rfl⟩
  rcases List.eq_nil_or_concat' behind with rfl | ⟨between, last, rfl⟩
  · rw [if_pos (by simp [nodeAt]; omega)]
    exact ⟨rfl, before, List.perm_append_singleton .., h, fun _ => rfl, .refl _⟩
  · rw [if_neg (by simp [nodeAt]; omega)]
    have hlist' : confirmed ++ before ++ entry :: (between ++ [last]) =
        confirmed ++ before ++ entry :: between ++ last :: [] := by simp
    rw [hlist'] at h ⊢
    rw [wp_bind, wp_assertion]
    refine ⟨fun _ => ?_, fun hlt => absurd hlt (by simp; omega)⟩
    refine wp_seq (switchTxNode_spec h
      (.inr ⟨by simp; omega, by simp [nodeAt]⟩)) ?_
    rintro _ s' ⟨hstored, hinfo, heffects⟩
    unfold moveToLast
    refine wp_seq (getAddressTxNode_spec hstored) ?_
    rintro _ _ ⟨rfl, rfl⟩
    rw [if_pos (by simp [nodeAt]; omega)]
    refine ⟨rfl, before ++ last :: between, ?_, ?_, hinfo, heffects⟩
    · calc (before ++ entry :: (between ++ [last])).Perm
            (entry :: (before ++ (between ++ [last]))) := List.perm_middle
        _ |>.Perm (entry :: (before ++ last :: between)) :=
            ((List.perm_append_singleton ..).append_left before).cons entry
    · have hlist'' : confirmed ++ (before ++ last :: between) ++ [entry] =
          confirmed ++ before ++ last :: between ++ entry :: [] := by simp
      rw [hlist'']
      exact hstored

theorem rejectAddress_spec (hcfg : cfg.kMaxCacheCount = none)
    (hrounds : 2 ≤ cfg.swapRounds) {txLog2 : TxLog2}
    (hformat : ∀ hash, cfg.formatObject txLog2 address = .hex hash →
      hash = txLog2.txHash)
    {z : TxZones} (hv : (s.txView address).Holds z) {entry : AddressTx}
    (hentry : entry ∈ z.pending) (hhash : entry.txHash = txLog2.txHash) :
    wp (rejectAddress cfg txLog2 address) (fun _ s' =>
      (∃ pending', z.pending.Perm (entry :: pending') ∧
        (s'.txView address).Holds ⟨z.confirmed, pending'⟩) ∧
      AddrTxEffects address s s') E s := by
  obtain ⟨hcount, hreceived, hsent, hpending, hureceived, husent, hlast⟩ :=
    txPart_eq_summary.mp hv.info
  unfold rejectAddress
  rw [wp_bind, wp_getAddressInfo hcfg, ← hhash, hcount]
  have hstored : Stored AddressTx.txHash ((s.touch address).nodeOf address)
      ((s.touch address).indexOf address) (z.confirmed ++ z.pending) := by
    rw [ParserState.touch_nodeOf, ParserState.touch_indexOf]
    exact hv.stored
  refine wp_seq (moveToLast_spec hstored hentry hrounds) ?_
  rintro node s' ⟨hdiff, pending', hperm, hstored', hinfo, heffects⟩
  have hcached := heffects.cached (s.cached_touch address)
  have hsum : ∀ part, sumOf part z.pending =
      part entry.balanceDiff + sumOf part pending' := fun part => by
    rw [sumOf_perm part hperm, sumOf_cons]
  have hlength : z.pending.length = pending'.length + 1 := by
    simpa using hperm.length_eq
  have hidx : (z.list.length : Int) - 1 = (z.confirmed ++ pending').length := by
    simp [TxZones.list, hlength]
    omega
  simp only [removeAddressTxNode, wp_bind, wp_assertion, wp_kvDel,
    wp_putAddressInfo]
  refine ⟨fun _ => ⟨⟨pending', hperm, ?_⟩, ?_⟩,
    fun hne => absurd (by omega) hne⟩
  · constructor
    · simp only [ParserState.txView, ParserState.put_nodeOf,
        ParserState.put_indexOf, ParserState.write_addrTxIndex_nodeOf]
      refine hstored'.dropLast (fun i => ?_) (fun k hk => ?_)
      · rw [ParserState.write_addrTx_nodeOf, hidx]
      · unfold ParserState.indexOf
        rw [ParserState.write_kv_of_ne, ParserState.write_kv_of_ne _ _ (by simp)]
        intro hkey
        have htext : HashText.hex k = cfg.formatObject txLog2 address := by
          simpa using hkey
        exact hk (hhash ▸ hformat k htext.symm)
    · refine txPart_eq_summary.mpr ?_
      rw [ParserState.put_infoOf (by simpa using hcached)]
      simp only [TxZones.list, sumOf_append, hsum, List.length_append]
        at hcount hreceived hsent hpending hureceived husent
      simp [TxZones.list, *]
      omega
    · exact hv.confirmed_height
    · exact fun e he => hv.pending_height e (hperm.mem_iff.mpr (.tail _ he))
  · refine .put (.write (.write (.trans ((Effects.refl s).touch address) heffects)
      (by rfl) _) (by rfl) _) hcached ⟨rfl, ?_⟩
    simp [AddressInfo.unspentPart, hinfo]

end Specs

end ExplorerKV.Parser

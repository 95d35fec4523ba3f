import ExplorerKV.Foundation.SlotTable
import ExplorerKV.Parser.TxInv

/-!
# The unspent-output helpers as operations on views

`UtxoView.insert` and `UtxoView.remove` say what one insertion and one removal
do to the `23_` and `24_` records and to the two counters of an address.  Each
phase of accept and reject is a fold of these over a list of entries, computed
from the transaction; a removal whose `24_` record is absent is the exception
of `KVDB::get`.
-/

namespace ExplorerKV.Parser

open Bitcoin Foundation

def entryKey (entry : AddressUnspent) : Uint256 × Nat := (entry.txHash, entry.position)

namespace UtxoView

/-- `_acceptTx_insertAddressUnspent` -/
def insert (u : UtxoView) (address : Address) (entry : AddressUnspent) : UtxoView where
  spend := u.spend
  entry a i :=
    if a = address ∧ i = (u.part address).2 + 1 then some entry else u.entry a i
  index a hash position :=
    if a = address ∧ (hash, position) = entryKey entry then some ((u.part address).2 + 1)
    else u.index a hash position
  part a :=
    if a = address then ((u.part address).1 + 1, (u.part address).2 + 1) else u.part a

/-- The counter of an address goes down by `count`. -/
def debit (count : Int) (u : UtxoView) (address : Address) : UtxoView :=
  { u with part := fun a =>
      if a = address then ((u.part address).1 - count, (u.part address).2)
      else u.part a }

def erase (u : UtxoView) (address : Address) (index : Int) (hash : Uint256)
    (position : Nat) : UtxoView :=
  { u with
    entry := fun a i => if a = address ∧ i = index then none else u.entry a i
    index := fun a h n =>
      if a = address ∧ (h, n) = (hash, position) then none else u.index a h n }

/--
One round of a removing loop: the counter goes down by `count` and the two
records go.  `none` when there is no `24_` record.
-/
def remove (count : Int) (u : UtxoView) (address : Address) (hash : Uint256)
    (position : Nat) : Option UtxoView :=
  (u.index address hash position).map fun index =>
    (u.debit count address).erase address index hash position

def setSpend (u : UtxoView) (hash : Uint256) (position : Nat)
    (val : Option TxSpentBy) : UtxoView :=
  { u with spend := fun h n =>
      if (h, n) = (hash, position) then val else u.spend h n }

def insertAll (u : UtxoView) (entries : List (Address × AddressUnspent)) : UtxoView :=
  entries.foldl (fun u x => u.insert x.1 x.2) u

def removeAll (count : Int) (u : UtxoView)
    (keys : List (Address × Uint256 × Nat)) : Option UtxoView :=
  keys.foldlM (fun u x => u.remove count x.1 x.2.1 x.2.2) u

def table (u : UtxoView) (address : Address) : SlotTable (Uint256 × Nat) AddressUnspent where
  slot := u.entry address
  index k := u.index address k.1 k.2
  top := (u.part address).2
  count := (u.part address).1

end UtxoView

/-! ## The entries of a transaction -/

section Entries

variable (cfg : Config)

def addressEntries (value : Int) (addresses : List Address) (hash : Uint256)
    (position : Nat) : List (Address × AddressUnspent) :=
  addresses.zipIdx.map fun (address, position2) =>
    (address, ⟨value, hash, position, position2⟩)

def ownEntries (hash : Uint256) (vout : List CTxOut) : List (Address × AddressUnspent) :=
  vout.zipIdx.flatMap fun (out, n) =>
    addressEntries out.nValue (outputAddresses cfg out) hash n

def spentEntries (spent : List (COutPoint × TxOutput)) : List (Address × AddressUnspent) :=
  spent.flatMap fun (out, output) =>
    addressEntries output.value output.addresses out.hash out.n.toNat

def keysOf (entries : List (Address × AddressUnspent)) : List (Address × Uint256 × Nat) :=
  entries.map fun x => (x.1, entryKey x.2)

def spentKeys (spent : List (COutPoint × TxOutput)) : List (Address × Uint256 × Nat) :=
  spent.flatMap fun (out, output) => output.addresses.map fun a => (a, out.hash, out.n.toNat)

def ownKeys (hash : Uint256) (vout : List CTxOut) : List (Address × Uint256 × Nat) :=
  vout.zipIdx.flatMap fun (out, n) =>
    (outputAddresses cfg out).map fun a => (a, hash, n)

end Entries

namespace UtxoView

def spendAll (u : UtxoView) (hash : Uint256) (prevouts : List COutPoint) : UtxoView :=
  prevouts.zipIdx.foldl (fun u x =>
    u.setSpend x.1.hash x.1.n.toNat (some ⟨x.2, hash⟩)) u

def unspendAll (u : UtxoView) (spent : List (COutPoint × TxOutput)) : UtxoView :=
  spent.foldl (fun u x => (u.setSpend x.1.hash x.1.n.toNat none).insertAll
    (addressEntries x.2.value x.2.addresses x.1.hash x.1.n.toNat)) u

end UtxoView

section Refinement

variable (cfg : Config) (raw : RawTxs)

def spentOutputs (tx : CTransaction) : List (COutPoint × TxOutput) :=
  tx.prevouts.zip (prevOutputs cfg raw tx)

def acceptView (u : UtxoView) (hash : Uint256) : Option UtxoView :=
  ((u.insertAll (ownEntries cfg hash (raw hash).tx.vout)).removeAll 1
      (spentKeys (spentOutputs cfg raw (raw hash).tx))).map
    fun u => u.spendAll hash (raw hash).tx.prevouts

def rejectView (u : UtxoView) (hash : Uint256) : Option UtxoView :=
  (u.unspendAll (spentOutputs cfg raw (raw hash).tx)).removeAll 0
    (ownKeys cfg hash (raw hash).tx.vout)

end Refinement

/-! ## Writes and the view -/

namespace ParserState

variable (s : ParserState)

@[simp] theorem touch_utxoView (address : Address) :
    (s.touch address).utxoView = s.utxoView := by
  unfold utxoView
  simp only [touch_kv, touch_infoOf]

theorem write_txSpend_utxoView (hash : Uint256) (position : Nat)
    (val : Option TxSpentBy) :
    (s.write ⟨.txSpend hash position, val⟩).utxoView =
      s.utxoView.setSpend hash position val := by
  unfold utxoView UtxoView.setSpend
  simp only [UtxoView.mk.injEq]
  refine ⟨?_, ?_, ?_, ?_⟩
  · funext h n
    by_cases heq : (h, n) = (hash, position)
    · obtain ⟨rfl, rfl⟩ := Prod.mk.inj heq
      rw [if_pos rfl, write_kv_self]
    · rw [if_neg heq, write_kv_of_ne]
      rintro ⟨⟩
      exact heq rfl
  · funext a i
    exact s.write_kv_of_ne _ (by simp)
  · funext a h n
    exact s.write_kv_of_ne _ (by simp)
  · funext a
    rw [s.write_infoOf _ _ (by simp)]

theorem write_addrUnspent_utxoView (address : Address) (index : Int)
    (val : Option AddressUnspent) :
    (s.write ⟨.addrUnspent address index, val⟩).utxoView =
      { s.utxoView with entry := fun a i =>
          if a = address ∧ i = index then val else s.utxoView.entry a i } := by
  unfold utxoView
  simp only [UtxoView.mk.injEq]
  refine ⟨?_, ?_, ?_, ?_⟩
  · funext h n
    exact s.write_kv_of_ne _ (by simp)
  · funext a i
    by_cases heq : a = address ∧ i = index
    · obtain ⟨rfl, rfl⟩ := heq
      rw [if_pos ⟨rfl, rfl⟩, write_kv_self]
    · rw [if_neg heq, write_kv_of_ne]
      rintro ⟨⟩
      exact heq ⟨rfl, rfl⟩
  · funext a h n
    exact s.write_kv_of_ne _ (by simp)
  · funext a
    rw [s.write_infoOf _ _ (by simp)]

theorem write_addrUnspentIndex_utxoView (address : Address) (hash : Uint256)
    (position : Nat) (val : Option Int) :
    (s.write ⟨.addrUnspentIndex address hash position, val⟩).utxoView =
      { s.utxoView with index := fun a h n =>
          if a = address ∧ (h, n) = (hash, position) then val
          else s.utxoView.index a h n } := by
  unfold utxoView
  simp only [UtxoView.mk.injEq]
  refine ⟨?_, ?_, ?_, ?_⟩
  · funext h n
    exact s.write_kv_of_ne _ (by simp)
  · funext a i
    exact s.write_kv_of_ne _ (by simp)
  · funext a h n
    by_cases heq : a = address ∧ (h, n) = (hash, position)
    · obtain ⟨rfl, heq⟩ := heq
      obtain ⟨rfl, rfl⟩ := Prod.mk.inj heq
      rw [if_pos ⟨rfl, rfl⟩, write_kv_self]
    · rw [if_neg heq, write_kv_of_ne]
      rintro ⟨⟩
      exact heq ⟨rfl, rfl⟩
  · funext a
    rw [s.write_infoOf _ _ (by simp)]

theorem put_utxoView {address : Address} (hcached : (s.cachedInfo address).isSome)
    (info : AddressInfo) :
    (s.put address info).utxoView =
      { s.utxoView with part := fun a =>
          if a = address then info.unspentPart else s.utxoView.part a } := by
  unfold utxoView
  simp only [UtxoView.mk.injEq, put_kv, true_and]
  funext a
  rw [put_infoOf hcached]
  split <;> rfl

end ParserState

/-! ## The phases refine their folds -/

section Phases

variable {cfg : Config} {E : Fault → Prop} {s : ParserState}

theorem insertAddressUnspent_view (hcfg : cfg.kMaxCacheCount = none) (nValue : Int)
    (address : Address) (hash : Uint256) (position position2 : Nat) :
    wp (insertAddressUnspent cfg nValue address hash position position2)
      (fun _ s' => s'.utxoView =
        s.utxoView.insert address ⟨nValue, hash, position, position2⟩) E s := by
  simp only [insertAddressUnspent, wp_bind, wp_getAddressInfo hcfg,
    wp_putAddressInfo, wp_kvSet]
  rw [ParserState.write_addrUnspent_utxoView, ParserState.write_addrUnspentIndex_utxoView,
    ParserState.put_utxoView _ (s.cached_touch address), ParserState.touch_utxoView]
  rfl

private theorem insertOutput_view (hcfg : cfg.kMaxCacheCount = none) (nValue diff : Int)
    (addresses : List Address) (hash : Uint256) (position : Nat) (balance : BalanceMap) :
    wp (addresses.zipIdx.foldlM (fun balance (address, j) => do
        insertAddressUnspent cfg nValue address hash position j
        pure (balance.add address diff)) balance)
      (fun _ s' => s'.utxoView =
        s.utxoView.insertAll (addressEntries nValue addresses hash position)) E s := by
  refine wp_foldlM_zipIdx (fun done _ (s' : ParserState) => s'.utxoView =
    s.utxoView.insertAll (addressEntries nValue done hash position)) rfl ?_
  intro done address rest _ s' _ h
  refine wp_seq (insertAddressUnspent_view hcfg ..) fun _ s'' h' => ?_
  change s''.utxoView = _
  rw [h', h, addressEntries, addressEntries, List.zipIdx_append, List.map_append,
    UtxoView.insertAll, UtxoView.insertAll, List.foldl_append]
  simp

theorem acceptTxOutputs_view (hcfg : cfg.kMaxCacheCount = none) (txLog2 : TxLog2)
    (balance : BalanceMap) :
    wp (acceptTxOutputs cfg txLog2 balance) (fun _ s' => s'.utxoView =
      s.utxoView.insertAll (ownEntries cfg txLog2.txHash txLog2.tx.vout)) E s := by
  refine wp_foldlM_zipIdx (fun done _ (s' : ParserState) => s'.utxoView =
    s.utxoView.insertAll (ownEntries cfg txLog2.txHash done)) rfl ?_
  intro done out rest _ s' _ h
  refine wp_mono (insertOutput_view hcfg ..) (fun _ s'' h' => ?_) fun _ he => he
  rw [h', h, ownEntries, ownEntries, List.zipIdx_append, List.flatMap_append,
    UtxoView.insertAll, UtxoView.insertAll, UtxoView.insertAll, List.foldl_append]
  simp

theorem removeAll_append (count : Int) (u : UtxoView)
    (xs ys : List (Address × Uint256 × Nat)) :
    u.removeAll count (xs ++ ys) =
      (u.removeAll count xs).bind fun u => u.removeAll count ys :=
  List.foldlM_append

theorem keysOf_addressEntries (value : Int) (addresses : List Address) (hash : Uint256)
    (position : Nat) :
    keysOf (addressEntries value addresses hash position) =
      addresses.map fun a => (a, hash, position) := by
  unfold keysOf addressEntries
  rw [List.map_map]
  conv_rhs => rw [← List.zipIdx_map_fst 0 addresses, List.map_map]
  rfl

theorem debit_zero (u : UtxoView) (address : Address) : u.debit 0 address = u := by
  unfold UtxoView.debit
  have hpart : (fun a => if a = address then ((u.part address).1 - 0, (u.part address).2)
      else u.part a) = u.part := by
    funext a
    split
    · rename_i heq
      rw [heq, sub_zero]
    · rfl
  rw [hpart]

section Round

variable {count : Int} {u : UtxoView} {address : Address} {hash : Uint256}
  {position : Nat}

private theorem index_of_debit (hview : s.utxoView = u.debit count address) :
    u.index address hash position = s.kv (.addrUnspentIndex address hash position) := by
  change (u.debit count address).index address hash position = _
  rw [← hview]
  rfl

private theorem remove_eq_some (hview : s.utxoView = u.debit count address) {index : Int}
    (hsome : s.kv (.addrUnspentIndex address hash position) = some index) :
    u.remove count address hash position = some
      ((s.write ⟨.addrUnspent address index, none⟩).write
        ⟨.addrUnspentIndex address hash position, none⟩).utxoView := by
  rw [ParserState.write_addrUnspentIndex_utxoView,
    ParserState.write_addrUnspent_utxoView, hview]
  unfold UtxoView.remove
  rw [index_of_debit hview, hsome]
  rfl

private theorem remove_eq_none (hview : s.utxoView = u.debit count address)
    (hnone : s.kv (.addrUnspentIndex address hash position) = none) :
    u.remove count address hash position = none := by
  unfold UtxoView.remove
  rw [index_of_debit hview, hnone]
  rfl

end Round

theorem removeAll_eq_none {count : Int} {u v : UtxoView}
    {xs ys : List (Address × Uint256 × Nat)} {address : Address} {hash : Uint256}
    {position : Nat} (hdone : u.removeAll count xs = some v)
    (hnone : v.remove count address hash position = none) :
    u.removeAll count (xs ++ (address, hash, position) :: ys) = none := by
  rw [removeAll_append, hdone, Option.bind_some, UtxoView.removeAll, List.foldlM_cons,
    hnone]
  rfl

theorem removeAll_snoc {count : Int} {u v w : UtxoView}
    {xs : List (Address × Uint256 × Nat)} {address : Address} {hash : Uint256}
    {position : Nat} (hdone : u.removeAll count xs = some v)
    (hsome : v.remove count address hash position = some w) :
    u.removeAll count (xs ++ [(address, hash, position)]) = some w := by
  rw [removeAll_append, hdone, Option.bind_some, UtxoView.removeAll, List.foldlM_cons,
    hsome]
  rfl

theorem spentKeys_snoc (xs : List (COutPoint × TxOutput)) (out : COutPoint)
    (output : TxOutput) :
    spentKeys (xs ++ [(out, output)]) =
      spentKeys xs ++ output.addresses.map fun a => (a, out.hash, out.n.toNat) := by
  simp [spentKeys]

theorem removeUnspentOutputs_view (hcfg : cfg.kMaxCacheCount = none)
    {tx : CTransaction} {prevTxOutputs : List TxOutput}
    (hlength : prevTxOutputs.length = tx.vin.length)
    (hE : s.utxoView.removeAll 1
        (spentKeys ((tx.vin.map (·.prevout)).zip prevTxOutputs)) = none →
      ∀ a hash n, E (.notFoundKey (.addrUnspentIndex a hash n))) :
    wp (removeUnspentOutputs cfg tx prevTxOutputs) (fun _ s' =>
      s.utxoView.removeAll 1
        (spentKeys ((tx.vin.map (·.prevout)).zip prevTxOutputs)) = some s'.utxoView) E s := by
  have hzip : (tx.vin.map (·.prevout)).zip prevTxOutputs =
      (tx.vin.zip prevTxOutputs).map fun x => (x.1.prevout, x.2) := by
    rw [List.zip_map_left]
    rfl
  rw [hzip] at hE ⊢
  rw [removeUnspentOutputs, wp_bind, wp_assertion]
  refine ⟨fun _ => ?_, fun hne => absurd hlength hne⟩
  refine wp_forM (fun (done : List (CTxIn × TxOutput)) (s' : ParserState) =>
    s.utxoView.removeAll 1 (spentKeys (done.map fun x => (x.1.prevout, x.2))) =
      some s'.utxoView) rfl ?_
  rintro done ⟨input, output⟩ rest s1 hxs h1
  simp only [List.map_append, List.map_cons, List.map_nil, spentKeys_snoc]
  refine wp_forM (fun (done' : List Address) (s' : ParserState) =>
    s.utxoView.removeAll 1 (spentKeys (done.map fun x => (x.1.prevout, x.2)) ++
      done'.map fun a => (a, input.prevout.hash, input.prevout.n.toNat)) =
        some s'.utxoView) (by simpa using h1) ?_
  intro done' address rest' s2 hys h2
  simp only [wp_bind, wp_getAddressInfo hcfg, wp_putAddressInfo, wp_kvDel]
  have hview : ((s2.touch address).put address { s2.infoOf address with
      unspentTxCount := (s2.infoOf address).unspentTxCount - 1 }).utxoView =
      s2.utxoView.debit 1 address := by
    rw [ParserState.put_utxoView _ (s2.cached_touch address), ParserState.touch_utxoView]
    rfl
  refine wp_kvGet_of _ (fun index hsome => ?_) (fun hnone => hE ?_ ..)
  · rw [List.map_append, ← List.append_assoc]
    exact removeAll_snoc h2 (remove_eq_some hview hsome)
  · have hkeys : spentKeys ((tx.vin.zip prevTxOutputs).map fun x => (x.1.prevout, x.2)) =
        (spentKeys (done.map fun x => (x.1.prevout, x.2)) ++
          done'.map fun a => (a, input.prevout.hash, input.prevout.n.toNat)) ++
        (address, input.prevout.hash, input.prevout.n.toNat) ::
          ((rest'.map fun a => (a, input.prevout.hash, input.prevout.n.toNat)) ++
            spentKeys (rest.map fun x => (x.1.prevout, x.2))) := by
      have hys' : output.addresses = done' ++ address :: rest' := hys
      simp [hxs, spentKeys, hys']
    rw [hkeys]
    exact removeAll_eq_none h2 (remove_eq_none hview hnone)

theorem ownKeys_snoc (hash : Uint256) (vout : List CTxOut) (out : CTxOut) :
    ownKeys cfg hash (vout ++ [out]) = ownKeys cfg hash vout ++
      (outputAddresses cfg out).map fun a => (a, hash, vout.length) := by
  simp [ownKeys, List.zipIdx_append]

theorem rejectTxOutputs_view {txLog2 : TxLog2} (balance : BalanceMap)
    (hE : s.utxoView.removeAll 0 (ownKeys cfg txLog2.txHash txLog2.tx.vout) = none →
      ∀ a hash n, E (.notFoundKey (.addrUnspentIndex a hash n))) :
    wp (rejectTxOutputs cfg txLog2 balance) (fun _ s' =>
      s.utxoView.removeAll 0 (ownKeys cfg txLog2.txHash txLog2.tx.vout) =
        some s'.utxoView) E s := by
  refine wp_foldlM_zipIdx (fun (done : List CTxOut) _ (s' : ParserState) =>
    s.utxoView.removeAll 0 (ownKeys cfg txLog2.txHash done) = some s'.utxoView) rfl ?_
  intro done out rest _ s1 hxs h1
  rw [ownKeys_snoc]
  refine wp_foldlM (fun (done' : List Address) _ (s' : ParserState) =>
    s.utxoView.removeAll 0 (ownKeys cfg txLog2.txHash done ++
      done'.map fun a => (a, txLog2.txHash, done.length)) = some s'.utxoView)
    (by simpa using h1) ?_
  intro done' address rest' _ s2 hys h2
  simp only [wp_bind, wp_kvDel, wp_pure]
  have hview : s2.utxoView = s2.utxoView.debit 0 address := (debit_zero ..).symm
  refine wp_kvGet_of _ (fun index hsome => ?_) (fun hnone => hE ?_ ..)
  · rw [List.map_append, ← List.append_assoc]
    exact removeAll_snoc h2 (remove_eq_some hview hsome)
  · have hkeys : ownKeys cfg txLog2.txHash txLog2.tx.vout =
        (ownKeys cfg txLog2.txHash done ++
          done'.map fun a => (a, txLog2.txHash, done.length)) ++
        (address, txLog2.txHash, done.length) ::
          ((rest'.map fun a => (a, txLog2.txHash, done.length)) ++
            (rest.zipIdx (done.length + 1)).flatMap fun (out, n) =>
              (outputAddresses cfg out).map fun a => (a, txLog2.txHash, n)) := by
      simp [hxs, ownKeys, hys, List.zipIdx_append, List.zipIdx_cons]
    rw [hkeys]
    exact removeAll_eq_none h2 (remove_eq_none hview hnone)

theorem insertSpendTxs_view (hash : Uint256) (tx : CTransaction) :
    wp (insertSpendTxs hash tx) (fun _ s' => s'.utxoView =
      s.utxoView.spendAll hash (tx.vin.map (·.prevout))) E s := by
  have hzip : (tx.vin.map (·.prevout)).zipIdx =
      tx.vin.zipIdx.map fun x => (x.1.prevout, x.2) := by
    rw [List.zipIdx_map]
    rfl
  refine wp_mono (wp_forM (fun (done : List (CTxIn × Nat)) (s' : ParserState) =>
    s'.utxoView = (done.map fun x => (x.1.prevout, x.2)).foldl (fun u x =>
      u.setSpend x.1.hash x.1.n.toNat (some ⟨x.2, hash⟩)) s.utxoView) rfl ?_)
    (fun _ s' h => ?_) fun _ he => he
  · rintro done ⟨input, n⟩ rest s1 _ h
    rw [wp_kvSet, ParserState.write_txSpend_utxoView, h, List.map_append,
      List.foldl_append]
    rfl
  · rw [h, UtxoView.spendAll, hzip]

theorem acceptTxInputs_view (hcfg : cfg.kMaxCacheCount = none) {txLog2 : TxLog2}
    {prevTxOutputs : List TxOutput}
    (hlength : ¬txLog2.tx.isCoinBase →
      prevTxOutputs.length = txLog2.tx.vin.length)
    (hE : s.utxoView.removeAll 1 (spentKeys (txLog2.tx.prevouts.zip prevTxOutputs)) = none →
      ∀ a hash n, E (.notFoundKey (.addrUnspentIndex a hash n))) :
    wp (acceptTxInputs cfg txLog2 prevTxOutputs) (fun _ s' =>
      (s.utxoView.removeAll 1 (spentKeys (txLog2.tx.prevouts.zip prevTxOutputs))).map
        (fun u => u.spendAll txLog2.txHash txLog2.tx.prevouts) = some s'.utxoView) E s := by
  refine wp_ite (fun hcb => ?_) (fun hcb => ?_)
  · rw [CTransaction.prevouts_of_isCoinBase hcb]
    rfl
  · rw [CTransaction.prevouts_of_not_isCoinBase hcb] at hE ⊢
    refine wp_seq (removeUnspentOutputs_view hcfg (hlength hcb) hE) fun _ s1 h1 => ?_
    rw [h1, Option.map_some]
    refine wp_mono (insertSpendTxs_view ..) (fun _ s2 h2 => ?_) fun _ he => he
    rw [h2]

theorem rejectTxInputs_view (hcfg : cfg.kMaxCacheCount = none) {tx : CTransaction}
    {prevTxOutputs : List TxOutput} (balance : BalanceMap) :
    wp (rejectTxInputs cfg tx prevTxOutputs balance) (fun _ s' => s'.utxoView =
      s.utxoView.unspendAll (tx.prevouts.zip prevTxOutputs)) E s := by
  refine wp_ite (fun hcb => ?_) (fun hcb => ?_)
  · rw [CTransaction.prevouts_of_isCoinBase hcb]
    rfl
  · have hzip : tx.prevouts.zip prevTxOutputs =
        (tx.vin.zip prevTxOutputs).map fun x => (x.1.prevout, x.2) := by
      rw [CTransaction.prevouts_of_not_isCoinBase hcb, List.zip_map_left]
      rfl
    rw [hzip]
    refine wp_foldlM (fun (done : List (CTxIn × TxOutput)) _ (s' : ParserState) =>
      s'.utxoView = s.utxoView.unspendAll (done.map fun x => (x.1.prevout, x.2))) rfl ?_
    rintro done ⟨input, output⟩ rest balance s1 _ h
    simp only [wp_bind, wp_kvDel]
    refine wp_mono (insertOutput_view hcfg ..) (fun _ s2 h2 => ?_) fun _ he => he
    rw [h2, ParserState.write_txSpend_utxoView, h, List.map_append,
      UtxoView.unspendAll, UtxoView.unspendAll, List.foldl_append]
    rfl

end Phases

/-! ## The operations refine their view functions -/

section Operations

variable {cfg : Config} {raw : RawTxs} {p : Ledger} {s : ParserState}
  {row : TxLog2Row} {E : Fault → Prop}

theorem acceptTx_view (hcfg : cfg.kMaxCacheCount = none) (hinv : TxInv cfg raw p s)
    (hallowed : p.TxAllowed row) (htype : row.type = .txAccept)
    (hread : (∃ out ∈ (raw row.txHash).tx.prevouts,
      ¬PrevReadable cfg raw s.kv out) → E .undefinedBehaviour)
    (hrange : (raw row.txHash).tx.getValueOut = none → E .valueOutOfRange)
    (hkey : acceptView cfg raw s.utxoView row.txHash = none →
      ∀ a hash n, E (.notFoundKey (.addrUnspentIndex a hash n))) :
    wp (acceptTx cfg (fetchTxLog2 raw row)) (fun _ s' =>
      TxInv cfg raw (p.next row) s' ∧
      acceptView cfg raw s.utxoView row.txHash = some s'.utxoView) E s := by
  refine acceptTx_spec (fun u => u =
      s.utxoView.insertAll (ownEntries cfg row.txHash (raw row.txHash).tx.vout))
    (fun u => acceptView cfg raw s.utxoView row.txHash = some u)
    hcfg hinv hallowed htype (acceptTxOutputs_view hcfg _ _)
    (fun hreadable s1 h1 => ?_) hread hrange
  refine wp_mono (acceptTxInputs_view hcfg
    (fun hcb => length_prevOutputs hcb hreadable) fun hnone => hkey ?_)
    (fun _ s2 h2 => ?_) fun _ he => he
  · rw [h1] at hnone
    exact Option.map_eq_none_iff.mpr hnone
  · rw [h1] at h2
    exact h2

theorem rejectTx_view (hcfg : cfg.kMaxCacheCount = none)
    (hrounds : 2 ≤ cfg.swapRounds) (hformat : cfg.FormatsNoOtherHash)
    (hinv : TxInv cfg raw p s) (hallowed : p.TxAllowed row)
    (htype : row.type = .txReject)
    (hkey : rejectView cfg raw s.utxoView row.txHash = none →
      ∀ a hash n, E (.notFoundKey (.addrUnspentIndex a hash n))) :
    wp (rejectTx cfg (fetchTxLog2 raw row)) (fun _ s' =>
      TxInv cfg raw (p.next row) s' ∧
      rejectView cfg raw s.utxoView row.txHash = some s'.utxoView) E s := by
  refine rejectTx_spec (fun u => u =
      s.utxoView.unspendAll (spentOutputs cfg raw (raw row.txHash).tx))
    (fun u => rejectView cfg raw s.utxoView row.txHash = some u)
    hcfg hrounds (fun a hash => hformat _ a hash) hinv hallowed htype
    (rejectTxInputs_view hcfg []) fun s1 balance h1 => ?_
  refine wp_mono (rejectTxOutputs_view balance fun hnone => hkey ?_)
    (fun _ s2 h2 => ?_) fun _ he => he
  · rwa [h1] at hnone
  · rwa [h1] at h2

end Operations

end ExplorerKV.Parser

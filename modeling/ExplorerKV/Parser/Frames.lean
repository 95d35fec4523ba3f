import ExplorerKV.Foundation.Steps
import ExplorerKV.Parser.Operations
import ExplorerKV.Parser.Protocol

/-!
# How the operations act on the address lists

`SameOn K` relates two states whose records under the keys in `K` are equal.
Only four helpers write `21_` and `22_` records.  For a preorder that does not
look at other records, each operation moves along it as soon as the helpers it
calls do.
-/

namespace ExplorerKV.Parser

open Bitcoin Foundation

def SameOn (K : Key → Prop) (s s' : ParserState) : Prop :=
  ∀ key, K key → s'.kv key = s.kv key

instance (K : Key → Prop) : IsPreorder ParserState (SameOn K) where
  refl _ _ _ := rfl
  trans _ _ _ h h' key hkey := (h' key hkey).trans (h key hkey)

theorem SameOn.mono {K K' : Key → Prop} {s s' : ParserState} (h : SameOn K s s')
    (hK : ∀ key, K' key → K key) : SameOn K' s s' :=
  fun key hkey => h key (hK key hkey)

section Reads

variable {R : ParserState → ParserState → Prop} [IsPreorder ParserState R]

theorem assertion_steps (site : AssertSite) (c : Prop) [Decidable c] :
    Steps R (assertion site c) :=
  .ite (.pure _) (.throw _)

theorem kvGetMayNotExist_steps (key : Key) : Steps R (kvGetMayNotExist key) :=
  .bind .get fun _ => .pure _

theorem kvGet_steps (key : Key) : Steps R (kvGet key) := by
  apply Steps.bind (kvGetMayNotExist_steps key)
  intro val
  cases val with
  | some val => exact .pure val
  | none => exact .throw _

theorem kvGetUnchecked_steps (key : Key) : Steps R (kvGetUnchecked key) := by
  apply Steps.bind (kvGetMayNotExist_steps key)
  intro val
  cases val with
  | some val => exact .pure val
  | none => exact .throw _

theorem getPrevTxOutputs_steps (tx : CTransaction) : Steps R (getPrevTxOutputs tx) := by
  apply Steps.ite (.pure _)
  apply Steps.mapM
  intro input
  apply Steps.bind (kvGetUnchecked_steps _)
  intro prevTx
  cases prevTx.outputs[input.prevout.n.toNat]? with
  | some output => exact .pure output
  | none => exact .throw _

theorem getTxAddressBalance_steps (cfg : Config) (tx : CTransaction) :
    Steps R (getTxAddressBalance cfg tx) :=
  .bind (getPrevTxOutputs_steps tx) fun _ => .pure _

theorem getValueOut_steps (tx : CTransaction) : Steps R (getValueOut tx) := by
  unfold getValueOut
  cases tx.getValueOut with
  | some valueOut => exact .pure valueOut
  | none => exact .throw _

theorem confirmedFee_steps (cfg : Config) (txLog2 : TxLog2) (txObject : Tx) :
    Steps R (confirmedFee cfg txLog2 txObject) :=
  .ite (.bind (getValueOut_steps _) fun _ => .pure _) (.pure _)

theorem getAddressTxNode_steps (address : Address) (txhash : Uint256) :
    Steps R (getAddressTxNode address txhash) :=
  .bind (kvGet_steps _) fun _ => .bind (kvGet_steps _) fun _ => .pure _

end Reads

/-- The relation sees no write outside `K`, and nothing of the cache. -/
class Framed (K : outParam (Key → Prop)) (R : ParserState → ParserState → Prop) : Prop
    extends IsPreorder ParserState R where
  write : ∀ s (key : Key) (val : Option key.Val), ¬K key → R s (s.write ⟨key, val⟩)
  cache : ∀ (s : ParserState) cache lastUseIdx,
    R s { s with addrTxCache := cache, lastUseIdx := lastUseIdx }

instance (K : Key → Prop) : Framed K (SameOn K) where
  write s _ val hkey _ hk := s.write_kv_of_ne val fun heq => hkey (heq ▸ hk)
  cache _ _ _ _ _ := rfl

/-- Nothing has been written to the notification log. -/
def SameLog (s s' : ParserState) : Prop := s'.notifyLog = s.notifyLog

instance : Framed (fun _ => False) SameLog where
  refl _ := rfl
  trans _ _ _ h h' := h'.trans h
  write _ _ _ _ := rfl
  cache _ _ _ := rfl

section Writes

variable {R : ParserState → ParserState → Prop} {K : Key → Prop} [hframe : Framed K R]
  (cfg : Config)

theorem kvSet_same {key : Key} (hkey : ¬K key) (val : key.Val) : Steps R (kvSet key val) :=
  ⟨fun s => Framed.write s key (some val) hkey⟩

theorem kvDel_same {key : Key} (hkey : ¬K key) : Steps R (kvDel key) :=
  ⟨fun s => Framed.write s key none hkey⟩

include hframe

theorem putAddressInfo_same (address : Address) (info : AddressInfo) :
    Steps R (putAddressInfo address info) :=
  ⟨fun s => Framed.cache s _ s.lastUseIdx⟩

theorem getAddressInfo_same (address : Address) : Steps R (getAddressInfo cfg address) where
  run s := by
    simp only [getAddressInfo, wp_bind, wp_get]
    cases s.addrTxCache.lookup address with
    | some entry => exact Std.Refl.refl s
    | none =>
        simp only [wp_bind, wp_set]
        generalize evictCache _ _ _ = cache
        cases cache.lookup address with
        | some entry => exact Framed.cache s _ _
        | none => exact trivial

theorem insertAddressUnspent_same (hK : ∀ key : Key, key.OfUtxo → ¬K key) (nValue : Int)
    (address : Address) (hash : Uint256) (position position2 : Nat) :
    Steps R (insertAddressUnspent cfg nValue address hash position position2) :=
  .bind (getAddressInfo_same cfg address) fun _ =>
    .bind (putAddressInfo_same address _) fun _ =>
    .bind (kvSet_same (by exact hK _ trivial) _) fun _ => kvSet_same (by exact hK _ trivial) _

theorem acceptTxOutputs_same (hK : ∀ key : Key, key.OfUtxo → ¬K key) (txLog2 : TxLog2)
    (balance : BalanceMap) : Steps R (acceptTxOutputs cfg txLog2 balance) :=
  .foldlM (fun _ _ => .foldlM (fun _ _ =>
    .bind (insertAddressUnspent_same cfg hK _ _ _ _ _) fun _ => .pure _) _) _

theorem acceptTxInputs_same (hK : ∀ key : Key, key.OfUtxo → ¬K key) (txLog2 : TxLog2)
    (prevTxOutputs : List TxOutput) :
    Steps R (acceptTxInputs cfg txLog2 prevTxOutputs) := by
  apply Steps.ite (.pure _)
  apply Steps.bind
  · apply Steps.bind (assertion_steps _ _)
    intro _
    exact .forM fun _ => .forM fun _ => .bind (getAddressInfo_same cfg _) fun _ =>
      .bind (putAddressInfo_same _ _) fun _ => .bind (kvGet_steps _) fun _ =>
      .bind (kvDel_same (by exact hK _ trivial)) fun _ => kvDel_same (by exact hK _ trivial)
  · intro _
    exact .forM fun _ => kvSet_same (by exact hK _ trivial) _

theorem rejectTxInputs_same (hK : ∀ key : Key, key.OfUtxo → ¬K key) (tx : CTransaction)
    (prevTxOutputs : List TxOutput) (balance : BalanceMap) :
    Steps R (rejectTxInputs cfg tx prevTxOutputs balance) :=
  .ite (.pure _) (.foldlM (fun _ _ => .bind (kvDel_same (by exact hK _ trivial)) fun _ =>
    .foldlM (fun _ _ =>
      .bind (insertAddressUnspent_same cfg hK _ _ _ _ _) fun _ => .pure _) _) _)

theorem rejectTxOutputs_same (hK : ∀ key : Key, key.OfUtxo → ¬K key) (txLog2 : TxLog2)
    (balance : BalanceMap) : Steps R (rejectTxOutputs cfg txLog2 balance) :=
  .foldlM (fun _ _ => .foldlM (fun _ _ => .bind (kvGet_steps _) fun _ =>
    .bind (kvDel_same (by exact hK _ trivial)) fun _ =>
    .bind (kvDel_same (by exact hK _ trivial)) fun _ => .pure _) _) _

theorem flushAddressInfo_same (hK : ∀ a, ¬K (.addrObject a)) (balance : BalanceMap) :
    Steps R (flushAddressInfo cfg balance) :=
  .forM fun _ => .bind (getAddressInfo_same cfg _) fun _ => kvSet_same (hK _) _

theorem updateUnconfirmedTxPool_same (hcounters : ∀ (s : ParserState) count size,
      R s { s with unconfirmedTxsCount := count, unconfirmedTxsSize := size })
    (hcount : ¬K .unconfirmedTxsCount) (hsize : ¬K .unconfirmedTxsSize) (count size : Int) :
    Steps R (updateUnconfirmedTxPool count size) :=
  .bind ⟨fun s => hcounters s _ _⟩ fun _ => .bind .get fun _ =>
    .bind (kvSet_same hcount _) fun _ => kvSet_same hsize _

omit hframe

theorem writeNotificationLogs_same (balance : BalanceMap) (txLog2 : TxLog2) :
    Steps (SameOn K) (writeNotificationLogs cfg balance txLog2) :=
  ⟨fun _ => wp_mono (writeNotificationLogs_spec balance txLog2)
    (fun _ _ h key _ => congrFun h.1 key) fun _ he => he⟩

theorem tail_same (haddr : ∀ a, ¬K (.addrObject a)) (hcount : ¬K .unconfirmedTxsCount)
    (hsize : ¬K .unconfirmedTxsSize) (balance : BalanceMap) (txLog2 : TxLog2)
    (count size : Int) :
    Steps (SameOn K) (do
      flushAddressInfo cfg balance
      updateUnconfirmedTxPool count size
      writeNotificationLogs cfg balance txLog2) :=
  .bind (flushAddressInfo_same cfg haddr balance) fun _ =>
    .bind (R := SameOn K) (updateUnconfirmedTxPool_same (fun _ _ _ _ _ => rfl)
      hcount hsize count size) fun _ =>
    writeNotificationLogs_same cfg balance txLog2

end Writes

/-! ## The list helpers, for one address -/

section Lists

variable {K : Key → Prop} {R : ParserState → ParserState → Prop} [Framed K R] (cfg : Config)
  {txLog2 : TxLog2} {address : Address}
  (hK : ∀ key, Key.OfAddrTxOf address key → ¬K key)

include hK

theorem insertAddressTx_same (diff : Int) :
    Steps R (insertAddressTx cfg txLog2 address diff) :=
  .bind (getAddressInfo_same cfg address) fun _ =>
    .bind (kvSet_same (by exact hK _ rfl) _) fun _ =>
    .bind (kvSet_same (by exact hK _ rfl) _) fun _ => putAddressInfo_same address _

theorem switchTxNode_same (idx1 idx2 : Int) :
    Steps R (switchTxNode address idx1 idx2) :=
  .bind (kvGetUnchecked_steps _) fun _ => .bind (kvGetUnchecked_steps _) fun _ =>
    .bind (kvSet_same (by exact hK _ rfl) _) fun _ =>
    .bind (kvSet_same (by exact hK _ rfl) _) fun _ =>
    .bind (kvSet_same (by exact hK _ rfl) _) fun _ => kvSet_same (by exact hK _ rfl) _

theorem moveToConfirmed_same (hash : Uint256) (last : Int) (rounds : Nat) :
    Steps R (moveToConfirmed address hash last rounds) := by
  induction rounds with
  | zero => exact .throw _
  | succ rounds ih =>
      exact .bind (getAddressTxNode_steps _ _) fun _ =>
        .ite (.pure _) (.bind (switchTxNode_same hK _ _) fun _ => ih)

theorem confirmAddressTxNode_same (node : AddressTxNode) (addr : AddressInfo) :
    Steps R (confirmAddressTxNode address node addr) :=
  .bind (putAddressInfo_same address _) fun _ => .bind (kvGet_steps _) fun _ =>
    kvSet_same (by exact hK _ rfl) _

theorem unconfirmAddressTxNode_same (node : AddressTxNode) (addr : AddressInfo) :
    Steps R (unconfirmAddressTxNode address node addr) :=
  .bind (putAddressInfo_same address _) fun _ => .bind (assertion_steps _ _) fun _ =>
    .bind (assertion_steps _ _) fun _ => .bind (kvGet_steps _) fun _ =>
    kvSet_same (by exact hK _ rfl) _

theorem moveToLast_same (hash : Uint256) (count : Int) (rounds : Nat) :
    Steps R (moveToLast address hash count rounds) := by
  induction rounds with
  | zero => exact .throw _
  | succ rounds ih =>
      exact .bind (getAddressTxNode_steps _ _) fun _ => .ite (.pure _)
        (.bind (assertion_steps _ _) fun _ => .bind (switchTxNode_same hK _ _) fun _ => ih)

theorem removeAddressTxNode_same (idx balanceDiff : Int) (addr : AddressInfo) :
    Steps R (removeAddressTxNode cfg txLog2 address idx balanceDiff addr) :=
  .bind (assertion_steps _ _) fun _ => .bind (kvDel_same (by exact hK _ rfl)) fun _ =>
    .bind (kvDel_same (by exact hK _ rfl)) fun _ => putAddressInfo_same address _

theorem confirmAddress_same : Steps R (confirmAddress cfg txLog2 address) :=
  .bind (getAddressInfo_same cfg address) fun _ => .bind (moveToConfirmed_same hK _ _ _)
    fun _ => confirmAddressTxNode_same hK _ _

theorem unconfirmAddress_same : Steps R (unconfirmAddress cfg txLog2 address) :=
  .bind (getAddressInfo_same cfg address) fun _ => .bind (getAddressTxNode_steps _ _)
    fun _ => unconfirmAddressTxNode_same hK _ _

theorem rejectAddress_same : Steps R (rejectAddress cfg txLog2 address) :=
  .bind (getAddressInfo_same cfg address) fun _ => .bind (moveToLast_same hK _ _ _)
    fun _ => removeAddressTxNode_same cfg hK _ _ _

end Lists

/-! ## The operations -/

theorem kvSet_steps {R : ParserState → ParserState → Prop}
    (hR : ∀ s s', SameOn Key.OfAddrTx s s' → R s s') {key : Key} (hkey : ¬key.OfAddrTx)
    (val : key.Val) : Steps R (kvSet key val) :=
  (kvSet_same hkey val).mono hR

theorem kvDel_steps {R : ParserState → ParserState → Prop}
    (hR : ∀ s s', SameOn Key.OfAddrTx s s' → R s s') {key : Key} (hkey : ¬key.OfAddrTx) :
    Steps R (kvDel key) :=
  (kvDel_same hkey).mono hR

section Operations

variable (cfg : Config) {R : ParserState → ParserState → Prop} [IsPreorder ParserState R]
  (hR : ∀ s s', SameOn Key.OfAddrTx s s' → R s s')

include hR

theorem tail_steps (balance : BalanceMap) (txLog2 : TxLog2) (count size : Int) :
    Steps R (do
      flushAddressInfo cfg balance
      updateUnconfirmedTxPool count size
      writeNotificationLogs cfg balance txLog2) :=
  .bind ((flushAddressInfo_same cfg (fun _ => id) balance).mono hR) fun _ =>
    .bind ((updateUnconfirmedTxPool_same (fun _ _ _ _ _ => rfl)
      id id count size).mono hR) fun _ =>
    (writeNotificationLogs_same cfg balance txLog2).mono hR

theorem acceptTx_steps (txLog2 : TxLog2)
    (hinsert : ∀ address diff, Steps R (insertAddressTx cfg txLog2 address diff)) :
    Steps R (acceptTx cfg txLog2) := by
  have hutxo : ∀ key : Key, key.OfUtxo → ¬key.OfAddrTx := fun key h h' => by
    cases key <;> first | exact h | exact h'
  apply Steps.bind (assertion_steps _ _)
  intro _
  apply Steps.ite (.pure _)
  apply Steps.bind (getPrevTxOutputs_steps _)
  intro prevTxOutputs
  apply Steps.bind ((acceptTxOutputs_same cfg hutxo _ _).mono hR)
  intro addressBalance
  apply Steps.bind (getValueOut_steps _)
  intro valueOut
  apply Steps.bind (kvSet_steps hR id _)
  intro _
  apply Steps.bind ((acceptTxInputs_same cfg hutxo _ _).mono hR)
  intro _
  apply Steps.bind (.forM fun _ => hinsert _ _)
  intro _
  exact .bind (kvSet_steps hR id _) fun _ => tail_steps cfg hR _ _ _ _

theorem confirmTx_steps (txLog2 : TxLog2)
    (hswitch : ∀ address idx1 idx2, Steps R (switchTxNode address idx1 idx2))
    (hstamp : ∀ address node addr, Steps R (confirmAddressTxNode address node addr)) :
    Steps R (confirmTx cfg txLog2) := by
  have hmove : ∀ address txhash last rounds,
      Steps R (moveToConfirmed address txhash last rounds) := by
    intro address txhash last rounds
    induction rounds with
    | zero => exact .throw _
    | succ rounds ih =>
        exact .bind (getAddressTxNode_steps _ _) fun _ =>
          .ite (.pure _) (.bind (hswitch _ _ _) fun _ => ih)
  apply Steps.bind (getTxAddressBalance_steps _ _)
  intro addressBalance
  apply Steps.bind
  · exact .forM fun _ => .bind ((getAddressInfo_same cfg _).mono hR) fun _ =>
      .bind (hmove _ _ _ _) fun _ => hstamp _ _ _
  intro _
  apply Steps.bind (kvGet_steps _)
  intro txObject
  apply Steps.bind (confirmedFee_steps _ _ _)
  intro fee
  exact .bind (kvSet_steps hR id _) fun _ => .bind (kvDel_steps hR id) fun _ =>
    tail_steps cfg hR _ _ _ _

theorem unconfirmTx_steps (txLog2 : TxLog2)
    (hstamp : ∀ address node addr, Steps R (unconfirmAddressTxNode address node addr)) :
    Steps R (unconfirmTx cfg txLog2) := by
  apply Steps.bind (getTxAddressBalance_steps _ _)
  intro addressBalance
  apply Steps.bind
  · exact .forM fun _ => .bind ((getAddressInfo_same cfg _).mono hR) fun _ =>
      .bind (getAddressTxNode_steps _ _) fun _ => hstamp _ _ _
  intro _
  apply Steps.bind (kvGet_steps _)
  intro txObject
  exact .bind (kvSet_steps hR id _) fun _ => .bind (kvSet_steps hR id _) fun _ =>
    tail_steps cfg hR _ _ _ _

theorem rejectTx_steps (txLog2 : TxLog2)
    (hswitch : ∀ address idx1 idx2, Steps R (switchTxNode address idx1 idx2))
    (hremove : ∀ address idx diff addr,
      Steps R (removeAddressTxNode cfg txLog2 address idx diff addr)) :
    Steps R (rejectTx cfg txLog2) := by
  have hutxo : ∀ key : Key, key.OfUtxo → ¬key.OfAddrTx := fun key h h' => by
    cases key <;> first | exact h | exact h'
  have hmove : ∀ address txhash count rounds,
      Steps R (moveToLast address txhash count rounds) := by
    intro address txhash count rounds
    induction rounds with
    | zero => exact .throw _
    | succ rounds ih =>
        exact .bind (getAddressTxNode_steps _ _) fun _ => .ite (.pure _)
          (.bind (assertion_steps _ _) fun _ => .bind (hswitch _ _ _) fun _ => ih)
  apply Steps.bind (getPrevTxOutputs_steps _)
  intro prevTxOutputs
  apply Steps.bind ((rejectTxInputs_same cfg hutxo _ _ _).mono hR)
  intro addressBalance
  apply Steps.bind ((rejectTxOutputs_same cfg hutxo _ _).mono hR)
  intro addressBalance
  apply Steps.bind (kvGet_steps _)
  intro txObject
  apply Steps.bind (kvSet_steps hR id _)
  intro _
  apply Steps.bind (kvDel_steps hR id)
  intro _
  apply Steps.bind
  · exact .forM fun _ => .bind ((getAddressInfo_same cfg _).mono hR) fun _ =>
      .bind (hmove _ _ _ _) fun _ => hremove _ _ _ _
  intro _
  exact tail_steps cfg hR _ _ _ _

end Operations

end ExplorerKV.Parser

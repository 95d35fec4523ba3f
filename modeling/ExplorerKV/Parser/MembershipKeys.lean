import ExplorerKV.Parser.AddressLists
import ExplorerKV.Parser.Frames

/-!
# The membership keys

A `22_` key should exist exactly for the transactions on the address's list.
All operations spell it with the transaction's hash, except the removal of a
rejected transaction, which passes the hash object itself for `%s`.  The proof
follows one address and one hash: either the hash is not on the list, and then
no operation writes its key, or the list invariant places the key.
-/

namespace ExplorerKV.Parser

open Bitcoin Foundation

namespace ParserState

/-- No `21_` record of the address names the transaction. -/
def Unlisted (s : ParserState) (address : Address) (hash : Uint256) : Prop :=
  ∀ i (x : AddressTx), s.kv (.addrTx address i) = some x → x.txHash ≠ hash

/-- The value under the `22_` key of an address and a transaction. -/
def memberKey (s : ParserState) (address : Address) (hash : Uint256) : Option Int :=
  s.kv (.addrTxIndex address (.hex hash))

variable {s : ParserState} {address other : Address} {hash : Uint256}

theorem Unlisted.write_of_ne (h : s.Unlisted address hash) {key : Key}
    (hkey : ∀ i, .addrTx address i ≠ key) (val : Option key.Val) :
    (s.write ⟨key, val⟩).Unlisted address hash := by
  intro i x hx
  rw [write_kv_of_ne _ _ (hkey i)] at hx
  exact h i x hx

theorem Unlisted.write (h : s.Unlisted address hash) (i : Int) {val : Option AddressTx}
    (hval : ∀ x, val = some x → x.txHash ≠ hash) :
    (s.write ⟨.addrTx other i, val⟩).Unlisted address hash := by
  intro j x hx
  by_cases hkey : Key.addrTx address j = .addrTx other i
  · obtain ⟨rfl, rfl⟩ := Key.addrTx.inj hkey
    rw [write_kv_self] at hx
    exact hval x hx
  · rw [write_kv_of_ne _ _ hkey] at hx
    exact h j x hx

theorem Unlisted.put (h : s.Unlisted address hash) (info : AddressInfo) :
    (s.put other info).Unlisted address hash := h

theorem memberKey_write_of_ne {key : Key} (hkey : .addrTxIndex address (.hex hash) ≠ key)
    (val : Option key.Val) :
    (s.write ⟨key, val⟩).memberKey address hash = s.memberKey address hash :=
  s.write_kv_of_ne val hkey

end ParserState

section Predicates

variable (address : Address) (hash : Uint256)

def Absent (value : Option Int) (s : ParserState) : Prop :=
  s.Unlisted address hash ∧ s.memberKey address hash = value

def KeyOfListed (s : ParserState) : Prop :=
  s.memberKey address hash = none ∨ ¬s.Unlisted address hash

def KeyExists (s : ParserState) : Prop := (s.memberKey address hash).isSome

variable {address hash}

theorem unlisted_congr {s s' : ParserState} (h : SameOn (Key.OfAddrTxOf address) s s') :
    s'.Unlisted address hash ↔ s.Unlisted address hash :=
  forall_congr' fun i => forall_congr' fun x => by rw [h (.addrTx address i) rfl]

theorem memberKey_congr {s s' : ParserState} (h : SameOn (Key.OfAddrTxOf address) s s') :
    s'.memberKey address hash = s.memberKey address hash :=
  h (.addrTxIndex address (.hex hash)) rfl

theorem absent_of_same {value : Option Int} (s s' : ParserState)
    (h : SameOn (Key.OfAddrTxOf address) s s') :
    Kept (Absent address hash value) s s' := fun habsent =>
  ⟨(unlisted_congr h).mpr habsent.1, (memberKey_congr h).trans habsent.2⟩

theorem keyOfListed_of_same (s s' : ParserState)
    (h : SameOn (Key.OfAddrTxOf address) s s') :
    Kept (KeyOfListed address hash) s s' := fun hkey =>
  hkey.imp (memberKey_congr h).trans fun hlisted h' =>
    hlisted ((unlisted_congr h).mp h')

theorem keyExists_of_same (s s' : ParserState)
    (h : SameOn (Key.OfAddrTxOf address) s s') :
    Kept (KeyExists address hash) s s' := fun hkey => by
  rw [KeyExists, memberKey_congr h]
  exact hkey

end Predicates

theorem not_ofAddrTxOf {address other : Address} (hne : other ≠ address) (key : Key)
    (h : Key.OfAddrTxOf other key) : ¬Key.OfAddrTxOf address key := by
  cases key <;> first | exact id | exact fun h' => hne (h.symm.trans h')

/-! ## The helpers on the address itself -/

section Self

variable {cfg : Config} {txLog2 : TxLog2} {address : Address} {hash : Uint256}
  {value : Option Int} {s : ParserState}

theorem insertAddressTx_absent (hne : txLog2.txHash ≠ hash) (balanceDiff : Int) :
    Steps (Kept (Absent address hash value))
      (insertAddressTx cfg txLog2 address balanceDiff) := by
  apply Steps.bind ((getAddressInfo_same cfg address).mono absent_of_same)
  intro addr
  constructor
  intro s
  simp only [wp_bind, wp_kvSet, wp_putAddressInfo]
  rintro ⟨hunlisted, hvalue⟩
  refine ⟨?_, ?_⟩
  · apply ParserState.Unlisted.put
    apply ParserState.Unlisted.write_of_ne _ (by simp)
    apply hunlisted.write
    intro x hx
    cases hx
    exact hne
  · rw [← hvalue]
    exact (ParserState.memberKey_write_of_ne (by simpa using hne.symm) _).trans
      (ParserState.memberKey_write_of_ne (by simp) _)

theorem insertAddressTx_keyOfListed (balanceDiff : Int) :
    Steps (Kept (KeyOfListed address txLog2.txHash))
      (insertAddressTx cfg txLog2 address balanceDiff) := by
  apply Steps.bind ((getAddressInfo_same cfg address).mono keyOfListed_of_same)
  intro addr
  constructor
  intro s
  simp only [wp_bind, wp_kvSet, wp_putAddressInfo]
  intro _
  refine .inr fun h => h addr.txCount
    ⟨balanceDiff, txLog2.txHash, -1, txLog2.maxBlkTimestamp⟩ ?_ rfl
  rw [ParserState.put_kv, ParserState.write_kv_of_ne _ _ (by simp),
    ParserState.write_kv_self]

theorem wp_switchTxNode_of {idx1 idx2 : Int} {Q : Unit → ParserState → Prop}
    (h : ∀ x y, s.kv (.addrTx address idx1) = some x →
      s.kv (.addrTx address idx2) = some y →
      Q () ((((s.write ⟨.addrTx address idx1, some y⟩).write
        ⟨.addrTx address idx2, some x⟩).write
        ⟨.addrTxIndex address (.hex x.txHash), some idx2⟩).write
        ⟨.addrTxIndex address (.hex y.txHash), some idx1⟩)) :
    wp (switchTxNode address idx1 idx2) Q (fun _ => True) s := by
  rw [switchTxNode, wp_bind]
  apply wp_kvGetUnchecked_of _ _ fun _ => trivial
  intro x hx
  rw [wp_bind]
  apply wp_kvGetUnchecked_of _ _ fun _ => trivial
  intro y hy
  exact h x y hx hy

theorem switchTxNode_absent (idx1 idx2 : Int) :
    Steps (Kept (Absent address hash value)) (switchTxNode address idx1 idx2) where
  run s := by
    apply wp_switchTxNode_of
    rintro x y hx hy ⟨hunlisted, hvalue⟩
    have hxne := hunlisted idx1 x hx
    have hyne := hunlisted idx2 y hy
    refine ⟨?_, ?_⟩
    · apply ParserState.Unlisted.write_of_ne _ (by simp)
      apply ParserState.Unlisted.write_of_ne _ (by simp)
      apply ParserState.Unlisted.write _ _ fun z hz => Option.some.inj hz ▸ hxne
      exact hunlisted.write _ fun z hz => Option.some.inj hz ▸ hyne
    · rw [ParserState.memberKey_write_of_ne (by simpa using hyne.symm),
        ParserState.memberKey_write_of_ne (by simpa using hxne.symm),
        ParserState.memberKey_write_of_ne (by simp),
        ParserState.memberKey_write_of_ne (by simp), hvalue]

theorem switchTxNode_keyExists (idx1 idx2 : Int) :
    Steps (Kept (KeyExists address hash)) (switchTxNode address idx1 idx2) where
  run s := by
    apply wp_switchTxNode_of
    intro x y _ _ hkey
    have hwrite : ∀ (s : ParserState) (h : Uint256) (i : Int), KeyExists address hash s →
        KeyExists address hash (s.write ⟨.addrTxIndex address (.hex h), some i⟩) := by
      intro s h i hkey
      by_cases heq : h = hash
      · rw [KeyExists, ParserState.memberKey, heq, ParserState.write_kv_self]
        rfl
      · rw [KeyExists, ParserState.memberKey_write_of_ne (by simpa using Ne.symm heq)]
        exact hkey
    apply hwrite
    apply hwrite
    rw [KeyExists, ParserState.memberKey_write_of_ne (by simp),
      ParserState.memberKey_write_of_ne (by simp)]
    exact hkey

theorem switchTxNode_keyOfListed (idx1 idx2 : Int) :
    Steps (Kept (KeyOfListed address hash)) (switchTxNode address idx1 idx2) where
  run s := by
    apply wp_switchTxNode_of
    intro x y hx hy hkey
    by_cases hxhash : x.txHash = hash
    · refine .inr fun h => h idx2 x ?_ hxhash
      rw [ParserState.write_kv_of_ne _ _ (by simp), ParserState.write_kv_of_ne _ _ (by simp),
        ParserState.write_kv_self]
    by_cases hyhash : y.txHash = hash
    · have hne : idx1 ≠ idx2 := by
        rintro rfl
        cases hx.symm.trans hy
        exact hxhash hyhash
      refine .inr fun h => h idx1 y ?_ hyhash
      rw [ParserState.write_kv_of_ne _ _ (by simp), ParserState.write_kv_of_ne _ _ (by simp),
        ParserState.write_kv_of_ne _ _ (by simpa using hne), ParserState.write_kv_self]
    -- neither record is about the transaction, so its own record stays
    rcases hkey with hnone | hlisted
    · left
      rw [ParserState.memberKey_write_of_ne (by simpa using Ne.symm hyhash),
        ParserState.memberKey_write_of_ne (by simpa using Ne.symm hxhash),
        ParserState.memberKey_write_of_ne (by simp),
        ParserState.memberKey_write_of_ne (by simp), hnone]
    · refine .inr fun h => hlisted fun i z hz hzhash => ?_
      have h1 : i ≠ idx1 := by
        rintro rfl
        cases hx.symm.trans hz
        exact hxhash hzhash
      have h2 : i ≠ idx2 := by
        rintro rfl
        cases hy.symm.trans hz
        exact hyhash hzhash
      refine h i z ?_ hzhash
      rw [ParserState.write_kv_of_ne _ _ (by simp), ParserState.write_kv_of_ne _ _ (by simp),
        ParserState.write_kv_of_ne _ _ (by simpa using h2),
        ParserState.write_kv_of_ne _ _ (by simpa using h1), hz]

theorem wp_stamp_absent (idx : Int) (stamp : AddressTx → AddressTx)
    (hstamp : ∀ x, (stamp x).txHash = x.txHash) :
    Steps (Kept (Absent address hash value)) (do
      let addressTx ← kvGet (.addrTx address idx)
      kvSet (.addrTx address idx) (stamp addressTx)) where
  run s := by
    rw [wp_bind]
    apply wp_kvGet_of _ _ fun _ => trivial
    rintro x hx ⟨hunlisted, hvalue⟩
    refine ⟨hunlisted.write _ fun z hz => ?_, ?_⟩
    · rw [← Option.some.inj hz, hstamp]
      exact hunlisted idx x hx
    · rw [← hvalue]
      exact ParserState.memberKey_write_of_ne (by simp) _

theorem confirmAddressTxNode_absent (node : AddressTxNode) (addr : AddressInfo) :
    Steps (Kept (Absent address hash value)) (confirmAddressTxNode address node addr) :=
  .bind ((putAddressInfo_same address _).mono absent_of_same) fun _ =>
    wp_stamp_absent node.idx (fun x =>
      { x with txBlockTime := node.txBlockTime, txHeight := node.txHeight }) fun _ => rfl

theorem unconfirmAddressTxNode_absent (node : AddressTxNode) (addr : AddressInfo) :
    Steps (Kept (Absent address hash value)) (unconfirmAddressTxNode address node addr) :=
  .bind ((putAddressInfo_same address _).mono absent_of_same) fun _ =>
    .bind (assertion_steps _ _) fun _ => .bind (assertion_steps _ _) fun _ =>
    wp_stamp_absent node.idx (fun x =>
      { x with txBlockTime := 0, txHeight := -1 }) fun _ => rfl

theorem removeAddressTxNode_absent
    (hformat : cfg.formatObject txLog2 address ≠ .hex hash) (idx balanceDiff : Int)
    (addr : AddressInfo) :
    Steps (Kept (Absent address hash value))
      (removeAddressTxNode cfg txLog2 address idx balanceDiff addr) := by
  apply Steps.bind (assertion_steps _ _)
  intro _
  constructor
  intro s
  simp only [wp_bind, wp_kvDel, wp_putAddressInfo]
  rintro ⟨hunlisted, hvalue⟩
  refine ⟨?_, ?_⟩
  · apply ParserState.Unlisted.put
    apply ParserState.Unlisted.write_of_ne _ (by simp)
    apply hunlisted.write
    intro x hx
    cases hx
  · rw [← hvalue]
    exact (ParserState.memberKey_write_of_ne (by simpa using hformat.symm) _).trans
      (ParserState.memberKey_write_of_ne (by simp) _)

theorem removeAddressTxNode_keyExists
    (hformat : cfg.formatObject txLog2 address ≠ .hex hash) (idx balanceDiff : Int)
    (addr : AddressInfo) :
    Steps (Kept (KeyExists address hash))
      (removeAddressTxNode cfg txLog2 address idx balanceDiff addr) := by
  apply Steps.bind (assertion_steps _ _)
  intro _
  constructor
  intro s hkey
  have hsame : ((s.write ⟨.addrTx address idx, none⟩).write
      ⟨.addrTxIndex address (cfg.formatObject txLog2 address), none⟩).memberKey address
        hash = s.memberKey address hash :=
    (ParserState.memberKey_write_of_ne (by simpa using hformat.symm) _).trans
      (ParserState.memberKey_write_of_ne (by simp) _)
  rwa [KeyExists, ← hsame] at hkey

theorem removeAddressTxNode_keyOfListed
    (hformat : cfg.formatObject txLog2 address = .hex hash) (idx balanceDiff : Int)
    (addr : AddressInfo) :
    Steps (Kept (KeyOfListed address hash))
      (removeAddressTxNode cfg txLog2 address idx balanceDiff addr) := by
  apply Steps.bind (assertion_steps _ _)
  intro _
  constructor
  intro s _
  left
  rw [hformat]
  exact ParserState.write_kv_self ..

end Self

/-! ## The operations, for one address -/

section Operations

variable {cfg : Config} {txLog2 : TxLog2} {address : Address}
  {R : ParserState → ParserState → Prop}

theorem sameOn_of_addrTx {s s' : ParserState} (h : SameOn Key.OfAddrTx s s') :
    SameOn (Key.OfAddrTxOf address) s s' := fun key hkey =>
  h key (by cases key <;> trivial)

variable (hR : ∀ s s', SameOn (Key.OfAddrTxOf address) s s' → R s s')

include hR

theorem steps_cases {α : Type} {m : Address → ParserM α}
    (hother : ∀ other, other ≠ address → Steps (SameOn (Key.OfAddrTxOf address)) (m other))
    (hself : Steps R (m address)) (other : Address) : Steps R (m other) := by
  by_cases heq : other = address
  · exact heq ▸ hself
  · exact (hother other heq).mono hR

variable [IsPreorder ParserState R]

theorem acceptTx_steps_at
    (hinsert : ∀ diff, Steps R (insertAddressTx cfg txLog2 address diff)) :
    Steps R (acceptTx cfg txLog2) :=
  acceptTx_steps cfg (fun s s' h => hR s s' (sameOn_of_addrTx h)) txLog2
    fun other diff => steps_cases hR
      (fun _ hne => insertAddressTx_same cfg (not_ofAddrTxOf hne) diff) (hinsert diff) other

theorem confirmTx_steps_at
    (hswitch : ∀ idx1 idx2, Steps R (switchTxNode address idx1 idx2))
    (hstamp : ∀ node addr, Steps R (confirmAddressTxNode address node addr)) :
    Steps R (confirmTx cfg txLog2) :=
  confirmTx_steps cfg (fun s s' h => hR s s' (sameOn_of_addrTx h)) txLog2
    (fun other i j => steps_cases hR (fun _ hne => switchTxNode_same (not_ofAddrTxOf hne) i j)
      (hswitch i j) other)
    fun other node addr => steps_cases hR
      (fun _ hne => confirmAddressTxNode_same (not_ofAddrTxOf hne) node addr)
      (hstamp node addr) other

theorem unconfirmTx_steps_at
    (hstamp : ∀ node addr, Steps R (unconfirmAddressTxNode address node addr)) :
    Steps R (unconfirmTx cfg txLog2) :=
  unconfirmTx_steps cfg (fun s s' h => hR s s' (sameOn_of_addrTx h)) txLog2
    fun other node addr => steps_cases hR
      (fun _ hne => unconfirmAddressTxNode_same (not_ofAddrTxOf hne) node addr)
      (hstamp node addr) other

theorem rejectTx_steps_at
    (hswitch : ∀ idx1 idx2, Steps R (switchTxNode address idx1 idx2))
    (hremove : ∀ idx diff addr,
      Steps R (removeAddressTxNode cfg txLog2 address idx diff addr)) :
    Steps R (rejectTx cfg txLog2) :=
  rejectTx_steps cfg (fun s s' h => hR s s' (sameOn_of_addrTx h)) txLog2
    (fun other i j => steps_cases hR (fun _ hne => switchTxNode_same (not_ofAddrTxOf hne) i j)
      (hswitch i j) other)
    fun other idx diff addr => steps_cases hR
      (fun _ hne => removeAddressTxNode_same cfg (not_ofAddrTxOf hne) idx diff addr)
      (hremove idx diff addr) other

end Operations

section Rows

variable {cfg : Config} {raw : RawTxs} {row : TxLog2Row} {address : Address}
  {hash : Uint256} {value : Option Int}

/--
What is not listed stays so, and its key as it is: under an accept of another
transaction, any status change, and a reject that spells the key of another hash.
-/
theorem applyRow_absent (haccept : row.type = .txAccept → row.txHash ≠ hash)
    (hreject : row.type = .txReject →
      cfg.formatObject (fetchTxLog2 raw row) address ≠ .hex hash) :
    Steps (Kept (Absent address hash value)) (applyRow cfg raw row) := by
  unfold applyRow applyTxLog2
  cases htype : row.type with
  | txAccept =>
      simp only [fetchTxLog2, htype]
      exact acceptTx_steps_at absent_of_same fun diff =>
        insertAddressTx_absent (haccept htype) diff
  | txConfirm =>
      simp only [fetchTxLog2, htype]
      exact confirmTx_steps_at absent_of_same switchTxNode_absent
        confirmAddressTxNode_absent
  | txUnconfirm =>
      simp only [fetchTxLog2, htype]
      exact unconfirmTx_steps_at absent_of_same unconfirmAddressTxNode_absent
  | txReject =>
      have hformat := hreject htype
      simp only [fetchTxLog2, htype] at hformat ⊢
      exact rejectTx_steps_at absent_of_same switchTxNode_absent
        (removeAddressTxNode_absent hformat)

theorem acceptTx_keyOfListed (txLog2 : TxLog2) :
    Steps (Kept (KeyOfListed address txLog2.txHash)) (acceptTx cfg txLog2) :=
  acceptTx_steps_at keyOfListed_of_same insertAddressTx_keyOfListed

theorem rejectTx_keyOfListed {txLog2 : TxLog2}
    (hformat : cfg.formatObject txLog2 address = .hex hash) :
    Steps (Kept (KeyOfListed address hash)) (rejectTx cfg txLog2) :=
  rejectTx_steps_at keyOfListed_of_same switchTxNode_keyOfListed
    (removeAddressTxNode_keyOfListed hformat)

theorem rejectTx_keyExists {txLog2 : TxLog2}
    (hformat : cfg.formatObject txLog2 address ≠ .hex hash) :
    Steps (Kept (KeyExists address hash)) (rejectTx cfg txLog2) :=
  rejectTx_steps_at keyExists_of_same switchTxNode_keyExists
    (removeAddressTxNode_keyExists hformat)

end Rows

/-! ## Runs -/

def lastRow (rows : List TxLog2Row) (hash : Uint256) : Option TxLog2Row :=
  (rows.filter (·.txHash = hash)).getLast?

/--
The `22_` key of a transaction is there after a run: the transaction touches the
address, and the latest row about it is no reject that spelled this very key.
-/
def KeyLeft (cfg : Config) (raw : RawTxs) (rows : List TxLog2Row) (address : Address)
    (hash : Uint256) : Prop :=
  Touches cfg raw hash address ∧ ∃ row, lastRow rows hash = some row ∧
    (row.type = .txReject → cfg.formatObject (fetchTxLog2 raw row) address ≠ .hex hash)

theorem lastRow_append (rows : List TxLog2Row) (row : TxLog2Row) (hash : Uint256) :
    lastRow (rows ++ [row]) hash =
      if hash = row.txHash then some row else lastRow rows hash := by
  unfold lastRow
  by_cases heq : hash = row.txHash
  · simp [heq]
  · simp [heq, Ne.symm heq]

theorem Ledger.live_after_iff (rows : List TxLog2Row) (hash : Uint256) :
    (Ledger.after rows).Live hash ↔
      ∃ row, lastRow rows hash = some row ∧ row.type ≠ .txReject := by
  induction rows using List.reverseRecOn with
  | nil => simp [after, empty, Live, lastRow]
  | append_singleton rows row ih =>
      have hnext : Ledger.after (rows ++ [row]) = (Ledger.after rows).next row := by
        simp [after]
      rw [hnext, next_live, lastRow_append]
      by_cases heq : hash = row.txHash
      · simp [heq]
      · simp [heq, ih]

section Runs

variable {cfg : Config} {raw : RawTxs} {p : Ledger} {s s' : ParserState}
  {row : TxLog2Row} {rows : List TxLog2Row} {address : Address} {hash : Uint256}

theorem TxInv.unlisted_iff (hinv : TxInv cfg raw p s) :
    s.Unlisted address hash ↔ ¬(p.Live hash ∧ Touches cfg raw hash address) := by
  obtain ⟨z, hz, hconfirmed, hpending, -⟩ := hinv.lists address
  have hmem : hash ∈ z.list.map AddressTx.txHash ↔
      p.Live hash ∧ Touches cfg raw hash address := by
    rw [TxZones.list, List.map_append, List.mem_append, hconfirmed,
      mem_confirmedOf hinv.ledger, List.mem_map, hpending, PendingOf, ← or_and_right,
      Ledger.Live]
    cases p.status hash <;> simp
  rw [← hmem, List.mem_map]
  constructor
  · rintro h ⟨x, hx, rfl⟩
    obtain ⟨n, hn⟩ := List.mem_iff_getElem?.mp hx
    exact h n x ((hz.stored.node_natCast n).trans hn) rfl
  · intro h i x hx hhash
    have hrange := (hz.stored.isSome_iff i).mp (by
      change (s.kv (.addrTx address i)).isSome
      rw [hx]
      rfl)
    obtain ⟨n, rfl⟩ := Int.eq_ofNat_of_zero_le hrange.1
    exact h ⟨x, List.mem_of_getElem? ((hz.stored.node_natCast n).symm.trans hx), hhash⟩

theorem TxInv.keyExists (hinv : TxInv cfg raw p s)
    (h : p.Live hash ∧ Touches cfg raw hash address) : KeyExists address hash s := by
  have hlisted : ¬s.Unlisted address hash := fun h' => hinv.unlisted_iff.mp h' h
  simp only [ParserState.Unlisted, not_forall, not_not] at hlisted
  obtain ⟨i, x, hx, rfl⟩ := hlisted
  rw [KeyExists, ParserState.memberKey, (hinv.addressList address).index i x hx]
  rfl

theorem keyLeft_append : KeyLeft cfg raw (rows ++ [row]) address hash ↔
    if hash = row.txHash then Touches cfg raw hash address ∧ (row.type = .txReject →
      cfg.formatObject (fetchTxLog2 raw row) address ≠ .hex hash)
    else KeyLeft cfg raw rows address hash := by
  rw [KeyLeft, lastRow_append]
  by_cases heq : hash = row.txHash
  · simp [heq]
  · simp [heq, KeyLeft]

theorem applyRow_keyExists_of_ne (hformat : cfg.FormatsNoOtherHash)
    (hne : hash ≠ row.txHash) (hrun : applyRow cfg raw row s = .ok ((), s'))
    (hunlisted : s.Unlisted address hash) : KeyExists address hash s' ↔
      KeyExists address hash s := by
  have habsent := (applyRow_absent (fun _ => hne.symm)
    fun _ heq => hne (hformat _ address hash heq)).of_run hrun ⟨hunlisted, rfl⟩
  rw [KeyExists, habsent.2, KeyExists]

theorem applyRow_no_key (hinv' : TxInv cfg raw (p.next row) s')
    (htouches : ¬Touches cfg raw row.txHash address)
    (hrun : applyRow cfg raw row s = .ok ((), s'))
    (hnone : Absent address row.txHash none s) : ¬KeyExists address row.txHash s' := by
  have hunlisted' : s'.Unlisted address row.txHash :=
    hinv'.unlisted_iff.mpr fun h => htouches h.2
  have hgone : KeyOfListed address row.txHash s' → ¬KeyExists address row.txHash s' := by
    rintro (h | h)
    · simp [KeyExists, h]
    · exact absurd hunlisted' h
  unfold applyRow applyTxLog2 at hrun
  by_cases hformat : row.type = .txReject →
      cfg.formatObject (fetchTxLog2 raw row) address ≠ .hex row.txHash
  · cases htype : row.type with
    | txAccept =>
        simp only [fetchTxLog2, htype] at hrun
        exact hgone ((acceptTx_keyOfListed _).of_run hrun (.inl hnone.2))
    | txConfirm | txUnconfirm | txReject =>
        have habsent := (applyRow_absent (fun h => by cases htype.symm.trans h)
          hformat).of_run hrun hnone
        simp [KeyExists, habsent.2]
  · obtain ⟨htype, hformat⟩ := Classical.not_imp.mp hformat
    simp only [fetchTxLog2, htype] at hrun hformat
    exact hgone ((rejectTx_keyOfListed (not_not.mp hformat)).of_run hrun (.inl hnone.2))

theorem applyRow_reject_key (hinv : TxInv cfg raw p s)
    (hinv' : TxInv cfg raw (p.next row) s') (htype : row.type = .txReject)
    (hlive : p.Live row.txHash) (htouches : Touches cfg raw row.txHash address)
    (hrun : applyRow cfg raw row s = .ok ((), s')) :
    KeyExists address row.txHash s' ↔
      cfg.formatObject (fetchTxLog2 raw row) address ≠ .hex row.txHash := by
  unfold applyRow applyTxLog2 at hrun
  simp only [fetchTxLog2, htype] at hrun ⊢
  constructor
  · intro hkey heq
    rcases (rejectTx_keyOfListed heq).of_run hrun
      (.inr fun h => hinv.unlisted_iff.mp h ⟨hlive, htouches⟩) with h | h
    · simp [KeyExists, h] at hkey
    · refine h (hinv'.unlisted_iff.mpr fun h' => ?_)
      simpa [Ledger.next_live, htype] using h'.1
  · intro hne
    exact (rejectTx_keyExists hne).of_run hrun (hinv.keyExists ⟨hlive, htouches⟩)

theorem applyRow_keyLeft (hformat : cfg.FormatsNoOtherHash)
    (hallowed : (Ledger.after rows).TxAllowed row) (hinv : TxInv cfg raw (.after rows) s)
    (hinv' : TxInv cfg raw ((Ledger.after rows).next row) s')
    (hrun : applyRow cfg raw row s = .ok ((), s'))
    (hkey : KeyExists address hash s ↔ KeyLeft cfg raw rows address hash) :
    KeyExists address hash s' ↔ KeyLeft cfg raw (rows ++ [row]) address hash := by
  rw [keyLeft_append]
  by_cases heq : hash = row.txHash
  · rw [if_pos heq]
    subst heq
    by_cases htouches : Touches cfg raw row.txHash address
    · by_cases htype : row.type = .txReject
      · have hlive : (Ledger.after rows).Live row.txHash := by
          simp [Ledger.Live, hallowed.status, htype, Log2Type.statusBefore]
        rw [applyRow_reject_key hinv hinv' htype hlive htouches hrun]
        simp [htouches, htype]
      · refine iff_of_true (hinv'.keyExists ⟨?_, htouches⟩)
          ⟨htouches, fun h => absurd h htype⟩
        simpa [Ledger.next_live] using htype
    · refine iff_of_false (applyRow_no_key hinv' htouches hrun ⟨?_, ?_⟩)
        fun h => htouches h.1
      · exact hinv.unlisted_iff.mpr fun h => htouches h.2
      · have hno : ¬KeyExists address row.txHash s := fun h => htouches (hkey.mp h).1
        simpa [KeyExists] using hno
  · rw [if_neg heq, ← hkey]
    by_cases hlisted : (Ledger.after rows).Live hash ∧ Touches cfg raw hash address
    · refine iff_of_true (hinv'.keyExists ⟨?_, hlisted.2⟩) (hinv.keyExists hlisted)
      rw [Ledger.next_live, if_neg heq]
      exact hlisted.1
    · exact applyRow_keyExists_of_ne hformat heq hrun (hinv.unlisted_iff.mpr hlisted)

theorem applyRows_keyLeft (raw : RawTxs) (hcfg : cfg.kMaxCacheCount = none)
    (hrounds : 2 ≤ cfg.swapRounds) (hformat : cfg.FormatsNoOtherHash)
    (hrows : ObeysAutomaton rows) :
    wp (applyRows cfg raw rows) (fun _ s => TxInv cfg raw (.after rows) s ∧
      ∀ address hash, KeyExists address hash s ↔ KeyLeft cfg raw rows address hash)
      (fun _ => True) .initial := by
  induction rows using List.reverseRecOn with
  | nil =>
      refine ⟨txInv_initial, fun address hash => iff_of_false (by simp [KeyExists,
        ParserState.memberKey, ParserState.initial, ParserState.start, KVDB.empty]) ?_⟩
      rintro ⟨-, row, hrow, -⟩
      cases hrow
  | append_singleton rows row ih =>
      obtain ⟨hearlier, hallowed, -⟩ := (along_append ..).mp hrows
      have happend : applyRows cfg raw (rows ++ [row]) =
          (do applyRows cfg raw rows; applyRows cfg raw [row]) := List.forM_append
      rw [happend]
      refine wp_seq (ih hearlier) ?_
      rintro _ s ⟨hinv, hkeys⟩
      have hafter : Ledger.after (rows ++ [row]) = (Ledger.after rows).next row := by
        simp [Ledger.after]
      rw [hafter, applyRows, List.forM_cons]
      have hstep : wp (applyRow cfg raw row) (fun _ s' =>
          TxInv cfg raw ((Ledger.after rows).next row) s' ∧ ∀ address hash,
            KeyExists address hash s' ↔ KeyLeft cfg raw (rows ++ [row]) address hash)
          (fun _ => True) s := by
        apply wp_iff.mpr ⟨fun _ s' hrun => ?_, fun _ _ => trivial⟩
        have hinv' := wp_of_ok (applyRow_txInv hcfg hrounds hformat hallowed hinv) hrun
        exact ⟨hinv', fun address hash =>
          applyRow_keyLeft hformat hallowed hinv hinv' hrun (hkeys address hash)⟩
      exact wp_seq hstep fun _ _ h => h

end Runs

/-! ## Exactness -/

/-- The `22_` key of a transaction exists exactly when a `21_` record lists it. -/
def MembershipExact (s : ParserState) (address : Address) (hash : Uint256) : Prop :=
  (s.kv (.addrTxIndex address (.hex hash))).isSome ↔
    ∃ (idx : Int) (x : AddressTx), idx < (s.infoOf address).txCount ∧
      s.kv (.addrTx address idx) = some x ∧ x.txHash = hash

theorem TxInv.listed_iff {cfg : Config} {raw : RawTxs} {p : Ledger} {s : ParserState}
    (hinv : TxInv cfg raw p s) (address : Address) (hash : Uint256) :
    (∃ (idx : Int) (x : AddressTx), idx < (s.infoOf address).txCount ∧
      s.kv (.addrTx address idx) = some x ∧ x.txHash = hash) ↔
      p.Live hash ∧ Touches cfg raw hash address := by
  rw [← not_iff_not, ← hinv.unlisted_iff]
  constructor
  · intro h i x hx hhash
    have hrange := ((hinv.addressList address).positions i).mp (by rw [hx]; rfl)
    exact h ⟨i, x, hrange.2, hx, hhash⟩
  · rintro h ⟨i, x, -, hx, hhash⟩
    exact h i x hx hhash

/--
After every run that obeys the automaton: the membership key of a transaction is
exact if and only if the latest row about it is no reject, or the transaction
does not touch the address, or `%s` made the key's own text of the hash object.
-/
theorem membershipKey_exact_iff (cfg : Config) (raw : RawTxs) (rows : List TxLog2Row)
    (hcfg : cfg.kMaxCacheCount = none) (hrounds : 2 ≤ cfg.swapRounds)
    (hformat : cfg.FormatsNoOtherHash) (hrows : ObeysAutomaton rows) {s : ParserState}
    (hs : runRows cfg raw rows = .ok ((), s)) (address : Address) (hash : Uint256) :
    MembershipExact s address hash ↔
      ∀ row, lastRow rows hash = some row → row.type = .txReject →
        Touches cfg raw hash address →
        cfg.formatObject (fetchTxLog2 raw row) address = .hex hash := by
  obtain ⟨hinv, hkeys⟩ := wp_of_ok (applyRows_keyLeft raw hcfg hrounds hformat hrows) hs
  have hkey : (s.kv (.addrTxIndex address (.hex hash))).isSome ↔
      KeyLeft cfg raw rows address hash := hkeys address hash
  rw [MembershipExact, hkey, hinv.listed_iff, Ledger.live_after_iff]
  constructor
  · intro h row hrow htype htouches
    by_contra hne
    obtain ⟨⟨row', hrow', htype'⟩, -⟩ := h.mp ⟨htouches, row, hrow, fun _ => hne⟩
    rw [hrow] at hrow'
    cases hrow'
    exact htype' htype
  · intro h
    constructor
    · rintro ⟨htouches, row, hrow, hne⟩
      exact ⟨⟨row, hrow, fun htype => hne htype (h row hrow htype htouches)⟩, htouches⟩
    · rintro ⟨⟨row, hrow, htype⟩, htouches⟩
      exact ⟨htouches, row, hrow, fun hreject => absurd hreject htype⟩

theorem membershipKey_exact_iff_example :
    ∃ s, runRows exampleConfig exampleRaw exampleRows = .ok ((), s) ∧
      (MembershipExact s (exampleConfig.addressToString (.keyID (List.replicate 20 65))) 8 ↔
        ∀ row, lastRow exampleRows 8 = some row → row.type = .txReject →
          Touches exampleConfig exampleRaw 8
            (exampleConfig.addressToString (.keyID (List.replicate 20 65))) →
          exampleConfig.formatObject (fetchTxLog2 exampleRaw row)
            (exampleConfig.addressToString (.keyID (List.replicate 20 65))) = .hex 8) := by
  obtain ⟨s, hs⟩ := exists_of_isOk exampleRows_isOk
  exact ⟨s, hs, membershipKey_exact_iff exampleConfig exampleRaw exampleRows rfl
    (by decide) (fun _ _ _ h => by cases h) (ObeysLifo.automaton (by decide)) hs _ _⟩

/-- A rejected transaction keeps its membership key. -/
theorem membershipKey_stale_after_reject :
    ObeysLifo exampleRows ∧
    ∃ s, runRows exampleConfig exampleRaw exampleRows = .ok ((), s) ∧
      ¬MembershipExact s
        (exampleConfig.addressToString (.keyID (List.replicate 20 65))) 8 := by
  have hrows : ObeysLifo exampleRows := by decide
  refine ⟨hrows, ?_⟩
  obtain ⟨s, hs⟩ := exists_of_isOk exampleRows_isOk
  obtain ⟨hinv, hkeys⟩ := wp_of_ok (applyRows_keyLeft exampleRaw rfl (by decide)
    (fun _ _ _ h => by cases h) hrows.automaton) hs
  refine ⟨s, hs, fun h => ?_⟩
  have hleft : KeyLeft exampleConfig exampleRaw exampleRows
      (exampleConfig.addressToString (.keyID (List.replicate 20 65))) 8 :=
    ⟨by decide +kernel, _, rfl, fun _ h => by cases h⟩
  obtain ⟨hlive, -⟩ := (hinv.listed_iff _ 8).mp (h.mp ((hkeys _ 8).mpr hleft))
  exact hlive (by decide)

end ExplorerKV.Parser

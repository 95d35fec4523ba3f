import ExplorerKV.Parser.Operations

/-!
# The invariant of the transaction records

`TxInv cfg raw p s` ties the store and the cache to the ledger `p` of the rows
handled so far.  There is one lemma for each operation; their parameters are
assertions about the unspent outputs and the faults the operation may end in.
-/

namespace ExplorerKV.Parser

open Bitcoin Foundation

def confirmedOf (cfg : Config) (raw : RawTxs) (p : Ledger) (address : Address) :
    List Uint256 :=
  p.confirmed.reverse.filter fun hash => Touches cfg raw hash address

/-- The pending transactions that touch an address. -/
def PendingOf (cfg : Config) (raw : RawTxs) (p : Ledger) (address : Address)
    (hash : Uint256) : Prop :=
  p.status hash = .unconfirmed ∧ Touches cfg raw hash address

/-- The view of an address holds the transactions that touch it. -/
def Listed (cfg : Config) (raw : RawTxs) (p : Ledger) (address : Address)
    (v : TxView) : Prop :=
  v.Lists (confirmedOf cfg raw p address) (PendingOf cfg raw p address)
    fun hash diff => (address, diff) ∈ txBalance cfg raw hash

structure TxInv (cfg : Config) (raw : RawTxs) (p : Ledger) (s : ParserState) :
    Prop where
  ledger : p.WellFormed
  objects : Objects cfg raw s.kv
  live : ∀ hash, p.Live hash → (s.kv (.txObject hash)).isSome ∧
    ∀ out ∈ (raw hash).tx.prevouts, PrevReadable cfg raw s.kv out
  lists : ∀ address, Listed cfg raw p address (s.txView address)
  clean : ∀ address, ParserState.storedInfo s.kv address = s.infoOf address

section Ledger

variable {cfg : Config} {raw : RawTxs} {p : Ledger} {row : TxLog2Row}

theorem confirmedOf_nodup (hp : p.WellFormed) (address : Address) :
    (confirmedOf cfg raw p address).Nodup :=
  (List.nodup_reverse.mpr hp.nodup).filter _

theorem mem_confirmedOf (hp : p.WellFormed) (address : Address) (hash : Uint256) :
    hash ∈ confirmedOf cfg raw p address ↔
      p.status hash = .confirmed ∧ Touches cfg raw hash address := by
  simp [confirmedOf, hp.mem_iff]

theorem pendingOf_next (address : Address) (hash : Uint256) :
    PendingOf cfg raw (p.next row) address hash ↔
      if hash = row.txHash then
        row.type.statusAfter = .unconfirmed ∧ Touches cfg raw hash address
      else PendingOf cfg raw p address hash := by
  unfold PendingOf
  rw [Ledger.next_status]
  split <;> rfl

theorem confirmedOf_next_eq (htype : row.type = .txAccept ∨ row.type = .txReject)
    (address : Address) :
    confirmedOf cfg raw (p.next row) address = confirmedOf cfg raw p address := by
  rcases htype with h | h <;> simp [confirmedOf, Ledger.next, h]

theorem confirmedOf_next_confirm (htype : row.type = .txConfirm)
    (address : Address) :
    confirmedOf cfg raw (p.next row) address =
      confirmedOf cfg raw p address ++
        if Touches cfg raw row.txHash address then [row.txHash] else [] := by
  simp [confirmedOf, Ledger.next, htype, List.filter_cons]

theorem confirmedOf_next_unconfirm (hp : p.WellFormed)
    (htype : row.type = .txUnconfirm) (address : Address) :
    confirmedOf cfg raw (p.next row) address =
      (confirmedOf cfg raw p address).filter (· ≠ row.txHash) := by
  simp only [confirmedOf, Ledger.next, htype]
  rw [hp.nodup.erase_eq_filter, ← List.filter_reverse, List.filter_filter,
    List.filter_filter]
  congr 1
  funext hash
  by_cases heq : hash = row.txHash <;> simp [heq]

theorem Listed.next_of_not_touches {address : Address} {v : TxView}
    (h : Listed cfg raw p address v) (hp : p.WellFormed)
    (htouches : ¬Touches cfg raw row.txHash address) :
    Listed cfg raw (p.next row) address v := by
  refine h.congr ?_ fun hash => ?_
  · cases htype : row.type with
    | txAccept => rw [confirmedOf_next_eq (.inl htype)]
    | txConfirm => rw [confirmedOf_next_confirm htype, if_neg htouches, List.append_nil]
    | txUnconfirm =>
        rw [confirmedOf_next_unconfirm hp htype, List.filter_eq_self.mpr]
        intro hash hmem
        simp only [ne_eq, decide_not, Bool.not_eq_true', decide_eq_false_iff_not]
        rintro rfl
        exact htouches ((mem_confirmedOf hp ..).mp hmem).2
    | txReject => rw [confirmedOf_next_eq (.inr htype)]
  · rw [pendingOf_next]
    split
    · rename_i heq
      simp [PendingOf, heq, htouches]
    · rfl

section Touched

variable {address : Address} {v : TxView}
  {rest : List Uint256} {pending : Uint256 → Prop}

theorem Listed.next_of_pending (hafter : row.type.statusAfter = .unconfirmed)
    (htouches : Touches cfg raw row.txHash address)
    (hrest : rest = confirmedOf cfg raw (p.next row) address)
    (h : v.Lists rest (fun hash => PendingOf cfg raw p address hash ∨
      hash = row.txHash) fun hash diff => (address, diff) ∈ txBalance cfg raw hash) :
    Listed cfg raw (p.next row) address v := by
  refine h.congr hrest fun hash => ?_
  rw [pendingOf_next]
  by_cases heq : hash = row.txHash
  · simp [heq, hafter, htouches]
  · simp [heq]

theorem Listed.next_of_not_pending (hafter : row.type.statusAfter ≠ .unconfirmed)
    (hrest : rest = confirmedOf cfg raw (p.next row) address)
    (h : v.Lists rest (fun hash => PendingOf cfg raw p address hash ∧
      hash ≠ row.txHash) fun hash diff => (address, diff) ∈ txBalance cfg raw hash) :
    Listed cfg raw (p.next row) address v := by
  refine h.congr hrest fun hash => ?_
  rw [pendingOf_next]
  by_cases heq : hash = row.txHash
  · simp [heq, hafter]
  · simp [heq]

end Touched

end Ledger

section Steps

variable {cfg : Config} {raw : RawTxs} {p : Ledger} {s s' s'' : ParserState}
  {row : TxLog2Row} {E : Fault → Prop}

theorem PrevReadable.of_objects {kv kv' : KVDB} {out : COutPoint}
    (h : PrevReadable cfg raw kv out)
    (hkv : ∀ hash, (kv (.txObject hash)).isSome → (kv' (.txObject hash)).isSome) :
    PrevReadable cfg raw kv' out :=
  ⟨hkv _ h.1, h.2⟩

theorem TxInv.objects_next (hinv : TxInv cfg raw p s) {txObject : Tx}
    (houtputs : txObject.outputs = txObjectOutputs cfg (raw row.txHash).tx)
    (hkv : ∀ hash, s'.kv (.txObject hash) =
      if hash = row.txHash then some txObject else s.kv (.txObject hash))
    (hread : ∀ out ∈ (raw row.txHash).tx.prevouts, PrevReadable cfg raw s.kv out) :
    Objects cfg raw s'.kv ∧ ∀ hash, (p.next row).Live hash →
      (s'.kv (.txObject hash)).isSome ∧
        ∀ out ∈ (raw hash).tx.prevouts, PrevReadable cfg raw s'.kv out := by
  have hkeep : ∀ hash, (s.kv (.txObject hash)).isSome →
      (s'.kv (.txObject hash)).isSome := by
    intro hash h
    rw [hkv]
    split
    · rfl
    · exact h
  refine ⟨⟨fun hash rec hrec => ?_⟩, fun hash hlive => ?_⟩
  · rw [hkv] at hrec
    split at hrec
    · rename_i heq
      rw [← Option.some.inj hrec, heq, houtputs]
    · exact hinv.objects.outputs hash rec hrec
  · rw [Ledger.next_live] at hlive
    by_cases heq : hash = row.txHash
    · rw [heq]
      exact ⟨by simp [hkv], fun out hout => (hread out hout).of_objects hkeep⟩
    · rw [if_neg heq] at hlive
      obtain ⟨hsome, hprev⟩ := hinv.live hash hlive
      exact ⟨hkeep hash hsome, fun out hout => (hprev out hout).of_objects hkeep⟩

/-- After the flush the `20_` records agree with the cache again. -/
theorem clean_of_flush {D : Address → Prop} (hclean : ∀ a,
      ParserState.storedInfo s.kv a = s.infoOf a)
    (houtside : Outside D s s') (htail : Keeps (Key.OfTail D) s' s'')
    (hflush : ∀ a, D a → s''.kv (.addrObject a) = some (s'.infoOf a))
    (address : Address) :
    ParserState.storedInfo s''.kv address = s''.infoOf address := by
  unfold ParserState.storedInfo
  rw [htail.info]
  by_cases ha : D address
  · rw [hflush address ha]
    rfl
  · rw [htail.kv (.addrObject address) ha, (houtside address ha).1, (houtside address ha).2]
    exact hclean address

theorem txView_of_tail {D : Address → Prop} (h : Keeps (Key.OfTail D) s s')
    (address : Address) : s'.txView address = s.txView address :=
  h.txView_eq (fun key hkey => by cases key <;> first | exact id | exact hkey.elim)
    address

theorem utxoView_of_tail {D : Address → Prop} (h : Keeps (Key.OfTail D) s s') :
    s'.utxoView = s.utxoView :=
  h.utxoView_eq fun key hkey => by cases key <;> first | exact id | exact hkey.elim

theorem listed_of_loop
    (htouched : ∀ a d, (a, d) ∈ txBalance cfg raw row.txHash →
      Listed cfg raw (p.next row) a (s'.txView a))
    (huntouched : ∀ a, a ∉ (txBalance cfg raw row.txHash).keys →
      s'.txView a = s.txView a)
    (hp : p.WellFormed) (hlists : ∀ a, Listed cfg raw p a (s.txView a))
    (address : Address) : Listed cfg raw (p.next row) address (s'.txView address) := by
  by_cases ha : Touches cfg raw row.txHash address
  · obtain ⟨⟨_, d⟩, hmem, rfl⟩ := List.mem_map.mp ha
    exact htouched _ d hmem
  · rw [huntouched address ha]
    exact (hlists address).next_of_not_touches hp ha

theorem TxInv.of_tail (hinv : TxInv cfg raw p s) (hallowed : p.TxAllowed row)
    {txObject : Tx} (houtputs : txObject.outputs = txObjectOutputs cfg (raw row.txHash).tx)
    (hkv : ∀ hash, s'.kv (.txObject hash) =
      if hash = row.txHash then some txObject else s.kv (.txObject hash))
    (hread : ∀ out ∈ (raw row.txHash).tx.prevouts, PrevReadable cfg raw s.kv out)
    (houtside : Outside (Touches cfg raw row.txHash) s s')
    (hlists : ∀ a, Listed cfg raw (p.next row) a (s'.txView a))
    (htail : Keeps (Key.OfTail (Touches cfg raw row.txHash)) s' s'')
    (hflush : ∀ a, Touches cfg raw row.txHash a →
      s''.kv (.addrObject a) = some (s'.infoOf a)) :
    TxInv cfg raw (p.next row) s'' := by
  obtain ⟨hobj, hlive⟩ := hinv.objects_next houtputs
    (fun hash => (htail.kv _ id).trans (hkv hash)) hread
  exact ⟨hinv.ledger.next hallowed, hobj, hlive,
    fun a => by rw [txView_of_tail htail]; exact hlists a,
    clean_of_flush hinv.clean houtside htail hflush⟩

theorem touches_of_prevOutputs {output : TxOutput}
    (houtput : output ∈ prevOutputs cfg raw (raw row.txHash).tx)
    {address : Address} (haddress : address ∈ output.addresses) :
    Touches cfg raw row.txHash address :=
  (touches_iff ..).mpr (.inr ⟨output, houtput, haddress⟩)

theorem touches_of_vout {out : CTxOut} (hout : out ∈ (raw row.txHash).tx.vout)
    {address : Address} (haddress : address ∈ outputAddresses cfg out) :
    Touches cfg raw row.txHash address :=
  (touches_iff ..).mpr (.inl ⟨out, hout, haddress⟩)

theorem prevOutputs_of_isCoinBase {tx : CTransaction} (h : tx.isCoinBase) :
    prevOutputs cfg raw tx = [] := by
  simp [prevOutputs, CTransaction.prevouts_of_isCoinBase h]

theorem length_prevOutputs {kv : KVDB} {tx : CTransaction} (h : ¬tx.isCoinBase)
    (hread : ∀ out ∈ tx.prevouts, PrevReadable cfg raw kv out) :
    (prevOutputs cfg raw tx).length = tx.vin.length := by
  rw [prevOutputs, List.length_filterMap_eq_countP, List.countP_eq_length.mpr
    fun out hout => (hread out hout).2, CTransaction.prevouts_of_not_isCoinBase h,
    List.length_map]

theorem wp_getValueOut_of {tx : CTransaction} {Q : Int → ParserState → Prop}
    (hsome : ∀ valueOut, Q valueOut s)
    (hnone : tx.getValueOut = none → E .valueOutOfRange) :
    wp (getValueOut tx) Q E s := by
  unfold getValueOut
  cases h : tx.getValueOut with
  | some valueOut => exact hsome valueOut
  | none => exact hnone h

/-- The writes of a status change: the object, and the `03_` record. -/
structure StatusWritten (hash : Uint256) (txObject : Tx) (s s' : ParserState) :
    Prop where
  keeps : Keeps (fun key => key = .txObject hash ∨ key = .txUnconfirmed hash) s s'
  object : s'.kv (.txObject hash) = some txObject

theorem statusWritten (s : ParserState) (hash : Uint256) (txObject : Tx)
    (record : Option UnconfirmedTx) :
    StatusWritten hash txObject s ((s.write ⟨.txObject hash, some txObject⟩).write
      ⟨.txUnconfirmed hash, record⟩) where
  keeps := ((Keeps.write s (.txObject hash) (some txObject) (by simp)).mono
    fun _ => .inl).trans ((Keeps.write _ (.txUnconfirmed hash) record (by simp)).mono
    fun _ => .inr)
  object := by rw [ParserState.write_kv_of_ne _ _ (by simp), ParserState.write_kv_self]

namespace StatusWritten

variable {hash : Uint256} {txObject : Tx}

theorem txView_eq (h : StatusWritten hash txObject s s') (address : Address) :
    s'.txView address = s.txView address :=
  h.keeps.txView_eq (fun key hkey heq => by rcases heq with rfl | rfl <;> exact hkey)
    address

theorem utxoView_eq (h : StatusWritten hash txObject s s') :
    s'.utxoView = s.utxoView :=
  h.keeps.utxoView_eq fun key hkey heq => by rcases heq with rfl | rfl <;> exact hkey

theorem outside (h : StatusWritten hash txObject s s') (D : Address → Prop) :
    Outside D s s' :=
  .of_keeps h.keeps (by simp)

theorem objects (h : StatusWritten hash txObject s s') (other : Uint256) :
    s'.kv (.txObject other) =
      if other = hash then some txObject else s.kv (.txObject other) := by
  split
  · rename_i heq
    rw [heq, h.object]
  · rename_i hne
    exact h.keeps.kv _ (by simpa using hne)

end StatusWritten

/-! ## acceptTx -/

theorem acceptTx_spec (I J : UtxoView → Prop) (hcfg : cfg.kMaxCacheCount = none)
    (hinv : TxInv cfg raw p s) (hallowed : p.TxAllowed row)
    (htype : row.type = .txAccept)
    (houtputs : wp (acceptTxOutputs cfg (fetchTxLog2 raw row)
        (spendBalance (prevOutputs cfg raw (raw row.txHash).tx) []))
      (fun _ s' => I s'.utxoView) E s)
    (hinputs : (∀ out ∈ (raw row.txHash).tx.prevouts, PrevReadable cfg raw s.kv out) →
      ∀ s', I s'.utxoView → wp (acceptTxInputs cfg (fetchTxLog2 raw row)
        (prevOutputs cfg raw (raw row.txHash).tx))
      (fun _ s'' => J s''.utxoView) E s')
    (hread : (∃ out ∈ (raw row.txHash).tx.prevouts,
      ¬PrevReadable cfg raw s.kv out) → E .undefinedBehaviour)
    (hrange : (raw row.txHash).tx.getValueOut = none → E .valueOutOfRange) :
    wp (acceptTx cfg (fetchTxLog2 raw row))
      (fun _ s' => TxInv cfg raw (p.next row) s' ∧ J s'.utxoView) E s := by
  have hheight : (fetchTxLog2 raw row).blkHeight = -1 := hallowed.accept_height htype
  have hstatus : p.status row.txHash = .absent := by
    rw [hallowed.status, htype]
    rfl
  unfold acceptTx
  rw [wp_bind, wp_assertion]
  refine ⟨fun _ => ?_, fun hne => absurd hheight hne⟩
  rw [if_neg (by simp [isRepeatedTx, hheight])]
  simp only [fetchTxLog2_tx, fetchTxLog2_txHash]
  refine wp_seq (wp_mono (getPrevTxOutputs_spec hinv.objects) (fun _ _ h => h)
    (by rintro _ ⟨rfl, h⟩; exact hread h)) ?_
  rintro _ s ⟨rfl, rfl, hreadable⟩
  -- the outputs
  refine wp_seq (wp_strengthen houtputs (acceptTxOutputs_effects hcfg _
    fun out hout a ha => touches_of_vout hout ha)) ?_
  rintro _ s1 ⟨hI, rfl, heffects1⟩
  refine wp_bind.mpr (wp_getValueOut_of (fun valueOut => ?_) hrange)
  rw [wp_bind, wp_kvSet]
  generalize hobject : (Tx.mk _ _ _ _ _ _ _ _ _ _ _ _ _ _) = txObject
  have hkeeps2 := Keeps.write s1 (.txObject row.txHash) (some txObject) (by simp)
  have hkv2 := s1.write_kv_self (.txObject row.txHash) (some txObject)
  generalize s1.write ⟨.txObject row.txHash, some txObject⟩ = s2 at hkeeps2 hkv2 ⊢
  have hJ2 : I s2.utxoView := by
    rwa [hkeeps2.utxoView_eq fun key hkey heq => by cases heq; exact hkey]
  -- the inputs
  refine wp_seq (wp_strengthen (hinputs hreadable s2 hJ2) (acceptTxInputs_effects hcfg
    (fun hcb => length_prevOutputs hcb hreadable)
    (fun output houtput a ha => touches_of_prevOutputs houtput ha)
    fun _ _ _ => trivial)) ?_
  rintro _ s3 ⟨hJ, heffects3⟩
  -- the lists
  have hview3 : ∀ a, s3.txView a = s.txView a := fun a => by
    rw [txView_of_utxoEffects heffects3, hkeeps2.txView_eq (fun key hkey heq => by
      cases heq; exact hkey), txView_of_utxoEffects heffects1]
  have hconfirmed : ∀ a, row.txHash ∉ confirmedOf cfg raw p a := fun a h => by
    rw [mem_confirmedOf hinv.ledger, hstatus] at h
    cases h.1
  have hpending : ∀ a, ¬PendingOf cfg raw p a row.txHash := fun a h => by
    cases hstatus.symm.trans h.1
  refine wp_seq (forM_addresses (txBalance_nodup cfg raw row.txHash)
    (fun a _ v => Listed cfg raw p a v) (fun a _ v => Listed cfg raw (p.next row) a v)
    (fun a d s hmem hv => ?_)
    fun a d _ => by rw [hview3]; exact hinv.lists a) ?_
  · refine wp_mono (insertAddressTx_lists hcfg hv (hconfirmed a) (hpending a) hmem) ?_
      fun _ he => he
    rintro _ s' ⟨hv', heffects⟩
    exact ⟨Listed.next_of_pending (by rw [htype]; rfl) (List.mem_map_of_mem hmem)
      (confirmedOf_next_eq (.inl htype) a).symm hv', heffects⟩
  rintro _ s4 ⟨htouched, huntouched, heffects4⟩
  -- the unconfirmed record and the common end
  rw [wp_bind, wp_kvSet]
  generalize hrecord : (UnconfirmedTx.mk _ _ _) = unconfirmedTx
  have hkeeps5 := Keeps.write s4 (.txUnconfirmed row.txHash) (some unconfirmedTx)
    (by simp)
  generalize s4.write ⟨.txUnconfirmed row.txHash, some unconfirmedTx⟩ = s5
    at hkeeps5 ⊢
  refine wp_mono (tail_spec hcfg (txBalance cfg raw row.txHash) (fetchTxLog2 raw row)
    1 ((fetchTxLog2 raw row).txHexLength / 2 : Nat)) ?_ fun _ he => he
  rintro _ s6 ⟨htail, hflush, -⟩
  have hutxo : s6.utxoView = s3.utxoView := by
    rw [utxoView_of_tail htail,
      hkeeps5.utxoView_eq fun key hkey heq => by cases heq; exact hkey,
      utxoView_of_effects heffects4]
  have hobjects : ∀ hash, s5.kv (.txObject hash) =
      if hash = row.txHash then some txObject else s.kv (.txObject hash) := by
    intro hash
    rw [hkeeps5.kv _ (by simp), heffects4.kv_eq id, heffects3.kv_eq id]
    split
    · rename_i heq
      rw [heq, hkv2]
    · rename_i hne
      rw [hkeeps2.kv _ (by simpa using hne), heffects1.kv_eq id]
  have houtside : Outside (Touches cfg raw row.txHash) s s5 :=
    (((Outside.of_effects heffects1 (fun _ => id) fun _ _ _ h => h.1).trans
      (.of_keeps hkeeps2 (by simp))).trans
      (.of_effects heffects3 (fun _ => id) fun _ _ _ h => h.1)).trans
      ((Outside.of_effects heffects4 (fun _ => id) fun _ _ _ h => h.1).trans
        (.of_keeps hkeeps5 (by simp)))
  have hlists : ∀ a, Listed cfg raw (p.next row) a (s5.txView a) := fun a => by
    rw [hkeeps5.txView_eq fun key hkey heq => by cases heq; exact hkey]
    exact listed_of_loop htouched huntouched hinv.ledger
      (fun a => by rw [hview3]; exact hinv.lists a) a
  exact ⟨hinv.of_tail hallowed (by rw [← hobject]) hobjects hreadable houtside
    hlists htail hflush, by rwa [hutxo]⟩

/-! ## confirmTx -/

theorem getTxAddressBalance_spec (hobj : Objects cfg raw s.kv) {hash : Uint256}
    (hread : ∀ out ∈ (raw hash).tx.prevouts, PrevReadable cfg raw s.kv out) :
    wp (getTxAddressBalance cfg (raw hash).tx)
      (fun balance s' => s' = s ∧ balance = txBalance cfg raw hash) E s := by
  refine wp_seq (wp_mono (getPrevTxOutputs_spec hobj) (fun _ _ h => h) ?_) ?_
  · rintro _ ⟨-, out, hout, hnot⟩
    exact absurd (hread out hout) hnot
  · rintro _ s ⟨rfl, rfl, -⟩
    exact ⟨rfl, rfl⟩

/--
How confirm and unconfirm end: after the loop over the addresses they write the
object and the `03_` record, then flush.
-/
theorem status_tail_spec (hcfg : cfg.kMaxCacheCount = none)
    (hinv : TxInv cfg raw p s) (hallowed : p.TxAllowed row)
    (hread : ∀ out ∈ (raw row.txHash).tx.prevouts, PrevReadable cfg raw s.kv out)
    (htouched : ∀ a d, (a, d) ∈ txBalance cfg raw row.txHash →
      Listed cfg raw (p.next row) a (s'.txView a))
    (huntouched : ∀ a, a ∉ (txBalance cfg raw row.txHash).keys →
      s'.txView a = s.txView a)
    (heffects : Effects Key.OfAddrTx (TxChange (Touches cfg raw row.txHash)) s s')
    {txObject : Tx} (houtputs : txObject.outputs = txObjectOutputs cfg (raw row.txHash).tx)
    (record : Option UnconfirmedTx) (count size : Int) :
    wp (do
        flushAddressInfo cfg (txBalance cfg raw row.txHash)
        updateUnconfirmedTxPool count size
        writeNotificationLogs cfg (txBalance cfg raw row.txHash) (fetchTxLog2 raw row))
      (fun _ s'' => TxInv cfg raw (p.next row) s'' ∧ s''.utxoView = s.utxoView) E
      ((s'.write ⟨.txObject row.txHash, some txObject⟩).write
        ⟨.txUnconfirmed row.txHash, record⟩) := by
  have hwritten := statusWritten s' row.txHash txObject record
  refine wp_mono (tail_spec hcfg _ _ count size) ?_ fun _ he => he
  rintro _ s2 ⟨htail, hflush, -⟩
  refine ⟨hinv.of_tail hallowed houtputs (fun hash => ?_) hread
    ((Outside.of_effects heffects (fun _ => id) fun _ _ _ h => h.1).trans
      (hwritten.outside _)) (fun a => ?_) htail hflush, ?_⟩
  · rw [hwritten.objects, heffects.kv_eq id]
  · rw [hwritten.txView_eq]
    exact listed_of_loop htouched huntouched hinv.ledger hinv.lists a
  · rw [utxoView_of_tail htail, hwritten.utxoView_eq, utxoView_of_effects heffects]

theorem confirmedFee_spec {txLog2 : TxLog2} (txObject : Tx)
    (hrange : txLog2.tx.getValueOut = none → E .valueOutOfRange) :
    wp (confirmedFee cfg txLog2 txObject) (fun _ s' => s' = s) E s :=
  wp_ite (fun _ => wp_bind.mpr (wp_getValueOut_of (fun _ => rfl) hrange)) fun _ => rfl

theorem confirmTx_spec (hcfg : cfg.kMaxCacheCount = none)
    (hrounds : 2 ≤ cfg.swapRounds) (hinv : TxInv cfg raw p s)
    (hallowed : p.TxAllowed row) (htype : row.type = .txConfirm)
    (hrange : (raw row.txHash).tx.getValueOut = none → E .valueOutOfRange) :
    wp (confirmTx cfg (fetchTxLog2 raw row))
      (fun _ s' => TxInv cfg raw (p.next row) s' ∧ s'.utxoView = s.utxoView) E s := by
  have hstatus : p.status row.txHash = .unconfirmed := by
    rw [hallowed.status, htype]
    rfl
  obtain ⟨hsome, hreadable⟩ := hinv.live row.txHash (by simp [Ledger.Live, hstatus])
  unfold confirmTx
  simp only [fetchTxLog2_tx, fetchTxLog2_txHash]
  refine wp_seq (getTxAddressBalance_spec hinv.objects hreadable) ?_
  rintro _ s ⟨rfl, rfl⟩
  refine wp_seq (forM_addresses (txBalance_nodup cfg raw row.txHash)
    (fun a _ v => Listed cfg raw p a v) (fun a _ v => Listed cfg raw (p.next row) a v)
    (fun a d s hmem hv => ?_) fun a d _ => hinv.lists a) ?_
  · have htouches : Touches cfg raw row.txHash a := List.mem_map_of_mem hmem
    refine wp_mono (confirmAddress_lists hcfg hrounds
      (hallowed.confirm_height htype) hv ⟨hstatus, htouches⟩) ?_ fun _ he => he
    rintro _ s' ⟨hv', heffects⟩
    refine ⟨Listed.next_of_not_pending (by rw [htype]; simp [Log2Type.statusAfter]) ?_
      hv', heffects⟩
    rw [confirmedOf_next_confirm htype, if_pos htouches]
    rfl
  rintro _ s1 ⟨htouched, huntouched, heffects⟩
  obtain ⟨txObject, htxObject⟩ := Option.isSome_iff_exists.mp hsome
  have hobj1 : s1.kv (.txObject row.txHash) = some txObject := by
    rw [heffects.kv_eq id, htxObject]
  rw [wp_bind]
  refine wp_kvGet_of _ (fun val hval => ?_) fun hnone => by
    cases hobj1.symm.trans hnone
  obtain rfl : txObject = val := Option.some.inj (hobj1.symm.trans hval)
  refine wp_seq (confirmedFee_spec txObject hrange) ?_
  rintro fee s1 rfl
  rw [wp_bind, wp_kvSet, wp_bind, wp_kvDel]
  exact status_tail_spec hcfg hinv hallowed hreadable htouched huntouched heffects
    (by exact hinv.objects.outputs _ txObject htxObject) none _ _

/-! ## unconfirmTx -/

theorem confirmedOf_of_lifo (hlifo : p.Lifo row) (htype : row.type = .txUnconfirm)
    {address : Address} (htouches : Touches cfg raw row.txHash address) :
    ∃ rest, confirmedOf cfg raw p address = rest ++ [row.txHash] := by
  obtain ⟨older, hconfirmed⟩ := List.head?_eq_some_iff.mp (hlifo htype)
  exact ⟨older.reverse.filter fun hash => Touches cfg raw hash address, by
    simp [confirmedOf, hconfirmed, htouches]⟩

theorem unconfirmTx_spec (hcfg : cfg.kMaxCacheCount = none)
    (hinv : TxInv cfg raw p s) (hallowed : p.TxAllowed row)
    (htype : row.type = .txUnconfirm)
    (hlifo : ¬p.Lifo row → E (.assertion .unconfirmAddressTxNode)) :
    wp (unconfirmTx cfg (fetchTxLog2 raw row))
      (fun _ s' => TxInv cfg raw (p.next row) s' ∧ s'.utxoView = s.utxoView) E s := by
  have hstatus : p.status row.txHash = .confirmed := by
    rw [hallowed.status, htype]
    rfl
  obtain ⟨hsome, hreadable⟩ := hinv.live row.txHash (by simp [Ledger.Live, hstatus])
  unfold unconfirmTx
  simp only [fetchTxLog2_tx, fetchTxLog2_txHash]
  refine wp_seq (getTxAddressBalance_spec hinv.objects hreadable) ?_
  rintro _ s ⟨rfl, rfl⟩
  refine wp_seq (forM_addresses (txBalance_nodup cfg raw row.txHash)
    (fun a _ v => Listed cfg raw p a v) (fun a _ v => Listed cfg raw (p.next row) a v)
    (fun a d s hmem hv => ?_) fun a d _ => hinv.lists a) ?_
  · have htouches : Touches cfg raw row.txHash a := List.mem_map_of_mem hmem
    refine wp_mono (unconfirmAddress_lists hcfg hv
      ((mem_confirmedOf hinv.ledger ..).mpr ⟨hstatus, htouches⟩)
      fun hlast => hlifo fun h => ?_) ?_ fun _ he => he
    · obtain ⟨rest, hrest⟩ := confirmedOf_of_lifo h htype htouches
      exact hlast rest hrest
    rintro _ s' ⟨⟨rest, hrest, hv'⟩, heffects⟩
    refine ⟨Listed.next_of_pending (by rw [htype]; rfl) htouches ?_ hv', heffects⟩
    -- the hashes are distinct, so removing this one leaves the rest
    have hnodup : (confirmedOf cfg raw p a).Nodup := confirmedOf_nodup hinv.ledger a
    rw [hrest] at hnodup
    have hnotin : row.txHash ∉ rest := fun hmem =>
      (List.nodup_append.mp hnodup).2.2 _ hmem _ (by simp) rfl
    rw [confirmedOf_next_unconfirm hinv.ledger htype, hrest, List.filter_append,
      List.filter_eq_self.mpr]
    · simp
    · intro hash hmem
      simpa using fun heq : hash = row.txHash => hnotin (heq ▸ hmem)
  rintro _ s1 ⟨htouched, huntouched, heffects⟩
  obtain ⟨txObject, htxObject⟩ := Option.isSome_iff_exists.mp hsome
  have hobj1 : s1.kv (.txObject row.txHash) = some txObject := by
    rw [heffects.kv_eq id, htxObject]
  rw [wp_bind]
  refine wp_kvGet_of _ (fun val hval => ?_) fun hnone => by
    cases hobj1.symm.trans hnone
  obtain rfl : txObject = val := Option.some.inj (hobj1.symm.trans hval)
  rw [wp_bind, wp_kvSet, wp_bind, wp_kvSet]
  exact status_tail_spec hcfg hinv hallowed hreadable htouched huntouched heffects
    (by exact hinv.objects.outputs _ txObject htxObject) _ _ _

/-! ## rejectTx -/

theorem rejectTx_spec (I J : UtxoView → Prop) (hcfg : cfg.kMaxCacheCount = none)
    (hrounds : 2 ≤ cfg.swapRounds)
    (hformat : ∀ a hash, cfg.formatObject (fetchTxLog2 raw row) a = .hex hash →
      hash = row.txHash)
    (hinv : TxInv cfg raw p s) (hallowed : p.TxAllowed row)
    (htype : row.type = .txReject)
    (hinputs : wp (rejectTxInputs cfg (raw row.txHash).tx
        (prevOutputs cfg raw (raw row.txHash).tx) [])
      (fun _ s' => I s'.utxoView) E s)
    (houtputs : ∀ s' balance, I s'.utxoView →
      wp (rejectTxOutputs cfg (fetchTxLog2 raw row) balance)
        (fun _ s'' => J s''.utxoView) E s') :
    wp (rejectTx cfg (fetchTxLog2 raw row))
      (fun _ s' => TxInv cfg raw (p.next row) s' ∧ J s'.utxoView) E s := by
  have hstatus : p.status row.txHash = .unconfirmed := by
    rw [hallowed.status, htype]
    rfl
  obtain ⟨hsome, hreadable⟩ := hinv.live row.txHash (by simp [Ledger.Live, hstatus])
  unfold rejectTx
  simp only [fetchTxLog2_tx, fetchTxLog2_txHash]
  refine wp_seq (wp_mono (getPrevTxOutputs_spec hinv.objects) (fun _ _ h => h) ?_) ?_
  · rintro _ ⟨-, out, hout, hnot⟩
    exact absurd (hreadable out hout) hnot
  rintro _ s ⟨rfl, rfl, -⟩
  -- the inputs, then the outputs
  refine wp_seq (wp_strengthen hinputs (rejectTxInputs_effects hcfg []
    prevOutputs_of_isCoinBase (fun hcb => length_prevOutputs hcb hreadable)
    fun output houtput a ha => touches_of_prevOutputs houtput ha)) ?_
  rintro _ s1 ⟨hI, rfl, heffects1⟩
  refine wp_seq (wp_strengthen (houtputs s1 _ hI)
    (rejectTxOutputs_effects (Touches cfg raw row.txHash) _ fun _ _ _ => trivial)) ?_
  rintro _ s2 ⟨hJ, rfl, heffects2⟩
  -- the status
  obtain ⟨txObject, htxObject⟩ := Option.isSome_iff_exists.mp hsome
  have hobj2 : s2.kv (.txObject row.txHash) = some txObject := by
    rw [heffects2.kv_eq id, heffects1.kv_eq id, htxObject]
  rw [wp_bind]
  refine wp_kvGet_of _ (fun val hval => ?_) fun hnone => by
    cases hobj2.symm.trans hnone
  obtain rfl : txObject = val := Option.some.inj (hobj2.symm.trans hval)
  rw [wp_bind, wp_kvSet, wp_bind, wp_kvDel]
  generalize hobject : (Tx.mk _ _ _ _ _ _ _ _ _ _ _ _ _ _) = txObject'
  have hwritten := statusWritten s2 row.txHash txObject' none
  generalize (s2.write _).write _ = s3 at hwritten ⊢
  -- the lists
  have hview3 : ∀ a, s3.txView a = s.txView a := fun a => by
    rw [hwritten.txView_eq, txView_of_utxoEffects heffects2,
      txView_of_utxoEffects heffects1]
  refine wp_seq (forM_addresses (txBalance_nodup cfg raw row.txHash)
    (fun a _ v => Listed cfg raw p a v) (fun a _ v => Listed cfg raw (p.next row) a v)
    (fun a d s hmem hv => ?_)
    fun a d _ => by rw [hview3]; exact hinv.lists a) ?_
  · have htouches : Touches cfg raw row.txHash a := List.mem_map_of_mem hmem
    refine wp_mono (rejectAddress_lists hcfg hrounds (hformat a) hv
      ⟨hstatus, htouches⟩) ?_ fun _ he => he
    rintro _ s' ⟨hv', heffects⟩
    exact ⟨Listed.next_of_not_pending (by rw [htype]; simp [Log2Type.statusAfter])
      (confirmedOf_next_eq (.inr htype) a).symm hv', heffects⟩
  rintro _ s4 ⟨htouched, huntouched, heffects4⟩
  refine wp_mono (tail_spec hcfg (txBalance cfg raw row.txHash) (fetchTxLog2 raw row)
    (-1) (-((fetchTxLog2 raw row).txHexLength / 2 : Nat))) ?_ fun _ he => he
  rintro _ s5 ⟨htail, hflush, -⟩
  have hutxo : s5.utxoView = s2.utxoView := by
    rw [utxoView_of_tail htail, utxoView_of_effects heffects4, hwritten.utxoView_eq]
  have houtside : Outside (Touches cfg raw row.txHash) s s4 :=
    ((Outside.of_effects heffects1 (fun _ => id) fun _ _ _ h => h.1).trans
      (.of_effects heffects2 (fun _ => id) fun _ _ _ h => h.1)).trans
      ((hwritten.outside _).trans
        (.of_effects heffects4 (fun _ => id) fun _ _ _ h => h.1))
  have houtputs' : txObject'.outputs = txObjectOutputs cfg (raw row.txHash).tx := by
    rw [← hobject]
    exact hinv.objects.outputs _ txObject htxObject
  refine ⟨hinv.of_tail hallowed houtputs' (fun hash => ?_) hreadable houtside
    (fun a => ?_) htail hflush, by rwa [hutxo]⟩
  · rw [heffects4.kv_eq id, hwritten.objects, heffects2.kv_eq id, heffects1.kv_eq id]
  · exact listed_of_loop htouched huntouched hinv.ledger
      (fun a => by rw [hview3]; exact hinv.lists a) a

end Steps

end ExplorerKV.Parser

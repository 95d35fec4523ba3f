import ExplorerKV.Parser.UnconfirmedTimes

/-!
# Replaying the notification log

A subscriber that knows only the notification log rebuilds the balances of an
address from the amounts of its lines.  The amounts come from the balance map
of the operation, which accept and reject compute from the scripts and the
other two read back; all four agree on `txBalance`.  So the log is a function
of the rows, and the balances are sums over the transactions that the same
rows have put on the address's list.
-/

namespace ExplorerKV.Parser

open Bitcoin Foundation

/-- The `NOTIFY_EVENT_TX_*` code of a line. -/
def Log2Type.notifyEvent : Log2Type → Nat
  | .txAccept => 20
  | .txConfirm => 21
  | .txUnconfirm => 22
  | .txReject => 23

/-- A transaction line of the notification log, as one address sees it. -/
structure AddressLine where
  type : Log2Type
  txHash : Uint256
  amount : Int
  deriving DecidableEq, Repr

def addressLines (address : Address) (log : List NotifyItem) : List AddressLine :=
  log.filterMap fun item =>
    match item with
    | .tx type a hash _ diff => if a = address then some ⟨type, hash, diff⟩ else none
    | .block _ _ _ => none

def eventSum (event : Nat) (lines : List AddressLine) : Int :=
  ((lines.filter fun line => line.type.notifyEvent = event).map AddressLine.amount).sum

/-- The automaton of `docs/TXLOGS.md`, on the types of one transaction's rows. -/
def FollowsAutomaton (types : List Log2Type) : Prop :=
  Along (fun status type => status = type.statusBefore) (fun _ type => type.statusAfter)
    .absent types

/-- What a subscriber can rebuild from the lines of an address. -/
structure LogReplays (s : ParserState) (address : Address) (lines : List AddressLine) :
    Prop where
  total : eventSum 20 lines - eventSum 23 lines =
    (s.infoOf address).received - (s.infoOf address).sent
  confirmed : eventSum 21 lines - eventSum 22 lines =
    ((s.infoOf address).received - (s.infoOf address).unconfirmedReceived) -
      ((s.infoOf address).sent - (s.infoOf address).unconfirmedSent)
  automaton : ∀ hash,
    FollowsAutomaton ((lines.filter fun line => line.txHash = hash).map AddressLine.type)
  amount : ∀ hash, ∃ amount, ∀ line ∈ lines, line.txHash = hash → line.amount = amount

/-! ## The log of a run -/

section Log

variable (cfg : Config) (raw : RawTxs)

def rowLines (row : TxLog2Row) : List NotifyItem :=
  (txBalance cfg raw row.txHash).map fun (address, diff) =>
    .tx row.type address row.txHash row.blkHeight diff

variable {cfg raw} {s : ParserState} {row : TxLog2Row} {E : Fault → Prop}

theorem writeNotificationLogs_log (hnotify : cfg.notifyBeginHeight = -1) :
    wp (writeNotificationLogs cfg (txBalance cfg raw row.txHash) (fetchTxLog2 raw row))
      (fun _ s' => s'.notifyLog = s.notifyLog ++ rowLines cfg raw row) E s := by
  simp only [writeNotificationLogs, wp_bind, wp_get]
  apply wp_ite
  · intro _
    rfl
  · intro hoff
    simp [isWriteNotificationLogs, hnotify] at hoff

theorem tail_log (hnotify : cfg.notifyBeginHeight = -1) (count size : Int) :
    wp (do
        flushAddressInfo cfg (txBalance cfg raw row.txHash)
        updateUnconfirmedTxPool count size
        writeNotificationLogs cfg (txBalance cfg raw row.txHash) (fetchTxLog2 raw row))
      (fun _ s' => s'.notifyLog = s.notifyLog ++ rowLines cfg raw row) (fun _ => True) s := by
  apply wp_seq ((flushAddressInfo_same (R := SameLog) cfg (fun _ => id) _).run s)
  intro _ s1 hsame1
  apply wp_seq ((updateUnconfirmedTxPool_same (R := SameLog) (fun _ _ _ => rfl)
    id id count size).run s1)
  intro _ s2 hsame2
  rw [← hsame1, ← hsame2]
  exact writeNotificationLogs_log hnotify

theorem acceptTx_log (hnotify : cfg.notifyBeginHeight = -1) (hobj : Objects cfg raw s.kv)
    (hheight : row.blkHeight = -1) :
    wp (acceptTx cfg (fetchTxLog2 raw row))
      (fun _ s' => s'.notifyLog = s.notifyLog ++ rowLines cfg raw row) (fun _ => True) s := by
  unfold acceptTx
  rw [wp_bind, wp_assertion]
  refine ⟨fun _ => ?_, fun _ => trivial⟩
  rw [if_neg (by simp [isRepeatedTx, fetchTxLog2, hheight])]
  simp only [fetchTxLog2_tx, fetchTxLog2_txHash]
  apply wp_seq (wp_mono (getPrevTxOutputs_spec hobj) (fun _ _ h => h) fun _ _ => trivial)
  rintro _ s ⟨rfl, rfl, -⟩
  apply wp_seq (wp_strengthen (acceptTxOutputs_balance cfg _ _)
    ((acceptTxOutputs_same (R := SameLog) cfg (fun _ _ => id) _ _).run s))
  rintro _ s1 ⟨rfl, hsame1⟩
  rw [← hsame1]
  apply wp_bind.mpr (wp_getValueOut_of (fun valueOut => ?_) fun _ => trivial)
  apply wp_seq ((kvSet_same (R := SameLog) id _).run s1)
  intro _ s2 hsame2
  rw [← hsame2]
  apply wp_seq ((acceptTxInputs_same (R := SameLog) cfg (fun _ _ => id) _ _).run s2)
  intro _ s3 hsame3
  rw [← hsame3]
  apply wp_seq ((Steps.forM (R := SameLog) fun x : Address × Int =>
    insertAddressTx_same cfg (fun _ _ => id) x.2).run s3)
  intro _ s4 hsame4
  rw [← hsame4]
  apply wp_seq ((kvSet_same (R := SameLog) id _).run s4)
  intro _ s5 hsame5
  rw [← hsame5]
  exact tail_log hnotify 1 _

theorem confirmTx_log (hnotify : cfg.notifyBeginHeight = -1) (hobj : Objects cfg raw s.kv) :
    wp (confirmTx cfg (fetchTxLog2 raw row))
      (fun _ s' => s'.notifyLog = s.notifyLog ++ rowLines cfg raw row) (fun _ => True) s := by
  unfold confirmTx
  simp only [fetchTxLog2_tx, fetchTxLog2_txHash]
  apply wp_seq (getTxAddressBalance_read hobj)
  rintro _ s ⟨rfl, rfl⟩
  apply wp_seq ((Steps.forM (R := SameLog) fun _ =>
    confirmAddress_same cfg fun _ _ => id).run s)
  intro _ s1 hsame1
  rw [← hsame1]
  apply wp_bind.mpr (wp_kvGet_of _ (fun txObject _ => ?_) fun _ => trivial)
  apply wp_seq (confirmedFee_spec txObject fun _ => trivial)
  rintro fee s1 rfl
  apply wp_seq ((kvSet_same (R := SameLog) id _).run s1)
  intro _ s2 hsame2
  rw [← hsame2]
  apply wp_seq ((kvDel_same (R := SameLog) id).run s2)
  intro _ s3 hsame3
  rw [← hsame3]
  exact tail_log hnotify (-1) _

theorem unconfirmTx_log (hnotify : cfg.notifyBeginHeight = -1) (hobj : Objects cfg raw s.kv) :
    wp (unconfirmTx cfg (fetchTxLog2 raw row))
      (fun _ s' => s'.notifyLog = s.notifyLog ++ rowLines cfg raw row) (fun _ => True) s := by
  unfold unconfirmTx
  simp only [fetchTxLog2_tx, fetchTxLog2_txHash]
  apply wp_seq (getTxAddressBalance_read hobj)
  rintro _ s ⟨rfl, rfl⟩
  apply wp_seq ((Steps.forM (R := SameLog) fun _ =>
    unconfirmAddress_same cfg fun _ _ => id).run s)
  intro _ s1 hsame1
  rw [← hsame1]
  apply wp_bind.mpr (wp_kvGet_of _ (fun txObject _ => ?_) fun _ => trivial)
  apply wp_seq ((kvSet_same (R := SameLog) id _).run s1)
  intro _ s2 hsame2
  rw [← hsame2]
  apply wp_seq ((kvSet_same (R := SameLog) id _).run s2)
  intro _ s3 hsame3
  rw [← hsame3]
  exact tail_log hnotify 1 _

theorem rejectTx_log (hnotify : cfg.notifyBeginHeight = -1) (hobj : Objects cfg raw s.kv) :
    wp (rejectTx cfg (fetchTxLog2 raw row))
      (fun _ s' => s'.notifyLog = s.notifyLog ++ rowLines cfg raw row) (fun _ => True) s := by
  unfold rejectTx
  simp only [fetchTxLog2_tx, fetchTxLog2_txHash]
  apply wp_seq (wp_mono (getPrevTxOutputs_spec hobj) (fun _ _ h => h) fun _ _ => trivial)
  rintro _ s ⟨rfl, rfl, hread⟩
  apply wp_seq (wp_strengthen (rejectTxInputs_balance cfg [] prevOutputs_of_isCoinBase
    fun hcb => length_prevOutputs hcb hread)
    ((rejectTxInputs_same (R := SameLog) cfg (fun _ _ => id) _ _ _).run s))
  rintro _ s1 ⟨rfl, hsame1⟩
  rw [← hsame1]
  apply wp_seq (wp_strengthen (rejectTxOutputs_effects (fun _ => True) _ fun _ _ _ => trivial)
    ((rejectTxOutputs_same (R := SameLog) cfg (fun _ _ => id) _ _).run s1))
  rintro _ s2 ⟨⟨rfl, -⟩, hsame2⟩
  rw [← hsame2]
  apply wp_bind.mpr (wp_kvGet_of _ (fun txObject _ => ?_) fun _ => trivial)
  apply wp_seq ((kvSet_same (R := SameLog) id _).run s2)
  intro _ s3 hsame3
  rw [← hsame3]
  apply wp_seq ((kvDel_same (R := SameLog) id).run s3)
  intro _ s4 hsame4
  rw [← hsame4]
  apply wp_seq ((Steps.forM (R := SameLog) fun _ =>
    rejectAddress_same cfg fun _ _ => id).run s4)
  intro _ s5 hsame5
  rw [← hsame5]
  exact tail_log hnotify (-1) _

theorem applyRow_log {p : Ledger} (hnotify : cfg.notifyBeginHeight = -1)
    (hallowed : p.TxAllowed row) (hobj : Objects cfg raw s.kv) :
    wp (applyRow cfg raw row)
      (fun _ s' => s'.notifyLog = s.notifyLog ++ rowLines cfg raw row) (fun _ => True) s := by
  rw [applyRow_eq]
  cases htype : row.type with
  | txAccept => exact acceptTx_log hnotify hobj (hallowed.accept_height htype)
  | txConfirm => exact confirmTx_log hnotify hobj
  | txUnconfirm => exact unconfirmTx_log hnotify hobj
  | txReject => exact rejectTx_log hnotify hobj

theorem applyRows_log {p : Ledger} {rows : List TxLog2Row}
    (hnotify : cfg.notifyBeginHeight = -1)
    (hrows : Along Ledger.TxAllowed Ledger.next p rows) (hinv : ObjectsInv cfg raw s) :
    wp (applyRows cfg raw rows)
      (fun _ s' => s'.notifyLog = s.notifyLog ++ rows.flatMap (rowLines cfg raw))
      (fun _ => True) s := by
  induction rows generalizing p s with
  | nil => exact (List.append_nil _).symm
  | cons row rows ih =>
      rw [applyRows, List.forM_cons]
      apply wp_seq (wp_strengthen (applyRow_log hnotify hrows.1 hinv.objects)
        (applyRow_times hrows.1 hinv))
      rintro _ s' ⟨hlog, hkept⟩
      rw [List.flatMap_cons, ← List.append_assoc, ← hlog]
      exact ih hrows.2 hkept.objects

end Log

/-! ## The lines of one address -/

section Lines

variable (cfg : Config) (raw : RawTxs)

def amountOf (address : Address) (hash : Uint256) : Int :=
  (((txBalance cfg raw hash).filter fun entry => entry.1 = address).map Prod.snd).sum

variable {cfg raw} {address : Address} {hash : Uint256}

theorem filter_key {balance : BalanceMap} (hnodup : (balance.map Prod.fst).Nodup)
    {diff : Int} (hmem : (address, diff) ∈ balance) :
    balance.filter (fun entry => entry.1 = address) = [(address, diff)] := by
  induction balance with
  | nil => cases hmem
  | cons entry rest ih =>
      obtain ⟨hnot, hrest⟩ := List.nodup_cons.mp hnodup
      rcases List.mem_cons.mp hmem with rfl | hmem
      · have hnone : ∀ e ∈ rest, e.1 ≠ address := fun e he heq =>
          hnot (List.mem_map.mpr ⟨e, he, heq⟩)
        simpa using hnone
      · have hne : entry.1 ≠ address := fun heq =>
          hnot (List.mem_map.mpr ⟨_, hmem, heq.symm⟩)
        rw [List.filter_cons_of_neg (by simpa using hne), ih hrest hmem]

theorem amountOf_eq {diff : Int} (hmem : (address, diff) ∈ txBalance cfg raw hash) :
    amountOf cfg raw address hash = diff := by
  rw [amountOf, filter_key (txBalance_nodup cfg raw hash) hmem]
  simp

theorem filter_key_none (h : ¬Touches cfg raw hash address) :
    (txBalance cfg raw hash).filter (fun entry => entry.1 = address) = [] := by
  apply List.filter_eq_nil_iff.mpr
  intro entry hentry heq
  exact h ((decide_eq_true_eq.mp heq) ▸ List.mem_map_of_mem hentry)

theorem amountOf_of_not_touches (h : ¬Touches cfg raw hash address) :
    amountOf cfg raw address hash = 0 := by
  rw [amountOf, filter_key_none h]
  rfl

theorem addressLines_rowLines (row : TxLog2Row) :
    addressLines address (rowLines cfg raw row) =
      if Touches cfg raw row.txHash address then
        [⟨row.type, row.txHash, amountOf cfg raw address row.txHash⟩]
      else [] := by
  have hlines : addressLines address (rowLines cfg raw row) =
      ((txBalance cfg raw row.txHash).filter fun entry => entry.1 = address).map
        fun entry => ⟨row.type, row.txHash, entry.2⟩ := by
    unfold addressLines rowLines
    generalize txBalance cfg raw row.txHash = balance
    induction balance with
    | nil => rfl
    | cons entry rest ih =>
        by_cases heq : entry.1 = address <;> simp [heq, ih]
  rw [hlines]
  split
  · rename_i htouches
    obtain ⟨⟨_, diff⟩, hmem, rfl⟩ := List.mem_map.mp htouches
    rw [filter_key (txBalance_nodup cfg raw row.txHash) hmem, amountOf_eq hmem]
    rfl
  · rename_i htouches
    rw [filter_key_none htouches]
    rfl

theorem addressLines_rows (rows : List TxLog2Row) :
    addressLines address (rows.flatMap (rowLines cfg raw)) =
      (rows.filter fun row => Touches cfg raw row.txHash address).map fun row =>
        ⟨row.type, row.txHash, amountOf cfg raw address row.txHash⟩ := by
  induction rows with
  | nil => rfl
  | cons row rows ih =>
      have hsplit : addressLines address ((row :: rows).flatMap (rowLines cfg raw)) =
          addressLines address (rowLines cfg raw row) ++
            addressLines address (rows.flatMap (rowLines cfg raw)) := by
        rw [List.flatMap_cons]
        exact List.filterMap_append
      rw [hsplit, ih, addressLines_rowLines]
      by_cases htouches : Touches cfg raw row.txHash address <;> simp [htouches]

theorem types_rows (rows : List TxLog2Row) (hash : Uint256) :
    ((addressLines address (rows.flatMap (rowLines cfg raw))).filter
        fun line => line.txHash = hash).map AddressLine.type =
      if Touches cfg raw hash address then
        (rows.filter fun row => row.txHash = hash).map TxLog2Row.type
      else [] := by
  rw [addressLines_rows]
  induction rows with
  | nil => simp
  | cons row rows ih =>
      by_cases heq : row.txHash = hash
      · by_cases htouches : Touches cfg raw hash address
        · simpa [heq, htouches] using ih
        · simpa [heq, htouches] using ih
      · by_cases htouches : Touches cfg raw row.txHash address
        · simpa [heq, htouches] using ih
        · simpa [heq, htouches] using ih

def eventSign (plus minus : Log2Type) (type : Log2Type) : Int :=
  if type = plus then 1 else if type = minus then -1 else 0

theorem eventSum_sub_eventSum {plus minus : Log2Type} (hne : plus ≠ minus)
    (rows : List TxLog2Row) :
    eventSum plus.notifyEvent (addressLines address (rows.flatMap (rowLines cfg raw))) -
        eventSum minus.notifyEvent (addressLines address (rows.flatMap (rowLines cfg raw))) =
      (rows.map fun row => eventSign plus minus row.type *
        amountOf cfg raw address row.txHash).sum := by
  have hcode : ∀ t t' : Log2Type, t.notifyEvent = t'.notifyEvent ↔ t = t' := by
    intro t t'
    cases t <;> cases t' <;> simp [Log2Type.notifyEvent]
  rw [addressLines_rows]
  unfold eventSum
  simp only [hcode]
  induction rows with
  | nil => rfl
  | cons row rows ih =>
      rw [List.map_cons, List.sum_cons, ← ih]
      by_cases htouches : Touches cfg raw row.txHash address
      · rw [List.filter_cons_of_pos (by simpa using htouches)]
        by_cases hplus : row.type = plus
        · simp [hplus, hne, eventSign]
          omega
        · by_cases hminus : row.type = minus
          · simp [hminus, hne.symm, eventSign]
            omega
          · simp [hplus, hminus, eventSign]
      · rw [List.filter_cons_of_neg (by simpa using htouches),
          amountOf_of_not_touches htouches]
        simp

theorem followsAutomaton_rows {p : Ledger} {rows : List TxLog2Row}
    (hrows : Along Ledger.TxAllowed Ledger.next p rows) (hash : Uint256) :
    Along (fun status (type : Log2Type) => status = type.statusBefore)
      (fun _ type => type.statusAfter) (p.status hash)
      ((rows.filter fun row => row.txHash = hash).map TxLog2Row.type) := by
  induction rows generalizing p with
  | nil => trivial
  | cons row rows ih =>
      have hrest := ih hrows.2
      rw [Ledger.next_status] at hrest
      by_cases heq : row.txHash = hash
      · subst heq
        rw [List.filter_cons_of_pos (by simp)]
        rw [if_pos rfl] at hrest
        exact ⟨hrows.1.status, hrest⟩
      · rw [List.filter_cons_of_neg (by simpa using heq)]
        rwa [if_neg (Ne.symm heq)] at hrest

end Lines

/-! ## The balances of one address -/

section Balances

variable {cfg : Config} {raw : RawTxs} {p : Ledger} {s : ParserState}
  {rows : List TxLog2Row} {address : Address}

theorem sumOf_sub_sumOf (entries : List AddressTx) :
    sumOf receivedPart entries - sumOf sentPart entries =
      (entries.map AddressTx.balanceDiff).sum := by
  induction entries with
  | nil => rfl
  | cons entry entries ih =>
      have hparts : receivedPart entry.balanceDiff - sentPart entry.balanceDiff =
          entry.balanceDiff := by
        unfold receivedPart sentPart
        split_ifs <;> omega
      rw [sumOf_cons, sumOf_cons, List.map_cons, List.sum_cons, ← ih]
      omega

theorem sum_balanceDiff {entries : List AddressTx}
    (hnodup : (entries.map AddressTx.txHash).Nodup)
    (hdiff : ∀ entry ∈ entries, (address, entry.balanceDiff) ∈ txBalance cfg raw entry.txHash)
    {held : Finset Uint256}
    (hheld : ∀ hash, hash ∈ entries.map AddressTx.txHash ↔
      hash ∈ held ∧ Touches cfg raw hash address) :
    (entries.map AddressTx.balanceDiff).sum = ∑ hash ∈ held, amountOf cfg raw address hash := by
  have hamount : entries.map AddressTx.balanceDiff =
      (entries.map AddressTx.txHash).map (amountOf cfg raw address) := by
    rw [List.map_map]
    apply List.map_congr_left
    intro entry hentry
    exact (amountOf_eq (hdiff entry hentry)).symm
  rw [hamount, ← List.sum_toFinset _ hnodup]
  apply Finset.sum_subset
  · intro hash hhash
    exact ((hheld hash).mp (List.mem_toFinset.mp hhash)).1
  · intro hash hhash hnot
    apply amountOf_of_not_touches
    intro htouches
    exact hnot (List.mem_toFinset.mpr ((hheld hash).mpr ⟨hhash, htouches⟩))

theorem moves_live (p : Ledger) (row : TxLog2Row) (hallowed : p.TxAllowed row) :
    Moves row.txHash p.Live (p.next row).Live (eventSign .txAccept .txReject row.type) := by
  have hstatus := hallowed.status
  cases htype : row.type with
  | txAccept =>
      apply Moves.enter
      · simp [Ledger.Live, hstatus, htype, Log2Type.statusBefore]
      · intro hash
        rw [Ledger.next_live]
        by_cases heq : hash = row.txHash <;> simp [heq, htype]
  | txReject =>
      apply Moves.leave
      · simp [Ledger.Live, hstatus, htype, Log2Type.statusBefore]
      · intro hash
        rw [Ledger.next_live]
        by_cases heq : hash = row.txHash <;> simp [heq, htype]
  | txConfirm | txUnconfirm =>
      apply Moves.stay
      intro hash
      rw [Ledger.next_live]
      by_cases heq : hash = row.txHash
      · simp [heq, htype, Ledger.Live, hstatus, Log2Type.statusBefore]
      · simp [heq]

theorem moves_confirmed (p : Ledger) (row : TxLog2Row) (hallowed : p.TxAllowed row) :
    Moves row.txHash (fun hash => p.status hash = .confirmed)
      (fun hash => (p.next row).status hash = .confirmed)
      (eventSign .txConfirm .txUnconfirm row.type) := by
  have hstatus := hallowed.status
  cases htype : row.type with
  | txConfirm =>
      apply Moves.enter
      · simp [hstatus, htype, Log2Type.statusBefore]
      · intro hash
        rw [Ledger.next_status]
        by_cases heq : hash = row.txHash <;> simp [heq, htype, Log2Type.statusAfter]
  | txUnconfirm =>
      apply Moves.leave
      · simp [hstatus, htype, Log2Type.statusBefore]
      · intro hash
        rw [Ledger.next_status]
        by_cases heq : hash = row.txHash <;> simp [heq, htype, Log2Type.statusAfter]
  | txAccept | txReject =>
      apply Moves.stay
      intro hash
      rw [Ledger.next_status]
      by_cases heq : hash = row.txHash
      · simp [heq, htype, hstatus, Log2Type.statusBefore, Log2Type.statusAfter]
      · simp [heq]

theorem TxInv.total_eq (hinv : TxInv cfg raw p s) {live : Finset Uint256}
    (hlive : ∀ hash, hash ∈ live ↔ p.Live hash) :
    (s.infoOf address).received - (s.infoOf address).sent =
      ∑ hash ∈ live, amountOf cfg raw address hash := by
  obtain ⟨z, hz, hconfirmed, hpending, hdiff⟩ := hinv.lists address
  obtain ⟨-, hreceived, hsent, -⟩ := txPart_eq_summary.mp hz.info
  have hmem : ∀ hash, hash ∈ z.list.map AddressTx.txHash ↔
      hash ∈ live ∧ Touches cfg raw hash address := by
    intro hash
    have hpending' : hash ∈ z.pending.map AddressTx.txHash ↔
        PendingOf cfg raw p address hash := by
      rw [List.mem_map, hpending]
    rw [TxZones.list, List.map_append, List.mem_append, hconfirmed,
      mem_confirmedOf hinv.ledger, hpending', PendingOf, hlive, Ledger.Live, ← or_and_right]
    cases p.status hash <;> simp
  rw [hreceived, hsent, sumOf_sub_sumOf]
  exact sum_balanceDiff hz.stored.nodup hdiff hmem

theorem TxInv.confirmed_eq (hinv : TxInv cfg raw p s) {confirmed : Finset Uint256}
    (hheld : ∀ hash, hash ∈ confirmed ↔ p.status hash = .confirmed) :
    ((s.infoOf address).received - (s.infoOf address).unconfirmedReceived) -
        ((s.infoOf address).sent - (s.infoOf address).unconfirmedSent) =
      ∑ hash ∈ confirmed, amountOf cfg raw address hash := by
  obtain ⟨z, hz, hconfirmed, -, hdiff⟩ := hinv.lists address
  obtain ⟨-, hreceived, hsent, -, hureceived, husent, -⟩ := txPart_eq_summary.mp hz.info
  have hnodup : (z.confirmed.map AddressTx.txHash).Nodup := by
    rw [hconfirmed]
    exact confirmedOf_nodup hinv.ledger address
  have hmem : ∀ hash, hash ∈ z.confirmed.map AddressTx.txHash ↔
      hash ∈ confirmed ∧ Touches cfg raw hash address := by
    intro hash
    rw [hconfirmed, mem_confirmedOf hinv.ledger, hheld]
  rw [← sum_balanceDiff hnodup
    (fun entry hentry => hdiff entry (List.mem_append_left _ hentry)) hmem,
    ← sumOf_sub_sumOf, hreceived, hsent, hureceived, husent, TxZones.list, sumOf_append,
    sumOf_append]
  omega

end Balances

/--
After every run that obeys the automaton, unconfirms in reverse order or not,
the notification log replays to the balances of every address.
-/
theorem notifyLog_replays (cfg : Config) (raw : RawTxs) (rows : List TxLog2Row)
    (hcfg : cfg.kMaxCacheCount = none) (hrounds : 2 ≤ cfg.swapRounds)
    (hformat : cfg.FormatsNoOtherHash) (hnotify : cfg.notifyBeginHeight = -1)
    (hrows : ObeysAutomaton rows) {s : ParserState}
    (hs : runRows cfg raw rows = .ok ((), s)) (address : Address) :
    LogReplays s address (addressLines address s.notifyLog) := by
  have hinv := wp_of_ok (applyRows_txInv raw hcfg hrounds hformat hrows) hs
  have hlog := wp_of_ok (applyRows_log hnotify hrows objectsInv_initial) hs
  rw [ParserState.initial, ParserState.start, List.nil_append] at hlog
  have hempty : ∀ hash, hash ∈ (∅ : Finset Uint256) ↔ Ledger.empty.Live hash :=
    fun hash => by simp [Ledger.empty, Ledger.Live]
  have hempty' : ∀ hash, hash ∈ (∅ : Finset Uint256) ↔
      Ledger.empty.status hash = .confirmed := fun hash => by simp [Ledger.empty]
  rw [hlog]
  constructor
  · obtain ⟨live, hlive, hsum⟩ :=
      Along.net_sum moves_live (amountOf cfg raw address) hrows hempty
    rw [hinv.total_eq hlive, hsum, Finset.sum_empty, zero_add]
    exact eventSum_sub_eventSum (show Log2Type.txAccept ≠ .txReject by decide) rows
  · obtain ⟨held, hheld, hsum⟩ :=
      Along.net_sum moves_confirmed (amountOf cfg raw address) hrows hempty'
    rw [hinv.confirmed_eq hheld, hsum, Finset.sum_empty, zero_add]
    exact eventSum_sub_eventSum (show Log2Type.txConfirm ≠ .txUnconfirm by decide) rows
  · intro hash
    rw [types_rows]
    split
    · exact followsAutomaton_rows hrows hash
    · exact along_nil _
  · intro hash
    refine ⟨amountOf cfg raw address hash, fun line hline heq => ?_⟩
    rw [addressLines_rows] at hline
    obtain ⟨row, -, rfl⟩ := List.mem_map.mp hline
    exact congrArg (amountOf cfg raw address) heq

theorem notifyLog_replays_example :
    ∃ s, runRows exampleConfig exampleRaw exampleRows = .ok ((), s) ∧
      ∀ address, LogReplays s address (addressLines address s.notifyLog) := by
  obtain ⟨s, hs⟩ := exists_of_isOk exampleRows_isOk
  exact ⟨s, hs, notifyLog_replays exampleConfig exampleRaw exampleRows rfl (by decide)
    (fun _ _ _ h => by cases h) rfl (ObeysLifo.automaton (by decide)) hs⟩

end ExplorerKV.Parser

import ExplorerKV.Parser.TxInv

/-!
# The address lists after every run

From the four step lemmas: along every run that obeys the automaton the
invariant holds after each completed operation, whatever the rows' order
otherwise is.  With unconfirms in reverse order no assertion fails and no loop
runs on.  The two main results read the invariant off the store.
-/

namespace ExplorerKV.Parser

open Bitcoin Foundation

/--
Faults of a run whose transactions break the dependency order, list an address
twice in one output, or claim values out of range.
-/
def InputFault (e : Fault) : Prop :=
  e = .undefinedBehaviour ∨ e = .valueOutOfRange ∨
    ∃ address hash position, e = .notFoundKey (.addrUnspentIndex address hash position)

section Runs

variable {cfg : Config} {raw : RawTxs} {p : Ledger} {s : ParserState}
  {row : TxLog2Row} {rows : List TxLog2Row}

theorem txInv_initial : TxInv cfg raw .empty .initial where
  ledger := Ledger.wellFormed_empty
  objects := ⟨fun _ _ h => by cases h⟩
  live _ h := absurd rfl h
  lists address := by
    refine ⟨⟨[], []⟩, ⟨.empty _ (fun _ => rfl) _, rfl, by simp, by simp⟩, rfl,
      fun hash => ?_, by simp [TxZones.list]⟩
    simp [PendingOf, Ledger.empty]
  clean _ := rfl

theorem applyRow_eq : applyRow cfg raw row =
    match row.type with
    | .txAccept => acceptTx cfg (fetchTxLog2 raw row)
    | .txConfirm => confirmTx cfg (fetchTxLog2 raw row)
    | .txUnconfirm => unconfirmTx cfg (fetchTxLog2 raw row)
    | .txReject => rejectTx cfg (fetchTxLog2 raw row) := rfl

theorem applyRow_txInv (hcfg : cfg.kMaxCacheCount = none)
    (hrounds : 2 ≤ cfg.swapRounds) (hformat : cfg.FormatsNoOtherHash)
    (hallowed : p.TxAllowed row) (hinv : TxInv cfg raw p s) :
    wp (applyRow cfg raw row) (fun _ s' => TxInv cfg raw (p.next row) s')
      (fun e => InputFault e ∨
        ¬p.Lifo row ∧ e = .assertion .unconfirmAddressTxNode) s := by
  have hrange : InputFault .valueOutOfRange := .inr (.inl rfl)
  have hmissing : ∀ a hash n, InputFault (.notFoundKey (.addrUnspentIndex a hash n)) :=
    fun a hash n => .inr (.inr ⟨a, hash, n, rfl⟩)
  rw [applyRow_eq]
  cases htype : row.type with
  | txAccept =>
      refine wp_mono (acceptTx_spec (fun _ => True) (fun _ => True) hcfg hinv
        hallowed htype ?_ (fun hread s' _ => ?_) (fun _ => .inl (.inl rfl))
        fun _ => .inl hrange) (fun _ _ h => h.1) fun _ he => he
      · exact wp_mono (acceptTxOutputs_effects hcfg _
          fun out hout a ha => touches_of_vout hout ha) (fun _ _ _ => trivial)
          fun _ he => he
      · exact wp_mono (acceptTxInputs_effects hcfg
          (fun hcb => length_prevOutputs hcb hread)
          (fun output houtput a ha => touches_of_prevOutputs houtput ha)
          fun a hash n => .inl (hmissing a hash n)) (fun _ _ _ => trivial) fun _ he => he
  | txConfirm =>
      exact wp_mono (confirmTx_spec hcfg hrounds hinv hallowed htype fun _ => .inl hrange)
        (fun _ _ h => h.1) fun _ he => he
  | txUnconfirm =>
      exact wp_mono (unconfirmTx_spec hcfg hinv hallowed htype fun h => .inr ⟨h, rfl⟩)
        (fun _ _ h => h.1) fun _ he => he
  | txReject =>
      obtain ⟨-, hread⟩ := hinv.live row.txHash (by
        simp [Ledger.Live, hallowed.status, htype, Log2Type.statusBefore])
      refine wp_mono (rejectTx_spec (fun _ => True) (fun _ => True) hcfg hrounds
        (fun a hash => hformat _ a hash) hinv hallowed htype ?_ fun s' balance _ => ?_)
        (fun _ _ h => h.1) fun _ he => he
      · exact wp_mono (rejectTxInputs_effects hcfg [] prevOutputs_of_isCoinBase
          (fun hcb => length_prevOutputs hcb hread)
          fun output houtput a ha => touches_of_prevOutputs houtput ha)
          (fun _ _ _ => trivial) fun _ he => he
      · exact wp_mono (rejectTxOutputs_effects (Touches cfg raw row.txHash) balance
          fun a hash n => .inl (hmissing a hash n)) (fun _ _ _ => trivial) fun _ he => he

theorem applyRows_txInv (raw : RawTxs) (hcfg : cfg.kMaxCacheCount = none)
    (hrounds : 2 ≤ cfg.swapRounds) (hformat : cfg.FormatsNoOtherHash)
    (hrows : ObeysAutomaton rows) :
    wp (applyRows cfg raw rows) (fun _ s => TxInv cfg raw (.after rows) s)
      (fun e => InputFault e ∨ e = .assertion .unconfirmAddressTxNode) .initial :=
  wp_forM_along (TxInv cfg raw) (fun _ _ _ hallowed hinv =>
    wp_mono (applyRow_txInv hcfg hrounds hformat hallowed hinv) (fun _ _ h => h)
      fun _ he => he.imp id And.right) hrows txInv_initial

theorem applyRows_lifo (raw : RawTxs) (hcfg : cfg.kMaxCacheCount = none)
    (hrounds : 2 ≤ cfg.swapRounds) (hformat : cfg.FormatsNoOtherHash)
    (hrows : ObeysLifo rows) :
    wp (applyRows cfg raw rows) (fun _ s => TxInv cfg raw (.after rows) s)
      InputFault .initial :=
  wp_forM_along (TxInv cfg raw) (fun _ _ _ hallowed hinv =>
    wp_mono (applyRow_txInv hcfg hrounds hformat hallowed.1 hinv) (fun _ _ h => h)
      fun _ he => he.elim id fun h => absurd hallowed.2 h.1) hrows txInv_initial

end Runs

/-! ## The list of an address -/

/-- The `21_` and `22_` records of an address, against the confirms of the run. -/
structure AddressListCorrect (cfg : Config) (raw : RawTxs) (p : Ledger)
    (s : ParserState) (address : Address) : Prop where
  /-- the indices in use are `0` to `txCount_ - 1` -/
  positions : ∀ i, (s.kv (.addrTx address i)).isSome ↔
    0 ≤ i ∧ i < (s.infoOf address).txCount
  distinct : ∀ i j (x y : AddressTx), s.kv (.addrTx address i) = some x →
    s.kv (.addrTx address j) = some y → x.txHash = y.txHash → i = j
  index : ∀ i (x : AddressTx), s.kv (.addrTx address i) = some x →
    s.kv (.addrTxIndex address (.hex x.txHash)) = some i
  confirmed_height : ∀ i (x : AddressTx), s.kv (.addrTx address i) = some x →
    i ≤ (s.infoOf address).lastConfirmedTxIdx → 0 ≤ x.txHeight
  /-- the confirmed transactions stand in the order of their confirms -/
  confirmed_order : ∀ i (x : AddressTx), s.kv (.addrTx address i) = some x →
    i ≤ (s.infoOf address).lastConfirmedTxIdx →
    (confirmedOf cfg raw p address)[i.toNat]? = some x.txHash
  confirmed_length : (s.infoOf address).lastConfirmedTxIdx + 1 =
    (confirmedOf cfg raw p address).length
  pending_height : ∀ i (x : AddressTx), s.kv (.addrTx address i) = some x →
    (s.infoOf address).lastConfirmedTxIdx < i → x.txHeight = -1

theorem TxInv.addressList {cfg : Config} {raw : RawTxs} {p : Ledger}
    {s : ParserState} (hinv : TxInv cfg raw p s) (address : Address) :
    AddressListCorrect cfg raw p s address := by
  obtain ⟨z, hz, hconfirmed, -, -⟩ := hinv.lists address
  obtain ⟨hcount, -, -, -, -, -, hlast⟩ := txPart_eq_summary.mp hz.info
  have hnat : ∀ i (x : AddressTx), s.kv (.addrTx address i) = some x →
      ∃ n : Nat, i = n ∧ z.list[n]? = some x := by
    intro i x hx
    have hrange := (hz.stored.isSome_iff i).mp (by
      change (s.kv (.addrTx address i)).isSome
      rw [hx]
      rfl)
    obtain ⟨n, rfl⟩ := Int.eq_ofNat_of_zero_le hrange.1
    exact ⟨n, rfl, (hz.stored.node_natCast n).symm.trans hx⟩
  have hfront : ∀ (n : Nat) (x : AddressTx), z.list[n]? = some x →
      (n : Int) ≤ (s.infoOf address).lastConfirmedTxIdx →
      z.confirmed[n]? = some x := by
    intro n x hx hle
    rw [hlast] at hle
    rwa [TxZones.list, List.getElem?_append_left (by omega)] at hx
  constructor
  · intro i
    rw [hcount]
    exact hz.stored.isSome_iff i
  · intro i j x y hx hy heq
    obtain ⟨n, rfl, hn⟩ := hnat i x hx
    obtain ⟨m, rfl, hm⟩ := hnat j y hy
    have hindex := hz.stored.index_eq n x hn
    rw [heq, hz.stored.index_eq m y hm] at hindex
    exact (Option.some.inj hindex).symm
  · intro i x hx
    obtain ⟨n, rfl, hn⟩ := hnat i x hx
    exact hz.stored.index_eq n x hn
  · intro i x hx hle
    obtain ⟨n, rfl, hn⟩ := hnat i x hx
    exact hz.confirmed_height x (List.mem_of_getElem? (hfront n x hn hle))
  · intro i x hx hle
    obtain ⟨n, rfl, hn⟩ := hnat i x hx
    rw [← hconfirmed, List.getElem?_map, Int.toNat_natCast, hfront n x hn hle]
    rfl
  · rw [← hconfirmed, hlast, List.length_map]
    omega
  · intro i x hx hlt
    obtain ⟨n, rfl, hn⟩ := hnat i x hx
    rw [hlast] at hlt
    rw [TxZones.list, List.getElem?_append_right (by omega)] at hn
    exact hz.pending_height x (List.mem_of_getElem? hn)

/--
Along every run that obeys the automaton and unconfirms in reverse order, the
list of every address is correct after each operation; a run that faults does
so for its transactions, never by an assertion or an endless loop.
-/
theorem addressLists_correct (cfg : Config) (raw : RawTxs) (rows : List TxLog2Row)
    (hcfg : cfg.kMaxCacheCount = none) (hrounds : 2 ≤ cfg.swapRounds)
    (hformat : cfg.FormatsNoOtherHash) (hrows : ObeysLifo rows) :
    (∀ s, runRows cfg raw rows = .ok ((), s) →
      ∀ address, AddressListCorrect cfg raw (.after rows) s address) ∧
    ∀ e, runRows cfg raw rows = .error e →
      e ≠ .diverge ∧ ∀ site, e ≠ .assertion site := by
  have hrun := wp_iff.mp (applyRows_lifo raw hcfg hrounds hformat hrows)
  refine ⟨fun s hs => (hrun.1 () s hs).addressList, fun e he => ?_⟩
  rcases hrun.2 e he with rfl | rfl | ⟨_, _, _, rfl⟩ <;> simp

theorem addressLists_correct_example :
    ∃ s, runRows exampleConfig exampleRaw exampleRows = .ok ((), s) ∧
      ∀ address, AddressListCorrect exampleConfig exampleRaw (.after exampleRows) s
        address := by
  obtain ⟨s, hs⟩ := exists_of_isOk exampleRows_isOk
  exact ⟨s, hs, (addressLists_correct exampleConfig exampleRaw exampleRows rfl
    (by decide) (fun _ _ _ h => by cases h) (by decide)).1 s hs⟩

/-! ## Balances and counters -/

namespace ParserState

/-- The `21_` list of an address. -/
def addressTxList (s : ParserState) (address : Address) : List AddressTx :=
  (List.range (s.infoOf address).txCount.toNat).filterMap fun i : Nat =>
    s.nodeOf address i

/-- The part of the list behind `lastConfirmedTxIdx_`. -/
def pendingTxList (s : ParserState) (address : Address) : List AddressTx :=
  (s.addressTxList address).drop ((s.infoOf address).lastConfirmedTxIdx + 1).toNat

end ParserState

def positiveSum (entries : List AddressTx) : Int :=
  ((entries.map AddressTx.balanceDiff).filter (0 < ·)).sum

def negativeSum (entries : List AddressTx) : Int :=
  (((entries.map AddressTx.balanceDiff).filter (· < 0)).map (- ·)).sum

theorem sumOf_receivedPart (entries : List AddressTx) :
    sumOf receivedPart entries = positiveSum entries := by
  induction entries with
  | nil => rfl
  | cons entry entries ih =>
      rw [sumOf_cons, ih]
      unfold positiveSum receivedPart
      by_cases h : 0 < entry.balanceDiff <;> simp [h]

theorem sumOf_sentPart (entries : List AddressTx) :
    sumOf sentPart entries = negativeSum entries := by
  induction entries with
  | nil => rfl
  | cons entry entries ih =>
      rw [sumOf_cons, ih]
      unfold negativeSum sentPart
      by_cases h : entry.balanceDiff < 0 <;> simp [h]

/-- The totals of an address against its list, and its `20_` record. -/
structure BalancesCorrect (s : ParserState) (address : Address) : Prop where
  received : (s.infoOf address).received = positiveSum (s.addressTxList address)
  sent : (s.infoOf address).sent = negativeSum (s.addressTxList address)
  unconfirmedReceived : (s.infoOf address).unconfirmedReceived =
    positiveSum (s.pendingTxList address)
  unconfirmedSent : (s.infoOf address).unconfirmedSent =
    negativeSum (s.pendingTxList address)
  unconfirmedTxCount : (s.infoOf address).unconfirmedTxCount =
    (s.infoOf address).txCount - 1 - (s.infoOf address).lastConfirmedTxIdx
  /-- the record holds these values; an address never touched has none -/
  record : s.kv (.addrObject address) = some (s.infoOf address) ∨
    s.kv (.addrObject address) = none ∧ s.infoOf address = AddressInfo.empty ∧
      s.addressTxList address = []

theorem filterMap_range_getElem? {α : Type} (xs : List α) :
    (List.range xs.length).filterMap (fun i => xs[i]?) = xs := by
  induction xs using List.reverseRecOn with
  | nil => rfl
  | append_singleton xs x ih =>
      have hfront : ∀ i ∈ List.range xs.length, (xs ++ [x])[i]? = xs[i]? :=
        fun i hi => List.getElem?_append_left (List.mem_range.mp hi)
      rw [List.length_append, List.length_singleton, List.range_succ,
        List.filterMap_append, List.filterMap_congr hfront, ih]
      simp

theorem TxInv.balances {cfg : Config} {raw : RawTxs} {p : Ledger}
    {s : ParserState} (hinv : TxInv cfg raw p s) (address : Address) :
    BalancesCorrect s address := by
  obtain ⟨z, hz, -, -, -⟩ := hinv.lists address
  obtain ⟨hcount, hreceived, hsent, hpending, hureceived, husent, hlast⟩ :=
    txPart_eq_summary.mp hz.info
  have hlist : s.addressTxList address = z.list := by
    unfold ParserState.addressTxList
    rw [hcount, Int.toNat_natCast]
    have hnode : (fun i : Nat => s.nodeOf address i) = fun i => z.list[i]? :=
      funext hz.stored.node_natCast
    rw [hnode]
    exact filterMap_range_getElem? z.list
  have hpendingList : s.pendingTxList address = z.pending := by
    unfold ParserState.pendingTxList
    rw [hlist, hlast, TxZones.list]
    simp
  constructor
  · rw [hreceived, hlist, sumOf_receivedPart]
  · rw [hsent, hlist, sumOf_sentPart]
  · rw [hureceived, hpendingList, sumOf_receivedPart]
  · rw [husent, hpendingList, sumOf_sentPart]
  · rw [hcount, hpending, hlast, TxZones.list, List.length_append]
    omega
  · have hclean := hinv.clean address
    unfold ParserState.storedInfo at hclean
    cases hkv : s.kv (.addrObject address) with
    | some info =>
        rw [hkv] at hclean
        exact .inl (congrArg some hclean)
    | none =>
        rw [hkv] at hclean
        have hempty : s.infoOf address = AddressInfo.empty := hclean.symm
        refine .inr ⟨rfl, hempty, ?_⟩
        rw [hempty] at hcount
        rw [hlist]
        exact List.length_eq_zero_iff.mp (by simpa [AddressInfo.empty] using hcount.symm)

/--
Along every run that obeys the automaton and unconfirms in reverse order, the
totals of every address are those of its list, and its record holds them.
-/
theorem balances_correct (cfg : Config) (raw : RawTxs) (rows : List TxLog2Row)
    (hcfg : cfg.kMaxCacheCount = none) (hrounds : 2 ≤ cfg.swapRounds)
    (hformat : cfg.FormatsNoOtherHash) (hrows : ObeysLifo rows) {s : ParserState}
    (hs : runRows cfg raw rows = .ok ((), s)) (address : Address) :
    BalancesCorrect s address :=
  (wp_of_ok (applyRows_lifo raw hcfg hrounds hformat hrows) hs).balances address

theorem balances_correct_example :
    ∃ s, runRows exampleConfig exampleRaw exampleRows = .ok ((), s) ∧
      ∀ address, BalancesCorrect s address := by
  obtain ⟨s, hs⟩ := exists_of_isOk exampleRows_isOk
  exact ⟨s, hs, balances_correct exampleConfig exampleRaw exampleRows rfl (by decide)
    (fun _ _ _ h => by cases h) (by decide) hs⟩

end ExplorerKV.Parser

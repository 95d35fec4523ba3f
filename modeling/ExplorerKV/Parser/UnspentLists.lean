import ExplorerKV.Parser.AddressLists
import ExplorerKV.Parser.UnspentInv

/-!
# The unspent outputs after every run

Runs in dependency order.  The tables of every address are exact as long as no
output lists an address twice, and then the only thing a reject leaves wrong is
`unspentTxCount_`.  For arbitrary scripts a run has all its `24_` records as
long as it looks up distinct destinations.
-/

namespace ExplorerKV.Parser

open Bitcoin Foundation

section Runs

variable {cfg : Config} {raw : RawTxs} {p : Ledger} {s : ParserState}
  {row : TxLog2Row} {rows : List TxLog2Row}

/-- The faults left to a run in dependency order. -/
def RunFault (e : Fault) : Prop :=
  e = .valueOutOfRange ∨ e = .assertion .unconfirmAddressTxNode

theorem prevReadable_of_deps (hinv : TxInv cfg raw p s) (hdeps : p.Deps raw row)
    (htype : row.type = .txAccept) :
    ∀ out ∈ (raw row.txHash).tx.prevouts, PrevReadable cfg raw s.kv out := by
  intro out hout
  obtain ⟨hlive, hrange, -⟩ := hdeps.accept_prevout htype out hout
  refine ⟨(hinv.live out.hash hlive).1, ?_⟩
  rw [prevOutput_eq, List.getElem?_eq_getElem hrange]
  rfl

/-- One row, when the view functions of its type succeed with `V`. -/
theorem applyRow_view (V : UtxoView → Prop) (hcfg : cfg.kMaxCacheCount = none)
    (hrounds : 2 ≤ cfg.swapRounds) (hformat : cfg.FormatsNoOtherHash)
    (hinv : TxInv cfg raw p s) (hallowed : p.TxAllowed row) (hdeps : p.Deps raw row)
    (haccept : row.type = .txAccept →
      ∃ v, acceptView cfg raw s.utxoView row.txHash = some v ∧ V v)
    (hreject : row.type = .txReject →
      ∃ v, rejectView cfg raw s.utxoView row.txHash = some v ∧ V v)
    (hother : row.type = .txConfirm ∨ row.type = .txUnconfirm → V s.utxoView) :
    wp (applyRow cfg raw row)
      (fun _ s' => TxInv cfg raw (p.next row) s' ∧ V s'.utxoView) RunFault s := by
  rw [applyRow_eq]
  cases htype : row.type with
  | txAccept =>
      obtain ⟨v, hv, hV⟩ := haccept htype
      refine wp_mono (acceptTx_view hcfg hinv hallowed htype ?_ (fun _ => .inl rfl)
        fun hnone => by rw [hv] at hnone; cases hnone) ?_ fun _ he => he
      · rintro ⟨out, hout, hnot⟩
        exact absurd (prevReadable_of_deps hinv hdeps htype out hout) hnot
      · rintro _ s' ⟨hinv', hs'⟩
        obtain rfl := Option.some.inj (hv.symm.trans hs')
        exact ⟨hinv', hV⟩
  | txConfirm =>
      refine wp_mono (confirmTx_spec hcfg hrounds hinv hallowed htype fun _ => .inl rfl)
        ?_ fun _ he => he
      rintro _ s' ⟨hinv', hs'⟩
      exact ⟨hinv', hs' ▸ hother (.inl htype)⟩
  | txUnconfirm =>
      refine wp_mono (unconfirmTx_spec hcfg hinv hallowed htype fun _ => .inr rfl)
        ?_ fun _ he => he
      rintro _ s' ⟨hinv', hs'⟩
      exact ⟨hinv', hs' ▸ hother (.inr htype)⟩
  | txReject =>
      obtain ⟨v, hv, hV⟩ := hreject htype
      refine wp_mono (rejectTx_view hcfg hrounds hformat hinv hallowed htype
        fun hnone => by rw [hv] at hnone; cases hnone) ?_ fun _ he => he
      rintro _ s' ⟨hinv', hs'⟩
      obtain rfl := Option.some.inj (hv.symm.trans hs')
      exact ⟨hinv', hV⟩

/-! ## Arbitrary scripts -/

/-- Transaction records, linked ledger, and a `24_` record for every unspent output. -/
structure PresentInv (cfg : Config) (raw : RawTxs) (p : Ledger) (s : ParserState) :
    Prop where
  tx : TxInv cfg raw p s
  linked : p.Linked raw
  present : Present cfg raw p s.utxoView

theorem applyRow_presentInv (hcfg : cfg.kMaxCacheCount = none)
    (hrounds : 2 ≤ cfg.swapRounds) (hformat : cfg.FormatsNoOtherHash)
    (hallowed : p.TxAllowed row) (hdeps : p.Deps raw row)
    (hdistinct : DistinctLookups cfg raw row) (hinv : PresentInv cfg raw p s) :
    wp (applyRow cfg raw row) (fun _ s' => PresentInv cfg raw (p.next row) s')
      RunFault s :=
  wp_mono (applyRow_view (Present cfg raw (p.next row)) hcfg hrounds hformat hinv.tx
      hallowed hdeps (fun htype => hinv.present.accept hdeps htype hdistinct)
      (fun htype => hinv.present.reject hinv.linked hallowed hdeps htype hdistinct)
      fun htype => hinv.present.other hallowed htype)
    (fun _ _ h => ⟨h.1, hinv.linked.next hallowed hdeps, h.2⟩) fun _ he => he

theorem presentInv_initial : PresentInv cfg raw .empty .initial :=
  ⟨txInv_initial, Ledger.linked_empty, fun _ _ hlive => absurd rfl hlive⟩

/-! ## Distinct destinations -/

/--
Transaction records, linked ledger, live transactions whose outputs list an
address once, and exact tables.
-/
structure UnspentInv (cfg : Config) (raw : RawTxs) (p : Ledger) (s : ParserState) :
    Prop where
  tx : TxInv cfg raw p s
  linked : p.Linked raw
  distinct : ∀ hash, p.Live hash → DistinctOutputs cfg raw hash
  utxo : UtxoInv cfg raw p s.utxoView

theorem unspentInv_initial : UnspentInv cfg raw .empty .initial where
  tx := txInv_initial
  linked := Ledger.linked_empty
  distinct _ h := absurd rfl h
  utxo :=
    { tables := fun _ => (SlotTable.Exact.empty entryKey).congr fun _ =>
        ⟨False.elim, fun h => h.1 rfl⟩
      spend := fun _ _ _ => ⟨fun h => (nomatch h), fun h => absurd rfl h.1⟩ }

theorem applyRow_unspentInv (hcfg : cfg.kMaxCacheCount = none)
    (hrounds : 2 ≤ cfg.swapRounds) (hformat : cfg.FormatsNoOtherHash)
    (hallowed : p.TxAllowed row) (hdeps : p.Deps raw row)
    (hdistinct : DistinctOutputs cfg raw row.txHash) (hinv : UnspentInv cfg raw p s) :
    wp (applyRow cfg raw row) (fun _ s' => UnspentInv cfg raw (p.next row) s' ∧
      s.utxoView.Grows s'.utxoView) RunFault s := by
  have hdistinct' : ∀ hash, (p.next row).Live hash → DistinctOutputs cfg raw hash := by
    intro hash hlive
    by_cases heq : hash = row.txHash
    · exact heq ▸ hdistinct
    · rw [Ledger.next_live, if_neg heq] at hlive
      exact hinv.distinct hash hlive
  exact wp_mono (applyRow_view
      (fun v => UtxoInv cfg raw (p.next row) v ∧ s.utxoView.Grows v)
      hcfg hrounds hformat hinv.tx hallowed hdeps
      (fun htype => hinv.utxo.accept hinv.linked hallowed hdeps htype hdistinct')
      (fun htype => hinv.utxo.reject hinv.linked hallowed hdeps htype hinv.distinct)
      fun htype => ⟨hinv.utxo.other hallowed htype, .refl _⟩)
    (fun _ _ h => ⟨⟨h.1, hinv.linked.next hallowed hdeps, hdistinct', h.2.1⟩, h.2.2⟩)
    fun _ he => he

/-! ## Runs -/

theorem applyRows_unspentInv (raw : RawTxs) (hcfg : cfg.kMaxCacheCount = none)
    (hrounds : 2 ≤ cfg.swapRounds) (hformat : cfg.FormatsNoOtherHash)
    (hrows : Along (fun p row => p.TxAllowed row ∧ p.Deps raw row) Ledger.next p rows)
    (hdistinct : ∀ row ∈ rows, DistinctOutputs cfg raw row.txHash)
    (hinv : UnspentInv cfg raw p s) :
    wp (applyRows cfg raw rows) (fun _ s' =>
      UnspentInv cfg raw (rows.foldl Ledger.next p) s' ∧ s.utxoView.Grows s'.utxoView)
      RunFault s := by
  refine wp_forM_along
    (fun p s' => UnspentInv cfg raw p s' ∧ s.utxoView.Grows s'.utxoView)
    (fun p row s1 hallowed h => ?_) (hrows.and_mem hdistinct) ⟨hinv, .refl _⟩
  refine wp_mono (applyRow_unspentInv hcfg hrounds hformat hallowed.1.1 hallowed.1.2
    hallowed.2 h.1) ?_ fun _ he => he
  exact fun _ s2 h' => ⟨h'.1, h.2.trans h'.2⟩

end Runs

/-! ## The records of the unspent outputs -/

/-- The `23_` and `24_` records of an address, against the ledger. -/
structure UnspentListCorrect (cfg : Config) (raw : RawTxs) (p : Ledger)
    (s : ParserState) (address : Address) : Prop where
  /-- exactly the unspent outputs of live transactions that pay the address -/
  entries : ∀ e, (∃ i, s.kv (.addrUnspent address i) = some e) ↔
    p.Live e.txHash ∧
    (∃ out, (raw e.txHash).tx.vout[e.position]? = some out ∧ e.value = out.nValue ∧
      (outputAddresses cfg out)[e.position2]? = some address) ∧
    ∀ hash, p.Live hash → ∀ out ∈ (raw hash).tx.prevouts,
      ¬(out.hash = e.txHash ∧ out.n.toNat = e.position)
  once : ∀ i j (e : AddressUnspent), s.kv (.addrUnspent address i) = some e →
    s.kv (.addrUnspent address j) = some e → i = j
  index : ∀ hash position i, s.kv (.addrUnspentIndex address hash position) = some i ↔
    ∃ e : AddressUnspent, s.kv (.addrUnspent address i) = some e ∧ e.txHash = hash ∧
      e.position = position
  bound : ∀ i (e : AddressUnspent), s.kv (.addrUnspent address i) = some e →
    0 ≤ i ∧ i ≤ (s.infoOf address).unspentTxIndex

/-- The `02_` records name the live spender and the position of its input. -/
def SpentByCorrect (raw : RawTxs) (p : Ledger) (s : ParserState) : Prop :=
  ∀ hash position (x : TxSpentBy), s.kv (.txSpend hash position) = some x ↔
    p.Live x.txHash ∧ ∃ out, (raw x.txHash).tx.prevouts[x.position]? = some out ∧
      out.hash = hash ∧ out.n.toNat = position

def SlotsKept (s s' : ParserState) (address : Address) : Prop :=
  ∀ i, i ≤ (s.infoOf address).unspentTxIndex →
    s'.kv (.addrUnspent address i) = s.kv (.addrUnspent address i) ∨
      s'.kv (.addrUnspent address i) = none

theorem UnspentInv.unspentList {cfg : Config} {raw : RawTxs} {p : Ledger}
    {s : ParserState} (hinv : UnspentInv cfg raw p s) (address : Address) :
    UnspentListCorrect cfg raw p s address := by
  have htable := hinv.utxo.tables address
  constructor
  · intro e
    refine (htable.slot_iff e).trans ?_
    rw [Unspent, mem_ownEntries]
    constructor
    · rintro ⟨hlive, hspent, -, hout⟩
      refine ⟨hlive, hout, fun hash hhash out hmem hkey => hspent ?_⟩
      exact ⟨hash, hhash, out, hmem, Prod.ext hkey.1 hkey.2⟩
    · rintro ⟨hlive, hout, hspent⟩
      refine ⟨hlive, ?_, rfl, hout⟩
      rintro ⟨hash, hhash, out, hmem, hkey⟩
      exact hspent hash hhash out hmem (Prod.mk.inj hkey)
  · intro i j e hi hj
    exact htable.slot_injective hi hj
  · intro hash position i
    refine (htable.index_iff (hash, position) i).trans (exists_congr fun e => ?_)
    rw [entryKey, Prod.mk.injEq]
    rfl
  · intro i e hi
    exact htable.bound i e hi

theorem UnspentInv.spentBy {cfg : Config} {raw : RawTxs} {p : Ledger}
    {s : ParserState} (hinv : UnspentInv cfg raw p s) : SpentByCorrect raw p s := by
  intro hash position x
  refine (hinv.utxo.spend hash position x).trans (and_congr_right fun _ =>
    exists_congr fun out => ?_)
  rw [List.mem_zipIdx_iff_getElem?, outKey, Prod.mk.injEq]

/--
Along every run in dependency order over outputs that list each address at most
once, the unspent and spent-by records are exact after each operation, and a
slot is never used for two entries.  Such a run faults only for an amount out
of range or an unconfirm out of order.
-/
theorem unspentLists_correct (cfg : Config) (raw : RawTxs) (rows : List TxLog2Row)
    (hcfg : cfg.kMaxCacheCount = none) (hrounds : 2 ≤ cfg.swapRounds)
    (hformat : cfg.FormatsNoOtherHash) (hrows : ObeysDeps raw rows)
    (hdistinct : ∀ row ∈ rows, ∀ out ∈ (raw row.txHash).tx.vout,
      (outputAddresses cfg out).Nodup) :
    (∀ s, runRows cfg raw rows = .ok ((), s) →
      (∀ address, UnspentListCorrect cfg raw (.after rows) s address) ∧
      SpentByCorrect raw (.after rows) s ∧
      ∀ earlier later, rows = earlier ++ later →
        ∃ s0, runRows cfg raw earlier = .ok ((), s0) ∧
          ∀ address, SlotsKept s0 s address) ∧
    ∀ e, runRows cfg raw rows = .error e →
      e = .valueOutOfRange ∨ e = .assertion .unconfirmAddressTxNode := by
  have hrun := applyRows_unspentInv raw hcfg hrounds hformat hrows hdistinct
    unspentInv_initial
  refine ⟨fun s hs => ?_, fun e he =>
    show RunFault e from wp_of_error hrun he⟩
  have hinv := (wp_of_ok hrun hs).1
  refine ⟨hinv.unspentList, hinv.spentBy, ?_⟩
  rintro earlier later rfl
  have hsplit := (along_append ..).mp hrows
  unfold runRows at hs
  rw [applyRows_append, bind_run] at hs
  cases hearlier : applyRows cfg raw earlier .initial with
  | error e =>
      rw [hearlier] at hs
      cases hs
  | ok r =>
      obtain ⟨⟨⟩, s0⟩ := r
      rw [hearlier] at hs
      have hinv0 := (wp_of_ok (applyRows_unspentInv raw hcfg hrounds hformat hsplit.1
        (fun row hrow => hdistinct row (List.mem_append_left _ hrow)) unspentInv_initial)
        hearlier).1
      have hgrows := (wp_of_ok (applyRows_unspentInv raw hcfg hrounds hformat hsplit.2
        (fun row hrow => hdistinct row (List.mem_append_right _ hrow)) hinv0) hs).2
      exact ⟨s0, hearlier, fun address i hi => (hgrows address).slot_eq i hi⟩

/-! ## A run with a spend -/

def spendRaw (script : CScript) : RawTxs := fun hash =>
  { tx :=
      { nVersion := 1
        vin := if hash = 9 then [⟨⟨7, 0⟩, 0xffffffff⟩] else [⟨nullOutPoint, 0xffffffff⟩]
        vout := if hash = 9 then [⟨50 * COIN, payToPubkeyHash (List.replicate 20 66)⟩]
          else [⟨50 * COIN, script⟩]
        nLockTime := 0 }
    hexLength := 170 }

def spendRows : List TxLog2Row :=
  [⟨1, .txAccept, -1, -1, 0, 7⟩,
   ⟨2, .txConfirm, 100, 1, 1400000000, 7⟩,
   ⟨3, .txAccept, -1, -1, 0, 9⟩,
   ⟨4, .txReject, -1, -1, 0, 9⟩,
   ⟨5, .txAccept, -1, -1, 0, 9⟩]

theorem mem_prevouts_spendRaw {script : CScript} {hash : Uint256} {out : COutPoint} :
    out ∈ (spendRaw script hash).tx.prevouts ↔ hash = 9 ∧ out = ⟨7, 0⟩ := by
  by_cases h : hash = 9
  · have hcb : ¬(spendRaw script hash).tx.isCoinBase := by
      subst h
      exact Bool.eq_false_iff.mp rfl
    rw [CTransaction.prevouts_of_not_isCoinBase hcb]
    simp [spendRaw, h]
  · have hcb : (spendRaw script hash).tx.isCoinBase := by
      simp only [spendRaw, if_neg h]
      rfl
    simp [CTransaction.prevouts_of_isCoinBase hcb, h]

theorem deps_spendRaw {script : CScript} {p : Ledger} {row : TxLog2Row}
    (haccept : row.type = .txAccept → row.txHash = 9 → p.Live 7 ∧ ¬p.Live 9)
    (hreject : row.type = .txReject → row.txHash = 7 → ¬p.Live 9) :
    p.Deps (spendRaw script) row where
  accept_nodup htype := by
    by_cases h : row.txHash = 9
    · rw [h]
      exact List.nodup_singleton _
    · rw [List.eq_nil_iff_forall_not_mem.mpr fun out hout =>
        h (mem_prevouts_spendRaw.mp hout).1]
      exact List.nodup_nil
  accept_prevout htype out hout := by
    obtain ⟨hhash, rfl⟩ := mem_prevouts_spendRaw.mp hout
    obtain ⟨hlive, hfresh⟩ := haccept htype hhash
    refine ⟨hlive, by simp [spendRaw], fun hash hhash' hout' => ?_⟩
    exact hfresh ((mem_prevouts_spendRaw.mp hout').1 ▸ hhash')
  reject_unspent htype out hout hash hlive hmem := by
    obtain ⟨rfl, rfl⟩ := mem_prevouts_spendRaw.mp hmem
    exact hreject htype hout.symm hlive

theorem obeysDeps_spendRaw (script : CScript) {rows : List TxLog2Row}
    (h : Along (fun p row => p.TxAllowed row ∧
        (row.type = .txAccept → row.txHash = 9 → p.Live 7 ∧ ¬p.Live 9) ∧
        (row.type = .txReject → row.txHash = 7 → ¬p.Live 9))
      Ledger.next .empty rows) : ObeysDeps (spendRaw script) rows :=
  h.mono fun _ _ hrow => ⟨hrow.1, deps_spendRaw hrow.2.1 hrow.2.2⟩

theorem unspentLists_correct_example :
    ∃ s, runRows exampleConfig (spendRaw (payToPubkeyHash (List.replicate 20 65)))
        spendRows = .ok ((), s) ∧
      (∀ address, UnspentListCorrect exampleConfig
        (spendRaw (payToPubkeyHash (List.replicate 20 65))) (.after spendRows) s address) ∧
      SpentByCorrect (spendRaw (payToPubkeyHash (List.replicate 20 65)))
        (.after spendRows) s := by
  obtain ⟨s, hs⟩ := exists_of_isOk (show (runRows exampleConfig
    (spendRaw (payToPubkeyHash (List.replicate 20 65))) spendRows).isOk = true by
      decide +kernel)
  obtain ⟨hlists, hspent, -⟩ := (unspentLists_correct exampleConfig _ spendRows rfl
    (by decide) (fun _ _ _ h => by cases h) (obeysDeps_spendRaw _ (by decide))
    (by decide +kernel)).1 s hs
  exact ⟨s, hs, hlists, hspent⟩

/-! ## The unspent counter -/

/-- How many `23_` records the address has. -/
noncomputable def unspentRecords (s : ParserState) (address : Address) : Nat :=
  {i | (s.kv (.addrUnspent address i)).isSome}.ncard

/-- `unspentTxCount_` and its copy in the `20_` record count the `23_` records. -/
structure UnspentCountCorrect (s : ParserState) (address : Address) : Prop where
  cached : (s.infoOf address).unspentTxCount = unspentRecords s address
  record : ∀ info : AddressInfo, s.kv (.addrObject address) = some info →
    info.unspentTxCount = unspentRecords s address

theorem UnspentInv.unspentTxCount_eq {cfg : Config} {raw : RawTxs} {p : Ledger}
    {s : ParserState} (hinv : UnspentInv cfg raw p s) (address : Address) :
    (s.infoOf address).unspentTxCount =
      unspentRecords s address + missedRemovals cfg raw p address :=
  (hinv.utxo.tables address).count_eq

theorem UnspentInv.unspentCount_iff {cfg : Config} {raw : RawTxs} {p : Ledger}
    {s : ParserState} (hinv : UnspentInv cfg raw p s) (address : Address) :
    UnspentCountCorrect s address ↔ missedRemovals cfg raw p address = 0 := by
  have hcount := hinv.unspentTxCount_eq address
  constructor
  · intro h
    have := h.cached
    omega
  · intro h
    have hcached : (s.infoOf address).unspentTxCount = unspentRecords s address := by
      omega
    refine ⟨hcached, fun info hinfo => ?_⟩
    have hclean := hinv.tx.clean address
    rw [ParserState.storedInfo, hinfo] at hclean
    rw [← hcached, ← hclean]
    rfl

theorem paidOutputs_eq_zero {cfg : Config} {raw : RawTxs} {hash : Uint256}
    {address : Address} : paidOutputs cfg raw hash address = 0 ↔
      ∀ out ∈ (raw hash).tx.vout, address ∉ outputAddresses cfg out := by
  rw [paidOutputs, List.count_eq_zero, List.mem_map]
  constructor
  · intro h out hout ha
    obtain ⟨n, hn⟩ := List.mem_iff_getElem?.mp hout
    exact h ⟨(address, hash, n), mem_ownKeys.mpr ⟨rfl, out, hn, ha⟩, rfl⟩
  · rintro h ⟨⟨a, k⟩, hk, rfl⟩
    obtain ⟨-, out, hout, ha⟩ := mem_ownKeys.mp hk
    exact h out (List.mem_of_getElem? hout) ha

theorem Ledger.mem_rejected (rows : List TxLog2Row) (hash : Uint256) :
    hash ∈ (Ledger.after rows).rejected ↔
      ∃ row ∈ rows, row.type = .txReject ∧ row.txHash = hash := by
  induction rows using List.reverseRecOn with
  | nil => simp [after, empty]
  | append_singleton rows row ih =>
      have hnext : Ledger.after (rows ++ [row]) = (Ledger.after rows).next row := by
        simp [after]
      rw [hnext, next]
      by_cases htype : row.type = .txReject
      · simp [htype, ih, or_comm, eq_comm]
      · simp [htype, ih]

theorem missedRemovals_eq_zero {cfg : Config} {raw : RawTxs} {p : Ledger}
    {address : Address} : missedRemovals cfg raw p address = 0 ↔
      ∀ hash ∈ p.rejected, paidOutputs cfg raw hash address = 0 := by
  unfold missedRemovals
  induction p.rejected with
  | nil => simp
  | cons hash rest ih =>
      have hrest : 0 ≤ (rest.map fun hash => (paidOutputs cfg raw hash address : Int)).sum :=
        List.sum_nonneg fun x hx => by
          obtain ⟨_, -, rfl⟩ := List.mem_map.mp hx
          exact Int.natCast_nonneg _
      rw [List.map_cons, List.sum_cons, List.forall_mem_cons, ← ih]
      omega

/--
Along every run in dependency order over outputs that list each address at most
once: the unspent counter of an address is right if and only if no rejected
transaction has paid it.
-/
theorem unspentCount_correct_iff (cfg : Config) (raw : RawTxs) (rows : List TxLog2Row)
    (hcfg : cfg.kMaxCacheCount = none) (hrounds : 2 ≤ cfg.swapRounds)
    (hformat : cfg.FormatsNoOtherHash) (hrows : ObeysDeps raw rows)
    (hdistinct : ∀ row ∈ rows, ∀ out ∈ (raw row.txHash).tx.vout,
      (outputAddresses cfg out).Nodup)
    {s : ParserState} (hs : runRows cfg raw rows = .ok ((), s)) (address : Address) :
    UnspentCountCorrect s address ↔
      ∀ row ∈ rows, row.type = .txReject →
        ∀ out ∈ (raw row.txHash).tx.vout, address ∉ outputAddresses cfg out := by
  have hinv := (wp_of_ok (applyRows_unspentInv raw hcfg hrounds hformat hrows hdistinct
    unspentInv_initial) hs).1
  rw [hinv.unspentCount_iff, missedRemovals_eq_zero]
  constructor
  · intro h row hrow htype
    exact paidOutputs_eq_zero.mp
      (h _ ((Ledger.mem_rejected rows _).mpr ⟨row, hrow, htype, rfl⟩))
  · intro h hash hhash
    obtain ⟨row, hrow, htype, rfl⟩ := (Ledger.mem_rejected rows hash).mp hhash
    exact paidOutputs_eq_zero.mpr (h row hrow htype)

theorem unspentCount_correct_iff_example :
    ∃ s, runRows exampleConfig (spendRaw (payToPubkeyHash (List.replicate 20 65)))
        spendRows = .ok ((), s) ∧
      (UnspentCountCorrect s (exampleConfig.addressToString
          (.keyID (List.replicate 20 65))) ↔
        ∀ row ∈ spendRows, row.type = .txReject →
          ∀ out ∈ (spendRaw (payToPubkeyHash (List.replicate 20 65)) row.txHash).tx.vout,
            exampleConfig.addressToString (.keyID (List.replicate 20 65)) ∉
              outputAddresses exampleConfig out) := by
  obtain ⟨s, hs⟩ := exists_of_isOk (show (runRows exampleConfig
    (spendRaw (payToPubkeyHash (List.replicate 20 65))) spendRows).isOk = true by
      decide +kernel)
  exact ⟨s, hs, unspentCount_correct_iff exampleConfig _ spendRows rfl (by decide)
    (fun _ _ _ h => by cases h) (obeysDeps_spendRaw _ (by decide)) (by decide +kernel) hs _⟩

/--
An accepted and rejected transaction leaves the counter of the address it pays
at one, with no record behind it.
-/
theorem unspentCount_wrong_after_reject :
    ObeysDeps (spendRaw (payToPubkeyHash (List.replicate 20 65))) (spendRows.take 4) ∧
    (∀ row ∈ spendRows.take 4, DistinctOutputs exampleConfig
      (spendRaw (payToPubkeyHash (List.replicate 20 65))) row.txHash) ∧
    ∃ s, runRows exampleConfig (spendRaw (payToPubkeyHash (List.replicate 20 65)))
        (spendRows.take 4) = .ok ((), s) ∧
      ¬UnspentCountCorrect s
        (exampleConfig.addressToString (.keyID (List.replicate 20 66))) := by
  have hrows : ObeysDeps (spendRaw (payToPubkeyHash (List.replicate 20 65)))
      (spendRows.take 4) := obeysDeps_spendRaw _ (by decide)
  refine ⟨hrows, by decide +kernel, ?_⟩
  obtain ⟨s, hs⟩ := exists_of_isOk (show (runRows exampleConfig
    (spendRaw (payToPubkeyHash (List.replicate 20 65))) (spendRows.take 4)).isOk = true by
      decide +kernel)
  have hinv := (wp_of_ok (applyRows_unspentInv
    (spendRaw (payToPubkeyHash (List.replicate 20 65))) rfl (by decide)
    (fun _ _ _ h => by cases h) hrows (by decide +kernel) unspentInv_initial) hs).1
  refine ⟨s, hs, fun h => absurd ((hinv.unspentCount_iff _).mp h) ?_⟩
  decide +kernel

end ExplorerKV.Parser

import ExplorerKV.Log2.ProducerRun
import ExplorerKV.Parser.Lookups
import ExplorerKV.Parser.UnconfirmedPool

/-!
# The parser behind the producer

The parser handles the rows the producer has committed.  The rows obey what the
parser relies on, so its store is that of the node's chain and memory pool: the
unspent outputs, the spenders, the lists and totals of the addresses and the
records of the unconfirmed transactions.
-/

namespace ExplorerKV.Log2

open Bitcoin Foundation ExplorerKV.Parser
open Logs (Log1)

namespace NodeView

/-- In a block of the chain or in the pool. -/
def Known (v : NodeView) (hash : Uint256) : Prop := hash ∈ v.confirmed ∨ hash ∈ v.pool

/-- The entry is an output of a known transaction that pays the address, and is not spent. -/
structure UnspentOf (cfg : Config) (raw : RawTxs) (v : NodeView) (address : Address)
    (e : AddressUnspent) : Prop where
  known : v.Known e.txHash
  output : ∃ out, (raw e.txHash).tx.vout[e.position]? = some out ∧ e.value = out.nValue ∧
    (outputAddresses cfg out)[e.position2]? = some address
  unspent : ∀ hash, v.Known hash → ∀ out ∈ (raw hash).tx.prevouts,
    ¬(out.hash = e.txHash ∧ out.n.toNat = e.position)

end NodeView

/-- The store tells the chain and the pool of the view. -/
structure StoreOf (cfg : Config) (raw : RawTxs) (v : NodeView) (s : ParserState) : Prop where
  unspent : ∀ address e, (∃ i, s.kv (.addrUnspent address i) = some e) ↔
    v.UnspentOf cfg raw address e
  spentBy : ∀ hash position (x : TxSpentBy), s.kv (.txSpend hash position) = some x ↔
    v.Known x.txHash ∧ ∃ out, (raw x.txHash).tx.prevouts[x.position]? = some out ∧
      out.hash = hash ∧ out.n.toNat = position
  /-- the confirmed part of an address's list, in the order of the chain -/
  confirmed : ∀ address i (x : AddressTx), s.kv (.addrTx address i) = some x →
    i ≤ (s.infoOf address).lastConfirmedTxIdx →
    (v.confirmed.reverse.filter fun hash => Touches cfg raw hash address)[i.toNat]? = some x.txHash
  confirmed_length : ∀ address, (s.infoOf address).lastConfirmedTxIdx + 1 =
    (v.confirmed.reverse.filter fun hash => Touches cfg raw hash address).length
  balances : ∀ address, BalancesCorrect s address
  unconfirmed : ∀ hash, (s.kv (.txUnconfirmed hash)).isSome ↔ hash ∈ v.pool

section Store

variable {cfg : Config} {raw : RawTxs} {v : NodeView} {p : Ledger} {s : ParserState}

theorem storeOf_of_tracks (hp : p.WellFormed) (htracks : p.Tracks v.confirmed v.pool)
    (hunspent : UnspentInv cfg raw p s) (hpool : PoolInv raw p s) : StoreOf cfg raw v s := by
  have hlive : ∀ hash, p.Live hash ↔ v.Known hash := fun _ => htracks.live_iff hp
  have hlist := fun address => hunspent.tx.addressList address
  refine ⟨fun address e => ?_, fun hash position x => ?_, fun address i x hx hle => ?_,
    fun address => ?_, fun address => hunspent.tx.balances address, fun hash => ?_⟩
  · refine ((hunspent.unspentList address).entries e).trans ?_
    simp only [hlive]
    exact ⟨fun ⟨hknown, hout, hfree⟩ => ⟨hknown, hout, hfree⟩,
      fun h => ⟨h.known, h.output, h.unspent⟩⟩
  · exact (hunspent.spentBy hash position x).trans (and_congr_left' (hlive _))
  · have horder := (hlist address).confirmed_order i x hx hle
    rwa [confirmedOf, htracks.confirmed] at horder
  · have hlength := (hlist address).confirmed_length
    rwa [confirmedOf, htracks.confirmed] at hlength
  · rw [hpool.record_iff, htracks.pool]

theorem runRows_of_emits (hcfg : cfg.kMaxCacheCount = none) (hrounds : 2 ≤ cfg.swapRounds)
    (hformat : cfg.FormatsNoOtherHash) {rows : List TxLog2Row}
    (hrows : Along (Ledger.Emits raw) Ledger.next .empty rows)
    (htracks : (Ledger.after rows).Tracks v.confirmed v.pool)
    (hdistinct : ∀ row ∈ rows, DistinctOutputs cfg raw row.txHash) :
    (∀ s, runRows cfg raw rows = .ok ((), s) → StoreOf cfg raw v s) ∧
    ∀ e, runRows cfg raw rows = .error e → e = .valueOutOfRange := by
  have hdeps : ObeysDeps raw rows := hrows.mono fun _ _ h => ⟨h.allowed, h.deps⟩
  have hlifo : ObeysLifo rows := hrows.mono fun _ _ h => ⟨h.allowed, h.lifo⟩
  have hunspent := applyRows_unspentInv raw hcfg hrounds hformat hdeps hdistinct unspentInv_initial
  have hpool : wp (applyRows cfg raw rows) (fun _ s => PoolInv raw (.after rows) s) (fun _ => True)
      .initial :=
    wp_forM_along (PoolInv raw) (fun _ _ _ hallowed hinv =>
      wp_mono (applyRow_poolInv hallowed hinv) (fun _ _ h => h.1) fun _ he => he)
      hlifo.automaton poolInv_initial
  refine ⟨fun s hs => ?_, fun e he => ?_⟩
  · have hinv : UnspentInv cfg raw (.after rows) s := (wp_of_ok hunspent hs).1
    have hrecords := wp_of_ok hpool hs
    exact storeOf_of_tracks hinv.tx.ledger htracks hinv hrecords
  · rcases wp_of_error hunspent he with hrange | hassert
    · exact hrange
    · rcases wp_of_error (applyRows_lifo raw hcfg hrounds hformat hlifo) he with
        hundefined | hrange | ⟨_, _, _, hkey⟩
      · exact absurd (hassert.symm.trans hundefined) (by simp)
      · exact hrange
      · exact absurd (hassert.symm.trans hkey) (by simp)

end Store

/-! ## A block and a spend -/

def spendLogRaw : RawTxs := spendRaw (payToPubkeyHash (List.replicate 20 65))

def spendLogBlocks : Uint256 → RawBlock := fun _ => ⟨11, 1, ⟨10, 1, [7]⟩⟩

/-- The block of `7`, then `9` that spends it. -/
def spendLog : NodeLog := ⟨[], [.block 1 11, .acceptTx 9]⟩

theorem spendLog_valid : spendLog.Valid spendLogRaw spendLogBlocks runStart where
  earlier := trivial
  items := by
    refine ⟨.accept ⟨rfl, by decide, by decide, rfl, ⟨7, [], rfl, by decide +kernel, by simp⟩,
      fun _ _ => List.not_mem_nil, ⟨?_, by decide +kernel, by decide +kernel, by decide +kernel⟩⟩,
      .acceptTx ⟨by decide +kernel, by decide +kernel, by decide +kernel, fun out hout => ?_⟩,
      trivial⟩
    · intro before tx after hvtx out hout
      have hmem : tx ∈ [hashedTx spendLogRaw 7] := by
        change [hashedTx spendLogRaw 7] = _ at hvtx
        simp [hvtx]
      have hnone : (hashedTx spendLogRaw 7).prevouts = [] := by decide +kernel
      rw [List.mem_singleton.mp hmem, hnone] at hout
      cases hout
    · have hprevout : out = ⟨7, 0⟩ := by
        have hall : ∀ out ∈ (hashedTx spendLogRaw 9).inputs, out = ⟨7, 0⟩ := by decide +kernel
        exact hall out hout
      subst hprevout
      change ¬SpentOn [hashedTx spendLogRaw 7] _ ∧ (CreatedOn [hashedTx spendLogRaw 7] _ ∨ _)
      have havailable : ¬SpentOn [hashedTx spendLogRaw 7] ⟨7, 0⟩ ∧
          CreatedOn [hashedTx spendLogRaw 7] ⟨7, 0⟩ := by
        unfold SpentOn CreatedOn
        decide +kernel
      exact havailable.imp_right .inl

theorem spendLog_reaches : ∃ s,
    Reaches spendLogRaw spendLogBlocks runStart spendLog runInstalled (.running s) ∧
      s.currLog1FileOffset = 2 := by
  have hinstalled : runInstalled.Installed spendLogBlocks := { runInstalled_installed with
    named := by simp [runInstalled] }
  have hstore : CaughtUp runStart (spendLog.viewAfter spendLogRaw spendLogBlocks runStart 0)
      runInstalled ⟨0, [⟨0, 10, 1⟩]⟩ :=
    ⟨rfl, by simp, fun _ => ⟨⟨0, 10, 1⟩, rfl, rfl, rfl⟩, Nat.zero_le _⟩
  obtain ⟨s, hinit, hread, -⟩ := (hinstalled.stored spendLog_valid).started hstore
  exact (Reaches.install.start hstore hinit).go_on spendLog_valid hinstalled
    (hread.le.trans (Nat.zero_le 2)) (by decide)

section Results

variable {cfg : Config} {raw : RawTxs} {blocks : Uint256 → RawBlock} {start : BeginBlock}
  {log : NodeLog} {installed : Log2Tables}

/--
From a valid log1 to the store: whatever the producer has committed in any run, with
stops and starts, the transaction handlers of the parser make of it the store of the
node's chain and pool, or end at a transaction with an amount out of range.  The
records of the blocks, which `acceptBlock` and `rejectBlock` write, have no part in it.
-/
theorem parser_follows_node (hcfg : cfg.kMaxCacheCount = none) (hrounds : 2 ≤ cfg.swapRounds)
    (hformat : cfg.FormatsNoOtherHash) (hvalid : log.Valid raw blocks start)
    (hearlier : log.earlier = []) (hinstalled : installed.Installed blocks) {state : RunState}
    (h : Reaches raw blocks start log installed state)
    (hdistinct : ∀ row ∈ state.tables.committed, DistinctOutputs cfg raw row.txHash) :
    (∀ s, runRows cfg raw state.tables.committed = .ok ((), s) →
      StoreOf cfg raw (log.viewAfter raw blocks start state.tables.offset) s) ∧
    ∀ e, runRows cfg raw state.tables.committed = .error e → e = .valueOutOfRange := by
  have hstored := h.stored hvalid hinstalled
  have hempty : Ledger.ofConfirmed (log.viewAfter raw blocks start state.tables.offset).earlier =
      .empty := by
    rw [NodeLog.viewAfter_earlier, hearlier]
    simp [Ledger.ofConfirmed, Ledger.empty]
  have hobeys := hstored.holds.obeys
  have htracks := hstored.holds.tracks
  rw [hempty] at hobeys
  rw [Log2Tables.ledger, hempty] at htracks
  exact runRows_of_emits hcfg hrounds hformat hobeys htracks hdistinct

theorem parser_follows_node_spendLog : ∃ s,
    Reaches spendLogRaw spendLogBlocks runStart spendLog runInstalled (.running s) ∧
      s.currLog1FileOffset = 2 ∧
      (∀ store, runRows exampleConfig spendLogRaw s.db.committed = .ok ((), store) →
        StoreOf exampleConfig spendLogRaw
          (spendLog.viewAfter spendLogRaw spendLogBlocks runStart s.db.offset) store) ∧
      ∀ e, runRows exampleConfig spendLogRaw s.db.committed = .error e → e = .valueOutOfRange := by
  obtain ⟨s, h, hread⟩ := spendLog_reaches
  have hinstalled : runInstalled.Installed spendLogBlocks := { runInstalled_installed with
    named := by simp [runInstalled] }
  exact ⟨s, h, hread, parser_follows_node rfl (by decide) (fun _ _ _ h => by cases h) spendLog_valid
    rfl hinstalled h fun row _ => distinctOutputs_spendRaw row.txHash⟩

end Results

end ExplorerKV.Log2

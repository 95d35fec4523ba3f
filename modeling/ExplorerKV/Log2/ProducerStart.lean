import ExplorerKV.Log2.ProducerHandlers

/-!
# A start of the producer

A start deletes the temporary rows, loads the memory pool from `0_memrepo_txs`, and
takes the current block and the timestamps from the parser's store.  From tables
that hold a view it gives a producer that follows it.
-/

namespace ExplorerKV.Log2

open Bitcoin Foundation ExplorerKV.Parser
open MemTxRepository (RepoOf)

variable {raw : RawTxs} {blocks : Uint256 → RawBlock} {start : BeginBlock} {v : NodeView}
  {db : Log2Tables} {store : StoredChain}

def Log2Tables.restarted (db : Log2Tables) : Log2Tables :=
  { db with txlogs2 := db.txlogs2.filter fun entry => !entry.temporary }

theorem Log2Tables.settled_restarted : db.restarted.Settled := fun entry hentry => by
  simpa using (List.mem_filter.mp hentry).2

theorem Log2Tables.committed_restarted : db.restarted.committed = db.committed := by
  rw [committed, committed, restarted, List.filter_filter]
  simp

theorem Log2Tables.Holds.restarted (h : db.Holds raw blocks v) : db.restarted.Holds raw blocks v :=
  { h with
    obeys := by rw [committed_restarted]; exact h.obeys
    tracks := by rw [ledger, committed_restarted]; exact h.tracks
    fetchable := fun row hrow => by
      rw [committed_restarted] at hrow
      exact (h.fetchable row hrow).mono (Finset.Subset.refl _) (List.Subset.refl _)
    ids := h.ids.filter _
    ids_lt := fun entry hentry => h.ids_lt entry (List.mem_filter.mp hentry).1 }

/-- `0_memrepo_txs` is loaded into an empty repository. -/
theorem loadMemrepoTxs_spec (hview : v.Sound raw blocks start) (h : db.Holds raw blocks v) :
    ∃ m, db.memrepoTxs.foldlM (loadMemrepoTx raw db.rawTxs) .empty = .ok m ∧
      RepoOf raw m v.pool := by
  have hlive : ∀ x ∈ db.memrepoTxs, (db.ledger v).Live x ∧
      ¬(raw x).tx.isCoinBase ∧ x ∈ db.rawTxs := fun x hx => by
    have hpool := (h.memrepo_iff x).mp hx
    exact ⟨(h.tracks.live_iff h.sound.wellFormed).mpr (.inr hpool), hview.not_coinBase x hpool,
      h.pool_raw hpool⟩
  obtain ⟨m, hload, hrepo⟩ := MemTxRepository.load_live h.sound MemTxRepository.repoOf_empty
    (fun _ hx => hx.elim) h.memrepo_nodup (fun _ _ hx => hx) hlive
  have hpool : (∅ ∪ {x | x ∈ db.memrepoTxs} : Set Uint256) = v.pool := by
    ext x
    simp [h.memrepo_iff]
  exact ⟨m, hload, hpool ▸ hrepo⟩

theorem loadTimes_spec (hstore : CaughtUp start v db store) (hle : v.chain.length ≤ v.highest) :
    ∃ blkTs, (store.blocks.filter fun block => v.height start - 2016 * 2 ≤ block.height).foldlM
        pushStored ⟨2016 * 2, 0, []⟩ = .ok blkTs ∧ TimeWindow start v blkTs := by
  by_cases hblocks : store.blocks = []
  · have hchain := hstore.length
    rw [hblocks, List.length_nil, Nat.le_zero] at hchain
    rw [hblocks]
    exact ⟨_, rfl, .empty _, by rw [hchain, Nat.zero_min]; exact Nat.zero_le _⟩
  · obtain ⟨last, hlast, hheight, -⟩ := hstore.tip (.inr hblocks)
    obtain ⟨kept, hfilter, hkept, hlast', hlength⟩ := filter_of_isChain hstore.consecutive hlast
    have hfirst : ∀ first ∈ kept.head?, first.height = v.height start - kept.length + 1 := by
      intro first hfirst
      obtain ⟨rest, rfl⟩ := List.head?_eq_some_iff.mp hfirst
      have htop := height_of_getLast? hkept hlast'
      rw [← hheight, htop, List.length_cons]
      push_cast
      omega
    obtain ⟨blkTs, hload, hconsecutive, hlength'⟩ :=
      pushStored_of_isChain (.empty (v.height start - kept.length)) hkept hfirst
    rw [Int.sub_add_cancel] at hconsecutive
    refine ⟨blkTs, by rw [← hheight, hfilter]; exact hload, hconsecutive, ?_⟩
    have hall := hstore.length
    rw [hlength', List.length_nil]
    omega

theorem Log2Tables.Holds.chain_of_no_rows (h : db.Holds raw blocks v)
    (hview : v.Sound raw blocks start)
    (hrows : db.committed = []) : v.chain = [] := by
  have hconfirmed := h.tracks.confirmed
  rw [Log2Tables.ledger, hrows, NodeView.confirmed, NodeView.confirmedOn_eq] at hconfirmed
  have hnone : v.chain.flatMap (fun block => block.blk.vtx.reverse) = [] :=
    List.self_eq_append_left.mp hconfirmed
  cases hchain : v.chain with
  | nil => rfl
  | cons block below =>
      have hsound := hview.chain
      rw [hchain] at hsound
      obtain ⟨first, rest, hvtx, -⟩ := hsound.1.coinBase
      rw [hchain, List.flatMap_cons, hvtx] at hnone
      simp at hnone

theorem tipHash_ne_zero (hview : v.Sound raw blocks start) :
    NodeView.tipHash start v.chain ≠ 0 := by
  have hsound := hview.chain
  cases hchain : v.chain with
  | nil => exact start.hash_ne_zero
  | cons block below =>
      rw [hchain] at hsound
      exact hsound.1.hash_ne_zero

theorem beginBlock_spec (hview : v.Sound raw blocks start) (h : db.Holds raw blocks v)
    (hstore : CaughtUp start v db store) :
    beginBlock start store store.txlogsOffset =
      .ok (v.height start, NodeView.tipHash start v.chain) := by
  by_cases hpos : store.txlogsOffset > 0
  · obtain ⟨last, hlast, hheight, hhash⟩ := hstore.tip (.inl hpos)
    have hvalid : ¬(last.hash = 0 ∨ last.height < 0) := by
      rintro (hzero | hneg)
      · exact tipHash_ne_zero hview (hhash ▸ hzero)
      · have hstart := start.height_nonneg
        rw [hheight, NodeView.height] at hneg
        omega
    rw [beginBlock, if_pos hpos, hlast]
    dsimp only
    rw [if_neg hvalid, hheight, hhash]
  · have hrows : db.committed = [] := by
      rw [hstore.offset] at hpos
      rw [Log2Tables.committed]
      cases hlast : (db.txlogs2.filter fun entry => !entry.temporary).getLast? with
      | none => rw [List.getLast?_eq_none_iff.mp hlast, List.map_nil]
      | some entry =>
          have hid := (h.ids_lt entry (List.mem_filter.mp (List.mem_of_getLast? hlast)).1).1
          rw [hlast] at hpos
          exact absurd hid hpos
    have hchain := h.chain_of_no_rows hview hrows
    rw [beginBlock, if_neg hpos, NodeView.height, hchain]
    simp [NodeView.tipHash]

theorem initLog2_spec (hview : v.Sound raw blocks start) (h : db.Holds raw blocks v)
    (hstore : CaughtUp start v db store) :
    ∃ s, initLog2 raw start store db = .ok s ∧ Follows raw blocks start v s ∧
      s.db = db.restarted ∧ s.currLog1FileOffset = db.offset ∧ s.statements = [] := by
  obtain ⟨m, hload, hrepo⟩ := loadMemrepoTxs_spec hview h
  obtain ⟨blkTs, htimes, hwindow⟩ := loadTimes_spec hstore hview.length_le
  have hbegin := beginBlock_spec hview h hstore
  have hoffset := hstore.offset
  refine ⟨⟨m.told, blkTs, v.height start, NodeView.tipHash start v.chain, db.offset, db.restarted,
    []⟩, ?_, ⟨hview, h.restarted, Log2Tables.settled_restarted, hrepo.told, rfl, rfl, hwindow, rfl,
    rfl⟩, rfl, rfl, rfl⟩
  rw [hoffset] at hbegin
  simp only [initLog2]
  rw [if_neg (not_not.mpr hoffset)]
  simp only [hbegin, hload, bind, Except.bind]
  rw [htimes]
  rfl

end ExplorerKV.Log2

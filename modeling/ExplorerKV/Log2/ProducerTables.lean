import ExplorerKV.Log2.ProducerMemory

/-!
# The tables of the producer

`Holds`: the committed rows obey the protocol and lead to a view, `0_memrepo_txs`
holds the pool of the view, and every row finds its transaction and its block.
The statements before a commit keep this, whichever of them is the last; a commit
takes it from one view to the next.
-/

namespace ExplorerKV.Log2

open Bitcoin Foundation ExplorerKV.Parser

namespace Log2Tables

def committed (db : Log2Tables) : List TxLog2Row :=
  (db.txlogs2.filter fun entry => !entry.temporary).map (·.row)

def Settled (db : Log2Tables) : Prop := ∀ entry ∈ db.txlogs2, entry.temporary = false

/-- The parser finds what it reads for the row. -/
structure Fetchable (raw : RawTxs) (db : Log2Tables) (row : TxLog2Row) : Prop where
  tx : row.txHash ∈ db.rawTxs
  block : needsBlock raw row → ∃ block, (row.blkId, block) ∈ db.rawBlocks ∧
    block.blockHeight = row.blkHeight ∧ block.blk.vtx.head? = some row.txHash

def ledger (v : NodeView) (db : Log2Tables) : Ledger :=
  db.committed.foldl Ledger.next (.ofConfirmed v.earlier)

structure Holds (raw : RawTxs) (blocks : Uint256 → RawBlock) (v : NodeView) (db : Log2Tables) :
    Prop where
  earlier : Ledger.ConfirmedChain raw v.earlier
  obeys : Along (Ledger.Emits raw) Ledger.next (.ofConfirmed v.earlier) db.committed
  tracks : (db.ledger v).Tracks v.confirmed v.pool
  fetchable : ∀ row ∈ db.committed, db.Fetchable raw row
  ids : db.txlogs2.Pairwise fun a b => a.row.id < b.row.id
  ids_lt : ∀ entry ∈ db.txlogs2, 0 < entry.row.id ∧ entry.row.id < db.nextTxlogs2Id
  nextId_pos : 0 < db.nextTxlogs2Id
  named : ∀ entry ∈ db.rawBlocks, blocks entry.2.blockHash = entry.2
  blockHashes : (db.rawBlocks.map (·.2.blockHash)).Nodup
  blockIds : (db.rawBlocks.map (·.1)).Nodup
  blockIds_lt : ∀ entry ∈ db.rawBlocks, entry.1 < db.nextRawBlockId
  chain : ∀ block ∈ v.chain, ∃ id, (id, block) ∈ db.rawBlocks
  memrepo_nodup : db.memrepoTxs.Nodup
  memrepo_iff : ∀ hash, hash ∈ db.memrepoTxs ↔ hash ∈ v.pool

variable {raw : RawTxs} {blocks : Uint256 → RawBlock} {v v' : NodeView} {db db' : Log2Tables}

theorem Holds.sound (h : db.Holds raw blocks v) : (db.ledger v).Sound raw :=
  Ledger.sound_along (Ledger.sound_ofConfirmed h.earlier) h.obeys

theorem row_of_live {rows : List TxLog2Row} {p : Ledger} {hash : Uint256}
    (hlive : (rows.foldl Ledger.next p).Live hash) :
    p.Live hash ∨ ∃ row ∈ rows, row.txHash = hash := by
  induction rows generalizing p with
  | nil => exact .inl hlive
  | cons row rows ih =>
      rcases ih hlive with hnext | ⟨row', hmem, heq⟩
      · by_cases heq : hash = row.txHash
        · exact .inr ⟨row, .head _, heq.symm⟩
        · rw [Ledger.next_live, if_neg heq] at hnext
          exact .inl hnext
      · exact .inr ⟨row', .tail _ hmem, heq⟩

theorem Holds.live_raw (h : db.Holds raw blocks v) {hash : Uint256}
    (hlive : hash ∈ v.confirmed ∨ hash ∈ v.pool) (hnew : hash ∉ v.earlier) : hash ∈ db.rawTxs := by
  rcases row_of_live ((h.tracks.live_iff h.sound.wellFormed).mpr hlive) with hearlier | hrow
  · exact absurd (Ledger.live_ofConfirmed.mp hearlier) hnew
  · obtain ⟨row, hmem, rfl⟩ := hrow
    exact (h.fetchable row hmem).tx

theorem Holds.pool_raw (h : db.Holds raw blocks v) {hash : Uint256} (hpool : hash ∈ v.pool) :
    hash ∈ db.rawTxs :=
  h.live_raw (.inr hpool) fun hearlier =>
    h.tracks.apart h.sound.wellFormed hpool (NodeView.mem_confirmed_of_earlier hearlier)

theorem Holds.block_raw (h : db.Holds raw blocks v) {block : RawBlock} (hblock : block ∈ v.chain)
    {hash : Uint256} (hmem : hash ∈ block.blk.vtx) : hash ∈ db.rawTxs := by
  have hnodup := h.tracks.confirmed ▸ h.sound.wellFormed.nodup
  have hin : hash ∈ v.chain.flatMap fun block => block.blk.vtx.reverse :=
    List.mem_flatMap.mpr ⟨block, hblock, List.mem_reverse.mpr hmem⟩
  rw [NodeView.confirmed, NodeView.confirmedOn_eq] at hnodup
  refine h.live_raw (.inl ?_) fun hearlier =>
    (List.nodup_append.mp hnodup).2.2 hash hin hash hearlier rfl
  rw [NodeView.confirmed, NodeView.confirmedOn_eq]
  exact List.mem_append_left _ hin

theorem Fetchable.mono {row : TxLog2Row} (h : db.Fetchable raw row)
    (htxs : db.rawTxs ⊆ db'.rawTxs) (hblocks : db.rawBlocks ⊆ db'.rawBlocks) :
    db'.Fetchable raw row where
  tx := htxs h.tx
  block hneeds := by
    obtain ⟨block, hmem, hrest⟩ := h.block hneeds
    exact ⟨block, hblocks hmem, hrest⟩

theorem Holds.insertRawTx (h : db.Holds raw blocks v) (hash : Uint256) :
    { db with rawTxs := insert hash db.rawTxs }.Holds raw blocks v :=
  { h with
    fetchable := fun row hrow => (h.fetchable row hrow).mono (Finset.subset_insert _ _)
      (List.Subset.refl _) }

theorem Holds.insertRawBlock (h : db.Holds raw blocks v) {block : RawBlock}
    (hnamed : blocks block.blockHash = block)
    (hnew : ∀ entry ∈ db.rawBlocks, entry.2.blockHash ≠ block.blockHash) :
    { db with
      rawBlocks := db.rawBlocks ++ [(db.nextRawBlockId, block)]
      nextRawBlockId := db.nextRawBlockId + 1 }.Holds raw blocks v := by
  have hsub : db.rawBlocks ⊆ db.rawBlocks ++ [(db.nextRawBlockId, block)] :=
    List.subset_append_left _ _
  refine { h with
    fetchable := fun row hrow => (h.fetchable row hrow).mono (Finset.Subset.refl _) hsub
    named := fun entry hentry => ?_
    blockHashes := ?_
    blockIds := ?_
    blockIds_lt := fun entry hentry => ?_
    chain := fun block hblock => ?_ }
  · rcases List.mem_append.mp hentry with hold | hlast
    · exact h.named entry hold
    · rw [List.mem_singleton.mp hlast]
      exact hnamed
  · rw [List.map_append, List.nodup_append]
    refine ⟨h.blockHashes, List.nodup_singleton _, fun a ha b hb heq => ?_⟩
    obtain ⟨entry, hentry, rfl⟩ := List.mem_map.mp ha
    exact hnew entry hentry (heq.trans (List.mem_singleton.mp hb))
  · rw [List.map_append, List.nodup_append]
    refine ⟨h.blockIds, List.nodup_singleton _, fun a ha b hb heq => ?_⟩
    obtain ⟨entry, hentry, rfl⟩ := List.mem_map.mp ha
    exact absurd (heq.trans (List.mem_singleton.mp hb)) (h.blockIds_lt entry hentry).ne
  · rcases List.mem_append.mp hentry with hold | hlast
    · have hlt := h.blockIds_lt entry hold
      dsimp only
      omega
    · rw [List.mem_singleton.mp hlast]
      exact Int.lt_succ _
  · obtain ⟨id, hid⟩ := h.chain block hblock
    exact ⟨id, hsub hid⟩

theorem committed_insertRow (row : NewRow) (temporary : Bool) :
    (db.insertRow temporary row).committed =
      db.committed ++ if temporary then [] else [row db.nextTxlogs2Id] := by
  cases temporary <;> simp [committed, insertRow]

theorem Holds.insertRow (h : db.Holds raw blocks v) {row : NewRow} (hid : ∀ id, (row id).id = id) :
    (db.insertRow true row).Holds raw blocks v := by
  have hcommitted : (db.insertRow true row).committed = db.committed := by
    rw [committed_insertRow, if_pos rfl, List.append_nil]
  refine { h with
    obeys := by rw [hcommitted]; exact h.obeys
    tracks := by rw [ledger, hcommitted]; exact h.tracks
    fetchable := fun row hrow =>
      (h.fetchable row (hcommitted ▸ hrow)).mono (Finset.Subset.refl _) (List.Subset.refl _)
    ids := ?_
    ids_lt := fun entry hentry => ?_
    nextId_pos := ?_ }
  · refine List.pairwise_append.mpr ⟨h.ids, List.pairwise_singleton _ _, fun a ha b hb => ?_⟩
    rw [List.mem_singleton.mp hb, hid]
    exact (h.ids_lt a ha).2
  · rcases List.mem_append.mp hentry with hold | hlast
    · exact ⟨(h.ids_lt entry hold).1, (h.ids_lt entry hold).2.trans (Int.lt_succ _)⟩
    · rw [List.mem_singleton.mp hlast, hid]
      exact ⟨h.nextId_pos, Int.lt_succ _⟩
  · exact h.nextId_pos.trans (Int.lt_succ _)

/-! ## The last transaction of an item -/

theorem Holds.commit (h : db.Holds raw blocks v) (hearlier : v'.earlier = v.earlier)
    {rows : List NewRow} (hrows : Leads raw v.confirmed v.pool rows v'.confirmed v'.pool) {id : Int}
    (hids : ∀ entry ∈ db'.txlogs2, 0 < entry.row.id ∧ entry.row.id < db'.nextTxlogs2Id)
    (hpos : 0 < db'.nextTxlogs2Id) (hsorted : db'.txlogs2.Pairwise fun a b => a.row.id < b.row.id)
    (hcommitted : db'.committed = db.committed ++ numberRows id rows)
    (hfetchable : ∀ row ∈ numberRows id rows, db.Fetchable raw row)
    (htxs : db'.rawTxs = db.rawTxs) (hblocks : db'.rawBlocks = db.rawBlocks)
    (hnext : db'.nextRawBlockId = db.nextRawBlockId)
    (hchain : ∀ block ∈ v'.chain, ∃ id, (id, block) ∈ db.rawBlocks)
    (hnodup : db'.memrepoTxs.Nodup) (hmemrepo : ∀ hash, hash ∈ db'.memrepoTxs ↔ hash ∈ v'.pool) :
    db'.Holds raw blocks v' := by
  obtain ⟨halong, htracks⟩ := hrows id _ h.sound h.tracks
  refine ⟨hearlier ▸ h.earlier, ?_, ?_, fun row hrow => ?_, hsorted, hids, hpos, ?_, ?_, ?_, ?_, ?_,
    hnodup, hmemrepo⟩
  · rw [hcommitted, hearlier]
    exact (along_append ..).mpr ⟨h.obeys, halong⟩
  · rw [ledger, hcommitted, hearlier, List.foldl_append]
    exact htracks
  · have hold : db.Fetchable raw row := by
      rw [hcommitted] at hrow
      exact (List.mem_append.mp hrow).elim (h.fetchable row) (hfetchable row)
    exact hold.mono (htxs ▸ Finset.Subset.refl _) (hblocks ▸ List.Subset.refl _)
  · rw [hblocks]
    exact h.named
  · rw [hblocks]
    exact h.blockHashes
  · rw [hblocks]
    exact h.blockIds
  · rw [hblocks, hnext]
    exact h.blockIds_lt
  · rw [hblocks]
    exact hchain

end Log2Tables

namespace MemTxRepository

theorem Synced.syncToDB {m : MemTxRepository} {table : Set Uint256} (h : m.Synced table)
    {memrepoTxs : List Uint256} (hnodup : memrepoTxs.Nodup)
    (htable : ∀ hash, hash ∈ memrepoTxs ↔ hash ∈ table) :
    ∃ memrepoTxs', syncToDB m memrepoTxs =
        .ok ({ m with unSyncTxsInsert := ∅, unSyncTxsDelete := ∅ }, memrepoTxs') ∧
      memrepoTxs'.Nodup ∧ ∀ hash, hash ∈ memrepoTxs' ↔ m.isExist hash := by
  have hfresh : ¬(inOrder m.unSyncTxsInsert).any (· ∈ memrepoTxs) := by
    rw [List.any_eq_true]
    rintro ⟨hash, hinsert, hin⟩
    exact h.fresh hash (mem_inOrder.mp hinsert) ((htable hash).mp (of_decide_eq_true hin))
  have hknown : (inOrder m.unSyncTxsDelete).all (· ∈ memrepoTxs ++ inOrder m.unSyncTxsInsert) := by
    refine List.all_eq_true.mpr fun hash hdelete => decide_eq_true ?_
    rw [List.mem_append, mem_inOrder, htable]
    exact h.known hash (mem_inOrder.mp hdelete)
  refine ⟨_, by rw [Log2.syncToDB, if_neg hfresh, if_pos hknown], ?_, fun hash => ?_⟩
  · refine List.Nodup.filter _ (List.nodup_append.mpr ⟨hnodup, nodup_inOrder _, ?_⟩)
    rintro a ha b hb rfl
    exact h.fresh a (mem_inOrder.mp hb) ((htable a).mp ha)
  · rw [List.mem_filter, List.mem_append, mem_inOrder, htable, h.exist_iff, decide_eq_true_eq]

end MemTxRepository

end ExplorerKV.Log2

import ExplorerKV.Log2.ProducerItems
import ExplorerKV.Log2.TimeWindow

/-!
# The handlers

A producer `Follows` a view if its tables, its memory pool, its timestamps and its
current block are those of the view.  Each handler takes every producer that
follows a view to one that follows the next view, with the same events, and
whatever statement was the last one, the tables hold one of the two views.
-/

namespace ExplorerKV.Log2

open Bitcoin Foundation ExplorerKV.Parser
open Logs (Log1)
open MemTxRepository (RepoOf Synced)
open NodeView (SpendsIn StartsWithCoinBase)

variable {raw : RawTxs} {blocks : Uint256 → RawBlock} {start : BeginBlock} {v v' : NodeView}
  {s s' s₀ s₁ : Log2Producer} {hash : Uint256} {block : RawBlock}

theorem get_bind_run {α : Type} (f : Log2Producer → ProducerM α) : (get >>= f) s = f s s := rfl

/-! ## Events -/

/-- A row, less its ids and its time. -/
structure TxEvent where
  type : Log2Type
  blkHeight : Int
  txHash : Uint256
  deriving DecidableEq, Repr

def eventOf (row : TxLog2Row) : TxEvent := ⟨row.type, row.blkHeight, row.txHash⟩

def Log2Tables.events (db : Log2Tables) : List TxEvent := db.committed.map eventOf

def newEvents (rows : List NewRow) : List TxEvent := rows.map fun row => eventOf (row 0)

/-- The id of a row is not part of its event. -/
def Plain (rows : List NewRow) : Prop := ∀ row ∈ rows, ∀ id, eventOf (row id) = eventOf (row 0)

theorem events_numberRows {rows : List NewRow} (h : Plain rows) (id : Int) :
    (numberRows id rows).map eventOf = newEvents rows := by
  induction rows generalizing id with
  | nil => rfl
  | cons row rows ih =>
      rw [numberRows, List.map_cons, h row (.head _) id, ih fun row hrow => h row (.tail _ hrow)]
      rfl

/-! ## A producer and a view -/

structure Follows (raw : RawTxs) (blocks : Uint256 → RawBlock) (start : BeginBlock) (v : NodeView)
    (s : Log2Producer) : Prop where
  view : v.Sound raw blocks start
  holds : s.db.Holds raw blocks v
  settled : s.db.Settled
  repo : RepoOf raw s.memRepo v.pool
  inserts : s.memRepo.unSyncTxsInsert = ∅
  deletes : s.memRepo.unSyncTxsDelete = ∅
  times : TimeWindow start v s.blkTs
  height : s.currBlockHeight = v.height start
  hash : s.currBlockHash = NodeView.tipHash start v.chain

/-- What a handler leaves of a producer that followed `v`. -/
structure Handled (raw : RawTxs) (blocks : Uint256 → RawBlock) (start : BeginBlock)
    (v v' : NodeView) (events : List TxEvent) (s s' : Log2Producer) : Prop where
  holds : s'.db.Holds raw blocks v'
  settled : s'.db.Settled
  repo : RepoOf raw s'.memRepo v'.pool
  inserts : s'.memRepo.unSyncTxsInsert = ∅
  deletes : s'.memRepo.unSyncTxsDelete = ∅
  times : TimeWindow start v' s'.blkTs
  height : s'.currBlockHeight = s.currBlockHeight
  hash : s'.currBlockHash = s.currBlockHash
  read : s'.currLog1FileOffset = s.currLog1FileOffset
  events : s'.db.events = s.db.events ++ events
  /-- an item is committed with its offset, or changes nothing -/
  offset : s'.db.offset = s.currLog1FileOffset ∨ s'.db = s.db ∧ v' = v
  statements : ∀ db ∈ s'.statements, db = s'.db ∨ db ∈ s.statements ∨ Keeps raw blocks v s.db db

theorem Follows.synced (h : Follows raw blocks start v s) : s.memRepo.Synced v.pool where
  fresh x hx := by simp [h.inserts] at hx
  known x hx := by simp [h.deletes] at hx
  exist_iff x := by simp [h.inserts, h.deletes, h.repo.isExist_iff]

theorem Follows.memRepo_eq (h : Follows raw blocks start v s) (h' : Follows raw blocks start v s') :
    s'.memRepo = s.memRepo := by
  have htxs : s'.memRepo.txs = s.memRepo.txs := funext fun x => Option.ext fun tx => by
    rw [h.repo.txs, h'.repo.txs]
  have hspent : s'.memRepo.spentOutputs = s.memRepo.spentOutputs :=
    funext fun out => Option.ext fun x => by
      rw [h.repo.wellKept.exact_spenders out x, h'.repo.wellKept.exact_spenders out x, htxs]
  have hinserts := h'.inserts.trans h.inserts.symm
  have hdeletes := h'.deletes.trans h.deletes.symm
  cases hm : s.memRepo
  cases hm' : s'.memRepo
  rw [hm, hm'] at htxs hspent hinserts hdeletes
  simp_all

theorem Follows.unchanged (h : Follows raw blocks start v s) :
    Handled raw blocks start v v [] s s where
  holds := h.holds
  settled := h.settled
  repo := h.repo
  inserts := h.inserts
  deletes := h.deletes
  times := h.times
  height := rfl
  hash := rfl
  read := rfl
  events := by simp
  offset := .inr ⟨rfl, rfl⟩
  statements _ hdb := .inr (.inl hdb)

theorem Committed.handled {memRepo : MemTxRepository} {blkTs : BlockTimestamp}
    {rows : List NewRow}
    (h : Committed raw blocks v v' rows { s with memRepo := memRepo, blkTs := blkTs } s')
    (hrepo : RepoOf raw memRepo v'.pool) (htimes : TimeWindow start v' blkTs)
    (hplain : Plain rows) :
    Handled raw blocks start v v' (newEvents rows) s s' := by
  have hmem : s'.memRepo = memRepo.told := by rw [h.same]
  have hevents : s'.db.events = s.db.events ++ newEvents rows := by
    obtain ⟨id, hcommitted⟩ := h.committed
    rw [Log2Tables.events, hcommitted, List.map_append, events_numberRows hplain]
    rfl
  exact ⟨h.holds, h.settled, hmem ▸ hrepo.told, by rw [hmem]; rfl, by rw [hmem]; rfl,
    by rw [h.same]; exact htimes, by rw [h.same], by rw [h.same], by rw [h.same], hevents,
    .inl h.offset, h.statements⟩

/-! ## Transactions -/

theorem addTx_conflict {m : MemTxRepository} {pool : Set Uint256} (h : RepoOf raw m pool)
    (hcoinBase : ¬(hashedTx raw hash).isCoinBase) (hnew : ¬m.isExist (hashedTx raw hash).hash)
    {other : Uint256} (hother : other ∈ pool) {out : COutPoint}
    (hspent : out ∈ (hashedTx raw other).inputs) (hout : out ∈ (hashedTx raw hash).inputs) :
    m.addTx (hashedTx raw hash) = .ok (false, m) := by
  have hspender := h.wellKept.exact_spenders.spender_of_mem (h.txs_of_mem hother) hspent
  have hany : (hashedTx raw hash).inputs.any fun out => (m.spentOutputs out).isSome :=
    List.any_eq_true.mpr ⟨out, hout, by rw [hspender]; rfl⟩
  rw [MemTxRepository.addTx, if_neg hcoinBase, if_neg hnew, if_pos hany]

theorem Follows.addTx (h : Follows raw blocks start v s) (htx : v.TxValid raw hash)
    (hnew : hash ∉ v.pool) (hfree : ∀ other ∈ v.pool, ∀ out ∈ (hashedTx raw other).inputs,
      out ∉ (hashedTx raw hash).inputs) :
    ∃ m, s.memRepo.addTx (hashedTx raw hash) = .ok (true, m) ∧ RepoOf raw m (insert hash v.pool) ∧
      m.Synced v.pool := by
  have hleads := NodeView.leads_acceptTx htx hnew hfree h.view.not_coinBase 0
  obtain ⟨p, hsound, htracks⟩ := h.view.ledger
  obtain ⟨halong, htracks'⟩ := hleads 0 p hsound htracks
  have hsound' := Ledger.sound_along hsound halong
  have hlive := fun x (hx : x ∈ insert hash v.pool) =>
    (htracks'.live_iff hsound'.wellFormed).mpr (.inr hx)
  obtain ⟨m, hadd, hrepo⟩ := h.repo.add_live hsound'
    (fun x hx => ⟨hlive x (.inr hx), h.view.not_coinBase x hx⟩) hnew (hlive hash (.inl rfl))
    htx.not_coinBase
  exact ⟨m, hadd, hrepo, h.synced.addTx hadd (by simp [h.deletes])⟩

theorem handleTxAccept_spec (htx : v.TxValid raw hash) :
    ∃ events, ∀ s, Follows raw blocks start v s → wp (handleTxAccept raw hash)
      (fun _ s' =>
        Handled raw blocks start v (v.next raw blocks start (.acceptTx hash)) events s s')
      (fun _ => False) s := by
  by_cases hadded : hash ∉ v.pool ∧ ∀ other ∈ v.pool, ∀ out ∈ (hashedTx raw other).inputs,
      out ∉ (hashedTx raw hash).inputs
  · obtain ⟨hpool, hfree⟩ := hadded
    refine ⟨newEvents [acceptRow 0 hash], fun s h => ?_⟩
    obtain ⟨m, hadd, hrepo, hsynced⟩ := h.addTx htx hpool hfree
    rw [NodeView.next_acceptTx_free hfree]
    simp only [handleTxAccept, wp_bind, wp_get]
    rw [if_neg fun hexist => hpool (h.repo.isExist_iff.mp hexist)]
    simp only [hadd, ofRepo, wp_pure, if_true, wp_bind, wp_modify]
    have hraw := insertRawTx_spec (s := { s with memRepo := m }) h.holds hash
    refine wp_mono hraw (fun _ s₁ hstaged => ?_) fun _ he => he
    have hmem : s₁.memRepo = m := by rw [hstaged.1.same]
    have hleads : Leads raw v.confirmed v.pool [acceptRow s.blkTs.getMaxTimestamp hash]
        (NodeView.confirmed { v with pool := insert hash v.pool })
        (NodeView.pool { v with pool := insert hash v.pool }) :=
      NodeView.leads_acceptTx htx hpool hfree h.view.not_coinBase _
    have hspec := commitRow_spec hstaged.1.holds (hstaged.1.settled h.settled) (hmem ▸ hsynced)
      (fun _ => rfl) (fun _ => ⟨hstaged.2, by simp [needsBlock, acceptRow]⟩) hleads
      (hmem ▸ hrepo) rfl rfl
    refine wp_mono hspec (fun _ s' hcommit => ?_) fun _ he => he
    refine (hcommit.of_staged hstaged.1).handled hrepo ⟨h.times.consecutive, h.times.enough⟩ ?_
    intro row hrow id
    rw [List.mem_singleton.mp hrow]
    rfl
  · refine ⟨[], fun s h => ?_⟩
    have hkept : hash ∈ v.pool ∨ ¬∀ other ∈ v.pool, ∀ out ∈ (hashedTx raw other).inputs,
        out ∉ (hashedTx raw hash).inputs := by
      rwa [not_and_or, not_not] at hadded
    rw [NodeView.next_acceptTx_kept hkept]
    simp only [handleTxAccept, wp_bind, wp_get]
    refine wp_ite (fun _ => h.unchanged) fun hnew => ?_
    have hconflict := hkept.resolve_left fun hin => hnew (h.repo.isExist_iff.mpr hin)
    push Not at hconflict
    obtain ⟨other, hother, out, hspent, hout⟩ := hconflict
    simp only [addTx_conflict h.repo htx.not_coinBase hnew hother hspent hout, ofRepo]
    exact h.unchanged

/-! ## Removals -/

theorem rejectRemoved_spec (h : Follows raw blocks start v s)
    (hstaged : Staged raw blocks v [] s s₁)
    {m : MemTxRepository} {hashes : List Uint256}
    (hpeeling : Foundation.Peeling (SpendsIn raw v.pool) (· ∈ v.pool) hashes)
    (hrepo : RepoOf raw m (v.pool \ {x | x ∈ hashes})) (hsynced : m.Synced v.pool) :
    wp (rejectRemoved m hashes)
      (fun _ s' => Handled raw blocks start v { v with pool := v.pool \ {x | x ∈ hashes} }
        (newEvents (hashes.map rejectRow)) s s') (fun _ => False) s₁ := by
  have hrows : ∀ row ∈ hashes.map rejectRow, ∃ hash ∈ v.pool, row = rejectRow hash :=
    fun row hrow => by
    obtain ⟨hash, hin, rfl⟩ := List.mem_map.mp hrow
    exact ⟨hash, hpeeling.mem hin, rfl⟩
  have hfetchable : ∀ row ∈ hashes.map rejectRow, ∀ id, s₁.db.Fetchable raw (row id) := by
    intro row hrow id
    obtain ⟨hash, hin, rfl⟩ := hrows row hrow
    exact ⟨hstaged.holds.pool_raw hin,
      by simp [needsBlock, rejectRow, h.view.not_coinBase hash hin]⟩
  have hbatch : wp
      (do multiInsert (hashes.map rejectRow); commitBatch (hashes.map rejectRow).length)
      (fun _ s' => Committed raw blocks v { v with pool := v.pool \ {x | x ∈ hashes} }
        (hashes.map rejectRow) { s₁ with memRepo := m } s') (fun _ => False)
      { s₁ with memRepo := m } := by
    refine batch_spec hstaged.holds (hstaged.settled h.settled) hsynced (fun row hrow => ?_)
      hfetchable (NodeView.leads_rejects h.view hpeeling) hrepo rfl hstaged.holds.chain
    obtain ⟨hash, -, rfl⟩ := hrows row hrow
    exact fun _ => rfl
  have hmoved : Staged raw blocks v [] { s with memRepo := m } { s₁ with memRepo := m } :=
    { hstaged with same := by rw [hstaged.same] }
  refine wp_mono hbatch (fun _ s' hcommit => ?_) fun _ he => he
  refine (hcommit.of_staged hmoved).handled hrepo ⟨h.times.consecutive, h.times.enough⟩ ?_
  intro row hrow id
  obtain ⟨hash, -, rfl⟩ := hrows row hrow
  rfl

theorem handleTxReject_spec (h₀ : Follows raw blocks start v s₀) (hash : Uint256) :
    ∃ events, ∀ s, Follows raw blocks start v s →
      ∃ s', Returns (fun rounds => handleTxReject raw rounds hash s) ((), s') ∧
        Handled raw blocks start v (v.next raw blocks start (.removeTx hash)) events s s' := by
  by_cases hmem : hash ∈ v.pool
  · obtain ⟨hashes, m, hremoved, hpeeling, hbelow, hrepo, hsynced⟩ :=
      MemTxRepository.removeTxAndChildTx_view h₀.repo h₀.synced hmem
    refine ⟨newEvents (hashes.map rejectRow), fun s h => ?_⟩
    obtain ⟨_, s₁, hraw, hstaged, -⟩ := exists_of_wp (insertRawTx_spec h.holds hash)
    obtain ⟨_, s', hrun, hhandled⟩ :=
      exists_of_wp (rejectRemoved_spec h hstaged hpeeling hrepo hsynced)
    refine ⟨s', ?_, ?_⟩
    · filter_upwards [hremoved] with rounds hrounds
      rw [handleTxReject, get_bind_run, if_pos (h.repo.isExist_iff.mpr hmem), bind_run, hraw]
      dsimp only
      rw [h₀.memRepo_eq h, hrounds, ofRepo, pure_bind]
      exact hrun
    · have hpool : (v.next raw blocks start (.removeTx hash)).pool = v.pool \ {x | x ∈ hashes} := by
        ext x
        simp only [NodeView.next, Set.mem_ofPred_eq, Set.mem_sdiff, hbelow]
      have hnext : v.next raw blocks start (.removeTx hash) =
          { v with pool := v.pool \ {x | x ∈ hashes} } :=
        congrArg (fun pool => { v with pool := pool }) hpool
      rw [hnext]
      exact hhandled
  · refine ⟨[], fun s h => ⟨s, .of_forall fun rounds => ?_, ?_⟩⟩
    · dsimp only
      rw [handleTxReject, get_bind_run, if_neg fun hexist => hmem (h.repo.isExist_iff.mp hexist)]
      rfl
    · rw [NodeView.next_removeTx_absent hmem]
      exact h.unchanged

theorem clearMempoolTxs_spec (h₀ : Follows raw blocks start v s₀) :
    ∃ events, ∀ s, Follows raw blocks start v s →
      ∃ s', Returns (fun rounds => clearMempoolTxs rounds s) ((), s') ∧
        Handled raw blocks start v (v.next raw blocks start .clearMemtxs) events s s' := by
  obtain ⟨hashes, m, hremoved, hpeeling, hall, hrepo, hsynced⟩ :=
    MemTxRepository.clearTxs_view h₀.repo h₀.synced
  have hpool : v.pool \ {x | x ∈ hashes} = ∅ := by
    ext x
    simp [hall]
  refine ⟨newEvents (hashes.map rejectRow), fun s h => ?_⟩
  obtain ⟨_, s', hrun, hhandled⟩ :=
    exists_of_wp (rejectRemoved_spec h (.refl h.holds) hpeeling (hpool ▸ hrepo) hsynced)
  rw [hpool] at hhandled
  have hempty : s'.db.memrepoTxs = [] := List.eq_nil_iff_forall_not_mem.mpr fun x hx =>
    ((hhandled.holds.memrepo_iff x).mp hx).elim
  refine ⟨s', ?_, hhandled⟩
  filter_upwards [hremoved] with rounds hrounds
  rw [clearMempoolTxs, get_bind_run, h₀.memRepo_eq h, hrounds, ofRepo, pure_bind, bind_run, hrun]
  simp only [get_bind_run, hempty, if_true]
  rfl

/-! ## Blocks -/

theorem NodeView.StartsWithCoinBase.head {vtx : List Uint256} (h : StartsWithCoinBase raw vtx)
    (hmem : hash ∈ vtx) (hcoinBase : (raw hash).tx.isCoinBase) : vtx.head? = some hash := by
  obtain ⟨first, rest, rfl, -, hrest⟩ := h
  rcases List.mem_cons.mp hmem with rfl | hin
  · rfl
  · exact absurd hcoinBase (hrest hash hin)

theorem fetchable_blockRow {db : Log2Tables} (hcoinBase : StartsWithCoinBase raw block.blk.vtx)
    (hmem : hash ∈ block.blk.vtx) (hraw : hash ∈ db.rawTxs) {blockId : Int}
    (hblock : (blockId, block) ∈ db.rawBlocks) (type : Log2Type) (maxTimestamp id : Int) :
    db.Fetchable raw (blockRow type block blockId maxTimestamp hash id) where
  tx := hraw
  block hneeds := by
    rw [needsBlock, Bool.and_eq_true] at hneeds
    exact ⟨block, hblock, rfl, hcoinBase.head hmem hneeds.1⟩

theorem fetchable_blockAcceptRows (h : Follows raw blocks start v s) {db : Log2Tables}
    {conflictTxs already : List Uint256} (hswept : v.SweptBy raw block conflictTxs already)
    (hholds : db.Holds raw blocks v) (hcoinBase : StartsWithCoinBase raw block.blk.vtx)
    (htxs : ∀ hash ∈ block.blk.vtx, hash ∈ db.rawTxs) {blockId : Int}
    (hblock : (blockId, block) ∈ db.rawBlocks) (maxTimestamp : Int) {row : NewRow}
    (hrow : row ∈ blockAcceptRows conflictTxs already block blockId maxTimestamp) (id : Int) :
    db.Fetchable raw (row id) := by
  rcases List.mem_append.mp hrow with hreject | htx
  · obtain ⟨hash, hin, rfl⟩ := List.mem_map.mp hreject
    have hpool := hswept.peeling.mem hin
    exact ⟨hholds.pool_raw hpool,
      by simp [needsBlock, rejectRow, h.view.not_coinBase hash hpool]⟩
  · obtain ⟨hash, hin, hrow⟩ := List.mem_flatMap.mp htx
    rcases List.mem_append.mp hrow with haccept | hconfirm
    · split_ifs at haccept with halready
      · cases haccept
      · rw [List.mem_singleton.mp haccept]
        exact ⟨htxs hash hin, by simp [needsBlock, acceptRow]⟩
    · rw [List.mem_singleton.mp hconfirm]
      exact fetchable_blockRow hcoinBase hin (htxs hash hin) hblock ..

theorem newEvents_blockAcceptRows (conflictTxs already : List Uint256) (block : RawBlock)
    (blockId maxTimestamp : Int) :
    newEvents (blockAcceptRows conflictTxs already block blockId maxTimestamp) =
      newEvents (blockAcceptRows conflictTxs already block 0 0) := by
  simp only [newEvents, blockAcceptRows, List.map_append, List.map_flatMap, apply_ite (List.map _),
    List.map_cons, List.map_nil]
  rfl

theorem plain_blockAcceptRows {conflictTxs already : List Uint256} {blockId maxTimestamp : Int} :
    Plain (blockAcceptRows conflictTxs already block blockId maxTimestamp) := by
  intro row hrow id
  rcases List.mem_append.mp hrow with hreject | htx
  · obtain ⟨hash, -, rfl⟩ := List.mem_map.mp hreject
    rfl
  · obtain ⟨hash, -, hrow⟩ := List.mem_flatMap.mp htx
    rcases List.mem_append.mp hrow with haccept | hconfirm
    · split_ifs at haccept with halready
      · cases haccept
      · rw [List.mem_singleton.mp haccept]
        rfl
    · rw [List.mem_singleton.mp hconfirm]
      rfl

theorem acceptSwept_spec (h : Follows raw blocks start v s) {blkTs : BlockTimestamp} {sweep : Sweep}
    (hnamed : blocks block.blockHash = block)
    (hvalid : ConsensusValid (v.chainTxs raw) (block.blk.vtx.map (hashedTx raw)))
    (hcoinBase : StartsWithCoinBase raw block.blk.vtx)
    (hfresh : ∀ first ∈ block.blk.vtx.head?, first ∉ v.confirmed) (hheight : 0 ≤ block.blockHeight)
    (hswept : v.SweptBy raw block sweep.conflictTxs (inOrder sweep.alreadyInMemTxHashs))
    (hrepo : RepoOf raw sweep.repo (v.accept raw block).pool) (hsynced : sweep.repo.Synced v.pool)
    (htimes : TimeWindow start (v.accept raw block) blkTs) :
    wp (acceptSwept block sweep)
      (fun _ s' => Handled raw blocks start v (v.accept raw block)
        (newEvents
          (blockAcceptRows sweep.conflictTxs (inOrder sweep.alreadyInMemTxHashs) block 0 0)) s s')
      (fun _ => False) { s with blkTs := blkTs } := by
  rw [acceptSwept, wp_bind, wp_modify]
  have hinsert := insertRawBlock_spec (s := { s with memRepo := sweep.repo, blkTs := blkTs })
    h.holds hnamed
  refine wp_seq hinsert fun blockId s₁ hblock => ?_
  refine wp_seq (insertRawTxs_spec hblock.1.holds block.blk.vtx) fun _ s₂ htxs => ?_
  have hstaged := hblock.1.trans htxs.1
  have hin : (blockId, block) ∈ s₂.db.rawBlocks := htxs.1.rawBlocks hblock.2
  have hmem : s₂.memRepo = sweep.repo := by rw [hstaged.same]
  rw [wp_bind, wp_get]
  have hchain : ∀ b ∈ (v.accept raw block).chain, ∃ id, (id, b) ∈ s₂.db.rawBlocks := by
    intro b hb
    rcases List.mem_cons.mp hb with rfl | hold
    · exact ⟨blockId, hin⟩
    · exact hstaged.holds.chain b hold
  have hevicted : ∀ hash ∈ sweep.conflictTxs, (raw hash).tx.isCoinBase = false := fun hash hin =>
    Bool.not_eq_true _ ▸ h.view.not_coinBase hash (hswept.peeling.mem hin)
  have hbatch := batch_spec hstaged.holds (hstaged.settled h.settled) (hmem ▸ hsynced)
    (fun row hrow id => (rowOf_blockAcceptRows hevicted hrow id).1)
    (fun row hrow id =>
      fetchable_blockAcceptRows h hswept hstaged.holds hcoinBase htxs.2 hin _ hrow id)
    (NodeView.leads_block hvalid h.view hcoinBase hfresh hheight hswept blockId
      s₂.blkTs.getMaxTimestamp) (hmem ▸ hrepo) rfl hchain
  refine wp_mono hbatch (fun _ s' hcommit => ?_) fun _ he => he
  rw [← newEvents_blockAcceptRows]
  exact (hcommit.of_staged hstaged).handled hrepo htimes plain_blockAcceptRows

theorem handleBlockAccept_spec (h₀ : Follows raw blocks start v s₀) (block : RawBlock)
    (hnamed : blocks block.blockHash = block)
    (hvalid : v.BlockValid raw blocks start block.blockHeight block.blockHash) :
    ∃ events, ∀ s, Follows raw blocks start v s →
      ∃ s', Returns (fun rounds => handleBlockAccept raw rounds block s) ((), s') ∧
        Handled raw blocks start v (v.accept raw block) events s s' := by
  have hblk : (blocks block.blockHash).blk = block.blk := by rw [hnamed]
  have htxs := hblk ▸ hvalid.txs
  have hheight : 0 ≤ block.blockHeight := by
    have hpos := start.height_nonneg
    rw [hvalid.height, NodeView.height]
    omega
  obtain ⟨sweep, hreturns, hswept, hrepo, hsynced⟩ :=
    MemTxRepository.sweepBlock_view h₀.repo h₀.view h₀.synced h₀.deletes htxs
  refine ⟨newEvents
      (blockAcceptRows sweep.conflictTxs (inOrder sweep.alreadyInMemTxHashs) block 0 0),
    fun s h => ?_⟩
  obtain ⟨blkTs, hpush, htimes⟩ :=
    h.times.accept h.view.length_le raw block block.blk.nTime.toNat
  rw [← hvalid.height] at hpush
  obtain ⟨_, s', hrun, hhandled⟩ := exists_of_wp (acceptSwept_spec h hnamed htxs
    (hblk ▸ hvalid.coinBase) (hblk ▸ hvalid.fresh) hheight hswept hrepo hsynced htimes)
  refine ⟨s', ?_, hhandled⟩
  filter_upwards [hreturns] with rounds hrounds
  rw [handleBlockAccept, get_bind_run, hpush, h₀.memRepo_eq h, hrounds]
  exact hrun

/-! ### A rollback -/

theorem hashedTx_inj {x y : Uint256} (h : hashedTx raw x = hashedTx raw y) : x = y :=
  congrArg HashedTx.hash h

/-- The memory while the transactions `done` are given back. -/
structure Readded (raw : RawTxs) (v : NodeView) (done : List HashedTx) (s s' : Log2Producer) :
    Prop where
  same : s' = { s with memRepo := s'.memRepo }
  repo : RepoOf raw s'.memRepo
    (v.pool ∪ {hash | hashedTx raw hash ∈ done ∧ ¬(raw hash).tx.isCoinBase})
  synced : s'.memRepo.Synced v.pool
  deletes : s'.memRepo.unSyncTxsDelete = ∅

theorem readdTx_spec (h : v.Sound raw blocks start) {done : List HashedTx}
    (hs : Readded raw v done s s₁) (hdone : ∀ x, hashedTx raw x ∈ done → x ∈ v.confirmed)
    (hmem : hash ∈ v.confirmed) (hnew : hashedTx raw hash ∉ done) :
    wp (readdTx (hashedTx raw hash))
      (fun _ s' => Readded raw v (done ++ [hashedTx raw hash]) s s') (fun _ => False) s₁ := by
  refine wp_ite (fun hcoinBase => ?_) fun hcoinBase => ?_
  · have hpool : {x | hashedTx raw x ∈ done ++ [hashedTx raw hash] ∧ ¬(raw x).tx.isCoinBase} =
        {x | hashedTx raw x ∈ done ∧ ¬(raw x).tx.isCoinBase} := by
      ext x
      simp only [Set.mem_ofPred_eq, List.mem_append, List.mem_singleton]
      refine ⟨fun hx => ⟨hx.1.resolve_right fun heq => ?_, hx.2⟩, fun hx => ⟨.inl hx.1, hx.2⟩⟩
      exact hx.2 (hashedTx_inj heq ▸ hcoinBase)
    exact ⟨hs.same, hpool ▸ hs.repo, hs.synced, hs.deletes⟩
  · obtain ⟨p, hsound, htracks⟩ := h.ledger
    have hlive : ∀ x, p.Live x ↔ x ∈ v.confirmed ∨ x ∈ v.pool := fun _ =>
      htracks.live_iff hsound.wellFormed
    have hpooled : ∀ x ∈ v.pool ∪ {x | hashedTx raw x ∈ done ∧ ¬(raw x).tx.isCoinBase},
        p.Live x ∧ ¬(raw x).tx.isCoinBase := by
      rintro x (hx | hx)
      · exact ⟨(hlive x).mpr (.inr hx), h.not_coinBase x hx⟩
      · exact ⟨(hlive x).mpr (.inl (hdone x hx.1)), hx.2⟩
    have hfresh : hash ∉ v.pool ∪ {x | hashedTx raw x ∈ done ∧ ¬(raw x).tx.isCoinBase} := by
      rintro (hin | hin)
      · exact htracks.apart hsound.wellFormed hin hmem
      · exact hnew hin.1
    obtain ⟨m, hadd, hrepo⟩ :=
      hs.repo.add_live hsound hpooled hfresh ((hlive hash).mpr (.inl hmem)) hcoinBase
    have hpool : v.pool ∪ {x | hashedTx raw x ∈ done ++ [hashedTx raw hash] ∧
        ¬(raw x).tx.isCoinBase} =
          insert hash (v.pool ∪ {x | hashedTx raw x ∈ done ∧ ¬(raw x).tx.isCoinBase}) := by
      ext x
      simp only [Set.mem_union, Set.mem_ofPred_eq, Set.mem_insert_iff, List.mem_append,
        List.mem_singleton]
      constructor
      · rintro (hx | ⟨hx | hx, hcb⟩)
        · exact .inr (.inl hx)
        · exact .inr (.inr ⟨hx, hcb⟩)
        · exact .inl (hashedTx_inj hx)
      · rintro (rfl | hx | hx)
        · exact .inr ⟨.inr rfl, hcoinBase⟩
        · exact .inl hx
        · exact .inr ⟨.inl hx.1, hx.2⟩
    rw [wp_bind, wp_get, hadd]
    refine ⟨?_, hpool ▸ hrepo, hs.synced.addTx hadd (by simp [hs.deletes]), ?_⟩
    · rw [hs.same]
    · rw [← hs.deletes]
      exact (MemTxRepository.addTx_added hadd).2.2.2

theorem readdTxs_spec (h : Follows raw blocks start v s) {below : List RawBlock}
    (hchain : v.chain = block :: below) :
    wp (forM (blockTxs raw block).reverse readdTx)
      (fun _ s' => s' = { s with memRepo := s'.memRepo } ∧
        RepoOf raw s'.memRepo (v.rollback raw).pool ∧ s'.memRepo.Synced v.pool)
      (fun _ => False) s := by
  have hconfirmed : v.confirmed =
      block.blk.vtx.reverse ++ NodeView.confirmedOn v.earlier below := by
    rw [NodeView.confirmed, hchain, NodeView.confirmedOn]
  have hmem : ∀ x, hashedTx raw x ∈ (blockTxs raw block).reverse → x ∈ v.confirmed := fun x hx => by
    obtain ⟨y, hy, heq⟩ := List.mem_map.mp (List.mem_reverse.mp hx)
    rw [hconfirmed, ← hashedTx_inj heq]
    exact List.mem_append_left _ (List.mem_reverse.mpr hy)
  have hnodup : (blockTxs raw block).reverse.Nodup := by
    obtain ⟨p, hsound, htracks⟩ := h.view.ledger
    have hall := htracks.confirmed ▸ hsound.wellFormed.nodup
    rw [hconfirmed] at hall
    exact List.nodup_reverse.mpr <| (List.nodup_reverse.mp (List.nodup_append.mp hall).1).map
      fun _ _ heq => hashedTx_inj heq
  have hloop : wp (forM (blockTxs raw block).reverse readdTx)
      (fun _ s' => Readded raw v (blockTxs raw block).reverse s s') (fun _ => False) s := by
    refine wp_forM (fun done s' => Readded raw v done s s')
      ⟨rfl, by simpa using h.repo, h.synced, h.deletes⟩ fun done tx rest s₁ hxs hs => ?_
    have htx : tx ∈ (blockTxs raw block).reverse := by simp [hxs]
    obtain ⟨hash, -, rfl⟩ := List.mem_map.mp (List.mem_reverse.mp htx)
    have hin : ∀ x, hashedTx raw x ∈ done → x ∈ v.confirmed := fun x hx =>
      hmem x (hxs ▸ List.mem_append_left _ hx)
    rw [hxs] at hnodup
    exact readdTx_spec h.view hs hin (hmem hash htx) fun hdone =>
      (List.nodup_append.mp hnodup).2.2 _ hdone _ (.head _) rfl
  have hpool : (v.rollback raw).pool = v.pool ∪
      {hash | hashedTx raw hash ∈ (blockTxs raw block).reverse ∧ ¬(raw hash).tx.isCoinBase} := by
    ext x
    simp only [NodeView.rollback, hchain, List.head?_cons, Option.mem_some_iff, exists_eq_left',
      Set.mem_union, Set.mem_ofPred_eq, List.mem_reverse, blockTxs, List.mem_map]
    refine or_congr_right (and_congr_left fun _ => ⟨fun hx => ⟨x, hx, rfl⟩, ?_⟩)
    rintro ⟨y, hy, heq⟩
    exact hashedTx_inj heq ▸ hy
  exact wp_mono hloop (fun _ s' hs => ⟨hs.same, hpool ▸ hs.repo, hs.synced⟩) fun _ he => he

theorem fetchable_blockRollbackRows {db : Log2Tables}
    (hcoinBase : StartsWithCoinBase raw block.blk.vtx)
    (htxs : ∀ hash ∈ block.blk.vtx, hash ∈ db.rawTxs) {blockId : Int}
    (hblock : (blockId, block) ∈ db.rawBlocks) (maxTimestamp : Int) {row : NewRow}
    (hrow : row ∈ blockRollbackRows block blockId maxTimestamp) (id : Int) :
    db.Fetchable raw (row id) := by
  rcases List.mem_append.mp hrow with hunconfirm | hreject
  · obtain ⟨hash, hin, rfl⟩ := List.mem_map.mp hunconfirm
    have hin' := List.mem_reverse.mp hin
    exact fetchable_blockRow hcoinBase hin' (htxs hash hin') hblock ..
  · obtain ⟨hash, hin, rfl⟩ := List.mem_map.mp hreject
    have hin' := List.mem_of_mem_head? (Option.mem_toList.mp hin)
    exact fetchable_blockRow hcoinBase hin' (htxs hash hin') hblock ..

theorem newEvents_blockRollbackRows (block : RawBlock) (blockId maxTimestamp : Int) :
    newEvents (blockRollbackRows block blockId maxTimestamp) =
      newEvents (blockRollbackRows block 0 0) := by
  simp only [newEvents, blockRollbackRows, List.map_append, List.map_map]
  rfl

theorem plain_blockRollbackRows {blockId maxTimestamp : Int} :
    Plain (blockRollbackRows block blockId maxTimestamp) := by
  intro row hrow id
  rcases List.mem_append.mp hrow with hunconfirm | hreject
  · obtain ⟨hash, -, rfl⟩ := List.mem_map.mp hunconfirm
    rfl
  · obtain ⟨hash, -, rfl⟩ := List.mem_map.mp hreject
    rfl

theorem handleBlockRollback_spec (h : Follows raw blocks start v s) {below : List RawBlock}
    (hchain : v.chain = block :: below)
    (hmature : ∀ first ∈ block.blk.vtx.head?, ∀ child, child ∈ v.pool ∨ child ∈ block.blk.vtx →
      ∀ out ∈ (raw child).tx.prevouts, out.hash ≠ first)
    (hdepth : v.highest < v.chain.length + 2016 * 2) :
    wp (handleBlockRollback raw block)
      (fun _ s' => Handled raw blocks start v (v.rollback raw)
        (newEvents (blockRollbackRows block 0 0))
        s s') (fun _ => False) s := by
  have hsound := h.view.chain
  rw [hchain] at hsound
  have hcoinBase := hsound.1.coinBase
  refine wp_seq (readdTxs_spec h hchain) fun _ s₁ hs => ?_
  obtain ⟨hsame, hrepo, hsynced⟩ := hs
  obtain ⟨m, rfl⟩ : ∃ m, s₁ = { s with memRepo := m } := ⟨_, hsame⟩
  refine wp_seq (insertRawBlock_spec h.holds hsound.1.named) fun blockId s₂ hblock => ?_
  obtain ⟨hstaged, hin⟩ := hblock
  have hnonempty : block.blk.vtx ≠ [] := by
    obtain ⟨first, rest, hvtx, -⟩ := hcoinBase
    exact hvtx ▸ List.cons_ne_nil first rest
  obtain ⟨blkTs, hpop, htimes⟩ := h.times.rollback h.view.length_le (by simp [hchain]) hdepth raw
  have hblkTs : s₂.blkTs = s.blkTs := by rw [hstaged.same]
  rw [wp_bind, wp_get]
  refine wp_ite (fun hnil => absurd hnil hnonempty) fun _ => ?_
  dsimp only
  rw [hblkTs, hpop, wp_bind, wp_modify]
  have hmoved : Staged raw blocks v [] { s with memRepo := m, blkTs := blkTs }
      { s₂ with blkTs := blkTs } := { hstaged with same := by rw [hstaged.same] }
  have hmem : s₂.memRepo = m := by rw [hstaged.same]
  have htxs : ∀ hash ∈ block.blk.vtx, hash ∈ s₂.db.rawTxs := fun hash hhash =>
    hstaged.holds.block_raw (hchain ▸ .head _) hhash
  have hids : ∀ row ∈ blockRollbackRows block blockId s.blkTs.getMaxTimestamp, ∀ id,
      (row id).id = id := fun row hrow id =>
    (show RowOf raw blockId row from rowOf_blockRollbackRows hrow) id |>.1
  have hbatch := batch_spec (s := { s₂ with blkTs := blkTs }) hmoved.holds
    (hmoved.settled h.settled)
    (hmem ▸ hsynced) hids
    (fun row hrow id => fetchable_blockRollbackRows hcoinBase htxs hin _ hrow id)
    (NodeView.leads_rollback h.view hchain hmature blockId s.blkTs.getMaxTimestamp)
    (hmem ▸ hrepo) rfl fun b hb => hmoved.holds.chain b (List.mem_of_mem_tail hb)
  refine wp_mono hbatch (fun _ s' hcommit => ?_) fun _ he => he
  rw [← newEvents_blockRollbackRows]
  exact (hcommit.of_staged hmoved).handled hrepo htimes plain_blockRollbackRows

theorem filter_of_nodup {α β : Type} [DecidableEq β] {f : α → β} {l : List α} {a : α}
    (h : (l.map f).Nodup) (hmem : a ∈ l) : (l.filter fun x => f x = f a) = [a] := by
  induction l with
  | nil => cases hmem
  | cons x l ih =>
      obtain ⟨hnew, hrest⟩ := List.nodup_cons.mp h
      rcases List.mem_cons.mp hmem with rfl | hin
      · rw [List.filter_cons_of_pos (by simp), List.filter_eq_nil_iff.mpr]
        exact fun y hy heq => hnew (of_decide_eq_true heq ▸ List.mem_map_of_mem hy)
      · have hne : f x ≠ f a := fun heq => hnew (heq ▸ List.mem_map_of_mem hin)
        rw [List.filter_cons_of_neg (by simpa using hne), ih hrest hin]

theorem getBlockByHash_run (h : s.db.Holds raw blocks v) (hmem : block ∈ v.chain) :
    getBlockByHash block.blockHash s = .ok (block.blk, s) := by
  obtain ⟨id, hid⟩ := h.chain block hmem
  have hfilter := filter_of_nodup h.blockHashes hid
  rw [getBlockByHash, get_bind_run, hfilter]
  rfl

theorem Follows.tip (h : Follows raw blocks start v s) {below : List RawBlock}
    (hchain : v.chain = block :: below) :
    block = ⟨s.currBlockHash, s.currBlockHeight, block.blk⟩ ∧
      getBlockByHash s.currBlockHash s = .ok (block.blk, s) := by
  have hsound := h.view.chain
  rw [hchain] at hsound
  have hhash : s.currBlockHash = block.blockHash := by
    rw [h.hash, hchain]
    rfl
  have hheight : s.currBlockHeight = block.blockHeight := by
    rw [h.height, hsound.1.height, NodeView.height, hchain, List.length_cons]
    push_cast
    omega
  refine ⟨by rw [hhash, hheight], ?_⟩
  rw [hhash]
  exact getBlockByHash_run h.holds (hchain ▸ .head _)

theorem handleBlock_spec (h₀ : Follows raw blocks start v s₀) {height : Int}
    (hvalid : v.Valid raw blocks start (.block height hash)) :
    ∃ events, ∀ s, Follows raw blocks start v s →
      ∃ s', Returns (fun rounds => handleBlock raw blocks rounds height hash s)
          ((), { s' with currBlockHeight := height, currBlockHash := hash }) ∧
        Handled raw blocks start v (v.next raw blocks start (.block height hash)) events s s' := by
  cases hvalid with
  | accept hblock =>
      have hheight := hblock.height
      obtain ⟨events, hall⟩ :=
        handleBlockAccept_spec h₀ ⟨hash, height, (blocks hash).blk⟩ hblock.named hblock
      refine ⟨events, fun s h => ?_⟩
      have hcurr := h.height
      obtain ⟨s', hreturns, hhandled⟩ := hall s h
      refine ⟨s', ?_, ?_⟩
      · filter_upwards [hreturns] with rounds hrounds
        rw [handleBlock, get_bind_run, if_pos (by omega), if_pos (by omega), bind_run, hrounds]
        rfl
      · rw [NodeView.next, if_pos (by omega)]
        exact hhandled
  | rollback hback =>
      have hheight := hback.height
      obtain ⟨block, hhead, hprev, hmature⟩ := hback.parent
      obtain ⟨below, hchain⟩ := List.head?_eq_some_iff.mp hhead
      refine ⟨newEvents (blockRollbackRows block 0 0), fun s h => ?_⟩
      have hcurr := h.height
      obtain ⟨hblock, hget⟩ := h.tip hchain
      obtain ⟨_, s', hrun, hhandled⟩ :=
        exists_of_wp (handleBlockRollback_spec h hchain hmature hback.depth)
      refine ⟨s', .of_forall fun rounds => ?_, ?_⟩
      · dsimp only
        rw [handleBlock, get_bind_run, if_neg (by omega), if_pos (by omega), if_pos (by omega),
          bind_run, hget]
        dsimp only
        rw [if_pos hprev.symm, ← hblock, bind_run, hrun]
        rfl
      · rw [NodeView.next, if_neg (by omega)]
        exact hhandled

/-! ## Items -/

/-- What an item does to the log1 offset and to the tables on the way. -/
structure Advances (raw : RawTxs) (blocks : Uint256 → RawBlock) (v v' : NodeView)
    (events : List TxEvent) (s s' : Log2Producer) : Prop where
  read : s'.currLog1FileOffset = s.currLog1FileOffset + 1
  events : s'.db.events = s.db.events ++ events
  offset : s'.db.offset = s'.currLog1FileOffset ∨ s'.db = s.db ∧ v' = v
  statements : ∀ db ∈ s'.statements, db = s'.db ∨ Keeps raw blocks v s.db db

namespace NodeView

theorem Sound.next (h : v.Sound raw blocks start) {item : Log1}
    (hvalid : v.Valid raw blocks start item)
    (hledger : ∃ p : Ledger, p.Sound raw ∧ p.Tracks (v.next raw blocks start item).confirmed
      (v.next raw blocks start item).pool) :
    (v.next raw blocks start item).Sound raw blocks start := by
  cases hvalid with
  | acceptTx htx =>
      refine ⟨h.chain, h.length_le, fun x hx => ?_, hledger⟩
      rcases hx with hx | ⟨rfl, -⟩
      · exact h.not_coinBase x hx
      · exact htx.not_coinBase
  | removeTx hash => exact ⟨h.chain, h.length_le, fun x hx => h.not_coinBase x hx.1, hledger⟩
  | clearMemtxs => exact ⟨h.chain, h.length_le, fun x hx => hx.elim, hledger⟩
  | accept hblock =>
      have hheight := hblock.height
      rw [NodeView.next, if_pos (by omega)] at hledger ⊢
      refine ⟨⟨⟨hblock.named, hblock.hash_ne_zero, hheight, hblock.parent, hblock.coinBase⟩,
        h.chain⟩, ?_,
        fun x hx => h.not_coinBase x hx.1, hledger⟩
      exact le_max_right _ _
  | rollback hback =>
      have hheight := hback.height
      obtain ⟨block, hhead, -⟩ := hback.parent
      obtain ⟨below, hchain⟩ := List.head?_eq_some_iff.mp hhead
      have hsound := h.chain
      rw [hchain] at hsound
      rw [NodeView.next, if_neg (by omega)] at hledger ⊢
      refine ⟨by rw [rollback, hchain]; exact hsound.2, ?_, fun x hx => ?_, hledger⟩
      · have hle := h.length_le
        change v.chain.tail.length ≤ v.highest
        rw [List.length_tail]
        omega
      · rcases hx with hx | ⟨-, -, -, hcoinBase⟩
        · exact h.not_coinBase x hx
        · exact hcoinBase

end NodeView

theorem currBlock_next (h : Follows raw blocks start v s) {height : Int}
    (hvalid : v.Valid raw blocks start (.block height hash)) :
    height = (v.next raw blocks start (.block height hash)).height start ∧
      hash = NodeView.tipHash start (v.next raw blocks start (.block height hash)).chain := by
  cases hvalid with
  | accept hblock =>
      have hheight := hblock.height
      rw [NodeView.next, if_pos (by omega)]
      refine ⟨?_, rfl⟩
      rw [hheight, NodeView.height, NodeView.height, NodeView.accept, List.length_cons]
      push_cast
      omega
  | rollback hback =>
      have hheight := hback.height
      obtain ⟨block, hhead, hprev, -⟩ := hback.parent
      obtain ⟨below, hchain⟩ := List.head?_eq_some_iff.mp hhead
      have hsound := h.view.chain
      rw [hchain] at hsound
      rw [NodeView.next, if_neg (by omega)]
      refine ⟨?_, ?_⟩
      · rw [hheight, NodeView.height, NodeView.height, NodeView.rollback, hchain, List.tail_cons,
          List.length_cons]
        push_cast
        omega
      · rw [hprev, hsound.1.parent, NodeView.rollback, hchain, List.tail_cons]

section Next

variable {events : List TxEvent} (h : Handled raw blocks start v v' events s s₁)
  (hs : s = { s₀ with currLog1FileOffset := s₀.currLog1FileOffset + 1, statements := [] })
include h hs

theorem Handled.next (hview : v'.Sound raw blocks start) {height : Int} {hash : Uint256}
    (hheight : height = v'.height start) (hhash : hash = NodeView.tipHash start v'.chain) :
    Follows raw blocks start v' { s₁ with currBlockHeight := height, currBlockHash := hash } ∧
      Advances raw blocks v v' events s₀
        { s₁ with currBlockHeight := height, currBlockHash := hash } := by
  subst hs
  refine ⟨⟨hview, h.holds, h.settled, h.repo, h.inserts, h.deletes, h.times, hheight, hhash⟩,
    ⟨h.read, h.events, ?_, fun db hdb => ?_⟩⟩
  · exact h.offset.imp_left fun hoffset => hoffset.trans h.read.symm
  · exact (h.statements db hdb).imp_right fun hold => hold.resolve_left (List.not_mem_nil)

theorem Handled.next_of_chain (hfollows : Follows raw blocks start v s)
    (hview : v'.Sound raw blocks start) (hchain : v'.chain = v.chain) :
    Follows raw blocks start v' s₁ ∧ Advances raw blocks v v' events s₀ s₁ := by
  refine h.next hs hview ?_ ?_
  · rw [h.height, hfollows.height, NodeView.height, NodeView.height, hchain]
  · rw [h.hash, hfollows.hash, hchain]

end Next

def Log2Producer.readItem (s : Log2Producer) : Log2Producer :=
  { s with currLog1FileOffset := s.currLog1FileOffset + 1, statements := [] }

theorem Follows.readItem (h : Follows raw blocks start v s) :
    Follows raw blocks start v s.readItem :=
  ⟨h.view, h.holds, h.settled, h.repo, h.inserts, h.deletes, h.times, h.height, h.hash⟩

/--
A valid item is handled, whatever it is, and the producer follows the next view.
The events are the same for all producers that follow the view.
-/
theorem handleItem_spec (h₀ : Follows raw blocks start v s₀) {item : Log1}
    (hvalid : v.Valid raw blocks start item) :
    ∃ events, ∀ s, Follows raw blocks start v s →
      ∃ s', Returns (fun rounds => handleItem raw blocks rounds item s) ((), s') ∧
        Follows raw blocks start (v.next raw blocks start item) s' ∧
        Advances raw blocks v (v.next raw blocks start item) events s s' := by
  have hview : ∀ {events : List TxEvent} {s s' : Log2Producer},
      Handled raw blocks start v (v.next raw blocks start item) events s s' →
      (v.next raw blocks start item).Sound raw blocks start := fun hs =>
    h₀.view.next hvalid ⟨_, hs.holds.sound, hs.holds.tracks⟩
  cases item with
  | acceptTx hash =>
      cases hvalid with
      | acceptTx htx =>
          obtain ⟨events, hall⟩ := handleTxAccept_spec htx
          refine ⟨events, fun s h => ?_⟩
          obtain ⟨_, s', hrun, hs⟩ := exists_of_wp (hall _ h.readItem)
          exact ⟨s', .of_forall fun _ => hrun, hs.next_of_chain rfl h.readItem (hview hs) rfl⟩
  | removeTx hash =>
      obtain ⟨events, hall⟩ := handleTxReject_spec h₀ hash
      refine ⟨events, fun s h => ?_⟩
      obtain ⟨s', hreturns, hs⟩ := hall _ h.readItem
      exact ⟨s', hreturns, hs.next_of_chain rfl h.readItem (hview hs) rfl⟩
  | block height hash =>
      obtain ⟨events, hall⟩ := handleBlock_spec h₀ hvalid
      refine ⟨events, fun s h => ?_⟩
      obtain ⟨s', hreturns, hs⟩ := hall _ h.readItem
      obtain ⟨hheight, hhash⟩ := currBlock_next h₀ hvalid
      exact ⟨_, hreturns, hs.next rfl (hview hs) hheight hhash⟩
  | clearMemtxs =>
      obtain ⟨events, hall⟩ := clearMempoolTxs_spec h₀
      refine ⟨events, fun s h => ?_⟩
      obtain ⟨s', hreturns, hs⟩ := hall _ h.readItem
      exact ⟨s', hreturns, hs.next_of_chain rfl h.readItem (hview hs) rfl⟩

end ExplorerKV.Log2

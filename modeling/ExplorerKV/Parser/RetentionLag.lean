import ExplorerKV.Parser.Protocol
import ExplorerKV.Parser.RetentionSafety

/-!
# A producer far ahead of the parser

The cleanup counts the raw blocks it keeps from the newest one.  Once the
producer is more than 4320 blocks ahead, the first cleanup deletes a block the
parser has yet to accept.
-/

namespace ExplorerKV.Parser

open Bitcoin Foundation

/-- Transactions of the mempool have hashes from 10000 on, coinbases smaller ones. -/
def lagRaw : RawTxs := fun hash =>
  if hash.val < 10000 then exampleRaw hash
  else
    { tx := { nVersion := 1, vin := [], vout := [], nLockTime := 0 }
      hexLength := 20 }

def lagBlock (i : Nat) : RawBlock :=
  ⟨Fin.ofNat _ (20000 + i), i, ⟨0, 0, [Fin.ofNat _ (i + 1)]⟩⟩

def acceptCycle (i : Nat) : List LagAction :=
  [.handleTxAccept 0 (Fin.ofNat _ (10000 + i)), .selectRow, .pushFront, .popBack, .handle]

def blockCycle (block : RawBlock) : List LagAction :=
  [.insertRawBlock true block, .insertBlockRows [] [] 0, .commitBatch]

/-- `n` transactions handled, then `m` blocks, and a row fetched. -/
def backlogSchedule (n m : Nat) : List LagAction :=
  (List.range n).flatMap acceptCycle ++
    (List.range m).flatMap (fun i => blockCycle (lagBlock i)) ++ [.selectRow, .deleteRows]

def lagSchedule (n m : Nat) : List LagAction :=
  backlogSchedule n m ++ [.deleteBlocks]

namespace LagState

def acceptedRows (n : Nat) : List TxLog2Row :=
  (List.range n).map fun (i : Nat) => acceptRow 0 (Fin.ofNat _ (10000 + i)) (i + 1)

def blockRows (n m : Nat) : List TxLog2Row :=
  (List.range m).flatMap fun (i : Nat) =>
    [acceptRow 0 (Fin.ofNat _ (i + 1)) (n + 2 * i + 1),
      blockRow .txConfirm (lagBlock i) (i + 1) 0 (Fin.ofNat _ (i + 1)) (n + 2 * i + 2)]

/-- The state after `n` transactions and `m` blocks. -/
def lagState (n m : Nat) : LagState where
  txlogs2 := entries false (acceptedRows n ++ blockRows n m)
  nextTxlogs2Id := n + 2 * m + 1
  rawBlocks := (List.range m).map fun (i : Nat) => ((i : Int) + 1, lagBlock i)
  nextRawBlockId := m + 1
  producer := .idle
  fetcher := .idle
  lastTxLog2Id := n
  buffer := []
  handler := .idle
  lastHandledId := n
  handled := acceptedRows n
  deletedRows := []

theorem acceptedRows_id_le {n : Nat} {row : TxLog2Row} (h : row ∈ acceptedRows n) :
    row.id ≤ n := by
  obtain ⟨i, hi, rfl⟩ := List.mem_map.mp h
  rw [List.mem_range] at hi
  simp only [acceptRow]
  omega

theorem find_entries (n : Nat) (row : TxLog2Row) (rows : List TxLog2Row) (hrow : row.id > n) :
    ((entries false (acceptedRows n ++ row :: rows)).find? fun entry =>
      entry.row.id > (n : Int) ∧ entry.temporary = false) = some ⟨row, false⟩ := by
  have hnone : (entries false (acceptedRows n)).find? (fun entry =>
      entry.row.id > (n : Int) ∧ entry.temporary = false) = none := by
    rw [List.find?_eq_none]
    intro entry hentry
    obtain ⟨r, hr, rfl⟩ := List.mem_map.mp hentry
    have := acceptedRows_id_le hr
    simp only [decide_eq_true_eq]
    omega
  rw [entries] at hnone
  rw [entries, List.map_append, List.find?_append, hnone, Option.none_or, List.map_cons,
    List.find?_cons_of_pos]
  apply decide_eq_true
  exact ⟨hrow, rfl⟩

theorem isCleanup_iff {row : TxLog2Row} :
    isCleanup row = true ↔ row.id > kKeepNum ∧ row.id % 20000 = 0 := by
  simp [isCleanup]

theorem runs_acceptCycle {raw : RawTxs} (s : LagState) (hproducer : s.producer = .idle)
    (hfetcher : s.fetcher = .idle) (hhandler : s.handler = .idle) (hbuffer : s.buffer = [])
    (i : Nat) (row : TxLog2Row)
    (hrow : row = acceptRow 0 (Fin.ofNat _ (10000 + i)) s.nextTxlogs2Id)
    (hfind : ((s.txlogs2 ++ [(⟨row, false⟩ : TxLogs2Entry)]).find? fun entry =>
      entry.row.id > s.lastTxLog2Id ∧ entry.temporary = false) = some ⟨row, false⟩)
    (hclean : isCleanup row = false) :
    runs (step raw) s (acceptCycle i) = some { s with
      txlogs2 := s.txlogs2 ++ [⟨row, false⟩]
      nextTxlogs2Id := s.nextTxlogs2Id + 1
      lastTxLog2Id := row.id
      lastHandledId := row.id
      handled := s.handled ++ [row] } := by
  obtain ⟨txlogs2, nextTxlogs2Id, rawBlocks, nextRawBlockId, producer, fetcher, lastTxLog2Id,
    buffer, handler, lastHandledId, handled, deletedRows⟩ := s
  dsimp only at hproducer hfetcher hhandler hbuffer hrow hfind
  subst hproducer hfetcher hhandler hbuffer
  have hneeds : needsBlock raw row = false := by
    rw [hrow]
    simp [needsBlock, acceptRow]
  have hinsert : numberRows nextTxlogs2Id [acceptRow 0 (Fin.ofNat _ (10000 + i))] = [row] := by
    rw [hrow]
    rfl
  rw [acceptCycle, runs_cons]
  simp only [step, if_true, insertRows, hinsert, List.map_cons, List.map_nil, Option.bind_some]
  rw [runs_cons]
  simp only [step]
  rw [hfind]
  simp only [hclean, Bool.false_eq_true, if_false, Option.bind_some]
  rw [runs_cons]
  simp only [step, List.length_nil, Nat.zero_lt_succ, if_true, List.nil_append, Option.bind_some]
  rw [runs_cons]
  simp only [step, Option.bind_some]
  rw [runs_cons]
  simp [step, handle, hneeds]

theorem runs_acceptCycles (n : Nat) (hn : n < 2020000) :
    runs (step lagRaw) initial ((List.range n).flatMap acceptCycle) = some (lagState n 0) := by
  induction n with
  | zero => rfl
  | succ n ih =>
      have hclean : isCleanup (acceptRow 0 (Fin.ofNat _ (10000 + n)) (n + 1)) = false := by
        rw [Bool.eq_false_iff]
        intro h
        have := isCleanup_iff.mp h
        rw [kKeepNum] at this
        simp only [acceptRow] at this
        omega
      have hfind := find_entries n (acceptRow 0 (Fin.ofNat _ (10000 + n)) (n + 1)) []
        (by simp only [acceptRow]; omega)
      rw [List.range_succ, List.flatMap_append, List.flatMap_singleton, runs_append,
        ih (by omega), Option.bind_some,
        runs_acceptCycle (lagState n 0) rfl rfl rfl rfl n
          (acceptRow 0 (Fin.ofNat _ (10000 + n)) (n + 1)) (by simp [lagState])
          (by simpa [lagState, entries, blockRows] using hfind) hclean]
      simp [lagState, acceptedRows, blockRows, List.range_succ, entries, acceptRow]

/-! ### The blocks -/

theorem lagBlock_hash_ne {i m : Nat} (hi : i < m) (hm : m < 10000) :
    (lagBlock i).blockHash ≠ (lagBlock m).blockHash := by
  intro h
  simp only [lagBlock, Fin.ofNat] at h
  have := Fin.mk.inj h
  omega

theorem insertRawBlock_of_find?_eq_none (s : LagState) (accept : Bool) (block : RawBlock)
    (hnew : s.rawBlocks.find? (fun entry => entry.2.blockHash = block.blockHash) = none) :
    s.insertRawBlock accept block = { s with
      rawBlocks := s.rawBlocks ++ [(s.nextRawBlockId, block)]
      nextRawBlockId := s.nextRawBlockId + 1
      producer := .haveBlock accept block s.nextRawBlockId } := by
  rw [insertRawBlock]
  split
  · rename_i hfind
    rw [hnew] at hfind
    cases hfind
  · rfl

theorem runs_blockCycle {raw : RawTxs} (s : LagState) (hproducer : s.producer = .idle)
    (block : RawBlock) (coinbase : Uint256) (hvtx : block.blk.vtx = [coinbase])
    (hnew : s.rawBlocks.find? (fun entry => entry.2.blockHash = block.blockHash) = none)
    (hcommitted : ∀ entry ∈ s.txlogs2, entry.temporary = false) :
    runs (step raw) s (blockCycle block) = some { s with
      txlogs2 := s.txlogs2 ++ entries false
        [acceptRow 0 coinbase s.nextTxlogs2Id,
          blockRow .txConfirm block s.nextRawBlockId 0 coinbase (s.nextTxlogs2Id + 1)]
      nextTxlogs2Id := s.nextTxlogs2Id + 2
      rawBlocks := s.rawBlocks ++ [(s.nextRawBlockId, block)]
      nextRawBlockId := s.nextRawBlockId + 1 } := by
  have hnone : s.txlogs2.filter (fun entry => entry.temporary) = [] := by
    simpa [List.filter_eq_nil_iff] using hcommitted
  have hmap : s.txlogs2.map (fun entry => { entry with temporary := false }) = s.txlogs2 := by
    conv_rhs => rw [← List.map_id s.txlogs2]
    apply List.map_congr_left
    intro entry hentry
    have := hcommitted entry hentry
    cases entry
    simp_all
  have hvalues : ∀ blockId, blockAcceptRows [] [] block blockId 0 =
      [acceptRow 0 coinbase, blockRow .txConfirm block blockId 0 coinbase] := by
    simp [blockAcceptRows, hvtx]
  have hinsert : step raw s (.insertRawBlock true block) =
      some (s.insertRawBlock true block) := if_pos hproducer
  rw [insertRawBlock_of_find?_eq_none s true block hnew] at hinsert
  rw [blockCycle, runs_cons, hinsert, Option.bind_some, runs_cons]
  generalize hs' : ({ s with
    rawBlocks := s.rawBlocks ++ [(s.nextRawBlockId, block)]
    nextRawBlockId := s.nextRawBlockId + 1
    producer := .haveBlock true block s.nextRawBlockId } : LagState) = s'
  have hstage : step raw s' (.insertBlockRows [] [] 0) =
      some { s'.insertRows true (blockAcceptRows [] [] block s.nextRawBlockId 0) with
        producer := .staged 2 } := by
    rw [← hs']
    simp only [step, List.not_mem_nil, false_implies, implies_true, if_true, hvalues]
    rfl
  have hrows : (s'.insertRows true (blockAcceptRows [] [] block s.nextRawBlockId 0)).txlogs2 =
      s.txlogs2 ++ entries true [acceptRow 0 coinbase s.nextTxlogs2Id,
        blockRow .txConfirm block s.nextRawBlockId 0 coinbase (s.nextTxlogs2Id + 1)] := by
    rw [← hs', hvalues]
    rfl
  rw [hstage, Option.bind_some, runs_cons]
  simp only [step, commitBatch, hrows, List.filter_append, hnone]
  rw [if_pos (by simp [entries])]
  rw [Option.bind_some, runs_nil, List.map_append, hmap, ← hs', hvalues]
  simp only [entries, List.map_map, Function.comp_def, insertRows, List.length_cons,
    List.length_nil, hproducer]
  rfl

theorem runs_blockCycles (n m : Nat) (hm : m ≤ 10000) :
    runs (step lagRaw) (lagState n 0) ((List.range m).flatMap fun i => blockCycle (lagBlock i)) =
      some (lagState n m) := by
  induction m with
  | zero => rfl
  | succ m ih =>
      have hnew : (lagState n m).rawBlocks.find? (fun entry =>
          entry.2.blockHash = (lagBlock m).blockHash) = none := by
        rw [List.find?_eq_none]
        intro entry hentry
        obtain ⟨i, hi, rfl⟩ := List.mem_map.mp hentry
        simpa using lagBlock_hash_ne (List.mem_range.mp hi) (by omega)
      have hcommitted : ∀ entry ∈ (lagState n m).txlogs2, entry.temporary = false := by
        intro entry hentry
        obtain ⟨row, -, rfl⟩ := List.mem_map.mp hentry
        rfl
      rw [List.range_succ, List.flatMap_append, List.flatMap_singleton, runs_append,
        ih (by omega), Option.bind_some,
        runs_blockCycle (lagState n m) rfl (lagBlock m) (Fin.ofNat _ (m + 1)) rfl hnew hcommitted]
      have hrows : blockRows n (m + 1) = blockRows n m ++
          [acceptRow 0 (Fin.ofNat _ (m + 1)) (n + 2 * m + 1),
            blockRow .txConfirm (lagBlock m) (m + 1) 0 (Fin.ofNat _ (m + 1))
              (n + 2 * m + 1 + 1)] := by
        rw [blockRows, List.range_succ, List.flatMap_append, List.flatMap_singleton,
          add_assoc _ 1 1]
        rfl
      simp only [lagState, hrows, entries, List.map_append, List.append_assoc, List.range_succ,
        List.map_cons, List.map_nil]
      push_cast
      rw [show (n : Int) + 2 * (m + 1) + 1 = n + 2 * m + 1 + 2 by ring]

theorem maxRawBlockId_lagState (n m : Nat) : (lagState n m).maxRawBlockId = m := by
  rw [maxRawBlockId, lagState]
  induction m with
  | zero => rfl
  | succ m ih =>
      rw [List.range_succ, List.map_append, List.map_append, List.foldl_append, ih]
      simp

theorem run_backlogSchedule (n m : Nat) (hn : n + 1 = 2020000) (hm : m + 1 ≤ 10000) :
    ∃ row, row.id = 2020000 ∧
      run lagRaw (backlogSchedule n (m + 1)) = some ((lagState n (m + 1)).deleteRows row) := by
  have hrows : ∃ rest, blockRows n (m + 1) =
      acceptRow 0 (Fin.ofNat _ (0 + 1)) (n + 2 * (0 : Nat) + 1) :: rest := by
    rw [blockRows, List.range_succ_eq_map, List.flatMap_cons]
    exact ⟨_, rfl⟩
  obtain ⟨rest, hrest⟩ := hrows
  generalize hrow : acceptRow 0 (Fin.ofNat _ (0 + 1)) (n + 2 * (0 : Nat) + 1) = row at hrest
  have hid : row.id = n + 1 := by
    rw [← hrow]
    simp [acceptRow]
  have hfind := find_entries n row rest (by omega)
  rw [← hrest] at hfind
  have hfind' : (lagState n (m + 1)).txlogs2.find? (fun entry =>
      entry.row.id > (lagState n (m + 1)).lastTxLog2Id ∧ entry.temporary = false) =
        some ⟨row, false⟩ := hfind
  have hselect : step lagRaw (lagState n (m + 1)) .selectRow =
      some { lagState n (m + 1) with fetcher := .deletingRows row } := by
    have hclean : isCleanup row = true := by
      rw [isCleanup_iff, kKeepNum]
      omega
    simp only [step]
    rw [hfind']
    simp [lagState, hclean]
  refine ⟨row, by omega, ?_⟩
  rw [run, backlogSchedule, runs_append, runs_append, runs_acceptCycles n (by omega),
    Option.bind_some, runs_blockCycles n (m + 1) hm, Option.bind_some, runs_cons, hselect]
  rfl

theorem run_lagSchedule {n m : Nat} {s : LagState} {row : TxLog2Row}
    (hrun : run lagRaw (backlogSchedule n m) = some (s.deleteRows row)) :
    run lagRaw (lagSchedule n m) = some ((s.deleteRows row).deleteBlocks row) := by
  rw [run] at hrun
  rw [run, lagSchedule, runs_append, hrun]
  rfl

theorem prefix_lagSchedule {n m : Nat} {before : List LagAction}
    (h : before ++ [.deleteBlocks] <+: lagSchedule n m) : before = backlogSchedule n m := by
  rw [lagSchedule, List.prefix_concat_iff] at h
  rcases h with h | h
  · exact List.append_cancel_right h
  · have hmem : LagAction.deleteBlocks ∈ backlogSchedule n m :=
      h.subset (List.mem_append_right _ (List.mem_singleton_self _))
    simp [backlogSchedule, acceptCycle, blockCycle] at hmem

theorem needed_lagState {n m : Nat} {row : TxLog2Row} {blockId : Int}
    (h : Needed lagRaw ((lagState n m).deleteRows row) blockId) : 1 ≤ blockId := by
  rcases h with ⟨entry, hentry, -, hneeds, rfl⟩ | ⟨accept, block, hproducer⟩
  · obtain ⟨r, hr, rfl⟩ := List.mem_map.mp (List.mem_of_mem_filter hentry)
    have haccept : r.type ≠ .txAccept := by
      intro htype
      simp [needsBlock, htype] at hneeds
    rcases List.mem_append.mp hr with hr | hr
    · obtain ⟨i, -, rfl⟩ := List.mem_map.mp hr
      exact absurd rfl haccept
    · obtain ⟨i, -, hr⟩ := List.mem_flatMap.mp hr
      simp only [List.mem_cons, List.not_mem_nil, or_false] at hr
      rcases hr with rfl | rfl
      · exact absurd rfl haccept
      · simp only [blockRow]
        omega
  · cases hproducer

theorem lagAlwaysFits_lagSchedule {n m : Nat} {row : TxLog2Row} (hm : m ≤ 4321)
    (hrun : run lagRaw (backlogSchedule n m) = some ((lagState n m).deleteRows row)) :
    LagAlwaysFits lagRaw (lagSchedule n m) := by
  intro before s hbegins hbefore blockId hneeded
  obtain rfl := prefix_lagSchedule hbegins
  rw [hrun, Option.some_inj] at hbefore
  subst hbefore
  have hone := needed_lagState hneeded
  have hmax := maxRawBlockId_lagState n m
  change (lagState n m).maxRawBlockId ≤ _
  omega

end LagState

/-- With a backlog of 4321 blocks the cleanup is still safe. -/
theorem retention_safe_of_lag_example :
    ∃ s, LagState.run lagRaw (lagSchedule 2019999 4321) = some s ∧ RetentionSafe lagRaw s := by
  obtain ⟨row, -, hrun⟩ := LagState.run_backlogSchedule 2019999 4320 rfl (by omega)
  have hlag := LagState.run_lagSchedule hrun
  exact ⟨_, hlag, retention_safe_of_lag lagRaw (lagSchedule 2019999 4321) _ hlag
    (LagState.lagAlwaysFits_lagSchedule (le_refl _) hrun)⟩

theorem retentionUnsafe_of_lag (n m : Nat) (hn : n + 1 = 2020000) (hm : 4322 ≤ m)
    (hm' : m ≤ 10000) :
    ∃ s, LagState.run lagRaw (lagSchedule n m) = some s ∧ ¬RetentionSafe lagRaw s := by
  obtain ⟨k, rfl⟩ : ∃ k, m = k + 1 := ⟨m - 1, by omega⟩
  obtain ⟨row, hid, hrun⟩ := LagState.run_backlogSchedule n k hn hm'
  refine ⟨_, LagState.run_lagSchedule hrun, ?_⟩
  intro hsafe
  have hrow : blockRow .txConfirm (lagBlock 0) 1 0 (Fin.ofNat _ 1) (n + 2) ∈
      LagState.blockRows n (k + 1) := by
    rw [LagState.blockRows, List.range_succ_eq_map, List.flatMap_cons]
    simp
  have hmem : (⟨blockRow .txConfirm (lagBlock 0) 1 0 (Fin.ofNat _ 1) (n + 2), false⟩ :
      TxLogs2Entry) ∈ ((LagState.lagState n (k + 1)).deleteRows row).txlogs2 := by
    apply List.mem_filter.mpr
    constructor
    · exact List.mem_map.mpr ⟨_, List.mem_append_right _ hrow, rfl⟩
    · apply decide_eq_true
      rw [hid, LagState.kKeepNum, blockRow]
      dsimp only
      omega
  have hneeds : needsBlock lagRaw
      (blockRow .txConfirm (lagBlock 0) 1 0 (Fin.ofNat _ 1) (n + 2)) = true := by
    change needsBlock lagRaw (blockRow .txConfirm (lagBlock 0) 1 0 (Fin.ofNat _ 1) 0) = true
    decide
  have hhandled : (LagState.lagState n (k + 1)).lastHandledId < (n : Int) + 2 := by
    simp only [LagState.lagState]
    omega
  obtain ⟨block, hblock⟩ := hsafe.blocks _ hmem hhandled hneeds
  rw [LagState.blockById, Option.map_eq_some_iff] at hblock
  obtain ⟨entry, hentry, -⟩ := hblock
  have hkept := (List.mem_filter.mp (List.mem_of_find?_eq_some hentry)).2
  have hone : entry.1 = 1 := by
    have hfound := List.find?_some hentry
    rw [decide_eq_true_eq] at hfound
    exact hfound
  have hmax := LagState.maxRawBlockId_lagState n (k + 1)
  change decide (¬entry.1 < (LagState.lagState n (k + 1)).maxRawBlockId - 4320) = true at hkept
  rw [decide_eq_true_eq, hone, hmax] at hkept
  omega

/-- A backlog of 4322 blocks. -/
theorem retention_unsafe : ¬∀ (raw : RawTxs) (schedule : List LagAction) (s : LagState),
    LagState.run raw schedule = some s → RetentionSafe raw s := by
  intro h
  obtain ⟨s, hrun, hunsafe⟩ := retentionUnsafe_of_lag 2019999 4322 rfl (le_refl _) (by omega)
  exact hunsafe (h lagRaw _ s hrun)

end ExplorerKV.Parser

import ExplorerKV.Parser.RawBlockRetention

/-!
# What the cleanup deletes

The rows that are not handled have consecutive ids, since the producer starts
only when the parser has caught up.  At most 202 of them have been fetched, so
the two million rows kept before a fetched one cover all of them.  The blocks
kept are counted from the newest one, so there the lag has to be bounded.
-/

namespace ExplorerKV.Parser

open Bitcoin Foundation

/-! ## Numbered rows -/

/-- The rows have consecutive ids. -/
def Numbered : Int → List TxLog2Row → Prop
  | _, [] => True
  | start, row :: rows => row.id = start ∧ Numbered (start + 1) rows

section Numbered

variable {start : Int} {rows rows' : List TxLog2Row} {row : TxLog2Row}

theorem numbered_append : Numbered start (rows ++ rows') ↔
    Numbered start rows ∧ Numbered (start + rows.length) rows' := by
  induction rows generalizing start with
  | nil => simp [Numbered]
  | cons row rows ih =>
      simp only [List.cons_append, Numbered, ih, List.length_cons, and_assoc]
      rw [show start + 1 + (rows.length : Int) = start + ((rows.length + 1 : Nat) : Int) by
        push_cast
        ring]

theorem Numbered.mem (h : Numbered start rows) (hrow : row ∈ rows) :
    start ≤ row.id ∧ row.id < start + rows.length := by
  induction rows generalizing start with
  | nil => cases hrow
  | cons head rows ih =>
      rw [List.length_cons]
      rcases List.mem_cons.mp hrow with rfl | hrow
      · have := h.1
        omega
      · have := ih h.2 hrow
        omega

theorem Numbered.getLast (h : Numbered start rows) (hlast : rows.getLast? = some row) :
    row.id = start + rows.length - 1 := by
  obtain ⟨init, rfl⟩ := List.getLast?_eq_some_iff.mp hlast
  have := (numbered_append.mp h).2.1
  rw [List.length_append, List.length_singleton]
  push_cast
  omega

theorem length_numberRows (rows : List NewRow) : (numberRows start rows).length = rows.length := by
  induction rows generalizing start with
  | nil => rfl
  | cons row rows ih => simp [numberRows, ih]

theorem mem_numberRows {rows : List NewRow} (hrow : row ∈ numberRows start rows) :
    ∃ new ∈ rows, ∃ id, row = new id := by
  induction rows generalizing start with
  | nil => cases hrow
  | cons new rows ih =>
      rcases List.mem_cons.mp hrow with rfl | hrow
      · exact ⟨new, List.mem_cons_self, start, rfl⟩
      · obtain ⟨new', hmem, id, rfl⟩ := ih hrow
        exact ⟨new', List.mem_cons_of_mem _ hmem, id, rfl⟩

theorem numbered_numberRows {rows : List NewRow} (h : ∀ new ∈ rows, ∀ id, (new id).id = id) :
    Numbered start (numberRows start rows) := by
  induction rows generalizing start with
  | nil => trivial
  | cons new rows ih =>
      exact ⟨h new List.mem_cons_self start,
        ih fun new' hnew' => h new' (List.mem_cons_of_mem _ hnew')⟩

end Numbered

/-! ## The rows of a batch -/

section Batches

variable {raw : RawTxs} {block : RawBlock} {blockId maxTimestamp : Int}
  {conflictTxs alreadyInMemTxHashs : List Uint256} {new : NewRow}

/-- A row keeps its id, and needs only the block it was made for. -/
def RowOf (raw : RawTxs) (blockId : Int) (new : NewRow) : Prop :=
  ∀ id, (new id).id = id ∧ (needsBlock raw (new id) → (new id).blkId = blockId)

theorem rowOf_acceptRow (hash : Uint256) : RowOf raw blockId (acceptRow maxTimestamp hash) :=
  fun _ => ⟨rfl, by simp [needsBlock, acceptRow]⟩

theorem rowOf_rejectRow {hash : Uint256} (h : (raw hash).tx.isCoinBase = false) :
    RowOf raw blockId (rejectRow hash) :=
  fun _ => ⟨rfl, by simp [needsBlock, rejectRow, h]⟩

theorem rowOf_blockRow (type : Log2Type) (hash : Uint256) :
    RowOf raw blockId (blockRow type block blockId maxTimestamp hash) :=
  fun _ => ⟨rfl, fun _ => rfl⟩

theorem rowOf_blockAcceptRows (h : ∀ hash ∈ conflictTxs, (raw hash).tx.isCoinBase = false)
    (hnew : new ∈ blockAcceptRows conflictTxs alreadyInMemTxHashs block blockId maxTimestamp) :
    RowOf raw blockId new := by
  rw [blockAcceptRows, List.mem_append] at hnew
  rcases hnew with hnew | hnew
  · obtain ⟨hash, hhash, rfl⟩ := List.mem_map.mp hnew
    exact rowOf_rejectRow (h hash hhash)
  · obtain ⟨hash, -, hnew⟩ := List.mem_flatMap.mp hnew
    rcases List.mem_append.mp hnew with hnew | hnew
    · split at hnew
      · cases hnew
      · rw [List.mem_singleton.mp hnew]
        exact rowOf_acceptRow hash
    · rw [List.mem_singleton.mp hnew]
      exact rowOf_blockRow .txConfirm hash

theorem rowOf_blockRollbackRows (hnew : new ∈ blockRollbackRows block blockId maxTimestamp) :
    RowOf raw blockId new := by
  rw [blockRollbackRows, List.mem_append] at hnew
  rcases hnew with hnew | hnew
  · obtain ⟨hash, -, rfl⟩ := List.mem_map.mp hnew
    exact rowOf_blockRow .txUnconfirm hash
  · obtain ⟨hash, -, rfl⟩ := List.mem_map.mp hnew
    exact rowOf_blockRow .txReject hash

end Batches

/-! ## The backlog -/

namespace LagState

def fetched (s : LagState) : List TxLog2Row :=
  (match s.handler with
    | .handling row => [row]
    | .idle | .failed => []) ++ s.buffer ++
  (match s.fetcher with
    | .deletingRows row | .deletingBlocks row | .pushing row => [row]
    | .idle => [])

/-- The block is in `0_raw_blocks`. -/
def HasBlock (s : LagState) (blockId : Int) : Prop :=
  ∃ block, (blockId, block) ∈ s.rawBlocks

def entries (temporary : Bool) (rows : List TxLog2Row) : List TxLogs2Entry :=
  rows.map fun row => ⟨row, temporary⟩

/-- The table: handled rows, fetched ones, committed ones to come, temporary ones. -/
structure Backlog (raw : RawTxs) (s : LagState) (old rest temps : List TxLog2Row)
    (start : Int) : Prop where
  table : s.txlogs2 = entries false (old ++ s.fetched ++ rest) ++ entries true temps
  old_le : ∀ row ∈ old, row.id ≤ s.lastHandledId ∧ row ∈ s.handled
  lt_start : s.lastHandledId < start
  numbered : Numbered start (s.fetched ++ rest ++ temps)
  next_le : start + (s.fetched ++ rest ++ temps).length ≤ s.nextTxlogs2Id
  next_eq : s.producer ≠ .stopped →
    start + (s.fetched ++ rest ++ temps).length = s.nextTxlogs2Id
  temps_nil : (∀ expectAffectedRows, s.producer ≠ .staged expectAffectedRows) → temps = [] ∨
    s.producer = .stopped
  last : s.fetcher = .idle →
    s.lastTxLog2Id = (s.fetched.getLast?.map TxLog2Row.id).getD s.lastHandledId
  blocks : ∀ row ∈ s.fetched ++ rest ++ temps, needsBlock raw row → s.HasBlock row.blkId

structure Inv (raw : RawTxs) (s : LagState) : Prop where
  backlog : ∃ old rest temps start, s.Backlog raw old rest temps start
  buffer_le : s.buffer.length ≤ 200
  deleted : ∀ row ∈ s.deletedRows, row ∈ s.handled
  haveBlock : ∀ accept block blockId, s.producer = .haveBlock accept block blockId →
    s.HasBlock blockId
  found : s.handler ≠ .failed

variable {raw : RawTxs} {s s' : LagState} {old rest temps : List TxLog2Row} {start : Int}

theorem inv_initial : initial.Inv raw where
  backlog := by
    refine ⟨[], [], [], 1, ?_⟩
    constructor <;> simp [initial, fetched, entries, Numbered]
  buffer_le := Nat.zero_le _
  deleted := by simp [initial]
  haveBlock := by simp [initial]
  found := by simp [initial]

theorem HasBlock.mono (hblocks : s.rawBlocks ⊆ s'.rawBlocks) {blockId : Int}
    (h : s.HasBlock blockId) : s'.HasBlock blockId := by
  obtain ⟨block, hblock⟩ := h
  exact ⟨block, hblocks hblock⟩

/-! ### The producer -/

theorem Backlog.insertRows (h : s.Backlog raw old rest [] start) (hrunning : s.producer ≠ .stopped)
    {rows : List NewRow}
    (hrows : ∀ new ∈ rows, ∀ id, (new id).id = id ∧ (needsBlock raw (new id) →
      s.HasBlock (new id).blkId)) (temporary : Bool) {producer : ProducerPc}
    (hproducer : temporary = true → ∃ n, producer = .staged n) :
    Backlog raw { s.insertRows temporary rows with producer := producer } old
      (if temporary then rest else rest ++ numberRows s.nextTxlogs2Id rows)
      (if temporary then numberRows s.nextTxlogs2Id rows else []) start := by
  have hnext := h.next_eq hrunning
  rw [List.append_nil] at hnext
  have hlist : s.fetched ++
      (if temporary then rest else rest ++ numberRows s.nextTxlogs2Id rows) ++
      (if temporary then numberRows s.nextTxlogs2Id rows else []) =
        s.fetched ++ rest ++ numberRows s.nextTxlogs2Id rows := by
    cases temporary <;> simp
  have hlength : start + ((s.fetched ++ rest ++ numberRows s.nextTxlogs2Id rows).length : Int) =
      s.nextTxlogs2Id + rows.length := by
    rw [List.length_append, length_numberRows]
    push_cast
    omega
  have hsame : fetched { s.insertRows temporary rows with producer := producer } = s.fetched :=
    rfl
  constructor
  · change s.txlogs2 ++ (numberRows s.nextTxlogs2Id rows).map _ = _
    rw [h.table, hsame]
    cases temporary <;> simp [entries]
  · exact h.old_le
  · exact h.lt_start
  · rw [hsame, hlist, numbered_append, hnext]
    have hnumbered := h.numbered
    rw [List.append_nil] at hnumbered
    exact ⟨hnumbered, numbered_numberRows fun new hnew id => (hrows new hnew id).1⟩
  · rw [hsame, hlist, hlength]
    exact le_refl _
  · intro _
    rw [hsame, hlist, hlength]
    rfl
  · intro hstaged
    cases temporary with
    | false => exact Or.inl rfl
    | true =>
        obtain ⟨n, hn⟩ := hproducer rfl
        exact absurd hn (hstaged n)
  · rw [hsame]
    exact h.last
  · intro row hrow hneeds
    rw [hsame, hlist, List.mem_append] at hrow
    rcases hrow with hrow | hrow
    · exact h.blocks row (by simpa using hrow) hneeds
    · obtain ⟨new, hnew, id, rfl⟩ := mem_numberRows hrow
      exact (hrows new hnew id).2 hneeds

theorem Inv.temps_nil (h : s.Inv raw) (hrunning : s.producer ≠ .stopped)
    (hstaged : ∀ n, s.producer ≠ .staged n) :
    ∃ old rest start, s.Backlog raw old rest [] start := by
  obtain ⟨old, rest, temps, start, hback⟩ := h.backlog
  rcases hback.temps_nil hstaged with rfl | hstopped
  · exact ⟨old, rest, start, hback⟩
  · exact absurd hstopped hrunning

theorem inv_insertRows (h : s.Inv raw) (hrunning : s.producer ≠ .stopped)
    (hstaged : ∀ n, s.producer ≠ .staged n) (temporary : Bool) (rows : List NewRow)
    (producer : ProducerPc)
    (hrows : ∀ new ∈ rows, ∀ id, (new id).id = id ∧ (needsBlock raw (new id) →
      s.HasBlock (new id).blkId))
    (hproducer : temporary = true → ∃ n, producer = .staged n)
    (hblock : ∀ accept block blockId, producer = .haveBlock accept block blockId →
      s.HasBlock blockId) :
    Inv raw { s.insertRows temporary rows with producer := producer } := by
  obtain ⟨old, rest, start, hback⟩ := h.temps_nil hrunning hstaged
  refine ⟨⟨old, _, _, start, hback.insertRows hrunning hrows temporary hproducer⟩, ?_, ?_, ?_, ?_⟩
  · exact h.buffer_le
  · exact h.deleted
  · exact hblock
  · exact h.found

theorem inv_insertRawBlock (h : s.Inv raw) (hidle : s.producer = .idle) (accept : Bool)
    (block : RawBlock) : (s.insertRawBlock accept block).Inv raw := by
  obtain ⟨old, rest, start, hback⟩ :=
    h.temps_nil (by simp [hidle]) (by simp [hidle])
  have hnext := hback.next_eq (by simp [hidle])
  rw [insertRawBlock]
  split
  · rename_i id found hfind
    have hmem := List.mem_of_find?_eq_some hfind
    split
    · refine ⟨⟨old, rest, [], start, ?_⟩, h.buffer_le, h.deleted, ?_, h.found⟩
      · exact { hback with
          next_eq := fun _ => hnext
          temps_nil := fun _ => Or.inl rfl }
      · intro accept' block' blockId hpc
        cases hpc
        exact ⟨found, hmem⟩
    · refine ⟨⟨old, rest, [], start, ?_⟩, h.buffer_le, h.deleted, ?_, h.found⟩
      · exact { hback with
          next_eq := fun _ => hnext
          temps_nil := fun _ => Or.inl rfl }
      · intro accept' block' blockId hpc
        cases hpc
  · have hsub : s.rawBlocks ⊆ s.rawBlocks ++ [(s.nextRawBlockId, block)] :=
      List.subset_append_left _ _
    refine ⟨⟨old, rest, [], start, ?_⟩, h.buffer_le, h.deleted, ?_, h.found⟩
    · exact { hback with
        next_eq := fun _ => hnext
        temps_nil := fun _ => Or.inl rfl
        blocks := fun row hrow hneeds =>
          (hback.blocks row hrow hneeds).imp fun _ hblock => hsub hblock }
    · intro accept' block' blockId hpc
      cases hpc
      exact ⟨block, List.mem_append_right _ (by simp)⟩

theorem inv_commitBatch (h : s.Inv raw) {n : Nat} (hstaged : s.producer = .staged n) :
    (s.commitBatch n).Inv raw := by
  obtain ⟨old, rest, temps, start, hback⟩ := h.backlog
  have hnext := hback.next_eq (by simp [hstaged])
  have hlist : s.fetched ++ (rest ++ temps) ++ [] = s.fetched ++ rest ++ temps := by simp
  rw [commitBatch]
  split
  · refine ⟨⟨old, rest ++ temps, [], start, ?_⟩, h.buffer_le, h.deleted, ?_, h.found⟩
    · constructor
      · change s.txlogs2.map _ = entries false (old ++ s.fetched ++ (rest ++ temps)) ++ _
        rw [hback.table]
        simp [entries, Function.comp_def]
      · exact hback.old_le
      · exact hback.lt_start
      · change Numbered start (s.fetched ++ (rest ++ temps) ++ [])
        rw [hlist]
        exact hback.numbered
      · change start + ((s.fetched ++ (rest ++ temps) ++ []).length : Int) ≤ _
        rw [hlist]
        exact hback.next_le
      · intro _
        change start + ((s.fetched ++ (rest ++ temps) ++ []).length : Int) = _
        rw [hlist]
        exact hnext
      · exact fun _ => Or.inl rfl
      · exact hback.last
      · change ∀ row ∈ s.fetched ++ (rest ++ temps) ++ [], _
        rw [hlist]
        exact hback.blocks
    · intro accept block blockId hpc
      cases hpc
  · refine ⟨⟨old, rest, temps, start, ?_⟩, h.buffer_le, h.deleted, ?_, h.found⟩
    · exact { hback with
        next_eq := fun hrunning => absurd rfl hrunning
        temps_nil := fun _ => Or.inr rfl }
    · intro accept block blockId hpc
      cases hpc

theorem inv_initLog2 (h : s.Inv raw) : s.initLog2.Inv raw := by
  obtain ⟨old, rest, temps, start, hback⟩ := h.backlog
  have htable : s.txlogs2.filter (fun entry => !entry.temporary) =
      entries false (old ++ s.fetched ++ rest) := by
    rw [hback.table, List.filter_append]
    simp [entries, List.filter_map, Function.comp_def]
  have hbegins : Numbered start (s.fetched ++ rest) := (numbered_append.mp hback.numbered).1
  have hlength := hback.next_le
  rw [List.length_append] at hlength
  push_cast at hlength
  refine ⟨?_, h.buffer_le, h.deleted, ?_, h.found⟩
  · by_cases hnone : s.fetched ++ rest = []
    · -- with nothing to handle, the numbers start again
      obtain ⟨hfetched, hrest⟩ := List.append_eq_nil_iff.mp hnone
      refine ⟨old, [], [], s.nextTxlogs2Id, ?_⟩
      have hempty : fetched s.initLog2 = [] := hfetched
      constructor
      · change s.txlogs2.filter _ = _
        rw [htable, hempty, hfetched, hrest]
        simp [entries]
      · exact hback.old_le
      · have := hback.lt_start
        change s.lastHandledId < s.nextTxlogs2Id
        omega
      · rw [hempty]
        trivial
      · rw [hempty]
        simp [initLog2]
      · intro _
        rw [hempty]
        simp [initLog2]
      · exact fun _ => Or.inl rfl
      · exact hback.last
      · rw [hempty]
        simp
    · refine ⟨old, rest, [], start, ?_⟩
      constructor
      · change s.txlogs2.filter _ = entries false (old ++ s.fetched ++ rest) ++ _
        rw [htable]
        simp [entries]
      · exact hback.old_le
      · exact hback.lt_start
      · rw [List.append_nil]
        exact hbegins
      · rw [List.append_nil]
        change start + ((s.fetched ++ rest).length : Int) ≤ s.nextTxlogs2Id
        omega
      · intro hrunning
        obtain ⟨last, hlast⟩ := List.getLast?_isSome.mpr hnone |> Option.isSome_iff_exists.mp
        have hmem := hbegins.mem (List.mem_of_getLast? hlast)
        have hlastId : (((s.txlogs2.filter fun entry => !entry.temporary).getLast?.map
            fun entry => entry.row.id).getD 0) = last.id := by
          rw [htable, entries, List.append_assoc, List.getLast?_map, List.getLast?_append, hlast]
          rfl
        have hhandled : s.lastHandledId = last.id := by
          by_contra hne
          apply hrunning
          simp only [initLog2, hlastId, if_neg hne]
        have := hback.lt_start
        omega
      · exact fun _ => Or.inl rfl
      · exact hback.last
      · intro row hrow hneeds
        rw [List.append_nil] at hrow
        exact hback.blocks row (List.mem_append_left temps hrow) hneeds
  · intro accept block blockId hpc
    simp only [initLog2] at hpc
    split at hpc <;> cases hpc

/-! ### The parser -/

theorem Backlog.lastTxLog2Id (h : s.Backlog raw old rest temps start) (hidle : s.fetcher = .idle) :
    (∀ row ∈ old ++ s.fetched, row.id ≤ s.lastTxLog2Id) ∧
      s.lastTxLog2Id < start + s.fetched.length := by
  have hnumbered : Numbered start s.fetched :=
    (numbered_append.mp (numbered_append.mp h.numbered).1).1
  have hstart := h.lt_start
  rw [h.last hidle]
  cases hlast : s.fetched.getLast? with
  | none =>
      rw [List.getLast?_eq_none_iff] at hlast
      rw [hlast]
      constructor
      · intro row hrow
        rw [List.append_nil] at hrow
        exact (h.old_le row hrow).1
      · simpa using hstart
  | some last =>
      have hid := hnumbered.getLast hlast
      have hpos : 0 < s.fetched.length := List.length_pos_of_mem (List.mem_of_getLast? hlast)
      simp only [Option.map_some, Option.getD_some]
      constructor
      · intro row hrow
        rcases List.mem_append.mp hrow with hrow | hrow
        · have := (h.old_le row hrow).1
          omega
        · have := hnumbered.mem hrow
          omega
      · omega

theorem Backlog.select (h : s.Backlog raw old rest temps start) (hidle : s.fetcher = .idle)
    {entry : TxLogs2Entry}
    (hfind : (s.txlogs2.find? fun entry =>
      entry.row.id > s.lastTxLog2Id ∧ entry.temporary = false) = some entry) :
    ∃ rest', rest = entry.row :: rest' := by
  obtain ⟨hpast, hbehind⟩ := h.lastTxLog2Id hidle
  have hnone : (entries false (old ++ s.fetched)).find? (fun entry =>
      entry.row.id > s.lastTxLog2Id ∧ entry.temporary = false) = none := by
    rw [List.find?_eq_none]
    intro e he
    obtain ⟨row, hrow, rfl⟩ := List.mem_map.mp he
    have := hpast row hrow
    simp only [decide_eq_true_eq]
    omega
  have htemps : (entries true temps).find? (fun entry =>
      entry.row.id > s.lastTxLog2Id ∧ entry.temporary = false) = none := by
    rw [List.find?_eq_none]
    intro e he
    obtain ⟨row, hrow, rfl⟩ := List.mem_map.mp he
    simp
  rw [h.table, entries, List.map_append, List.append_assoc, List.find?_append] at hfind
  rw [entries] at hnone
  rw [hnone, Option.none_or] at hfind
  cases rest with
  | nil =>
      rw [List.map_nil, List.nil_append, htemps] at hfind
      cases hfind
  | cons row rest =>
      have hrow : row.id = start + s.fetched.length :=
        (numbered_append.mp (numbered_append.mp h.numbered).1).2.1
      rw [List.map_cons, List.cons_append, List.find?_cons_of_pos] at hfind
      · cases hfind
        exact ⟨rest, rfl⟩
      · apply decide_eq_true
        exact ⟨by dsimp only; omega, rfl⟩

theorem Backlog.of_fetched (h : s.Backlog raw old rest temps start)
    (hfetched : s'.fetched = s.fetched) (htable : s'.txlogs2 = s.txlogs2)
    (hid : s'.lastHandledId = s.lastHandledId) (hhandled : s'.handled = s.handled)
    (hnext : s'.nextTxlogs2Id = s.nextTxlogs2Id) (hproducer : s'.producer = s.producer)
    (hblocks : s'.rawBlocks = s.rawBlocks)
    (hlast : s'.fetcher = .idle →
      s'.lastTxLog2Id = (s.fetched.getLast?.map TxLog2Row.id).getD s.lastHandledId) :
    s'.Backlog raw old rest temps start := by
  constructor
  · rw [htable, hfetched]
    exact h.table
  · rw [hid, hhandled]
    exact h.old_le
  · rw [hid]
    exact h.lt_start
  · rw [hfetched]
    exact h.numbered
  · rw [hfetched, hnext]
    exact h.next_le
  · rw [hfetched, hnext, hproducer]
    exact h.next_eq
  · rw [hproducer]
    exact h.temps_nil
  · rw [hfetched, hid]
    exact hlast
  · rw [hfetched]
    intro row hrow hneeds
    obtain ⟨block, hblock⟩ := h.blocks row hrow hneeds
    exact ⟨block, hblocks ▸ hblock⟩

theorem inv_selectRow (h : s.Inv raw) (hidle : s.fetcher = .idle) {entry : TxLogs2Entry}
    (hfind : (s.txlogs2.find? fun entry =>
      entry.row.id > s.lastTxLog2Id ∧ entry.temporary = false) = some entry)
    {fetcher : FetchPc}
    (hfetcher : fetcher = .deletingRows entry.row ∨ fetcher = .pushing entry.row) :
    Inv raw { s with fetcher := fetcher } := by
  obtain ⟨old, rest, temps, start, hback⟩ := h.backlog
  obtain ⟨rest', rfl⟩ := hback.select hidle hfind
  have hfetched : fetched { s with fetcher := fetcher } = s.fetched ++ [entry.row] := by
    rcases hfetcher with rfl | rfl <;> simp [fetched, hidle]
  have hlist : ∀ xs : List TxLog2Row, s.fetched ++ [entry.row] ++ rest' ++ xs =
      s.fetched ++ entry.row :: rest' ++ xs := by simp
  refine ⟨⟨old, rest', temps, start, ?_⟩, h.buffer_le, h.deleted, h.haveBlock, h.found⟩
  constructor
  · rw [hfetched]
    change s.txlogs2 = _
    rw [hback.table]
    simp [entries]
  · exact hback.old_le
  · exact hback.lt_start
  · rw [hfetched, hlist]
    exact hback.numbered
  · rw [hfetched, hlist]
    exact hback.next_le
  · rw [hfetched, hlist]
    exact hback.next_eq
  · exact hback.temps_nil
  · intro hnot
    change fetcher = .idle at hnot
    rcases hfetcher with rfl | rfl <;> cases hnot
  · rw [hfetched, hlist]
    exact hback.blocks

theorem fetched_length (h : s.buffer.length ≤ 200) : s.fetched.length ≤ 202 := by
  have hhandler : (match s.handler with
      | .handling row => [row]
      | .idle | .failed => ([] : List TxLog2Row)).length ≤ 1 := by
    cases s.handler <;> simp
  have hfetcher : (match s.fetcher with
      | .deletingRows row | .deletingBlocks row | .pushing row => [row]
      | .idle => ([] : List TxLog2Row)).length ≤ 1 := by
    cases s.fetcher <;> simp
  rw [fetched, List.length_append, List.length_append]
  omega

theorem inv_deleteRows (h : s.Inv raw) {row : TxLog2Row}
    (hfetcher : s.fetcher = .deletingRows row) : (s.deleteRows row).Inv raw := by
  obtain ⟨old, rest, temps, start, hback⟩ := h.backlog
  have hsame : fetched (s.deleteRows row) = s.fetched := by
    simp [fetched, LagState.deleteRows, hfetcher]
  have hmem : row ∈ s.fetched := by simp [fetched, hfetcher]
  have hrow := ((numbered_append.mp (numbered_append.mp hback.numbered).1).1).mem hmem
  have hlength := fetched_length h.buffer_le
  -- the fetched rows span less than the rows that are kept
  have hkeep : ∀ r ∈ s.fetched ++ rest ++ temps, ¬r.id < row.id - kKeepNum := by
    intro r hr
    have := hback.numbered.mem hr
    rw [kKeepNum]
    omega
  have hkept : ∀ temporary, ∀ rows : List TxLog2Row, (∀ r ∈ rows, ¬r.id < row.id - kKeepNum) →
      (entries temporary rows).filter (fun entry => ¬entry.row.id < row.id - kKeepNum) =
        entries temporary rows ∧
      (entries temporary rows).filter (fun entry => entry.row.id < row.id - kKeepNum) = [] := by
    intro temporary rows hrows
    simpa [entries, List.filter_eq_self, List.filter_eq_nil_iff] using hrows
  have hnew : ∀ r ∈ s.fetched ++ rest, ¬r.id < row.id - kKeepNum :=
    fun r hr => hkeep r (List.mem_append_left temps hr)
  have htable : s.txlogs2 = entries false old ++ (entries false (s.fetched ++ rest) ++
      entries true temps) := by
    rw [hback.table]
    simp [entries]
  refine ⟨⟨old.filter fun r => ¬r.id < row.id - kKeepNum, rest, temps, start, ?_⟩,
    h.buffer_le, ?_, h.haveBlock, h.found⟩
  · constructor
    · rw [hsame]
      change s.txlogs2.filter _ = _
      rw [htable, List.filter_append, List.filter_append, (hkept false _ hnew).1,
        (hkept true temps fun r hr => hkeep r (List.mem_append_right _ hr)).1]
      simp [entries, List.filter_map, Function.comp_def]
    · intro r hr
      exact hback.old_le r (List.mem_of_mem_filter hr)
    · exact hback.lt_start
    · rw [hsame]
      exact hback.numbered
    · rw [hsame]
      exact hback.next_le
    · rw [hsame]
      exact hback.next_eq
    · exact hback.temps_nil
    · intro hnot
      cases hnot
    · rw [hsame]
      exact hback.blocks
  · intro r hr
    rcases List.mem_append.mp hr with hr | hr
    · exact h.deleted r hr
    · rw [htable, List.filter_append, List.filter_append, (hkept false _ hnew).2,
        (hkept true temps fun r hr => hkeep r (List.mem_append_right _ hr)).2] at hr
      simp only [List.append_nil, List.mem_map, List.mem_filter, entries] at hr
      obtain ⟨e, ⟨⟨r', hr', rfl⟩, -⟩, rfl⟩ := hr
      exact (hback.old_le r' hr').2

/-- What the parser or the producer still needs a raw block for. -/
def Needed (raw : RawTxs) (s : LagState) (blockId : Int) : Prop :=
  (∃ entry ∈ s.txlogs2, s.lastHandledId < entry.row.id ∧ needsBlock raw entry.row ∧
    entry.row.blkId = blockId) ∨
  ∃ accept block, s.producer = .haveBlock accept block blockId

/-- At most 4320 raw blocks are newer than one that is still needed. -/
def LagFits (raw : RawTxs) (s : LagState) : Prop :=
  ∀ blockId, s.Needed raw blockId → s.maxRawBlockId ≤ blockId + 4320

theorem Backlog.needed (h : s.Backlog raw old rest temps start) {row : TxLog2Row}
    (hrow : row ∈ s.fetched ++ rest ++ temps) (hneeds : needsBlock raw row) :
    s.Needed raw row.blkId := by
  have hid := h.numbered.mem hrow
  have hstart := h.lt_start
  have hentry : ∃ temporary, (⟨row, temporary⟩ : TxLogs2Entry) ∈ s.txlogs2 := by
    rw [h.table]
    rcases List.mem_append.mp hrow with hrow | hrow
    · refine ⟨false, List.mem_append_left _ (List.mem_map.mpr ⟨row, ?_, rfl⟩)⟩
      rw [List.append_assoc]
      exact List.mem_append_right old hrow
    · exact ⟨true, List.mem_append_right _ (List.mem_map.mpr ⟨row, hrow, rfl⟩)⟩
  obtain ⟨temporary, hmem⟩ := hentry
  exact Or.inl ⟨_, hmem, by dsimp only; omega, hneeds, rfl⟩

theorem inv_deleteBlocks (h : s.Inv raw) (hlag : s.LagFits raw) {row : TxLog2Row}
    (hfetcher : s.fetcher = .deletingBlocks row) : (s.deleteBlocks row).Inv raw := by
  obtain ⟨old, rest, temps, start, hback⟩ := h.backlog
  have hsame : fetched (s.deleteBlocks row) = s.fetched := by
    simp [fetched, LagState.deleteBlocks, hfetcher]
  have hkeep : ∀ blockId, s.Needed raw blockId → s.HasBlock blockId →
      HasBlock (s.deleteBlocks row) blockId := by
    rintro blockId hneeded ⟨block, hblock⟩
    have := hlag blockId hneeded
    refine ⟨block, List.mem_filter.mpr ⟨hblock, ?_⟩⟩
    simp only [decide_eq_true_eq]
    omega
  refine ⟨⟨old, rest, temps, start, ?_⟩, h.buffer_le, h.deleted, ?_, h.found⟩
  · constructor
    · rw [hsame]
      exact hback.table
    · exact hback.old_le
    · exact hback.lt_start
    · rw [hsame]
      exact hback.numbered
    · rw [hsame]
      exact hback.next_le
    · rw [hsame]
      exact hback.next_eq
    · exact hback.temps_nil
    · intro hnot
      cases hnot
    · rw [hsame]
      intro r hr hneeds
      exact hkeep _ (hback.needed hr hneeds) (hback.blocks r hr hneeds)
  · intro accept block blockId hpc
    exact hkeep _ (Or.inr ⟨accept, block, hpc⟩) (h.haveBlock accept block blockId hpc)

theorem inv_pushFront (h : s.Inv raw) {row : TxLog2Row} (hfetcher : s.fetcher = .pushing row)
    (hroom : s.buffer.length < 200) :
    Inv raw { s with
      buffer := s.buffer ++ [row]
      lastTxLog2Id := row.id
      fetcher := .idle } := by
  obtain ⟨old, rest, temps, start, hback⟩ := h.backlog
  refine ⟨⟨old, rest, temps, start, ?_⟩, ?_, h.deleted, h.haveBlock, h.found⟩
  · refine hback.of_fetched ?_ rfl rfl rfl rfl rfl rfl ?_
    · simp [fetched, hfetcher]
    · intro _
      simp [fetched, hfetcher]
  · simp only [List.length_append, List.length_singleton]
    omega

theorem inv_popBack (h : s.Inv raw) (hidle : s.handler = .idle) {row : TxLog2Row}
    {buffer : List TxLog2Row} (hbuffer : s.buffer = row :: buffer) :
    Inv raw { s with handler := .handling row, buffer := buffer } := by
  obtain ⟨old, rest, temps, start, hback⟩ := h.backlog
  have hle := h.buffer_le
  rw [hbuffer, List.length_cons] at hle
  refine ⟨⟨old, rest, temps, start, ?_⟩, by dsimp only; omega, h.deleted, h.haveBlock,
    by simp⟩
  refine hback.of_fetched ?_ rfl rfl rfl rfl rfl rfl hback.last
  simp [fetched, hidle, hbuffer]

theorem inv_handle (h : s.Inv raw) {row : TxLog2Row} (hhandler : s.handler = .handling row) :
    (s.handle raw row).Inv raw := by
  obtain ⟨old, rest, temps, start, hback⟩ := h.backlog
  have hfetched : s.fetched = row :: (s.buffer ++ (match s.fetcher with
      | .deletingRows row | .deletingBlocks row | .pushing row => [row]
      | .idle => [])) := by
    simp [fetched, hhandler]
  have hfound : ¬(needsBlock raw row ∧ s.blockById row.blkId = none) := by
    rintro ⟨hneeds, hnone⟩
    obtain ⟨block, hblock⟩ := hback.blocks row (by simp [hfetched]) hneeds
    rw [blockById, Option.map_eq_none_iff, List.find?_eq_none] at hnone
    exact hnone _ hblock (by simp)
  rw [handle, if_neg hfound]
  have hnew : fetched { s with
      handler := .idle
      lastHandledId := row.id
      handled := s.handled ++ [row] } = s.buffer ++ (match s.fetcher with
      | .deletingRows row | .deletingBlocks row | .pushing row => [row]
      | .idle => []) := by
    simp [fetched]
  generalize (s.buffer ++ (match s.fetcher with
      | .deletingRows row | .deletingBlocks row | .pushing row => [row]
      | .idle => [])) = tail at hfetched hnew
  have hnumbered := hback.numbered
  have hnext := hback.next_le
  have heq := hback.next_eq
  rw [hfetched] at hnumbered hnext heq
  simp only [List.cons_append, List.length_cons] at hnext heq
  push_cast at hnext heq
  refine ⟨⟨old ++ [row], rest, temps, start + 1, ?_⟩, h.buffer_le, ?_, h.haveBlock, by simp⟩
  · constructor
    · rw [hnew]
      change s.txlogs2 = _
      rw [hback.table, hfetched]
      simp
    · intro r hr
      rcases List.mem_append.mp hr with hr | hr
      · obtain ⟨hle, hmem⟩ := hback.old_le r hr
        have := hback.lt_start
        have := hnumbered.1
        exact ⟨by dsimp only; omega, List.mem_append_left _ hmem⟩
      · rw [List.mem_singleton] at hr
        subst hr
        exact ⟨le_refl _, List.mem_append_right _ (by simp)⟩
    · have := hnumbered.1
      dsimp only
      omega
    · rw [hnew]
      exact hnumbered.2
    · rw [hnew]
      dsimp only
      omega
    · intro hrunning
      rw [hnew]
      have := heq hrunning
      dsimp only
      omega
    · exact hback.temps_nil
    · intro hidle
      have hlast := hback.last hidle
      rw [hnew]
      rw [hfetched] at hlast
      cases tail with
      | nil => exact hlast
      | cons head tail =>
          rw [List.getLast?_cons_cons,
            List.getLast?_eq_some_getLast (List.cons_ne_nil head tail)] at hlast
          rw [List.getLast?_eq_some_getLast (List.cons_ne_nil head tail)]
          exact hlast
    · rw [hnew]
      intro r hr hneeds
      apply hback.blocks r _ hneeds
      rw [hfetched]
      exact List.mem_cons_of_mem _ hr
  · intro r hr
    exact List.mem_append_left _ (h.deleted r hr)

theorem inv_restart (h : s.Inv raw) :
    Inv raw { s with
      fetcher := .idle
      lastTxLog2Id := s.lastHandledId
      buffer := []
      handler := .idle } := by
  obtain ⟨old, rest, temps, start, hback⟩ := h.backlog
  have hnew : fetched { s with
      fetcher := .idle
      lastTxLog2Id := s.lastHandledId
      buffer := []
      handler := .idle } = [] := by
    simp [fetched]
  refine ⟨⟨old, s.fetched ++ rest, temps, start, ?_⟩, Nat.zero_le _, h.deleted, h.haveBlock,
    by simp⟩
  constructor
  · rw [hnew]
    change s.txlogs2 = _
    rw [hback.table]
    simp
  · exact hback.old_le
  · exact hback.lt_start
  · rw [hnew]
    exact hback.numbered
  · rw [hnew]
    exact hback.next_le
  · rw [hnew]
    exact hback.next_eq
  · exact hback.temps_nil
  · intro _
    rw [hnew]
    rfl
  · rw [hnew]
    exact hback.blocks

/-! ### Runs -/

theorem inv_step {a : LagAction} (h : s.Inv raw) (hlag : a = .deleteBlocks → s.LagFits raw)
    (hstep : s.step raw a = some s') : s'.Inv raw := by
  cases a with
  | handleTxAccept maxTimestamp hash =>
      obtain ⟨hidle, rfl⟩ := Option.ite_some_none_eq_some.mp hstep
      apply inv_insertRows h (by simp [hidle]) (by simp [hidle]) false
        [acceptRow maxTimestamp hash] s.producer
      · intro new hnew id
        rw [List.mem_singleton.mp hnew]
        simp [acceptRow, needsBlock]
      · simp
      · simp [hidle]
  | removeTxs hashes =>
      obtain ⟨⟨hidle, hhashes⟩, rfl⟩ := Option.ite_some_none_eq_some.mp hstep
      apply inv_insertRows h (by simp [hidle]) (by simp [hidle]) true
      · intro new hnew id
        obtain ⟨hash, hhash, rfl⟩ := List.mem_map.mp hnew
        simp [rejectRow, needsBlock, hhashes hash hhash]
      · exact fun _ => ⟨_, rfl⟩
      · intro accept block blockId hpc
        cases hpc
  | insertRawBlock accept block =>
      obtain ⟨hidle, rfl⟩ := Option.ite_some_none_eq_some.mp hstep
      exact inv_insertRawBlock h hidle accept block
  | insertBlockRows conflictTxs alreadyInMemTxHashs maxTimestamp =>
      cases hproducer : s.producer with
      | haveBlock accept block blockId =>
          simp only [step, hproducer] at hstep
          obtain ⟨hconflict, rfl⟩ := Option.ite_some_none_eq_some.mp hstep
          have hblock := h.haveBlock accept block blockId hproducer
          apply inv_insertRows h (by simp [hproducer]) (by simp [hproducer]) true
          · intro new hnew id
            have hrow : RowOf raw blockId new := by
              split at hnew
              · exact rowOf_blockAcceptRows hconflict hnew
              · exact rowOf_blockRollbackRows hnew
            refine ⟨(hrow id).1, fun hneeds => ?_⟩
            rw [(hrow id).2 hneeds]
            exact hblock
          · exact fun _ => ⟨_, rfl⟩
          · intro accept' block' blockId' hpc
            cases hpc
      | stopped | idle | staged => simp [step, hproducer] at hstep
  | commitBatch =>
      cases hproducer : s.producer with
      | staged n =>
          simp only [step, hproducer, Option.some.injEq] at hstep
          subst hstep
          exact inv_commitBatch h hproducer
      | stopped | idle | haveBlock => simp [step, hproducer] at hstep
  | initLog2 =>
      cases hstep
      exact inv_initLog2 h
  | selectRow =>
      cases hfetcher : s.fetcher with
      | idle =>
          simp only [step, hfetcher] at hstep
          split at hstep
          · rename_i entry _ hfind
            cases hstep
            apply inv_selectRow h hfetcher hfind
            split
            · exact Or.inl rfl
            · exact Or.inr rfl
          · cases hstep
      | deletingRows | deletingBlocks | pushing => simp [step, hfetcher] at hstep
  | deleteRows =>
      cases hfetcher : s.fetcher with
      | deletingRows row =>
          simp only [step, hfetcher, Option.some.injEq] at hstep
          subst hstep
          exact inv_deleteRows h hfetcher
      | idle | deletingBlocks | pushing => simp [step, hfetcher] at hstep
  | deleteBlocks =>
      cases hfetcher : s.fetcher with
      | deletingBlocks row =>
          simp only [step, hfetcher, Option.some.injEq] at hstep
          subst hstep
          exact inv_deleteBlocks h (hlag rfl) hfetcher
      | idle | deletingRows | pushing => simp [step, hfetcher] at hstep
  | pushFront =>
      cases hfetcher : s.fetcher with
      | pushing row =>
          simp only [step, hfetcher] at hstep
          obtain ⟨hroom, rfl⟩ := Option.ite_some_none_eq_some.mp hstep
          exact inv_pushFront h hfetcher hroom
      | idle | deletingRows | deletingBlocks => simp [step, hfetcher] at hstep
  | popBack =>
      cases hhandler : s.handler with
      | idle =>
          cases hbuffer : s.buffer with
          | nil => simp [step, hhandler, hbuffer] at hstep
          | cons row buffer =>
              simp only [step, hhandler, hbuffer, Option.some.injEq] at hstep
              subst hstep
              exact inv_popBack h hhandler hbuffer
      | handling | failed => simp [step, hhandler] at hstep
  | handle =>
      cases hhandler : s.handler with
      | handling row =>
          simp only [step, hhandler, Option.some.injEq] at hstep
          subst hstep
          exact inv_handle h hhandler
      | idle | failed => simp [step, hhandler] at hstep
  | restart =>
      cases hstep
      exact inv_restart h

/-- Every cleanup of the schedule runs in a state in which the lag fits. -/
def LagAlwaysFits (raw : RawTxs) (schedule : List LagAction) : Prop :=
  ∀ before s, before ++ [.deleteBlocks] <+: schedule → run raw before = some s → s.LagFits raw

theorem run_inv {schedule : List LagAction} (hrun : run raw schedule = some s)
    (hlag : LagAlwaysFits raw schedule) : s.Inv raw := by
  refine runs_inv (fun schedule s => LagAlwaysFits raw schedule → s.Inv raw)
    (fun _ => inv_initial) ?_ hrun hlag
  intro as a t t' hruns ih hstep hfits
  have hbefore : LagAlwaysFits raw as := fun before u hbegins =>
    hfits before u (hbegins.trans (List.prefix_append _ _))
  apply inv_step (ih hbefore) _ hstep
  rintro rfl
  exact hfits as t (List.prefix_refl _) hruns

end LagState

/-! ## Safety of the cleanup -/

/-- The rows deleted have been handled, the blocks still needed are kept and found. -/
structure RetentionSafe (raw : RawTxs) (s : LagState) : Prop where
  rows : ∀ row ∈ s.deletedRows, row ∈ s.handled
  blocks : ∀ entry ∈ s.txlogs2, s.lastHandledId < entry.row.id → needsBlock raw entry.row →
    ∃ block, s.blockById entry.row.blkId = some block
  found : s.handler ≠ .failed

theorem LagState.HasBlock.blockById {s : LagState} {blockId : Int} (h : s.HasBlock blockId) :
    ∃ block, s.blockById blockId = some block := by
  obtain ⟨block, hblock⟩ := h
  have hfind : (s.rawBlocks.find? fun entry => entry.1 = blockId).isSome :=
    List.find?_isSome.mpr ⟨_, hblock, by simp⟩
  obtain ⟨entry, hentry⟩ := Option.isSome_iff_exists.mp hfind
  exact ⟨entry.2, by rw [LagState.blockById, hentry]; rfl⟩

/-- The cleanup is safe in every run in which the lag fits at each cleanup. -/
theorem retention_safe_of_lag (raw : RawTxs) (schedule : List LagAction) (s : LagState)
    (hrun : LagState.run raw schedule = some s)
    (hlag : LagState.LagAlwaysFits raw schedule) : RetentionSafe raw s := by
  have hinv := LagState.run_inv hrun hlag
  obtain ⟨old, rest, temps, start, hback⟩ := hinv.backlog
  refine ⟨hinv.deleted, ?_, hinv.found⟩
  intro entry hentry hid hneeds
  apply LagState.HasBlock.blockById
  have hrow : entry.row ∈ s.fetched ++ rest ++ temps := by
    rw [hback.table, List.mem_append] at hentry
    rcases hentry with hentry | hentry
    · obtain ⟨row, hrow, rfl⟩ := List.mem_map.mp hentry
      rw [List.append_assoc, List.mem_append] at hrow
      rcases hrow with hrow | hrow
      · have := (hback.old_le row hrow).1
        dsimp only at hid
        omega
      · exact List.mem_append_left _ hrow
    · obtain ⟨row, hrow, rfl⟩ := List.mem_map.mp hentry
      exact List.mem_append_right _ hrow
  exact hback.blocks entry.row hrow hneeds

end ExplorerKV.Parser

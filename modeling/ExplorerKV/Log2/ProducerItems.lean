import ExplorerKV.Foundation.Exec
import ExplorerKV.Log2.ProducerTables
import ExplorerKV.Parser.RetentionSafety

/-!
# The statements of an item

`Staged` is what the statements before a commit do: the tables keep the view and
the committed rows.  `Committed` is what a commit does: the tables go to the next
view with the rows of the item.
-/

namespace ExplorerKV.Log2

open Bitcoin Foundation ExplorerKV.Parser
open Logs (Log1)

variable {raw : RawTxs} {blocks : Uint256 → RawBlock} {start : BeginBlock} {v v' : NodeView}
  {s s' s'' : Log2Producer} {rows rows' : List NewRow} {hash : Uint256} {block : RawBlock}

/-! ## Statements -/

/-- The tables hold the same view, by the same committed rows. -/
structure Keeps (raw : RawTxs) (blocks : Uint256 → RawBlock) (v : NodeView)
    (db db' : Log2Tables) : Prop where
  holds : db'.Holds raw blocks v
  committed : db'.committed = db.committed
  offset : db'.offset = db.offset

structure Staged (raw : RawTxs) (blocks : Uint256 → RawBlock) (v : NodeView)
    (rows : List NewRow) (s s' : Log2Producer) : Prop where
  same : s' = { s with db := s'.db, statements := s'.statements }
  keeps : Keeps raw blocks v s.db s'.db
  rawTxs : s.db.rawTxs ⊆ s'.db.rawTxs
  rawBlocks : s.db.rawBlocks ⊆ s'.db.rawBlocks
  txlogs2 : s'.db.txlogs2 = s.db.txlogs2 ++
    (numberRows s.db.nextTxlogs2Id rows).map fun row => ⟨row, true⟩
  nextTxlogs2Id : s'.db.nextTxlogs2Id = s.db.nextTxlogs2Id + rows.length
  statements : ∀ db ∈ s'.statements, db ∈ s.statements ∨ Keeps raw blocks v s.db db

theorem Keeps.trans {db db' db'' : Log2Tables} (h : Keeps raw blocks v db db')
    (h' : Keeps raw blocks v db' db'') : Keeps raw blocks v db db'' :=
  ⟨h'.holds, h'.committed.trans h.committed, h'.offset.trans h.offset⟩

theorem Staged.holds (h : Staged raw blocks v rows s s') : s'.db.Holds raw blocks v := h.keeps.holds

theorem Staged.refl (h : s.db.Holds raw blocks v) : Staged raw blocks v [] s s where
  same := rfl
  keeps := ⟨h, rfl, rfl⟩
  rawTxs := Finset.Subset.refl _
  rawBlocks := List.Subset.refl _
  txlogs2 := by simp [numberRows]
  nextTxlogs2Id := by simp
  statements _ hdb := .inl hdb

theorem Staged.trans (h : Staged raw blocks v rows s s') (h' : Staged raw blocks v rows' s' s'') :
    Staged raw blocks v (rows ++ rows') s s'' where
  same := by
    rw [h'.same, h.same]
  keeps := h.keeps.trans h'.keeps
  rawTxs := Finset.Subset.trans h.rawTxs h'.rawTxs
  rawBlocks := List.Subset.trans h.rawBlocks h'.rawBlocks
  txlogs2 := by
    rw [h'.txlogs2, h.txlogs2, h.nextTxlogs2Id, numberRows_append, List.map_append,
      List.append_assoc]
  nextTxlogs2Id := by
    rw [h'.nextTxlogs2Id, h.nextTxlogs2Id, List.length_append]
    push_cast
    omega
  statements db hdb := by
    rcases h'.statements db hdb with hold | hnew
    · exact h.statements db hold
    · exact .inr (h.keeps.trans hnew)

theorem Staged.settled (h : Staged raw blocks v [] s s') (hsettled : s.db.Settled) :
    s'.db.Settled := by
  rw [Log2Tables.Settled, h.txlogs2, numberRows, List.map_nil, List.append_nil]
  exact hsettled

theorem insertRawTx_spec (h : s.db.Holds raw blocks v) (hash : Uint256) :
    wp (insertRawTx hash) (fun _ s' => Staged raw blocks v [] s s' ∧ hash ∈ s'.db.rawTxs)
      (fun _ => False) s := by
  simp only [insertRawTx, wp_bind, wp_get]
  refine wp_ite (fun hmem => ?_) fun _ => ?_
  · exact ⟨.refl h, hmem⟩
  · have hnew := h.insertRawTx hash
    refine ⟨⟨rfl, ⟨hnew, rfl, rfl⟩, Finset.subset_insert _ _, List.Subset.refl _,
      by simp [numberRows], by simp, fun db hdb => ?_⟩, Finset.mem_insert_self _ _⟩
    rcases List.mem_cons.mp hdb with rfl | hold
    · exact .inr ⟨hnew, rfl, rfl⟩
    · exact .inl hold

theorem insertRawTxs_spec (h : s.db.Holds raw blocks v) (hashes : List Uint256) :
    wp (forM hashes insertRawTx)
      (fun _ s' => Staged raw blocks v [] s s' ∧ ∀ hash ∈ hashes, hash ∈ s'.db.rawTxs)
      (fun _ => False) s := by
  refine wp_forM (fun done s' => Staged raw blocks v [] s s' ∧ ∀ hash ∈ done, hash ∈ s'.db.rawTxs)
    ⟨.refl h, by simp⟩ fun done hash rest s₁ _ hI => ?_
  refine wp_mono (insertRawTx_spec hI.1.holds hash) (fun _ s₂ h₂ => ?_) fun _ he => he
  refine ⟨hI.1.trans h₂.1, fun x hx => ?_⟩
  rcases List.mem_append.mp hx with hold | hlast
  · exact h₂.1.rawTxs (hI.2 x hold)
  · exact List.mem_singleton.mp hlast ▸ h₂.2

theorem insertRawBlock_spec (h : s.db.Holds raw blocks v)
    (hnamed : blocks block.blockHash = block) :
    wp (insertRawBlock block)
      (fun id s' => Staged raw blocks v [] s s' ∧ (id, block) ∈ s'.db.rawBlocks)
      (fun _ => False) s := by
  simp only [insertRawBlock, wp_bind, wp_get]
  cases hfind : s.db.rawBlocks.find? fun entry => entry.2.blockHash = block.blockHash with
  | some entry =>
      have hmem := List.mem_of_find?_eq_some hfind
      have hhash : entry.2.blockHash = block.blockHash := by
        simpa using List.find?_some hfind
      have hentry : entry.2 = block := by
        rw [← h.named entry hmem, hhash, hnamed]
      refine wp_ite (fun _ => ⟨.refl h, ?_⟩) fun hne => absurd (by rw [hentry]) hne
      rw [← hentry]
      exact hmem
  | none =>
      have hnew := h.insertRawBlock hnamed fun entry hentry heq => by
        have hnone := List.find?_eq_none.mp hfind entry hentry
        simp [heq] at hnone
      refine ⟨⟨rfl, ⟨hnew, rfl, rfl⟩, Finset.Subset.refl _, List.subset_append_left _ _,
        by simp [numberRows], by simp, fun db hdb => ?_⟩, by simp⟩
      rcases List.mem_cons.mp hdb with rfl | hold
      · exact .inr ⟨hnew, rfl, rfl⟩
      · exact .inl hold

theorem multiInsert_spec (h : s.db.Holds raw blocks v)
    (hids : ∀ row ∈ rows, ∀ id, (row id).id = id) :
    wp (multiInsert rows) (fun _ s' => Staged raw blocks v rows s s') (fun _ => False) s := by
  refine wp_forM (fun done s' => Staged raw blocks v done s s') (.refl h)
    fun done row rest s₁ hrows hI => ?_
  have hnew := hI.holds.insertRow (hids row (by simp [hrows]))
  have hkeeps : Keeps raw blocks v s₁.db (s₁.db.insertRow true row) := by
    refine ⟨hnew, ?_, rfl⟩
    rw [Log2Tables.committed_insertRow, if_pos rfl, List.append_nil]
  refine hI.trans ⟨rfl, hkeeps, Finset.Subset.refl _, List.Subset.refl _, rfl, rfl,
    fun db hdb => ?_⟩
  rcases List.mem_cons.mp hdb with rfl | hold
  · exact .inr hkeeps
  · exact .inl hold

/-! ## Commits -/

def MemTxRepository.told (m : MemTxRepository) : MemTxRepository :=
  { m with unSyncTxsInsert := ∅, unSyncTxsDelete := ∅ }

theorem MemTxRepository.RepoOf.told {m : MemTxRepository} {pool : Set Uint256}
    (h : RepoOf raw m pool) : RepoOf raw m.told pool :=
  ⟨⟨h.wellKept.keyed, h.wellKept.exact_spenders, h.wellKept.acyclic, h.wellKept.distinct⟩, h.txs⟩

structure Committed (raw : RawTxs) (blocks : Uint256 → RawBlock) (v v' : NodeView)
    (rows : List NewRow) (s s' : Log2Producer) : Prop where
  same : s' = { s with memRepo := s.memRepo.told, db := s'.db, statements := s'.statements }
  holds : s'.db.Holds raw blocks v'
  settled : s'.db.Settled
  committed : ∃ id, s'.db.committed = s.db.committed ++ numberRows id rows
  offset : s'.db.offset = s.currLog1FileOffset
  statements : ∀ db ∈ s'.statements, db = s'.db ∨ db ∈ s.statements ∨ Keeps raw blocks v s.db db

theorem Committed.of_staged (h : Staged raw blocks v rows' s s')
    (h' : Committed raw blocks v v' rows s' s'') : Committed raw blocks v v' rows s s'' where
  same := by
    rw [h'.same, h.same]
  holds := h'.holds
  settled := h'.settled
  committed := by
    rw [← h.keeps.committed]
    exact h'.committed
  offset := by
    rw [h'.offset, h.same]
  statements db hdb := by
    rcases h'.statements db hdb with hlast | hold | hnew
    · exact .inl hlast
    · exact .inr (h.statements db hold)
    · exact .inr (.inr (h.keeps.trans hnew))

theorem commit_spec (h : s.db.Holds raw blocks v) (hsynced : s.memRepo.Synced v.pool)
    (update : Log2Tables → Log2Tables) :
    wp (commit update) (fun _ s' => ∃ memrepoTxs : List Uint256, memrepoTxs.Nodup ∧
        (∀ hash, hash ∈ memrepoTxs ↔ s.memRepo.isExist hash) ∧
        s'.db = { update s.db with
          memrepoTxs := memrepoTxs
          offset := s.currLog1FileOffset } ∧
        s' = { s with
          memRepo := s.memRepo.told
          db := s'.db
          statements := s'.db :: s.statements }) (fun _ => False) s := by
  obtain ⟨memrepoTxs, hsync, hnodup, hiff⟩ := hsynced.syncToDB h.memrepo_nodup h.memrepo_iff
  simp only [commit, wp_bind, wp_get, hsync]
  exact ⟨memrepoTxs, hnodup, hiff, rfl, rfl⟩

theorem batch_spec (h : s.db.Holds raw blocks v) (hsettled : s.db.Settled)
    (hsynced : s.memRepo.Synced v.pool) (hids : ∀ row ∈ rows, ∀ id, (row id).id = id)
    (hfetchable : ∀ row ∈ rows, ∀ id, s.db.Fetchable raw (row id))
    (hrows : Leads raw v.confirmed v.pool rows v'.confirmed v'.pool)
    (hrepo : MemTxRepository.RepoOf raw s.memRepo v'.pool) (hearlier : v'.earlier = v.earlier)
    (hchain : ∀ block ∈ v'.chain, ∃ id, (id, block) ∈ s.db.rawBlocks) :
    wp (do multiInsert rows; commitBatch rows.length)
      (fun _ s' => Committed raw blocks v v' rows s s') (fun _ => False) s := by
  refine wp_seq (multiInsert_spec h hids) fun _ s₁ hstaged => ?_
  have hmem : s₁.memRepo = s.memRepo := by rw [hstaged.same]
  have hcount : (s₁.db.txlogs2.filter fun entry => entry.temporary).length = rows.length := by
    rw [hstaged.txlogs2, List.filter_append, List.filter_eq_nil_iff.mpr fun e he => by
      simp [hsettled e he], List.nil_append, List.filter_eq_self.mpr fun e he => by
        obtain ⟨row, -, rfl⟩ := List.mem_map.mp he
        rfl, List.length_map, length_numberRows]
  simp only [commitBatch, wp_bind, wp_get]
  refine wp_ite (fun hne => absurd hcount hne.2) fun _ => ?_
  refine wp_mono (commit_spec hstaged.holds (hmem ▸ hsynced) Log2Tables.setBatchId)
    (fun _ s₂ hcommit => ?_) fun _ he => he
  obtain ⟨memrepoTxs, hnodup, hiff, hdb, hsame⟩ := hcommit
  have htxlogs2 : s₂.db.txlogs2 =
      s₁.db.txlogs2.map fun entry => { entry with temporary := false } := by rw [hdb]; rfl
  have hsettled₂ : s₂.db.Settled := by
    rw [Log2Tables.Settled, htxlogs2]
    intro entry hentry
    obtain ⟨old, -, rfl⟩ := List.mem_map.mp hentry
    rfl
  have hcommitted : s₂.db.committed = s₁.db.committed ++ numberRows s.db.nextTxlogs2Id rows := by
    rw [hstaged.keeps.committed, Log2Tables.committed, List.filter_eq_self.mpr fun e he => by
      simp [hsettled₂ e he],
      htxlogs2, hstaged.txlogs2, Log2Tables.committed,
      List.filter_eq_self.mpr fun e he => by simp [hsettled e he]]
    simp [Function.comp_def]
  have hrow : ∀ row ∈ numberRows s.db.nextTxlogs2Id rows, s₁.db.Fetchable raw row :=
    fun row hrow => by
      obtain ⟨new, hnew, id, rfl⟩ := mem_numberRows hrow
      exact (hfetchable new hnew id).mono hstaged.rawTxs hstaged.rawBlocks
  have hnext : s₂.db.nextTxlogs2Id = s₁.db.nextTxlogs2Id := by rw [hdb]; rfl
  have hholds : s₂.db.Holds raw blocks v' := by
    refine hstaged.holds.commit hearlier hrows (fun entry hentry => ?_)
      (hnext ▸ hstaged.holds.nextId_pos) ?_ hcommitted hrow (by rw [hdb]; rfl) (by rw [hdb]; rfl)
      (by rw [hdb]; rfl) (fun block hblock => ?_) (by rw [hdb]; exact hnodup) fun hash => ?_
    · rw [htxlogs2] at hentry
      obtain ⟨old, hold, rfl⟩ := List.mem_map.mp hentry
      rw [hnext]
      exact hstaged.holds.ids_lt old hold
    · rw [htxlogs2]
      exact List.pairwise_map.mpr hstaged.holds.ids
    · obtain ⟨id, hid⟩ := hchain block hblock
      exact ⟨id, hstaged.rawBlocks hid⟩
    · rw [hdb]
      exact (hiff hash).trans (hmem ▸ hrepo.isExist_iff)
  refine .of_staged hstaged ⟨?_, hholds, hsettled₂, ⟨_, hcommitted⟩, by rw [hdb],
    fun db hin => ?_⟩
  · rw [hsame]
  · rw [hsame] at hin
    rcases List.mem_cons.mp hin with hlast | hold
    · exact .inl hlast
    · exact .inr (.inl hold)

theorem commitRow_spec {row : NewRow} (h : s.db.Holds raw blocks v) (hsettled : s.db.Settled)
    (hsynced : s.memRepo.Synced v.pool) (hid : ∀ id, (row id).id = id)
    (hfetchable : ∀ id, s.db.Fetchable raw (row id))
    (hrow : Leads raw v.confirmed v.pool [row] v'.confirmed v'.pool)
    (hrepo : MemTxRepository.RepoOf raw s.memRepo v'.pool) (hearlier : v'.earlier = v.earlier)
    (hchain : v'.chain = v.chain) :
    wp (commit (Log2Tables.insertRow false row))
      (fun _ s' => Committed raw blocks v v' [row] s s') (fun _ => False) s := by
  refine wp_mono (commit_spec h hsynced (Log2Tables.insertRow false row))
    (fun _ s' hcommit => ?_) fun _ he => he
  obtain ⟨memrepoTxs, hnodup, hiff, hdb, hsame⟩ := hcommit
  have htxlogs2 : s'.db.txlogs2 = s.db.txlogs2 ++ [⟨row s.db.nextTxlogs2Id, false⟩] := by
    rw [hdb]
    rfl
  have hnext : s'.db.nextTxlogs2Id = s.db.nextTxlogs2Id + 1 := by
    rw [hdb]
    rfl
  have hcommitted : s'.db.committed = s.db.committed ++ numberRows s.db.nextTxlogs2Id [row] := by
    rw [Log2Tables.committed, htxlogs2, List.filter_append, List.map_append]
    rfl
  have hids : ∀ entry ∈ s'.db.txlogs2,
      0 < entry.row.id ∧ entry.row.id < s'.db.nextTxlogs2Id := fun entry hentry => by
    rw [hnext]
    rw [htxlogs2] at hentry
    rcases List.mem_append.mp hentry with hold | hlast
    · exact ⟨(h.ids_lt entry hold).1, (h.ids_lt entry hold).2.trans (Int.lt_succ _)⟩
    · rw [List.mem_singleton.mp hlast, hid]
      exact ⟨h.nextId_pos, Int.lt_succ _⟩
  have hsorted : s'.db.txlogs2.Pairwise fun a b => a.row.id < b.row.id := by
    rw [htxlogs2]
    refine List.pairwise_append.mpr ⟨h.ids, List.pairwise_singleton _ _, fun a ha b hb => ?_⟩
    rw [List.mem_singleton.mp hb, hid]
    exact (h.ids_lt a ha).2
  have hholds : s'.db.Holds raw blocks v' := by
    refine h.commit hearlier hrow hids (hnext ▸ h.nextId_pos.trans (Int.lt_succ _)) hsorted
      hcommitted
      (fun new hnew => ?_) (by rw [hdb]; rfl) (by rw [hdb]; rfl) (by rw [hdb]; rfl)
      (hchain ▸ h.chain) (by rw [hdb]; exact hnodup) fun hash => ?_
    · rw [List.mem_singleton.mp hnew]
      exact hfetchable _
    · rw [hdb]
      exact (hiff hash).trans hrepo.isExist_iff
  refine ⟨by rw [hsame], hholds, fun entry hentry => ?_, ⟨_, hcommitted⟩, by rw [hdb],
    fun db hin => ?_⟩
  · rw [htxlogs2] at hentry
    rcases List.mem_append.mp hentry with hold | hlast
    · exact hsettled entry hold
    · rw [List.mem_singleton.mp hlast]
  · rw [hsame] at hin
    rcases List.mem_cons.mp hin with hlast | hold
    · exact .inl hlast
    · exact .inr (.inl hold)

end ExplorerKV.Log2

import ExplorerKV.Log2.MemTxRun
import ExplorerKV.Log2.NodeView

/-!
# The memory pool of the producer and the pool of a view

`RepoOf`: the repository holds the transactions of a pool.  `Synced`: its pending
inserts and deletes are what takes the table from the pool of the last commit to
the one it holds now, so they can be made as they are.
-/

namespace ExplorerKV.Log2

open Bitcoin Foundation ExplorerKV.Parser
open NodeView (SpendsIn)

namespace MemTxRepository

variable {raw : RawTxs} {m m' : MemTxRepository} {pool table : Set Uint256} {hash : Uint256}
  {tx : HashedTx}

/-! ## What a call does -/

theorem addTx_added (h : m.addTx tx = .ok (true, m')) :
    ¬m.isExist tx.hash ∧ m'.txs = Function.update m.txs tx.hash (some tx) ∧
      m'.unSyncTxsInsert = insert tx.hash m.unSyncTxsInsert ∧
      m'.unSyncTxsDelete = m.unSyncTxsDelete := by
  unfold addTx at h
  split_ifs at h with hcoinBase hexist hspent
  all_goals cases h
  exact ⟨hexist, rfl, rfl, rfl⟩

theorem addTx_refused (h : m.addTx tx = .ok (false, m')) : m' = m := by
  unfold addTx at h
  split_ifs at h
  all_goals cases h
  all_goals rfl

theorem removeTx_removed (h : m.removeTx hash = .ok m') :
    m.isExist hash ∧ m'.txs = Function.update m.txs hash none ∧
      m'.unSyncTxsInsert = m.unSyncTxsInsert ∧
      m'.unSyncTxsDelete = insert hash m.unSyncTxsDelete := by
  unfold removeTx at h
  cases htx : m.txs hash with
  | none => simp [htx] at h
  | some tx =>
      simp only [htx] at h
      obtain ⟨spent, -, hrest⟩ := except_bind_eq_ok.mp h
      cases hrest
      exact ⟨by simp [isExist, htx], rfl, rfl, rfl⟩

/-! ## Changes that are not in the table yet -/

structure Synced (m : MemTxRepository) (table : Set Uint256) : Prop where
  fresh : ∀ hash ∈ m.unSyncTxsInsert, hash ∉ table
  known : ∀ hash ∈ m.unSyncTxsDelete, hash ∈ table ∨ hash ∈ m.unSyncTxsInsert
  exist_iff : ∀ hash, m.isExist hash ↔
    (hash ∈ table ∨ hash ∈ m.unSyncTxsInsert) ∧ hash ∉ m.unSyncTxsDelete

theorem isExist_update (h : m'.txs = Function.update m.txs hash none) (x : Uint256) :
    m'.isExist x ↔ m.isExist x ∧ x ≠ hash := by
  rw [isExist, isExist, h]
  by_cases heq : x = hash <;> simp [heq]

theorem Synced.addTx (h : m.Synced table) (hadd : m.addTx tx = .ok (true, m'))
    (hkept : tx.hash ∉ m.unSyncTxsDelete) : m'.Synced table := by
  obtain ⟨hexist, htxs, hinsert, hdelete⟩ := addTx_added hadd
  rw [h.exist_iff, not_and_not_right] at hexist
  have hnew : ¬(tx.hash ∈ table ∨ tx.hash ∈ m.unSyncTxsInsert) := fun hin => hkept (hexist hin)
  refine ⟨fun x hx => ?_, fun x hx => ?_, fun x => ?_⟩
  · rw [hinsert, Finset.mem_insert] at hx
    rcases hx with rfl | hx
    · exact fun hin => hnew (.inl hin)
    · exact h.fresh x hx
  · rw [hinsert, Finset.mem_insert]
    rw [hdelete] at hx
    exact (h.known x hx).imp_right .inr
  · rw [isExist, htxs, hinsert, hdelete, Finset.mem_insert]
    by_cases heq : x = tx.hash
    · simp [heq, hkept]
    · rw [Function.update_of_ne heq]
      simpa [heq, isExist] using h.exist_iff x

theorem Synced.removeTx (h : m.Synced table) (hremove : m.removeTx hash = .ok m') :
    m'.Synced table := by
  obtain ⟨hexist, htxs, hinsert, hdelete⟩ := removeTx_removed hremove
  refine ⟨by rw [hinsert]; exact h.fresh, fun x hx => ?_, fun x => ?_⟩
  · rw [hinsert]
    rw [hdelete, Finset.mem_insert] at hx
    rcases hx with rfl | hx
    · exact ((h.exist_iff x).mp hexist).1
    · exact h.known x hx
  · rw [isExist_update htxs, h.exist_iff, hinsert, hdelete, Finset.mem_insert]
    tauto

theorem Synced.removeTxs (h : m.Synced table) {hashs : List Uint256}
    (hremove : m.removeTxs hashs = .ok m') : m'.Synced table := by
  induction hashs generalizing m with
  | nil =>
      cases hremove
      exact h
  | cons hash hashs ih =>
      rw [MemTxRepository.removeTxs, List.foldlM_cons] at hremove
      obtain ⟨m₁, hfirst, hrest⟩ := except_bind_eq_ok.mp hremove
      exact ih (h.removeTx hfirst) hrest

theorem Synced.removeTxAndChildTx (h : m.Synced table) {rounds : Nat}
    {hashes hashes' : List Uint256}
    (hrun : removeTxAndChildTx rounds m tx hashes = .ok (m', hashes')) : m'.Synced table := by
  induction rounds generalizing m hashes with
  | zero => cases hrun
  | succ rounds ih =>
      rw [MemTxRepository.removeTxAndChildTx] at hrun
      obtain ⟨leaf, -, hrun⟩ := except_bind_eq_ok.mp hrun
      obtain ⟨m₁, hremove, hrun⟩ := except_bind_eq_ok.mp hrun
      by_cases hroot : tx.hash = leaf
      · rw [if_pos hroot] at hrun
        cases hrun
        exact h.removeTx hremove
      · rw [if_neg hroot] at hrun
        exact ih (h.removeTx hremove) hrun

theorem Synced.clearTxs (h : m.Synced table) {rounds : Nat} {hashes hashes' : List Uint256}
    (hrun : clearTxs rounds m hashes = .ok (m', hashes')) : m'.Synced table := by
  induction rounds generalizing m hashes with
  | zero => cases hrun
  | succ rounds ih =>
      rw [MemTxRepository.clearTxs] at hrun
      cases hlast : m.lastItem with
      | none =>
          simp only [hlast] at hrun
          cases hrun
          exact h
      | some tx =>
          simp only [hlast] at hrun
          obtain ⟨leaf, -, hrun⟩ := except_bind_eq_ok.mp hrun
          obtain ⟨m₁, hremove, hrun⟩ := except_bind_eq_ok.mp hrun
          exact ih (h.removeTx hremove) hrun

theorem Synced.evictConflicts (h : m.Synced table) {rounds : Nat}
    {conflictTxs conflictTxs' : List Uint256}
    (hdelete : ∀ x, x ∈ m.unSyncTxsDelete ↔ x ∈ conflictTxs)
    (hrun : evictConflicts rounds m tx conflictTxs = .ok (m', conflictTxs'))
    (hforeign : tx.hash ∉ conflictTxs') :
    m'.Synced table ∧ ∀ x, x ∈ m'.unSyncTxsDelete ↔ x ∈ conflictTxs' := by
  induction rounds generalizing m conflictTxs with
  | zero => cases hrun
  | succ rounds ih =>
      rw [MemTxRepository.evictConflicts] at hrun
      obtain ⟨⟨added, m₁⟩, hadd, hrest⟩ := except_bind_eq_ok.mp hrun
      clear hrun
      cases added with
      | true =>
          cases hrest
          obtain ⟨-, -, -, hsame⟩ := addTx_added hadd
          exact ⟨h.addTx hadd fun hin => hforeign ((hdelete _).mp hin), hsame ▸ hdelete⟩
      | false =>
          obtain rfl := addTx_refused hadd
          dsimp only at hrest
          rw [if_neg Bool.false_ne_true] at hrest
          obtain ⟨leaf, -, hloop⟩ := except_bind_eq_ok.mp hrest
          by_cases hself : leaf = tx.hash
          · rw [if_pos hself] at hloop
            cases hloop
          · rw [if_neg hself] at hloop
            obtain ⟨m₂, hremove, hloop⟩ := except_bind_eq_ok.mp hloop
            refine ih (h.removeTx hremove) (fun x => ?_) hloop
            rw [(removeTx_removed hremove).2.2.2, Finset.mem_insert, hdelete, List.mem_append,
              List.mem_singleton, or_comm]

/-! ## The transactions of a pool -/

structure RepoOf (raw : RawTxs) (m : MemTxRepository) (pool : Set Uint256) : Prop where
  wellKept : m.WellKept
  txs : ∀ hash tx, m.txs hash = some tx ↔ hash ∈ pool ∧ tx = hashedTx raw hash

namespace RepoOf

theorem isExist_iff (h : RepoOf raw m pool) : m.isExist hash ↔ hash ∈ pool := by
  rw [isExist, Option.isSome_iff_exists]
  simp [h.txs]

theorem txs_of_mem (h : RepoOf raw m pool) (hmem : hash ∈ pool) :
    m.txs hash = some (hashedTx raw hash) := (h.txs hash _).mpr ⟨hmem, rfl⟩

theorem spends_eq (h : RepoOf raw m pool) : m.Spends = SpendsIn raw pool := by
  funext child parent
  refine propext ⟨?_, ?_⟩
  · rintro ⟨c, p, hc, hp, hout⟩
    obtain ⟨hchild, rfl⟩ := (h.txs _ _).mp hc
    obtain ⟨hparent, rfl⟩ := (h.txs _ _).mp hp
    exact ⟨hchild, hparent, hout⟩
  · rintro ⟨hchild, hparent, hout⟩
    exact ⟨_, _, h.txs_of_mem hchild, h.txs_of_mem hparent, hout⟩

theorem exist_eq (h : RepoOf raw m pool) : (fun hash => (m.isExist hash : Prop)) = (· ∈ pool) :=
  funext fun _ => propext h.isExist_iff

theorem without (h : RepoOf raw m pool) (hkept : m'.WellKept) {gone : List Uint256}
    (htxs : ∀ hash, m'.txs hash = if hash ∈ gone then none else m.txs hash) :
    RepoOf raw m' (pool \ {hash | hash ∈ gone}) := by
  refine ⟨hkept, fun hash tx => ?_⟩
  rw [htxs]
  by_cases hgone : hash ∈ gone
  · simp [hgone]
  · simpa [hgone] using h.txs hash tx

theorem free (h : RepoOf raw m pool) {out : COutPoint}
    (hfree : ∀ other ∈ pool, out ∉ (hashedTx raw other).inputs) : m.spentOutputs out = none := by
  cases hspent : m.spentOutputs out with
  | none => rfl
  | some spender =>
      obtain ⟨tx, htx, hin⟩ := (h.wellKept.exact_spenders out spender).mp hspent
      obtain ⟨hmem, rfl⟩ := (h.txs spender tx).mp htx
      exact absurd hin (hfree spender hmem)

theorem acyclic_of_rank {rank : Uint256 → Nat} (htxs : ∀ hash tx, m.txs hash = some tx →
    hash ∈ pool ∧ tx = hashedTx raw hash)
    (hrank : ∀ hash ∈ pool, ∀ out ∈ (hashedTx raw hash).inputs, rank out.hash < rank hash) :
    m.Acyclic := by
  have hup : ∀ child parent, Relation.TransGen m.Spends child parent →
      rank parent < rank child := by
    intro child parent hpath
    have hstep : ∀ c p, m.Spends c p → rank p < rank c := by
      rintro c p ⟨ctx, ptx, hc, hp, out, hout, hin⟩
      obtain ⟨hchild, rfl⟩ := htxs _ _ hc
      obtain ⟨-, rfl⟩ := htxs _ _ hp
      obtain rfl : out.hash = p := HashedTx.hash_of_mem_outputs hout
      exact hrank c hchild out hin
    induction hpath with
    | single hspends => exact hstep _ _ hspends
    | tail _ hspends ih => exact (hstep _ _ hspends).trans ih
  exact fun hash hcycle => absurd (hup hash hash hcycle) (lt_irrefl _)

theorem insert (h : RepoOf raw m pool) (hnew : hash ∉ pool)
    (hcoinBase : ¬(hashedTx raw hash).isCoinBase) (hdistinct : (hashedTx raw hash).inputs.Nodup)
    (hfree : ∀ out ∈ (hashedTx raw hash).inputs, ∀ other ∈ pool,
      out ∉ (hashedTx raw other).inputs) {rank : Uint256 → Nat}
    (hrank : ∀ x ∈ Insert.insert hash pool, ∀ out ∈ (hashedTx raw x).inputs,
      rank out.hash < rank x) :
    ∃ m', m.addTx (hashedTx raw hash) = .ok (true, m') ∧
      RepoOf raw m' (Insert.insert hash pool) := by
  obtain ⟨m', hadd, htxs, hexact⟩ := addTx_spec h.wellKept.exact_spenders hcoinBase
    (fun hexist => hnew (h.isExist_iff.mp hexist))
    fun out hout => h.free fun other hother => hfree out hout other hother
  have hiff : ∀ x tx, m'.txs x = some tx ↔
      x ∈ Insert.insert hash pool ∧ tx = hashedTx raw x := fun x tx => by
    rw [htxs]
    by_cases heq : x = hash
    · simp [heq, hashedTx, eq_comm]
    · rw [Function.update_of_ne (show x ≠ (hashedTx raw hash).hash from heq), h.txs]
      simp [heq]
  have hacyclic : m'.Acyclic := acyclic_of_rank (fun x tx => (hiff x tx).mp) hrank
  exact ⟨m', hadd, h.wellKept.insert htxs hexact hdistinct (hacyclic _), hiff⟩

end RepoOf

/-! ## The sweep of a block -/

theorem pooledHashs_append (txs txs' : List HashedTx) :
    pooledHashs (txs ++ txs') = pooledHashs txs ++ pooledHashs txs' := by
  rw [pooledHashs, List.filter_append, List.map_append, pooledHashs, pooledHashs]

/-- After the transactions `done` of the block, with what is known of the table. -/
structure SweptTo (m : MemTxRepository) (table : Set Uint256) (vtx done : List HashedTx)
    (s : Sweep) : Prop where
  sweeping : m.Sweeping vtx done s.repo s.conflictTxs
  synced : s.repo.Synced table
  deletes : ∀ x, x ∈ s.repo.unSyncTxsDelete ↔ x ∈ s.conflictTxs
  already : ∀ x, x ∈ s.alreadyInMemTxHashs ↔ x ∈ pooledHashs done ∧ m.isExist x
  txHashs : s.txHashs = pooledHashs done

section Sweep

variable {chain vtx done after : List HashedTx} {b : HashedTx} {s : Sweep}

theorem Sweeping.isExist_iff (h : m.Sweeping vtx done s.repo s.conflictTxs)
    (hpool : PoolOf m chain vtx) (hvalid : ConsensusValid chain vtx)
    (hvtx : vtx = done ++ b :: after)
    (hb : ¬b.isCoinBase) : s.repo.isExist b.hash ↔ m.isExist b.hash := by
  have hmem : b ∈ vtx := by simp [hvtx]
  rw [isExist, isExist, Option.isSome_iff_exists, Option.isSome_iff_exists]
  constructor
  · rintro ⟨tx, htx⟩
    rcases h.known _ _ htx with hold | ⟨hdone, -, -⟩
    · exact ⟨tx, hold⟩
    · obtain rfl :=
        h.eq_of_hash hpool (by rw [hvtx]; exact List.subset_append_left _ _) htx hmem rfl
      exact absurd hdone ((hvtx ▸ hvalid).not_mem_before hb)
  · rintro ⟨tx, htx⟩
    exact ⟨tx, h.kept _ _ (fun hin => h.foreign _ hin b hmem rfl) htx⟩

theorem SweptTo.next (h : SweptTo m table vtx done s) (hpool : PoolOf m chain vtx)
    (hvalid : ConsensusValid chain vtx) (hvtx : vtx = done ++ b :: after) :
    ∃ s', Returns (fun rounds => sweepTx rounds s b) s' ∧ SweptTo m table vtx (done ++ [b]) s' := by
  obtain ⟨s', hreturns, hsweep, hhashs⟩ := sweepTx_spec hpool hvalid h.sweeping hvtx
  refine ⟨s', hreturns, ?_⟩
  have htxHashs : s'.txHashs = pooledHashs (done ++ [b]) := by
    rw [hhashs, h.txHashs, pooledHashs_append]
  obtain ⟨rounds, hrun⟩ := hreturns.exists
  dsimp only at hrun
  rw [sweepTx] at hrun
  by_cases hb : b.isCoinBase
  · rw [if_pos hb] at hrun
    cases hrun
    refine ⟨hsweep, h.synced, h.deletes, fun x => ?_, htxHashs⟩
    rw [pooledHashs_append, h.already]
    simp [pooledHashs, hb]
  · have hpooled : pooledHashs (done ++ [b]) = pooledHashs done ++ [b.hash] := by
      rw [pooledHashs_append]
      simp [pooledHashs, hb]
    have hsame := h.sweeping.isExist_iff hpool hvalid hvtx hb
    rw [if_neg hb] at hrun
    by_cases hexist : s.repo.isExist b.hash
    · rw [if_pos hexist] at hrun
      cases hrun
      refine ⟨hsweep, h.synced, h.deletes, fun x => ?_, htxHashs⟩
      rw [Finset.mem_insert, h.already, hpooled, List.mem_append, List.mem_singleton]
      constructor
      · rintro (rfl | ⟨hin, hm⟩)
        · exact ⟨.inr rfl, hsame.mp hexist⟩
        · exact ⟨.inl hin, hm⟩
      · rintro ⟨hin | rfl, hm⟩
        · exact .inr ⟨hin, hm⟩
        · exact .inl rfl
    · rw [if_neg hexist] at hrun
      obtain ⟨⟨repo, conflictTxs⟩, hevict, hrest⟩ := except_bind_eq_ok.mp hrun
      cases hrest
      have hforeign : b.hash ∉ conflictTxs := fun hin =>
        hsweep.foreign _ hin b (by simp [hvtx]) rfl
      obtain ⟨hsynced, hdeletes⟩ := h.synced.evictConflicts h.deletes hevict hforeign
      refine ⟨hsweep, hsynced, hdeletes, fun x => ?_, htxHashs⟩
      rw [h.already, hpooled, List.mem_append, List.mem_singleton]
      refine and_congr_left fun hm => ⟨.inl, fun hin => hin.resolve_right ?_⟩
      rintro rfl
      exact hexist (hsame.mpr hm)

theorem SweptTo.all (h : SweptTo m table vtx done s) (hpool : PoolOf m chain vtx)
    (hvalid : ConsensusValid chain vtx) (hvtx : vtx = done ++ after) :
    ∃ s', Returns (fun rounds => after.foldlM (sweepTx rounds) s) s' ∧
      SweptTo m table vtx vtx s' := by
  induction after generalizing done s with
  | nil =>
      rw [List.append_nil] at hvtx
      exact ⟨s, .of_forall fun _ => rfl, hvtx ▸ h⟩
  | cons b after ih =>
      obtain ⟨s₁, hfirst, hswept⟩ := h.next hpool hvalid hvtx
      obtain ⟨s', hrest, hall⟩ := ih hswept (by simpa using hvtx)
      refine ⟨s', ?_, hall⟩
      filter_upwards [hfirst, hrest] with rounds hone hmany
      rw [List.foldlM_cons, hone]
      exact hmany

end Sweep

section View

variable {blocks : Uint256 → RawBlock} {start : BeginBlock} {v : NodeView} {block : RawBlock}

theorem RepoOf.poolOf (h : RepoOf raw m v.pool) (hv : v.Sound raw blocks start)
    (vtx : List Uint256) : PoolOf m (v.chainTxs raw) (vtx.map (hashedTx raw)) where
  not_coinBase hash tx htx := by
    obtain ⟨hmem, rfl⟩ := (h.txs hash tx).mp htx
    exact hv.not_coinBase hash hmem
  unspent hash tx htx out hout := by
    rintro ⟨q, hq, hspent⟩
    obtain ⟨hmem, rfl⟩ := (h.txs hash tx).mp htx
    obtain ⟨other, hother, rfl⟩ := List.mem_map.mp hq
    obtain ⟨p, hsound, htracks⟩ := hv.ledger
    have hlive : ∀ x, p.Live x ↔ x ∈ v.confirmed ∨ x ∈ v.pool := fun _ =>
      htracks.live_iff hsound.wellFormed
    rw [NodeView.hashedTx_inputs (hv.not_coinBase hash hmem)] at hout
    obtain rfl := hsound.linked.spender hash other out ((hlive hash).mpr (.inr hmem))
      ((hlive other).mpr (.inl hother)) hout hspent
    exact htracks.apart hsound.wellFormed hmem hother
  named a b ha hb heq := by
    have hname : ∀ a : HashedTx, a ∈ v.chainTxs raw ∨ a ∈ vtx.map (hashedTx raw) ∨
        m.txs a.hash = some a → a = hashedTx raw a.hash := by
      rintro a (ha | ha | ha)
      · obtain ⟨x, -, rfl⟩ := List.mem_map.mp ha
        rfl
      · obtain ⟨x, -, rfl⟩ := List.mem_map.mp ha
        rfl
      · exact ((h.txs _ _).mp ha).2
    rw [hname a ha, hname b hb, heq]

theorem RepoOf.conflicting_iff (h : RepoOf raw m pool) (vtx : List Uint256) :
    Conflicting m (vtx.map (hashedTx raw)) hash ↔
      hash ∈ pool ∧ NodeView.ConflictsWith raw vtx hash := by
  constructor
  · rintro ⟨tx, htx, b, hb, hne, hout⟩
    obtain ⟨hmem, rfl⟩ := (h.txs hash tx).mp htx
    obtain ⟨other, hother, rfl⟩ := List.mem_map.mp hb
    exact ⟨hmem, other, hother, hne, hout⟩
  · rintro ⟨hmem, other, hother, hne, hout⟩
    exact ⟨_, h.txs_of_mem hmem, hashedTx raw other, List.mem_map_of_mem hother, hne, hout⟩

theorem sweepBlock_view (h : RepoOf raw m v.pool) (hv : v.Sound raw blocks start)
    (hsynced : m.Synced v.pool) (hdelete : m.unSyncTxsDelete = ∅)
    (hvalid : ConsensusValid (v.chainTxs raw) (block.blk.vtx.map (hashedTx raw))) :
    ∃ s, Returns (fun rounds => sweepBlock rounds m (blockTxs raw block)) s ∧
      v.SweptBy raw block s.conflictTxs (inOrder s.alreadyInMemTxHashs) ∧
      RepoOf raw s.repo (v.accept raw block).pool ∧ s.repo.Synced v.pool := by
  have hpool := h.poolOf hv block.blk.vtx
  have hstart : SweptTo m v.pool (block.blk.vtx.map (hashedTx raw)) [] ⟨m, [], ∅, []⟩ :=
    ⟨.start h.wellKept, hsynced, by simp [hdelete], by simp [pooledHashs], rfl⟩
  obtain ⟨s, hreturns, hswept⟩ := hstart.all hpool hvalid rfl
  have hsweep := hswept.sweeping
  have hexist : ∀ hash ∈ s.txHashs, s.repo.isExist hash := fun hash hmem => by
    rw [hswept.txHashs, pooledHashs] at hmem
    obtain ⟨b, hb, rfl⟩ := List.mem_map.mp hmem
    obtain ⟨hb, hcb⟩ := List.mem_filter.mp hb
    rw [isExist, hsweep.added b hb (by simpa using hcb)]
    rfl
  obtain ⟨repo, hremove, hkept, htxs⟩ := removeTxs_spec hsweep.wellKept
    (hswept.txHashs ▸ nodup_pooledHashs hpool hvalid) hexist
  have hhash : (block.blk.vtx.map (hashedTx raw)).map (·.hash) = block.blk.vtx := by
    rw [List.map_map]
    exact List.map_id'' (fun _ => rfl) _
  have hleft : ∀ hash, repo.txs hash =
      if hash ∈ s.conflictTxs ++ block.blk.vtx then none else m.txs hash := fun hash => by
    rw [htxs, hswept.txHashs, hsweep.left_after hpool h.wellKept hash, hhash]
  have hpeeling := hsweep.peeling
  rw [h.spends_eq, h.exist_eq] at hpeeling
  have hconflict : ∀ hash, hash ∈ s.conflictTxs ↔
      NodeView.Evicted raw v.pool block.blk.vtx hash := fun hash => by
    constructor
    · intro hmem
      obtain ⟨c, hpath, hc⟩ := hsweep.conflicting hash hmem
      obtain ⟨hin, hwith⟩ := (h.conflicting_iff block.blk.vtx).mp hc
      exact ⟨c, hin, h.spends_eq ▸ hpath, hwith⟩
    · rintro ⟨c, hin, hpath, hwith⟩
      have hc := (h.conflicting_iff block.blk.vtx).mpr ⟨hin, hwith⟩
      exact hpeeling.descendant (fun _ _ hspends => hspends.1) (hsweep.conflicting_evicted hc) hpath
  have hforeign : ∀ hash ∈ block.blk.vtx, hash ∉ s.conflictTxs := fun hash hmem hin =>
    hsweep.foreign hash hin (hashedTx raw hash) (List.mem_map_of_mem hmem) rfl
  refine ⟨{ s with repo := repo }, ?_, ⟨hpeeling, hconflict, hforeign, fun hash hmem => ?_⟩, ?_,
    hswept.synced.removeTxs hremove⟩
  · filter_upwards [hreturns] with rounds hrounds
    simp only [sweepBlock, blockTxs, hrounds]
    simp [bind, Except.bind, pure, Except.pure, hpeeling.nodup, hremove]
  · rw [mem_inOrder, hswept.already, h.isExist_iff]
    refine ⟨And.right, fun hin => ⟨?_, hin⟩⟩
    refine List.mem_map.mpr
      ⟨hashedTx raw hash, List.mem_filter.mpr ⟨List.mem_map_of_mem hmem, ?_⟩, rfl⟩
    simpa [hashedTx] using hv.not_coinBase hash hin
  · have hrest := h.without hkept hleft
    have hpool' : (v.accept raw block).pool =
        v.pool \ {hash | hash ∈ s.conflictTxs ++ block.blk.vtx} := by
      ext hash
      simp only [NodeView.accept, Set.mem_ofPred_eq, Set.mem_sdiff, List.mem_append, hconflict]
      tauto
    exact hpool' ▸ hrest

end View

/-! ## Removals -/

theorem removeTxAndChildTx_view (h : RepoOf raw m pool) (hsynced : m.Synced pool)
    (hmem : hash ∈ pool) :
    ∃ hashes m', Returns (fun rounds => removeTxAndChildTx rounds m (hashedTx raw hash) [])
        (m', hashes) ∧
      Peeling (SpendsIn raw pool) (· ∈ pool) hashes ∧
      (∀ x, x ∈ hashes ↔ Relation.ReflTransGen (SpendsIn raw pool) x hash) ∧
      RepoOf raw m' (pool \ {x | x ∈ hashes}) ∧ m'.Synced pool := by
  obtain ⟨bound, hbound⟩ := exists_length_bound Uint256
  have htx : m.txs (hashedTx raw hash).hash = some (hashedTx raw hash) := h.txs_of_mem hmem
  obtain ⟨hashes, m', hreturns, hpeeled, hroot, hbelow⟩ :=
    removeTxAndChildTx_loop htx hbound (bound + 1) [] [] m
      (by simp) (.refl h.wellKept) (by simp) (by simp)
  rw [List.nil_append] at hreturns hpeeled
  have hpeeling := hpeeled.peeling
  rw [h.spends_eq, h.exist_eq] at hpeeling
  rw [h.spends_eq] at hbelow
  obtain ⟨rounds, hrun⟩ := hreturns.exists
  exact ⟨hashes, m', hreturns, hpeeling, fun x => ⟨hbelow x,
    hpeeling.descendant (fun _ _ hspends => hspends.1) hroot⟩,
    h.without hpeeled.wellKept hpeeled.txs, hsynced.removeTxAndChildTx hrun⟩

theorem lastItem_eq_none : m.lastItem = none ↔ ∀ x, m.txs x = none := by
  refine ⟨fun hlast x => ?_, fun hnone => hnone _⟩
  by_contra hsome
  have hexist : m.isExist (Fin.ofNat (2 ^ 256) x.val) := by
    rw [Fin.ofNat_val_eq_self]
    exact Option.isSome_iff_ne_none.mpr hsome
  have hfound := Nat.findGreatest_spec (P := fun n => m.isExist (Fin.ofNat (2 ^ 256) n))
    (Nat.le_pred_of_lt x.isLt) hexist
  rw [isExist, Option.isSome_iff_ne_none] at hfound
  exact hfound hlast

theorem clearTxs_loop {bound : Nat} (hbound : ∀ l : List Uint256, l.Nodup → l.length ≤ bound)
    (spare : Nat) (removed hashes : List Uint256) (hspare : bound < removed.length + spare)
    (h : m.PeeledTo removed m') :
    ∃ rest m'', Returns (fun rounds => clearTxs rounds m' hashes) (m'', hashes ++ rest) ∧
      m.PeeledTo (removed ++ rest) m'' ∧ ∀ x, m''.txs x = none := by
  induction spare generalizing removed hashes m' with
  | zero => exact absurd (hbound _ h.peeling.nodup) (by omega)
  | succ spare ih =>
      cases hlast : m'.lastItem with
      | none =>
          refine ⟨[], m', .of_eventually (.of_forall fun _ => trivial) fun rounds _ => ?_,
            by simpa using h, lastItem_eq_none.mp hlast⟩
          rw [clearTxs, hlast, List.append_nil]
      | some tx =>
          obtain ⟨leaf, hwalk, hexist, -, hleaf⟩ := getSpentEndTx_spec h.wellKept hlast
          obtain ⟨m₁, hremove, hwithout⟩ := removeTx_spec h.wellKept hexist
          obtain ⟨rest, m'', hreturns, hpeeled, hempty⟩ := ih (removed ++ [leaf]) (hashes ++ [leaf])
            (by rw [List.length_append, List.length_singleton]; omega)
            (h.snoc hexist hleaf hwithout)
          refine ⟨leaf :: rest, m'', .of_eventually (hwalk.and hreturns) ?_, by simpa using hpeeled,
            hempty⟩
          rintro rounds ⟨hleaf', hloop⟩
          rw [clearTxs, hlast]
          simpa [bind, Except.bind, hleaf', hremove] using hloop

theorem clearTxs_view (h : RepoOf raw m pool) (hsynced : m.Synced pool) :
    ∃ hashes m', Returns (fun rounds => clearTxs rounds m []) (m', hashes) ∧
      Peeling (SpendsIn raw pool) (· ∈ pool) hashes ∧ (∀ x, x ∈ hashes ↔ x ∈ pool) ∧
      RepoOf raw m' ∅ ∧ m'.Synced pool := by
  obtain ⟨bound, hbound⟩ := exists_length_bound Uint256
  obtain ⟨hashes, m', hreturns, hpeeled, hempty⟩ :=
    clearTxs_loop hbound (bound + 1) [] [] (by simp) (.refl h.wellKept)
  rw [List.nil_append] at hreturns hpeeled
  have hpeeling := hpeeled.peeling
  rw [h.spends_eq, h.exist_eq] at hpeeling
  obtain ⟨rounds, hrun⟩ := hreturns.exists
  refine ⟨hashes, m', hreturns, hpeeling, fun x => ⟨hpeeling.mem, fun hin => ?_⟩,
    ⟨hpeeled.wellKept, fun x tx => by simp [hempty]⟩, hsynced.clearTxs hrun⟩
  by_contra hnot
  have hkept := hpeeled.kept hnot
  rw [hempty, h.txs_of_mem hin] at hkept
  cases hkept

/-! ## Transactions that are live -/

theorem RepoOf.add_live (h : RepoOf raw m pool) {p : Ledger} (hp : p.Sound raw)
    (hlive : ∀ x ∈ pool, p.Live x ∧ ¬(raw x).tx.isCoinBase) (hnew : hash ∉ pool)
    (hhash : p.Live hash) (hcoinBase : ¬(raw hash).tx.isCoinBase) :
    ∃ m', m.addTx (hashedTx raw hash) = .ok (true, m') ∧
      RepoOf raw m' (Insert.insert hash pool) := by
  obtain ⟨rank, hrank⟩ := hp.ranked
  have hinputs := NodeView.hashedTx_inputs hcoinBase
  have hup : ∀ x ∈ Insert.insert hash pool, ∀ out ∈ (hashedTx raw x).inputs,
      rank out.hash < rank x := fun x hx out hout => by
    rcases hx with rfl | hx
    · exact hrank x hhash out (hinputs ▸ hout)
    · obtain ⟨hx', hcb⟩ := hlive x hx
      exact hrank x hx' out (NodeView.hashedTx_inputs hcb ▸ hout)
  refine h.insert hnew hcoinBase (hinputs ▸ hp.linked.nodup hash hhash)
    (fun out hout other hother hin => ?_) hup
  obtain ⟨hother', hcb⟩ := hlive other hother
  rw [NodeView.hashedTx_inputs hcb] at hin
  obtain rfl := hp.linked.spender hash other out hhash hother' (hinputs ▸ hout) hin
  exact hnew hother

theorem repoOf_empty : RepoOf raw empty ∅ := by
  refine ⟨(KeptAmong.empty []).wellKept, fun x tx => ?_⟩
  simp [empty]

/-- Whatever order the rows of `0_memrepo_txs` come in, they can be loaded. -/
theorem load_live {p : Ledger} (hp : p.Sound raw) {rawTxs : Finset Uint256}
    (h : RepoOf raw m pool) (hlive : ∀ x ∈ pool, p.Live x ∧ ¬(raw x).tx.isCoinBase)
    {hashes : List Uint256} (hnodup : hashes.Nodup) (hnew : ∀ x ∈ hashes, x ∉ pool)
    (hhashes : ∀ x ∈ hashes, p.Live x ∧ ¬(raw x).tx.isCoinBase ∧ x ∈ rawTxs) :
    ∃ m', hashes.foldlM (loadMemrepoTx raw rawTxs) m = .ok m' ∧
      RepoOf raw m' (pool ∪ {x | x ∈ hashes}) := by
  induction hashes generalizing m pool with
  | nil => exact ⟨m, rfl, by simpa using h⟩
  | cons hash hashes ih =>
      obtain ⟨hfresh, hrest⟩ := List.nodup_cons.mp hnodup
      obtain ⟨hhash, hcoinBase, hraw⟩ := hhashes hash (.head _)
      obtain ⟨m₁, hadd, hrepo⟩ := h.add_live hp hlive (hnew hash (.head _)) hhash hcoinBase
      have hnew₁ : ∀ x ∈ hashes, x ∉ Insert.insert hash pool := fun x hx hin =>
        hin.elim (fun heq => hfresh (heq ▸ hx)) (hnew x (.tail _ hx))
      have hlive₁ : ∀ x ∈ Insert.insert hash pool, p.Live x ∧ ¬(raw x).tx.isCoinBase :=
        fun x hx => hx.elim (fun heq => heq ▸ ⟨hhash, hcoinBase⟩) (hlive x)
      obtain ⟨m', hload, hrepo'⟩ := ih hrepo hlive₁ hrest hnew₁ fun x hx => hhashes x (.tail _ hx)
      refine ⟨m', ?_, ?_⟩
      · rw [List.foldlM_cons, loadMemrepoTx, if_pos hraw, hadd]
        exact hload
      · have hall : pool ∪ {x | x ∈ hash :: hashes} =
            Insert.insert hash pool ∪ {x | x ∈ hashes} := by
          ext x
          simp only [List.mem_cons, Set.mem_union, Set.mem_ofPred_eq, Set.mem_insert_iff]
          tauto
        exact hall ▸ hrepo'

end MemTxRepository

end ExplorerKV.Log2

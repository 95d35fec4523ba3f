import ExplorerKV.Log2.Producer
import ExplorerKV.Parser.LedgerRuns

/-!
# What log1 tells of the node

`NodeView` is the chain and the memory pool as the log1 items describe them, and
`next` what an item does to it.  `Valid` is what the node promises of its next
item: blocks are valid on their chain, a transaction spends what is there, and
nothing spends a coinbase that is rolled back.  The rows of an item take the
ledger from one view to the next.
-/

namespace ExplorerKV.Log2

open Bitcoin Foundation ExplorerKV.Parser
open Logs (Log1)

structure NodeView where
  /-- the blocks after the begin block, the latest first -/
  chain : List RawBlock
  /-- the greatest length of the chain so far -/
  highest : Nat
  /-- the unconfirmed transactions -/
  pool : Set Uint256
  /-- the transactions confirmed up to the begin block, the latest first -/
  earlier : List Uint256

namespace NodeView

def atBegin (earlier : List Uint256) : NodeView := ⟨[], 0, ∅, earlier⟩

def height (start : BeginBlock) (v : NodeView) : Int := start.height + v.chain.length

def tipHash (start : BeginBlock) (chain : List RawBlock) : Uint256 :=
  (chain.head?.map (·.blockHash)).getD start.hash

def confirmedOn (earlier : List Uint256) : List RawBlock → List Uint256
  | [] => earlier
  | block :: below => block.blk.vtx.reverse ++ confirmedOn earlier below

def confirmed (v : NodeView) : List Uint256 := confirmedOn v.earlier v.chain

variable (raw : RawTxs) (blocks : Uint256 → RawBlock) (start : BeginBlock)

def chainTxs (v : NodeView) : List HashedTx := v.confirmed.map (hashedTx raw)

/-- `child` spends an output of `parent`, both in the pool. -/
def SpendsIn (pool : Set Uint256) (child parent : Uint256) : Prop :=
  child ∈ pool ∧ parent ∈ pool ∧
    ∃ out ∈ (hashedTx raw parent).outputs, out ∈ (hashedTx raw child).inputs

def ConflictsWith (vtx : List Uint256) (hash : Uint256) : Prop :=
  ∃ other ∈ vtx, other ≠ hash ∧
    ∃ out ∈ (hashedTx raw other).prevouts, out ∈ (hashedTx raw hash).inputs

/-- A conflict goes with all that descends from it. -/
def Evicted (pool : Set Uint256) (vtx : List Uint256) (hash : Uint256) : Prop :=
  ∃ conflict ∈ pool, Relation.ReflTransGen (SpendsIn raw pool) hash conflict ∧
    ConflictsWith raw vtx conflict

def accept (v : NodeView) (block : RawBlock) : NodeView where
  chain := block :: v.chain
  highest := max v.highest (v.chain.length + 1)
  pool := {hash | hash ∈ v.pool ∧ hash ∉ block.blk.vtx ∧ ¬Evicted raw v.pool block.blk.vtx hash}
  earlier := v.earlier

def rollback (v : NodeView) : NodeView where
  chain := v.chain.tail
  highest := v.highest
  pool := v.pool ∪ {hash | ∃ block ∈ v.chain.head?, hash ∈ block.blk.vtx ∧
    ¬(raw hash).tx.isCoinBase}
  earlier := v.earlier

def next (v : NodeView) : Log1 → NodeView
  | .acceptTx hash => { v with
      pool := {x | x ∈ v.pool ∨ x = hash ∧
        ∀ other ∈ v.pool, ∀ out ∈ (hashedTx raw other).inputs, out ∉ (hashedTx raw hash).inputs} }
  | .removeTx hash => { v with
      pool := {x | x ∈ v.pool ∧ ¬Relation.ReflTransGen (SpendsIn raw v.pool) x hash} }
  | .block height hash =>
      if v.height start < height then v.accept raw ⟨hash, height, (blocks hash).blk⟩
      else v.rollback raw
  | .clearMemtxs => { v with pool := ∅ }

variable {raw blocks start} in
theorem next_acceptTx_free {v : NodeView} {hash : Uint256}
    (hfree : ∀ other ∈ v.pool, ∀ out ∈ (hashedTx raw other).inputs,
      out ∉ (hashedTx raw hash).inputs) :
    v.next raw blocks start (.acceptTx hash) = { v with pool := insert hash v.pool } := by
  have hpool : (v.next raw blocks start (.acceptTx hash)).pool = insert hash v.pool := by
    ext x
    simp only [next, Set.mem_ofPred_eq, Set.mem_insert_iff, and_iff_left hfree, or_comm]
  rw [← hpool]
  rfl

variable {raw blocks start} in
theorem next_acceptTx_kept {v : NodeView} {hash : Uint256} (h : hash ∈ v.pool ∨
    ¬∀ other ∈ v.pool, ∀ out ∈ (hashedTx raw other).inputs, out ∉ (hashedTx raw hash).inputs) :
    v.next raw blocks start (.acceptTx hash) = v := by
  have hpool : (v.next raw blocks start (.acceptTx hash)).pool = v.pool := by
    ext x
    simp only [next, Set.mem_ofPred_eq]
    refine ⟨fun hx => hx.elim id fun hx => ?_, .inl⟩
    exact h.elim (fun hin => hx.1 ▸ hin) fun hnot => absurd hx.2 hnot
  exact congrArg (fun pool => { v with pool := pool }) hpool

variable {raw blocks start} in
theorem next_removeTx_absent {v : NodeView} {hash : Uint256} (h : hash ∉ v.pool) :
    v.next raw blocks start (.removeTx hash) = v := by
  have hpool : (v.next raw blocks start (.removeTx hash)).pool = v.pool := by
    ext x
    simp only [next, Set.mem_ofPred_eq]
    refine ⟨And.left, fun hx => ⟨hx, fun hpath => ?_⟩⟩
    rcases Relation.ReflTransGen.cases_tail hpath with rfl | ⟨_, -, hspends⟩
    · exact h hx
    · exact h hspends.2.1
  exact congrArg (fun pool => { v with pool := pool }) hpool

/-! ## Valid items -/

structure TxValid (v : NodeView) (hash : Uint256) : Prop where
  not_coinBase : ¬(hashedTx raw hash).isCoinBase
  nonempty : (hashedTx raw hash).vin ≠ []
  distinct : (hashedTx raw hash).inputs.Nodup
  available : ∀ out ∈ (hashedTx raw hash).inputs, ¬SpentOn (v.chainTxs raw) out ∧
    (CreatedOn (v.chainTxs raw) out ∨ ∃ parent ∈ v.pool, out ∈ (hashedTx raw parent).outputs)

/-- The first transaction of a block, and no other, is a coinbase. -/
def StartsWithCoinBase (vtx : List Uint256) : Prop :=
  ∃ first rest, vtx = first :: rest ∧ (raw first).tx.isCoinBase ∧
    ∀ hash ∈ rest, ¬(raw hash).tx.isCoinBase

structure BlockValid (v : NodeView) (height : Int) (hash : Uint256) : Prop where
  /-- a hash names one block -/
  named : blocks hash = ⟨hash, height, (blocks hash).blk⟩
  hash_ne_zero : hash ≠ 0
  height : height = v.height start + 1
  parent : (blocks hash).blk.hashPrevBlock = tipHash start v.chain
  coinBase : StartsWithCoinBase raw (blocks hash).blk.vtx
  fresh : ∀ first ∈ (blocks hash).blk.vtx.head?, first ∉ v.confirmed
  txs : ConsensusValid (v.chainTxs raw) ((blocks hash).blk.vtx.map (hashedTx raw))

/-- The line of a rollback names the block below. -/
structure RollbackValid (v : NodeView) (height : Int) (hash : Uint256) : Prop where
  height : height = v.height start - 1
  parent : ∃ block ∈ v.chain.head?, hash = block.blk.hashPrevBlock ∧
    ∀ first ∈ block.blk.vtx.head?, ∀ child, child ∈ v.pool ∨ child ∈ block.blk.vtx →
      ∀ out ∈ (raw child).tx.prevouts, out.hash ≠ first
  /-- the timestamps of so many blocks are kept -/
  depth : v.highest < v.chain.length + 2016 * 2

inductive Valid (v : NodeView) : Log1 → Prop where
  | acceptTx {hash : Uint256} (tx : v.TxValid raw hash) : Valid v (.acceptTx hash)
  | removeTx (hash : Uint256) : Valid v (.removeTx hash)
  | accept {height : Int} {hash : Uint256} (block : v.BlockValid raw blocks start height hash) :
      Valid v (.block height hash)
  | rollback {height : Int} {hash : Uint256} (back : v.RollbackValid raw start height hash) :
      Valid v (.block height hash)
  | clearMemtxs : Valid v .clearMemtxs

/-! ## Sound views -/

/-- A block of the chain, on top of those below. -/
structure OnChain (below : List RawBlock) (block : RawBlock) : Prop where
  named : blocks block.blockHash = block
  hash_ne_zero : block.blockHash ≠ 0
  height : block.blockHeight = start.height + below.length + 1
  parent : block.blk.hashPrevBlock = tipHash start below
  coinBase : StartsWithCoinBase raw block.blk.vtx

def ChainSound : List RawBlock → Prop
  | [] => True
  | block :: below => OnChain raw blocks start below block ∧ ChainSound below

structure Sound (v : NodeView) : Prop where
  chain : ChainSound raw blocks start v.chain
  length_le : v.chain.length ≤ v.highest
  not_coinBase : ∀ hash ∈ v.pool, ¬(raw hash).tx.isCoinBase
  ledger : ∃ p : Ledger, p.Sound raw ∧ p.Tracks v.confirmed v.pool

variable {raw blocks start} {v : NodeView} {hash : Uint256}

theorem sound_atBegin {earlier : List Uint256} (h : Ledger.ConfirmedChain raw earlier) :
    (atBegin earlier).Sound raw blocks start where
  chain := trivial
  length_le := le_refl _
  not_coinBase _ h := h.elim
  ledger := ⟨_, Ledger.sound_ofConfirmed h, Ledger.tracks_ofConfirmed⟩

theorem next_earlier (item : Log1) : (v.next raw blocks start item).earlier = v.earlier := by
  cases item with
  | block height hash =>
      rw [next]
      split_ifs <;> rfl
  | acceptTx hash | removeTx hash | clearMemtxs => rfl

theorem confirmedOn_eq (earlier : List Uint256) (chain : List RawBlock) :
    confirmedOn earlier chain = (chain.flatMap fun block => block.blk.vtx.reverse) ++ earlier := by
  induction chain with
  | nil => rfl
  | cons block below ih =>
      rw [confirmedOn, ih, List.flatMap_cons, List.append_assoc]

theorem mem_confirmed_of_earlier (h : hash ∈ v.earlier) : hash ∈ v.confirmed := by
  rw [confirmed, confirmedOn_eq]
  exact List.mem_append_right _ h

theorem hashedTx_inputs (h : ¬(raw hash).tx.isCoinBase) :
    (hashedTx raw hash).inputs = (raw hash).tx.prevouts :=
  (CTransaction.prevouts_of_not_isCoinBase h).symm

theorem range_of_mem_outputs {parent : Uint256} {out : COutPoint}
    (h : out ∈ (hashedTx raw parent).outputs) :
    out.hash = parent ∧ out.n.toNat < (raw out.hash).tx.vout.length := by
  obtain ⟨i, hi, rfl⟩ := List.mem_map.mp h
  refine ⟨rfl, lt_of_le_of_lt ?_ (List.mem_range.mp hi)⟩
  change (UInt32.ofNat i).toNat ≤ i
  rw [UInt32.toNat_ofNat']
  exact Nat.mod_le _ _

theorem mem_outputs_of_range {out : COutPoint} (h : out.n.toNat < (raw out.hash).tx.vout.length) :
    out ∈ (hashedTx raw out.hash).outputs :=
  List.mem_map.mpr ⟨out.n.toNat, List.mem_range.mpr h, by simp [hashedTx]⟩

theorem created_on_chain {out : COutPoint} (h : CreatedOn (v.chainTxs raw) out) :
    out.hash ∈ v.confirmed ∧ out.n.toNat < (raw out.hash).tx.vout.length := by
  obtain ⟨tx, htx, hout⟩ := h
  obtain ⟨parent, hparent, rfl⟩ := List.mem_map.mp htx
  obtain ⟨heq, hrange⟩ := range_of_mem_outputs hout
  exact ⟨heq ▸ hparent, hrange⟩

theorem not_spent_on_chain {out : COutPoint} (h : ¬SpentOn (v.chainTxs raw) out) {other : Uint256}
    (hother : other ∈ v.confirmed) : out ∉ (raw other).tx.prevouts :=
  fun hout => h ⟨hashedTx raw other, List.mem_map_of_mem hother, hout⟩

theorem not_confirmed_of_unspent (hnonempty : (hashedTx raw hash).vin ≠ [])
    (hcoinBase : ¬(raw hash).tx.isCoinBase)
    (hunspent : ∀ out ∈ (raw hash).tx.prevouts, ¬SpentOn (v.chainTxs raw) out) :
    hash ∉ v.confirmed := by
  intro hmem
  obtain ⟨input, hinput⟩ := List.exists_mem_of_ne_nil _ hnonempty
  have hout : input.prevout ∈ (raw hash).tx.prevouts := by
    rw [← hashedTx_inputs hcoinBase]
    exact List.mem_map_of_mem hinput
  exact hunspent _ hout ⟨hashedTx raw hash, List.mem_map_of_mem hmem, hout⟩

theorem Sound.spends (h : v.Sound raw blocks start) {child parent : Uint256}
    (hchild : child ∈ v.pool) (hparent : parent ∈ v.pool) {out : COutPoint}
    (hout : out ∈ (raw child).tx.prevouts) (heq : out.hash = parent) :
    SpendsIn raw v.pool child parent := by
  obtain ⟨p, hsound, htracks⟩ := h.ledger
  have hlive := (htracks.live_iff hsound.wellFormed).mpr (.inr hchild)
  obtain ⟨-, hrange⟩ := hsound.linked.prevout child hlive out hout
  refine ⟨hchild, hparent, out, heq ▸ mem_outputs_of_range hrange, ?_⟩
  rw [hashedTx_inputs (h.not_coinBase child hchild)]
  exact hout

/-! ## The rows of the items -/

theorem leads_acceptTx (htx : v.TxValid raw hash) (hnew : hash ∉ v.pool)
    (hfree : ∀ other ∈ v.pool, ∀ out ∈ (hashedTx raw other).inputs,
      out ∉ (hashedTx raw hash).inputs) (hpool : ∀ other ∈ v.pool, ¬(raw other).tx.isCoinBase)
    (maxTimestamp : Int) :
    Leads raw v.confirmed v.pool [acceptRow maxTimestamp hash] v.confirmed
      (insert hash v.pool) := by
  have hinputs := hashedTx_inputs htx.not_coinBase
  have hunspent : ∀ out ∈ (raw hash).tx.prevouts, ¬SpentOn (v.chainTxs raw) out := fun out hout =>
    (htx.available out (hinputs ▸ hout)).1
  refine .accept maxTimestamp (not_confirmed_of_unspent htx.nonempty htx.not_coinBase hunspent) hnew
    (hinputs ▸ htx.distinct) fun out hout => ?_
  have hparent : (out.hash ∈ v.confirmed ∨ out.hash ∈ v.pool) ∧
      out.n.toNat < (raw out.hash).tx.vout.length := by
    rcases (htx.available out (hinputs ▸ hout)).2 with hcreated | ⟨parent, hmem, hcreated⟩
    · obtain ⟨hconfirmed, hrange⟩ := created_on_chain hcreated
      exact ⟨.inl hconfirmed, hrange⟩
    · obtain ⟨heq, hrange⟩ := range_of_mem_outputs hcreated
      exact ⟨.inr (heq ▸ hmem), hrange⟩
  refine ⟨hparent.1, hparent.2, fun other hother hspent => ?_⟩
  rcases hother with hconfirmed | hother
  · exact not_spent_on_chain (hunspent out hout) hconfirmed hspent
  · exact hfree other hother out (hashedTx_inputs (hpool other hother) ▸ hspent) (hinputs ▸ hout)

theorem leads_rejects (h : v.Sound raw blocks start) {hashes : List Uint256}
    (hpeeling : Peeling (SpendsIn raw v.pool) (· ∈ v.pool) hashes) :
    Leads raw v.confirmed v.pool (hashes.map rejectRow) v.confirmed
      (v.pool \ {hash | hash ∈ hashes}) :=
  .rejects hpeeling fun _ hchild _ hparent _ hout heq => h.spends hchild hparent hout heq

theorem StartsWithCoinBase.nodup {vtx : List Uint256} {chain : List HashedTx}
    (h : StartsWithCoinBase raw vtx) (hvalid : ConsensusValid chain (vtx.map (hashedTx raw))) :
    vtx.Nodup := by
  obtain ⟨first, rest, rfl, hfirst, hrest⟩ := h
  refine List.nodup_cons.mpr ⟨fun hmem => hrest first hmem hfirst, ?_⟩
  have hdisjoint := hvalid.disjoint
  rw [List.map_cons] at hdisjoint
  refine (List.pairwise_map.mp hdisjoint.of_cons).imp_of_mem ?_
  rintro a b ha - hapart rfl
  obtain ⟨input, hinput⟩ := List.exists_mem_of_ne_nil _
    (hvalid.nonempty (hashedTx raw a) (List.mem_map_of_mem (.tail _ ha)))
  have hout : input.prevout ∈ (hashedTx raw a).prevouts := by
    rw [prevouts_eq_inputs (hrest a ha)]
    exact List.mem_map_of_mem hinput
  exact hapart _ hout hout

section Accept

variable {block : RawBlock} {conflictTxs already : List Uint256}

/-- What the sweep of the memory pool finds out about a block. -/
structure SweptBy (raw : RawTxs) (v : NodeView) (block : RawBlock)
    (conflictTxs already : List Uint256) : Prop where
  peeling : Peeling (SpendsIn raw v.pool) (· ∈ v.pool) conflictTxs
  conflict_iff : ∀ hash, hash ∈ conflictTxs ↔ Evicted raw v.pool block.blk.vtx hash
  foreign : ∀ hash ∈ block.blk.vtx, hash ∉ conflictTxs
  already_iff : ∀ hash ∈ block.blk.vtx, hash ∈ already ↔ hash ∈ v.pool

variable (hvalid : ConsensusValid (v.chainTxs raw) (block.blk.vtx.map (hashedTx raw)))
include hvalid

theorem prevout_of_block {done after : List Uint256} (hvtx : block.blk.vtx = done ++ hash :: after)
    {out : COutPoint} (hout : out ∈ (raw hash).tx.prevouts) :
    out.hash ∈ done.reverse ++ v.confirmed ∧ out.n.toNat < (raw out.hash).tx.vout.length ∧
      ¬SpentOn (v.chainTxs raw) out := by
  have hsplit : block.blk.vtx.map (hashedTx raw) =
      done.map (hashedTx raw) ++ hashedTx raw hash :: after.map (hashedTx raw) := by
    rw [hvtx, List.map_append, List.map_cons]
  obtain ⟨hunspent, hcreated | ⟨tx, htx, hcreated⟩⟩ := hvalid.available _ _ _ hsplit out hout
  · obtain ⟨hconfirmed, hrange⟩ := created_on_chain hcreated
    exact ⟨List.mem_append_right _ hconfirmed, hrange, hunspent⟩
  · obtain ⟨parent, hparent, rfl⟩ := List.mem_map.mp htx
    obtain ⟨heq, hrange⟩ := range_of_mem_outputs hcreated
    exact ⟨List.mem_append_left _ (List.mem_reverse.mpr (heq ▸ hparent)), hrange, hunspent⟩

theorem not_confirmed_of_block (hcoinBase : StartsWithCoinBase raw block.blk.vtx)
    (hfresh : ∀ first ∈ block.blk.vtx.head?, first ∉ v.confirmed) (hmem : hash ∈ block.blk.vtx) :
    hash ∉ v.confirmed := by
  obtain ⟨first, rest, hvtx, -, hrest⟩ := hcoinBase
  rw [hvtx] at hmem
  rcases List.mem_cons.mp hmem with rfl | hmem
  · exact hfresh _ (by simp [hvtx])
  · have hin : hash ∈ block.blk.vtx := hvtx ▸ .tail _ hmem
    obtain ⟨done, after, hsplit⟩ := List.append_of_mem hin
    exact not_confirmed_of_unspent (hvalid.nonempty _ (List.mem_map_of_mem hin)) (hrest hash hmem)
      fun out hout => (prevout_of_block hvalid hsplit hout).2.2

theorem free_of_block (hnodup : block.blk.vtx.Nodup)
    (hswept : v.SweptBy raw block conflictTxs already)
    (hpool : ∀ other ∈ v.pool, ¬(raw other).tx.isCoinBase) {done after : List Uint256}
    (hvtx : block.blk.vtx = done ++ hash :: after) (hnew : hash ∉ v.pool) {out : COutPoint}
    (hout : out ∈ (raw hash).tx.prevouts) {other : Uint256}
    (hother : other ∈ done.reverse ++ v.confirmed ∨ other ∈ v.pool ∧ other ∉ conflictTxs) :
    out ∉ (raw other).tx.prevouts := by
  intro hspent
  have hmem : hash ∈ block.blk.vtx := by simp [hvtx]
  rcases hother with hother | ⟨hother, hleft⟩
  · rcases List.mem_append.mp hother with hdone | hconfirmed
    · have hin : other ∈ block.blk.vtx := by
        rw [hvtx]
        exact List.mem_append_left _ (List.mem_reverse.mp hdone)
      have hne : hashedTx raw other ≠ hashedTx raw hash := fun heq => by
        obtain rfl : other = hash := congrArg HashedTx.hash heq
        rw [hvtx] at hnodup
        exact (List.nodup_append.mp hnodup).2.2 other (List.mem_reverse.mp hdone) other
          (.head _) rfl
      exact hvalid.apart (List.mem_map_of_mem hin) (List.mem_map_of_mem hmem) hne hspent hout
    · exact not_spent_on_chain (prevout_of_block hvalid hvtx hout).2.2 hconfirmed hspent
  · have hconflict : ConflictsWith raw block.blk.vtx other :=
      ⟨hash, hmem, fun heq => hnew (heq ▸ hother), out, hout,
        (hashedTx_inputs (hpool other hother)).symm ▸ hspent⟩
    exact hleft ((hswept.conflict_iff other).mpr ⟨other, hother, .refl, hconflict⟩)

theorem leads_blockTx (hcoinBase : StartsWithCoinBase raw block.blk.vtx)
    (hfresh : ∀ first ∈ block.blk.vtx.head?, first ∉ v.confirmed) (hheight : 0 ≤ block.blockHeight)
    (hswept : v.SweptBy raw block conflictTxs already)
    (hpool : ∀ other ∈ v.pool, ¬(raw other).tx.isCoinBase) (blockId maxTimestamp : Int)
    {done after : List Uint256} (hvtx : block.blk.vtx = done ++ hash :: after) :
    Leads raw (done.reverse ++ v.confirmed)
      ((v.pool \ {hash | hash ∈ conflictTxs}) \ {hash | hash ∈ done})
      ((if hash ∈ already then [] else [acceptRow maxTimestamp hash]) ++
        [blockRow .txConfirm block blockId maxTimestamp hash])
      ((done ++ [hash]).reverse ++ v.confirmed)
      ((v.pool \ {hash | hash ∈ conflictTxs}) \ {x | x ∈ done ++ [hash]}) := by
  have hnodup := hcoinBase.nodup hvalid
  have hmem : hash ∈ block.blk.vtx := by simp [hvtx]
  have hfreshHash : hash ∉ done := fun hdone => by
    rw [hvtx] at hnodup
    exact (List.nodup_append.mp hnodup).2.2 hash hdone hash (.head _) rfl
  have hparents : ∀ out ∈ (raw hash).tx.prevouts, out.hash ∈ done.reverse ++ v.confirmed :=
    fun out hout => (prevout_of_block hvalid hvtx hout).1
  have hdone : {x | x ∈ done ++ [hash]} = {x | x ∈ done} ∪ {hash} := by
    ext x
    simp [or_comm]
  rw [List.reverse_append, List.reverse_singleton, List.singleton_append, List.cons_append, hdone,
    ← Set.sdiff_sdiff]
  by_cases halready : hash ∈ already
  · rw [if_pos halready, List.nil_append]
    exact .confirm block blockId maxTimestamp hheight
      ⟨⟨(hswept.already_iff hash hmem).mp halready, hswept.foreign hash hmem⟩, hfreshHash⟩ hparents
  · have hnew : hash ∉ v.pool := fun hin => halready ((hswept.already_iff hash hmem).mpr hin)
    rw [if_neg halready]
    have haccept : Leads raw (done.reverse ++ v.confirmed)
        ((v.pool \ {hash | hash ∈ conflictTxs}) \ {hash | hash ∈ done})
        [acceptRow maxTimestamp hash] (done.reverse ++ v.confirmed)
        (insert hash ((v.pool \ {hash | hash ∈ conflictTxs}) \ {hash | hash ∈ done})) := by
      refine .accept maxTimestamp (fun hin => ?_) (fun hin => hnew hin.1.1)
        (hvalid.distinct _ (List.mem_map_of_mem hmem)) fun out hout =>
          ⟨.inl (hparents out hout), (prevout_of_block hvalid hvtx hout).2.1, fun other hother =>
            free_of_block hvalid hnodup hswept hpool hvtx hnew hout
              (hother.imp_right fun hin => hin.1)⟩
      rcases List.mem_append.mp hin with hin | hin
      · exact hfreshHash (List.mem_reverse.mp hin)
      · exact not_confirmed_of_block hvalid hcoinBase hfresh hmem hin
    have hconfirm := Leads.confirm block blockId maxTimestamp hheight
      (Set.mem_insert hash ((v.pool \ {hash | hash ∈ conflictTxs}) \ {hash | hash ∈ done})) hparents
    rw [Set.insert_sdiff_self_of_notMem fun hin => hnew hin.1.1] at hconfirm
    rw [Set.sdiff_singleton_eq_self fun hin => hnew hin.1.1]
    exact haccept.append hconfirm

theorem leads_block (h : v.Sound raw blocks start)
    (hcoinBase : StartsWithCoinBase raw block.blk.vtx)
    (hfresh : ∀ first ∈ block.blk.vtx.head?, first ∉ v.confirmed) (hheight : 0 ≤ block.blockHeight)
    (hswept : v.SweptBy raw block conflictTxs already) (blockId maxTimestamp : Int) :
    Leads raw v.confirmed v.pool (blockAcceptRows conflictTxs already block blockId maxTimestamp)
      (v.accept raw block).confirmed (v.accept raw block).pool := by
  have htxs : ∀ done after, block.blk.vtx = done ++ after →
      Leads raw (done.reverse ++ v.confirmed)
        ((v.pool \ {hash | hash ∈ conflictTxs}) \ {hash | hash ∈ done})
        (after.flatMap fun hash => (if hash ∈ already then [] else [acceptRow maxTimestamp hash]) ++
          [blockRow .txConfirm block blockId maxTimestamp hash])
        (block.blk.vtx.reverse ++ v.confirmed)
        ((v.pool \ {hash | hash ∈ conflictTxs}) \ {hash | hash ∈ block.blk.vtx}) := by
    intro done after hvtx
    induction after generalizing done with
    | nil =>
        rw [List.append_nil] at hvtx
        rw [hvtx]
        exact .nil
    | cons hash after ih =>
        rw [List.flatMap_cons]
        exact (leads_blockTx hvalid hcoinBase hfresh hheight hswept h.not_coinBase blockId
          maxTimestamp hvtx).append (ih (done ++ [hash]) (by simpa using hvtx))
  have hall := (leads_rejects h hswept.peeling).append
    (by simpa using htxs [] block.blk.vtx rfl)
  have hpool : (v.accept raw block).pool =
      (v.pool \ {hash | hash ∈ conflictTxs}) \ {hash | hash ∈ block.blk.vtx} := by
    ext hash
    simp only [accept, Set.mem_ofPred_eq, Set.mem_sdiff, hswept.conflict_iff]
    tauto
  rw [hpool]
  exact hall

end Accept

/-! ### A rollback -/

theorem leads_unconfirms (block : RawBlock) (blockId maxTimestamp : Int) (hashes c : List Uint256)
    (pool : Set Uint256) :
    Leads raw (hashes ++ c) pool (hashes.map (blockRow .txUnconfirm block blockId maxTimestamp)) c
      (pool ∪ {hash | hash ∈ hashes}) := by
  induction hashes generalizing pool with
  | nil => simpa using Leads.nil
  | cons hash hashes ih =>
      have hall : pool ∪ {x | x ∈ hash :: hashes} = insert hash pool ∪ {x | x ∈ hashes} := by
        ext x
        simp only [List.mem_cons, Set.mem_union, Set.mem_ofPred_eq, Set.mem_insert_iff]
        tauto
      rw [List.map_cons, ← List.singleton_append (l := hashes.map _), hall]
      exact (Leads.unconfirm block blockId maxTimestamp).append (ih (insert hash pool))

theorem leads_rollback (h : v.Sound raw blocks start) {block : RawBlock} {below : List RawBlock}
    (hchain : v.chain = block :: below)
    (hmature : ∀ first ∈ block.blk.vtx.head?, ∀ child, child ∈ v.pool ∨ child ∈ block.blk.vtx →
      ∀ out ∈ (raw child).tx.prevouts, out.hash ≠ first) (blockId maxTimestamp : Int) :
    Leads raw v.confirmed v.pool (blockRollbackRows block blockId maxTimestamp)
      (v.rollback raw).confirmed (v.rollback raw).pool := by
  have hsound := h.chain
  rw [hchain] at hsound
  obtain ⟨first, rest, hvtx, hfirst, hrest⟩ := hsound.1.coinBase
  have hunconfirm : Leads raw _ _ _ _ _ := leads_unconfirms block blockId maxTimestamp
    block.blk.vtx.reverse (v.rollback raw).confirmed v.pool
  have hconfirmed : block.blk.vtx.reverse ++ (v.rollback raw).confirmed = v.confirmed := by
    rw [confirmed, confirmed, rollback, hchain, List.tail_cons, confirmedOn]
  rw [hconfirmed] at hunconfirm
  have hreject : Leads raw (v.rollback raw).confirmed
      (v.pool ∪ {hash | hash ∈ block.blk.vtx.reverse})
      [blockRow .txReject block blockId maxTimestamp first] (v.rollback raw).confirmed
      ((v.pool ∪ {hash | hash ∈ block.blk.vtx.reverse}) \ {first}) := by
    refine .reject (fun _ => rfl) (fun _ => rfl) (.inr (by simp [hvtx])) fun child hchild =>
      hmature first (by simp [hvtx]) child ?_
    exact hchild.imp_right fun hin => List.mem_reverse.mp hin
  have hpool : (v.rollback raw).pool =
      (v.pool ∪ {hash | hash ∈ block.blk.vtx.reverse}) \ {first} := by
    ext hash
    simp only [rollback, hchain, List.head?_cons, Option.mem_some_iff, exists_eq_left', hvtx,
      Set.mem_union, Set.mem_ofPred_eq, Set.mem_sdiff, Set.mem_singleton_iff, List.mem_reverse,
      List.mem_cons]
    constructor
    · rintro (hin | ⟨heq | hin, hcb⟩)
      · exact ⟨.inl hin, fun heq => h.not_coinBase hash hin (heq ▸ hfirst)⟩
      · exact absurd (heq ▸ hfirst) hcb
      · exact ⟨.inr (.inr hin), fun heq => hcb (heq ▸ hfirst)⟩
    · rintro ⟨hin | heq | hin, hne⟩
      · exact .inl hin
      · exact absurd heq hne
      · exact .inr ⟨.inr hin, hrest hash hin⟩
  rw [hpool]
  have hrows : blockRollbackRows block blockId maxTimestamp =
      block.blk.vtx.reverse.map (blockRow .txUnconfirm block blockId maxTimestamp) ++
        [blockRow .txReject block blockId maxTimestamp first] := by
    rw [blockRollbackRows, hvtx]
    rfl
  rw [hrows]
  exact hunconfirm.append hreject

end NodeView

end ExplorerKV.Log2

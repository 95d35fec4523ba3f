import ExplorerKV.Log2.MemTxRepository

/-!
# Conflicts of the pool with a block

The first part of `handleBlockAccept`: each transaction of the block is put into
the repository, and as long as it conflicts, a leaf above the conflict is
removed.  At the end the transactions of the block are removed.
-/

namespace ExplorerKV.Log2

open Bitcoin Foundation

structure Sweep where
  repo : MemTxRepository
  txHashs : List Uint256
  alreadyInMemTxHashs : Finset Uint256
  conflictTxs : List Uint256

namespace MemTxRepository

/-- `while (memRepo_.addTx(tx) == false)` -/
def evictConflicts : Nat → MemTxRepository → HashedTx → List Uint256 →
    RepoResult (MemTxRepository × List Uint256)
  | 0, _, _, _ => .error .diverge
  | rounds + 1, m, tx, conflictTxs => do
      let (added, m) ← m.addTx tx
      if added then return (m, conflictTxs)
      else
        let conflictTx ← getConflictTx rounds m tx
        if conflictTx = tx.hash then .error .conflictIsSelf
        else
          let m ← m.removeTx conflictTx
          evictConflicts rounds m tx (conflictTxs ++ [conflictTx])

def sweepTx (rounds : Nat) (s : Sweep) (tx : HashedTx) : RepoResult Sweep :=
  if tx.isCoinBase then .ok s
  else if s.repo.isExist tx.hash then
    .ok { s with
      txHashs := s.txHashs ++ [tx.hash]
      alreadyInMemTxHashs := insert tx.hash s.alreadyInMemTxHashs }
  else do
    let (repo, conflictTxs) ← evictConflicts rounds s.repo tx s.conflictTxs
    return { s with
      repo := repo
      txHashs := s.txHashs ++ [tx.hash]
      conflictTxs := conflictTxs }

def sweepBlock (rounds : Nat) (m : MemTxRepository) (vtx : List HashedTx) : RepoResult Sweep := do
  let s ← vtx.foldlM (sweepTx rounds) ⟨m, [], ∅, []⟩
  if s.conflictTxs.Nodup then
    let repo ← s.repo.removeTxs s.txHashs
    return { s with repo := repo }
  else .error .conflictRepeated

end MemTxRepository

/-! ## Valid blocks -/

def SpentOn (chain : List HashedTx) (out : COutPoint) : Prop := ∃ tx ∈ chain, out ∈ tx.prevouts

def CreatedOn (chain : List HashedTx) (out : COutPoint) : Prop := ∃ tx ∈ chain, out ∈ tx.outputs

structure ConsensusValid (chain vtx : List HashedTx) : Prop where
  available : ∀ before tx after, vtx = before ++ tx :: after → ∀ out ∈ tx.prevouts,
    ¬SpentOn chain out ∧ (CreatedOn chain out ∨ ∃ p ∈ before, out ∈ p.outputs)
  disjoint : vtx.Pairwise fun a b => ∀ out ∈ a.prevouts, out ∉ b.prevouts
  distinct : ∀ tx ∈ vtx, tx.prevouts.Nodup
  nonempty : ∀ tx ∈ vtx, tx.vin ≠ []

/-- The pool belongs to the chain, and a hash names one transaction. -/
structure PoolOf (m : MemTxRepository) (chain vtx : List HashedTx) : Prop where
  not_coinBase : ∀ hash tx, m.txs hash = some tx → ¬tx.isCoinBase
  unspent : ∀ hash tx, m.txs hash = some tx → ∀ out ∈ tx.inputs, ¬SpentOn chain out
  named : ∀ a b, a ∈ chain ∨ a ∈ vtx ∨ m.txs a.hash = some a →
    b ∈ chain ∨ b ∈ vtx ∨ m.txs b.hash = some b → a.hash = b.hash → a = b

/-- The transaction spends an outpoint that another transaction of the block spends. -/
def Conflicting (m : MemTxRepository) (vtx : List HashedTx) (hash : Uint256) : Prop :=
  ∃ tx, m.txs hash = some tx ∧ ∃ b ∈ vtx, b.hash ≠ hash ∧ ∃ out ∈ b.prevouts, out ∈ tx.inputs

theorem ConsensusValid.apart {chain vtx : List HashedTx} (h : ConsensusValid chain vtx)
    {a b : HashedTx} (ha : a ∈ vtx) (hb : b ∈ vtx) (hne : a ≠ b) {out : COutPoint}
    (hout : out ∈ a.prevouts) : out ∉ b.prevouts := by
  have : Std.Symm fun a b : HashedTx => ∀ out ∈ a.prevouts, out ∉ b.prevouts :=
    ⟨fun _ _ hab out hb ha => hab out ha hb⟩
  exact h.disjoint.forall ha hb hne out hout

theorem prevouts_eq_inputs {tx : HashedTx} (h : ¬tx.isCoinBase) : tx.prevouts = tx.inputs :=
  CTransaction.prevouts_of_not_isCoinBase h

theorem ConsensusValid.not_mem_before {chain done after : List HashedTx} {b : HashedTx}
    (h : ConsensusValid chain (done ++ b :: after)) (hb : ¬b.isCoinBase) : b ∉ done := by
  intro hmem
  obtain ⟨input, vin, hvin⟩ := List.exists_cons_of_ne_nil (h.nonempty b (by simp))
  have hout : input.prevout ∈ b.prevouts := by
    rw [prevouts_eq_inputs hb, HashedTx.inputs, hvin]
    exact List.mem_cons_self
  exact (List.pairwise_append.mp h.disjoint).2.2 b hmem b (.head _) _ hout hout

namespace MemTxRepository

/-- The repository holds transactions of the pool and of the block. -/
def DrawnFrom (r m : MemTxRepository) (vtx : List HashedTx) : Prop :=
  ∀ hash tx, r.txs hash = some tx → tx.hash = hash ∧ ¬tx.isCoinBase ∧
    (m.txs hash = some tx ∨ tx ∈ vtx)

/--
What a transaction of the block spends in the repository comes earlier in the
block, if it has an input itself: on the chain that input would be spent.
-/
theorem parent_earlier {m r : MemTxRepository} {chain vtx before after : List HashedTx}
    {c p : HashedTx} {child parent : Uint256} {out : COutPoint} (hpool : PoolOf m chain vtx)
    (hvalid : ConsensusValid chain vtx) (hdrawn : r.DrawnFrom m vtx)
    (hsplit : vtx = before ++ c :: after) (hc : r.txs child = some c)
    (hspends : r.Spends child parent) (hp : r.txs parent = some p) (hout : out ∈ p.inputs) :
    ∃ q ∈ before, q.hash = parent := by
  obtain ⟨c', p', hc', hp', spent, hspent, hin⟩ := hspends
  obtain rfl : c = c' := Option.some.inj (hc.symm.trans hc')
  obtain rfl : p = p' := Option.some.inj (hp.symm.trans hp')
  obtain ⟨-, hcoinBase, -⟩ := hdrawn child c hc
  obtain ⟨hkey, hparent, hfrom⟩ := hdrawn parent p hp
  rw [← prevouts_eq_inputs hcoinBase] at hin
  have hsame : ∀ q : HashedTx, spent ∈ q.outputs → q.hash = p.hash := fun q hcreated =>
    (HashedTx.hash_of_mem_outputs hcreated).symm.trans (HashedTx.hash_of_mem_outputs hspent)
  rcases (hvalid.available before c after hsplit spent hin).2 with
    ⟨q, hq, hcreated⟩ | ⟨q, hq, hcreated⟩
  · have hknown : p ∈ chain ∨ p ∈ vtx ∨ m.txs p.hash = some p :=
      .inr (hfrom.symm.imp_right fun hold => by rw [hkey]; exact hold)
    obtain rfl := hpool.named q p (.inl hq) hknown (hsame q hcreated)
    have hgone : SpentOn chain out := ⟨q, hq, prevouts_eq_inputs hparent ▸ hout⟩
    rcases hfrom with hold | hnew
    · exact absurd hgone (hpool.unspent parent q hold out hout)
    · obtain ⟨before', after', hsplit'⟩ := List.append_of_mem hnew
      exact absurd hgone (hvalid.available before' q after' hsplit' out
        (prevouts_eq_inputs hparent ▸ hout)).1
  · exact ⟨q, hq, (hsame q hcreated).trans hkey⟩

/-- After the transactions `done` of the block. -/
structure Sweeping (m : MemTxRepository) (vtx done : List HashedTx) (repo : MemTxRepository)
    (conflictTxs : List Uint256) : Prop where
  wellKept : repo.WellKept
  gone : ∀ hash ∈ conflictTxs, repo.txs hash = none
  kept : ∀ hash tx, hash ∉ conflictTxs → m.txs hash = some tx → repo.txs hash = some tx
  added : ∀ b ∈ done, ¬b.isCoinBase → repo.txs b.hash = some b
  known : ∀ hash tx, repo.txs hash = some tx →
    m.txs hash = some tx ∨ tx ∈ done ∧ ¬tx.isCoinBase ∧ tx.hash = hash
  peeling : Peeling m.Spends (fun hash => m.isExist hash) conflictTxs
  foreign : ∀ hash ∈ conflictTxs, ∀ b ∈ vtx, b.hash ≠ hash
  conflicting : ∀ hash ∈ conflictTxs, ∃ c, Relation.ReflTransGen m.Spends hash c ∧
    Conflicting m vtx c

section Sweeping

variable {m repo repo' : MemTxRepository} {chain vtx done after : List HashedTx}
  {conflictTxs : List Uint256} {b tx : HashedTx} {hash : Uint256}

theorem Sweeping.start (hm : m.WellKept) : m.Sweeping vtx [] m [] where
  wellKept := hm
  gone := by simp
  kept _ _ _ htx := htx
  added := by simp
  known _ _ htx := .inl htx
  peeling := .nil
  foreign := by simp
  conflicting := by simp

variable (h : m.Sweeping vtx done repo conflictTxs) (hpool : PoolOf m chain vtx)
  (hvalid : ConsensusValid chain vtx) (hvtx : vtx = done ++ b :: after)
include h hpool

theorem Sweeping.eq_of_hash (hdone : done ⊆ vtx) (htx : repo.txs hash = some tx) (hb : b ∈ vtx)
    (heq : b.hash = hash) : b = tx := by
  have hkey := h.wellKept.keyed hash tx htx
  refine hpool.named b tx (.inr (.inl hb)) ?_ (heq.trans hkey.symm)
  rcases h.known hash tx htx with hold | ⟨hmem, -, -⟩
  · exact .inr (.inr (hkey.symm ▸ hold))
  · exact .inr (.inl (hdone hmem))

theorem Sweeping.not_coinBase (htx : repo.txs hash = some tx) : ¬tx.isCoinBase := by
  rcases h.known hash tx htx with hold | ⟨-, hnot, -⟩
  · exact hpool.not_coinBase hash tx hold
  · exact hnot

omit hpool in
theorem Sweeping.original (hdone : done ⊆ vtx) (htx : repo.txs hash = some tx)
    (hforeign : ∀ b ∈ vtx, b.hash ≠ hash) : m.txs hash = some tx := by
  rcases h.known hash tx htx with hold | ⟨hmem, -, heq⟩
  · exact hold
  · exact absurd heq (hforeign tx (hdone hmem))

theorem Sweeping.drawnFrom (hdone : done ⊆ vtx) : repo.DrawnFrom m vtx := fun hash tx htx =>
  ⟨h.wellKept.keyed hash tx htx, h.not_coinBase hpool htx,
    (h.known hash tx htx).imp_right fun hnew => hdone hnew.1⟩

include hvalid in
theorem Sweeping.foreign_child (hdone : done ⊆ vtx) {child parent : Uint256}
    (hspends : repo.Spends child parent) (hforeign : ∀ b ∈ vtx, b.hash ≠ parent)
    {out : COutPoint} (htx : repo.txs parent = some tx) (hout : out ∈ tx.inputs) :
    ∀ b ∈ vtx, b.hash ≠ child := by
  intro b hb heq
  obtain ⟨c, -, hc, -⟩ := id hspends
  obtain rfl := h.eq_of_hash hpool hdone hc hb heq
  obtain ⟨before, after, hsplit⟩ := List.append_of_mem hb
  obtain ⟨q, hq, hparent⟩ := parent_earlier hpool hvalid (h.drawnFrom hpool hdone) hsplit hc
    hspends htx hout
  exact hforeign q (hsplit ▸ List.mem_append_left _ hq) hparent

include hvalid in
theorem Sweeping.descendant (hdone : done ⊆ vtx) {c : Uint256} (hc : repo.txs c = some tx)
    {out : COutPoint} (hout : out ∈ tx.inputs) (hforeign : ∀ b ∈ vtx, b.hash ≠ c)
    (hpath : Relation.ReflTransGen repo.Spends hash c) :
    (∀ b ∈ vtx, b.hash ≠ hash) ∧ Relation.ReflTransGen m.Spends hash c ∧
      ∃ tx', repo.txs hash = some tx' ∧ ∃ out, out ∈ tx'.inputs := by
  induction hpath using Relation.ReflTransGen.head_induction_on with
  | refl => exact ⟨hforeign, .refl, tx, hc, out, hout⟩
  | @head child parent hspends _ ih =>
      obtain ⟨hparent, hbelow, p, hp, out', hout'⟩ := ih
      have hchild := h.foreign_child hpool hvalid hdone hspends hparent hp hout'
      obtain ⟨ctx, ptx, hctx, hptx, spent, hspent, hin⟩ := hspends
      exact ⟨hchild, .head ⟨ctx, ptx, h.original hdone hctx hchild,
        h.original hdone hptx hparent, spent, hspent, hin⟩ hbelow, ctx, hctx, spent, hin⟩

include hvtx hvalid in
theorem Sweeping.spender_foreign (hb : ¬b.isCoinBase) (hnew : ¬repo.isExist b.hash)
    (htx : repo.txs hash = some tx) {out : COutPoint} (hout : out ∈ b.inputs)
    (hin : out ∈ tx.inputs) : ∀ b' ∈ vtx, b'.hash ≠ hash := by
  intro b' hb' heq
  have hdone : done ⊆ vtx := by rw [hvtx]; exact List.subset_append_left _ _
  obtain rfl := h.eq_of_hash hpool hdone htx hb' heq
  have hne : b ≠ b' := fun hsame => hnew (by
    rw [isExist, hsame, heq, htx]
    rfl)
  have hmem : b ∈ vtx := by simp [hvtx]
  rw [← prevouts_eq_inputs hb] at hout
  rw [← prevouts_eq_inputs (h.not_coinBase hpool htx)] at hin
  exact hvalid.apart hmem hb' hne hout hin

include hvtx hvalid in
theorem Sweeping.evict (hb : ¬b.isCoinBase) (hnew : ¬repo.isExist b.hash) {c leaf : Uint256}
    (htx : repo.txs c = some tx) {out : COutPoint} (hout : out ∈ b.inputs) (hin : out ∈ tx.inputs)
    (hexist : repo.isExist leaf) (hpath : Relation.ReflTransGen repo.Spends leaf c)
    (hleaf : ∀ d, ¬repo.Spends d leaf) (hwithout : repo.Without leaf repo') :
    m.Sweeping vtx done repo' (conflictTxs ++ [leaf]) := by
  have hdone : done ⊆ vtx := by rw [hvtx]; exact List.subset_append_left _ _
  have hmem : b ∈ vtx := by simp [hvtx]
  have hforeign := h.spender_foreign hpool hvalid hvtx hb hnew htx hout hin
  obtain ⟨hnot, hbelow, -⟩ := h.descendant hpool hvalid hdone htx hin hforeign hpath
  obtain ⟨ltx, hltx⟩ := Option.isSome_iff_exists.mp hexist
  have hfresh : leaf ∉ conflictTxs := fun hgone => by simp [h.gone leaf hgone] at hltx
  refine ⟨hwithout.wellKept, fun hash hmem' => ?_, fun hash tx' hnot' htx' => ?_,
    fun b' hb' hcb => ?_,
    fun hash tx' htx' => h.known hash tx' ((txs_of_without hwithout.txs).mp htx').2,
    peeling_snoc h.peeling h.kept (by rw [isExist, h.original hdone hltx hnot]; rfl) hfresh hleaf,
    fun hash hmem' b' hb' => ?_, fun hash hmem' => ?_⟩
  · rw [hwithout.txs]
    rcases List.mem_append.mp hmem' with hold | hlast
    · by_cases heq : hash = leaf
      · simp [heq]
      · simp [heq, h.gone hash hold]
    · simp [List.mem_singleton.mp hlast]
  · rw [List.mem_append, List.mem_singleton, not_or] at hnot'
    exact (txs_of_without hwithout.txs).mpr ⟨hnot'.2, h.kept hash tx' hnot'.1 htx'⟩
  · exact (txs_of_without hwithout.txs).mpr ⟨hnot b' (hdone hb'), h.added b' hb' hcb⟩
  · rcases List.mem_append.mp hmem' with hold | hlast
    · exact h.foreign hash hold b' hb'
    · exact List.mem_singleton.mp hlast ▸ hnot b' hb'
  · rcases List.mem_append.mp hmem' with hold | hlast
    · exact h.conflicting hash hold
    · obtain rfl := List.mem_singleton.mp hlast
      exact ⟨c, hbelow, tx, h.original hdone htx hforeign, b, hmem, hforeign b hmem, out,
        prevouts_eq_inputs hb ▸ hout, hin⟩

omit hpool in
theorem Sweeping.next (hadd : ¬b.isCoinBase → repo.txs b.hash = some b) :
    m.Sweeping vtx (done ++ [b]) repo conflictTxs where
  wellKept := h.wellKept
  gone := h.gone
  kept := h.kept
  added b' hb' hcb := by
    rcases List.mem_append.mp hb' with hold | hlast
    · exact h.added b' hold hcb
    · exact List.mem_singleton.mp hlast ▸ hadd (List.mem_singleton.mp hlast ▸ hcb)
  known hash tx htx :=
    (h.known hash tx htx).imp_right fun hnew => ⟨List.mem_append_left _ hnew.1, hnew.2⟩
  peeling := h.peeling
  foreign := h.foreign
  conflicting := h.conflicting

include hvtx hvalid in
theorem Sweeping.not_cycle (hb : ¬b.isCoinBase)
    (htxs : repo'.txs = Function.update repo.txs b.hash (some b)) :
    ¬Relation.TransGen repo'.Spends b.hash b.hash := by
  have hdone : done ⊆ vtx := by rw [hvtx]; exact List.subset_append_left _ _
  have hmem : b ∈ vtx := by simp [hvtx]
  have hdrawn : repo'.DrawnFrom m vtx := fun hash tx htx => by
    by_cases heq : hash = b.hash
    · rw [htxs, heq, Function.update_self] at htx
      obtain rfl := Option.some.inj htx
      exact ⟨heq.symm, hb, .inr hmem⟩
    · rw [htxs, Function.update_of_ne heq] at htx
      exact h.drawnFrom hpool hdone hash tx htx
  have hself : repo'.txs b.hash = some b := by rw [htxs, Function.update_self]
  have hup : ∀ parent, Relation.TransGen repo'.Spends b.hash parent → ∀ p out,
      repo'.txs parent = some p → out ∈ p.inputs → ∃ q ∈ done, q.hash = parent := by
    intro parent hpath
    induction hpath with
    | single hspends =>
        intro p out hp hout
        exact parent_earlier hpool hvalid hdrawn hvtx hself hspends hp hout
    | @tail child parent _ hspends ih =>
        intro p out hp hout
        obtain ⟨c, -, hc, -, spent, -, hin⟩ := id hspends
        obtain ⟨q, hq, hchild⟩ := ih c spent hc hin
        obtain ⟨hkey, -, hfrom⟩ := hdrawn child c hc
        obtain rfl := hpool.named q c (.inr (.inl (hdone hq)))
          (.inr (hfrom.symm.imp_right fun hold => by rw [hkey]; exact hold))
            (hchild.trans hkey.symm)
        obtain ⟨before, between, hsplit⟩ := List.append_of_mem hq
        obtain ⟨q', hq', hparent⟩ := parent_earlier hpool hvalid hdrawn
          (by rw [hvtx, hsplit, List.append_assoc, List.cons_append]) hc hspends hp hout
        exact ⟨q', hsplit ▸ List.mem_append_left _ hq', hparent⟩
  intro hcycle
  obtain ⟨next, ⟨c, -, hc, -, spent, -, hin⟩, -⟩ := Relation.TransGen.head'_iff.mp hcycle
  obtain rfl := Option.some.inj (hself.symm.trans hc)
  obtain ⟨q, hq, heq⟩ := hup b.hash hcycle b spent hself hin
  obtain rfl := hpool.named q b (.inr (.inl (hdone hq))) (.inr (.inl hmem)) heq
  exact (hvtx ▸ hvalid).not_mem_before hb hq

include hvtx hvalid in
theorem Sweeping.add (hb : ¬b.isCoinBase) (hnew : ¬repo.isExist b.hash)
    (hfree : ∀ out ∈ b.inputs, repo.spentOutputs out = none) :
    ∃ repo', repo.addTx b = .ok (true, repo') ∧
      m.Sweeping vtx (done ++ [b]) repo' conflictTxs := by
  have hmem : b ∈ vtx := by simp [hvtx]
  obtain ⟨repo', hadd, htxs, hexact⟩ := addTx_spec h.wellKept.exact_spenders hb hnew hfree
  have hself : repo'.txs b.hash = some b := by rw [htxs, Function.update_self]
  have hother : ∀ hash tx, repo.txs hash = some tx → repo'.txs hash = some tx :=
    fun hash tx htx => by
      rw [htxs, Function.update_of_ne fun heq : hash = b.hash => hnew (by
        rw [isExist, ← heq, htx]
        rfl)]
      exact htx
  refine ⟨repo', hadd, h.wellKept.insert htxs hexact
      (prevouts_eq_inputs hb ▸ hvalid.distinct b hmem)
    (h.not_cycle hpool hvalid hvtx hb htxs), fun hash hgone => ?_,
    fun hash tx hnot htx => hother hash tx (h.kept hash tx hnot htx), fun b' hb' hcb => ?_,
    fun hash tx htx => ?_, h.peeling, h.foreign, h.conflicting⟩
  · rw [htxs, Function.update_of_ne (h.foreign hash hgone b hmem).symm]
    exact h.gone hash hgone
  · rcases List.mem_append.mp hb' with hold | hlast
    · exact hother _ _ (h.added b' hold hcb)
    · rw [List.mem_singleton.mp hlast]
      exact hself
  · by_cases heq : hash = b.hash
    · rw [heq, hself] at htx
      obtain rfl := Option.some.inj htx
      exact .inr ⟨by simp, hb, heq.symm⟩
    · rw [htxs, Function.update_of_ne heq] at htx
      exact (h.known hash tx htx).imp_right fun hnew => ⟨List.mem_append_left _ hnew.1, hnew.2⟩

include hvtx hvalid in
theorem Sweeping.evictConflicts_spec {bound : Nat}
    (hbound : ∀ l : List Uint256, l.Nodup → l.length ≤ bound) (spare : Nat)
    (hspare : bound < conflictTxs.length + spare) (hb : ¬b.isCoinBase)
    (hnew : ¬repo.isExist b.hash) :
    ∃ repo' conflictTxs', Returns (fun rounds => evictConflicts rounds repo b conflictTxs)
        (repo', conflictTxs') ∧ m.Sweeping vtx (done ++ [b]) repo' conflictTxs' := by
  induction spare generalizing repo conflictTxs with
  | zero => exact absurd (hbound _ h.peeling.nodup) (by omega)
  | succ spare ih =>
      cases hfirst : repo.firstSpender b.inputs with
      | none =>
          obtain ⟨repo', hadd, hsweep⟩ := h.add hpool hvalid hvtx hb hnew
            (firstSpender_eq_none.mp hfirst)
          refine ⟨repo', conflictTxs, .of_eventually (.of_forall fun _ => trivial)
            fun rounds _ => ?_, hsweep⟩
          simp [evictConflicts, hadd, bind, Except.bind, pure, Except.pure]
      | some spender =>
          obtain ⟨out, hout, c, hc, hin⟩ := firstSpender_eq_some h.wellKept.exact_spenders hfirst
          have hspent : b.inputs.any fun out => (repo.spentOutputs out).isSome :=
            List.any_eq_true.mpr ⟨out, hout, by
              rw [h.wellKept.exact_spenders.spender_of_mem hc hin]
              rfl⟩
          have hrefused : repo.addTx b = .ok (false, repo) := by
            rw [addTx, if_neg hb, if_neg hnew, if_pos hspent]
          have hne : spender ≠ b.hash := fun heq => hnew (by
            rw [isExist, ← heq, hc]
            rfl)
          obtain ⟨leaf, hwalk, hexist, hpath, hleaf⟩ := getSpentEndTx_spec h.wellKept hc
          obtain ⟨repo₁, hremove, hwithout⟩ := removeTx_spec h.wellKept hexist
          have hevict := h.evict hpool hvalid hvtx hb hnew hc hout hin hexist hpath hleaf hwithout
          have hself : leaf ≠ b.hash := fun heq => hnew (heq ▸ hexist)
          have hnew₁ : ¬repo₁.isExist b.hash := by
            rw [isExist, hwithout.txs, Function.update_of_ne hself.symm]
            exact hnew
          obtain ⟨repo', conflictTxs', hreturns, hsweep⟩ := ih hevict
            (by rw [List.length_append, List.length_singleton]; omega) hnew₁
          refine ⟨repo', conflictTxs', .of_eventually (hwalk.and hreturns) ?_, hsweep⟩
          rintro rounds ⟨hleaf', hloop⟩
          have hconflict : getConflictTx rounds repo b = .ok leaf := by
            simp only [getConflictTx, hfirst, if_neg hne, hc]
            exact hleaf'
          simp only [evictConflicts, hrefused]
          simpa [bind, Except.bind, hconflict, hself, hremove] using hloop

end Sweeping

section Block

variable {m : MemTxRepository} {chain vtx done : List HashedTx} {s : Sweep}

/-- The hashes that `handleBlockAccept` collects. -/
def pooledHashs (txs : List HashedTx) : List Uint256 :=
  (txs.filter fun tx => !tx.isCoinBase).map (·.hash)

variable (hpool : PoolOf m chain vtx) (hvalid : ConsensusValid chain vtx)
include hpool hvalid

theorem sweepTx_spec {b : HashedTx} {after : List HashedTx}
    (h : m.Sweeping vtx done s.repo s.conflictTxs) (hvtx : vtx = done ++ b :: after) :
    ∃ s', Returns (fun rounds => sweepTx rounds s b) s' ∧
      m.Sweeping vtx (done ++ [b]) s'.repo s'.conflictTxs ∧
      s'.txHashs = s.txHashs ++ pooledHashs [b] := by
  by_cases hb : b.isCoinBase
  · exact ⟨s, .of_forall fun rounds => by simp [sweepTx, hb], h.next (absurd hb),
      by simp [pooledHashs, hb]⟩
  · by_cases hnew : s.repo.isExist b.hash
    · obtain ⟨tx, htx⟩ := Option.isSome_iff_exists.mp hnew
      obtain rfl := h.eq_of_hash hpool (by rw [hvtx]; exact List.subset_append_left _ _) htx
        (by simp [hvtx]) rfl
      exact ⟨⟨s.repo, s.txHashs ++ [b.hash], insert b.hash s.alreadyInMemTxHashs, s.conflictTxs⟩,
        .of_forall fun rounds => by simp [sweepTx, hb, hnew], h.next fun _ => htx,
        by simp [pooledHashs, hb]⟩
    · obtain ⟨bound, hbound⟩ := exists_length_bound Uint256
      obtain ⟨repo', conflictTxs', hreturns, hsweep⟩ := h.evictConflicts_spec hpool hvalid hvtx
        hbound (bound + 1) (by omega) hb hnew
      refine ⟨⟨repo', s.txHashs ++ [b.hash], s.alreadyInMemTxHashs, conflictTxs'⟩, ?_, hsweep,
        by simp [pooledHashs, hb]⟩
      filter_upwards [hreturns] with rounds hrounds
      rw [sweepTx, if_neg hb, if_neg hnew, hrounds]
      rfl

theorem sweepTxs_spec (after : List HashedTx) (h : m.Sweeping vtx done s.repo s.conflictTxs)
    (hvtx : vtx = done ++ after) :
    ∃ s', Returns (fun rounds => after.foldlM (sweepTx rounds) s) s' ∧
      m.Sweeping vtx vtx s'.repo s'.conflictTxs ∧ s'.txHashs = s.txHashs ++ pooledHashs after := by
  induction after generalizing done s with
  | nil =>
      rw [List.append_nil] at hvtx
      exact ⟨s, .of_forall fun _ => rfl, hvtx ▸ h, by simp [pooledHashs]⟩
  | cons b after ih =>
      obtain ⟨s₁, hfirst, hsweep, hhashs⟩ := sweepTx_spec hpool hvalid h hvtx
      obtain ⟨s', hrest, hsweep', hhashs'⟩ := ih hsweep (by simpa using hvtx)
      refine ⟨s', ?_, hsweep', ?_⟩
      · filter_upwards [hfirst, hrest] with rounds hone hmany
        rw [List.foldlM_cons, hone]
        exact hmany
      · rw [hhashs', hhashs, List.append_assoc, pooledHashs, pooledHashs, pooledHashs,
          ← List.map_append, ← List.filter_append, List.singleton_append]

theorem nodup_pooledHashs : (pooledHashs vtx).Nodup := by
  refine List.pairwise_map.mpr ((hvalid.disjoint.filter _).imp_of_mem ?_)
  intro a b ha hb hapart heq
  obtain ⟨ha, hcb⟩ := List.mem_filter.mp ha
  obtain rfl := hpool.named a b (.inr (.inl ha)) (.inr (.inl (List.mem_filter.mp hb).1)) heq
  obtain ⟨input, vin, hvin⟩ := List.exists_cons_of_ne_nil (hvalid.nonempty a ha)
  have hout : input.prevout ∈ a.prevouts := by
    rw [prevouts_eq_inputs (by simpa using hcb), HashedTx.inputs, hvin]
    exact List.mem_cons_self
  exact hapart _ hout hout

omit hpool hvalid in
theorem Sweeping.conflicting_evicted {repo : MemTxRepository} {conflictTxs : List Uint256}
    (h : m.Sweeping vtx vtx repo conflictTxs) {c : Uint256} (hconflict : Conflicting m vtx c) :
    c ∈ conflictTxs := by
  obtain ⟨tx, htx, b, hb, hne, out, hout, hin⟩ := hconflict
  by_contra hnot
  have hcb : ¬b.isCoinBase := fun hcb => by
    simp [CTransaction.prevouts_of_isCoinBase hcb] at hout
  rw [prevouts_eq_inputs hcb] at hout
  have hspender := h.wellKept.exact_spenders.spender_of_mem (h.kept c tx hnot htx) hin
  rw [h.wellKept.exact_spenders.spender_of_mem (h.added b hb hcb) hout] at hspender
  exact hne (Option.some.inj hspender)

omit hvalid in
theorem Sweeping.left_after {repo : MemTxRepository} {conflictTxs : List Uint256}
    (h : m.Sweeping vtx vtx repo conflictTxs) (hm : m.WellKept) (hash : Uint256) :
    (if hash ∈ pooledHashs vtx then none else repo.txs hash) =
      if hash ∈ conflictTxs ++ vtx.map (·.hash) then none else m.txs hash := by
  by_cases hpooled : hash ∈ pooledHashs vtx
  · have hblock : hash ∈ vtx.map (·.hash) := List.map_subset _ (List.filter_subset_self _) hpooled
    rw [if_pos hpooled, if_pos (List.mem_append_right _ hblock)]
  · have hforeign : ∀ b ∈ vtx, ¬b.isCoinBase → b.hash ≠ hash := fun b hb hcb heq =>
      hpooled (List.mem_map.mpr ⟨b, List.mem_filter.mpr ⟨hb, by simpa using hcb⟩, heq⟩)
    rw [if_neg hpooled]
    by_cases hgone : hash ∈ conflictTxs
    · rw [if_pos (List.mem_append_left _ hgone), h.gone hash hgone]
    · cases htx : m.txs hash with
      | none =>
          rw [ite_self]
          cases hrepo : repo.txs hash with
          | none => rfl
          | some tx =>
              rcases h.known hash tx hrepo with hold | ⟨hmem, hcb, heq⟩
              · rw [htx] at hold
                cases hold
              · exact absurd heq (hforeign tx hmem hcb)
      | some tx =>
          have hkey := hm.keyed hash tx htx
          have hnot : hash ∉ vtx.map (·.hash) := fun hmem => by
            obtain ⟨b, hb, heq⟩ := List.mem_map.mp hmem
            obtain rfl := hpool.named b tx (.inr (.inl hb)) (.inr (.inr (hkey.symm ▸ htx)))
              (heq.trans hkey.symm)
            exact hforeign b hb (hpool.not_coinBase hash b htx) heq
          rw [if_neg (by simp only [List.mem_append, hgone, hnot, or_self, not_false_iff])]
          exact h.kept hash tx hgone htx

end Block

/--
The evicted hashes are the transactions of the pool that conflict with the block
and their descendants, each once and each child before its parents.  Then the
block's own transactions leave the repository, and nothing else does.
-/
theorem sweepBlock_exact (m : MemTxRepository) (chain vtx : List HashedTx) (hm : m.WellKept)
    (hpool : PoolOf m chain vtx) (hvalid : ConsensusValid chain vtx) :
    ∃ s, Returns (fun rounds => sweepBlock rounds m vtx) s ∧
      (∀ hash, hash ∈ s.conflictTxs ↔
        ∃ c, Relation.ReflTransGen m.Spends hash c ∧ Conflicting m vtx c) ∧
      s.conflictTxs.Nodup ∧ s.conflictTxs.Pairwise (fun a b => ¬m.Spends b a) ∧
      (∀ b ∈ vtx, b.hash ∉ s.conflictTxs) ∧
      (∀ hash, s.repo.txs hash =
        if hash ∈ s.conflictTxs ++ vtx.map (·.hash) then none else m.txs hash) ∧
      ∀ out, s.repo.spentOutputs out =
        (m.spentOutputs out).filter (· ∉ s.conflictTxs ++ vtx.map (·.hash)) := by
  obtain ⟨s, hreturns, hsweep, hhashs⟩ :=
    sweepTxs_spec (s := ⟨m, [], ∅, []⟩) hpool hvalid vtx (.start hm) rfl
  rw [List.nil_append] at hhashs
  have hexist : ∀ hash ∈ s.txHashs, s.repo.isExist hash := fun hash hmem => by
    rw [hhashs, pooledHashs] at hmem
    obtain ⟨b, hb, rfl⟩ := List.mem_map.mp hmem
    obtain ⟨hb, hcb⟩ := List.mem_filter.mp hb
    rw [isExist, hsweep.added b hb (by simpa using hcb)]
    rfl
  obtain ⟨repo, hremove, hkept, htxs⟩ := removeTxs_spec hsweep.wellKept
    (hhashs ▸ nodup_pooledHashs hpool hvalid) hexist
  have hleft : ∀ hash, repo.txs hash =
      if hash ∈ s.conflictTxs ++ vtx.map (·.hash) then none else m.txs hash := fun hash => by
    rw [htxs, hhashs]
    exact hsweep.left_after hpool hm hash
  refine ⟨{ s with repo := repo }, ?_, fun hash => ⟨hsweep.conflicting hash, ?_⟩,
    hsweep.peeling.nodup, hsweep.peeling.pairwise, fun b hb hmem => hsweep.foreign _ hmem b hb rfl,
    hleft, spentOutputs_filter hm.exact_spenders hkept.exact_spenders _ hleft⟩
  · filter_upwards [hreturns] with rounds hrounds
    simp only [sweepBlock, hrounds]
    simp [bind, Except.bind, pure, Except.pure, hsweep.peeling.nodup, hremove]
  · rintro ⟨c, hpath, hconflict⟩
    exact hsweep.peeling.descendant (fun _ _ hspends => hspends.isExist)
      (hsweep.conflicting_evicted hconflict) hpath

/-! ### A block against the payment of `exampleRepo` -/

def exampleFunding : HashedTx := ⟨⟨1, [⟨⟨8, 0⟩, 0⟩], [⟨5, []⟩], 0⟩, 9⟩

def exampleRival : HashedTx := ⟨⟨1, [⟨⟨9, 0⟩, 1⟩], [⟨3, []⟩], 0⟩, 3⟩

theorem poolOf_exampleRepo : PoolOf exampleRepo [exampleFunding] [exampleRival] where
  not_coinBase hash tx htx := by
    rcases exampleRepo_txs htx with ⟨-, rfl⟩ | ⟨-, rfl⟩ <;> decide
  unspent hash tx htx out hout := by
    rintro ⟨q, hq, hspent⟩
    obtain rfl := List.mem_singleton.mp hq
    rcases exampleRepo_txs htx with ⟨-, rfl⟩ | ⟨-, rfl⟩
    · exact absurd hspent (by rw [List.mem_singleton.mp hout]; decide)
    · exact absurd hspent (by rw [List.mem_singleton.mp hout]; decide)
  named a b ha hb heq := by
    have hfour : ∀ a : HashedTx, a ∈ [exampleFunding] ∨ a ∈ [exampleRival] ∨
        exampleRepo.txs a.hash = some a →
          a ∈ [exampleFunding, exampleRival, examplePayment, exampleSpend] := by
      rintro a (ha | ha | ha)
      · simp [List.mem_singleton.mp ha]
      · simp [List.mem_singleton.mp ha]
      · rcases exampleRepo_txs ha with ⟨-, rfl⟩ | ⟨-, rfl⟩ <;> simp
    have hinj : ∀ a ∈ [exampleFunding, exampleRival, examplePayment, exampleSpend],
        ∀ b ∈ [exampleFunding, exampleRival, examplePayment, exampleSpend],
          a.hash = b.hash → a = b := by decide
    exact hinj a (hfour a ha) b (hfour b hb) heq

theorem consensusValid_exampleRival : ConsensusValid [exampleFunding] [exampleRival] where
  available before tx after hsplit out hout := by
    obtain rfl : tx = exampleRival := by
      have hmem : tx ∈ [exampleRival] := hsplit ▸ List.mem_append_right _ List.mem_cons_self
      exact List.mem_singleton.mp hmem
    obtain rfl : out = ⟨9, 0⟩ := List.mem_singleton.mp hout
    refine ⟨?_, .inl ⟨exampleFunding, by simp, by decide⟩⟩
    rintro ⟨q, hq, hspent⟩
    obtain rfl := List.mem_singleton.mp hq
    exact absurd hspent (by decide)
  disjoint := List.pairwise_singleton _ _
  distinct := by decide
  nonempty := by decide

theorem sweepBlock_exact_example :
    ∃ s, Returns (fun rounds => sweepBlock rounds exampleRepo [exampleRival]) s ∧
      1 ∈ s.conflictTxs ∧ 2 ∈ s.conflictTxs := by
  obtain ⟨s, hreturns, hmem, -⟩ := sweepBlock_exact exampleRepo [exampleFunding] [exampleRival]
    wellKept_exampleRepo poolOf_exampleRepo consensusValid_exampleRival
  have hconflict : Conflicting exampleRepo [exampleRival] 1 :=
    ⟨examplePayment, rfl, exampleRival, by simp, by decide, ⟨9, 0⟩, by decide, by decide⟩
  exact ⟨s, hreturns, (hmem 1).mpr ⟨1, .refl, hconflict⟩, (hmem 2).mpr ⟨1, .single
    ⟨exampleSpend, examplePayment, rfl, rfl, ⟨1, 0⟩, by decide, by decide⟩, hconflict⟩⟩

end MemTxRepository

end ExplorerKV.Log2

import ExplorerKV.Bitcoin.Core
import ExplorerKV.Foundation.Peeling

/-!
# The memory pool of the log2 producer

`MemTxRepository` keeps the unconfirmed transactions by hash and, for each output
one of them spends, the hash of its spender.
-/

namespace ExplorerKV.Log2

open Bitcoin Foundation

inductive RepoFault where
  /-- the `assert` of `addTx` that the transaction is not a coinbase -/
  | coinBase
  /-- the `assert` of `removeTx` that an input is marked as spent -/
  | notSpent
  /-- the exception of `removeTx` -/
  | notInRepo
  /-- the exception of `getConflictTx` -/
  | spentBySelf
  /-- the `assert`s of `handleBlockAccept` -/
  | conflictIsSelf
  | conflictRepeated
  /-- `txs_[..]` of an absent hash, which would make an empty transaction -/
  | absentTx
  /-- a recursion or a `while (1)` used up the rounds it was given -/
  | diverge
  deriving DecidableEq, Repr

/-- With any large enough number of rounds, the function returns the value. -/
def Returns {ε β : Type} (f : Nat → Except ε β) (b : β) : Prop :=
  ∀ᶠ rounds in Filter.atTop, f rounds = .ok b

theorem Returns.of_eventually {ε β : Type} {f : Nat → Except ε β} {b : β} {P : Nat → Prop}
    (h : ∀ᶠ rounds in Filter.atTop, P rounds)
    (hf : ∀ rounds, P rounds → f (rounds + 1) = .ok b) : Returns f b := by
  obtain ⟨n, hn⟩ := Filter.eventually_atTop.mp h
  refine Filter.eventually_atTop.mpr ⟨n + 1, fun rounds hrounds => ?_⟩
  obtain ⟨extra, rfl⟩ := Nat.exists_eq_add_of_le hrounds
  rw [Nat.add_right_comm]
  exact hf _ (hn _ (Nat.le_add_right n extra))

/-- A transaction with its `GetHash()`. -/
structure HashedTx extends CTransaction where
  hash : Uint256
  deriving DecidableEq, Repr

/-- A `TxOutputKey` is the outpoint with its index read as an `int32_t`. -/
structure MemTxRepository where
  txs : Uint256 → Option HashedTx
  spentOutputs : COutPoint → Option Uint256
  unSyncTxsDelete : Finset Uint256
  unSyncTxsInsert : Finset Uint256

abbrev RepoResult := Except RepoFault

namespace HashedTx

def inputs (tx : HashedTx) : List COutPoint := tx.vin.map (·.prevout)

/-- The keys under which `getSpentEndTx` looks for a spender, one an output. -/
def outputs (tx : HashedTx) : List COutPoint :=
  (List.range tx.vout.length).map fun i => ⟨tx.hash, UInt32.ofNat i⟩

theorem hash_of_mem_outputs {tx : HashedTx} {out : COutPoint} (h : out ∈ tx.outputs) :
    out.hash = tx.hash := by
  obtain ⟨i, -, rfl⟩ := List.mem_map.mp h
  rfl

end HashedTx

namespace MemTxRepository

def empty : MemTxRepository := ⟨fun _ => none, fun _ => none, ∅, ∅⟩

def isExist (m : MemTxRepository) (hash : Uint256) : Bool := (m.txs hash).isSome

/-- `insert` leaves a key that is there as it is. -/
def markSpent (spent : COutPoint → Option Uint256) (hash : Uint256) (out : COutPoint) :
    COutPoint → Option Uint256 :=
  if (spent out).isSome then spent else Function.update spent out (some hash)

def addTx (m : MemTxRepository) (tx : HashedTx) : RepoResult (Bool × MemTxRepository) :=
  if tx.isCoinBase then .error .coinBase
  else if m.isExist tx.hash then .ok (false, m)
  else if tx.inputs.any fun out => (m.spentOutputs out).isSome then .ok (false, m)
  else .ok (true, {
    txs := Function.update m.txs tx.hash (some tx)
    spentOutputs := tx.inputs.foldl (fun spent out => markSpent spent tx.hash out)
      m.spentOutputs
    unSyncTxsDelete := m.unSyncTxsDelete
    unSyncTxsInsert := insert tx.hash m.unSyncTxsInsert })

def firstSpender (m : MemTxRepository) (outs : List COutPoint) : Option Uint256 :=
  outs.findSome? m.spentOutputs

def getSpentEndTx : Nat → MemTxRepository → HashedTx → RepoResult Uint256
  | 0, _, _ => .error .diverge
  | rounds + 1, m, tx =>
      match m.firstSpender tx.outputs with
      | none => .ok tx.hash
      | some spender =>
          match m.txs spender with
          | none => .error .absentTx
          | some child => getSpentEndTx rounds m child

def getConflictTx (rounds : Nat) (m : MemTxRepository) (tx : HashedTx) :
    RepoResult Uint256 :=
  match m.firstSpender tx.inputs with
  | none => .ok tx.hash
  | some spender =>
      if spender = tx.hash then .error .spentBySelf
      else
        match m.txs spender with
        | none => .error .absentTx
        | some child => getSpentEndTx rounds m child

def removeTx (m : MemTxRepository) (hash : Uint256) : RepoResult MemTxRepository :=
  match m.txs hash with
  | none => .error .notInRepo
  | some tx => do
      let spentOutputs ← tx.inputs.foldlM (fun spent out =>
        if (spent out).isSome then .ok (Function.update spent out none)
        else .error .notSpent) m.spentOutputs
      return {
        txs := Function.update m.txs hash none
        spentOutputs := spentOutputs
        unSyncTxsDelete := insert hash m.unSyncTxsDelete
        unSyncTxsInsert := m.unSyncTxsInsert }

def removeTxs (m : MemTxRepository) (hashs : List Uint256) : RepoResult MemTxRepository :=
  hashs.foldlM removeTx m

/-- The repository and the appended hashes after the `while (1)`. -/
def removeTxAndChildTx : Nat → MemTxRepository → HashedTx → List Uint256 →
    RepoResult (MemTxRepository × List Uint256)
  | 0, _, _, _ => .error .diverge
  | rounds + 1, m, tx, removedHashes => do
      let removed ← getSpentEndTx rounds m tx
      let m ← m.removeTx removed
      let removedHashes := removedHashes ++ [removed]
      if tx.hash = removed then return (m, removedHashes)
      else removeTxAndChildTx rounds m tx removedHashes

/-! ## The spend graph -/

/-- `child` spends an output of `parent`, both in the repository. -/
def Spends (m : MemTxRepository) (child parent : Uint256) : Prop :=
  ∃ c p, m.txs child = some c ∧ m.txs parent = some p ∧ ∃ out ∈ p.outputs, out ∈ c.inputs

/-- `spentOutputs` maps each input of each transaction, and nothing else, to its spender. -/
def ExactSpenders (m : MemTxRepository) : Prop :=
  ∀ out hash, m.spentOutputs out = some hash ↔ ∃ tx, m.txs hash = some tx ∧ out ∈ tx.inputs

def Acyclic (m : MemTxRepository) : Prop := ∀ hash, ¬Relation.TransGen m.Spends hash hash

structure WellKept (m : MemTxRepository) : Prop where
  keyed : ∀ hash tx, m.txs hash = some tx → tx.hash = hash
  exact_spenders : m.ExactSpenders
  acyclic : m.Acyclic
  distinct : ∀ hash tx, m.txs hash = some tx → tx.inputs.Nodup

/-! ## The operations on a well kept repository -/

variable {m m' : MemTxRepository} {hash : Uint256} {tx : HashedTx}

theorem ExactSpenders.spender_of_mem (h : m.ExactSpenders) (htx : m.txs hash = some tx)
    {out : COutPoint} (hout : out ∈ tx.inputs) : m.spentOutputs out = some hash :=
  (h out hash).mpr ⟨tx, htx, hout⟩

theorem Spends.isExist {child parent : Uint256} (h : m.Spends child parent) : m.isExist child := by
  obtain ⟨c, -, hc, -⟩ := h
  rw [MemTxRepository.isExist, hc]
  rfl

theorem firstSpender_eq_none {outs : List COutPoint} :
    m.firstSpender outs = none ↔ ∀ out ∈ outs, m.spentOutputs out = none :=
  List.findSome?_eq_none_iff

theorem firstSpender_eq_some (h : m.ExactSpenders) {outs : List COutPoint} {spender : Uint256}
    (hfirst : m.firstSpender outs = some spender) :
    ∃ out ∈ outs, ∃ c, m.txs spender = some c ∧ out ∈ c.inputs := by
  obtain ⟨out, hout, hspent⟩ := List.exists_of_findSome?_eq_some hfirst
  exact ⟨out, hout, (h out spender).mp hspent⟩

theorem getSpentEndTx_spec (h : m.WellKept) (htx : m.txs hash = some tx) :
    ∃ leaf, Returns (fun rounds => getSpentEndTx rounds m tx) leaf ∧
      m.isExist leaf ∧ Relation.ReflTransGen m.Spends leaf hash ∧ ∀ c, ¬m.Spends c leaf := by
  induction hash using (wellFounded_of_acyclic h.acyclic).induction generalizing tx with
  | _ hash ih =>
      have hkey := h.keyed hash tx htx
      cases hfirst : m.firstSpender tx.outputs with
      | none =>
          refine ⟨hash, .of_eventually (.of_forall fun _ => trivial) fun rounds _ => ?_,
            by simp [isExist, htx], .refl, ?_⟩
          · simp [getSpentEndTx, hfirst, hkey]
          · rintro c ⟨ctx, ptx, hc, hp, out, hout, hin⟩
            obtain rfl : tx = ptx := Option.some.inj (htx.symm.trans hp)
            have hnone := firstSpender_eq_none.mp hfirst out hout
            rw [h.exact_spenders.spender_of_mem hc hin] at hnone
            cases hnone
      | some spender =>
          obtain ⟨out, hout, child, hchild, hin⟩ := firstSpender_eq_some h.exact_spenders hfirst
          have hspends : m.Spends spender hash := ⟨child, tx, hchild, htx, out, hout, hin⟩
          obtain ⟨leaf, hreturns, hexist, hpath, hleaf⟩ := ih spender hspends hchild
          refine ⟨leaf, .of_eventually hreturns fun rounds hleaf => ?_, hexist,
            hpath.tail hspends, hleaf⟩
          simp only [getSpentEndTx, hfirst, hchild]
          exact hleaf

theorem clearInputs (outs : List COutPoint) (spent : COutPoint → Option Uint256)
    (hmarked : ∀ out ∈ outs, (spent out).isSome) (hdistinct : outs.Nodup) :
    outs.foldlM (fun spent out =>
        if (spent out).isSome then .ok (Function.update spent out none)
        else .error .notSpent) spent =
      (.ok (fun out => if out ∈ outs then none else spent out) : RepoResult _) := by
  induction outs generalizing spent with
  | nil => simp [pure, Except.pure]
  | cons out outs ih =>
      obtain ⟨hfresh, hrest⟩ := List.nodup_cons.mp hdistinct
      rw [List.foldlM_cons, if_pos (hmarked out (.head _))]
      change outs.foldlM _ (Function.update spent out none) = _
      rw [ih _ (fun o ho => ?_) hrest]
      · congr 1
        funext o
        by_cases ho : o = out
        · simp [ho]
        · simp [ho]
      · rw [Function.update_of_ne fun heq : o = out => hfresh (heq ▸ ho)]
        exact hmarked o (.tail _ ho)

/-- `m'` is the repository without one of its transactions. -/
structure Without (m : MemTxRepository) (hash : Uint256) (m' : MemTxRepository) : Prop where
  wellKept : m'.WellKept
  txs : m'.txs = Function.update m.txs hash none

theorem Spends.of_subset (hsub : ∀ hash tx, m'.txs hash = some tx → m.txs hash = some tx)
    {child parent : Uint256} (h : m'.Spends child parent) : m.Spends child parent := by
  obtain ⟨c, p, hc, hp, hout⟩ := h
  exact ⟨c, p, hsub _ _ hc, hsub _ _ hp, hout⟩

theorem WellKept.of_subset (h : m.WellKept)
    (hsub : ∀ hash tx, m'.txs hash = some tx → m.txs hash = some tx)
    (hexact : m'.ExactSpenders) : m'.WellKept where
  keyed hash tx htx := h.keyed hash tx (hsub hash tx htx)
  exact_spenders := hexact
  acyclic hash hcycle :=
    h.acyclic hash (Relation.TransGen.mono (fun _ _ => Spends.of_subset hsub) _ _ hcycle)
  distinct hash tx htx := h.distinct hash tx (hsub hash tx htx)

theorem txs_of_without (htxs : m'.txs = Function.update m.txs hash none) {hash' : Uint256}
    {tx' : HashedTx} : m'.txs hash' = some tx' ↔ hash' ≠ hash ∧ m.txs hash' = some tx' := by
  by_cases heq : hash' = hash
  · simp [htxs, heq]
  · simp [htxs, heq]

theorem ExactSpenders.without (h : m.ExactSpenders) (htx : m.txs hash = some tx)
    (htxs : m'.txs = Function.update m.txs hash none)
    (hspent : ∀ out, m'.spentOutputs out = if out ∈ tx.inputs then none else m.spentOutputs out) :
    m'.ExactSpenders := by
  intro out hash'
  rw [hspent]
  constructor
  · intro hsome
    have hout : out ∉ tx.inputs := fun hout => by simp [hout] at hsome
    obtain ⟨tx', htx', hin⟩ := (h out hash').mp (by simpa [hout] using hsome)
    have hne : hash' ≠ hash := fun heq => by
      subst heq
      obtain rfl : tx = tx' := Option.some.inj (htx.symm.trans htx')
      exact hout hin
    exact ⟨tx', (txs_of_without htxs).mpr ⟨hne, htx'⟩, hin⟩
  · rintro ⟨tx', h', hin⟩
    obtain ⟨hne, htx'⟩ := (txs_of_without htxs).mp h'
    have hspender := h.spender_of_mem htx' hin
    have hout : out ∉ tx.inputs := fun hout =>
      hne (Option.some.inj (hspender.symm.trans (h.spender_of_mem htx hout)))
    simpa [hout] using hspender

theorem removeTx_spec (h : m.WellKept) (hexist : m.isExist hash) :
    ∃ m', m.removeTx hash = .ok m' ∧ m.Without hash m' := by
  obtain ⟨tx, htx⟩ := Option.isSome_iff_exists.mp hexist
  have hclear := clearInputs tx.inputs m.spentOutputs
    (fun out hout => by rw [h.exact_spenders.spender_of_mem htx hout]; rfl) (h.distinct hash tx htx)
  simp only [removeTx, htx, hclear]
  exact ⟨_, rfl, h.of_subset (fun _ _ h' => ((txs_of_without rfl).mp h').2)
    (h.exact_spenders.without htx rfl fun _ => rfl), rfl⟩

theorem markInputs (outs : List COutPoint) (spent : COutPoint → Option Uint256)
    (hfree : ∀ out ∈ outs, spent out = none ∨ spent out = some hash) (out : COutPoint) :
    outs.foldl (fun spent out => markSpent spent hash out) spent out =
      if out ∈ outs then some hash else spent out := by
  induction outs generalizing spent with
  | nil => simp
  | cons o outs ih =>
      have hmark : ∀ out', markSpent spent hash o out' =
          if out' = o then some hash else spent out' := fun out' => by
        rw [markSpent]
        by_cases hout : out' = o
        · rcases hfree o (.head _) with hspent | hspent <;> simp [hspent, hout]
        · rcases hfree o (.head _) with hspent | hspent <;> simp [hspent, hout]
      rw [List.foldl_cons, ih]
      · by_cases hout : out = o
        · simp [hmark, hout]
        · simp [hmark, hout]
      · intro out' hout'
        rw [hmark]
        split
        · exact .inr rfl
        · exact hfree out' (.tail _ hout')

theorem addTx_spec (h : m.ExactSpenders) (hcoinBase : ¬tx.isCoinBase) (hnew : ¬m.isExist tx.hash)
    (hfree : ∀ out ∈ tx.inputs, m.spentOutputs out = none) :
    ∃ m', m.addTx tx = .ok (true, m') ∧ m'.txs = Function.update m.txs tx.hash (some tx) ∧
      m'.ExactSpenders := by
  have hany : ¬(tx.inputs.any fun out => (m.spentOutputs out).isSome) := by
    simpa using hfree
  refine ⟨_, by rw [addTx, if_neg hcoinBase, if_neg hnew, if_neg hany], rfl, fun out hash => ?_⟩
  simp only [markInputs tx.inputs m.spentOutputs (fun out hout => .inl (hfree out hout)) out]
  have hnone : m.txs tx.hash = none := by simpa [isExist] using hnew
  by_cases hout : out ∈ tx.inputs
  · rw [if_pos hout]
    constructor
    · rintro heq
      obtain rfl := Option.some.inj heq
      exact ⟨tx, Function.update_self .., hout⟩
    · rintro ⟨tx', htx', hin⟩
      by_cases heq : hash = tx.hash
      · rw [heq]
      · rw [Function.update_of_ne heq] at htx'
        have hspent := h.spender_of_mem htx' hin
        rw [hfree out hout] at hspent
        cases hspent
  · rw [if_neg hout, h out hash]
    refine exists_congr fun tx' => ?_
    by_cases heq : hash = tx.hash
    · rw [heq, Function.update_self, hnone]
      constructor
      · rintro ⟨hnot, -⟩
        cases hnot
      · rintro ⟨htx', hin⟩
        exact absurd (Option.some.inj htx' ▸ hin) hout
    · rw [Function.update_of_ne heq]

theorem WellKept.insert (h : m.WellKept) (htxs : m'.txs = Function.update m.txs tx.hash (some tx))
    (hexact : m'.ExactSpenders) (hdistinct : tx.inputs.Nodup)
    (hcycle : ¬Relation.TransGen m'.Spends tx.hash tx.hash) : m'.WellKept := by
  have hcases : ∀ hash tx', m'.txs hash = some tx' →
      hash = tx.hash ∧ tx' = tx ∨ hash ≠ tx.hash ∧ m.txs hash = some tx' := fun hash tx' htx' => by
    by_cases heq : hash = tx.hash
    · rw [htxs, heq, Function.update_self] at htx'
      exact .inl ⟨heq, (Option.some.inj htx').symm⟩
    · rw [htxs, Function.update_of_ne heq] at htx'
      exact .inr ⟨heq, htx'⟩
  refine ⟨fun hash tx' htx' => ?_, hexact, acyclic_of_new (fun child parent hspends hc hp => ?_)
    h.acyclic hcycle, fun hash tx' htx' => ?_⟩
  · rcases hcases hash tx' htx' with ⟨rfl, rfl⟩ | ⟨-, hold⟩
    · rfl
    · exact h.keyed hash tx' hold
  · obtain ⟨c, p, hctx, hptx, hout⟩ := hspends
    rw [htxs, Function.update_of_ne hc] at hctx
    rw [htxs, Function.update_of_ne hp] at hptx
    exact ⟨c, p, hctx, hptx, hout⟩
  · rcases hcases hash tx' htx' with ⟨-, rfl⟩ | ⟨-, hold⟩
    · exact hdistinct
    · exact h.distinct hash tx' hold

theorem spentOutputs_filter (hm : m.ExactSpenders) (hm' : m'.ExactSpenders) (gone : Uint256 → Prop)
    [DecidablePred gone] (htxs : ∀ hash, m'.txs hash = if gone hash then none else m.txs hash)
    (out : COutPoint) :
    m'.spentOutputs out = (m.spentOutputs out).filter fun hash => ¬gone hash := by
  refine Option.ext fun hash => ?_
  rw [hm', Option.filter_eq_some_iff, hm, decide_eq_true_eq]
  constructor
  · rintro ⟨tx, htx, hin⟩
    rw [htxs] at htx
    by_cases hgone : gone hash
    · simp [hgone] at htx
    · exact ⟨⟨tx, by simpa [hgone] using htx, hin⟩, hgone⟩
  · rintro ⟨⟨tx, htx, hin⟩, hnot⟩
    exact ⟨tx, by rw [htxs, if_neg hnot]; exact htx, hin⟩

theorem removeTxs_spec (h : m.WellKept) {hashs : List Uint256} (hdistinct : hashs.Nodup)
    (hexist : ∀ hash ∈ hashs, m.isExist hash) :
    ∃ m', m.removeTxs hashs = .ok m' ∧ m'.WellKept ∧
      ∀ hash, m'.txs hash = if hash ∈ hashs then none else m.txs hash := by
  induction hashs generalizing m with
  | nil => exact ⟨m, rfl, h, by simp⟩
  | cons first hashs ih =>
      obtain ⟨hfresh, hrest⟩ := List.nodup_cons.mp hdistinct
      obtain ⟨m₁, hremove, hwithout⟩ := removeTx_spec h (hexist first (.head _))
      have hexist₁ : ∀ hash ∈ hashs, m₁.isExist hash := fun hash hmem => by
        rw [isExist, hwithout.txs, Function.update_of_ne fun heq : hash = first =>
          hfresh (heq ▸ hmem)]
        exact hexist hash (.tail _ hmem)
      obtain ⟨m', hremoves, hkept, htxs⟩ := ih hwithout.wellKept hrest hexist₁
      refine ⟨m', ?_, hkept, fun hash => ?_⟩
      · rw [removeTxs, List.foldlM_cons, hremove]
        exact hremoves
      · rw [htxs, hwithout.txs]
        by_cases heq : hash = first
        · simp [heq]
        · simp [heq]

/-! ## Removing a transaction and its children -/

/-- `m'` is what is left of the repository when the list is peeled off. -/
structure PeeledTo (m : MemTxRepository) (removed : List Uint256) (m' : MemTxRepository) :
    Prop where
  wellKept : m'.WellKept
  txs : ∀ hash, m'.txs hash = if hash ∈ removed then none else m.txs hash
  peeling : Peeling m.Spends (fun hash => m.isExist hash) removed

theorem PeeledTo.refl (h : m.WellKept) : m.PeeledTo [] m := ⟨h, by simp, .nil⟩

theorem peeling_snoc {removed : List Uint256} {leaf : Uint256}
    (h : Peeling m.Spends (fun hash => m.isExist hash) removed)
    (hkept : ∀ hash tx, hash ∉ removed → m.txs hash = some tx → m'.txs hash = some tx)
    (hexist : m.isExist leaf) (hfresh : leaf ∉ removed) (hleaf : ∀ c, ¬m'.Spends c leaf) :
    Peeling m.Spends (fun hash => m.isExist hash) (removed ++ [leaf]) := by
  refine h.snoc hexist hfresh ?_
  rintro c - ⟨ctx, ptx, hc, hp, hout⟩
  by_contra hcnot
  exact hleaf c ⟨ctx, ptx, hkept c ctx hcnot hc, hkept leaf ptx hfresh hp, hout⟩

variable {removed : List Uint256} {leaf : Uint256}

theorem PeeledTo.subset (h : m.PeeledTo removed m') (htx : m'.txs hash = some tx) :
    hash ∉ removed ∧ m.txs hash = some tx := by
  rw [h.txs] at htx
  by_cases hmem : hash ∈ removed
  · simp [hmem] at htx
  · exact ⟨hmem, by simpa [hmem] using htx⟩

theorem PeeledTo.kept (h : m.PeeledTo removed m') (hnot : hash ∉ removed) :
    m'.txs hash = m.txs hash := by
  rw [h.txs, if_neg hnot]

theorem PeeledTo.snoc {m'' : MemTxRepository} (h : m.PeeledTo removed m')
    (hexist : m'.isExist leaf) (hleaf : ∀ c, ¬m'.Spends c leaf) (hwithout : m'.Without leaf m'') :
    m.PeeledTo (removed ++ [leaf]) m'' := by
  obtain ⟨tx, htx⟩ := Option.isSome_iff_exists.mp hexist
  obtain ⟨hfresh, hin⟩ := h.subset htx
  refine ⟨hwithout.wellKept, fun hash => ?_, peeling_snoc h.peeling
    (fun _ _ hnot htx' => (h.kept hnot).trans htx') (by rw [isExist, hin]; rfl) hfresh hleaf⟩
  rw [hwithout.txs]
  by_cases heq : hash = leaf
  · simp [heq]
  · simp [heq, h.txs]

theorem PeeledTo.spentOutputs (h : m.PeeledTo removed m') (hm : m.WellKept) (out : COutPoint) :
    m'.spentOutputs out = (m.spentOutputs out).filter (· ∉ removed) :=
  spentOutputs_filter hm.exact_spenders h.wellKept.exact_spenders (· ∈ removed) h.txs out

theorem removeTxAndChildTx_loop (htx : m.txs tx.hash = some tx) {bound : Nat}
    (hbound : ∀ l : List Uint256, l.Nodup → l.length ≤ bound) (spare : Nat)
    (removed hashes : List Uint256) (m' : MemTxRepository)
    (hspare : bound < removed.length + spare) (h : m.PeeledTo removed m')
    (hbelow : ∀ hash ∈ removed, Relation.ReflTransGen m.Spends hash tx.hash)
    (hroot : tx.hash ∉ removed) :
    ∃ rest m'', Returns (fun rounds => removeTxAndChildTx rounds m' tx hashes)
        (m'', hashes ++ rest) ∧
      m.PeeledTo (removed ++ rest) m'' ∧ tx.hash ∈ rest ∧
      ∀ hash ∈ rest, Relation.ReflTransGen m.Spends hash tx.hash := by
  induction spare generalizing removed hashes m' with
  | zero => exact absurd (hbound _ h.peeling.nodup) (by omega)
  | succ spare ih =>
      have hhere : m'.txs tx.hash = some tx := (h.kept hroot).trans htx
      obtain ⟨leaf, hwalk, hexist, hpath, hleaf⟩ := getSpentEndTx_spec h.wellKept hhere
      obtain ⟨m₁, hremove, hwithout⟩ := removeTx_spec h.wellKept hexist
      have hpeeled := h.snoc hexist hleaf hwithout
      have hdown : Relation.ReflTransGen m.Spends leaf tx.hash :=
        Relation.ReflTransGen.mono (fun _ _ => Spends.of_subset fun _ _ htx' => (h.subset htx').2)
          _ _ hpath
      by_cases heq : tx.hash = leaf
      · refine ⟨[leaf], m₁, .of_eventually hwalk fun rounds hrounds => ?_, hpeeled,
          List.mem_singleton.mpr heq, fun hash hmem => List.mem_singleton.mp hmem ▸ hdown⟩
        simp only [removeTxAndChildTx, hrounds]
        simp [bind, Except.bind, pure, Except.pure, hremove, heq]
      · obtain ⟨rest, m'', hreturns, hpeeled', hmem, hrest⟩ :=
          ih (removed ++ [leaf]) (hashes ++ [leaf]) m₁
            (by rw [List.length_append, List.length_singleton]; omega) hpeeled
            (fun hash hmem => (List.mem_append.mp hmem).elim (hbelow hash)
              fun hlast => List.mem_singleton.mp hlast ▸ hdown)
            (fun hmem => (List.mem_append.mp hmem).elim hroot
              fun hlast => heq (List.mem_singleton.mp hlast))
        refine ⟨leaf :: rest, m'', .of_eventually (hwalk.and hreturns) ?_, ?_, .tail _ hmem, ?_⟩
        · rintro rounds ⟨hrounds, hloop⟩
          simp only [removeTxAndChildTx, hrounds]
          simpa [bind, Except.bind, hremove, heq] using hloop
        · simpa using hpeeled'
        · exact fun hash hmem' => (List.mem_cons.mp hmem').elim (fun hlast => hlast ▸ hdown)
            (hrest hash)

/--
The removed hashes are the transaction and its descendants, each once and each
child before its parents; nothing else is removed.
-/
theorem removeTxAndChildTx_exact (m : MemTxRepository) (hm : m.WellKept) (tx : HashedTx)
    (htx : m.txs tx.hash = some tx) (removedHashes : List Uint256) :
    ∃ removed m', Returns (fun rounds => removeTxAndChildTx rounds m tx removedHashes)
        (m', removedHashes ++ removed) ∧
      (∀ hash, hash ∈ removed ↔ Relation.ReflTransGen m.Spends hash tx.hash) ∧
      removed.Nodup ∧ removed.Pairwise (fun a b => ¬m.Spends b a) ∧
      (∀ hash, m'.txs hash = if hash ∈ removed then none else m.txs hash) ∧
      ∀ out, m'.spentOutputs out = (m.spentOutputs out).filter (· ∉ removed) := by
  obtain ⟨bound, hbound⟩ := exists_length_bound Uint256
  obtain ⟨removed, m', hreturns, hpeeled, hroot, hbelow⟩ :=
    removeTxAndChildTx_loop htx hbound (bound + 1) [] removedHashes m (by simp)
      (.refl hm) (by simp) (by simp)
  rw [List.nil_append] at hpeeled
  exact ⟨removed, m', hreturns, fun hash => ⟨hbelow hash,
      hpeeled.peeling.descendant (fun _ _ hspends => hspends.isExist) hroot⟩,
    hpeeled.peeling.nodup, hpeeled.peeling.pairwise, hpeeled.txs, hpeeled.spentOutputs hm⟩

/-! ### A payment and its spend -/

def examplePayment : HashedTx := ⟨⟨1, [⟨⟨9, 0⟩, 0⟩], [⟨5, []⟩], 0⟩, 1⟩

def exampleSpend : HashedTx := ⟨⟨1, [⟨⟨1, 0⟩, 0⟩], [⟨4, []⟩], 0⟩, 2⟩

def exampleRepo : MemTxRepository where
  txs hash := if hash = 1 then some examplePayment else if hash = 2 then some exampleSpend else none
  spentOutputs out := if out = ⟨9, 0⟩ then some 1 else if out = ⟨1, 0⟩ then some 2 else none
  unSyncTxsDelete := ∅
  unSyncTxsInsert := {1, 2}

theorem exampleRepo_txs (htx : exampleRepo.txs hash = some tx) :
    hash = 1 ∧ tx = examplePayment ∨ hash = 2 ∧ tx = exampleSpend := by
  by_cases hpayment : hash = 1
  · subst hpayment
    exact .inl ⟨rfl, (Option.some.inj (htx : some examplePayment = some tx)).symm⟩
  · by_cases hspend : hash = 2
    · subst hspend
      exact .inr ⟨rfl, (Option.some.inj (htx : some exampleSpend = some tx)).symm⟩
    · simp [exampleRepo, hpayment, hspend] at htx

theorem wellKept_exampleRepo : exampleRepo.WellKept where
  keyed hash tx htx := by
    rcases exampleRepo_txs htx with ⟨rfl, rfl⟩ | ⟨rfl, rfl⟩ <;> rfl
  exact_spenders out hash := by
    constructor
    · intro hspent
      by_cases hpayment : out = ⟨9, 0⟩
      · obtain rfl : 1 = hash := by simpa [exampleRepo, hpayment] using hspent
        exact ⟨examplePayment, rfl, by simp [hpayment, HashedTx.inputs, examplePayment]⟩
      · by_cases hspend : out = ⟨1, 0⟩
        · obtain rfl : 2 = hash := by simpa [exampleRepo, hspend] using hspent
          exact ⟨exampleSpend, rfl, by simp [hspend, HashedTx.inputs, exampleSpend]⟩
        · simp [exampleRepo, hpayment, hspend] at hspent
    · rintro ⟨tx, htx, hin⟩
      rcases exampleRepo_txs htx with ⟨rfl, rfl⟩ | ⟨rfl, rfl⟩
      · rw [show out = ⟨9, 0⟩ by simpa [HashedTx.inputs, examplePayment] using hin]
        rfl
      · rw [show out = ⟨1, 0⟩ by simpa [HashedTx.inputs, exampleSpend] using hin]
        rfl
  acyclic hash hcycle := by
    have honly : ∀ c p, exampleRepo.Spends c p → c = 2 ∧ p = 1 := by
      rintro c p ⟨ctx, ptx, hc, hp, out, hout, hin⟩
      rcases exampleRepo_txs hc with ⟨rfl, rfl⟩ | ⟨rfl, rfl⟩
      · rcases exampleRepo_txs hp with ⟨rfl, rfl⟩ | ⟨rfl, rfl⟩ <;>
          simp_all [HashedTx.outputs, HashedTx.inputs, examplePayment, exampleSpend]
      · rcases exampleRepo_txs hp with ⟨rfl, rfl⟩ | ⟨rfl, rfl⟩ <;>
          simp_all [HashedTx.outputs, HashedTx.inputs, examplePayment, exampleSpend]
    obtain ⟨c, hc, -⟩ := Relation.TransGen.head'_iff.mp hcycle
    obtain ⟨d, -, hd⟩ := Relation.TransGen.tail'_iff.mp hcycle
    exact absurd ((honly _ _ hc).1.symm.trans (honly _ _ hd).2) (by decide)
  distinct hash tx htx := by
    rcases exampleRepo_txs htx with ⟨rfl, rfl⟩ | ⟨rfl, rfl⟩ <;> decide

theorem removeTxAndChildTx_exact_example :
    ∃ removed m', Returns (fun rounds => removeTxAndChildTx rounds exampleRepo examplePayment [])
      (m', removed) ∧ 2 ∈ removed ∧ m'.txs 2 = none := by
  obtain ⟨removed, m', hreturns, hmem, -, -, htxs, -⟩ :=
    removeTxAndChildTx_exact exampleRepo wellKept_exampleRepo examplePayment rfl []
  have hchild : 2 ∈ removed := (hmem 2).mpr
    (.single ⟨exampleSpend, examplePayment, rfl, rfl, ⟨1, 0⟩, by decide, by decide⟩)
  exact ⟨removed, m', hreturns, hchild, by rw [htxs, if_pos hchild]⟩

/-! ### A transaction with the same input twice -/

def repeatedInput : HashedTx := ⟨⟨1, [⟨⟨9, 0⟩, 0⟩, ⟨⟨9, 0⟩, 0⟩], [], 0⟩, 1⟩

def repeatedInputRepo : MemTxRepository where
  txs hash := if hash = 1 then some repeatedInput else none
  spentOutputs out := if out = ⟨9, 0⟩ then some 1 else none
  unSyncTxsDelete := ∅
  unSyncTxsInsert := ∅

theorem repeatedInputRepo_txs {hash : Uint256} {tx : HashedTx} :
    repeatedInputRepo.txs hash = some tx ↔ hash = 1 ∧ repeatedInput = tx := by
  simp [repeatedInputRepo]

/-- `removeTx` finds the output of the second input unmarked. -/
theorem removeTxAndChildTx_repeatedInput : ¬∀ (m : MemTxRepository) (tx : HashedTx),
    (∀ hash tx, m.txs hash = some tx → tx.hash = hash) → m.ExactSpenders → m.Acyclic →
      m.txs tx.hash = some tx →
        ∃ b, Returns (fun rounds => removeTxAndChildTx rounds m tx []) b := by
  intro h
  obtain ⟨b, hreturns⟩ := h repeatedInputRepo repeatedInput
    (fun hash tx htx => by
      obtain ⟨rfl, rfl⟩ := repeatedInputRepo_txs.mp htx
      rfl)
    (fun out hash => by
      simp only [repeatedInputRepo_txs]
      by_cases hout : out = ⟨9, 0⟩
      · simp [repeatedInputRepo, repeatedInput, HashedTx.inputs, hout, eq_comm]
      · simp [repeatedInputRepo, repeatedInput, HashedTx.inputs, hout])
    (fun hash hcycle => by
      obtain ⟨c, -, _, p, _, hp, out, hout, _⟩ := Relation.TransGen.tail'_iff.mp hcycle
      obtain ⟨-, rfl⟩ := repeatedInputRepo_txs.mp hp
      simp [HashedTx.outputs, repeatedInput] at hout) rfl
  obtain ⟨n, hn⟩ := Filter.eventually_atTop.mp hreturns
  have hfail : removeTxAndChildTx (n + 1 + 1) repeatedInputRepo repeatedInput [] =
      .error .notSpent := by
    rfl
  exact absurd ((hn (n + 1 + 1) (by omega)).symm.trans hfail) (by simp)

end MemTxRepository

end ExplorerKV.Log2

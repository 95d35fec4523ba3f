import ExplorerKV.Log2.MemTxRepository

/-!
# Sequences of calls on the memory pool

A call may throw and leave what it has done so far, so each removal has here the
repository it leaves on either end.  The transactions that are added spend no
output twice, and following them from an output to its spender never turns in a
circle.
-/

namespace ExplorerKV.Log2

open Bitcoin Foundation

namespace MemTxRepository

/-! ## The key of the output map -/

structure TxOutputKey where
  hash : Uint256
  position : Int32
  deriving DecidableEq, Repr

namespace TxOutputKey

/-- The constructor's `int32_t` takes a `prevout.n`. -/
def ofOutPoint (out : COutPoint) : TxOutputKey := ⟨out.hash, out.n.toInt32⟩

/-- `operator <` -/
def lt (left right : TxOutputKey) : Bool :=
  left.hash < right.hash || (left.hash = right.hash && left.position < right.position)

theorem ofOutPoint_injective : Function.Injective ofOutPoint := by
  rintro ⟨hash, n⟩ ⟨hash', n'⟩ h
  obtain ⟨rfl, hn⟩ := TxOutputKey.mk.inj h
  obtain rfl : n = n' := by simpa using congrArg Int32.toUInt32 hn
  rfl

def lex (k : TxOutputKey) : Uint256 ×ₗ Int := toLex (k.hash, k.position.toInt)

theorem lex_injective : Function.Injective lex := by
  rintro ⟨hash, n⟩ ⟨hash', n'⟩ h
  obtain ⟨rfl, hn⟩ := Prod.mk.inj (toLex.injective h)
  obtain rfl : n = n' := Int32.toInt_inj.mp hn
  rfl

theorem lt_iff (left right : TxOutputKey) : left.lt right ↔ left.lex < right.lex := by
  rw [lex, lex, Prod.Lex.toLex_lt_toLex, lt]
  simp [Int32.lt_iff_toInt_lt]

/-- `std::map` has one entry for an outpoint: its key is only equivalent to itself. -/
theorem equivalent_iff (a b : COutPoint) :
    ¬(ofOutPoint a).lt (ofOutPoint b) ∧ ¬(ofOutPoint b).lt (ofOutPoint a) ↔ a = b := by
  rw [lt_iff, lt_iff, not_lt, not_lt, ← ofOutPoint_injective.eq_iff, ← lex_injective.eq_iff]
  exact ⟨fun ⟨hba, hab⟩ => le_antisymm hab hba, fun h => ⟨h.ge, h.le⟩⟩

/-- `find` of the `std::map`: the entry whose key is equivalent. -/
def find (entries : List (COutPoint × Uint256)) (out : COutPoint) : Option Uint256 :=
  (entries.find? fun entry =>
    !(ofOutPoint entry.1).lt (ofOutPoint out) &&
      !(ofOutPoint out).lt (ofOutPoint entry.1)).map (·.2)

/-- Over the entries of the output map, `find` reads the map. -/
theorem find_spentOutputs {m : MemTxRepository} {entries : List (COutPoint × Uint256)}
    (h : ∀ out hash, (out, hash) ∈ entries ↔ m.spentOutputs out = some hash)
    (out : COutPoint) : find entries out = m.spentOutputs out := by
  cases hfind : entries.find? fun entry =>
      !(ofOutPoint entry.1).lt (ofOutPoint out) &&
        !(ofOutPoint out).lt (ofOutPoint entry.1) with
  | none =>
      have hnone : m.spentOutputs out = none := by
        rw [Option.eq_none_iff_forall_ne_some]
        intro hash hspent
        have hmissed := List.find?_eq_none.mp hfind _ ((h out hash).mpr hspent)
        exact hmissed (by simpa using (equivalent_iff out out).mpr rfl)
      rw [find, hfind, hnone]
      rfl
  | some entry =>
      obtain ⟨key, hash⟩ := entry
      have hmem := (h key hash).mp (List.mem_of_find?_eq_some hfind)
      have hkey : key = out :=
        (equivalent_iff key out).mp (by simpa using List.find?_some hfind)
      rw [find, hfind, ← hkey, hmem]
      rfl

end TxOutputKey

/-! ## What a call leaves -/

/-- The repository after `removeTxs`, also when it throws. -/
def afterRemoveTxs (m : MemTxRepository) : List Uint256 → RepoResult MemTxRepository
  | [] => .ok m
  | hash :: hashs =>
      match m.removeTx hash with
      | .ok m => m.afterRemoveTxs hashs
      | .error .notInRepo => .ok m
      | .error fault => .error fault

/-- The repository after `removeTxAndChildTx`, also when its `removeTx` throws. -/
def afterRemoveTxAndChildTx : Nat → MemTxRepository → HashedTx → RepoResult MemTxRepository
  | 0, _, _ => .error .diverge
  | rounds + 1, m, tx => do
      let removed ← getSpentEndTx rounds m tx
      match m.removeTx removed with
      | .ok m => if tx.hash = removed then return m else afterRemoveTxAndChildTx rounds m tx
      | .error .notInRepo => return m
      | .error fault => throw fault

theorem afterRemoveTxs_of_ok {m m' : MemTxRepository} {hashs : List Uint256}
    (h : m.removeTxs hashs = .ok m') : m.afterRemoveTxs hashs = .ok m' := by
  induction hashs generalizing m with
  | nil => exact h
  | cons hash hashs ih =>
      rw [removeTxs, List.foldlM_cons] at h
      cases hremove : m.removeTx hash with
      | error fault =>
          rw [hremove] at h
          cases h
      | ok m₁ =>
          rw [hremove] at h
          simp only [afterRemoveTxs, hremove]
          exact ih h

theorem afterRemoveTxAndChildTx_of_ok {rounds : Nat} {m m' : MemTxRepository} {tx : HashedTx}
    {hashes hashes' : List Uint256}
    (h : removeTxAndChildTx rounds m tx hashes = .ok (m', hashes')) :
    afterRemoveTxAndChildTx rounds m tx = .ok m' := by
  induction rounds generalizing m hashes with
  | zero => cases h
  | succ rounds ih =>
      rw [removeTxAndChildTx] at h
      rw [afterRemoveTxAndChildTx]
      cases hwalk : getSpentEndTx rounds m tx with
      | error fault =>
          rw [hwalk] at h
          cases h
      | ok removed =>
          rw [hwalk] at h
          simp only [bind, Except.bind] at h ⊢
          cases hremove : m.removeTx removed with
          | error fault =>
              rw [hremove] at h
              cases h
          | ok m₁ =>
              simp only [hremove] at h ⊢
              by_cases hroot : tx.hash = removed
              · rw [if_pos hroot] at h ⊢
                cases h
                rfl
              · rw [if_neg hroot] at h ⊢
                exact ih h

inductive Call where
  | addTx (tx : HashedTx)
  | removeTx (hash : Uint256)
  | removeTxs (hashs : List Uint256)
  | removeTxAndChildTx (tx : HashedTx)

def Call.after (rounds : Nat) (m : MemTxRepository) : Call → RepoResult MemTxRepository
  | .addTx tx => (m.addTx tx).map (·.2)
  | .removeTx hash => m.afterRemoveTxs [hash]
  | .removeTxs hashs => m.afterRemoveTxs hashs
  | .removeTxAndChildTx tx => afterRemoveTxAndChildTx rounds m tx

def Call.run (rounds : Nat) (m : MemTxRepository) : Call → RepoResult MemTxRepository
  | .addTx tx => (m.addTx tx).map (·.2)
  | .removeTx hash => m.removeTx hash
  | .removeTxs hashs => m.removeTxs hashs
  | .removeTxAndChildTx tx => (MemTxRepository.removeTxAndChildTx rounds m tx []).map (·.1)

theorem Call.after_of_run {rounds : Nat} {m m' : MemTxRepository} {call : Call}
    (h : call.run rounds m = .ok m') : call.after rounds m = .ok m' := by
  cases call with
  | addTx tx => exact h
  | removeTx hash =>
      have hremove : m.removeTx hash = .ok m' := h
      simp only [after, afterRemoveTxs, hremove]
  | removeTxs hashs => exact afterRemoveTxs_of_ok h
  | removeTxAndChildTx tx =>
      cases hremove : MemTxRepository.removeTxAndChildTx rounds m tx [] with
      | error fault =>
          rw [run, hremove] at h
          cases h
      | ok removed =>
          rw [run, hremove] at h
          obtain rfl := Except.ok.inj h
          exact afterRemoveTxAndChildTx_of_ok hremove

def afterCalls (rounds : Nat) (m : MemTxRepository) (calls : List Call) :
    RepoResult MemTxRepository :=
  calls.foldlM (Call.after rounds) m

/-! ## The transactions that are added -/

def Call.added : Call → List HashedTx
  | .addTx tx => [tx]
  | _ => []

/-- `child` spends an output of `parent`, both among the transactions. -/
def SpendsAmong (txs : List HashedTx) (child parent : HashedTx) : Prop :=
  child ∈ txs ∧ parent ∈ txs ∧ ∃ out ∈ parent.outputs, out ∈ child.inputs

structure Addable (txs : List HashedTx) : Prop where
  not_coinBase : ∀ tx ∈ txs, ¬tx.isCoinBase
  distinct : ∀ tx ∈ txs, tx.inputs.Nodup
  acyclic : ∀ tx, ¬Relation.TransGen (SpendsAmong txs) tx tx

/-- A well kept repository of some of the transactions. -/
structure KeptAmong (txs : List HashedTx) (m : MemTxRepository) : Prop where
  wellKept : m.WellKept
  among : ∀ hash tx, m.txs hash = some tx → tx ∈ txs

variable {txs : List HashedTx} {m m' : MemTxRepository}

namespace KeptAmong

theorem empty (txs : List HashedTx) : KeptAmong txs empty where
  wellKept :=
    { keyed := nofun
      exact_spenders := fun out hash => by simp [MemTxRepository.empty]
      acyclic := fun hash hcycle => by
        obtain ⟨c, ⟨_, _, hc, -⟩, -⟩ := Relation.TransGen.head'_iff.mp hcycle
        cases hc
      distinct := nofun }
  among := nofun

theorem acyclic_of_among (hadd : Addable txs)
    (hamong : ∀ hash tx, m.txs hash = some tx → tx ∈ txs) :
    m.Acyclic := by
  intro hash hcycle
  have hpath : ∀ child parent, Relation.TransGen m.Spends child parent →
      ∃ c p, m.txs child = some c ∧ m.txs parent = some p ∧
        Relation.TransGen (SpendsAmong txs) c p := by
    intro child parent hpath
    induction hpath with
    | single hspends =>
        obtain ⟨c, p, hc, hp, hout⟩ := hspends
        exact ⟨c, p, hc, hp, .single ⟨hamong _ c hc, hamong _ p hp, hout⟩⟩
    | tail _ hspends ih =>
        obtain ⟨c, q, hc, hq, hbefore⟩ := ih
        obtain ⟨q', p, hq', hp, hout⟩ := hspends
        obtain rfl : q = q' := Option.some.inj (hq.symm.trans hq')
        exact ⟨c, p, hc, hp, hbefore.tail ⟨hamong _ q hq, hamong _ p hp, hout⟩⟩
  obtain ⟨c, p, hc, hp, htxs⟩ := hpath hash hash hcycle
  obtain rfl : c = p := Option.some.inj (hc.symm.trans hp)
  exact hadd.acyclic c htxs

theorem without (h : KeptAmong txs m) {hash : Uint256} (hwithout : m.Without hash m') :
    KeptAmong txs m' where
  wellKept := hwithout.wellKept
  among hash' tx htx := h.among hash' tx ((txs_of_without hwithout.txs).mp htx).2

theorem addTx (h : KeptAmong txs m) (hadd : Addable txs) {tx : HashedTx} (htx : tx ∈ txs) :
    ∃ added m', m.addTx tx = .ok (added, m') ∧ KeptAmong txs m' ∧ (added = false → m' = m) := by
  have hcoinBase := hadd.not_coinBase tx htx
  by_cases hexist : m.isExist tx.hash
  · exact ⟨false, m, by rw [MemTxRepository.addTx, if_neg hcoinBase, if_pos hexist], h,
      fun _ => rfl⟩
  · by_cases hspent : tx.inputs.any fun out => (m.spentOutputs out).isSome
    · exact ⟨false, m,
        by rw [MemTxRepository.addTx, if_neg hcoinBase, if_neg hexist, if_pos hspent],
        h, fun _ => rfl⟩
    · obtain ⟨m', hrun, htxs, hexact⟩ := addTx_spec h.wellKept.exact_spenders hcoinBase hexist
        (by simpa using hspent)
      have hamong : ∀ hash tx', m'.txs hash = some tx' → tx' ∈ txs := fun hash tx' htx' => by
        rw [htxs] at htx'
        by_cases heq : hash = tx.hash
        · rw [heq, Function.update_self] at htx'
          exact Option.some.inj htx' ▸ htx
        · rw [Function.update_of_ne heq] at htx'
          exact h.among hash tx' htx'
      have hacyclic : m'.Acyclic := acyclic_of_among hadd hamong
      exact ⟨true, m', hrun, ⟨h.wellKept.insert htxs hexact (hadd.distinct tx htx)
        (hacyclic tx.hash), hamong⟩, fun h => Bool.noConfusion h⟩

theorem removeTx_cases (h : KeptAmong txs m) (hash : Uint256) :
    (m.isExist hash ∧ ∃ m', m.removeTx hash = .ok m' ∧ m.Without hash m' ∧ KeptAmong txs m') ∨
      m.removeTx hash = .error .notInRepo := by
  cases hexist : m.isExist hash with
  | true =>
      obtain ⟨m', hrun, hwithout⟩ := removeTx_spec h.wellKept hexist
      exact .inl ⟨rfl, m', hrun, hwithout, h.without hwithout⟩
  | false =>
      have hnone : m.txs hash = none := by simpa [isExist] using hexist
      exact .inr (by rw [removeTx, hnone])

theorem afterRemoveTxs (h : KeptAmong txs m) (hashs : List Uint256) :
    ∃ m', m.afterRemoveTxs hashs = .ok m' ∧ KeptAmong txs m' := by
  induction hashs generalizing m with
  | nil => exact ⟨m, rfl, h⟩
  | cons hash hashs ih =>
      obtain ⟨-, m₁, hremove, -, hkept⟩ | hremove := h.removeTx_cases hash
      · obtain ⟨m', hrest, hkept'⟩ := ih hkept
        exact ⟨m', by simp only [MemTxRepository.afterRemoveTxs, hremove, hrest], hkept'⟩
      · exact ⟨m, by simp only [MemTxRepository.afterRemoveTxs, hremove], h⟩

theorem getSpentEndTx_returns (h : KeptAmong txs m) (tx : HashedTx) :
    ∃ leaf, Returns (fun rounds => getSpentEndTx rounds m tx) leaf := by
  cases hfirst : m.firstSpender tx.outputs with
  | none =>
      exact ⟨tx.hash, .of_eventually (.of_forall fun _ => trivial) fun rounds _ => by
        simp only [getSpentEndTx, hfirst]⟩
  | some spender =>
      obtain ⟨-, -, child, hchild, -⟩ := firstSpender_eq_some h.wellKept.exact_spenders hfirst
      obtain ⟨leaf, hreturns, -⟩ := getSpentEndTx_spec h.wellKept hchild
      refine ⟨leaf, .of_eventually hreturns fun rounds hleaf => ?_⟩
      simp only [getSpentEndTx, hfirst, hchild]
      exact hleaf

theorem isExist_ssubset {hash : Uint256} (hexist : m.isExist hash) (hwithout : m.Without hash m') :
    {hash | m'.isExist hash} ⊂ {hash | m.isExist hash} := by
  refine Set.ssubset_iff_exists.mpr ⟨fun hash' hmem => ?_, hash, hexist, ?_⟩
  · obtain ⟨tx, htx⟩ := Option.isSome_iff_exists.mp hmem
    exact Option.isSome_iff_exists.mpr ⟨tx, ((txs_of_without hwithout.txs).mp htx).2⟩
  · change ¬(m'.isExist hash = true)
    rw [isExist, hwithout.txs, Function.update_self]
    exact Bool.false_ne_true

/-- Each turn of the `while (1)` takes a transaction out or is the last. -/
theorem afterRemoveTxAndChildTx (h : KeptAmong txs m) (tx : HashedTx) :
    ∃ m', Returns (fun rounds => afterRemoveTxAndChildTx rounds m tx) m' ∧ KeptAmong txs m' := by
  induction hcard : {hash | m.isExist hash}.ncard using Nat.strong_induction_on generalizing m with
  | _ card ih =>
      obtain ⟨leaf, hwalk⟩ := h.getSpentEndTx_returns tx
      obtain ⟨hexist, m₁, hremove, hwithout, hkept⟩ | hremove := h.removeTx_cases leaf
      · by_cases hroot : tx.hash = leaf
        · refine ⟨m₁, .of_eventually hwalk fun rounds hleaf => ?_, hkept⟩
          simp only [MemTxRepository.afterRemoveTxAndChildTx, hleaf, bind, Except.bind, hremove,
            if_pos hroot]
          rfl
        · have hless : {hash | m₁.isExist hash}.ncard < card := by
            rw [← hcard]
            exact Set.ncard_lt_ncard (isExist_ssubset hexist hwithout) (Set.toFinite _)
          obtain ⟨m', hrest, hkept'⟩ := ih _ hless hkept rfl
          refine ⟨m', .of_eventually (hwalk.and hrest) fun rounds hrounds => ?_, hkept'⟩
          simp only [MemTxRepository.afterRemoveTxAndChildTx, hrounds.1, bind, Except.bind, hremove,
            if_neg hroot]
          exact hrounds.2
      · refine ⟨m, .of_eventually hwalk fun rounds hleaf => ?_, h⟩
        simp only [MemTxRepository.afterRemoveTxAndChildTx, hleaf, bind, Except.bind, hremove]
        rfl

theorem after (h : KeptAmong txs m) (hadd : Addable txs) {call : Call}
    (hcall : ∀ tx ∈ call.added, tx ∈ txs) :
    ∃ m', Returns (fun rounds => call.after rounds m) m' ∧ KeptAmong txs m' := by
  cases call with
  | addTx tx =>
      obtain ⟨added, m', hrun, hkept, -⟩ := h.addTx hadd (hcall tx (.head _))
      exact ⟨m', .of_forall fun _ => congrArg (Except.map Prod.snd) hrun, hkept⟩
  | removeTx hash =>
      obtain ⟨m', hrun, hkept⟩ := h.afterRemoveTxs [hash]
      exact ⟨m', .of_forall fun _ => hrun, hkept⟩
  | removeTxs hashs =>
      obtain ⟨m', hrun, hkept⟩ := h.afterRemoveTxs hashs
      exact ⟨m', .of_forall fun _ => hrun, hkept⟩
  | removeTxAndChildTx tx => exact h.afterRemoveTxAndChildTx tx

theorem afterCalls (h : KeptAmong txs m) (hadd : Addable txs) {calls : List Call}
    (hcalls : ∀ tx ∈ calls.flatMap Call.added, tx ∈ txs) :
    ∃ m', Returns (fun rounds => afterCalls rounds m calls) m' ∧ KeptAmong txs m' := by
  induction calls generalizing m with
  | nil => exact ⟨m, .of_forall fun _ => rfl, h⟩
  | cons call calls ih =>
      rw [List.flatMap_cons] at hcalls
      obtain ⟨m₁, hfirst, hkept₁⟩ :=
        h.after hadd fun tx htx => hcalls tx (List.mem_append_left _ htx)
      obtain ⟨m', hrest, hkept⟩ := ih hkept₁ fun tx htx => hcalls tx (List.mem_append_right _ htx)
      refine ⟨m', (hfirst.and hrest).mono fun rounds hrounds => ?_, hkept⟩
      obtain ⟨hcall, hcalls⟩ := hrounds
      dsimp only at hcall hcalls ⊢
      rw [MemTxRepository.afterCalls, List.foldlM_cons, hcall]
      exact hcalls

end KeptAmong

theorem ExactSpenders.eq_of_shared (h : m.ExactSpenders) {a b : Uint256} {x y : HashedTx}
    (ha : m.txs a = some x) (hb : m.txs b = some y) {out : COutPoint} (hx : out ∈ x.inputs)
    (hy : out ∈ y.inputs) : a = b :=
  Option.some.inj ((h.spender_of_mem ha hx).symm.trans (h.spender_of_mem hb hy))

/--
After any calls from the empty repository, with transactions that are no coinbase,
spend nothing twice and form no circle: the output map is that of the inputs, no
input is shared, a refused transaction changes nothing, a transaction that is
there can be removed, and the walk from it ends at a transaction that is there
and unspent.
-/
theorem afterCalls_exact (calls : List Call) (hadd : Addable (calls.flatMap Call.added)) :
    ∃ m, Returns (fun rounds => afterCalls rounds empty calls) m ∧
      (∀ out hash, m.spentOutputs out = some hash ↔ ∃ tx, m.txs hash = some tx ∧ out ∈ tx.inputs) ∧
      (∀ a b x y, m.txs a = some x → m.txs b = some y → ∀ out ∈ x.inputs, out ∈ y.inputs → a = b) ∧
      (∀ tx m', m.addTx tx = .ok (false, m') → m' = m) ∧
      (∀ hash, m.isExist hash → ∃ m', m.removeTx hash = .ok m') ∧
      ∀ hash tx, m.txs hash = some tx → ∃ leaf,
        Returns (fun rounds => getSpentEndTx rounds m tx) leaf ∧ m.isExist leaf ∧
          ∀ child, ¬m.Spends child leaf := by
  obtain ⟨m, hreturns, hkept⟩ := (KeptAmong.empty _).afterCalls hadd fun _ htx => htx
  refine ⟨m, hreturns, hkept.wellKept.exact_spenders, ?_, ?_, ?_, ?_⟩
  · exact fun a b x y ha hb out hx hy => hkept.wellKept.exact_spenders.eq_of_shared ha hb hx hy
  · intro tx m' hrun
    unfold addTx at hrun
    split_ifs at hrun
    · cases hrun
      rfl
    · cases hrun
      rfl
    · cases hrun
  · intro hash hexist
    obtain ⟨m', hrun, -⟩ := removeTx_spec hkept.wellKept hexist
    exact ⟨m', hrun⟩
  · intro hash tx htx
    obtain ⟨leaf, hwalk, hexist, -, hleaf⟩ := getSpentEndTx_spec hkept.wellKept htx
    exact ⟨leaf, hwalk, hexist, hleaf⟩

/-- A payment, its spend, a rival of the payment that is refused, and the removal of both. -/
def exampleCalls : List Call :=
  [.addTx examplePayment, .addTx exampleSpend, .addTx { examplePayment with hash := 3 },
    .removeTxAndChildTx examplePayment]

theorem addable_example : Addable (exampleCalls.flatMap Call.added) where
  not_coinBase := by decide +kernel
  distinct := by decide +kernel
  acyclic := by
    have hspend : ∀ c ∈ exampleCalls.flatMap Call.added,
        ∀ p ∈ exampleCalls.flatMap Call.added, ∀ out ∈ p.outputs, out ∈ c.inputs →
          c.hash = 2 ∧ p.hash = 1 := by
      decide +kernel
    have honly : ∀ c p, SpendsAmong (exampleCalls.flatMap Call.added) c p →
        c.hash = 2 ∧ p.hash = 1 :=
      fun c p ⟨hc, hp, out, hout, hin⟩ => hspend c hc p hp out hout hin
    intro tx hcycle
    obtain ⟨c, hc, -⟩ := Relation.TransGen.head'_iff.mp hcycle
    obtain ⟨d, -, hd⟩ := Relation.TransGen.tail'_iff.mp hcycle
    exact absurd ((honly _ _ hc).1.symm.trans (honly _ _ hd).2) (by decide)

theorem afterCalls_exact_example :
    ∃ m, Returns (fun rounds => afterCalls rounds empty exampleCalls) m ∧
      ∀ hash, m.isExist hash → ∃ m', m.removeTx hash = .ok m' := by
  obtain ⟨m, hreturns, -, -, -, hremove, -⟩ := afterCalls_exact exampleCalls addable_example
  exact ⟨m, hreturns, hremove⟩

end MemTxRepository

end ExplorerKV.Log2

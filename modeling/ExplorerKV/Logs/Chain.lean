import ExplorerKV.Bitcoin.Core

/-!
# The chain Log1Producer keeps

The last blocks of the main chain, by height.  A block one above the tip
extends it; a block one below replaces it, which is how a log line tells a
rollback.  An exception leaves the chain as the code has made it by then.
-/

namespace ExplorerKV.Logs

open Bitcoin

/-- `blocks_` from its last entry to its first. -/
structure Chain where
  limit : ℕ+
  blocks : List (Int × Uint256)
  deriving DecidableEq, Repr

inductive ChainError where
  | notEmpty
  | prevHashNotCurHash
  | tooFewBlocks
  | prevHashNotThirdHash
  | invalidHeight
  deriving DecidableEq, Repr

abbrev ChainM := EStateM ChainError Chain

namespace Chain

def getCurHeight (chain : Chain) : Int :=
  match chain.blocks with
  | [] => -1
  | block :: _ => block.1

def getCurHash (chain : Chain) : Uint256 :=
  match chain.blocks with
  | [] => 0
  | block :: _ => block.2

def size (chain : Chain) : Nat := chain.blocks.length

def pushFirst (height : Int) (hash : Uint256) : ChainM Unit := do
  if (← get).size ≠ 0 then throw .notEmpty
  modify fun chain => { chain with blocks := [(height, hash)] }

/-- The `while` at the end of `push`. -/
def dropOldest (chain : Chain) : Chain :=
  { chain with blocks := chain.blocks.take chain.limit }

def pop (chain : Chain) : Chain := { chain with blocks := chain.blocks.tail }

def push (height : Int) (hash prevHash : Uint256) : ChainM Unit := do
  let chain ← get
  if height = chain.getCurHeight + 1 then
    if prevHash ≠ chain.getCurHash then throw .prevHashNotCurHash
    modify fun chain => { chain with blocks := (height, hash) :: chain.blocks }
  else if height + 1 = chain.getCurHeight then
    if chain.size ≤ 3 then throw .tooFewBlocks
    -- the third from last, which the block goes back to the child of
    if chain.blocks[2]?.map Prod.snd ≠ some prevHash then throw .prevHashNotThirdHash
    modify pop
  else throw .invalidHeight
  modify dropOldest

/-! ## What a push does -/

variable {chain chain' : Chain} {height : Int} {hash prevHash : Uint256} {e : ChainError}

theorem pushFirst_run (height : Int) (hash : Uint256) (chain : Chain) :
    (pushFirst height hash).run chain =
      if chain.size ≠ 0 then .error .notEmpty chain
      else .ok () { chain with blocks := [(height, hash)] } := by
  rw [pushFirst, EStateM.run_bind, EStateM.run_get]
  dsimp only
  split <;> rfl

theorem push_run (height : Int) (hash prevHash : Uint256) (chain : Chain) :
    (push height hash prevHash).run chain =
      if height = chain.getCurHeight + 1 then
        if prevHash ≠ chain.getCurHash then .error .prevHashNotCurHash chain
        else .ok () { chain with blocks := (height, hash) :: chain.blocks }.dropOldest
      else if height + 1 = chain.getCurHeight then
        if chain.size ≤ 3 then .error .tooFewBlocks chain
        else if chain.blocks[2]?.map Prod.snd ≠ some prevHash then
          .error .prevHashNotThirdHash chain
        else .ok () chain.pop.dropOldest
      else .error .invalidHeight chain := by
  rw [push, EStateM.run_bind, EStateM.run_get]
  dsimp only
  split
  · split
    · rfl
    · rfl
  · split
    · split
      · rfl
      · split
        · rfl
        · rfl
    · rfl

theorem push_eq_ok (h : (push height hash prevHash).run chain = .ok () chain') :
    (height = chain.getCurHeight + 1 ∧ prevHash = chain.getCurHash ∧
      chain' = { chain with blocks := (height, hash) :: chain.blocks }.dropOldest) ∨
    (height + 1 = chain.getCurHeight ∧ 3 < chain.size ∧
      chain.blocks[2]?.map Prod.snd = some prevHash ∧ chain' = chain.pop.dropOldest) := by
  rw [push_run] at h
  split_ifs at h with hnext hprev hback hsize hthird
  · cases h
    exact .inl ⟨hnext, not_not.mp hprev, rfl⟩
  · cases h
    exact .inr ⟨hback, not_le.mp hsize, not_not.mp hthird, rfl⟩

theorem push_eq_error (h : (push height hash prevHash).run chain = .error e chain') :
    chain' = chain := by
  rw [push_run] at h
  split_ifs at h <;> cases h <;> rfl

theorem push_next (hheight : height = chain.getCurHeight + 1)
    (hprev : prevHash = chain.getCurHash) :
    (push height hash prevHash).run chain =
      .ok () { chain with blocks := (height, hash) :: chain.blocks }.dropOldest := by
  rw [push_run, if_pos hheight, if_neg (not_not.mpr hprev)]

theorem push_back (hheight : height + 1 = chain.getCurHeight) (hsize : 3 < chain.size)
    (hprev : chain.blocks[2]?.map Prod.snd = some prevHash) :
    (push height hash prevHash).run chain = .ok () chain.pop.dropOldest := by
  have hnext : height ≠ chain.getCurHeight + 1 := by omega
  rw [push_run, if_neg hnext, if_pos hheight, if_neg (not_le.mpr hsize),
    if_neg (not_not.mpr hprev)]

theorem dropOldest_cons (limit : ℕ+) (block : Int × Uint256) (rest : List (Int × Uint256)) :
    ∃ rest', (Chain.mk limit (block :: rest)).dropOldest = ⟨limit, block :: rest'⟩ := by
  obtain ⟨n, hn⟩ := Nat.exists_eq_succ_of_ne_zero limit.pos.ne'
  exact ⟨rest.take n, by rw [dropOldest, hn, List.take_succ_cons]⟩

theorem getCurHeight_dropOldest : chain.dropOldest.getCurHeight = chain.getCurHeight := by
  obtain ⟨limit, blocks⟩ := chain
  cases blocks with
  | nil => simp [dropOldest]
  | cons block rest =>
      obtain ⟨rest', h⟩ := dropOldest_cons limit block rest
      rw [h]
      rfl

theorem getCurHash_dropOldest : chain.dropOldest.getCurHash = chain.getCurHash := by
  obtain ⟨limit, blocks⟩ := chain
  cases blocks with
  | nil => simp [dropOldest]
  | cons block rest =>
      obtain ⟨rest', h⟩ := dropOldest_cons limit block rest
      rw [h]
      rfl

/-! ## Any history of a chain -/

inductive Op where
  | pushFirst (height : Int) (hash : Uint256)
  | push (height : Int) (hash prevHash : Uint256)
  | pop

def stateAfter (chain : Chain) (action : ChainM Unit) : Chain :=
  match action.run chain with
  | .ok _ chain => chain
  | .error _ chain => chain

def apply (chain : Chain) : Op → Chain
  | .pushFirst height hash => chain.stateAfter (Chain.pushFirst height hash)
  | .push height hash prevHash => chain.stateAfter (Chain.push height hash prevHash)
  | .pop => chain.pop

def reached (limit : ℕ+) (ops : List Op) : Chain :=
  ops.foldl apply ⟨limit, []⟩

def Contiguous (chain : Chain) : Prop :=
  chain.blocks.IsChain fun block older => block.1 = older.1 + 1

structure WellFormed (limit : ℕ+) (chain : Chain) : Prop where
  limit_eq : chain.limit = limit
  contiguous : chain.Contiguous
  size_le : chain.size ≤ limit

variable {limit : ℕ+}

theorem Contiguous.dropOldest (h : chain.Contiguous) : chain.dropOldest.Contiguous :=
  h.take _

theorem Contiguous.pop (h : chain.Contiguous) : chain.pop.Contiguous :=
  h.tail

theorem size_dropOldest : chain.dropOldest.size ≤ chain.limit := by
  simp [size, Chain.dropOldest]

theorem Contiguous.cons (h : chain.Contiguous) (hheight : height = chain.getCurHeight + 1) :
    Contiguous { chain with blocks := (height, hash) :: chain.blocks } := by
  rw [Contiguous] at h ⊢
  cases hblocks : chain.blocks with
  | nil => exact .singleton _
  | cons block rest =>
      rw [hblocks] at h
      apply List.IsChain.cons_cons _ h
      simpa [getCurHeight, hblocks] using hheight

theorem WellFormed.push (h : chain.WellFormed limit)
    (hpush : (Chain.push height hash prevHash).run chain = .ok () chain') :
    chain'.WellFormed limit := by
  rcases push_eq_ok hpush with ⟨hheight, -, rfl⟩ | ⟨-, -, -, rfl⟩
  · refine ⟨h.limit_eq, (h.contiguous.cons hheight).dropOldest, ?_⟩
    rw [← h.limit_eq]
    exact size_dropOldest
  · refine ⟨h.limit_eq, h.contiguous.pop.dropOldest, ?_⟩
    rw [← h.limit_eq]
    exact size_dropOldest

theorem WellFormed.apply (h : chain.WellFormed limit) (op : Op) :
    (chain.apply op).WellFormed limit := by
  cases op with
  | pushFirst height hash =>
      rw [Chain.apply, stateAfter, pushFirst_run]
      split_ifs
      · exact h
      · exact ⟨h.limit_eq, .singleton _, limit.pos⟩
  | push height hash prevHash =>
      rw [Chain.apply, stateAfter]
      split
      · rename_i hrun
        exact h.push hrun
      · rename_i hrun
        rw [push_eq_error hrun]
        exact h
  | pop =>
      refine ⟨h.limit_eq, h.contiguous.pop, ?_⟩
      have := h.size_le
      simp only [Chain.apply, size, Chain.pop, List.length_tail] at this ⊢
      omega

theorem wellFormed_reached (limit : ℕ+) (ops : List Op) :
    (reached limit ops).WellFormed limit := by
  induction ops using List.reverseRecOn with
  | nil => exact ⟨rfl, .nil, Nat.zero_le _⟩
  | append_singleton ops op ih =>
      rw [reached, List.foldl_append]
      exact ih.apply op

/-! ## What a push guarantees -/

/-- After a push the chain ends with the block pushed; a push refused changes nothing. -/
structure PushPost (chain : Chain) (height : Int) (hash prevHash : Uint256) : Prop where
  ok : ∀ chain', (Chain.push height hash prevHash).run chain = .ok () chain' →
    chain'.getCurHeight = height ∧ chain'.getCurHash = hash ∧
      chain'.Contiguous ∧ chain'.size ≤ chain.limit
  error : ∀ e chain', (Chain.push height hash prevHash).run chain = .error e chain' →
    chain' = chain

/-- A block one below the tip, with the right parent, that is not the block stored there. -/
def SiblingRollback (chain : Chain) (height : Int) (hash prevHash : Uint256) : Prop :=
  height + 1 = chain.getCurHeight ∧ 3 < chain.size ∧
    chain.blocks[2]?.map Prod.snd = some prevHash ∧ chain.blocks[1]?.map Prod.snd ≠ some hash

theorem getElem?_one_of_lt_size (hsize : 3 < chain.size) :
    chain.blocks[1]? = some (chain.pop.getCurHeight, chain.pop.getCurHash) := by
  obtain ⟨limit, blocks⟩ := chain
  match blocks with
  | [] | [_] => simp [size] at hsize
  | _ :: second :: _ => rfl

theorem Contiguous.getCurHeight_pop (h : chain.Contiguous) (hsize : 1 < chain.size) :
    chain.pop.getCurHeight + 1 = chain.getCurHeight := by
  obtain ⟨limit, blocks⟩ := chain
  match blocks with
  | [] | [_] => simp [size] at hsize
  | last :: second :: rest =>
      rw [Contiguous, List.isChain_cons_cons] at h
      exact h.1.symm

/-- A push does what it is for unless it is a rollback to a sibling of the block stored. -/
theorem push_post_iff (limit : ℕ+) (ops : List Op) (height : Int) (hash prevHash : Uint256) :
    (reached limit ops).PushPost height hash prevHash ↔
      ¬(reached limit ops).SiblingRollback height hash prevHash := by
  have hwf := wellFormed_reached limit ops
  generalize reached limit ops = chain at hwf ⊢
  constructor
  · rintro hpost ⟨hback, hsize, hthird, hsecond⟩
    have hrun : (push height hash prevHash).run chain = _ := push_back hback hsize hthird
    have hhash := (hpost.ok _ hrun).2.1
    rw [getCurHash_dropOldest] at hhash
    apply hsecond
    rw [getElem?_one_of_lt_size hsize, ← hhash]
    rfl
  · intro hsibling
    refine ⟨fun chain' hrun => ?_, fun e chain' => push_eq_error⟩
    have hwf' := hwf.push hrun
    rw [hwf.limit_eq]
    refine ⟨?_, ?_, hwf'.contiguous, hwf'.size_le⟩
    · rcases push_eq_ok hrun with ⟨-, -, rfl⟩ | ⟨hback, hsize, -, rfl⟩
      · rw [getCurHeight_dropOldest]
        rfl
      · have := hwf.contiguous.getCurHeight_pop (by omega)
        rw [getCurHeight_dropOldest]
        omega
    · rcases push_eq_ok hrun with ⟨-, -, rfl⟩ | ⟨hback, hsize, hthird, rfl⟩
      · rw [getCurHash_dropOldest]
        rfl
      · rw [getCurHash_dropOldest]
        by_contra hne
        apply hsibling
        refine ⟨hback, hsize, hthird, ?_⟩
        rw [getElem?_one_of_lt_size hsize]
        simpa using hne

/-- The block 22 has the parent 11 of the block 12 that is stored. -/
theorem push_accepts_sibling : ¬∀ (limit : ℕ+) (ops : List Op) (height : Int)
    (hash prevHash : Uint256), (reached limit ops).PushPost height hash prevHash := by
  intro h
  have hpost := h 4032 [.pushFirst 0 10, .push 1 11 10, .push 2 12 11, .push 3 13 12] 2 22 11
  have hhash := (hpost.ok ⟨4032, [(2, 12), (1, 11), (0, 10)]⟩ rfl).2.1
  exact absurd hhash (by decide)

end Chain

end ExplorerKV.Logs

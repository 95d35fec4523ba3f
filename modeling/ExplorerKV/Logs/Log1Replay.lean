import ExplorerKV.Logs.Log1Producer

/-!
# The chain read back from log1

A restart rebuilds the chain from the block lines of log1, through the checks
of `push`.  The producer writes a line for a rollback after `pop`, which checks
nothing, or after a `push` on a chain that may still hold the configured begin
block, which no line has.  So a rollback near the start of log1 leaves a log
that cannot be read back; and so does a first start that ends before its first
block.
-/

namespace ExplorerKV.Logs

open Bitcoin Foundation

def Log1.isBlock : Log1 → Bool
  | .block _ _ => true
  | _ => false

/-- A log1 that `initLog1` finds a chain in: a new one, or one with a block line. -/
def HasBlocks (log1 : List Log1) : Prop := log1 = [] ∨ log1.any Log1.isBlock

instance (log1 : List Log1) : Decidable (HasBlocks log1) := inferInstanceAs (Decidable (_ ∨ _))

section Replay

variable {hashPrevBlock : Uint256 → Uint256} {cfg : BeginConfig} {log1 : List Log1} {r : Chain}
  {height : Int} {hash : Uint256}

def replay (hashPrevBlock : Uint256 → Uint256) (log1 : List Log1) :
    EStateM.Result ChainError Chain Unit :=
  (forM log1 (loadLine hashPrevBlock)).run Chain.empty

/-- The lines can be read one after the other. -/
def Reads (hashPrevBlock : Uint256 → Uint256) (log1 : List Log1) : Prop :=
  ∃ r, replay hashPrevBlock log1 = .ok () r

theorem Reads.of_prefix {log1' : List Log1} (h : Reads hashPrevBlock log1')
    (hbegins : log1 <+: log1') : Reads hashPrevBlock log1 := by
  obtain ⟨r, hr⟩ := h
  obtain ⟨lines, rfl⟩ := hbegins
  rw [replay, List.forM_append, EStateM.run_bind] at hr
  cases hlog1 : (forM log1 (loadLine hashPrevBlock)).run Chain.empty with
  | ok _ r => exact ⟨r, hlog1⟩
  | error e r =>
      rw [hlog1] at hr
      cases hr

theorem reads_of_initLog1 {chain : Chain} (h : initLog1 hashPrevBlock cfg log1 = .ok chain) :
    Reads hashPrevBlock log1 := by
  by_cases hlines : log1 = []
  · exact ⟨Chain.empty, by rw [hlines]; rfl⟩
  · rw [initLog1, loadLog1, if_neg hlines] at h
    cases hload : (forM log1 (loadLine hashPrevBlock)).run Chain.empty with
    | ok _ r => exact ⟨r, hload⟩
    | error e r =>
        rw [hload] at h
        cases h

theorem replay_snoc (h : replay hashPrevBlock log1 = .ok () r) (line : Log1) :
    replay hashPrevBlock (log1 ++ [line]) = (loadLine hashPrevBlock line).run r := by
  rw [replay] at h
  rw [replay, List.forM_append, EStateM.run_bind, h]
  dsimp only
  rw [List.forM_cons, EStateM.run_bind]
  cases (loadLine hashPrevBlock line).run r <;> rfl

theorem loadLine_block_run (height : Int) (hash : Uint256) (r : Chain) :
    (loadLine hashPrevBlock (.block height hash)).run r =
      if r.size = 0 then (Chain.pushFirst height hash).run r
      else (Chain.push height hash (hashPrevBlock hash)).run r := by
  rw [loadLine, EStateM.run_bind, EStateM.run_get]
  dsimp only
  split <;> rfl

/-- The chain read back: its blocks are linked, and above the configured one. -/
structure Replayed (hashPrevBlock : Uint256 → Uint256) (cfg : BeginConfig) (log1 : List Log1)
    (r : Chain) : Prop where
  replay_eq : replay hashPrevBlock log1 = .ok () r
  wellFormed : r.WellFormed Chain.empty.limit
  linked : r.blocks.IsChain fun block older => hashPrevBlock block.2 = older.2
  above : ∀ block ∈ r.blocks, cfg.beginHeight < block.1
  blocks_iff : r.blocks ≠ [] ↔ log1.any Log1.isBlock

namespace Replayed

theorem nil : Replayed hashPrevBlock cfg [] Chain.empty where
  replay_eq := rfl
  wellFormed := ⟨rfl, .nil, Nat.zero_le _⟩
  linked := .nil
  above := fun _ h => nomatch h
  blocks_iff := by simp [Chain.empty]

theorem initLog1_eq (h : Replayed hashPrevBlock cfg log1 r) (hlines : log1 ≠ []) :
    initLog1 hashPrevBlock cfg log1 = if r.size = 0 then .error .noBlocks else .ok r := by
  have hload : (loadLog1 hashPrevBlock cfg log1).run Chain.empty = .ok () r := by
    rw [loadLog1, if_neg hlines]
    exact h.replay_eq
  rw [initLog1, hload]

theorem blocks_ne_nil (h : Replayed hashPrevBlock cfg (log1 ++ [.block height hash]) r) :
    r.blocks ≠ [] :=
  h.blocks_iff.mpr (by simp [Log1.isBlock])

theorem tx (h : Replayed hashPrevBlock cfg log1 r) {line : Log1}
    (hline : ∀ height hash, line ≠ .block height hash) :
    Replayed hashPrevBlock cfg (log1 ++ [line]) r := by
  refine ⟨?_, h.wellFormed, h.linked, h.above, ?_⟩
  · rw [replay_snoc h.replay_eq]
    cases line with
    | block height hash => exact absurd rfl (hline height hash)
    | acceptTx hash | removeTx hash | clearMemtxs => rfl
  · rw [h.blocks_iff]
    cases line with
    | block height hash => exact absurd rfl (hline height hash)
    | acceptTx hash | removeTx hash | clearMemtxs => simp [Log1.isBlock]

theorem first (h : Replayed hashPrevBlock cfg log1 r) (hblocks : r.blocks = [])
    (hheight : cfg.beginHeight < height) :
    Replayed hashPrevBlock cfg (log1 ++ [.block height hash])
      { r with blocks := [(height, hash)] } := by
  have hsize : r.size = 0 := by rw [Chain.size, hblocks, List.length_nil]
  refine ⟨?_, ⟨h.wellFormed.limit_eq, .singleton _, ?_⟩, .singleton _, ?_, by simp [Log1.isBlock]⟩
  · rw [replay_snoc h.replay_eq, loadLine_block_run, if_pos hsize, Chain.pushFirst_run,
      if_neg (not_not.mpr hsize)]
  · exact Chain.empty.limit.pos
  · intro block hblock
    rw [List.mem_singleton.mp hblock]
    exact hheight

theorem push (h : Replayed hashPrevBlock cfg log1 r) (hblocks : r.blocks ≠ []) {r' : Chain}
    (hpush : (Chain.push height hash (hashPrevBlock hash)).run r = .ok () r') :
    Replayed hashPrevBlock cfg (log1 ++ [.block height hash]) r' := by
  have hsize : r.size ≠ 0 := by
    rwa [Chain.size, Ne, List.length_eq_zero_iff]
  obtain ⟨last, rest, hcons⟩ := List.exists_cons_of_ne_nil hblocks
  refine ⟨?_, h.wellFormed.push hpush, ?_, ?_, ?_⟩
  · rw [replay_snoc h.replay_eq, loadLine_block_run, if_neg hsize, hpush]
  · rcases Chain.push_eq_ok hpush with ⟨-, hprev, rfl⟩ | ⟨-, -, -, rfl⟩
    · apply List.IsChain.take
      rw [hcons]
      have hlinked := h.linked
      rw [hcons] at hlinked
      apply List.IsChain.cons_cons _ hlinked
      rw [hprev, Chain.getCurHash, hcons]
    · exact h.linked.tail.take _
  · rcases Chain.push_eq_ok hpush with ⟨hheight, -, rfl⟩ | ⟨-, -, -, rfl⟩
    · intro block hblock
      have hlast := h.above last (by rw [hcons]; exact List.mem_cons_self)
      rcases List.mem_cons.mp (List.mem_of_mem_take hblock) with rfl | hblock
      · rw [Chain.getCurHeight, hcons] at hheight
        dsimp only at hheight ⊢
        omega
      · exact h.above block hblock
    · intro block hblock
      exact h.above block (List.mem_of_mem_tail (List.mem_of_mem_take hblock))
  · have hne : r'.blocks ≠ [] := by
      rcases Chain.push_eq_ok hpush with ⟨-, -, rfl⟩ | ⟨-, hback, -, rfl⟩
      · simp [Chain.dropOldest]
      · rw [Chain.size] at hback
        have htail : r.blocks.tail ≠ [] := by
          rw [Ne, ← List.length_eq_zero_iff, List.length_tail]
          omega
        simpa [Chain.dropOldest, Chain.pop] using htail
    simp [hne, Log1.isBlock]

theorem back_of_lt_size (h : Replayed hashPrevBlock cfg log1 r) (hsize : 3 < r.size) :
    r.pop.getCurHeight + 1 = r.getCurHeight ∧
      r.blocks[2]?.map Prod.snd = some (hashPrevBlock r.pop.getCurHash) := by
  refine ⟨h.wellFormed.contiguous.getCurHeight_pop (by omega), ?_⟩
  have hlinked := h.linked
  obtain ⟨limit, blocks⟩ := r
  match blocks with
  | [] | [_] | [_, _] => simp [Chain.size] at hsize
  | last :: second :: third :: rest =>
      rw [List.isChain_cons_cons, List.isChain_cons_cons] at hlinked
      exact congrArg some hlinked.2.1.symm

theorem reads_back_iff (h : Replayed hashPrevBlock cfg log1 r) (hblocks : r.blocks ≠ [])
    (hheight : height + 1 = r.getCurHeight) :
    Reads hashPrevBlock (log1 ++ [.block height hash]) ↔
      3 < r.size ∧ r.blocks[2]?.map Prod.snd = some (hashPrevBlock hash) := by
  have hne : r.size ≠ 0 := by
    rwa [Chain.size, Ne, List.length_eq_zero_iff]
  have hnext : height ≠ r.getCurHeight + 1 := by omega
  rw [Reads, replay_snoc h.replay_eq, loadLine_block_run, if_neg hne, Chain.push_run,
    if_neg hnext, if_pos hheight]
  split_ifs with hsize hthird
  · refine ⟨?_, fun hfits => absurd hsize (not_le.mpr hfits.1)⟩
    rintro ⟨_, hr⟩
    cases hr
  · refine ⟨?_, fun hfits => absurd hfits.2 hthird⟩
    rintro ⟨_, hr⟩
    cases hr
  · exact ⟨fun _ => ⟨not_le.mp hsize, not_not.mp hthird⟩, fun _ => ⟨_, rfl⟩⟩

end Replayed

/-- `initLog1` begins with this block in a new directory. -/
def beginBlock (cfg : BeginConfig) : Int × Uint256 :=
  (cfg.beginHeight, if cfg.beginHeight ≥ 0 then cfg.beginHash else 0)

/-- The blocks in memory are those read back, or have the begin block below them. -/
def Above (cfg : BeginConfig) (logged blocks : List (Int × Uint256)) : Prop :=
  (logged ≠ [] ∧ blocks = logged) ∨ blocks = logged ++ [beginBlock cfg]

theorem Above.take {logged blocks : List (Int × Uint256)} (h : Above cfg logged blocks)
    (hlogged : logged ≠ []) (n : ℕ+) : Above cfg (logged.take n) (blocks.take n) := by
  have hne : logged.take n ≠ [] := by
    simpa [List.take_eq_nil_iff] using hlogged
  rcases h with ⟨-, rfl⟩ | rfl
  · exact .inl ⟨hne, rfl⟩
  · by_cases hlength : logged.length < n
    · right
      rw [List.take_of_length_le hlength.le, List.take_of_length_le]
      simpa using hlength
    · left
      exact ⟨hne, List.take_append_of_le_length (not_lt.mp hlength)⟩

theorem Above.cons {logged blocks : List (Int × Uint256)} (h : Above cfg logged blocks)
    (block : Int × Uint256) : Above cfg (block :: logged) (block :: blocks) := by
  rcases h with ⟨-, rfl⟩ | rfl
  · exact .inl ⟨List.cons_ne_nil _ _, rfl⟩
  · exact .inr rfl

theorem Above.tail {logged blocks : List (Int × Uint256)} (h : Above cfg logged blocks)
    (hlogged : logged.tail ≠ []) : Above cfg logged.tail blocks.tail := by
  rcases h with ⟨-, rfl⟩ | rfl
  · exact .inl ⟨hlogged, rfl⟩
  · cases logged with
    | nil => exact absurd rfl hlogged
    | cons block logged => exact .inr rfl

theorem Above.getElem? {logged blocks : List (Int × Uint256)} (h : Above cfg logged blocks)
    {i : Nat} (hi : i < logged.length) : logged[i]? = blocks[i]? := by
  rcases h with ⟨-, rfl⟩ | rfl
  · rfl
  · exact (List.getElem?_append_left hi).symm

theorem Above.head {chain : Chain} (h : Above cfg r.blocks chain.blocks) (hr : r.blocks ≠ []) :
    some (chain.getCurHeight, chain.getCurHash) = r.blocks.head? := by
  obtain ⟨last, rest, hcons⟩ := List.exists_cons_of_ne_nil hr
  rcases h with ⟨-, h⟩ | h <;> simp [Chain.getCurHeight, Chain.getCurHash, h, hcons]

def logged (cfg : BeginConfig) (chain : Chain) : List (Int × Uint256) :=
  chain.blocks.filter fun block => cfg.beginHeight < block.1

theorem Above.logged_eq {chain : Chain} (h : Above cfg r.blocks chain.blocks)
    (habove : ∀ block ∈ r.blocks, cfg.beginHeight < block.1) : logged cfg chain = r.blocks := by
  have hfilter : r.blocks.filter (fun block => cfg.beginHeight < block.1) = r.blocks :=
    List.filter_eq_self.mpr fun block hblock => decide_eq_true (habove block hblock)
  rw [logged]
  rcases h with ⟨-, h⟩ | h
  · rw [h, hfilter]
  · rw [h, List.filter_append, hfilter]
    simp [beginBlock]

theorem Replayed.pushBlock (h : Replayed hashPrevBlock cfg log1 r) {chain chain' : Chain}
    (hlimit : chain.limit = r.limit) (habove : Above cfg r.blocks chain.blocks)
    (hpush : (Chain.push height hash (hashPrevBlock hash)).run chain = .ok () chain')
    (hfits : height + 1 = chain.getCurHeight → 3 < r.size) :
    ∃ r', Replayed hashPrevBlock cfg (log1 ++ [.block height hash]) r' ∧
      chain'.limit = r'.limit ∧ Above cfg r'.blocks chain'.blocks := by
  by_cases hblocks : r.blocks = []
  · -- the first line
    have hbegin : chain.blocks = [beginBlock cfg] := by
      rcases habove with ⟨hne, -⟩ | habove
      · exact absurd hblocks hne
      · rw [habove, hblocks]
        rfl
    rcases Chain.push_eq_ok hpush with ⟨hheight, -, rfl⟩ | ⟨-, hsize, -⟩
    · have hcur : cfg.beginHeight < height := by
        rw [Chain.getCurHeight, hbegin] at hheight
        simp only [beginBlock] at hheight
        omega
      refine ⟨_, h.first hblocks hcur, hlimit, ?_⟩
      dsimp only [Chain.dropOldest]
      have hcons : Above cfg [(height, hash)] ((height, hash) :: chain.blocks) :=
        .inr (by rw [hbegin]; rfl)
      have htake := hcons.take (List.cons_ne_nil _ _) chain.limit
      rwa [List.take_of_length_le (l := [(height, hash)])] at htake
      exact chain.limit.pos
    · rw [Chain.size, hbegin] at hsize
      simp at hsize
  · have hcur : r.getCurHeight = chain.getCurHeight ∧ r.getCurHash = chain.getCurHash := by
      obtain ⟨last, rest, hcons⟩ := List.exists_cons_of_ne_nil hblocks
      rcases habove with ⟨-, habove⟩ | habove <;>
        simp [Chain.getCurHeight, Chain.getCurHash, habove, hcons]
    rcases Chain.push_eq_ok hpush with ⟨hheight, hprev, rfl⟩ | ⟨hheight, hsize, hthird, rfl⟩
    · have hrun : (Chain.push height hash (hashPrevBlock hash)).run r = _ :=
        Chain.push_next (hheight.trans (by rw [hcur.1])) (hprev.trans hcur.2.symm)
      refine ⟨_, h.push hblocks hrun, hlimit, ?_⟩
      dsimp only [Chain.dropOldest]
      rw [hlimit]
      exact (habove.cons _).take (List.cons_ne_nil _ _) _
    · rw [← hcur.1] at hheight
      have hrsize := hfits (by rw [← hcur.1]; exact hheight)
      rw [← habove.getElem? (by rw [← Chain.size]; omega)] at hthird
      have hrun : (Chain.push height hash (hashPrevBlock hash)).run r = _ :=
        Chain.push_back hheight hrsize hthird
      have htail : r.blocks.tail ≠ [] := by
        rw [Ne, ← List.length_eq_zero_iff, List.length_tail, ← Chain.size]
        omega
      refine ⟨_, h.push hblocks hrun, hlimit, ?_⟩
      dsimp only [Chain.dropOldest, Chain.pop]
      rw [hlimit]
      exact (habove.tail htail).take htail _

end Replay

namespace ProducerState

variable {hashPrevBlock : Uint256 → Uint256} {cfg : BeginConfig} {s s' : ProducerState}
  {r : Chain}

/-- Up to its first push a start has the blocks read back, or the begin block. -/
def FromLog1 (cfg : BeginConfig) (logged blocks : List (Int × Uint256)) : Prop :=
  (logged ≠ [] ∧ blocks = logged) ∨ (logged = [] ∧ blocks = [beginBlock cfg])

/-- How the chain in memory goes with the one read back from log1. -/
def Memory (cfg : BeginConfig) (s : ProducerState) (logged : List (Int × Uint256)) : Prop :=
  match s.pc with
  | .stopped => True
  | .clearing | .entering | .searching | .comparing => FromLog1 cfg logged s.chain.blocks
  | .popped => s.chain.blocks = logged.tail ∧ s.chain.blocks ≠ []
  | _ => Above cfg logged s.chain.blocks

structure ReplayInv (hashPrevBlock : Uint256 → Uint256) (cfg : BeginConfig) (s : ProducerState)
    (r : Chain) : Prop where
  replayed : Replayed hashPrevBlock cfg s.log1 r
  limit_eq : s.chain.limit = r.limit
  memory : s.Memory cfg r.blocks
  lastBlock : s.lastBlock = r.blocks.head?

/-- `initLog1` on the lines written so far gives the tip of the last block line. -/
def Replays (hashPrevBlock : Uint256 → Uint256) (cfg : BeginConfig) (s : ProducerState) : Prop :=
  ∃ chain, initLog1 hashPrevBlock cfg s.log1 = .ok chain ∧
    ∀ tip, s.lastBlock = some tip → (chain.getCurHeight, chain.getCurHash) = tip

/-- A rollback that `push` accepts. -/
def RollsBack (hashPrevBlock : Uint256 → Uint256) (chain : Chain) (height : Int)
    (hash : Uint256) : Prop :=
  height + 1 = chain.getCurHeight ∧ 3 < chain.size ∧
    chain.blocks[2]?.map Prod.snd = some (hashPrevBlock hash)

/-- A rollback line is written only after more than three blocks with lines; and what
bitcoind answers for it is the child of the block below, as the block asked for is. -/
def ReplayFits (hashPrevBlock : Uint256 → Uint256) (cfg : BeginConfig) (s : ProducerState) :
    ProducerAction → Prop
  | .getBlock (some block) => s.pc = .popped → 3 ≤ (logged cfg s.chain).length ∧
      s.chain.blocks[1]?.map Prod.snd = some (hashPrevBlock block)
  | .log0Item (.block height hash) =>
      RollsBack hashPrevBlock s.chain height hash → 3 < (logged cfg s.chain).length
  | _ => True

instance {chain : Chain} {height : Int} {hash : Uint256} :
    Decidable (RollsBack hashPrevBlock chain height hash) :=
  inferInstanceAs (Decidable (_ ∧ _ ∧ _))

instance : (a : ProducerAction) → Decidable (s.ReplayFits hashPrevBlock cfg a)
  | .getBlock (some _) | .log0Item (.block _ _) => inferInstanceAs (Decidable (_ → _))
  | .getBlock none | .log0Item (.acceptTx _) | .log0Item (.removeTx _) | .log0Item .clearMemtxs
  | .start _ | .stop | .exit | .proceed | .getBlockHash _ | .writeLog0IdxOffset _ _ =>
      .isTrue trivial

theorem FromLog1.above {logged blocks : List (Int × Uint256)}
    (h : FromLog1 cfg logged blocks) : Above cfg logged blocks := by
  rcases h with h | ⟨rfl, rfl⟩
  · exact .inl h
  · exact .inr rfl

theorem initLog1_of_replayed (h : Replayed hashPrevBlock cfg s.log1 r) :
    (∃ chain, initLog1 hashPrevBlock cfg s.log1 = .ok chain) ↔ HasBlocks s.log1 := by
  by_cases hlines : s.log1 = []
  · rw [hlines, HasBlocks]
    exact iff_of_true ⟨_, rfl⟩ (.inl rfl)
  · rw [h.initLog1_eq hlines, HasBlocks, or_iff_right hlines, ← h.blocks_iff]
    split_ifs with hsize
    · rw [Chain.size, List.length_eq_zero_iff] at hsize
      simp [hsize]
    · rw [Chain.size, List.length_eq_zero_iff] at hsize
      exact iff_of_true ⟨_, rfl⟩ hsize

theorem replays_of_replayInv (h : s.ReplayInv hashPrevBlock cfg r) (hblocks : HasBlocks s.log1) :
    s.Replays hashPrevBlock cfg := by
  obtain ⟨chain, hinit⟩ := (initLog1_of_replayed h.replayed).mpr hblocks
  refine ⟨chain, hinit, fun tip htip => ?_⟩
  rw [h.lastBlock] at htip
  have hne : r.blocks ≠ [] := by
    rintro hnil
    rw [hnil] at htip
    cases htip
  have hlines : s.log1 ≠ [] := by
    rintro hnil
    exact absurd (h.replayed.blocks_iff.mp hne) (by simp [hnil])
  rw [h.replayed.initLog1_eq hlines, if_neg (by rwa [Chain.size, List.length_eq_zero_iff])] at hinit
  obtain rfl := Except.ok.inj hinit
  obtain ⟨block, rest, hcons⟩ := List.exists_cons_of_ne_nil hne
  rw [hcons, List.head?_cons] at htip
  rw [Chain.getCurHeight, Chain.getCurHash, hcons]
  exact Option.some.inj htip

theorem replayInv_initial : initial.ReplayInv hashPrevBlock cfg Chain.empty :=
  ⟨.nil, rfl, trivial, rfl⟩

/-! ## One step -/

theorem fromLog1_of_initLog1 {log1 : List Log1} {chain : Chain}
    (h : Replayed hashPrevBlock cfg log1 r)
    (hinit : initLog1 hashPrevBlock cfg log1 = .ok chain) :
    chain.limit = r.limit ∧ FromLog1 cfg r.blocks chain.blocks := by
  by_cases hlines : log1 = []
  · subst hlines
    have hr : r = Chain.empty := by
      have hreplay := h.replay_eq
      cases hreplay
      rfl
    subst hr
    rw [initLog1, loadLog1, if_pos rfl, Chain.pushFirst_run] at hinit
    simp only [Chain.size, Chain.empty, List.length_nil, ne_eq, not_true_eq_false, if_false,
      List.length_singleton, Nat.one_ne_zero, Except.ok.injEq] at hinit
    subst hinit
    exact ⟨rfl, .inr ⟨rfl, rfl⟩⟩
  · have hload : (loadLog1 hashPrevBlock cfg log1).run Chain.empty = .ok () r := by
      rw [loadLog1, if_neg hlines]
      exact h.replay_eq
    rw [initLog1, hload] at hinit
    dsimp only at hinit
    split_ifs at hinit with hsize
    cases hinit
    refine ⟨rfl, .inl ⟨?_, rfl⟩⟩
    rwa [Chain.size, List.length_eq_zero_iff] at hsize

theorem replayInv_start (h : s.ReplayInv hashPrevBlock cfg r) (hstopped : s.pc = .stopped)
    (log0 : Log0) : (s.start hashPrevBlock cfg log0).ReplayInv hashPrevBlock cfg r := by
  rw [start]
  cases hinit : initLog1 hashPrevBlock cfg s.log1 with
  | error e => exact h
  | ok chain =>
      obtain ⟨hlimit, hfrom⟩ := fromLog1_of_initLog1 h.replayed hinit
      dsimp only
      split_ifs
      · exact ⟨h.replayed, hlimit, hfrom, h.lastBlock⟩
      · split
        · refine ⟨h.replayed, hlimit, ?_, h.lastBlock⟩
          simp only [Memory, hstopped]
        · exact ⟨h.replayed, hlimit, hfrom.above, h.lastBlock⟩

theorem replayInv_leaveSearch (h : s.ReplayInv hashPrevBlock cfg r)
    (habove : Above cfg r.blocks s.chain.blocks) :
    s.leaveSearch.ReplayInv hashPrevBlock cfg r := by
  rw [leaveSearch]
  split
  · exact ⟨h.replayed, h.limit_eq, trivial, h.lastBlock⟩
  · exact ⟨h.replayed, h.limit_eq, habove, h.lastBlock⟩

theorem replayInv_proceed (h : s.ReplayInv hashPrevBlock cfg r) (hstep : s.proceed = some s') :
    s'.ReplayInv hashPrevBlock cfg r := by
  have hmemory := h.memory
  cases hpc : s.pc with
  | clearing =>
      simp only [Memory, hpc] at hmemory
      simp only [proceed, hpc, Option.some_inj] at hstep
      subst hstep
      exact ⟨h.replayed.tx (fun _ _ h => nomatch h), h.limit_eq, hmemory, h.lastBlock⟩
  | entering =>
      simp only [Memory, hpc] at hmemory
      simp only [proceed, hpc] at hstep
      split_ifs at hstep
      · cases hstep
        exact ⟨h.replayed, h.limit_eq, hmemory.above, h.lastBlock⟩
      · split at hstep
        · cases hstep
          exact ⟨h.replayed, h.limit_eq, hmemory, h.lastBlock⟩
        · cases hstep
          exact ⟨h.replayed, h.limit_eq, trivial, h.lastBlock⟩
  | searching =>
      simp only [Memory, hpc] at hmemory
      simp only [proceed, hpc] at hstep
      split_ifs at hstep
      · cases hstep
        exact ⟨h.replayed, h.limit_eq, hmemory, h.lastBlock⟩
      · cases hstep
        exact replayInv_leaveSearch h hmemory.above
  | following =>
      simp only [Memory, hpc] at hmemory
      simp only [proceed, hpc] at hstep
      split_ifs at hstep
      · cases hstep
        exact ⟨h.replayed, h.limit_eq, hmemory, h.lastBlock⟩
      · cases hstep
        exact ⟨h.replayed, h.limit_eq, hmemory, h.lastBlock⟩
  | recordingBeginTime | recordingPosition =>
      simp only [Memory, hpc] at hmemory
      simp only [proceed, hpc, Option.some_inj] at hstep
      subst hstep
      exact ⟨h.replayed, h.limit_eq, hmemory, h.lastBlock⟩
  | stopped | comparing | popped | fetchingHash | fetchingBlock hash | running =>
      simp [proceed, hpc] at hstep

theorem replayInv_getBlockHash {hash : Uint256} (h : s.ReplayInv hashPrevBlock cfg r)
    (hstep : s.getBlockHash hash = some s') : s'.ReplayInv hashPrevBlock cfg r := by
  have hmemory := h.memory
  cases hpc : s.pc with
  | comparing =>
      simp only [Memory, hpc] at hmemory
      simp only [getBlockHash, hpc] at hstep
      split_ifs at hstep with hsame hsize
      · cases hstep
        exact replayInv_leaveSearch h hmemory.above
      · cases hstep
        exact ⟨h.replayed, h.limit_eq, trivial, h.lastBlock⟩
      · cases hstep
        rw [Chain.size, List.length_eq_zero_iff] at hsize
        refine ⟨h.replayed, h.limit_eq, ⟨?_, hsize⟩, h.lastBlock⟩
        rcases hmemory with ⟨-, hblocks⟩ | ⟨-, hblocks⟩
        · rw [Chain.pop, hblocks]
        · rw [Chain.pop, hblocks] at hsize
          exact absurd rfl hsize
  | fetchingHash =>
      simp only [Memory, hpc] at hmemory
      simp only [getBlockHash, hpc, Option.some_inj] at hstep
      subst hstep
      exact ⟨h.replayed, h.limit_eq, hmemory, h.lastBlock⟩
  | _ => simp [getBlockHash, hpc] at hstep

/-- `push` and the line, when the line can be read. -/
theorem replayInv_pushBlock (h : s.ReplayInv hashPrevBlock cfg r) {height : Int} {hash : Uint256}
    (hpc : s.pc = .following ∨ s.pc = .running) (habove : Above cfg r.blocks s.chain.blocks)
    (hfits : RollsBack hashPrevBlock s.chain height hash → 3 < (logged cfg s.chain).length) :
    ∃ r', (s.pushBlock hashPrevBlock height hash).ReplayInv hashPrevBlock cfg r' := by
  rw [pushBlock]
  cases hpush : (Chain.push height hash (hashPrevBlock hash)).run s.chain with
  | error e chain =>
      obtain rfl := Chain.push_eq_error hpush
      exact ⟨r, h.replayed, h.limit_eq, trivial, h.lastBlock⟩
  | ok _ chain =>
      have hsize : height + 1 = s.chain.getCurHeight → 3 < r.size := by
        intro hheight
        rcases Chain.push_eq_ok hpush with ⟨hnext, -⟩ | ⟨hback, hsize, hthird, -⟩
        · omega
        · have := hfits ⟨hback, hsize, hthird⟩
          rwa [habove.logged_eq h.replayed.above] at this
      obtain ⟨r', hreplayed, hlimit, habove'⟩ :=
        h.replayed.pushBlock h.limit_eq habove hpush hsize
      refine ⟨r', hreplayed, hlimit, ?_, habove'.head hreplayed.blocks_ne_nil⟩
      rcases hpc with hpc | hpc <;> simpa only [Memory, writeLog1Block, writeLog1, hpc] using
        habove'

/-- After a `pop` all blocks in memory have lines, and one more block has. -/
theorem logged_of_popped (h : s.ReplayInv hashPrevBlock cfg r) (hpc : s.pc = .popped) :
    s.chain.blocks = r.blocks.tail ∧ s.chain.blocks ≠ [] ∧
      (logged cfg s.chain).length + 1 = r.size := by
  have hmemory := h.memory
  simp only [Memory, hpc] at hmemory
  obtain ⟨htail, hne⟩ := hmemory
  have hall : ∀ b ∈ s.chain.blocks, cfg.beginHeight < b.1 := by
    intro b hb
    rw [htail] at hb
    exact h.replayed.above b (List.mem_of_mem_tail hb)
  have hlogged : logged cfg s.chain = s.chain.blocks :=
    List.filter_eq_self.mpr fun b hb => decide_eq_true (hall b hb)
  have hpos := List.length_pos_of_ne_nil hne
  refine ⟨htail, hne, ?_⟩
  rw [htail, List.length_tail] at hpos
  rw [hlogged, htail, List.length_tail, Chain.size]
  omega

theorem getCurHeight_popped (h : s.ReplayInv hashPrevBlock cfg r) (hpc : s.pc = .popped) :
    s.chain.getCurHeight + 1 = r.getCurHeight := by
  obtain ⟨htail, hne, -⟩ := logged_of_popped h hpc
  have hpos := List.length_pos_of_ne_nil hne
  rw [htail, List.length_tail] at hpos
  rw [Chain.getCurHeight, htail]
  apply h.replayed.wellFormed.contiguous.getCurHeight_pop
  rw [Chain.size]
  omega

/-- The line of a `pop` can be read just if it fits. -/
theorem reads_popped_iff (h : s.ReplayInv hashPrevBlock cfg r) (hpc : s.pc = .popped)
    (block : Uint256) : Reads hashPrevBlock (s.log1 ++ [.block s.chain.getCurHeight block]) ↔
      3 ≤ (logged cfg s.chain).length ∧
        s.chain.blocks[1]?.map Prod.snd = some (hashPrevBlock block) := by
  obtain ⟨htail, hne, hlength⟩ := logged_of_popped h hpc
  have hrne : r.blocks ≠ [] := by
    rintro hnil
    rw [htail, hnil] at hne
    exact hne rfl
  rw [h.replayed.reads_back_iff hrne (getCurHeight_popped h hpc), htail, List.getElem?_tail,
    ← hlength, Nat.lt_add_one_iff]

theorem replayFits_asked (h : s.ReplayInv hashPrevBlock cfg r)
    (hfew : s.pc = .popped → 3 ≤ (logged cfg s.chain).length) :
    s.ReplayFits hashPrevBlock cfg (.getBlock (some s.chain.getCurHash)) := by
  intro hpc
  obtain ⟨htail, -, hlength⟩ := logged_of_popped h hpc
  have hthird := (h.replayed.back_of_lt_size (by have := hfew hpc; omega)).2
  have hhash : s.chain.getCurHash = r.pop.getCurHash := by
    rw [Chain.getCurHash, htail]
    rfl
  refine ⟨hfew hpc, ?_⟩
  rw [htail, List.getElem?_tail, hhash]
  exact hthird

theorem replayInv_popped {block : Uint256} (h : s.ReplayInv hashPrevBlock cfg r)
    (hpc : s.pc = .popped) (hfits : s.ReplayFits hashPrevBlock cfg (.getBlock (some block))) :
    ∃ r', ProducerState.ReplayInv hashPrevBlock cfg
      { s.writeLog1Block s.chain.getCurHeight block with pc := .searching } r' := by
  obtain ⟨htail, hne, hlength⟩ := logged_of_popped h hpc
  obtain ⟨hfew, hparent⟩ := hfits hpc
  have hr : r.pop.dropOldest = r.pop := by
    have hle := h.replayed.wellFormed.size_le
    rw [Chain.dropOldest, List.take_of_length_le]
    rw [← h.replayed.wellFormed.limit_eq, Chain.size] at hle
    simp only [Chain.pop, List.length_tail]
    omega
  have hrne : r.blocks ≠ [] := by
    rintro hnil
    rw [htail, hnil] at hne
    exact hne rfl
  have hthird : r.blocks[2]?.map Prod.snd = some (hashPrevBlock block) := by
    rw [← hparent, htail, List.getElem?_tail]
  have hrun : (Chain.push s.chain.getCurHeight block (hashPrevBlock block)).run r = _ :=
    Chain.push_back (getCurHeight_popped h hpc) (by omega) hthird
  rw [hr] at hrun
  refine ⟨r.pop, h.replayed.push hrne hrun, h.limit_eq, .inl ⟨?_, htail⟩, ?_⟩
  · rw [Chain.pop, ← htail]
    exact hne
  · obtain ⟨last, rest, hcons⟩ := List.exists_cons_of_ne_nil hne
    simp only [writeLog1Block, writeLog1, Chain.pop, ← htail]
    simp [Chain.getCurHeight, Chain.getCurHash, hcons]

theorem replayInv_getBlock {block : Uint256} (h : s.ReplayInv hashPrevBlock cfg r)
    (hfits : s.ReplayFits hashPrevBlock cfg (.getBlock (some block)))
    (hstep : s.getBlock hashPrevBlock block = some s') :
    ∃ r', s'.ReplayInv hashPrevBlock cfg r' := by
  have hmemory := h.memory
  cases hpc : s.pc with
  | popped =>
      simp only [getBlock, hpc, Option.some_inj] at hstep
      rw [← hstep]
      exact replayInv_popped h hpc hfits
  | fetchingBlock hash =>
      simp only [Memory, hpc] at hmemory
      simp only [getBlock, hpc] at hstep
      split_ifs at hstep
      · cases hstep
        have hfollowing :
            ProducerState.ReplayInv hashPrevBlock cfg { s with pc := .following } r :=
          ⟨h.replayed, h.limit_eq, hmemory, h.lastBlock⟩
        apply replayInv_pushBlock hfollowing (.inl rfl) hmemory
        intro hback
        have hheight := hback.1
        dsimp only at hheight
        omega
      · cases hstep
        exact ⟨r, h.replayed, h.limit_eq, trivial, h.lastBlock⟩
  | _ => simp [getBlock, hpc] at hstep

theorem replayInv_log0Item (h : s.ReplayInv hashPrevBlock cfg r) (hpc : s.pc = .running)
    {item : Log1} (hfits : s.ReplayFits hashPrevBlock cfg (.log0Item item)) :
    ∃ r', (s.log0Item hashPrevBlock item).ReplayInv hashPrevBlock cfg r' := by
  have hmemory := h.memory
  simp only [Memory, hpc] at hmemory
  cases item with
  | block height hash => exact replayInv_pushBlock h (.inr hpc) hmemory hfits
  | acceptTx hash | removeTx hash =>
      refine ⟨r, h.replayed.tx (fun _ _ h => nomatch h), h.limit_eq, ?_, h.lastBlock⟩
      simpa only [Memory, log0Item, writeLog1, hpc] using hmemory
  | clearMemtxs => exact ⟨r, h.replayed, h.limit_eq, trivial, h.lastBlock⟩

theorem replayInv_step {a : ProducerAction} (h : s.ReplayInv hashPrevBlock cfg r)
    (hfits : s.ReplayFits hashPrevBlock cfg a)
    (hstep : step hashPrevBlock cfg s a = some s') :
    ∃ r', s'.ReplayInv hashPrevBlock cfg r' := by
  cases a with
  | start log0 =>
      obtain ⟨hstopped, hs⟩ := Option.ite_some_none_eq_some.mp hstep
      rw [← hs]
      exact ⟨r, replayInv_start h hstopped log0⟩
  | stop =>
      cases hstep
      exact ⟨r, h.replayed, h.limit_eq, h.memory, h.lastBlock⟩
  | exit =>
      cases hstep
      exact ⟨r, h.replayed, h.limit_eq, trivial, h.lastBlock⟩
  | proceed => exact ⟨r, replayInv_proceed h hstep⟩
  | getBlockHash answer =>
      cases answer with
      | none =>
          obtain ⟨-, hs⟩ := Option.ite_some_none_eq_some.mp hstep
          rw [← hs]
          exact ⟨r, h.replayed, h.limit_eq, trivial, h.lastBlock⟩
      | some hash => exact ⟨r, replayInv_getBlockHash h hstep⟩
  | getBlock answer =>
      cases answer with
      | none =>
          obtain ⟨-, hs⟩ := Option.ite_some_none_eq_some.mp hstep
          rw [← hs]
          exact ⟨r, h.replayed, h.limit_eq, trivial, h.lastBlock⟩
      | some block => exact replayInv_getBlock h hfits hstep
  | log0Item item =>
      obtain ⟨hpc, hs⟩ := Option.ite_some_none_eq_some.mp hstep
      rw [← hs]
      exact replayInv_log0Item h hpc hfits
  | writeLog0IdxOffset index offset =>
      obtain ⟨hpc, hs⟩ := Option.ite_some_none_eq_some.mp hstep
      rw [← hs]
      have hmemory := h.memory
      refine ⟨r, h.replayed, h.limit_eq, ?_, h.lastBlock⟩
      simpa only [Memory, hpc] using hmemory

theorem not_reads_step {a : ProducerAction} (h : s.ReplayInv hashPrevBlock cfg r)
    (hfits : ¬s.ReplayFits hashPrevBlock cfg a)
    (hstep : step hashPrevBlock cfg s a = some s') : ¬Reads hashPrevBlock s'.log1 := by
  cases a with
  | getBlock answer =>
      cases answer with
      | none => exact absurd trivial hfits
      | some block =>
          simp only [ReplayFits, Classical.not_imp] at hfits
          obtain ⟨hpc, hunfit⟩ := hfits
          simp only [step, getBlock, hpc, Option.some_inj] at hstep
          subst hstep
          exact fun hreads => hunfit ((reads_popped_iff h hpc block).mp hreads)
  | log0Item item =>
      cases item with
      | block height hash =>
          simp only [ReplayFits, Classical.not_imp, not_lt] at hfits
          obtain ⟨⟨hback, hsize, hthird⟩, hfew⟩ := hfits
          obtain ⟨hpc, hs⟩ := Option.ite_some_none_eq_some.mp hstep
          have hmemory := h.memory
          simp only [Memory, hpc] at hmemory
          rw [hmemory.logged_eq h.replayed.above] at hfew
          have hrne : r.blocks ≠ [] := by
            intro hnil
            rcases hmemory with ⟨hne, -⟩ | hblocks
            · exact hne hnil
            · rw [Chain.size, hblocks, hnil] at hsize
              simp at hsize
          have hheight : height + 1 = r.getCurHeight := by
            rw [hback]
            have hhead := hmemory.head hrne
            obtain ⟨last, rest, hcons⟩ := List.exists_cons_of_ne_nil hrne
            rw [hcons, List.head?_cons, Option.some_inj] at hhead
            rw [Chain.getCurHeight.eq_def r, hcons]
            exact congrArg Prod.fst hhead
          rw [log0Item, pushBlock, Chain.push_back hback hsize hthird] at hs
          subst hs
          exact fun hreads => absurd ((h.replayed.reads_back_iff hrne hheight).mp hreads).1
            (not_lt.mpr hfew)
      | acceptTx hash | removeTx hash | clearMemtxs => exact absurd trivial hfits
  | getBlockHash answer => cases answer <;> exact absurd trivial hfits
  | start log0 | stop | exit | proceed | writeLog0IdxOffset index offset =>
      exact absurd trivial hfits

/-! ## Lines stay -/

theorem log1_start (log0 : Log0) : (s.start hashPrevBlock cfg log0).log1 = s.log1 := by
  rw [start]
  split
  · rfl
  · dsimp only
    split_ifs
    · rfl
    · split <;> rfl

theorem log1_pushBlock (height : Int) (hash : Uint256) :
    s.log1 <+: (s.pushBlock hashPrevBlock height hash).log1 := by
  rw [pushBlock]
  split
  · exact List.prefix_rfl
  · exact List.prefix_append _ _

theorem log1_leaveSearch : s.leaveSearch.log1 = s.log1 := by
  rw [leaveSearch]
  split <;> rfl

theorem log1_proceed (hstep : s.proceed = some s') : s.log1 <+: s'.log1 := by
  rw [proceed] at hstep
  split at hstep
  · cases hstep
    exact List.prefix_append _ _
  · split_ifs at hstep
    · cases hstep
      exact List.prefix_rfl
    · split at hstep <;> cases hstep <;> exact List.prefix_rfl
  · split_ifs at hstep
    · cases hstep
      exact List.prefix_rfl
    · cases hstep
      rw [log1_leaveSearch]
  · split_ifs at hstep <;> cases hstep <;> exact List.prefix_rfl
  · cases hstep
    exact List.prefix_rfl
  · cases hstep
    exact List.prefix_rfl
  · cases hstep

theorem log1_step {a : ProducerAction} (hstep : step hashPrevBlock cfg s a = some s') :
    s.log1 <+: s'.log1 := by
  cases a with
  | start log0 =>
      obtain ⟨-, hs⟩ := Option.ite_some_none_eq_some.mp hstep
      rw [← hs, log1_start]
  | stop | exit =>
      cases hstep
      exact List.prefix_rfl
  | proceed => exact log1_proceed hstep
  | getBlockHash answer =>
      cases answer with
      | none =>
          obtain ⟨-, hs⟩ := Option.ite_some_none_eq_some.mp hstep
          rw [← hs]
      | some hash =>
          simp only [step, getBlockHash] at hstep
          split at hstep
          · split_ifs at hstep <;> cases hstep
            · rw [log1_leaveSearch]
            · exact List.prefix_rfl
            · exact List.prefix_rfl
          · cases hstep
            exact List.prefix_rfl
          · cases hstep
  | getBlock answer =>
      cases answer with
      | none =>
          obtain ⟨-, hs⟩ := Option.ite_some_none_eq_some.mp hstep
          rw [← hs]
      | some block =>
          simp only [step, getBlock] at hstep
          split at hstep
          · cases hstep
            exact List.prefix_append _ _
          · split_ifs at hstep <;> cases hstep
            · exact log1_pushBlock (s := { s with pc := .following }) _ _
            · exact List.prefix_rfl
          · cases hstep
  | log0Item item =>
      obtain ⟨-, hs⟩ := Option.ite_some_none_eq_some.mp hstep
      rw [← hs]
      cases item with
      | block height hash => exact log1_pushBlock height hash
      | acceptTx hash | removeTx hash => exact List.prefix_append _ _
      | clearMemtxs => exact List.prefix_rfl
  | writeLog0IdxOffset index offset =>
      obtain ⟨-, hs⟩ := Option.ite_some_none_eq_some.mp hstep
      rw [← hs]

/-! ## Runs -/

theorem exists_replayInv {schedule : List ProducerAction}
    (hrun : run hashPrevBlock cfg schedule = some s)
    (hfits : EachStep (step hashPrevBlock cfg) (ReplayFits hashPrevBlock cfg) .initial schedule) :
    ∃ r, s.ReplayInv hashPrevBlock cfg r := by
  refine runs_inv_of_each (fun s => ∃ r, s.ReplayInv hashPrevBlock cfg r)
    ⟨_, replayInv_initial⟩ ?_ hrun hfits
  rintro a t t' ⟨r, h⟩ hfit htt'
  exact replayInv_step h hfit htt'

theorem reads_iff {schedule : List ProducerAction}
    (hrun : run hashPrevBlock cfg schedule = some s) : Reads hashPrevBlock s.log1 ↔
      EachStep (step hashPrevBlock cfg) (ReplayFits hashPrevBlock cfg) .initial schedule := by
  constructor
  · intro hreads
    induction schedule using List.reverseRecOn generalizing s with
    | nil => exact eachStep_nil
    | append_singleton as a ih =>
        obtain ⟨t, has, ha⟩ := runs_snoc.mp hrun
        have hfits := ih has (hreads.of_prefix (log1_step ha))
        apply eachStep_snoc hfits
        intro t' ht'
        obtain rfl : t = t' := Option.some_inj.mp (has.symm.trans ht')
        obtain ⟨r, hinv⟩ := exists_replayInv has hfits
        by_contra hunfit
        exact not_reads_step hinv hunfit ha hreads
  · intro hfits
    obtain ⟨r, hinv⟩ := exists_replayInv hrun hfits
    exact ⟨r, hinv.replayed.replay_eq⟩

theorem initLog1_iff {schedule : List ProducerAction}
    (hrun : run hashPrevBlock cfg schedule = some s) :
    (∃ chain, initLog1 hashPrevBlock cfg s.log1 = .ok chain) ↔ HasBlocks s.log1 ∧
      EachStep (step hashPrevBlock cfg) (ReplayFits hashPrevBlock cfg) .initial schedule := by
  rw [← reads_iff hrun]
  constructor
  · rintro ⟨chain, hinit⟩
    have hreads := reads_of_initLog1 hinit
    obtain ⟨r, hinv⟩ := exists_replayInv hrun ((reads_iff hrun).mp hreads)
    exact ⟨(initLog1_of_replayed hinv.replayed).mp ⟨chain, hinit⟩, hreads⟩
  · rintro ⟨hblocks, hreads⟩
    obtain ⟨r, hinv⟩ := exists_replayInv hrun ((reads_iff hrun).mp hreads)
    exact (initLog1_of_replayed hinv.replayed).mpr hblocks

end ProducerState

open ProducerState

/-- `initLog1` gives the tip after a run exactly if log1 is new or has a block, and each
rollback of the run fits. -/
theorem log1_replay_iff (hashPrevBlock : Uint256 → Uint256) (cfg : BeginConfig)
    (schedule : List ProducerAction) (s : ProducerState)
    (hrun : ProducerState.run hashPrevBlock cfg schedule = some s) :
    s.Replays hashPrevBlock cfg ↔ HasBlocks s.log1 ∧
      EachStep (step hashPrevBlock cfg) (ReplayFits hashPrevBlock cfg) .initial schedule := by
  constructor
  · rintro ⟨chain, hinit, -⟩
    exact (initLog1_iff hrun).mp ⟨chain, hinit⟩
  · rintro ⟨hblocks, hfits⟩
    obtain ⟨r, hinv⟩ := exists_replayInv hrun hfits
    exact replays_of_replayInv hinv hblocks

def log0OfBlock1 : Log0 where
  beginTime := [49]
  firstLine := some (.block 0 1)
  secondLineOffset := 300
  height_nonneg := by
    intro height hash h
    cases h
    exact le_refl 0

/-- A first start, `n` blocks of log0 and a rollback of the last; the hash of a
block is one above that of its parent. -/
def rollbackAfter (n : Nat) : List ProducerAction :=
  [.start log0OfBlock1, .proceed, .proceed, .proceed, .proceed, .getBlockHash (some 1),
    .getBlock (some 1), .proceed, .proceed, .proceed] ++
  (List.range n).map (fun (i : Nat) => .log0Item (.block (i + 1) (Fin.ofNat _ (i + 2)))) ++
  [.log0Item (.block (n - 1) (Fin.ofNat _ n))]

theorem log1_replay_iff_example :
    ∃ s, ProducerState.run (fun hash => hash - 1) ⟨-1, 0⟩ (rollbackAfter 3) = some s ∧
      s.Replays (fun hash => hash - 1) ⟨-1, 0⟩ := by
  have hblocks : (ProducerState.run (fun hash => hash - 1) ⟨-1, 0⟩ (rollbackAfter 3)).map
      (fun s => decide (HasBlocks s.log1)) = some true := by decide +kernel
  obtain ⟨s, hs, hhas⟩ := Option.map_eq_some_iff.mp hblocks
  exact ⟨s, hs, (log1_replay_iff _ _ (rollbackAfter 3) s hs).mpr
    ⟨of_decide_eq_true hhas, by decide +kernel⟩⟩

def unreadableRuns : List (List ProducerAction) :=
  [rollbackAfter 2, [.start log0OfBlock1, .proceed, .exit]]

theorem log1_replay_fails : ¬∃ schedule ∈ unreadableRuns,
    ∀ (hashPrevBlock : Uint256 → Uint256) (cfg : BeginConfig) (s : ProducerState),
      ProducerState.run hashPrevBlock cfg schedule = some s → s.Replays hashPrevBlock cfg := by
  rintro ⟨schedule, hmem, h⟩
  have hfails : ∀ schedule ∈ unreadableRuns,
      (ProducerState.run (fun hash => hash - 1) ⟨-1, 0⟩ schedule).map
        (fun s => (initLog1 (fun hash => hash - 1) ⟨-1, 0⟩ s.log1).toOption) = some none := by
    decide +kernel
  obtain ⟨s, hs, heq⟩ := Option.map_eq_some_iff.mp (hfails schedule hmem)
  obtain ⟨chain, hinit, -⟩ := h _ _ s hs
  rw [hinit] at heq
  cases heq

end ExplorerKV.Logs

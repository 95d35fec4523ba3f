import ExplorerKV.Logs.Log1Replay

/-!
# From bitcoind's answers to its log

`init` records that log0 is followed when `syncBitcoind` has returned.  The
chain should then end with the first line of log0; but `syncBitcoind` returns
as well when it is stopped, and it never compares the hash of that line.  A
start that has recorded nothing is made good by the next one, if that can read
log1 back.
-/

namespace ExplorerKV.Logs

open Bitcoin Foundation

namespace ProducerState

variable {hashPrevBlock : Uint256 → Uint256} {cfg : BeginConfig} {s s' : ProducerState}

/-- The chain ends with the first line of log0. -/
def Synced (s : ProducerState) : Prop :=
  s.log0.firstLine = some (.block s.chain.getCurHeight s.chain.getCurHash)

def FirstLineRead (s : ProducerState) : Prop :=
  s.log0.firstLine = some (.block s.log0FirstLineHeight s.log0FirstLineHash)

/-- A start with the same log0 synchronises again. -/
def Unrecorded (s : ProducerState) : Prop :=
  s.log0.beginTime ≠ s.log0BeginTime

def inSync (s : ProducerState) : Bool :=
  match s.pc with
  | .stopped | .recordingBeginTime | .recordingPosition | .running => false
  | _ => true

/-- What holds of a chain that catches up. -/
def NotBeyond (s : ProducerState) : Prop :=
  s.chain.getCurHeight ≤ s.log0FirstLineHeight ∧
    (s.chain.getCurHeight = s.log0FirstLineHeight → s.chain.getCurHash = s.log0FirstLineHash)

def SyncInv (s : ProducerState) : Prop :=
  match s.pc with
  | .stopped | .running => True
  | .clearing | .entering => s.Unrecorded
  | .searching | .comparing | .popped => s.Unrecorded ∧ s.FirstLineRead
  | .following => s.Unrecorded ∧ s.FirstLineRead ∧ s.NotBeyond
  | .fetchingHash | .fetchingBlock _ =>
      s.Unrecorded ∧ s.FirstLineRead ∧ s.chain.getCurHeight < s.log0FirstLineHeight
  | .recordingBeginTime | .recordingPosition => s.Synced

/-- `syncBitcoind` is not stopped on the way, and where it takes a block at the
height of the first line from bitcoind, it is the block of that line. -/
def SyncFits (s : ProducerState) : ProducerAction → Prop
  | .proceed =>
      (s.pc = .entering ∨ s.pc = .following → s.running = true ∨ s.Synced) ∧
        (s.pc = .searching → s.running = true ∨ s.Synced ∨
          s.chain.getCurHeight > s.log0FirstLineHeight)
  | .getBlockHash (some hash) =>
      s.pc = .comparing → s.chain.getCurHash = hash →
        s.chain.getCurHeight = s.log0FirstLineHeight → hash = s.log0FirstLineHash
  | .getBlock (some block) =>
      s.pc = .fetchingBlock block → s.chain.getCurHeight + 1 = s.log0FirstLineHeight →
        block = s.log0FirstLineHash
  | _ => True

instance : Decidable s.Synced := inferInstanceAs (Decidable (_ = _))

instance : (a : ProducerAction) → Decidable (s.SyncFits a)
  | .proceed => inferInstanceAs (Decidable ((_ ∨ _ → _ ∨ _) ∧ (_ → _ ∨ _ ∨ _)))
  | .getBlockHash (some _) => inferInstanceAs (Decidable (_ → _ → _ → _))
  | .getBlock (some _) => inferInstanceAs (Decidable (_ → _ → _))
  | .getBlockHash none | .getBlock none | .start _ | .stop | .exit | .log0Item _
  | .writeLog0IdxOffset _ _ => .isTrue trivial

/-- `init` records nothing, or the chain is synced. -/
def RecordsSynced (hashPrevBlock : Uint256 → Uint256) (cfg : BeginConfig)
    (s : ProducerState) : Prop :=
  ∀ a s', s.pc ≠ .running → step hashPrevBlock cfg s a = some s' →
    (s'.log0BeginTime = s.log0BeginTime ∧ s'.log0Status = s.log0Status) ∨ s.Synced

/-- And while log0 is not recorded, the next start clears and synchronises again. -/
structure HandOverSafe (hashPrevBlock : Uint256 → Uint256) (cfg : BeginConfig)
    (s : ProducerState) : Prop where
  records : s.RecordsSynced hashPrevBlock cfg
  resync : s.inSync ∨ s.Unrecorded →
    (start hashPrevBlock cfg { s with pc := .stopped } s.log0).pc = .clearing

/-! ## One step -/

theorem syncInv_initial : initial.SyncInv := trivial

theorem synced_of_notBeyond (hfirst : s.FirstLineRead) (h : s.NotBeyond)
    (hheight : s.log0FirstLineHeight ≤ s.chain.getCurHeight) : s.Synced := by
  have heq : s.chain.getCurHeight = s.log0FirstLineHeight := le_antisymm h.1 hheight
  rw [Synced, heq, h.2 heq]
  exact hfirst

theorem notBeyond_of_synced (hfirst : s.FirstLineRead) (h : s.Synced) : s.NotBeyond := by
  rw [Synced, hfirst, Option.some_inj, Log1.block.injEq] at h
  exact ⟨h.1.ge, fun _ => h.2.symm⟩

theorem FirstLineRead.nonneg (h : s.FirstLineRead) : 0 ≤ s.log0FirstLineHeight :=
  s.log0.height_nonneg _ _ h

theorem syncInv_leaveSearch (hunrecorded : s.Unrecorded) (hfirst : s.FirstLineRead)
    (h : s.NotBeyond ∨ s.chain.getCurHeight > s.log0FirstLineHeight ∨
      (s.chain.getCurHeight = s.log0FirstLineHeight →
        s.chain.getCurHash = s.log0FirstLineHash)) : s.leaveSearch.SyncInv := by
  rw [leaveSearch]
  split
  · trivial
  · rename_i hheight
    refine ⟨hunrecorded, hfirst, not_lt.mp hheight, ?_⟩
    rcases h with h | h | h
    · exact h.2
    · exact absurd h hheight
    · exact h

theorem syncInv_start (log0 : Log0) (hstopped : s.pc = .stopped) :
    (s.start hashPrevBlock cfg log0).SyncInv := by
  rw [start]
  split
  · simp only [SyncInv, hstopped]
  · dsimp only
    split_ifs with hchanged
    · exact hchanged
    · split
      · simp only [SyncInv, hstopped]
      · trivial

theorem syncInv_proceed (h : s.SyncInv) (hfits : s.SyncFits .proceed)
    (hstep : s.proceed = some s') : s'.SyncInv := by
  cases hpc : s.pc with
  | clearing =>
      simp only [proceed, hpc, Option.some_inj] at hstep
      simp only [SyncInv, hpc] at h
      subst hstep
      exact h
  | entering =>
      simp only [SyncInv, hpc] at h
      have hsynced := hfits.1 (.inl hpc)
      simp only [proceed, hpc] at hstep
      split_ifs at hstep with hrunning
      · cases hstep
        rw [hrunning] at hsynced
        exact hsynced.resolve_left Bool.false_ne_true
      · split at hstep
        · rename_i hline
          cases hstep
          exact ⟨h, hline⟩
        · cases hstep
          trivial
  | searching =>
      simp only [SyncInv, hpc] at h
      simp only [proceed, hpc] at hstep
      split_ifs at hstep with hloop
      · cases hstep
        exact h
      · cases hstep
        apply syncInv_leaveSearch h.1 h.2
        rcases hfits.2 hpc with hrunning | hsynced | hbeyond
        · -- only the chain of an empty directory has no block to compare
          have hheight : s.chain.getCurHeight = -1 := by
            by_contra hne
            exact hloop ⟨hrunning, hne⟩
          have hnonneg := h.2.nonneg
          right
          right
          omega
        · exact .inl (notBeyond_of_synced h.2 hsynced)
        · exact .inr (.inl hbeyond)
  | following =>
      simp only [SyncInv, hpc] at h
      simp only [proceed, hpc] at hstep
      split_ifs at hstep with hloop
      · cases hstep
        exact ⟨h.1, h.2.1, hloop.1⟩
      · cases hstep
        rcases hfits.1 (.inr hpc) with hrunning | hsynced
        · apply synced_of_notBeyond (s := s) h.2.1 h.2.2
          by_contra hheight
          exact hloop ⟨not_le.mp hheight, hrunning⟩
        · exact hsynced
  | recordingBeginTime =>
      simp only [SyncInv, hpc] at h
      simp only [proceed, hpc, Option.some_inj] at hstep
      subst hstep
      exact h
  | recordingPosition =>
      simp only [proceed, hpc, Option.some_inj] at hstep
      subst hstep
      trivial
  | stopped | comparing | popped | fetchingHash | fetchingBlock hash | running =>
      simp [proceed, hpc] at hstep

theorem syncInv_getBlockHash {hash : Uint256} (h : s.SyncInv)
    (hfits : s.SyncFits (.getBlockHash (some hash))) (hstep : s.getBlockHash hash = some s') :
    s'.SyncInv := by
  cases hpc : s.pc with
  | comparing =>
      simp only [SyncInv, hpc] at h
      simp only [SyncFits, hpc, true_implies] at hfits
      simp only [getBlockHash, hpc] at hstep
      split_ifs at hstep with hsame
      · cases hstep
        apply syncInv_leaveSearch h.1 h.2
        right
        right
        intro hheight
        rw [hsame]
        exact hfits hsame hheight
      · cases hstep
        trivial
      · cases hstep
        exact h
  | fetchingHash =>
      simp only [SyncInv, hpc] at h
      simp only [getBlockHash, hpc, Option.some_inj] at hstep
      subst hstep
      exact h
  | stopped | clearing | entering | searching | popped | following | fetchingBlock hash
  | recordingBeginTime | recordingPosition | running =>
      simp [getBlockHash, hpc] at hstep

theorem syncInv_getBlock {block : Uint256} (h : s.SyncInv)
    (hfits : s.SyncFits (.getBlock (some block)))
    (hstep : s.getBlock hashPrevBlock block = some s') : s'.SyncInv := by
  cases hpc : s.pc with
  | popped =>
      simp only [SyncInv, hpc] at h
      simp only [getBlock, hpc, Option.some_inj] at hstep
      subst hstep
      exact h
  | fetchingBlock hash =>
      simp only [SyncInv, hpc] at h
      simp only [SyncFits, hpc, ProducerPc.fetchingBlock.injEq] at hfits
      simp only [getBlock, hpc] at hstep
      split_ifs at hstep with hlinked
      · obtain ⟨hunrecorded, hfirst, hbelow⟩ := h
        have hnext := pushBlock_next (s := { s with pc := .following }) hlinked.2.symm
        cases hstep
        rw [hnext]
        refine ⟨hunrecorded, hfirst, ?_⟩
        dsimp only [NotBeyond]
        rw [Chain.getCurHeight_dropOldest, Chain.getCurHash_dropOldest]
        exact ⟨hbelow, hfits hlinked.1.symm⟩
      · cases hstep
        trivial
  | stopped | clearing | entering | searching | comparing | following | fetchingHash
  | recordingBeginTime | recordingPosition | running =>
      simp [getBlock, hpc] at hstep

theorem syncInv_step {a : ProducerAction} (h : s.SyncInv) (hfits : s.SyncFits a)
    (hstep : step hashPrevBlock cfg s a = some s') : s'.SyncInv := by
  cases a with
  | start log0 =>
      obtain ⟨hstopped, hs⟩ := Option.ite_some_none_eq_some.mp hstep
      rw [← hs]
      exact syncInv_start log0 hstopped
  | stop =>
      cases hstep
      exact h
  | exit =>
      cases hstep
      trivial
  | proceed => exact syncInv_proceed h hfits hstep
  | getBlockHash answer =>
      cases answer with
      | none =>
          obtain ⟨-, hs⟩ := Option.ite_some_none_eq_some.mp hstep
          rw [← hs]
          trivial
      | some hash => exact syncInv_getBlockHash h hfits hstep
  | getBlock answer =>
      cases answer with
      | none =>
          obtain ⟨-, hs⟩ := Option.ite_some_none_eq_some.mp hstep
          rw [← hs]
          trivial
      | some block => exact syncInv_getBlock h hfits hstep
  | log0Item item =>
      obtain ⟨hrunning, hs⟩ := Option.ite_some_none_eq_some.mp hstep
      rw [← hs]
      cases item with
      | block height hash =>
          rw [log0Item, pushBlock]
          split
          · trivial
          · simp only [SyncInv, writeLog1Block, writeLog1, hrunning]
      | acceptTx hash | removeTx hash => simp only [SyncInv, log0Item, writeLog1, hrunning]
      | clearMemtxs => trivial
  | writeLog0IdxOffset index offset =>
      obtain ⟨hrunning, hs⟩ := Option.ite_some_none_eq_some.mp hstep
      rw [← hs]
      simp only [SyncInv, hrunning]

/-! ## What `init` records -/

def recorded (s : ProducerState) : Bytes × Option (Int × Int) :=
  (s.log0BeginTime, s.log0Status)

@[simp] theorem recorded_leaveSearch : s.leaveSearch.recorded = s.recorded := by
  rw [leaveSearch]
  split <;> rfl

@[simp] theorem recorded_pushBlock (height : Int) (hash : Uint256) :
    (s.pushBlock hashPrevBlock height hash).recorded = s.recorded := by
  rw [pushBlock]
  split <;> rfl

theorem recorded_start (log0 : Log0) :
    (s.start hashPrevBlock cfg log0).recorded = s.recorded := by
  rw [start]
  split
  · rfl
  · dsimp only
    split_ifs
    · rfl
    · split <;> rfl

theorem recorded_proceed (hbeginTime : s.pc ≠ .recordingBeginTime)
    (hposition : s.pc ≠ .recordingPosition) (hstep : s.proceed = some s') :
    s'.recorded = s.recorded := by
  cases hpc : s.pc with
  | recordingBeginTime => exact absurd hpc hbeginTime
  | recordingPosition => exact absurd hpc hposition
  | entering =>
      simp only [proceed, hpc] at hstep
      split_ifs at hstep
      · cases hstep
        rfl
      · split at hstep <;> cases hstep <;> rfl
  | searching =>
      simp only [proceed, hpc] at hstep
      split_ifs at hstep
      · cases hstep
        rfl
      · cases hstep
        exact recorded_leaveSearch
  | following =>
      simp only [proceed, hpc] at hstep
      split_ifs at hstep <;> cases hstep <;> rfl
  | clearing =>
      simp only [proceed, hpc, Option.some_inj] at hstep
      subst hstep
      rfl
  | _ => simp [proceed, hpc] at hstep

theorem recorded_getBlockHash {hash : Uint256} (hstep : s.getBlockHash hash = some s') :
    s'.recorded = s.recorded := by
  rw [getBlockHash] at hstep
  split at hstep
  · split_ifs at hstep
    · cases hstep
      exact recorded_leaveSearch
    · cases hstep
      rfl
    · cases hstep
      rfl
  · cases hstep
    rfl
  · cases hstep

theorem recorded_getBlock {block : Uint256} (hstep : s.getBlock hashPrevBlock block = some s') :
    s'.recorded = s.recorded := by
  rw [getBlock] at hstep
  split at hstep
  · cases hstep
    rfl
  · split_ifs at hstep
    · cases hstep
      exact recorded_pushBlock _ _
    · cases hstep
      rfl
  · cases hstep

/-- Only the two recording states of `init` write what the next start goes by. -/
theorem recorded_step {a : ProducerAction} (hrunning : s.pc ≠ .running)
    (hbeginTime : s.pc ≠ .recordingBeginTime) (hposition : s.pc ≠ .recordingPosition)
    (hstep : step hashPrevBlock cfg s a = some s') : s'.recorded = s.recorded := by
  cases a with
  | start log0 =>
      obtain ⟨-, hs⟩ := Option.ite_some_none_eq_some.mp hstep
      rw [← hs]
      exact recorded_start log0
  | stop | exit =>
      cases hstep
      rfl
  | proceed => exact recorded_proceed hbeginTime hposition hstep
  | getBlockHash answer =>
      cases answer with
      | none =>
          obtain ⟨-, hs⟩ := Option.ite_some_none_eq_some.mp hstep
          rw [← hs]
          rfl
      | some hash => exact recorded_getBlockHash hstep
  | getBlock answer =>
      cases answer with
      | none =>
          obtain ⟨-, hs⟩ := Option.ite_some_none_eq_some.mp hstep
          rw [← hs]
          rfl
      | some block => exact recorded_getBlock hstep
  | log0Item item | writeLog0IdxOffset index offset =>
      exact absurd (Option.ite_some_none_eq_some.mp hstep).1 hrunning

theorem start_clearing_iff (hunrecorded : s.Unrecorded) :
    (start hashPrevBlock cfg { s with pc := .stopped } s.log0).pc = .clearing ↔
      ∃ chain, initLog1 hashPrevBlock cfg s.log1 = .ok chain := by
  rw [Unrecorded] at hunrecorded
  rw [start]
  cases hinit : initLog1 hashPrevBlock cfg s.log1 with
  | error e => simp
  | ok chain => simp [hunrecorded]

theorem recordsSynced_of_syncInv (h : s.SyncInv) : s.RecordsSynced hashPrevBlock cfg := by
  intro a s' hrunning hstep
  cases hpc : s.pc with
  | recordingBeginTime | recordingPosition =>
      simp only [SyncInv, hpc] at h
      exact .inr h
  | running => exact absurd hpc hrunning
  | _ =>
      have hrecorded : s'.recorded = s.recorded := by
        apply recorded_step hrunning _ _ hstep <;> simp [hpc]
      exact .inl ⟨congrArg Prod.fst hrecorded, congrArg Prod.snd hrecorded⟩

theorem unrecorded_of_inSync (h : s.SyncInv) (hsync : s.inSync) : s.Unrecorded := by
  cases hpc : s.pc with
  | stopped | recordingBeginTime | recordingPosition | running => simp [inSync, hpc] at hsync
  | clearing | entering =>
      simp only [SyncInv, hpc] at h
      exact h
  | _ =>
      simp only [SyncInv, hpc] at h
      exact h.1

end ProducerState

/-! ## Safety of the hand-over -/

open ProducerState

def exampleLog0 : Log0 where
  beginTime := [49]
  firstLine := some (.block 0 11)
  secondLineOffset := 300
  height_nonneg := by
    intro height hash h
    cases h
    exact le_refl 0

def firstSync : List ProducerAction :=
  [.start exampleLog0, .proceed, .proceed, .proceed, .proceed,
    .getBlockHash (some 11), .getBlock (some 11), .proceed]

/-- Stopped before `syncBitcoind` is entered, or given another block of height 0. -/
def unsafeSyncs : List (List ProducerAction) :=
  [[.start exampleLog0, .proceed, .stop, .proceed],
    [.start exampleLog0, .proceed, .proceed, .proceed, .proceed,
      .getBlockHash (some 12), .getBlock (some 12), .proceed]]

end ExplorerKV.Logs

import ExplorerKV.Foundation.Machine
import ExplorerKV.KVDB.Store

/-!
# The maximal block timestamp

Log2Producer writes the maximum of the block times so far into the rows of a
block, and the parser forms the `14_` key from it.  `pushBlock` keeps the
maximum of all blocks pushed, `popBlock` takes it anew from a window of the
last ones.
-/

namespace ExplorerKV.Log2

open Foundation KVDB

/-- `blkTimestamps_` by height, from its last entry to its first. -/
structure BlockTimestamp where
  limit : Nat
  currMax : Nat
  blkTimestamps : List (Int × Nat)
  deriving DecidableEq, Repr

namespace BlockTimestamp

def getMaxTimestamp (s : BlockTimestamp) : Nat := s.currMax

def pushBlock (s : BlockTimestamp) (height : Int) (ts : Nat) : Option BlockTimestamp :=
  if s.blkTimestamps.any fun block => block.1 = height then none
  else some { s with
    currMax := if ts > s.currMax then ts else s.currMax
    blkTimestamps := ((height, ts) :: s.blkTimestamps).take s.limit }

/-- The loop of `popBlock`. -/
def maxOf (blocks : List (Int × Nat)) : Nat :=
  blocks.foldr (fun block currMax => if currMax < block.2 then block.2 else currMax) 0

def popBlock (s : BlockTimestamp) : Option BlockTimestamp :=
  match s.blkTimestamps with
  | [] => none
  | _ :: rest => some { s with currMax := maxOf rest, blkTimestamps := rest }

theorem maxOf_cons (block : Int × Nat) (blocks : List (Int × Nat)) :
    maxOf (block :: blocks) = max block.2 (maxOf blocks) := by
  rw [maxOf, List.foldr_cons, ← maxOf]
  split <;> omega

theorem le_maxOf {blocks : List (Int × Nat)} {block : Int × Nat} (h : block ∈ blocks) :
    block.2 ≤ maxOf blocks := by
  induction blocks with
  | nil => cases h
  | cons last blocks ih =>
      rw [maxOf_cons]
      rcases List.mem_cons.mp h with rfl | h
      · exact le_max_left _ _
      · exact le_max_of_le_right (ih h)

theorem maxOf_mem {blocks : List (Int × Nat)} (h : blocks ≠ []) :
    maxOf blocks ∈ blocks.map Prod.snd := by
  induction blocks with
  | nil => exact absurd rfl h
  | cons last blocks ih =>
      rw [maxOf_cons, List.map_cons]
      cases blocks with
      | nil => simp [maxOf]
      | cons second blocks =>
          rcases max_choice last.2 (maxOf (second :: blocks)) with hmax | hmax
          · rw [hmax]
            exact List.mem_cons_self
          · rw [hmax]
            exact List.mem_cons_of_mem _ (ih (List.cons_ne_nil _ _))

theorem maxOf_eq_iff {blocks : List (Int × Nat)} {bound : Nat} (hne : blocks ≠ [])
    (hbound : ∀ block ∈ blocks, block.2 ≤ bound) :
    maxOf blocks = bound ↔ bound ∈ blocks.map Prod.snd := by
  constructor
  · rintro rfl
    exact maxOf_mem hne
  · intro hmem
    obtain ⟨block, hblock, rfl⟩ := List.mem_map.mp hmem
    obtain ⟨top, htop, heq⟩ := List.mem_map.mp (maxOf_mem hne)
    apply le_antisymm
    · rw [← heq]
      exact hbound top htop
    · exact le_maxOf hblock

end BlockTimestamp

/-! ## Blocks accepted and rolled back -/

inductive BlockStep where
  | accept (blockTime : Nat)
  | rollback
  deriving DecidableEq, Repr

/-- Of Log2Producer, what the timestamp of a row depends on. -/
structure TimeState where
  blkTs : BlockTimestamp
  currBlockHeight : Int
  deriving DecidableEq, Repr

namespace TimeState

def initial (limit : Nat) (height : Int) : TimeState := ⟨⟨limit, 0, []⟩, height⟩

def step (s : TimeState) : BlockStep → Option TimeState
  | .accept blockTime =>
      (s.blkTs.pushBlock (s.currBlockHeight + 1) blockTime).map fun blkTs =>
        ⟨blkTs, s.currBlockHeight + 1⟩
  | .rollback => s.blkTs.popBlock.map fun blkTs => ⟨blkTs, s.currBlockHeight - 1⟩

/-- The `14_` key of the current block: `handleBlockAccept` pushes the block
before it writes its rows, `handleBlockRollback` pops it after. -/
def blockTimestampKey (s : TimeState) : Key :=
  .blockTimestamp s.blkTs.getMaxTimestamp s.currBlockHeight

/-- The steps come back to a block `depth` below and do not go below it before. -/
def ComesBack : Nat → List BlockStep → Prop
  | depth, [] => depth = 0
  | depth, .accept _ :: steps => ComesBack (depth + 1) steps
  | 0, .rollback :: _ => False
  | depth + 1, .rollback :: steps => ComesBack depth steps

def peak : Nat → List BlockStep → Nat
  | depth, [] => depth
  | depth, .accept _ :: steps => max depth (peak (depth + 1) steps)
  | depth, .rollback :: steps => max depth (peak (depth - 1) steps)

variable {limit : Nat} {s s' : TimeState} {steps : List BlockStep}

theorem le_peak (depth : Nat) (steps : List BlockStep) : depth ≤ peak depth steps := by
  cases steps with
  | nil => exact le_refl _
  | cons step steps => cases step <;> exact le_max_left _ _

structure TimeInv (limit : Nat) (s : TimeState) : Prop where
  limit_eq : s.blkTs.limit = limit
  length_le : s.blkTs.blkTimestamps.length ≤ limit
  le_currMax : ∀ block ∈ s.blkTs.blkTimestamps, block.2 ≤ s.blkTs.currMax

theorem timeInv_initial (limit : Nat) (height : Int) : (initial limit height).TimeInv limit where
  limit_eq := rfl
  length_le := Nat.zero_le _
  le_currMax := fun _ h => nomatch h

theorem step_accept {blockTime : Nat} (hstep : s.step (.accept blockTime) = some s') :
    s'.blkTs.limit = s.blkTs.limit ∧ s'.blkTs.currMax = max blockTime s.blkTs.currMax ∧
      s'.blkTs.blkTimestamps =
        ((s.currBlockHeight + 1, blockTime) :: s.blkTs.blkTimestamps).take s.blkTs.limit ∧
      s'.currBlockHeight = s.currBlockHeight + 1 := by
  obtain ⟨blkTs, hpush, rfl⟩ := Option.map_eq_some_iff.mp hstep
  rw [BlockTimestamp.pushBlock] at hpush
  split_ifs at hpush
  all_goals
    cases hpush
    dsimp only
    refine ⟨rfl, ?_, rfl, rfl⟩
    omega

theorem step_rollback (hstep : s.step .rollback = some s') :
    ∃ block, s.blkTs.blkTimestamps = block :: s'.blkTs.blkTimestamps ∧
      s'.blkTs.limit = s.blkTs.limit ∧
      s'.blkTs.currMax = BlockTimestamp.maxOf s'.blkTs.blkTimestamps ∧
      s'.currBlockHeight = s.currBlockHeight - 1 := by
  obtain ⟨blkTs, hpop, rfl⟩ := Option.map_eq_some_iff.mp hstep
  rw [BlockTimestamp.popBlock] at hpop
  split at hpop
  · cases hpop
  · rename_i block rest hblocks
    cases hpop
    exact ⟨block, hblocks, rfl, rfl, rfl⟩

theorem timeInv_step {step : BlockStep} (h : s.TimeInv limit) (hstep : s.step step = some s') :
    s'.TimeInv limit := by
  cases step with
  | accept blockTime =>
      obtain ⟨hlimit, hmax, hblocks, -⟩ := step_accept hstep
      refine ⟨hlimit.trans h.limit_eq, ?_, ?_⟩
      · rw [hblocks, h.limit_eq]
        exact List.length_take_le _ _
      · intro block hblock
        rw [hblocks] at hblock
        rw [hmax]
        rcases List.mem_cons.mp (List.mem_of_mem_take hblock) with rfl | hold
        · exact le_max_left _ _
        · exact le_max_of_le_right (h.le_currMax block hold)
  | rollback =>
      obtain ⟨last, hblocks, hlimit, hmax, -⟩ := step_rollback hstep
      refine ⟨hlimit.trans h.limit_eq, ?_, ?_⟩
      · have hlength := h.length_le
        rw [hblocks, List.length_cons] at hlength
        omega
      · intro block hblock
        rw [hmax]
        exact BlockTimestamp.le_maxOf hblock

/-- What is left of the window when the steps have come back, by induction on
the steps; `new` are the blocks above the one they come back to. -/
theorem blkTimestamps_of_comesBack {window : List (Int × Nat)} (new : List (Int × Nat))
    {top : Nat} (hlimit : s.blkTs.limit = limit) (hback : ComesBack new.length steps)
    (hblocks : s.blkTs.blkTimestamps = new ++ window.take (limit - top))
    (htop : new.length ≤ top) (hpeak : peak new.length steps < limit)
    (hrun : runs step s steps = some s') :
    s'.blkTs.blkTimestamps = window.take (limit - max top (peak new.length steps)) ∧
      s'.currBlockHeight = s.currBlockHeight - new.length ∧
      (steps ≠ [] → s'.blkTs.currMax = BlockTimestamp.maxOf s'.blkTs.blkTimestamps) := by
  induction steps generalizing s new top with
  | nil =>
      cases hrun
      have hnil : new = [] := List.length_eq_zero_iff.mp hback
      rw [hblocks, hnil, peak, List.length_nil, Nat.max_zero]
      exact ⟨rfl, by simp, fun h => absurd rfl h⟩
  | cons step steps ih =>
      obtain ⟨t, hstep, hrest⟩ := Option.bind_eq_some_iff.mp (runs_cons _ _ ▸ hrun)
      cases step with
      | accept blockTime =>
          obtain ⟨hlimit', -, hblocks', hheight⟩ := step_accept hstep
          have hlow := le_peak (new.length + 1) steps
          rw [peak] at hpeak
          have hwindow : t.blkTs.blkTimestamps =
              ((s.currBlockHeight + 1, blockTime) :: new) ++
                window.take (limit - max top (new.length + 1)) := by
            rw [hblocks', hblocks, hlimit, ← List.cons_append, List.take_append,
              List.take_of_length_le (by rw [List.length_cons]; omega), List.take_take,
              List.length_cons]
            congr 2
            omega
          obtain ⟨hend, hback', hmax⟩ := ih _ (hlimit'.trans hlimit) hback hwindow
            (le_max_right _ _) (by rw [List.length_cons]; omega) hrest
          refine ⟨?_, ?_, fun _ => hmax ?_⟩
          · rw [hend, peak, List.length_cons]
            congr 1
            omega
          · rw [hback', hheight, List.length_cons]
            push_cast
            omega
          · rintro rfl
            simp [ComesBack] at hback
      | rollback =>
          obtain ⟨last, hblocks', hlimit', hmax', hheight⟩ := step_rollback hstep
          cases new with
          | nil => simp [ComesBack] at hback
          | cons first new =>
              rw [hblocks', List.cons_append, List.cons.injEq] at hblocks
              rw [peak, List.length_cons, Nat.add_sub_cancel] at hpeak
              rw [List.length_cons] at htop
              obtain ⟨hend, hback', hmax⟩ := ih _ (hlimit'.trans hlimit) hback hblocks.2
                (by omega) (by omega) hrest
              refine ⟨?_, ?_, fun _ => ?_⟩
              · rw [hend, peak, List.length_cons, Nat.add_sub_cancel]
                congr 1
                omega
              · rw [hback', hheight, List.length_cons]
                push_cast
                omega
              · cases steps with
                | nil =>
                    cases hrest
                    exact hmax'
                | cons step steps => exact hmax (List.cons_ne_nil _ _)

/-- After the steps the timestamp is that of the block again exactly if the
window still has a block with it. -/
theorem maxTimestamp_restored_iff (limit : Nat) (height : Int) (before after : List BlockStep)
    (blockTime : Nat) (s s' : TimeState)
    (hpush : runs step (initial limit height) (before ++ [.accept blockTime]) = some s)
    (hafter : runs step s after = some s') (hback : ComesBack 0 after)
    (hdepth : peak 0 after < limit) :
    (s'.blkTs.getMaxTimestamp = s.blkTs.getMaxTimestamp ∧
      s'.blockTimestampKey = s.blockTimestampKey) ↔
    after = [] ∨ s.blkTs.getMaxTimestamp ∈
      (s.blkTs.blkTimestamps.take (limit - peak 0 after)).map Prod.snd := by
  have hinv : s.TimeInv limit :=
    runs_inv_state (TimeInv limit) (timeInv_initial limit height)
      (fun _ _ _ h hstep => timeInv_step h hstep) hpush
  obtain ⟨t, -, hlast⟩ := runs_snoc.mp hpush
  obtain ⟨-, -, hblocks, -⟩ := step_accept hlast
  have hne : (s.blkTs.blkTimestamps.take (limit - peak 0 after)) ≠ [] := by
    have hlimit := hinv.limit_eq
    rw [(step_accept hlast).1] at hlimit
    rw [hblocks, hlimit, List.take_take, Ne, List.take_eq_nil_iff]
    rintro (hzero | hnil)
    · omega
    · cases hnil
  have hstart : s.blkTs.blkTimestamps = [] ++ s.blkTs.blkTimestamps.take (limit - 0) := by
    rw [List.nil_append, Nat.sub_zero, List.take_of_length_le hinv.length_le]
  obtain ⟨hend, hheight, hmax⟩ := blkTimestamps_of_comesBack [] hinv.limit_eq hback hstart
    (le_refl 0) hdepth hafter
  have hkey : s'.blockTimestampKey = s.blockTimestampKey ↔
      s'.blkTs.getMaxTimestamp = s.blkTs.getMaxTimestamp := by
    simp [blockTimestampKey, hheight]
  rw [hkey, and_self]
  cases after with
  | nil =>
      cases hafter
      simp
  | cons step steps =>
      have hnil : step :: steps ≠ [] := List.cons_ne_nil _ _
      rw [Nat.max_eq_right (Nat.zero_le _), List.length_nil] at hend
      rw [or_iff_right hnil, BlockTimestamp.getMaxTimestamp, hmax hnil, hend]
      apply BlockTimestamp.maxOf_eq_iff hne
      intro block hblock
      exact hinv.le_currMax block (List.mem_of_mem_take hblock)

theorem maxTimestamp_restored_iff_example : ∃ s s',
    runs step (initial 3 (-1)) [.accept 5, .accept 6, .accept 4] = some s ∧
      runs step s [.accept 9, .rollback] = some s' ∧
      s'.blkTs.getMaxTimestamp = s.blkTs.getMaxTimestamp ∧
      s'.blockTimestampKey = s.blockTimestampKey := by
  refine ⟨⟨⟨3, 6, [(2, 4), (1, 6), (0, 5)]⟩, 2⟩, ⟨⟨3, 6, [(2, 4), (1, 6)]⟩, 2⟩,
    by decide, by decide, ?_⟩
  exact (maxTimestamp_restored_iff 3 (-1) [.accept 5, .accept 6] [.accept 9, .rollback] 4 _ _
    (by decide) (by decide) rfl (by decide)).mpr (by decide)

/-- The time 9 is out of the window when the block of height 2 is pushed. -/
theorem maxTimestamp_not_restored : ¬∀ (limit : Nat) (height : Int)
    (before after : List BlockStep) (blockTime : Nat) (s s' : TimeState),
    runs step (initial limit height) (before ++ [.accept blockTime]) = some s →
      runs step s after = some s' → ComesBack 0 after → peak 0 after < limit →
        s'.blkTs.getMaxTimestamp = s.blkTs.getMaxTimestamp ∧
          s'.blockTimestampKey = s.blockTimestampKey := by
  intro h
  have hsame := h 2 (-1) [.accept 9, .accept 1] [.accept 3, .rollback] 2
    ⟨⟨2, 9, [(2, 2), (1, 1)]⟩, 2⟩ ⟨⟨2, 2, [(2, 2)]⟩, 2⟩ (by decide) (by decide) rfl (by decide)
  exact absurd hsame.1 (by decide)

end TimeState

end ExplorerKV.Log2

import ExplorerKV.Foundation.Machine
import ExplorerKV.Parser.Protocol

/-!
# The bootstrap pre-passes

`PreAddress` and `PreTx` have the same shape.  Producer threads take the
heights in turn and append the items of each block to a shared buffer; one
consumer thread empties the buffer and writes the items to a file.  When it
found the buffer empty it looks at the number of producers still running, and
leaves its loop if there is none.  One action is what a thread does under one
lock, or one access to an atomic counter.
-/

namespace ExplorerKV.Bootstrap

open Bitcoin Foundation
open ExplorerKV.Parser (Config RawTxs outputAddresses exampleConfig exampleRaw)

/-- What the two pre-passes differ in. -/
structure PrePass (Item : Type) where
  threads : Nat
  /-- `raw.max.block.height` -/
  maxHeight : Int
  /-- producers pause while the buffer is longer than this -/
  bufferLimit : Nat
  /-- what a block at a height appends -/
  blockItems : Int → List Item
  /-- the order in which the consumer takes the buffer -/
  drainOrder : List Item → List Item
  drainOrder_perm : ∀ items, (drainOrder items).Perm items
  /-- the file after one item -/
  writeItem : List Item → Item → List Item
  mem_writeItem : ∀ file item x, x ∈ writeItem file item ↔ x ∈ file ∨ x = item

inductive ProducerPc where
  /-- before the look at the buffer's size -/
  | pausing
  /-- about to take a height -/
  | ready
  /-- with the block of a height, not yet appended -/
  | holding (height : Int)
  /-- out of the loop, not yet off the counter -/
  | leaving
  | done
  deriving DecidableEq, Repr

inductive ConsumerPc (Item : Type) where
  | draining
  /-- with a buffer it took -/
  | writing (buf : List Item)
  /-- found the buffer empty -/
  | checking
  | exited
  deriving DecidableEq, Repr

structure PrePassState (Item : Type) where
  height : Int
  producer : Nat → ProducerPc
  consumer : ConsumerPc Item
  buffer : List Item
  runningProduceThreads : Nat
  /-- the items the consumer has handled -/
  consumed : List Item
  /-- the lines of the output file -/
  file : List Item

inductive PrePassAction where
  | pass (thread : Nat)
  | take (thread : Nat)
  | append (thread : Nat) (height : Int)
  | leave (thread : Nat)
  | finish (thread : Nat)
  | drain
  | write
  | check
  deriving DecidableEq, Repr

namespace PrePass

variable {Item : Type} (pass : PrePass Item)

/-- `run`, before any thread has started. -/
def initial : PrePassState Item where
  height := 0
  producer := fun _ => .pausing
  consumer := .draining
  buffer := []
  runningProduceThreads := pass.threads
  consumed := []
  file := []

/-- One action, while `running_` is true. -/
def step (s : PrePassState Item) : PrePassAction → Option (PrePassState Item)
  | .pass thread =>
      if thread < pass.threads ∧ s.producer thread = .pausing ∧
          s.buffer.length ≤ pass.bufferLimit then
        some { s with producer := Function.update s.producer thread .ready }
      else none
  | .take thread =>
      if thread < pass.threads ∧ s.producer thread = .ready ∧ s.height ≤ pass.maxHeight then
        some { s with
          height := s.height + 1
          producer := Function.update s.producer thread (.holding s.height) }
      else none
  | .append thread height =>
      if thread < pass.threads ∧ s.producer thread = .holding height then
        some { s with
          buffer := s.buffer ++ pass.blockItems height
          producer := Function.update s.producer thread .pausing }
      else none
  | .leave thread =>
      if thread < pass.threads ∧ s.producer thread = .ready ∧ s.height > pass.maxHeight then
        some { s with producer := Function.update s.producer thread .leaving }
      else none
  | .finish thread =>
      if thread < pass.threads ∧ s.producer thread = .leaving then
        some { s with
          runningProduceThreads := s.runningProduceThreads - 1
          producer := Function.update s.producer thread .done }
      else none
  | .drain =>
      match s.consumer with
      | .draining =>
          some { s with
            buffer := []
            consumer :=
              if s.buffer.length = 0 then .checking
              else .writing (pass.drainOrder s.buffer) }
      | _ => none
  | .write =>
      match s.consumer with
      | .writing buf =>
          some { s with
            consumed := s.consumed ++ buf
            file := buf.foldl pass.writeItem s.file
            consumer := .draining }
      | _ => none
  | .check =>
      match s.consumer with
      | .checking =>
          some { s with
            consumer := if s.runningProduceThreads = 0 then .exited else .draining }
      | _ => none

def run (schedule : List PrePassAction) : Option (PrePassState Item) :=
  runs pass.step pass.initial schedule

def appended (schedule : List PrePassAction) : List Item :=
  schedule.flatMap fun
    | .append _ height => pass.blockItems height
    | _ => []

def sinceDrain (schedule : List PrePassAction) : List PrePassAction :=
  schedule.rtakeWhile (· ≠ .drain)

end PrePass

def ConsumerPc.inHand {Item : Type} : ConsumerPc Item → List Item
  | .writing buf => buf
  | .draining | .checking | .exited => []

namespace PrePass

variable {Item : Type} {pass : PrePass Item} {schedule : List PrePassAction}
  {s s' : PrePassState Item}

theorem appended_snoc (schedule : List PrePassAction) (a : PrePassAction) :
    pass.appended (schedule ++ [a]) = pass.appended schedule ++ pass.appended [a] := by
  simp [appended]

theorem sinceDrain_snoc (schedule : List PrePassAction) (a : PrePassAction) :
    sinceDrain (schedule ++ [a]) =
      if a = .drain then [] else sinceDrain schedule ++ [a] := by
  rw [sinceDrain, List.rtakeWhile_concat]
  by_cases h : a = .drain <;> simp [h, sinceDrain]

theorem mem_foldl_writeItem (buf file : List Item) (x : Item) :
    x ∈ buf.foldl pass.writeItem file ↔ x ∈ file ∨ x ∈ buf := by
  induction buf generalizing file with
  | nil => simp
  | cons item buf ih => rw [List.foldl_cons, ih, pass.mem_writeItem, List.mem_cons, or_assoc]

/-- Every appended item is handled, in the consumer's hand, or in the buffer. -/
structure Inv (pass : PrePass Item) (schedule : List PrePassAction)
    (s : PrePassState Item) : Prop where
  appended : (pass.appended schedule).Perm (s.consumed ++ s.consumer.inHand ++ s.buffer)
  buffer : s.buffer = pass.appended (sinceDrain schedule)
  file : ∀ x ∈ s.consumed, x ∈ s.file

theorem inv_initial : pass.Inv [] pass.initial where
  appended := by simp [PrePass.appended, initial, ConsumerPc.inHand]
  buffer := by simp [PrePass.appended, initial, sinceDrain]
  file := by simp [initial]

theorem Inv.of_quiet {a : PrePassAction} (h : pass.Inv schedule s)
    (hquiet : pass.appended [a] = []) (hdrain : a ≠ .drain)
    (hconsumed : s'.consumed = s.consumed) (hfile : s'.file = s.file)
    (hbuffer : s'.buffer = s.buffer) (hhand : s'.consumer.inHand = s.consumer.inHand) :
    pass.Inv (schedule ++ [a]) s' where
  appended := by
    rw [appended_snoc, hquiet, List.append_nil, hconsumed, hhand, hbuffer]
    exact h.appended
  buffer := by
    rw [sinceDrain_snoc, if_neg hdrain, appended_snoc, hquiet, List.append_nil, hbuffer,
      h.buffer]
  file := by
    rw [hconsumed, hfile]
    exact h.file

theorem inv_step {a : PrePassAction} (h : pass.Inv schedule s)
    (hstep : pass.step s a = some s') : pass.Inv (schedule ++ [a]) s' := by
  cases a with
  | pass thread =>
      obtain ⟨-, rfl⟩ := Option.ite_some_none_eq_some.mp hstep
      exact h.of_quiet rfl (by simp) rfl rfl rfl rfl
  | take thread =>
      obtain ⟨-, rfl⟩ := Option.ite_some_none_eq_some.mp hstep
      exact h.of_quiet rfl (by simp) rfl rfl rfl rfl
  | append thread height =>
      obtain ⟨-, rfl⟩ := Option.ite_some_none_eq_some.mp hstep
      have hone : pass.appended [.append thread height] = pass.blockItems height := by
        simp [PrePass.appended]
      constructor
      · rw [appended_snoc, hone, ← List.append_assoc]
        exact h.appended.append_right _
      · rw [sinceDrain_snoc, if_neg (by simp), appended_snoc, hone, h.buffer]
      · exact h.file
  | leave thread =>
      obtain ⟨-, rfl⟩ := Option.ite_some_none_eq_some.mp hstep
      exact h.of_quiet rfl (by simp) rfl rfl rfl rfl
  | finish thread =>
      obtain ⟨-, rfl⟩ := Option.ite_some_none_eq_some.mp hstep
      exact h.of_quiet rfl (by simp) rfl rfl rfl rfl
  | drain =>
      cases hpc : s.consumer with
      | draining =>
          simp only [step, hpc, Option.some.injEq] at hstep
          subst hstep
          have happended := h.appended
          rw [hpc, ConsumerPc.inHand, List.append_nil] at happended
          constructor
          · rw [appended_snoc, show pass.appended [.drain] = [] from rfl, List.append_nil,
              List.append_nil]
            dsimp only
            split
            · rename_i hempty
              rw [List.length_eq_zero_iff.mp hempty] at happended
              exact happended
            · exact happended.trans ((pass.drainOrder_perm s.buffer).symm.append_left _)
          · rw [sinceDrain_snoc, if_pos rfl]
            rfl
          · exact h.file
      | writing buf | checking | exited => simp [step, hpc] at hstep
  | write =>
      cases hpc : s.consumer with
      | writing buf =>
          simp only [step, hpc, Option.some.injEq] at hstep
          subst hstep
          have happended := h.appended
          rw [hpc] at happended
          constructor
          · rw [appended_snoc, show pass.appended [.write] = [] from rfl, List.append_nil,
              ConsumerPc.inHand, List.append_nil]
            exact happended
          · rw [sinceDrain_snoc, if_neg (by simp), appended_snoc,
              show pass.appended [.write] = [] from rfl, List.append_nil]
            exact h.buffer
          · intro x hx
            rw [mem_foldl_writeItem]
            exact (List.mem_append.mp hx).imp_left (h.file x)
      | draining | checking | exited => simp [step, hpc] at hstep
  | check =>
      cases hpc : s.consumer with
      | checking =>
          simp only [step, hpc, Option.some.injEq] at hstep
          subst hstep
          refine h.of_quiet rfl (by simp) rfl rfl rfl ?_
          rw [hpc]
          dsimp only
          split <;> rfl
      | draining | writing buf | exited => simp [step, hpc] at hstep

theorem run_inv (hrun : pass.run schedule = some s) : pass.Inv schedule s :=
  runs_inv pass.Inv inv_initial (fun _ _ _ _ _ h hstep => inv_step h hstep) hrun

/-- Every item the schedule appended has been handled, and is in the file. -/
structure Complete (pass : PrePass Item) (schedule : List PrePassAction)
    (s : PrePassState Item) : Prop where
  consumed : s.consumed.Perm (pass.appended schedule)
  written : ∀ x ∈ pass.appended schedule, x ∈ s.file

theorem complete_iff (hrun : pass.run schedule = some s) (hexit : s.consumer = .exited) :
    pass.Complete schedule s ↔ ∀ thread height,
      .append thread height ∈ sinceDrain schedule → pass.blockItems height = [] := by
  have hinv := run_inv hrun
  have happended := hinv.appended
  rw [hexit, ConsumerPc.inHand, List.append_nil] at happended
  have hbuffer : s.buffer = [] ↔ ∀ thread height,
      .append thread height ∈ sinceDrain schedule → pass.blockItems height = [] := by
    rw [hinv.buffer, PrePass.appended, List.flatMap_eq_nil_iff]
    constructor
    · intro h thread height hmem
      exact h _ hmem
    · intro h a hmem
      cases a with
      | append thread height => exact h thread height hmem
      | pass | take | leave | finish | drain | write | check => rfl
  rw [← hbuffer]
  constructor
  · intro h
    have hlength := (h.consumed.trans happended).length_eq
    rw [List.length_append] at hlength
    exact List.length_eq_zero_iff.mp (by omega)
  · intro h
    rw [h, List.append_nil] at happended
    exact ⟨happended.symm, fun x hx => hinv.file x (happended.mem_iff.mp hx)⟩

def keptTail : List PrePassAction :=
  [.pass 0, .take 0, .append 0 0, .drain, .write, .pass 0, .leave 0, .finish 0, .drain, .check]

def lostTail : List PrePassAction :=
  [.drain, .pass 0, .take 0, .append 0 0, .pass 0, .leave 0, .finish 0, .check]

theorem sinceDrain_keptTail : sinceDrain keptTail = [.check] := by
  decide

theorem run_keptTail (pass : PrePass Item) (hthreads : pass.threads = 1) (hmax : pass.maxHeight = 0)
    (hitems : pass.blockItems 0 ≠ []) :
    ∃ s, pass.run keptTail = some s ∧ s.consumer = .exited := by
  simp [run, runs, keptTail, step, initial, hthreads, hmax, hitems]

theorem run_lostTail (pass : PrePass Item) (hthreads : pass.threads = 1) (hmax : pass.maxHeight = 0)
    (hlimit : (pass.blockItems 0).length ≤ pass.bufferLimit) :
    ∃ s, pass.run lostTail = some s ∧ s.consumer = .exited := by
  simp [run, runs, lostTail, step, initial, hthreads, hmax, hlimit]

end PrePass

section Passes

variable (cfg : Config) (raw : RawTxs) (rawBlocks : Int → CBlock)

/-- `blkAddress`, a sorted set. -/
def blkAddress (blk : CBlock) : List Address :=
  (blk.vtx.flatMap fun hash =>
    (raw hash).tx.vout.flatMap (outputAddresses cfg)).toFinset.sort

/-- `PreAddress`; an address `preAddressHolder_` knows is not written again. -/
def preAddress (threads : Nat) (maxHeight : Int) : PrePass Address where
  threads := threads
  maxHeight := maxHeight
  bufferLimit := 10000 * 50
  blockItems := fun height => blkAddress cfg raw (rawBlocks height)
  drainOrder := List.reverse
  drainOrder_perm := List.reverse_perm
  writeItem := fun file addr => if addr ∈ file then file else file ++ [addr]
  mem_writeItem := by
    intro file addr x
    split
    · constructor
      · exact Or.inl
      · rintro (hx | rfl) <;> assumption
    · simp

def isIgnoredTx (curHeight : Int) (hash : Uint256) : Bool :=
  (curHeight == 91842 && hash ==
    0xd5d27987d2a3dfc724e359870c6644b40e497bdc0589a033220fe15429d88599) ||
  (curHeight == 91880 && hash ==
    0xe3bf3d07d4b0375638d5f1db5255fe07ba2c4cb067cd81b84ee974b6585fb468)

/-- `PreTx`, with its single producer. -/
def preTx (maxHeight : Int) : PrePass Uint256 where
  threads := 1
  maxHeight := maxHeight
  bufferLimit := 10000 * 500
  blockItems := fun height => (rawBlocks height).vtx.filter (!isIgnoredTx height ·)
  drainOrder := id
  drainOrder_perm := fun _ => List.Perm.refl _
  writeItem := fun file hash => file ++ [hash]
  mem_writeItem := by simp

end Passes

/-- No item of a block is appended between the last drain and the exit. -/
def NoTail {Item : Type} (pass : PrePass Item) (schedule : List PrePassAction) : Prop :=
  ∀ thread height, .append thread height ∈ PrePass.sinceDrain schedule →
    pass.blockItems height = []

/-- Neither pre-pass loses an item, exactly if its schedule has no such tail. -/
theorem prePass_complete_iff (cfg : Config) (raw : RawTxs) (rawBlocks : Int → CBlock)
    (maxHeight : Int) :
    (∀ (threads : Nat) (schedule : List PrePassAction) (s : PrePassState Address),
      (preAddress cfg raw rawBlocks threads maxHeight).run schedule = some s →
      s.consumer = .exited →
      ((preAddress cfg raw rawBlocks threads maxHeight).Complete schedule s ↔
        NoTail (preAddress cfg raw rawBlocks threads maxHeight) schedule)) ∧
    (∀ (schedule : List PrePassAction) (s : PrePassState Uint256),
      (preTx rawBlocks maxHeight).run schedule = some s → s.consumer = .exited →
      ((preTx rawBlocks maxHeight).Complete schedule s ↔
        NoTail (preTx rawBlocks maxHeight) schedule)) := by
  constructor
  · intro threads schedule s hrun hexit
    exact PrePass.complete_iff hrun hexit
  · intro schedule s hrun hexit
    exact PrePass.complete_iff hrun hexit

theorem blkAddress_example :
    blkAddress exampleConfig exampleRaw ⟨0, 0, [1]⟩ = ["1AAAAAAAAAAAAAAAAAAAA"] := by
  have hout : (exampleRaw 1).tx.vout.flatMap (outputAddresses exampleConfig) =
      ["1AAAAAAAAAAAAAAAAAAAA"] := by decide +kernel
  simp [blkAddress, hout]

theorem prePass_complete_iff_example :
    (∃ s, (preAddress exampleConfig exampleRaw (fun _ => ⟨0, 0, [1]⟩) 1 0).Complete
      PrePass.keptTail s) ∧
    (∃ s, (preTx (fun _ => ⟨0, 0, [1]⟩) 0).Complete PrePass.keptTail s) := by
  have hiff := prePass_complete_iff exampleConfig exampleRaw (fun _ => ⟨0, 0, [1]⟩) 0
  constructor
  · obtain ⟨s, hrun, hexit⟩ := PrePass.run_keptTail
      (preAddress exampleConfig exampleRaw (fun _ => ⟨0, 0, [1]⟩) 1 0) rfl rfl
      (by simp [preAddress, blkAddress_example])
    exact ⟨s, (hiff.1 1 _ s hrun hexit).mpr (by simp [NoTail, PrePass.sinceDrain_keptTail])⟩
  · obtain ⟨s, hrun, hexit⟩ := PrePass.run_keptTail
      (preTx (fun _ => ⟨0, 0, [1]⟩) 0) rfl rfl (by simp [preTx, isIgnoredTx])
    exact ⟨s, (hiff.2 _ s hrun hexit).mpr (by simp [NoTail, PrePass.sinceDrain_keptTail])⟩

/-- One block with one transaction, and one producer. -/
theorem prePass_loses_tail :
    ¬∀ (cfg : Config) (raw : RawTxs) (rawBlocks : Int → CBlock) (maxHeight : Int)
      (threads : Nat) (schedule : List PrePassAction) (s : PrePassState Address),
      (preAddress cfg raw rawBlocks threads maxHeight).run schedule = some s →
      s.consumer = .exited →
      (preAddress cfg raw rawBlocks threads maxHeight).Complete schedule s := by
  intro h
  have hitems := blkAddress_example
  obtain ⟨s, hrun, hexit⟩ := PrePass.run_lostTail
    (preAddress exampleConfig exampleRaw (fun _ => ⟨0, 0, [1]⟩) 1 0) rfl rfl
    (by simp [preAddress, hitems])
  have hcomplete := h _ _ _ _ _ _ _ hrun hexit
  have hnone := (PrePass.complete_iff hrun hexit).mp hcomplete 0 0 (by decide)
  simp [preAddress, hitems] at hnone

end ExplorerKV.Bootstrap

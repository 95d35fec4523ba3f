import ExplorerKV.Bitcoin.Core
import ExplorerKV.Foundation.Machine

/-!
# Block recognition

A thread of its own walks down the main chain at every start and gives each
block a `15_` record, until it meets a block that has one.  Meanwhile the thread
that handles the rows recognises every block it has accepted.  A start-up call
that is cut short leaves recognised blocks above unrecognised ones, and the next
call stops at the first of them.
-/

namespace ExplorerKV.Parser.RecognizeBlock

open Bitcoin Foundation

/-! ## The two threads -/

/-- `recognizeBlocks(99999999, 0, stopWhenReachLast)` under way. -/
structure Call where
  stopWhenReachLast : Bool
  /-- the main chain when the call started -/
  started : List Uint256
  /-- the hashes the loop has not handled yet -/
  rest : List Uint256
  /-- the first of them has been looked up, and has no record -/
  writing : Bool
  deriving DecidableEq, Repr

/-- The row of the last accepted block. -/
inductive TipRow where
  | handled
  /-- `acceptBlock` is done, `recognizeBlocks` is not -/
  | accepted (hash : Uint256)
  /-- a restart has come before the row was marked as handled -/
  | again (hash : Uint256)
  deriving DecidableEq, Repr

def TipRow.due : TipRow → Option Uint256
  | .accepted hash => some hash
  | _ => none

structure State where
  /-- the blocks with a `10_` record, the highest first, down to height 0 -/
  chain : List Uint256
  /-- the blocks with a `15_` record -/
  extra : List Uint256
  call : Option Call
  tip : TipRow
  deriving DecidableEq, Repr

def State.start (chain : List Uint256) : State := ⟨chain, [], none, .handled⟩

inductive Event where
  | startUp (stopWhenReachLast : Bool)
  /-- the test at the head of the loop -/
  | check
  /-- `recognizeCoinbaseTx` -/
  | write
  | accept (hash : Uint256)
  /-- `recognizeBlocks(height, height, true)` for the block just accepted -/
  | recognize
  | reject
  | restart
  deriving DecidableEq, Repr

/-- `range("10_0099999999", "10_0000000000", 99999999)` -/
def snapshot (chain : List Uint256) : List Uint256 :=
  (chain.reverse.take 100000000).reverse.take 99999999

/-- The loop ends: no hash is left, or the next one is recognised. -/
def Call.Done (call : Call) (extra : List Uint256) : Prop :=
  ∀ hash ∈ call.rest.head?, call.stopWhenReachLast = true ∧ hash ∈ extra

instance (call : Call) (extra : List Uint256) : Decidable (call.Done extra) :=
  Option.decidableForallMem _

abbrev Ancestors := Uint256 → List Uint256

variable (ancestors : Ancestors)

def acceptBlock (s : State) (hash : Uint256) : Option State :=
  if s.tip = .handled ∨ s.tip = .again hash then
    if ancestors hash = s.chain then
      some { s with chain := hash :: s.chain, tip := .accepted hash }
    -- the row is handled once more
    else if s.chain.head? = some hash then some { s with tip := .accepted hash }
    else none
  else none

def step (s : State) : Event → Option State
  | .startUp stopWhenReachLast =>
      match s.call with
      | some _ => none
      | none => some { s with
          call := some ⟨stopWhenReachLast, s.chain, snapshot s.chain, false⟩ }
  | .check =>
      match s.call with
      | none => none
      | some call =>
          if call.writing then none
          else if call.Done s.extra then some { s with call := none }
          else some { s with call := some { call with writing := true } }
  | .write =>
      match s.call with
      | some ⟨stop, started, hash :: rest, true⟩ =>
          some { s with extra := hash :: s.extra, call := some ⟨stop, started, rest, false⟩ }
      | _ => none
  | .accept hash => acceptBlock ancestors s hash
  | .recognize =>
      match s.tip with
      | .accepted hash => some { s with extra := hash :: s.extra, tip := .handled }
      | _ => none
  | .reject => if s.tip = .handled then some { s with chain := s.chain.tail } else none
  | .restart =>
      some { s with
        call := none
        tip := match s.tip with
          | .accepted hash => .again hash
          | tip => tip }

/-! ## What a completed call should leave -/

/-- Every block that was there when the call started and still is has its record. -/
def Call.Exact (call : Call) (s : State) : Prop :=
  ∀ hash ∈ call.started, hash ∈ s.chain → hash ∈ s.extra

instance (call : Call) (s : State) : Decidable (call.Exact s) :=
  List.decidableBAll (fun hash => hash ∈ s.chain → hash ∈ s.extra) call.started

/-- A call that ends has left no block out. -/
def CallExact (s : State) (event : Event) : Prop :=
  ∀ call ∈ s.call, event = .check → call.writing = false → call.Done s.extra → call.Exact s

def NoGap (s : State) : Prop :=
  ∀ hash ∈ s.chain, hash ∈ s.extra → ancestors hash ⊆ s.extra

/--
Every block below is recognised, or a running call that will not come upon this
block itself has still to visit it.
-/
def Covered (s : State) (hash : Uint256) : Prop :=
  ∀ below ∈ ancestors hash, below ∈ s.extra ∨
    ∃ call ∈ s.call, below ∈ call.rest ∧ hash ∉ call.rest

instance (s : State) (event : Event) : Decidable (CallExact s event) :=
  inferInstanceAs (Decidable (∀ call ∈ s.call, _ → _ → _ → call.Exact s))

instance (s : State) : Decidable (NoGap ancestors s) :=
  List.decidableBAll (fun hash => hash ∈ s.extra → ancestors hash ⊆ s.extra) s.chain

instance (s : State) (hash : Uint256) : Decidable (Covered ancestors s hash) :=
  List.decidableBAll (fun below => below ∈ s.extra ∨
    ∃ call ∈ s.call, below ∈ call.rest ∧ hash ∉ call.rest) (ancestors hash)

/-- The steps that leave no gap behind. -/
def Safe (s : State) : Event → Prop
  | .startUp _ => s.chain.length ≤ 99999999
  | .accept hash => hash ∈ s.extra → Covered ancestors s hash
  | .recognize => ∀ hash ∈ s.tip.due, Covered ancestors s hash
  | .restart => NoGap ancestors s
  | .check | .write | .reject => True

instance (s : State) : (event : Event) → Decidable (Safe ancestors s event)
  | .startUp _ => inferInstanceAs (Decidable (_ ≤ _))
  | .accept _ => inferInstanceAs (Decidable (_ → _))
  | .recognize => Option.decidableForallMem _
  | .restart => inferInstanceAs (Decidable (NoGap ancestors s))
  | .check | .write | .reject => .isTrue trivial

/-! ## The invariant -/

/-- Every block of the list stands on the blocks its header fixes. -/
def Stands : List Uint256 → Prop
  | [] => True
  | hash :: rest => ancestors hash = rest ∧ Stands rest

instance : (chain : List Uint256) → Decidable (Stands ancestors chain)
  | [] => .isTrue trivial
  | _ :: rest =>
      have := instDecidableStands rest
      inferInstanceAs (Decidable (_ ∧ _))

/-- What a running call has handled and has still to handle. -/
structure CallInv (extra chain : List Uint256) (call : Call) : Prop where
  stands : Stands ancestors call.rest
  started : ∀ hash ∈ call.started, hash ∈ extra ∨ hash ∈ call.rest
  rest : ∀ hash ∈ call.rest, hash ∈ extra → ancestors hash ⊆ extra
  chain : ∀ hash ∈ chain, hash ∈ extra → ∀ below ∈ ancestors hash,
    below ∈ extra ∨ below ∈ call.rest

structure Inv (s : State) : Prop where
  stands : Stands ancestors s.chain
  tip : ∀ hash, s.tip = .accepted hash → hash ∈ s.chain
  noGap : s.call = none → NoGap ancestors s
  call : ∀ call ∈ s.call, CallInv ancestors s.extra s.chain call

section Invariant

variable {ancestors : Ancestors} {s s' : State} {extra chain : List Uint256} {call : Call}
  {hash : Uint256} {rest : List Uint256}

theorem Stands.length_lt {chain : List Uint256} (h : Stands ancestors chain) {hash : Uint256}
    (hmem : hash ∈ chain) : (ancestors hash).length < chain.length := by
  induction chain with
  | nil => cases hmem
  | cons tip rest ih =>
      rcases List.mem_cons.mp hmem with heq | hmem
      · rw [heq, h.1]
        exact Nat.lt_succ_self _
      · exact (ih h.2 hmem).trans (Nat.lt_succ_self _)

theorem Stands.not_mem (h : Stands ancestors (hash :: rest)) : hash ∉ rest := by
  intro hmem
  have hlt := h.2.length_lt hmem
  rw [h.1] at hlt
  omega

theorem Stands.tail {chain : List Uint256} (h : Stands ancestors chain) :
    Stands ancestors chain.tail := by
  cases chain with
  | nil => exact h
  | cons tip rest => exact h.2

theorem snapshot_eq (hlength : chain.length ≤ 99999999) : snapshot chain = chain := by
  have hheights : chain.reverse.length ≤ 100000000 := by
    rw [List.length_reverse]
    omega
  rw [snapshot, List.take_of_length_le hheights, List.reverse_reverse,
    List.take_of_length_le hlength]

theorem CallInv.start (hstands : Stands ancestors s.chain) (hnoGap : NoGap ancestors s)
    (hlength : s.chain.length ≤ 99999999) (stop : Bool) :
    CallInv ancestors s.extra s.chain ⟨stop, s.chain, snapshot s.chain, false⟩ := by
  rw [snapshot_eq hlength]
  constructor
  · exact hstands
  · exact fun hash hmem => .inr hmem
  · exact hnoGap
  · exact fun hash hmem hextra below hbelow => .inl (hnoGap hash hmem hextra hbelow)

theorem CallInv.write {stop : Bool} {started : List Uint256} {writing : Bool}
    (h : CallInv ancestors extra chain ⟨stop, started, hash :: rest, writing⟩) :
    CallInv ancestors (hash :: extra) chain ⟨stop, started, rest, false⟩ where
  stands := h.stands.2
  started hash' hmem := by
    rcases h.started hash' hmem with h | h
    · exact .inl (.tail _ h)
    · rcases List.mem_cons.mp h with rfl | h
      · exact .inl (.head _)
      · exact .inr h
  rest hash' hmem hextra := by
    rcases List.mem_cons.mp hextra with rfl | hextra
    · exact absurd hmem h.stands.not_mem
    · exact List.subset_cons_of_subset _ (h.rest hash' (.tail _ hmem) hextra)
  chain hash' hmem hextra below hbelow := by
    rcases List.mem_cons.mp hextra with rfl | hextra
    · rw [h.stands.1] at hbelow
      exact .inr hbelow
    · rcases h.chain hash' hmem hextra below hbelow with h | h
      · exact .inl (.tail _ h)
      · rcases List.mem_cons.mp h with rfl | h
        · exact .inl (.head _)
        · exact .inr h

theorem CallInv.recognize (h : CallInv ancestors extra chain call)
    (hcovered : ∀ below ∈ ancestors hash, below ∈ extra ∨ below ∈ call.rest ∧ hash ∉ call.rest) :
    CallInv ancestors (hash :: extra) chain call where
  stands := h.stands
  started hash' hmem := (h.started hash' hmem).imp_left (.tail _)
  rest hash' hmem hextra := by
    rcases List.mem_cons.mp hextra with rfl | hextra
    · intro below hbelow
      rcases hcovered below hbelow with h | h
      · exact .tail _ h
      · exact absurd hmem h.2
    · exact List.subset_cons_of_subset _ (h.rest hash' hmem hextra)
  chain hash' hmem hextra below hbelow := by
    rcases List.mem_cons.mp hextra with rfl | hextra
    · exact (hcovered below hbelow).imp (.tail _) And.left
    · exact (h.chain hash' hmem hextra below hbelow).imp_left (.tail _)

theorem CallInv.accept (h : CallInv ancestors extra chain call)
    (hcovered : hash ∈ extra →
      ∀ below ∈ ancestors hash, below ∈ extra ∨ below ∈ call.rest ∧ hash ∉ call.rest) :
    CallInv ancestors extra (hash :: chain) call where
  stands := h.stands
  started := h.started
  rest := h.rest
  chain hash' hmem hextra below hbelow := by
    rcases List.mem_cons.mp hmem with rfl | hmem
    · exact (hcovered hextra below hbelow).imp_right And.left
    · exact h.chain hash' hmem hextra below hbelow

theorem CallInv.reject (h : CallInv ancestors extra chain call) :
    CallInv ancestors extra chain.tail call where
  stands := h.stands
  started := h.started
  rest := h.rest
  chain hash hmem := h.chain hash (List.mem_of_mem_tail hmem)

theorem CallInv.rest_subset (h : CallInv ancestors extra chain call) (hdone : call.Done extra) :
    call.rest ⊆ extra := by
  cases hrest : call.rest with
  | nil => exact List.nil_subset _
  | cons hash rest =>
      have hextra := (hdone hash (by simp [hrest])).2
      have hstands := h.stands
      rw [hrest] at hstands
      have hbelow := h.rest hash (by simp [hrest]) hextra
      rw [hstands.1] at hbelow
      exact List.cons_subset.mpr ⟨hextra, hbelow⟩

theorem callExact_of_inv (h : Inv ancestors s) (event : Event) : CallExact s event := by
  intro call hcall _ _ hdone hash hstarted _
  have hinv := h.call call hcall
  rcases hinv.started hash hstarted with hextra | hrest
  · exact hextra
  · exact hinv.rest_subset hdone hrest

/-! ## Steps and runs -/

theorem Covered.of_call (h : Covered ancestors s hash) (hcall : s.call = some call) :
    ∀ below ∈ ancestors hash, below ∈ s.extra ∨ below ∈ call.rest ∧ hash ∉ call.rest := by
  intro below hbelow
  rcases h below hbelow with hextra | ⟨call', hcall', hrest⟩
  · exact .inl hextra
  · rw [hcall, Option.mem_some] at hcall'
    exact .inr (hcall' ▸ hrest)

theorem Covered.of_none (h : Covered ancestors s hash) (hcall : s.call = none) :
    ancestors hash ⊆ s.extra := by
  intro below hbelow
  rcases h below hbelow with hextra | ⟨call, hcall', -⟩
  · exact hextra
  · rw [hcall] at hcall'
    cases hcall'

theorem inv_accept (h : Inv ancestors s) (hsafe : hash ∈ s.extra → Covered ancestors s hash)
    (hstep : acceptBlock ancestors s hash = some s') : Inv ancestors s' := by
  unfold acceptBlock at hstep
  split_ifs at hstep with htip hon hhead
  · cases hstep
    refine ⟨⟨hon, h.stands⟩, fun hash' htip' => ?_, fun hcall => ?_, fun call hcall => ?_⟩
    · cases htip'
      exact .head _
    · intro hash' hmem hextra
      rcases List.mem_cons.mp hmem with rfl | hmem
      · exact (hsafe hextra).of_none hcall
      · exact h.noGap hcall hash' hmem hextra
    · exact (h.call call hcall).accept fun hextra => (hsafe hextra).of_call hcall
  · cases hstep
    refine ⟨h.stands, fun hash' htip' => ?_, h.noGap, h.call⟩
    cases htip'
    exact List.mem_of_mem_head? hhead

theorem inv_step (event : Event) (h : Inv ancestors s) (hsafe : Safe ancestors s event)
    (hstep : step ancestors s event = some s') : Inv ancestors s' := by
  cases event with
  | startUp stop =>
      cases hcall : s.call with
      | some call => simp [step, hcall] at hstep
      | none =>
          simp only [step, hcall, Option.some.injEq] at hstep
          subst hstep
          refine ⟨h.stands, h.tip, fun hnone => (by cases hnone), fun call hcall' => ?_⟩
          cases hcall'
          exact .start h.stands (h.noGap hcall) hsafe stop
  | check =>
      cases hcall : s.call with
      | none => simp [step, hcall] at hstep
      | some call =>
          have hinv := h.call call hcall
          simp only [step, hcall] at hstep
          split_ifs at hstep with hwriting hdone
          · cases hstep
            refine ⟨h.stands, h.tip, fun _ hash hmem hextra below hbelow => ?_,
              fun _ hc => (by cases hc)⟩
            rcases hinv.chain hash hmem hextra below hbelow with h | h
            · exact h
            · exact hinv.rest_subset hdone h
          · cases hstep
            refine ⟨h.stands, h.tip, fun hc => (by cases hc), fun _ hc => ?_⟩
            cases hc
            exact ⟨hinv.stands, hinv.started, hinv.rest, hinv.chain⟩
  | write =>
      simp only [step] at hstep
      split at hstep
      · rename_i stop started hash rest hcall
        cases hstep
        refine ⟨h.stands, h.tip, fun hc => (by cases hc), fun _ hc => ?_⟩
        cases hc
        exact (h.call _ hcall).write
      · cases hstep
  | accept hash => exact inv_accept h hsafe hstep
  | recognize =>
      cases htip : s.tip with
      | accepted hash =>
          simp only [step, htip, Option.some.injEq] at hstep
          subst hstep
          have hcovered : Covered ancestors s hash := hsafe hash (by simp [htip, TipRow.due])
          refine ⟨h.stands, fun _ hc => (by cases hc), fun hcall hash' hmem hextra => ?_,
            fun call hcall => ?_⟩
          · rcases List.mem_cons.mp hextra with rfl | hextra
            · exact List.subset_cons_of_subset _ (hcovered.of_none hcall)
            · exact List.subset_cons_of_subset _ (h.noGap hcall hash' hmem hextra)
          · exact (h.call call hcall).recognize (hcovered.of_call hcall)
      | _ => simp [step, htip] at hstep
  | reject =>
      simp only [step] at hstep
      split_ifs at hstep with htip
      cases hstep
      refine ⟨h.stands.tail, fun hash hc => (by rw [htip] at hc; cases hc),
        fun hcall hash hmem => h.noGap hcall hash (List.mem_of_mem_tail hmem),
        fun call hcall => (h.call call hcall).reject⟩
  | restart =>
      simp only [step, Option.some.injEq] at hstep
      subst hstep
      refine ⟨h.stands, fun hash hc => ?_, fun _ => hsafe, fun _ hc => by cases hc⟩
      cases htip : s.tip <;> simp [htip] at hc

theorem inv_start (hstands : Stands ancestors chain) : Inv ancestors (.start chain) where
  stands := hstands
  tip _ h := by cases h
  noGap _ _ _ h := by cases h
  call _ h := by cases h

/--
A run whose steps leave no gap behind completes no start-up call with a block
left out.
-/
theorem recognizeBlocks_leaves_none (hstands : Stands ancestors chain) {events : List Event}
    (hsafe : EachStep (step ancestors) (Safe ancestors) (.start chain) events) :
    EachStep (step ancestors) CallExact (.start chain) events :=
  hsafe.of_inv (Inv ancestors) (inv_start hstands) (fun event _ _ h => inv_step event h)
    fun _ event h _ => callExact_of_inv h event

end Invariant

def exampleAncestors : Ancestors := fun hash =>
  if hash = 3 then [2, 1, 0] else if hash = 2 then [1, 0] else if hash = 1 then [0] else []

def exampleEvents : List Event :=
  [.startUp true, .check, .accept 2, .write, .recognize, .check, .write, .check, .restart,
    .startUp true, .check, .accept 3, .recognize]

theorem recognizeBlocks_leaves_none_example :
    EachStep (step exampleAncestors) CallExact (.start [1, 0]) exampleEvents :=
  recognizeBlocks_leaves_none (by decide) (by decide +kernel)

/-- The start-up call is cut short after its first block; the next one stops there. -/
theorem recognizeBlocks_leaves_gap : ¬∀ (ancestors : Ancestors) (chain : List Uint256)
    (events : List Event), Stands ancestors chain →
      EachStep (step ancestors) CallExact (.start chain) events := by
  intro h
  have hexact := h exampleAncestors [2, 1, 0]
    [.startUp true, .check, .write, .restart, .startUp true, .check] (by decide)
  exact absurd hexact (by decide +kernel)

end ExplorerKV.Parser.RecognizeBlock

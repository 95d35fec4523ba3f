import ExplorerKV.Log2.ProducerStart

/-!
# Runs of the producer

A run handles the items of log1 one after the other.  It may stop after any
statement, and starts again from the tables, once the parser has caught up.
Whatever the stops, the tables hold the view of the items that are committed, and
the committed events are those of the log.
-/

namespace ExplorerKV.Log2

open Bitcoin Foundation ExplorerKV.Parser
open Logs (Log1)

/-- The tables before the first start: there may be transactions and blocks already. -/
structure Log2Tables.Installed (blocks : Uint256 → RawBlock) (db : Log2Tables) : Prop where
  txlogs2 : db.txlogs2 = []
  nextTxlogs2Id : 0 < db.nextTxlogs2Id
  named : ∀ entry ∈ db.rawBlocks, blocks entry.2.blockHash = entry.2
  blockHashes : (db.rawBlocks.map (·.2.blockHash)).Nodup
  blockIds : (db.rawBlocks.map (·.1)).Nodup
  blockIds_lt : ∀ entry ∈ db.rawBlocks, entry.1 < db.nextRawBlockId
  memrepoTxs : db.memrepoTxs = []
  offset : db.offset = 0

inductive RunState where
  | stopped (db : Log2Tables)
  | running (s : Log2Producer)

def RunState.tables : RunState → Log2Tables
  | .stopped db => db
  | .running s => s.db

/-- The items of log1, and what was confirmed before them. -/
structure NodeLog where
  earlier : List Uint256
  items : List Log1

section Runs

variable (raw : RawTxs) (blocks : Uint256 → RawBlock) (start : BeginBlock) (log : NodeLog)

/-- The node's promises hold all along the log. -/
structure NodeLog.Valid : Prop where
  earlier : Ledger.ConfirmedChain raw log.earlier
  items : Along (NodeView.Valid raw blocks start) (NodeView.next raw blocks start)
    (.atBegin log.earlier) log.items

def NodeLog.viewAfter (n : Nat) : NodeView :=
  (log.items.take n).foldl (NodeView.next raw blocks start) (.atBegin log.earlier)

/--
The runs of the producer.  A stop may come after any statement of the last item.
The parser deletes neither rows nor raw blocks: its first cleanup comes with row
2020000.
-/
inductive Reaches (installed : Log2Tables) : RunState → Prop where
  | install : Reaches installed (.stopped installed)
  | start {db : Log2Tables} {store : StoredChain} {s : Log2Producer}
      (h : Reaches installed (.stopped db))
      (hstore : CaughtUp start (log.viewAfter raw blocks start db.offset) db store)
      (hinit : initLog2 raw start store db = .ok s) : Reaches installed (.running s)
  /-- a start that is refused has deleted the temporary rows -/
  | refused {db : Log2Tables} (h : Reaches installed (.stopped db)) :
      Reaches installed (.stopped db.restarted)
  | handle {s s' : Log2Producer} {item : Log1} (h : Reaches installed (.running s))
      (hitem : log.items[s.currLog1FileOffset]? = some item)
      (hrun : Returns (fun rounds => handleItem raw blocks rounds item s) ((), s')) :
      Reaches installed (.running s')
  | stop {s : Log2Producer} {db : Log2Tables} (h : Reaches installed (.running s))
      (hdb : db = s.db ∨ db ∈ s.statements) : Reaches installed (.stopped db)

/-! ## The events of a log -/

/-- The events of an item, whichever producer handles it. -/
def EventsOf (v : NodeView) (item : Log1) (events : List TxEvent) : Prop :=
  ∀ s, Follows raw blocks start v s →
    ∃ s', Returns (fun rounds => handleItem raw blocks rounds item s) ((), s') ∧
      Follows raw blocks start (v.next raw blocks start item) s' ∧
      Advances raw blocks v (v.next raw blocks start item) events s s'

noncomputable def itemEvents (v : NodeView) (item : Log1) : List TxEvent :=
  Classical.epsilon (EventsOf raw blocks start v item)

noncomputable def NodeLog.eventsAfter : Nat → List TxEvent
  | 0 => []
  | n + 1 => NodeLog.eventsAfter n ++
      (log.items[n]?.map (itemEvents raw blocks start (log.viewAfter raw blocks start n))).getD []

end Runs

section Invariant

variable {raw : RawTxs} {blocks : Uint256 → RawBlock} {start : BeginBlock} {log : NodeLog}
  {installed db : Log2Tables} {s s' : Log2Producer} {item : Log1} {n : Nat}

theorem eventsOf_itemEvents {v : NodeView} (h : Follows raw blocks start v s)
    (hvalid : v.Valid raw blocks start item) :
    EventsOf raw blocks start v item (itemEvents raw blocks start v item) :=
  Classical.epsilon_spec (handleItem_spec h hvalid)

theorem NodeLog.viewAfter_succ (hitem : log.items[n]? = some item) :
    log.viewAfter raw blocks start (n + 1) =
      (log.viewAfter raw blocks start n).next raw blocks start item :=
  foldl_take_succ hitem

theorem NodeLog.eventsAfter_succ (hitem : log.items[n]? = some item) :
    log.eventsAfter raw blocks start (n + 1) = log.eventsAfter raw blocks start n ++
      itemEvents raw blocks start (log.viewAfter raw blocks start n) item := by
  rw [eventsAfter, hitem]
  rfl

theorem NodeLog.eventsAfter_mono {n m : Nat} (h : n ≤ m) :
    log.eventsAfter raw blocks start n <+: log.eventsAfter raw blocks start m := by
  induction m, h using Nat.le_induction with
  | base => exact List.prefix_rfl
  | succ m _ ih => exact ih.trans (List.prefix_append _ _)

/-- The tables hold the items that are committed, and nothing else. -/
structure Stored (raw : RawTxs) (blocks : Uint256 → RawBlock) (start : BeginBlock) (log : NodeLog)
    (db : Log2Tables) : Prop where
  view : (log.viewAfter raw blocks start db.offset).Sound raw blocks start
  holds : db.Holds raw blocks (log.viewAfter raw blocks start db.offset)
  events : db.events = log.eventsAfter raw blocks start db.offset

/-- Items read after the last commit have changed nothing. -/
structure Reading (raw : RawTxs) (blocks : Uint256 → RawBlock) (start : BeginBlock) (log : NodeLog)
    (s : Log2Producer) : Prop where
  follows : Follows raw blocks start (log.viewAfter raw blocks start s.currLog1FileOffset) s
  offset_le : s.db.offset ≤ s.currLog1FileOffset
  view : log.viewAfter raw blocks start s.db.offset =
    log.viewAfter raw blocks start s.currLog1FileOffset
  eventsAfter : log.eventsAfter raw blocks start s.db.offset =
    log.eventsAfter raw blocks start s.currLog1FileOffset
  events : s.db.events = log.eventsAfter raw blocks start s.currLog1FileOffset
  statements : ∀ db ∈ s.statements, Stored raw blocks start log db

theorem Reading.stored (h : Reading raw blocks start log s) : Stored raw blocks start log s.db where
  view := h.view ▸ h.follows.view
  holds := h.view ▸ h.follows.holds
  events := h.events.trans h.eventsAfter.symm

theorem Reading.keeps (h : Reading raw blocks start log s)
    (hkeeps : Keeps raw blocks (log.viewAfter raw blocks start s.currLog1FileOffset) s.db db) :
    Stored raw blocks start log db where
  view := by
    rw [hkeeps.offset, h.view]
    exact h.follows.view
  holds := by
    rw [hkeeps.offset, h.view]
    exact hkeeps.holds
  events := by
    rw [hkeeps.offset, h.eventsAfter, ← h.events, Log2Tables.events, hkeeps.committed]
    rfl

theorem Stored.restarted (h : Stored raw blocks start log db) :
    Stored raw blocks start log db.restarted where
  view := h.view
  holds := h.holds.restarted
  events := by
    rw [Log2Tables.events, Log2Tables.committed_restarted]
    exact h.events

theorem Returns.unique {ε β : Type} {f : Nat → Except ε β} {b b' : β} (h : Returns f b)
    (h' : Returns f b') : b = b' := by
  obtain ⟨rounds, hb, hb'⟩ := (h.and h').exists
  exact Except.ok.inj (hb.symm.trans hb')

theorem Reading.handle (hvalid : log.Valid raw blocks start) (h : Reading raw blocks start log s)
    (hitem : log.items[s.currLog1FileOffset]? = some item) :
    ∃ s', Returns (fun rounds => handleItem raw blocks rounds item s) ((), s') ∧
      s'.currLog1FileOffset = s.currLog1FileOffset + 1 ∧ Reading raw blocks start log s' := by
  obtain ⟨s', hrun, hfollows, hadvances⟩ :=
    eventsOf_itemEvents h.follows (hvalid.items.allowed_at hitem) s h.follows
  have hread := hadvances.read
  rw [← NodeLog.viewAfter_succ hitem, ← hread] at hfollows
  have hevents : s'.db.events = log.eventsAfter raw blocks start s'.currLog1FileOffset := by
    rw [hread, NodeLog.eventsAfter_succ hitem, ← h.events]
    exact hadvances.events
  have hcommitted : log.viewAfter raw blocks start s'.db.offset =
        log.viewAfter raw blocks start s'.currLog1FileOffset ∧
      log.eventsAfter raw blocks start s'.db.offset =
        log.eventsAfter raw blocks start s'.currLog1FileOffset := by
    rcases hadvances.offset with hoffset | ⟨hsame, hview⟩
    · rw [hoffset]
      exact ⟨rfl, rfl⟩
    · rw [← hevents, hsame, h.view, h.eventsAfter, hread, NodeLog.viewAfter_succ hitem]
      exact ⟨hview.symm, h.events.symm⟩
  have hstored : Stored raw blocks start log s'.db :=
    ⟨hcommitted.1 ▸ hfollows.view, hcommitted.1 ▸ hfollows.holds, hevents.trans hcommitted.2.symm⟩
  have hle : s'.db.offset ≤ s'.currLog1FileOffset := by
    rcases hadvances.offset with hoffset | ⟨hsame, -⟩
    · exact hoffset.le
    · rw [hsame, hread]
      exact Nat.le_succ_of_le h.offset_le
  refine ⟨s', hrun, hread, hfollows, hle, hcommitted.1, hcommitted.2, hevents, fun db hdb => ?_⟩
  rcases hadvances.statements db hdb with rfl | hkeeps
  · exact hstored
  · exact h.keeps hkeeps

theorem Stored.started (h : Stored raw blocks start log db) {store : StoredChain}
    (hstore : CaughtUp start (log.viewAfter raw blocks start db.offset) db store) :
    ∃ s, initLog2 raw start store db = .ok s ∧ s.currLog1FileOffset = db.offset ∧
      Reading raw blocks start log s := by
  obtain ⟨s, hinit, hfollows, hdb, hread, hstatements⟩ := initLog2_spec h.view h.holds hstore
  have hoffset : s.db.offset = s.currLog1FileOffset := by
    rw [hread, hdb]
    rfl
  refine ⟨s, hinit, hread, hread ▸ hfollows, hoffset.le, by rw [hoffset], by rw [hoffset], ?_,
    by simp [hstatements]⟩
  rw [hread, ← h.events, Log2Tables.events, hdb, Log2Tables.committed_restarted]
  rfl

theorem Log2Tables.Installed.stored (h : db.Installed blocks)
    (hvalid : log.Valid raw blocks start) :
    Stored raw blocks start log db := by
  have hview : log.viewAfter raw blocks start db.offset = .atBegin log.earlier := by
    rw [h.offset]
    rfl
  have hcommitted : db.committed = [] := by
    rw [Log2Tables.committed, h.txlogs2]
    rfl
  refine ⟨hview ▸ NodeView.sound_atBegin hvalid.earlier, hview ▸ ⟨hvalid.earlier, ?_, ?_, ?_, ?_,
    ?_,
    h.nextTxlogs2Id, h.named, h.blockHashes, h.blockIds, h.blockIds_lt, ?_, ?_, ?_⟩, ?_⟩
  · rw [hcommitted]
    exact along_nil _
  · rw [Log2Tables.ledger, hcommitted]
    exact Ledger.tracks_ofConfirmed
  · simp [hcommitted]
  · simp [h.txlogs2]
  · simp [h.txlogs2]
  · simp [NodeView.atBegin]
  · simp [h.memrepoTxs]
  · simp [h.memrepoTxs, NodeView.atBegin]
  · rw [Log2Tables.events, hcommitted, h.offset]
    rfl

/-! ## Every run -/

/-- What holds of every state of every run. -/
def RunInv (raw : RawTxs) (blocks : Uint256 → RawBlock) (start : BeginBlock) (log : NodeLog) :
    RunState → Prop
  | .stopped db => Stored raw blocks start log db
  | .running s => Reading raw blocks start log s

theorem Reaches.inv (hvalid : log.Valid raw blocks start) (hinstalled : installed.Installed blocks)
    {state : RunState} (h : Reaches raw blocks start log installed state) :
    RunInv raw blocks start log state := by
  induction h with
  | install => exact hinstalled.stored hvalid
  | start _ hstore hinit ih =>
      obtain ⟨s, hinit', -, hreading⟩ := Stored.started ih hstore
      obtain rfl := Except.ok.inj (hinit.symm.trans hinit')
      exact hreading
  | refused _ ih => exact Stored.restarted ih
  | handle _ hitem hrun ih =>
      obtain ⟨s', hrun', -, hreading⟩ := Reading.handle hvalid ih hitem
      obtain rfl := congrArg Prod.snd (hrun.unique hrun')
      exact hreading
  | stop _ hdb ih =>
      rcases hdb with rfl | hdb
      · exact Reading.stored ih
      · exact Reading.statements ih _ hdb

theorem Reaches.stored (hvalid : log.Valid raw blocks start)
    (hinstalled : installed.Installed blocks)
    {state : RunState} (h : Reaches raw blocks start log installed state) :
    Stored raw blocks start log state.tables := by
  have hinv := h.inv hvalid hinstalled
  cases state with
  | stopped db => exact hinv
  | running s => exact Reading.stored hinv

theorem Reaches.go_on (hvalid : log.Valid raw blocks start)
    (hinstalled : installed.Installed blocks)
    (h : Reaches raw blocks start log installed (.running s)) (hle : s.currLog1FileOffset ≤ n)
    (hn : n ≤ log.items.length) :
    ∃ s', Reaches raw blocks start log installed (.running s') ∧ s'.currLog1FileOffset = n := by
  induction n, hle using Nat.le_induction with
  | base => exact ⟨s, h, rfl⟩
  | succ n _ ih =>
      obtain ⟨s₁, hreaches, hread⟩ := ih (Nat.le_of_succ_le hn)
      have hitem : log.items[s₁.currLog1FileOffset]? = some log.items[n] := by
        rw [hread, List.getElem?_eq_getElem]
      obtain ⟨s', hrun, hread', -⟩ := Reading.handle hvalid (hreaches.inv hvalid hinstalled) hitem
      exact ⟨s', hreaches.handle hitem hrun, by rw [hread', hread]⟩

theorem NodeLog.viewAfter_earlier (n : Nat) :
    (log.viewAfter raw blocks start n).earlier = log.earlier := by
  induction n with
  | zero => rfl
  | succ n ih =>
      cases hitem : log.items[n]? with
      | none =>
          have hlen := List.getElem?_eq_none_iff.mp hitem
          rwa [viewAfter, List.take_of_length_le (Nat.le_succ_of_le hlen),
            ← List.take_of_length_le hlen]
      | some item => rw [viewAfter_succ hitem, NodeView.next_earlier, ih]

end Invariant

/-! ## A log of two items -/

/-- `1` and `3` are coinbases, `2` spends the output of `1`. -/
def runRaw : RawTxs := fun hash =>
  if hash = 2 then ⟨⟨1, [⟨⟨1, 0⟩, 0⟩], [⟨5, []⟩], 0⟩, 0⟩
  else ⟨⟨1, [⟨⟨0, 0xffffffff⟩, 0⟩], [⟨5, []⟩], 0⟩, 0⟩

def runBlocks : Uint256 → RawBlock := fun _ => ⟨11, 1, ⟨10, 1, [3, 2]⟩⟩

def runStart : BeginBlock := ⟨0, 10, by decide, by decide⟩

def runLog : NodeLog := ⟨[1], [.acceptTx 2, .block 1 11]⟩

def runInstalled : Log2Tables := ⟨[], 1, ∅, [], 1, [], 0⟩

/-- What `2` spends is created by `1` and spent by no one. -/
theorem runRaw_available (out : COutPoint) (hout : out ∈ (hashedTx runRaw 2).prevouts) :
    ¬SpentOn [hashedTx runRaw 1] out ∧ CreatedOn [hashedTx runRaw 1] out := by
  have hprevout : out = ⟨1, 0⟩ := by
    have hall : ∀ out ∈ (hashedTx runRaw 2).prevouts, out = ⟨1, 0⟩ := by decide +kernel
    exact hall out hout
  subst hprevout
  unfold SpentOn CreatedOn
  decide +kernel

theorem runLog_block : (runLog.viewAfter runRaw runBlocks runStart 1).BlockValid runRaw runBlocks
    runStart 1 11 where
  named := rfl
  hash_ne_zero := by decide
  height := by decide
  parent := rfl
  coinBase := by
    refine ⟨3, [2], rfl, by decide +kernel, fun hash hhash => ?_⟩
    rw [List.mem_singleton.mp hhash]
    decide +kernel
  fresh first hfirst := by
    obtain rfl := Option.some.inj hfirst
    change (3 : Uint256) ∉ [1]
    decide
  txs := by
    refine ⟨fun before tx after hvtx out hout => ?_, by decide +kernel, by decide +kernel,
      by decide +kernel⟩
    have hmem : tx ∈ [hashedTx runRaw 3, hashedTx runRaw 2] := by
      change [hashedTx runRaw 3, hashedTx runRaw 2] = _ at hvtx
      simp [hvtx]
    rcases List.mem_pair.mp hmem with rfl | rfl
    · have hnone : (hashedTx runRaw 3).prevouts = [] := by decide +kernel
      rw [hnone] at hout
      cases hout
    · exact (runRaw_available out hout).imp_right .inl

theorem runLog_valid : runLog.Valid runRaw runBlocks runStart where
  earlier := by
    refine ⟨⟨List.not_mem_nil, by decide +kernel, ?_⟩, trivial⟩
    decide +kernel
  items := by
    refine ⟨.acceptTx ⟨by decide +kernel, by decide +kernel, by decide +kernel, fun out hout => ?_⟩,
      .accept runLog_block, trivial⟩
    exact (runRaw_available out hout).imp_right .inl

theorem runInstalled_installed : runInstalled.Installed runBlocks where
  txlogs2 := rfl
  nextTxlogs2Id := by decide
  named := by simp [runInstalled]
  blockHashes := List.nodup_nil
  blockIds := List.nodup_nil
  blockIds_lt := by simp [runInstalled]
  memrepoTxs := rfl
  offset := rfl

theorem runLog_caughtUp {n : Nat} (hn : n ≤ 1) (db : Log2Tables) :
    CaughtUp runStart (runLog.viewAfter runRaw runBlocks runStart n) db
      ⟨((db.txlogs2.filter fun entry => !entry.temporary).getLast?.map fun entry =>
        entry.row.id).getD 0, [⟨0, 10, 1⟩]⟩ := by
  have hchain : (runLog.viewAfter runRaw runBlocks runStart n).chain = [] := by
    rcases Nat.le_one_iff_eq_zero_or_eq_one.mp hn with rfl | rfl <;> rfl
  refine ⟨rfl, by simp, fun _ => ⟨⟨0, 10, 1⟩, rfl, ?_, ?_⟩, by simp [hchain]⟩
  · rw [NodeView.height, hchain]
    rfl
  · rw [hchain]
    rfl

theorem runLog_started : ∃ s, Reaches runRaw runBlocks runStart runLog runInstalled (.running s) ∧
    s.currLog1FileOffset = 0 := by
  have hstored := runInstalled_installed.stored runLog_valid
  obtain ⟨s, hinit, hread, -⟩ := hstored.started (runLog_caughtUp (Nat.zero_le 1) _)
  exact ⟨s, .start .install (runLog_caughtUp (Nat.zero_le 1) _) hinit, hread⟩

theorem runLog_uninterrupted : ∃ s,
    Reaches runRaw runBlocks runStart runLog runInstalled (.running s) ∧
      s.currLog1FileOffset = 2 := by
  obtain ⟨s, h, hread⟩ := runLog_started
  exact h.go_on runLog_valid runInstalled_installed (by omega) (by decide)

theorem runLog_restarted : ∃ s,
    Reaches runRaw runBlocks runStart runLog runInstalled (.running s) ∧
      s.currLog1FileOffset = 2 := by
  obtain ⟨s₀, hreaches₀, hread₀⟩ := runLog_started
  obtain ⟨s₁, hreaches₁, hread₁⟩ := hreaches₀.go_on runLog_valid runInstalled_installed
    (hread₀.le.trans (Nat.zero_le 1)) (by decide)
  have hreading₁ : Reading runRaw runBlocks runStart runLog s₁ :=
    hreaches₁.inv runLog_valid runInstalled_installed
  have hle : s₁.db.offset ≤ 1 := hread₁ ▸ hreading₁.offset_le
  obtain ⟨s₂, hinit₂, hread₂, -⟩ := hreading₁.stored.started (runLog_caughtUp hle _)
  have hreaches₂ := (hreaches₁.stop (.inl rfl)).start (runLog_caughtUp hle _) hinit₂
  exact hreaches₂.go_on runLog_valid runInstalled_installed (by omega) (by decide)

/-- Behind the block its rows are committed: no shorter log has its view. -/
theorem runLog_offset {s : Log2Producer}
    (h : Reaches runRaw runBlocks runStart runLog runInstalled (.running s))
    (hread : s.currLog1FileOffset = 2) : s.db.offset = 2 := by
  have hreading : Reading runRaw runBlocks runStart runLog s :=
    h.inv runLog_valid runInstalled_installed
  have hle : s.db.offset ≤ 2 := hread ▸ hreading.offset_le
  have hview : runLog.viewAfter runRaw runBlocks runStart s.db.offset =
      runLog.viewAfter runRaw runBlocks runStart 2 := hread ▸ hreading.view
  have hchain := congrArg (fun v => v.chain.length) hview
  interval_cases s.db.offset
  · exact absurd hchain (by decide)
  · exact absurd hchain (by decide)
  · rfl

/-! ## Results -/

section Results

variable {raw : RawTxs} {blocks : Uint256 → RawBlock} {start : BeginBlock} {log : NodeLog}
  {installed installed' : Log2Tables}

/--
In every state of every run the committed rows obey the protocol and the dependency
order, they lead to the chain and the pool of the items that are committed, and
every row finds its transaction and its block.
-/
theorem committed_obeys (hvalid : log.Valid raw blocks start)
    (hinstalled : installed.Installed blocks)
    {state : RunState} (h : Reaches raw blocks start log installed state) :
    let db := state.tables
    let v := log.viewAfter raw blocks start db.offset
    Along (Ledger.Emits raw) Ledger.next (.ofConfirmed log.earlier) db.committed ∧
      (db.committed.foldl Ledger.next (.ofConfirmed log.earlier)).Tracks v.confirmed v.pool ∧
      (∀ row ∈ db.committed, db.Fetchable raw row) ∧
      (db.txlogs2.Pairwise fun a b => a.row.id < b.row.id) ∧
      ∀ hash, hash ∈ db.memrepoTxs ↔ hash ∈ v.pool := by
  have hstored := h.stored hvalid hinstalled
  have hearlier : (log.viewAfter raw blocks start state.tables.offset).earlier = log.earlier :=
    NodeLog.viewAfter_earlier _
  have hobeys := hstored.holds.obeys
  have htracks := hstored.holds.tracks
  rw [hearlier] at hobeys
  rw [Log2Tables.ledger, hearlier] at htracks
  exact ⟨hobeys, htracks, hstored.holds.fetchable, hstored.holds.ids, hstored.holds.memrepo_iff⟩

theorem committed_obeys_runLog : ∃ s,
    Reaches runRaw runBlocks runStart runLog runInstalled (.running s) ∧
      Along (Ledger.Emits runRaw) Ledger.next (.ofConfirmed [1]) s.db.committed := by
  obtain ⟨s, h, -⟩ := runLog_restarted
  exact ⟨s, h, (committed_obeys runLog_valid runInstalled_installed h).1⟩

/--
No assertion and no exception of the producer is ever met: in every state of every
run the next item is handled, and from every stop a start succeeds as soon as the
parser has caught up.
-/
theorem never_stuck (hvalid : log.Valid raw blocks start) (hinstalled : installed.Installed blocks)
    {state : RunState} (h : Reaches raw blocks start log installed state) :
    (∀ s item, state = .running s → log.items[s.currLog1FileOffset]? = some item →
      ∃ s', Returns (fun rounds => handleItem raw blocks rounds item s) ((), s')) ∧
    ∀ db store, state = .stopped db →
      CaughtUp start (log.viewAfter raw blocks start db.offset) db store →
      ∃ s, initLog2 raw start store db = .ok s := by
  have hinv := h.inv hvalid hinstalled
  refine ⟨?_, ?_⟩
  · rintro s item rfl hitem
    obtain ⟨s', hrun, -⟩ := Reading.handle hvalid hinv hitem
    exact ⟨s', hrun⟩
  · rintro db store rfl hstore
    obtain ⟨s, hinit, -⟩ := Stored.started hinv hstore
    exact ⟨s, hinit⟩

/-- The block is handled behind the transaction, and a stop before it can be started again. -/
theorem never_stuck_runLog : ∃ s,
    Reaches runRaw runBlocks runStart runLog runInstalled (.running s) ∧
      s.currLog1FileOffset = 1 ∧
      (∃ s', Returns (fun rounds => handleItem runRaw runBlocks rounds (.block 1 11) s) ((), s')) ∧
      ∃ store s', initLog2 runRaw runStart store s.db = .ok s' := by
  obtain ⟨s₀, h₀, hread₀⟩ := runLog_started
  obtain ⟨s, h, hread⟩ := h₀.go_on runLog_valid runInstalled_installed
    (hread₀.le.trans (Nat.zero_le 1)) (by decide)
  have hreading : Reading runRaw runBlocks runStart runLog s :=
    h.inv runLog_valid runInstalled_installed
  have hitem : runLog.items[s.currLog1FileOffset]? = some (.block 1 11) := by
    rw [hread]
    rfl
  have hhandled :=
    (never_stuck runLog_valid runInstalled_installed h).1 s (.block 1 11) rfl hitem
  have hstarted := (never_stuck runLog_valid runInstalled_installed (h.stop (.inl rfl))).2 s.db _
    rfl (runLog_caughtUp (hread ▸ hreading.offset_le) s.db)
  exact ⟨s, h, hread, hhandled, _, hstarted⟩

/--
Stops leave no trace in the events: of any two runs over one log, stopped and
started as they may be, the one that has committed less has committed the first
events of the other.
-/
theorem events_agree (hvalid : log.Valid raw blocks start) (hinstalled : installed.Installed blocks)
    (hinstalled' : installed'.Installed blocks) {state state' : RunState}
    (h : Reaches raw blocks start log installed state)
    (h' : Reaches raw blocks start log installed' state')
    (hle : state.tables.offset ≤ state'.tables.offset) :
    state.tables.events <+: state'.tables.events := by
  rw [(h.stored hvalid hinstalled).events, (h'.stored hvalid hinstalled').events]
  exact NodeLog.eventsAfter_mono hle

/-- The uninterrupted run and the restarted one have committed the same events. -/
theorem events_agree_runLog : ∃ s s',
    Reaches runRaw runBlocks runStart runLog runInstalled (.running s) ∧
      Reaches runRaw runBlocks runStart runLog runInstalled (.running s') ∧
        s.db.offset = 2 ∧ s'.db.offset = 2 ∧
          s.db.events <+: s'.db.events ∧ s'.db.events <+: s.db.events := by
  obtain ⟨s, h, hread⟩ := runLog_uninterrupted
  obtain ⟨s', h', hread'⟩ := runLog_restarted
  have hoffset := runLog_offset h hread
  have hoffset' := runLog_offset h' hread'
  refine ⟨s, s', h, h', hoffset, hoffset', ?_, ?_⟩
  · exact events_agree runLog_valid runInstalled_installed runInstalled_installed h h'
      (hoffset.trans hoffset'.symm).le
  · exact events_agree runLog_valid runInstalled_installed runInstalled_installed h' h
      (hoffset'.trans hoffset.symm).le

/--
A start gives back the memory: producers that have read the same items have the
same repository, current block and events, however often they were stopped.
-/
theorem memory_agrees (hvalid : log.Valid raw blocks start)
    (hinstalled : installed.Installed blocks)
    (hinstalled' : installed'.Installed blocks) {s s' : Log2Producer}
    (h : Reaches raw blocks start log installed (.running s))
    (h' : Reaches raw blocks start log installed' (.running s'))
    (heq : s.currLog1FileOffset = s'.currLog1FileOffset) :
    s.memRepo = s'.memRepo ∧ s.currBlockHeight = s'.currBlockHeight ∧
      s.currBlockHash = s'.currBlockHash ∧ s.db.events = s'.db.events := by
  have hreading : Reading raw blocks start log s := h.inv hvalid hinstalled
  have hreading' : Reading raw blocks start log s' := h'.inv hvalid hinstalled'
  have hfollows' := hreading'.follows
  rw [← heq] at hfollows'
  refine ⟨hfollows'.memRepo_eq hreading.follows, ?_, ?_, ?_⟩
  · rw [hreading.follows.height, hfollows'.height]
  · rw [hreading.follows.hash, hfollows'.hash]
  · rw [hreading.events, hreading'.events, heq]

theorem memory_agrees_runLog : ∃ s s',
    Reaches runRaw runBlocks runStart runLog runInstalled (.running s) ∧
      Reaches runRaw runBlocks runStart runLog runInstalled (.running s') ∧
        s.memRepo = s'.memRepo ∧ s.db.events = s'.db.events := by
  obtain ⟨s, h, hread⟩ := runLog_uninterrupted
  obtain ⟨s', h', hread'⟩ := runLog_restarted
  have hagree := memory_agrees runLog_valid runInstalled_installed runInstalled_installed h h'
    (hread.trans hread'.symm)
  exact ⟨s, s', h, h', hagree.1, hagree.2.2.2⟩

end Results

end ExplorerKV.Log2

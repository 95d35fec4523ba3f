import ExplorerKV.Bitcoin.Core
import ExplorerKV.Foundation.Machine

/-!
# The cache of raw transactions

`TxInfoCache` keeps the id and the text of a transaction from its first use to
its second.  About once a day a call also drops the entries that were not used
for a day.  The loop that does so looks at the time of the entry the call has
just used, not at that of the entry in turn.
-/

namespace ExplorerKV.Parser

open Bitcoin Foundation

structure TxInfo where
  txId : Int
  hex : String
  count : Nat
  useTime : Int
  deriving DecidableEq, Repr

/-- `TxInfo(txId, hex)` -/
def TxInfo.new (txId : Int) (hex : String) : TxInfo := ⟨txId, hex, 0, 0⟩

/-- `map<uint256, TxInfo>` -/
abbrev TxInfoMap := List (Uint256 × TxInfo)

structure TxInfoCache where
  lastClearTime : Int
  cache : TxInfoMap
  deriving DecidableEq, Repr

/-- The rows of the `raw_txs` tables, `id` and `hex`. -/
abbrev RawTxTable := Uint256 → Option (Int × String)

/-- A call, and what `time(nullptr)` gives in it. -/
structure TxInfoCall where
  hash : Uint256
  now : Int
  deriving DecidableEq, Repr

inductive TxInfoFault where
  /-- the exception of a hash that has no row -/
  | noRawTx
  | assertion
  /-- an iterator is read after its element was erased -/
  | danglingIterator
  deriving DecidableEq, Repr

namespace TxInfoCache

def new (now : Int) : TxInfoCache := ⟨now, []⟩

/-- `cache_` once the hash has been looked up in the database. -/
def load (db : RawTxTable) (c : TxInfoCache) (hash : Uint256) : Except TxInfoFault TxInfoMap :=
  match c.cache.lookup hash with
  | some _ => pure c.cache
  | none =>
      match db hash with
      | none => throw .noRawTx
      | some (txId, hex) => pure (c.cache ++ [(hash, .new txId hex)])

/-- The result of a call, `cache_`, and the entry its iterator is at. -/
structure Use where
  value : Int × String
  cache : TxInfoMap
  it : Option TxInfo
  deriving DecidableEq, Repr

def useTxInfo (db : RawTxTable) (c : TxInfoCache) (call : TxInfoCall) :
    Except TxInfoFault Use := do
  let cache ← c.load db call.hash
  match cache.lookup call.hash with
  | none => throw .assertion
  | some txInfo =>
      let txInfo := { txInfo with useTime := call.now, count := txInfo.count + 1 }
      if txInfo.count ≥ 2 then
        pure ⟨(txInfo.txId, txInfo.hex), cache.filter (·.1 ≠ call.hash), none⟩
      else
        pure ⟨(txInfo.txId, txInfo.hex),
          cache.map fun e => if e.1 = call.hash then (e.1, txInfo) else e, some txInfo⟩

def Stale (now : Int) (txInfo : TxInfo) : Prop := txInfo.useTime + 86400 < now

instance (now : Int) (txInfo : TxInfo) : Decidable (Stale now txInfo) :=
  inferInstanceAs (Decidable (_ < _))

/-- The loop of the cleaning, which fills `cacheNew`. -/
def clean (now : Int) (it : Option TxInfo) : TxInfoMap → TxInfoMap → Except TxInfoFault TxInfoMap
  | [], cacheNew => pure cacheNew
  | entry :: rest, cacheNew =>
      match it with
      | none => throw .danglingIterator
      | some txInfo =>
          if Stale now txInfo then clean now it rest cacheNew
          else clean now it rest (cacheNew ++ [entry])

def Triggered (c : TxInfoCache) (call : TxInfoCall) : Prop := c.lastClearTime + 86400 < call.now

instance (c : TxInfoCache) (call : TxInfoCall) : Decidable (c.Triggered call) :=
  inferInstanceAs (Decidable (_ < _))

def getTxInfo (db : RawTxTable) (c : TxInfoCache) (call : TxInfoCall) :
    Except TxInfoFault ((Int × String) × TxInfoCache) := do
  let used ← c.useTxInfo db call
  if c.Triggered call then
    let cacheNew ← clean call.now used.it used.cache []
    pure (used.value, ⟨call.now, cacheNew⟩)
  else pure (used.value, ⟨c.lastClearTime, used.cache⟩)

def step (db : RawTxTable) (c : TxInfoCache) (call : TxInfoCall) : Option TxInfoCache :=
  match c.getTxInfo db call with
  | .ok (_, c) => some c
  | .error .noRawTx => some c
  | .error _ => none

/-! ## What a call should do -/

/-- The row of the hash is returned, and a cleaning drops exactly the stale entries. -/
structure Answered (db : RawTxTable) (c : TxInfoCache) (call : TxInfoCall) (used : Use) : Prop where
  use : c.useTxInfo db call = .ok used
  value : db call.hash = some used.value
  result : ∃ c', c.getTxInfo db call = .ok (used.value, c') ∧
    c'.cache = if c.Triggered call then used.cache.filter fun e => ¬Stale call.now e.2
      else used.cache

def CallExact (db : RawTxTable) (c : TxInfoCache) (call : TxInfoCall) : Prop :=
  if (db call.hash).isSome then ∃ used, Answered db c call used
  else c.getTxInfo db call = .error .noRawTx

/--
No call that cleans erases its own entry while there are others, or comes upon
a stale one.
-/
def CleanSafe (db : RawTxTable) (c : TxInfoCache) (call : TxInfoCall) : Prop :=
  c.Triggered call → (db call.hash).isSome →
    if (c.cache.lookup call.hash).isSome then ∀ e ∈ c.cache, e.1 = call.hash
    else ∀ e ∈ c.cache, ¬Stale call.now e.2

instance (db : RawTxTable) (c : TxInfoCache) (call : TxInfoCall) :
    Decidable (CleanSafe db c call) :=
  inferInstanceAs (Decidable (_ → _ → _))

/-! ## The state between calls -/

/-- Every entry is that of its hash, and has been used once. -/
structure Inv (db : RawTxTable) (c : TxInfoCache) : Prop where
  row : ∀ e ∈ c.cache, db e.1 = some (e.2.txId, e.2.hex)
  count : ∀ e ∈ c.cache, e.2.count = 1

section Calls

variable {db : RawTxTable} {c c' : TxInfoCache} {call : TxInfoCall}

theorem inv_new (now : Int) : Inv db (.new now) := by
  constructor <;> simp [TxInfoCache.new]

theorem mem_of_lookup {hash : Uint256} {txInfo : TxInfo} {cache : TxInfoMap}
    (h : cache.lookup hash = some txInfo) : (hash, txInfo) ∈ cache := by
  obtain ⟨before, after, heq, -⟩ := List.lookup_eq_some_iff.mp h
  simp [heq]

theorem ne_of_lookup {hash : Uint256} {cache : TxInfoMap} (h : cache.lookup hash = none)
    {e : Uint256 × TxInfo} (he : e ∈ cache) : e.1 ≠ hash := by
  have hne := List.lookup_eq_none_iff.mp h e he
  intro heq
  simp [heq] at hne

theorem useTxInfo_again (hinv : Inv db c) {txInfo : TxInfo}
    (h : c.cache.lookup call.hash = some txInfo) :
    c.useTxInfo db call = .ok
      ⟨(txInfo.txId, txInfo.hex), c.cache.filter (·.1 ≠ call.hash), none⟩ := by
  have hcount : txInfo.count = 1 := hinv.count _ (mem_of_lookup h)
  have hload : c.load db call.hash = .ok c.cache := by
    unfold load
    rw [h]
    rfl
  simp only [useTxInfo, hload, bind, Except.bind, h, hcount]
  rfl

theorem useTxInfo_first {txId : Int} {hex : String} (h : c.cache.lookup call.hash = none)
    (hrow : db call.hash = some (txId, hex)) :
    c.useTxInfo db call = .ok ⟨(txId, hex),
      c.cache ++ [(call.hash, ⟨txId, hex, 1, call.now⟩)], some ⟨txId, hex, 1, call.now⟩⟩ := by
  have hload : c.load db call.hash = .ok (c.cache ++ [(call.hash, TxInfo.new txId hex)]) := by
    unfold load
    rw [h, hrow]
    rfl
  have hlookup : (c.cache ++ [(call.hash, TxInfo.new txId hex)]).lookup call.hash =
      some (TxInfo.new txId hex) := by
    simp [List.lookup_append, h]
  have hkeep : c.cache.map (fun e =>
      if e.1 = call.hash then (e.1, (⟨txId, hex, 1, call.now⟩ : TxInfo)) else e) = c.cache := by
    exact (List.map_congr_left fun e he => if_neg (ne_of_lookup h he)).trans (List.map_id' _)
  simp only [useTxInfo, hload, bind, Except.bind, hlookup, List.map_append, List.map_singleton]
  simp only [TxInfo.new, Nat.zero_add, if_true, hkeep]
  rfl

theorem useTxInfo_noRawTx (h : c.cache.lookup call.hash = none) (hrow : db call.hash = none) :
    c.useTxInfo db call = .error .noRawTx := by
  simp only [useTxInfo, load, h, hrow]
  rfl

/-! ## The cleaning -/

theorem clean_erased {now : Int} {entries cache : TxInfoMap} :
    clean now none entries [] = .ok cache ↔ entries = [] ∧ cache = [] := by
  cases entries with
  | nil => simp [clean, pure, Except.pure, eq_comm]
  | cons entry entries => simp [clean]

theorem clean_used {now : Int} {txInfo : TxInfo} (h : txInfo.useTime = now)
    (entries cacheNew : TxInfoMap) :
    clean now (some txInfo) entries cacheNew = .ok (cacheNew ++ entries) := by
  have hfresh : ¬Stale now txInfo := by
    unfold Stale
    omega
  induction entries generalizing cacheNew with
  | nil => simp [clean, pure, Except.pure]
  | cons entry entries ih =>
      rw [clean, if_neg hfresh, ih, List.append_assoc, List.singleton_append]

theorem getTxInfo_of_use {used : Use} (h : c.useTxInfo db call = .ok used) :
    c.getTxInfo db call =
      if c.Triggered call then
        (clean call.now used.it used.cache []).map fun cacheNew =>
          (used.value, ⟨call.now, cacheNew⟩)
      else .ok (used.value, ⟨c.lastClearTime, used.cache⟩) := by
  simp only [getTxInfo, h, bind, Except.bind]
  split
  · cases clean call.now used.it used.cache [] <;> rfl
  · rfl

theorem getTxInfo_noRawTx (hinv : Inv db c) (hrow : db call.hash = none) :
    c.getTxInfo db call = .error .noRawTx := by
  have hlookup : c.cache.lookup call.hash = none := by
    cases h : c.cache.lookup call.hash with
    | none => rfl
    | some txInfo => cases hrow.symm.trans (hinv.row _ (mem_of_lookup h))
  simp only [getTxInfo, useTxInfo_noRawTx hlookup hrow]
  rfl

theorem callExact_iff_of_use {used : Use} (h : c.useTxInfo db call = .ok used)
    (hrow : db call.hash = some used.value) :
    CallExact db c call ↔ (c.Triggered call → clean call.now used.it used.cache [] =
      .ok (used.cache.filter fun e => ¬Stale call.now e.2)) := by
  have hget := getTxInfo_of_use h
  rw [CallExact, hrow, Option.isSome_some, if_pos rfl]
  constructor
  · rintro ⟨used', huse, -, c', hc', hcache⟩ htriggered
    obtain rfl := Except.ok.inj (h.symm.trans huse)
    rw [hget, if_pos htriggered] at hc'
    rw [if_pos htriggered] at hcache
    cases hclean : clean call.now used.it used.cache [] with
    | error e =>
        rw [hclean] at hc'
        cases hc'
    | ok cacheNew =>
        rw [hclean] at hc'
        rw [← hcache, ← (Prod.mk.inj (Except.ok.inj hc')).2]
  · intro hclean
    refine ⟨used, h, hrow, ?_⟩
    by_cases htriggered : c.Triggered call
    · rw [hget, if_pos htriggered, hclean htriggered, if_pos htriggered]
      exact ⟨_, rfl, rfl⟩
    · rw [hget, if_neg htriggered, if_neg htriggered]
      exact ⟨_, rfl, rfl⟩

theorem callExact_iff (hinv : Inv db c) : CallExact db c call ↔ CleanSafe db c call := by
  cases hrow : db call.hash with
  | none =>
      have hexact : CallExact db c call := by
        rw [CallExact, hrow]
        exact getTxInfo_noRawTx hinv hrow
      exact iff_of_true hexact fun _ hsome => by simp [hrow] at hsome
  | some row =>
      obtain ⟨txId, hex⟩ := row
      cases hlookup : c.cache.lookup call.hash with
      | some txInfo =>
          have huse := useTxInfo_again hinv hlookup
          have hvalue := hinv.row _ (mem_of_lookup hlookup)
          have hsafe : CleanSafe db c call ↔
              (c.Triggered call → ∀ e ∈ c.cache, e.1 = call.hash) := by
            simp [CleanSafe, hrow, hlookup]
          rw [callExact_iff_of_use huse hvalue, hsafe]
          refine imp_congr_right fun _ => clean_erased.trans ?_
          rw [List.filter_eq_nil_iff]
          constructor
          · rintro ⟨hall, -⟩ e he
            simpa using hall e he
          · intro hall
            have hempty : c.cache.filter (·.1 ≠ call.hash) = [] :=
              List.filter_eq_nil_iff.mpr fun e he => by simp [hall e he]
            exact ⟨fun e he => by simp [hall e he], by rw [hempty]; rfl⟩
      | none =>
          have huse := useTxInfo_first hlookup hrow
          have hself : ¬Stale call.now ⟨txId, hex, 1, call.now⟩ := by
            simp [Stale]
          have hsafe : CleanSafe db c call ↔
              (c.Triggered call → ∀ e ∈ c.cache, ¬Stale call.now e.2) := by
            simp [CleanSafe, hrow, hlookup]
          rw [callExact_iff_of_use huse hrow, hsafe]
          refine imp_congr_right fun _ => ?_
          rw [clean_used (by rfl), List.nil_append, Except.ok.injEq, eq_comm, List.filter_eq_self]
          constructor
          · intro hall e he
            simpa using hall e (List.mem_append_left _ he)
          · intro hall e he
            rcases List.mem_append.mp he with hold | hnew
            · simpa using hall e hold
            · rw [List.mem_singleton.mp hnew]
              simpa using hself

/-! ## Sequences of calls -/

theorem clean_subset {now : Int} {it : Option TxInfo} {entries cacheNew cache : TxInfoMap}
    (h : clean now it entries cacheNew = .ok cache) : cache ⊆ cacheNew ++ entries := by
  induction entries generalizing cacheNew with
  | nil =>
      rw [List.append_nil]
      exact (Except.ok.inj h).symm ▸ List.Subset.refl _
  | cons entry entries ih =>
      cases it with
      | none => cases h
      | some txInfo =>
          rw [clean] at h
          intro e he
          split at h
          · rcases List.mem_append.mp (ih h he) with h | h <;> simp [h]
          · rcases List.mem_append.mp (ih h he) with h | h
            · rcases List.mem_append.mp h with h | h <;> simp_all
            · simp [h]

theorem Inv.of_subset (h : Inv db c) {cache : TxInfoMap} (hsub : cache ⊆ c.cache) (time : Int) :
    Inv db ⟨time, cache⟩ :=
  ⟨fun e he => h.row e (hsub he), fun e he => h.count e (hsub he)⟩

theorem Inv.use (hinv : Inv db c) {used : Use} (h : c.useTxInfo db call = .ok used) (time : Int) :
    Inv db ⟨time, used.cache⟩ := by
  cases hlookup : c.cache.lookup call.hash with
  | some txInfo =>
      rw [useTxInfo_again hinv hlookup] at h
      rw [← Except.ok.inj h]
      exact hinv.of_subset List.filter_sublist.subset time
  | none =>
      cases hrow : db call.hash with
      | none =>
          rw [useTxInfo_noRawTx hlookup hrow] at h
          cases h
      | some row =>
          rw [useTxInfo_first hlookup hrow] at h
          rw [← Except.ok.inj h]
          constructor <;> intro e he <;> rcases List.mem_append.mp he with hold | hnew
          · exact hinv.row e hold
          · rw [List.mem_singleton.mp hnew, hrow]
          · exact hinv.count e hold
          · rw [List.mem_singleton.mp hnew]

theorem inv_step (hinv : Inv db c) (h : c.step db call = some c') : Inv db c' := by
  unfold step at h
  cases huse : c.useTxInfo db call with
  | error e =>
      have hget : c.getTxInfo db call = .error e := by
        simp only [getTxInfo, huse]
        rfl
      rw [hget] at h
      cases e with
      | noRawTx => exact Option.some.inj h ▸ hinv
      | _ => cases h
  | ok used =>
      rw [getTxInfo_of_use huse] at h
      have hused := hinv.use huse
      split_ifs at h with htriggered
      · cases hclean : clean call.now used.it used.cache [] with
        | error e =>
            rw [hclean] at h
            cases e with
            | noRawTx => exact Option.some.inj h ▸ hinv
            | _ => cases h
        | ok cache =>
            rw [hclean] at h
            rw [← Option.some.inj h]
            exact (hused call.now).of_subset (clean_subset hclean) call.now
      · rw [← Option.some.inj h]
        exact hused c.lastClearTime

/--
In every sequence of calls all do what they should if and only if each one that
cleans meets the condition in the state it finds.
-/
theorem getTxInfo_exact_iff (db : RawTxTable) (start : Int) (calls : List TxInfoCall) :
    EachStep (step db) (CallExact db) (.new start) calls ↔
      EachStep (step db) (CleanSafe db) (.new start) calls :=
  eachStep_iff_of_inv (Inv db) (inv_new start) (fun _ _ _ => inv_step)
    fun _ _ hinv => callExact_iff hinv

end Calls

def exampleTable : RawTxTable := fun hash => some (hash.val, "00")

/-- A day after its only use the entry of 7 is kept. -/
theorem clean_keeps_stale : ¬∀ (db : RawTxTable) (start : Int) (calls : List TxInfoCall),
    (calls.map TxInfoCall.now).Pairwise (· ≤ ·) →
      EachStep (step db) (CallExact db) (.new start) calls := by
  intro h
  have heach := h exampleTable 0 [⟨7, 10⟩, ⟨8, 90000⟩] (by decide)
  have hinv : Inv exampleTable ⟨0, [(7, ⟨7, "00", 1, 10⟩)]⟩ := by
    constructor <;> simp [exampleTable]
  have hsafe := (callExact_iff hinv).mp
    (heach [⟨7, 10⟩] ⟨8, 90000⟩ ⟨0, [(7, ⟨7, "00", 1, 10⟩)]⟩ (by simp) (by decide))
  exact absurd hsafe (by decide)

end TxInfoCache

end ExplorerKV.Parser

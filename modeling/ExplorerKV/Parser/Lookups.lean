import ExplorerKV.Parser.CacheTransparency
import ExplorerKV.Parser.UnspentLists

/-!
# Lookups of present keys

For arbitrary scripts and every bound of the cache: a run in dependency order
finds every record it asks for, as long as the destinations it looks up are
distinct and the cache keeps what is not flushed.  A bare multisig that names
one key twice breaks the first condition.
-/

namespace ExplorerKV.Parser

open Bitcoin Foundation

theorem applyRows_presentInv {cfg : Config} (raw : RawTxs) {rows : List TxLog2Row}
    (hcfg : cfg.kMaxCacheCount = none) (hrounds : 2 ≤ cfg.swapRounds)
    (hformat : cfg.FormatsNoOtherHash) (hrows : ObeysDeps raw rows)
    (hdistinct : ∀ row ∈ rows, DistinctLookups cfg raw row) :
    wp (applyRows cfg raw rows) (fun _ s => PresentInv cfg raw (.after rows) s)
      RunFault .initial :=
  wp_forM_along (PresentInv cfg raw) (fun _ _ _ hallowed hinv =>
    applyRow_presentInv hcfg hrounds hformat hallowed.1.1 hallowed.1.2 hallowed.2 hinv)
    (hrows.and_mem hdistinct) presentInv_initial

theorem applyRows_runFault {cfg : Config} (raw : RawTxs) {rows : List TxLog2Row}
    (hrounds : 2 ≤ cfg.swapRounds) (hformat : cfg.FormatsNoOtherHash)
    (hrows : ObeysDeps raw rows) (hkeeps : KeepsUnflushed cfg raw rows)
    (hdistinct : ∀ row ∈ rows, DistinctLookups cfg raw row) {e : Fault}
    (he : runRows cfg raw rows = .error e) : RunFault e := by
  have hunbounded : ∀ row ∈ rows, DistinctLookups cfg.unbounded raw row := fun row hrow =>
    ⟨(hdistinct row hrow).spent, (hdistinct row hrow).own⟩
  have hlockstep := applyRows_lockstep raw hrounds hformat
    (hrows.mono fun _ _ h => h.1) hkeeps
  exact wp_of_error (wp_of_lockstep hlockstep
    (applyRows_presentInv raw rfl hrounds hformat hrows hunbounded)) he

/--
Along every run in dependency order that looks up distinct destinations and
evicts nothing unflushed, no key asked for is absent.  With unconfirms in
reverse order only an amount out of range can end such a run.
-/
theorem lookups_succeed (cfg : Config) (raw : RawTxs) (rows : List TxLog2Row)
    (hrounds : 2 ≤ cfg.swapRounds) (hformat : cfg.FormatsNoOtherHash)
    (hrows : ObeysDeps raw rows) (hkeeps : KeepsUnflushed cfg raw rows)
    (hdistinct : ∀ row ∈ rows, DistinctLookups cfg raw row) :
    (∀ key, runRows cfg raw rows ≠ .error (.notFoundKey key)) ∧
    runRows cfg raw rows ≠ .error .undefinedBehaviour ∧
    (ObeysLifo rows → ∀ e, runRows cfg raw rows = .error e → e = .valueOutOfRange) := by
  have hfault : ∀ e, runRows cfg raw rows = .error e → RunFault e := fun e =>
    applyRows_runFault raw hrounds hformat hrows hkeeps hdistinct
  refine ⟨fun key hkey => ?_, fun hread => ?_, fun hlifo e he => ?_⟩
  · rcases hfault _ hkey with h | h <;> cases h
  · rcases hfault _ hread with h | h <;> cases h
  · rcases hfault e he with h | rfl
    · exact h
    · have hlockstep := applyRows_lockstep raw hrounds hformat
        (hrows.mono fun _ _ h => h.1) hkeeps
      have hinput : InputFault (.assertion .unconfirmAddressTxNode) :=
        wp_of_error (wp_of_lockstep hlockstep
          (applyRows_lifo raw rfl hrounds hformat hlifo)) he
      rcases hinput with h | h | ⟨_, _, _, h⟩ <;> cases h

theorem distinctOutputs_spendRaw (hash : Uint256) :
    DistinctOutputs exampleConfig (spendRaw (payToPubkeyHash (List.replicate 20 65)))
      hash := by
  by_cases h : hash = 9
  · subst h
    decide +kernel
  · have hvout : (spendRaw (payToPubkeyHash (List.replicate 20 65)) hash).tx.vout =
        [⟨50 * COIN, payToPubkeyHash (List.replicate 20 65)⟩] := if_neg h
    rw [DistinctOutputs, hvout]
    decide +kernel

/-- Accept, spend, reject and accept again, of outputs to one address each. -/
theorem lookups_succeed_example :
    (∀ key, runRows exampleConfig (spendRaw (payToPubkeyHash (List.replicate 20 65)))
      spendRows ≠ .error (.notFoundKey key)) ∧
    runRows exampleConfig (spendRaw (payToPubkeyHash (List.replicate 20 65)))
      spendRows ≠ .error .undefinedBehaviour := by
  have h := lookups_succeed exampleConfig
    (spendRaw (payToPubkeyHash (List.replicate 20 65))) spendRows (by decide)
    (fun _ _ _ h => by cases h) (obeysDeps_spendRaw _ (by decide)) (by decide +kernel)
    (fun _ _ => .of_distinct distinctOutputs_spendRaw)
  exact ⟨h.1, h.2.1⟩

theorem exists_of_missingKey {α : Type} {r : Except Fault α}
    (h : (match r with | .error (.notFoundKey _) => true | _ => false) = true) :
    ∃ key, r = .error (.notFoundKey key) := by
  match r with
  | .error (.notFoundKey key) => exact ⟨key, rfl⟩

/--
The coinbase pays a bare multisig that names one key twice: its spender asks
for the `24_` record of the address a second time, after deleting it.
-/
theorem repeatedKey_missing :
    ObeysDeps (spendRaw (repeatedKeyScript (2 :: List.replicate 32 7))) (spendRows.take 3) ∧
    KeepsUnflushed exampleConfig
      (spendRaw (repeatedKeyScript (2 :: List.replicate 32 7))) (spendRows.take 3) ∧
    ∃ key, runRows exampleConfig
      (spendRaw (repeatedKeyScript (2 :: List.replicate 32 7))) (spendRows.take 3) =
        .error (.notFoundKey key) :=
  ⟨obeysDeps_spendRaw _ (by decide), by decide +kernel,
    exists_of_missingKey (by decide +kernel)⟩

end ExplorerKV.Parser

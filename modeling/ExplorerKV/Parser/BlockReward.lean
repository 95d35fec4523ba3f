import ExplorerKV.Parser.BlockOps
import ExplorerKV.Parser.Protocol

/-!
# The reward of a block

`_insertBlock` splits the coinbase's output into the subsidy and the fees, and
asserts that the fees are not negative.  A coinbase may claim less than it is
allowed to, and then less than the subsidy; the import by files has no such
assertion.
-/

namespace ExplorerKV.Bitcoin

theorem getBlockValue_eq (interval height fees : Int) :
    getBlockValue interval height fees = getBlockValue interval height 0 + fees := by
  rw [getBlockValue, getBlockValue]
  split
  · omega
  · omega

end ExplorerKV.Bitcoin

namespace ExplorerKV.Parser

open Bitcoin Foundation

/-- From every state the assertion holds, and the record stored splits `total`. -/
def RewardSafe (cfg : Config) (raw : RawTxs) (blockHash : Uint256) (blk : CBlock)
    (height : Int) (maxBlkTimestamp : Nat) (total : Int) : Prop :=
  ∀ s, wp (insertBlock cfg raw blockHash blk height maxBlkTimestamp)
    (fun _ s' => ∃ record, s'.kv (.blockObject blockHash) = some record ∧
      record.rewardBlock + record.rewardFees = total)
    (fun e => e ≠ .assertion .insertBlock) s

section Reward

variable {cfg : Config} {raw : RawTxs} {blockHash : Uint256} {blk : CBlock} {coinbase : Uint256}
  {rest : List Uint256} {height total : Int} {maxBlkTimestamp : Nat} {s : ParserState}

theorem wp_insertBlock_of {Q : Unit → ParserState → Prop} {E : Fault → Prop}
    (hvtx : blk.vtx = coinbase :: rest) (htotal : (raw coinbase).tx.getValueOut = some total)
    (hfits : getBlockValue cfg.subsidyHalvingInterval height 0 ≤ total →
      ∀ record : Block, record.rewardBlock + record.rewardFees = total →
        wp (do
          kvSet (.blockObject blockHash) record
          kvSet (.blockHeight height) blockHash
          if height > 0 then
            let prevBlock ← kvGet (.blockObject blk.hashPrevBlock)
            kvSet (.blockObject blk.hashPrevBlock)
              { prevBlock with nextBlockHash := blockHash }) Q E s)
    (hlt : total < getBlockValue cfg.subsidyHalvingInterval height 0 →
      E (.assertion .insertBlock)) :
    wp (insertBlock cfg raw blockHash blk height maxBlkTimestamp) Q E s := by
  unfold insertBlock coinbaseOf getValueOut
  rw [hvtx, wp_bind]
  dsimp only
  rw [wp_pure, wp_bind, htotal]
  dsimp only
  rw [wp_pure, wp_bind, wp_assertion]
  constructor
  · intro hge
    apply hfits (by omega)
    dsimp only
    omega
  · intro hneg
    exact hlt (by omega)

theorem rewardSafe_of_subsidy_le (hvtx : blk.vtx = coinbase :: rest)
    (htotal : (raw coinbase).tx.getValueOut = some total)
    (hle : getBlockValue cfg.subsidyHalvingInterval height 0 ≤ total) :
    RewardSafe cfg raw blockHash blk height maxBlkTimestamp total := by
  intro s
  apply wp_insertBlock_of hvtx htotal _ fun hlt => absurd hle (not_le.mpr hlt)
  intro _ record hsum
  simp only [wp_bind, wp_kvSet]
  apply wp_ite
  · intro _
    refine wp_bind.mpr (wp_kvGet_of _ (fun prevBlock hprev => ?_) fun _ h => by cases h)
    rw [wp_kvSet]
    by_cases hself : blk.hashPrevBlock = blockHash
    · -- a block that names itself as its parent
      rw [hself] at hprev ⊢
      rw [ParserState.write_kv_of_ne _ _ (by simp), ParserState.write_kv_self] at hprev
      cases hprev
      exact ⟨_, ParserState.write_kv_self _ _ _, hsum⟩
    · refine ⟨record, ?_, hsum⟩
      rw [ParserState.write_kv_of_ne _ _ (by simpa using Ne.symm hself),
        ParserState.write_kv_of_ne _ _ (by simp), ParserState.write_kv_self]
  · intro _
    refine ⟨record, ?_, hsum⟩
    rw [ParserState.write_kv_of_ne _ _ (by simp), ParserState.write_kv_self]

end Reward

/-- The reward is safe exactly if the coinbase claims at least the subsidy. -/
theorem rewardSafe_iff (cfg : Config) (raw : RawTxs) (blockHash : Uint256) (blk : CBlock)
    (coinbase : Uint256) (rest : List Uint256) (height : Int) (maxBlkTimestamp : Nat)
    (total : Int) (hvtx : blk.vtx = coinbase :: rest)
    (htotal : (raw coinbase).tx.getValueOut = some total) :
    RewardSafe cfg raw blockHash blk height maxBlkTimestamp total ↔
      getBlockValue cfg.subsidyHalvingInterval height 0 ≤ total := by
  constructor
  · intro hsafe
    by_contra hlt
    have hfails : wp (insertBlock cfg raw blockHash blk height maxBlkTimestamp)
        (fun _ _ => False) (fun e => e = .assertion .insertBlock) .initial :=
      wp_insertBlock_of hvtx htotal (fun hle => absurd hle hlt) fun _ => rfl
    obtain ⟨hok, herror⟩ := wp_iff.mp hfails
    obtain ⟨-, hsound⟩ := wp_iff.mp (hsafe .initial)
    cases hrun : insertBlock cfg raw blockHash blk height maxBlkTimestamp .initial with
    | ok r => exact hok r.1 r.2 hrun
    | error e => exact hsound e hrun (herror e hrun)
  · exact rewardSafe_of_subsidy_le hvtx htotal

theorem rewardSafe_of_full_claim (cfg : Config) (raw : RawTxs) (blockHash : Uint256)
    (blk : CBlock) (coinbase : Uint256) (rest : List Uint256) (height : Int)
    (maxBlkTimestamp : Nat) (fees : Int) (hfees : 0 ≤ fees) (hvtx : blk.vtx = coinbase :: rest)
    (htotal : (raw coinbase).tx.getValueOut =
      some (getBlockValue cfg.subsidyHalvingInterval height fees)) :
    RewardSafe cfg raw blockHash blk height maxBlkTimestamp
      (getBlockValue cfg.subsidyHalvingInterval height fees) := by
  apply rewardSafe_of_subsidy_le hvtx htotal
  rw [getBlockValue_eq _ _ fees]
  omega

theorem rewardSafe_iff_example :
    RewardSafe exampleConfig exampleRaw 100 ⟨0, 1231006505, [1]⟩ 0 0 (50 * COIN) :=
  (rewardSafe_iff exampleConfig exampleRaw 100 ⟨0, 1231006505, [1]⟩ 1 [] 0 0 (50 * COIN) rfl
    (by decide)).mpr (by decide)

def underclaimRaw : RawTxs := fun _ =>
  { tx :=
      { nVersion := 1
        vin := [⟨nullOutPoint, 0xffffffff⟩]
        vout := [⟨49 * COIN, payToPubkeyHash (List.replicate 20 65)⟩]
        nLockTime := 0 }
    hexLength := 170 }

theorem reward_unsafe : ¬∀ (cfg : Config) (raw : RawTxs) (blockHash : Uint256) (blk : CBlock)
    (coinbase : Uint256) (rest : List Uint256) (height : Int) (maxBlkTimestamp : Nat)
    (total fees : Int), 0 ≤ height → blk.vtx = coinbase :: rest →
      (raw coinbase).tx.getValueOut = some total →
        total ≤ getBlockValue cfg.subsidyHalvingInterval height fees →
          RewardSafe cfg raw blockHash blk height maxBlkTimestamp total := by
  intro h
  have hsafe := h exampleConfig underclaimRaw 100 ⟨0, 1231006505, [1]⟩ 1 [] 0 0 (49 * COIN) 0
    (le_refl 0) rfl (by decide) (by decide)
  obtain ⟨-, hsound⟩ := wp_iff.mp (hsafe .initial)
  exact hsound (.assertion .insertBlock) rfl rfl

end ExplorerKV.Parser

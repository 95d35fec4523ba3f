import ExplorerKV.Parser.Protocol
import ExplorerKV.Parser.Effects

/-!
# The balance change of a transaction

Every operation on a transaction computes the same map from the addresses it
touches to their balance changes: `txBalance`, a function of the raw
transactions alone.  Accept, confirm, unconfirm and reject read the previous
outputs from transaction objects, which are never deleted and always carry the
outputs of the raw transaction (`Objects`).
-/

namespace ExplorerKV.Parser

open Bitcoin Foundation

namespace BalanceMap

def keys (balance : BalanceMap) : List Address := balance.map Prod.fst

theorem mem_keys_add (address other : Address) (value : Int)
    (balance : BalanceMap) :
    other ∈ (balance.add address value).keys ↔
      other = address ∨ other ∈ balance.keys := by
  induction balance with
  | nil => simp [add, keys]
  | cons entry rest ih =>
      obtain ⟨a, v⟩ := entry
      unfold add
      split
      · simp [keys]
      split
      · rename_i heq
        simp [keys, heq]
      · simp only [keys, List.map_cons, List.mem_cons] at ih ⊢
        rw [ih]
        tauto

theorem sorted_add (address : Address) (value : Int) {balance : BalanceMap}
    (h : balance.keys.Pairwise (· < ·)) :
    (balance.add address value).keys.Pairwise (· < ·) := by
  induction balance with
  | nil => simp [add, keys]
  | cons entry rest ih =>
      obtain ⟨a, v⟩ := entry
      have ⟨hhead, hrest⟩ := List.pairwise_cons.mp h
      unfold add
      split
      · rename_i hlt
        refine List.pairwise_cons.mpr ⟨fun b hb => ?_, h⟩
        rcases List.mem_cons.mp hb with rfl | hb
        · exact hlt
        · exact lt_trans hlt (hhead b hb)
      split
      · exact h
      · rename_i hlt hne
        refine List.pairwise_cons.mpr ⟨fun b hb => ?_, ih hrest⟩
        rcases (mem_keys_add ..).mp hb with rfl | hb
        · exact lt_of_le_of_ne (not_lt.mp hlt) (Ne.symm hne)
        · exact hhead b hb

theorem nodup_of_sorted {balance : BalanceMap}
    (h : balance.keys.Pairwise (· < ·)) : balance.keys.Nodup :=
  h.imp fun hlt => ne_of_lt hlt

private theorem foldl_add (value : Int) (addresses : List Address)
    {balance : BalanceMap} (h : balance.keys.Pairwise (· < ·)) :
    (addresses.foldl (fun balance address => balance.add address value)
        balance).keys.Pairwise (· < ·) ∧
      ∀ other, other ∈ (addresses.foldl (fun balance address =>
          balance.add address value) balance).keys ↔
        other ∈ addresses ∨ other ∈ balance.keys := by
  induction addresses generalizing balance with
  | nil => exact ⟨h, by simp⟩
  | cons address addresses ih =>
      obtain ⟨hsorted, hmem⟩ := ih (sorted_add address value h)
      refine ⟨hsorted, fun other => ?_⟩
      rw [List.foldl_cons, hmem, mem_keys_add, List.mem_cons]
      tauto

private theorem foldl_foldl_add {γ : Type} (addresses : γ → List Address)
    (value : γ → Int) (xs : List γ) {balance : BalanceMap}
    (h : balance.keys.Pairwise (· < ·)) :
    (xs.foldl (fun balance x => (addresses x).foldl (fun balance address =>
        balance.add address (value x)) balance) balance).keys.Pairwise (· < ·) ∧
      ∀ other, other ∈ (xs.foldl (fun balance x =>
          (addresses x).foldl (fun balance address =>
            balance.add address (value x)) balance) balance).keys ↔
        (∃ x ∈ xs, other ∈ addresses x) ∨ other ∈ balance.keys := by
  induction xs generalizing balance with
  | nil => exact ⟨h, by simp⟩
  | cons x xs ih =>
      obtain ⟨hsorted, hmem⟩ := foldl_add (value x) (addresses x) h
      obtain ⟨hsorted', hmem'⟩ := ih hsorted
      refine ⟨hsorted', fun other => ?_⟩
      rw [List.foldl_cons, hmem', hmem, List.exists_mem_cons_iff, or_left_comm,
        or_assoc]

end BalanceMap

section Spend

variable (cfg : Config) {balance : BalanceMap}

theorem spendBalance_sorted (prevTxOutputs : List TxOutput)
    (h : balance.keys.Pairwise (· < ·)) :
    (spendBalance prevTxOutputs balance).keys.Pairwise (· < ·) :=
  (BalanceMap.foldl_foldl_add TxOutput.addresses
    (fun output => output.value * -1) prevTxOutputs h).1

theorem mem_keys_spendBalance (prevTxOutputs : List TxOutput)
    (h : balance.keys.Pairwise (· < ·)) (address : Address) :
    address ∈ (spendBalance prevTxOutputs balance).keys ↔
      (∃ output ∈ prevTxOutputs, address ∈ output.addresses) ∨
        address ∈ balance.keys :=
  (BalanceMap.foldl_foldl_add TxOutput.addresses
    (fun output => output.value * -1) prevTxOutputs h).2
    address

theorem receiveBalance_sorted (tx : CTransaction)
    (h : balance.keys.Pairwise (· < ·)) :
    (receiveBalance cfg tx balance).keys.Pairwise (· < ·) :=
  (BalanceMap.foldl_foldl_add (outputAddresses cfg) CTxOut.nValue tx.vout h).1

theorem mem_keys_receiveBalance (tx : CTransaction)
    (h : balance.keys.Pairwise (· < ·)) (address : Address) :
    address ∈ (receiveBalance cfg tx balance).keys ↔
      (∃ out ∈ tx.vout, address ∈ outputAddresses cfg out) ∨
        address ∈ balance.keys :=
  (BalanceMap.foldl_foldl_add (outputAddresses cfg) CTxOut.nValue tx.vout h).2
    address

end Spend

/-! ## The balance change, from the raw transactions -/

section Spec

variable (cfg : Config) (raw : RawTxs)

def prevOutput (out : COutPoint) : Option TxOutput :=
  (txObjectOutputs cfg (raw out.hash).tx)[out.n.toNat]?

/-- What `getPrevTxOutputs` reads. -/
def prevOutputs (tx : CTransaction) : List TxOutput :=
  tx.prevouts.filterMap (prevOutput cfg raw)

def txBalance (hash : Uint256) : BalanceMap :=
  receiveBalance cfg (raw hash).tx
    (spendBalance (prevOutputs cfg raw (raw hash).tx) [])

/-- The transaction changes the balance record of the address. -/
def Touches (hash : Uint256) (address : Address) : Prop :=
  address ∈ (txBalance cfg raw hash).keys

instance (hash : Uint256) : DecidablePred (Touches cfg raw hash) := fun _ =>
  inferInstanceAs (Decidable (_ ∈ _))

theorem txBalance_sorted (hash : Uint256) :
    (txBalance cfg raw hash).keys.Pairwise (· < ·) :=
  receiveBalance_sorted _ _ (spendBalance_sorted _ List.Pairwise.nil)

theorem txBalance_nodup (hash : Uint256) :
    ((txBalance cfg raw hash).map Prod.fst).Nodup :=
  BalanceMap.nodup_of_sorted (txBalance_sorted cfg raw hash)

theorem touches_iff (hash : Uint256) (address : Address) :
    Touches cfg raw hash address ↔
      (∃ out ∈ (raw hash).tx.vout, address ∈ outputAddresses cfg out) ∨
        ∃ output ∈ prevOutputs cfg raw (raw hash).tx,
          address ∈ output.addresses := by
  have hnil : (BalanceMap.keys []).Pairwise (· < ·) := List.Pairwise.nil
  rw [Touches, txBalance,
    mem_keys_receiveBalance _ _ (spendBalance_sorted _ hnil),
    mem_keys_spendBalance _ hnil]
  simp [BalanceMap.keys]

end Spec

/-! ## Reading the previous outputs -/

/-- The transaction objects carry the outputs of the raw transactions. -/
structure Objects (cfg : Config) (raw : RawTxs) (kv : KVDB) : Prop where
  outputs : ∀ hash (txObject : Tx), kv (.txObject hash) = some txObject →
    txObject.outputs = txObjectOutputs cfg (raw hash).tx

/-- The previous output can be read. -/
def PrevReadable (cfg : Config) (raw : RawTxs) (kv : KVDB) (out : COutPoint) :
    Prop :=
  (kv (.txObject out.hash)).isSome ∧ (prevOutput cfg raw out).isSome

section Read

variable {cfg : Config} {raw : RawTxs} {s : ParserState} {tx : CTransaction}

theorem filterMap_of_forall₂ {α β : Type} {f : α → Option β} {xs : List α}
    {ys : List β} (h : List.Forall₂ (fun x y => f x = some y) xs ys) :
    xs.filterMap f = ys := by
  induction h with
  | nil => rfl
  | cons hxy _ ih => rw [List.filterMap_cons_some hxy, ih]

theorem exists_of_forall₂ {α β : Type} {R : α → β → Prop} {xs : List α}
    {ys : List β} (h : List.Forall₂ R xs ys) {x : α} (hx : x ∈ xs) :
    ∃ y, R x y := by
  induction h with
  | nil => cases hx
  | @cons _ y _ _ hxy _ ih =>
      rcases List.mem_cons.mp hx with rfl | hx
      · exact ⟨y, hxy⟩
      · exact ih hx

theorem getPrevTxOutputs_spec (hobj : Objects cfg raw s.kv) :
    wp (getPrevTxOutputs tx) (fun prevTxOutputs s' => s' = s ∧
        prevTxOutputs = prevOutputs cfg raw tx ∧
        (∀ out ∈ tx.prevouts, PrevReadable cfg raw s.kv out))
      (fun e => e = .undefinedBehaviour ∧
        ∃ out ∈ tx.prevouts, ¬PrevReadable cfg raw s.kv out) s := by
  unfold getPrevTxOutputs
  split
  · rename_i hcb
    simp [prevOutputs, CTransaction.prevouts_of_isCoinBase hcb]
  rename_i hcb
  have hprevouts := CTransaction.prevouts_of_not_isCoinBase hcb
  refine wp_mono (wp_mapM_read (R := fun input output =>
    PrevReadable cfg raw s.kv input.prevout ∧ prevOutput cfg raw input.prevout = some output)
    fun input hinput => ?_) ?_ fun _ he => he
  · have hmem : input.prevout ∈ tx.prevouts := by
      rw [hprevouts]
      exact List.mem_map_of_mem hinput
    rw [wp_bind]
    refine wp_kvGetUnchecked_of _ (fun prevTx hprev => ?_) (fun hnone => ?_)
    · have houtputs := hobj.outputs _ _ hprev
      cases houtput : prevTx.outputs[input.prevout.n.toNat]? with
      | some output =>
          have hspec : prevOutput cfg raw input.prevout = some output := by
            rw [prevOutput, ← houtputs, houtput]
          exact ⟨rfl, ⟨by simp [hprev], by simp [hspec]⟩, hspec⟩
      | none =>
          refine ⟨rfl, _, hmem, fun hreadable => ?_⟩
          have hspec := hreadable.2
          rw [prevOutput, ← houtputs, houtput] at hspec
          simp at hspec
    · exact ⟨rfl, _, hmem, fun hreadable => by simpa [hnone] using hreadable.1⟩
  · rintro outputs s' ⟨rfl, hall⟩
    refine ⟨rfl, ?_, ?_⟩
    · have hspec := hall.imp fun _ _ h => h.2
      rw [prevOutputs, hprevouts, List.filterMap_map]
      exact (filterMap_of_forall₂ hspec).symm
    · rw [hprevouts]
      intro out hout
      obtain ⟨input, hinput, rfl⟩ := List.mem_map.mp hout
      obtain ⟨output, h, -⟩ := exists_of_forall₂ hall hinput
      exact h

end Read

end ExplorerKV.Parser

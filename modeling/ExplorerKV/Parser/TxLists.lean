import ExplorerKV.Parser.AddressTxs

/-!
# The transaction lists of all addresses

`Lists` describes an address's list by hashes: which transactions are
confirmed, in order, which are pending, and what balance change each carries.
A phase of an operation loops over the addresses of the transaction's balance
map; each address's list sees exactly one round.
-/

namespace ExplorerKV.Parser

open Bitcoin Foundation

/--
The view holds a list of the given confirmed transactions, in this order, and
of the given pending ones; `diff` relates a transaction to its balance change.
-/
def TxView.Lists (v : TxView) (confirmed : List Uint256)
    (pending : Uint256 → Prop) (diff : Uint256 → Int → Prop) : Prop :=
  ∃ z : TxZones, v.Holds z ∧ z.confirmed.map AddressTx.txHash = confirmed ∧
    (∀ hash, (∃ entry ∈ z.pending, entry.txHash = hash) ↔ pending hash) ∧
    ∀ entry ∈ z.list, diff entry.txHash entry.balanceDiff

namespace TxView

variable {v : TxView} {confirmed confirmed' : List Uint256}
  {pending pending' : Uint256 → Prop} {diff : Uint256 → Int → Prop}

theorem Lists.congr (h : v.Lists confirmed pending diff)
    (hconfirmed : confirmed = confirmed')
    (hpending : ∀ hash, pending hash ↔ pending' hash) :
    v.Lists confirmed' pending' diff := by
  subst hconfirmed
  obtain ⟨z, hz, hc, hp, hd⟩ := h
  exact ⟨z, hz, hc, fun hash => (hp hash).trans (hpending hash), hd⟩

theorem Lists.nodup (h : v.Lists confirmed pending diff) : confirmed.Nodup := by
  obtain ⟨z, hz, rfl, -, -⟩ := h
  have hnodup := hz.stored.nodup
  rw [TxZones.list, List.map_append] at hnodup
  exact (List.nodup_append.mp hnodup).1

end TxView

private theorem mem_hashes_of_perm {node : Int → Option AddressTx}
    {index : Uint256 → Option Int} {z : TxZones} {entry : AddressTx}
    {pending' : List AddressTx}
    (hstored : Stored AddressTx.txHash node index z.list)
    (hperm : z.pending.Perm (entry :: pending')) (hash : Uint256) :
    (∃ e ∈ pending', e.txHash = hash) ↔
      (∃ e ∈ z.pending, e.txHash = hash) ∧ hash ≠ entry.txHash := by
  have hnodup : (z.pending.map AddressTx.txHash).Nodup := by
    have h := hstored.nodup
    rw [TxZones.list, List.map_append] at h
    exact (List.nodup_append.mp h).2.1
  have hnodup' := ((hperm.map AddressTx.txHash).nodup_iff.mp hnodup)
  rw [List.map_cons, List.nodup_cons] at hnodup'
  constructor
  · rintro ⟨e, he, rfl⟩
    exact ⟨⟨e, hperm.mem_iff.mpr (.tail _ he), rfl⟩, fun heq =>
      hnodup'.1 (heq ▸ List.mem_map_of_mem he)⟩
  · rintro ⟨⟨e, he, rfl⟩, hne⟩
    rcases List.mem_cons.mp (hperm.mem_iff.mp he) with rfl | hold
    · exact absurd rfl hne
    · exact ⟨e, hold, rfl⟩

section Specs

variable {cfg : Config} {E : Fault → Prop} {s : ParserState}
  {address : Address} {txLog2 : TxLog2} {confirmed : List Uint256}
  {pending : Uint256 → Prop} {diff : Uint256 → Int → Prop}

theorem insertAddressTx_lists (hcfg : cfg.kMaxCacheCount = none)
    (hv : (s.txView address).Lists confirmed pending diff)
    (hconfirmed : txLog2.txHash ∉ confirmed) (hpending : ¬pending txLog2.txHash)
    {balanceDiff : Int} (hdiff : diff txLog2.txHash balanceDiff) :
    wp (insertAddressTx cfg txLog2 address balanceDiff) (fun _ s' =>
      (s'.txView address).Lists confirmed
        (fun hash => pending hash ∨ hash = txLog2.txHash) diff ∧
      AddrTxEffects address s s') E s := by
  obtain ⟨z, hz, rfl, hp, hd⟩ := hv
  have hfresh : txLog2.txHash ∉ z.list.map AddressTx.txHash := by
    rw [TxZones.list, List.map_append, List.mem_append, not_or]
    refine ⟨hconfirmed, fun hmem => hpending ((hp _).mp ?_)⟩
    simpa using hmem
  refine wp_mono (insertAddressTx_spec hcfg hz hfresh balanceDiff) ?_ fun _ he => he
  rintro _ s' ⟨hz', heffects⟩
  refine ⟨⟨_, hz', rfl, fun hash => ?_, fun entry hentry => ?_⟩, heffects⟩
  · beta_reduce
    rw [← hp]
    simp only [List.mem_append, List.mem_singleton, or_and_right, exists_or,
      exists_eq_left, eq_comm]
  · have hcase : entry ∈ z.list ∨ entry =
        ⟨balanceDiff, txLog2.txHash, -1, txLog2.maxBlkTimestamp⟩ := by
      simpa [TxZones.list, or_assoc] using hentry
    rcases hcase with hold | rfl
    · exact hd entry hold
    · exact hdiff

theorem confirmAddress_lists (hcfg : cfg.kMaxCacheCount = none)
    (hrounds : 2 ≤ cfg.swapRounds) (hheight : 0 ≤ txLog2.blkHeight)
    (hv : (s.txView address).Lists confirmed pending diff)
    (hpending : pending txLog2.txHash) :
    wp (confirmAddress cfg txLog2 address) (fun _ s' =>
      (s'.txView address).Lists (confirmed ++ [txLog2.txHash])
        (fun hash => pending hash ∧ hash ≠ txLog2.txHash) diff ∧
      AddrTxEffects address s s') E s := by
  obtain ⟨z, hz, rfl, hp, hd⟩ := hv
  obtain ⟨entry, hentry, hhash⟩ := (hp _).mpr hpending
  refine wp_mono (confirmAddress_spec hcfg hrounds hheight hz hentry hhash) ?_
    fun _ he => he
  rintro _ s' ⟨⟨pending', hperm, hz'⟩, heffects⟩
  refine ⟨⟨_, hz', by simp [hhash], fun hash => ?_, fun e he => ?_⟩, heffects⟩
  · beta_reduce
    rw [← hp, ← hhash]
    exact mem_hashes_of_perm hz.stored hperm hash
  · have hcase : e ∈ z.confirmed ∨ e = { entry with
        txBlockTime := txLog2.maxBlkTimestamp
        txHeight := txLog2.blkHeight } ∨ e ∈ pending' := by
      simpa [TxZones.list, or_assoc] using he
    rcases hcase with hold | rfl | hold
    · exact hd e (List.mem_append_left _ hold)
    · exact hd entry (List.mem_append_right _ hentry)
    · exact hd e (List.mem_append_right _ (hperm.mem_iff.mpr (.tail _ hold)))

theorem unconfirmAddress_lists (hcfg : cfg.kMaxCacheCount = none)
    (hv : (s.txView address).Lists confirmed pending diff)
    (hconfirmed : txLog2.txHash ∈ confirmed)
    (hE : (∀ rest, confirmed ≠ rest ++ [txLog2.txHash]) →
      E (.assertion .unconfirmAddressTxNode)) :
    wp (unconfirmAddress cfg txLog2 address) (fun _ s' =>
      (∃ rest, confirmed = rest ++ [txLog2.txHash] ∧
        (s'.txView address).Lists rest
          (fun hash => pending hash ∨ hash = txLog2.txHash) diff) ∧
      AddrTxEffects address s s') E s := by
  have hnodup := hv.nodup
  obtain ⟨z, hz, rfl, hp, hd⟩ := hv
  obtain ⟨entry, hentry, hhash⟩ := List.mem_map.mp hconfirmed
  refine wp_mono (unconfirmAddress_spec hcfg hz hentry hhash
    fun hlast => hE fun rest heq => ?_) ?_ fun _ he => he
  · -- the last entry has the transaction's hash, so it is the entry found
    obtain ⟨before, last, hsplit, hbefore, hlast'⟩ := List.map_eq_append_iff.mp heq
    obtain ⟨e, rfl⟩ : ∃ e, last = [e] :=
      List.length_eq_one_iff.mp (by simpa using congrArg List.length hlast')
    have he : e.txHash = entry.txHash := by simpa [hhash] using hlast'
    have heq' : e = entry := List.inj_on_of_nodup_map hnodup
      (by rw [hsplit]; simp) hentry he
    exact hlast before (heq' ▸ hsplit)
  · rintro _ s' ⟨⟨rest, hsplit, hz'⟩, heffects⟩
    refine ⟨⟨rest.map AddressTx.txHash, by simp [hsplit, hhash], _, hz', rfl,
      fun hash => ?_, fun e he => ?_⟩, heffects⟩
    · beta_reduce
      rw [← hp, ← hhash]
      simp only [List.mem_cons, or_and_right, exists_or, exists_eq_left]
      rw [or_comm, eq_comm]
    · have hcase : e ∈ rest ∨
          e = { entry with txBlockTime := 0, txHeight := -1 } ∨ e ∈ z.pending := by
        simpa [TxZones.list] using he
      rcases hcase with hold | rfl | hold
      · exact hd e (List.mem_append_left _ (by simp [hsplit, hold]))
      · exact hd entry (List.mem_append_left _ hentry)
      · exact hd e (List.mem_append_right _ hold)

theorem rejectAddress_lists (hcfg : cfg.kMaxCacheCount = none)
    (hrounds : 2 ≤ cfg.swapRounds)
    (hformat : ∀ hash, cfg.formatObject txLog2 address = .hex hash →
      hash = txLog2.txHash)
    (hv : (s.txView address).Lists confirmed pending diff)
    (hpending : pending txLog2.txHash) :
    wp (rejectAddress cfg txLog2 address) (fun _ s' =>
      (s'.txView address).Lists confirmed
        (fun hash => pending hash ∧ hash ≠ txLog2.txHash) diff ∧
      AddrTxEffects address s s') E s := by
  obtain ⟨z, hz, rfl, hp, hd⟩ := hv
  obtain ⟨entry, hentry, hhash⟩ := (hp _).mpr hpending
  refine wp_mono (rejectAddress_spec hcfg hrounds hformat hz hentry hhash) ?_
    fun _ he => he
  rintro _ s' ⟨⟨pending', hperm, hz'⟩, heffects⟩
  refine ⟨⟨_, hz', rfl, fun hash => ?_, fun e he => ?_⟩, heffects⟩
  · beta_reduce
    rw [← hp, ← hhash]
    exact mem_hashes_of_perm hz.stored hperm hash
  · rcases List.mem_append.mp he with hold | hold
    · exact hd e (List.mem_append_left _ hold)
    · exact hd e (List.mem_append_right _ (hperm.mem_iff.mpr (.tail _ hold)))

theorem forM_addresses {balance : BalanceMap} (hnodup : (balance.map Prod.fst).Nodup)
    (Pre Post : Address → Int → TxView → Prop) {f : Address × Int → ParserM Unit}
    (hbody : ∀ a d s, (a, d) ∈ balance → Pre a d (s.txView a) →
      wp (f (a, d)) (fun _ s' => Post a d (s'.txView a) ∧ AddrTxEffects a s s') E s)
    (hpre : ∀ a d, (a, d) ∈ balance → Pre a d (s.txView a)) :
    wp (forM balance f) (fun _ s' =>
      (∀ a d, (a, d) ∈ balance → Post a d (s'.txView a)) ∧
      (∀ a, a ∉ balance.keys → s'.txView a = s.txView a) ∧
      Effects Key.OfAddrTx (TxChange (· ∈ balance.keys)) s s') E s := by
  refine wp_forM_slices hnodup ParserState.txView (fun a d _ v' => Post a d v')
    Effects.refl (fun _ _ _ => Effects.trans) (fun a d s hmem h => ?_) hpre
  refine wp_mono (hbody a d s hmem h) ?_ fun _ he => he
  rintro _ s' ⟨hpost, heffects⟩
  refine ⟨hpost, fun _ => txView_of_addrTxEffects heffects, heffects.mono ?_ ?_⟩
  · intro key hkey
    cases key <;> trivial
  · rintro a' info info' ⟨rfl, hinfo⟩
    exact ⟨List.mem_map_of_mem hmem, hinfo⟩

end Specs

end ExplorerKV.Parser

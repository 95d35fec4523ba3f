import ExplorerKV.Parser.Unspent

/-!
# The unspent invariant, one operation at a time

`UtxoInv` for scripts whose destinations are distinct, `Present` for all.  In
both cases accept inserts the entries of the new transaction before it removes
those it spends, and reject puts the spent entries back before it removes the
transaction's own.
-/

namespace ExplorerKV.Parser

open Bitcoin Foundation

section Invariant

variable (cfg : Config) (raw : RawTxs)

/-- Every output of the transaction lists an address at most once. -/
def DistinctOutputs (hash : Uint256) : Prop :=
  ∀ out ∈ (raw hash).tx.vout, (outputAddresses cfg out).Nodup

instance (hash : Uint256) : Decidable (DistinctOutputs cfg raw hash) :=
  inferInstanceAs (Decidable (∀ out ∈ _, _))

def Unspent (p : Ledger) (address : Address) (entry : AddressUnspent) : Prop :=
  p.Live entry.txHash ∧ ¬p.SpentAt raw (entryKey entry) ∧
    (address, entry) ∈ ownEntries cfg entry.txHash (raw entry.txHash).tx.vout

def paidOutputs (hash : Uint256) (address : Address) : Nat :=
  ((ownKeys cfg hash (raw hash).tx.vout).map Prod.fst).count address

/-- What `unspentTxCount_` has missed: the removals of all rejects. -/
def missedRemovals (p : Ledger) (address : Address) : Int :=
  (p.rejected.map fun hash => (paidOutputs cfg raw hash address : Int)).sum

structure UtxoInv (p : Ledger) (u : UtxoView) : Prop where
  tables : u.Exact (Unspent cfg raw p) (missedRemovals cfg raw p)
  spend : ∀ hash position x, u.spend hash position = some x ↔ p.Live x.txHash ∧
    ∃ out, (out, x.position) ∈ (raw x.txHash).tx.prevouts.zipIdx ∧
      outKey out = (hash, position)

end Invariant

variable {cfg : Config} {raw : RawTxs} {p : Ledger} {row : TxLog2Row} {u : UtxoView}

theorem mem_ownKeys_of_mem {a : Address} {c : AddressUnspent} {hash : Uint256}
    {vout : List CTxOut} (h : (a, c) ∈ ownEntries cfg hash vout) :
    (a, entryKey c) ∈ ownKeys cfg hash vout := by
  rw [← keysOf_ownEntries]
  exact List.mem_map.mpr ⟨(a, c), h, rfl⟩

theorem Ledger.Linked.range (hp : p.Linked raw) {hash : Uint256} (hlive : p.Live hash) :
    ∀ out ∈ (raw hash).tx.prevouts, out.n.toNat < (raw out.hash).tx.vout.length :=
  fun out hout => (hp.prevout hash hlive out hout).2

theorem nodup_spentKeys_spentOutputs (cfg : Config) {tx : CTransaction}
    (hnodup : tx.prevouts.Nodup)
    (hrange : ∀ out ∈ tx.prevouts, out.n.toNat < (raw out.hash).tx.vout.length)
    (hdistinct : ∀ out ∈ tx.prevouts, ∀ output, prevOutput cfg raw out = some output →
      output.addresses.Nodup) :
    (spentKeys (spentOutputs cfg raw tx)).Nodup := by
  obtain ⟨hmap, hsome⟩ := spentOutputs_eq cfg hrange
  refine nodup_spentKeys (hmap ▸ hnodup) fun x hx => ?_
  exact hdistinct x.1 (hmap ▸ List.mem_map_of_mem hx) x.2 (hsome x hx)

theorem DistinctOutputs.prevOutput {out : COutPoint} {output : TxOutput}
    (h : DistinctOutputs cfg raw out.hash)
    (houtput : prevOutput cfg raw out = some output) : output.addresses.Nodup := by
  rw [prevOutput_eq] at houtput
  obtain ⟨o, ho, rfl⟩ := Option.map_eq_some_iff.mp houtput
  exact h o (List.mem_of_getElem? ho)

/-! ## Unspent outputs after an accept and after a reject -/

section Next

variable (hp : p.Linked raw) (hallowed : p.TxAllowed row) {a : Address}
  {c : AddressUnspent}

include hp hallowed

theorem unspent_next_accept (hdeps : p.Deps raw row) (htype : row.type = .txAccept) :
    Unspent cfg raw (p.next row) a c ↔
      (Unspent cfg raw p a c ∨ (a, c) ∈ ownEntries cfg row.txHash (raw row.txHash).tx.vout) ∧
        (a, entryKey c) ∉ spentKeys (spentOutputs cfg raw (raw row.txHash).tx) := by
  have hnew := Ledger.not_live_of_accept hallowed htype
  have hprevout := hdeps.accept_prevout htype
  rw [mem_spentKeys_spentOutputs fun out hout => (hprevout out hout).2.1, Unspent,
    Ledger.next_live_accept htype, Ledger.spentAt_next_accept htype]
  constructor
  · rintro ⟨hc, hnot, hown⟩
    obtain ⟨hnot, hnew'⟩ := not_or.mp hnot
    refine ⟨?_, fun hkeys => hnew' hkeys.1⟩
    rcases hc with heq | hc
    · exact .inr (heq ▸ hown)
    · exact .inl ⟨hc, hnot, hown⟩
  · rintro ⟨⟨hc, hnot, hown⟩ | hown, hkeys⟩
    · refine ⟨.inr hc, ?_, hown⟩
      rintro (hs | hs)
      · exact hnot hs
      · exact hkeys ⟨hs, mem_ownKeys_of_mem hown⟩
    · -- nothing live names an output of the new transaction
      have hhash : c.txHash = row.txHash := (mem_ownEntries.mp hown).1
      refine ⟨.inl hhash, ?_, hhash ▸ hown⟩
      rintro (⟨h, hh, out, hout, hkey⟩ | ⟨out, hout, hkey⟩)
      · have hlive := (hp.prevout h hh out hout).1
        rw [(Prod.mk.inj hkey).1, hhash] at hlive
        exact hnew hlive
      · have hlive := (hprevout out hout).1
        rw [(Prod.mk.inj hkey).1, hhash] at hlive
        exact hnew hlive

theorem unspent_next_reject (htype : row.type = .txReject) :
    Unspent cfg raw (p.next row) a c ↔
      (Unspent cfg raw p a c ∨
          (a, c) ∈ spentEntries (spentOutputs cfg raw (raw row.txHash).tx)) ∧
        (a, entryKey c) ∉ ownKeys cfg row.txHash (raw row.txHash).tx.vout := by
  have hlive := Ledger.live_of_reject hallowed htype
  rw [mem_spentEntries_spentOutputs (hp.range hlive), Unspent,
    Ledger.next_live_reject htype, Ledger.spentAt_next_reject hp hallowed htype]
  constructor
  · rintro ⟨⟨hne, hc⟩, hnot, hown⟩
    refine ⟨?_, fun hkeys => hne (mem_ownKeys.mp hkeys).1⟩
    by_cases hback : ∃ out ∈ (raw row.txHash).tx.prevouts, outKey out = entryKey c
    · exact .inr ⟨hback, hown⟩
    · exact .inl ⟨hc, fun hs => hnot ⟨hs, hback⟩, hown⟩
  · have hne : (a, c) ∈ ownEntries cfg c.txHash (raw c.txHash).tx.vout →
        (a, entryKey c) ∉ ownKeys cfg row.txHash (raw row.txHash).tx.vout →
        c.txHash ≠ row.txHash :=
      fun hown hkeys heq => hkeys (heq ▸ mem_ownKeys_of_mem hown)
    rintro ⟨⟨hc, hnot, hown⟩ | ⟨⟨out, hout, hkey⟩, hown⟩, hkeys⟩
    · exact ⟨⟨hne hown hkeys, hc⟩, fun hs => hnot hs.1, hown⟩
    · have hc := (hp.prevout _ hlive out hout).1
      rw [(Prod.mk.inj hkey).1] at hc
      exact ⟨⟨hne hown hkeys, hc⟩, fun hs => hs.2 ⟨out, hout, hkey⟩, hown⟩

end Next

theorem not_spentAt_own (hdeps : p.Deps raw row) (htype : row.type = .txReject)
    {k : Uint256 × Nat} (hk : k.1 = row.txHash) : ¬p.SpentAt raw k := by
  rintro ⟨h, hh, out, hout, rfl⟩
  exact hdeps.reject_unspent htype out hk h hh hout

theorem not_spentAt_prevout (hdeps : p.Deps raw row) (htype : row.type = .txAccept)
    {out : COutPoint} (hout : out ∈ (raw row.txHash).tx.prevouts) :
    ¬p.SpentAt raw (outKey out) := by
  rintro ⟨h, hh, out', hout', heq⟩
  exact (hdeps.accept_prevout htype out hout).2.2 h hh (outKey_injective heq ▸ hout')

/-! ## Distinct destinations -/

namespace UtxoInv

theorem accept (hinv : UtxoInv cfg raw p u) (hp : p.Linked raw)
    (hallowed : p.TxAllowed row) (hdeps : p.Deps raw row) (htype : row.type = .txAccept)
    (hdistinct : ∀ hash, (p.next row).Live hash → DistinctOutputs cfg raw hash) :
    ∃ v, acceptView cfg raw u row.txHash = some v ∧
      UtxoInv cfg raw (p.next row) v ∧ u.Grows v := by
  have hlive : ∀ hash, (p.next row).Live hash ↔ hash = row.txHash ∨ p.Live hash :=
    Ledger.next_live_accept htype
  have hprevout := hdeps.accept_prevout htype
  have hrange : ∀ out ∈ (raw row.txHash).tx.prevouts,
      out.n.toNat < (raw out.hash).tx.vout.length := fun out hout => (hprevout out hout).2.1
  have hownNodup : (keysOf (ownEntries cfg row.txHash (raw row.txHash).tx.vout)).Nodup := by
    rw [keysOf_ownEntries]
    exact nodup_ownKeys (hdistinct _ ((hlive _).mpr (.inl rfl)))
  have hfresh : ∀ x ∈ ownEntries cfg row.txHash (raw row.txHash).tx.vout,
      ∀ c, Unspent cfg raw p x.1 c → entryKey c ≠ entryKey x.2 := by
    rintro ⟨a, e⟩ he c hc hkey
    have hhash := (mem_ownEntries.mp he).1
    rw [← (Prod.mk.inj hkey).1] at hhash
    exact Ledger.not_live_of_accept hallowed htype (hhash ▸ hc.1)
  have hspentNodup := nodup_spentKeys_spentOutputs cfg (hdeps.accept_nodup htype)
    hrange fun out hout output =>
      (hdistinct out.hash ((hlive _).mpr (.inr (hprevout out hout).1))).prevOutput
  have hpresent : ∀ k ∈ spentKeys (spentOutputs cfg raw (raw row.txHash).tx),
      ∃ b, (Unspent cfg raw p k.1 b ∨
        (k.1, b) ∈ ownEntries cfg row.txHash (raw row.txHash).tx.vout) ∧
        entryKey b = k.2 := by
    rintro ⟨a, k⟩ hk
    obtain ⟨⟨out, hout, rfl⟩, hown⟩ := (mem_spentKeys_spentOutputs hrange).mp hk
    rw [← keysOf_ownEntries] at hown
    obtain ⟨e, he, hkey⟩ := exists_entry_of_mem_keysOf hown
    have hhash : e.txHash = out.hash := (Prod.mk.inj hkey).1
    have hspent := not_spentAt_prevout hdeps htype hout
    exact ⟨e, .inl ⟨hhash ▸ (hprevout out hout).1, hkey ▸ hspent, hhash ▸ he⟩, hkey⟩
  obtain ⟨hinserted, hgrows⟩ := hinv.tables.insertAll hownNodup hfresh
  obtain ⟨v, hv, hremoved, hgrows', hspend⟩ := hinserted.removeAll 1 hspentNodup hpresent
  refine ⟨v.spendAll row.txHash (raw row.txHash).tx.prevouts, ?_, ⟨fun a => ?_, ?_⟩,
    fun a => ?_⟩
  · rw [acceptView, hv, Option.map_some]
  · rw [UtxoView.spendAll_table]
    refine ((hremoved a).congr fun c =>
      (unspent_next_accept hp hallowed hdeps htype).symm).of_drift ?_
    simp [missedRemovals, Ledger.next, htype]
  · intro h n x
    rw [UtxoView.spendAll_spend (hdeps.accept_nodup htype), hspend,
      UtxoView.insertAll_spend, hinv.spend, hlive]
    constructor
    · rintro (⟨hx, out, hout⟩ | ⟨-, hx, hout⟩)
      · exact ⟨.inl hx, out, hx ▸ hout⟩
      · exact ⟨.inr hx, hout⟩
    · rintro ⟨hx | hx, out, hout, hkey⟩
      · exact .inl ⟨hx, out, hx ▸ hout, hkey⟩
      · refine .inr ⟨fun out' hout' heq => ?_, hx, out, hout, hkey⟩
        exact not_spentAt_prevout hdeps htype hout'
          ⟨x.txHash, hx, out, List.fst_mem_of_mem_zipIdx hout, hkey.trans heq.symm⟩
  · rw [UtxoView.spendAll_table]
    exact (hgrows.trans hgrows') a

theorem reject (hinv : UtxoInv cfg raw p u) (hp : p.Linked raw)
    (hallowed : p.TxAllowed row) (hdeps : p.Deps raw row) (htype : row.type = .txReject)
    (hdistinct : ∀ hash, p.Live hash → DistinctOutputs cfg raw hash) :
    ∃ v, rejectView cfg raw u row.txHash = some v ∧
      UtxoInv cfg raw (p.next row) v ∧ u.Grows v := by
  have hlive := Ledger.live_of_reject hallowed htype
  have hrange := hp.range hlive
  have hspentNodup :
      (keysOf (spentEntries (spentOutputs cfg raw (raw row.txHash).tx))).Nodup := by
    rw [keysOf_spentEntries]
    exact nodup_spentKeys_spentOutputs cfg (hp.nodup _ hlive) hrange fun out hout output =>
      (hdistinct out.hash (hp.prevout _ hlive out hout).1).prevOutput
  have hfresh : ∀ x ∈ spentEntries (spentOutputs cfg raw (raw row.txHash).tx),
      ∀ c, Unspent cfg raw p x.1 c → entryKey c ≠ entryKey x.2 := by
    rintro ⟨a, e⟩ he c hc hkey
    obtain ⟨⟨out, hout, heq⟩, -⟩ := (mem_spentEntries_spentOutputs hrange).mp he
    exact hc.2.1 ⟨row.txHash, hlive, out, hout, heq.trans hkey.symm⟩
  have hpresent : ∀ k ∈ ownKeys cfg row.txHash (raw row.txHash).tx.vout,
      ∃ b, (Unspent cfg raw p k.1 b ∨
        (k.1, b) ∈ spentEntries (spentOutputs cfg raw (raw row.txHash).tx)) ∧
        entryKey b = k.2 := by
    rintro ⟨a, k⟩ hk
    have hk1 := (mem_ownKeys.mp hk).1
    rw [← keysOf_ownEntries] at hk
    obtain ⟨e, he, hkey⟩ := exists_entry_of_mem_keysOf hk
    have hhash : e.txHash = row.txHash := (mem_ownEntries.mp he).1
    have hspent := not_spentAt_own hdeps htype hk1
    exact ⟨e, .inl ⟨hhash ▸ hlive, hkey ▸ hspent, hhash ▸ he⟩, hkey⟩
  obtain ⟨hinserted, hgrows⟩ := hinv.tables.insertAll hspentNodup hfresh
  have hcleared : (u.unspendAll (spentOutputs cfg raw (raw row.txHash).tx)).Exact _ _ :=
    fun a => by
      rw [UtxoView.unspendAll_eq, UtxoView.clearSpend_table]
      exact hinserted a
  obtain ⟨v, hv, hremoved, hgrows', hspend⟩ := hcleared.removeAll 0
    (nodup_ownKeys (hdistinct _ hlive)) hpresent
  refine ⟨v, hv, ⟨fun a => ?_, fun h n x => ?_⟩, fun a => ?_⟩
  · refine ((hremoved a).congr fun c =>
      (unspent_next_reject hp hallowed htype).symm).of_drift ?_
    simp [missedRemovals, Ledger.next, htype, paidOutputs, add_comm]
  · rw [hspend, UtxoView.unspendAll_eq, UtxoView.clearSpend_spend,
      UtxoView.insertAll_spend, hinv.spend, (spentOutputs_eq cfg hrange).1,
      Ledger.next_live_reject htype]
    constructor
    · rintro ⟨hnot, hx, out, hout, hkey⟩
      refine ⟨⟨?_, hx⟩, out, hout, hkey⟩
      intro heq
      have hmem := List.fst_mem_of_mem_zipIdx hout
      rw [heq] at hmem
      exact hnot out hmem hkey
    · rintro ⟨⟨hne, hx⟩, out, hout, hkey⟩
      refine ⟨fun out' hout' heq => ?_, hx, out, hout, hkey⟩
      obtain rfl := outKey_injective (heq.trans hkey.symm)
      exact hne (hp.spender _ _ _ hx hlive (List.fst_mem_of_mem_zipIdx hout) hout')
  · have hgrown := hgrows' a
    rw [UtxoView.unspendAll_eq, UtxoView.clearSpend_table] at hgrown
    exact (hgrows a).trans hgrown

theorem other (hinv : UtxoInv cfg raw p u) (hallowed : p.TxAllowed row)
    (htype : row.type = .txConfirm ∨ row.type = .txUnconfirm) :
    UtxoInv cfg raw (p.next row) u := by
  have hlive := Ledger.next_live_other hallowed htype
  constructor
  · intro a
    refine ((hinv.tables a).congr fun c => ?_).of_drift ?_
    · rw [Unspent, Unspent, hlive, Ledger.spentAt_next_other hallowed htype]
    · rcases htype with htype | htype <;> simp [missedRemovals, Ledger.next, htype]
  · intro h n x
    rw [hinv.spend, hlive]

end UtxoInv

/-! ## Arbitrary scripts -/

/-- Every unspent output of a live transaction has its index record. -/
def Present (cfg : Config) (raw : RawTxs) (p : Ledger) (u : UtxoView) : Prop :=
  ∀ a k, p.Live k.1 → ¬p.SpentAt raw k → (a, k) ∈ ownKeys cfg k.1 (raw k.1).tx.vout →
    (u.index a k.1 k.2).isSome

/--
The lookups of a row are of distinct destinations: those of the outputs an
accepted transaction spends, those of a rejected transaction's own outputs.
-/
structure DistinctLookups (cfg : Config) (raw : RawTxs) (row : TxLog2Row) : Prop where
  spent : row.type = .txAccept → ∀ out ∈ (raw row.txHash).tx.prevouts,
    ∀ output, prevOutput cfg raw out = some output → output.addresses.Nodup
  own : row.type = .txReject → DistinctOutputs cfg raw row.txHash

theorem DistinctLookups.of_distinct (h : ∀ hash, DistinctOutputs cfg raw hash) :
    DistinctLookups cfg raw row :=
  ⟨fun _ out _ _ => (h out.hash).prevOutput, fun _ => h row.txHash⟩

namespace Present

theorem accept (hpresent : Present cfg raw p u) (hdeps : p.Deps raw row)
    (htype : row.type = .txAccept) (hdistinct : DistinctLookups cfg raw row) :
    ∃ v, acceptView cfg raw u row.txHash = some v ∧ Present cfg raw (p.next row) v := by
  have hprevout := hdeps.accept_prevout htype
  have hrange : ∀ out ∈ (raw row.txHash).tx.prevouts,
      out.n.toNat < (raw out.hash).tx.vout.length := fun out hout => (hprevout out hout).2.1
  have hnodup := nodup_spentKeys_spentOutputs cfg (hdeps.accept_nodup htype)
    hrange (hdistinct.spent htype)
  obtain ⟨v, hv, hindex⟩ := UtxoView.removeAll_index_isSome 1 hnodup (by
    rintro ⟨a, k⟩ hk
    obtain ⟨⟨out, hout, rfl⟩, hown⟩ := (mem_spentKeys_spentOutputs hrange).mp hk
    exact (u.insertAll_index_isSome
      (ownEntries cfg row.txHash (raw row.txHash).tx.vout) ..).mpr (.inr (hpresent a _
        (hprevout out hout).1 (not_spentAt_prevout hdeps htype hout) hown)))
  refine ⟨v.spendAll row.txHash (raw row.txHash).tx.prevouts, ?_, fun a k hlive hnot hown => ?_⟩
  · rw [acceptView, hv, Option.map_some]
  · have htable := v.spendAll_table row.txHash (raw row.txHash).tx.prevouts
    change (((v.spendAll row.txHash (raw row.txHash).tx.prevouts).table a).index k).isSome
    rw [htable]
    rw [Ledger.spentAt_next_accept htype] at hnot
    refine (hindex a k.1 k.2).mpr ⟨(u.insertAll_index_isSome ..).mpr ?_, fun hk =>
      hnot (.inr ((mem_spentKeys_spentOutputs hrange).mp hk).1)⟩
    rcases (Ledger.next_live_accept htype k.1).mp hlive with heq | hlive
    · rw [keysOf_ownEntries, ← heq]
      exact .inl hown
    · exact .inr (hpresent a k hlive (fun hs => hnot (.inl hs)) hown)

theorem reject (hpresent : Present cfg raw p u) (hp : p.Linked raw)
    (hallowed : p.TxAllowed row) (hdeps : p.Deps raw row) (htype : row.type = .txReject)
    (hdistinct : DistinctLookups cfg raw row) :
    ∃ v, rejectView cfg raw u row.txHash = some v ∧ Present cfg raw (p.next row) v := by
  have hlive := Ledger.live_of_reject hallowed htype
  have hrange := hp.range hlive
  -- what is back after the inputs
  have hback : ∀ a k, (((u.unspendAll (spentOutputs cfg raw (raw row.txHash).tx)).index
      a k.1 k.2).isSome ↔ (a, k) ∈ spentKeys (spentOutputs cfg raw (raw row.txHash).tx) ∨
        (u.index a k.1 k.2).isSome) := by
    intro a k
    change ((UtxoView.table (u.unspendAll _) a).index k).isSome ↔ _
    rw [UtxoView.unspendAll_eq, UtxoView.clearSpend_table, ← keysOf_spentEntries]
    exact u.insertAll_index_isSome ..
  obtain ⟨v, hv, hindex⟩ := UtxoView.removeAll_index_isSome 0
    (nodup_ownKeys (hdistinct.own htype)) (by
      rintro ⟨a, k⟩ hk
      have hhash := (mem_ownKeys.mp hk).1
      exact (hback a k).mpr (.inr (hpresent a k (hhash ▸ hlive)
        (not_spentAt_own hdeps htype hhash) (hhash ▸ hk))))
  refine ⟨v, hv, fun a k hlive' hnot hown => (hindex a k.1 k.2).mpr
    ⟨(hback a k).mpr ?_, fun hk => ?_⟩⟩
  · rw [Ledger.spentAt_next_reject hp hallowed htype] at hnot
    by_cases hspent : ∃ out ∈ (raw row.txHash).tx.prevouts, outKey out = k
    · exact .inl ((mem_spentKeys_spentOutputs hrange).mpr ⟨hspent, hown⟩)
    · exact .inr (hpresent a k ((Ledger.next_live_reject htype k.1).mp hlive').2
        (fun hs => hnot ⟨hs, hspent⟩) hown)
  · exact ((Ledger.next_live_reject htype k.1).mp hlive').1 (mem_ownKeys.mp hk).1

theorem other (hpresent : Present cfg raw p u) (hallowed : p.TxAllowed row)
    (htype : row.type = .txConfirm ∨ row.type = .txUnconfirm) :
    Present cfg raw (p.next row) u := by
  intro a k
  rw [Ledger.next_live_other hallowed htype, Ledger.spentAt_next_other hallowed htype]
  exact hpresent a k

end Present

end ExplorerKV.Parser

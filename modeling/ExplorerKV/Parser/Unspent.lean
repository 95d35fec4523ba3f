import ExplorerKV.Parser.UtxoTables

/-!
# Unspent outputs and the ledger

The dependency order keeps the live transactions linked: every outpoint names a
live transaction, and no two of them spend the same one.  `UtxoInv` ties the
tables to the ledger: an address's table holds the outputs of live transactions
that pay it and that no live transaction spends.  `Present` is the weaker
statement that such an output has its `24_` record, which needs less of the
scripts.
-/

namespace ExplorerKV.Parser

open Bitcoin Foundation

/-! ## The entries and keys of a transaction -/

section Entries

variable {cfg : Config} {raw : RawTxs} {tx : CTransaction} {hash : Uint256}
  {vout : List CTxOut} {a : Address} {e : AddressUnspent} {k : Uint256 × Nat}

theorem mem_addressEntries {value : Int} {addresses : List Address} {position : Nat} :
    (a, e) ∈ addressEntries value addresses hash position ↔
      addresses[e.position2]? = some a ∧ e.value = value ∧ entryKey e = (hash, position) := by
  obtain ⟨v, h, n, j⟩ := e
  simp only [addressEntries, List.mem_map, Prod.exists, List.mem_zipIdx_iff_getElem?,
    Prod.mk.injEq, AddressUnspent.mk.injEq, entryKey]
  constructor
  · rintro ⟨_, _, hget, rfl, rfl, rfl, rfl, rfl⟩
    exact ⟨hget, rfl, rfl, rfl⟩
  · rintro ⟨hget, rfl, rfl, rfl⟩
    exact ⟨a, j, hget, rfl, rfl, rfl, rfl, rfl⟩

theorem mem_ownEntries :
    (a, e) ∈ ownEntries cfg hash vout ↔ e.txHash = hash ∧
      ∃ out, vout[e.position]? = some out ∧ e.value = out.nValue ∧
        (outputAddresses cfg out)[e.position2]? = some a := by
  simp only [ownEntries, List.mem_flatMap, Prod.exists, List.mem_zipIdx_iff_getElem?,
    mem_addressEntries, entryKey, Prod.mk.injEq]
  constructor
  · rintro ⟨out, _, hout, haddr, hvalue, hhash, rfl⟩
    exact ⟨hhash, out, hout, hvalue, haddr⟩
  · rintro ⟨hhash, out, hout, hvalue, haddr⟩
    exact ⟨out, _, hout, haddr, hvalue, hhash, rfl⟩

theorem mem_ownKeys :
    (a, k) ∈ ownKeys cfg hash vout ↔ k.1 = hash ∧
      ∃ out, vout[k.2]? = some out ∧ a ∈ outputAddresses cfg out := by
  obtain ⟨h, n⟩ := k
  simp only [ownKeys, List.mem_flatMap, Prod.exists, List.mem_zipIdx_iff_getElem?,
    List.mem_map, Prod.mk.injEq]
  constructor
  · rintro ⟨out, _, hout, _, haddr, rfl, rfl, rfl⟩
    exact ⟨rfl, out, hout, haddr⟩
  · rintro ⟨rfl, out, hout, haddr⟩
    exact ⟨out, n, hout, a, haddr, rfl, rfl, rfl⟩

theorem keysOf_ownEntries : keysOf (ownEntries cfg hash vout) = ownKeys cfg hash vout := by
  have hkeys : ∀ x : CTxOut × Nat, keysOf (addressEntries x.1.nValue
      (outputAddresses cfg x.1) hash x.2) =
        (outputAddresses cfg x.1).map fun a => (a, hash, x.2) :=
    fun x => keysOf_addressEntries ..
  simp only [keysOf] at hkeys
  simp only [keysOf, ownEntries, ownKeys, List.map_flatMap, hkeys]

theorem nodup_ownKeys (h : ∀ out ∈ vout, (outputAddresses cfg out).Nodup) :
    (ownKeys cfg hash vout).Nodup := by
  rw [ownKeys, List.nodup_flatMap]
  constructor
  · rintro ⟨out, n⟩ hx
    exact (h out (List.fst_mem_of_mem_zipIdx hx)).map fun _ _ heq => (Prod.mk.inj heq).1
  · have hpositions : (vout.zipIdx.map Prod.snd).Nodup := by
      rw [List.zipIdx_map_snd]
      exact List.nodup_range'
    refine (List.pairwise_map.mp hpositions).imp fun {x y} hne => ?_
    intro k hx hy
    obtain ⟨_, -, rfl⟩ := List.mem_map.mp hx
    obtain ⟨_, -, heq⟩ := List.mem_map.mp hy
    exact hne (Prod.mk.inj (Prod.mk.inj heq).2).2.symm

theorem prevOutput_eq (out : COutPoint) :
    prevOutput cfg raw out = ((raw out.hash).tx.vout[out.n.toNat]?).map fun o =>
      { value := o.nValue, addresses := outputAddresses cfg o } := by
  rw [prevOutput, txObjectOutputs, List.getElem?_map]

theorem mem_spentKeys {spent : List (COutPoint × TxOutput)} :
    (a, k) ∈ spentKeys spent ↔ ∃ x ∈ spent, outKey x.1 = k ∧ a ∈ x.2.addresses := by
  simp only [spentKeys, List.mem_flatMap, List.mem_map, outKey]
  constructor
  · rintro ⟨x, hx, _, ha, heq⟩
    obtain ⟨rfl, rfl⟩ := Prod.mk.inj heq
    exact ⟨x, hx, rfl, ha⟩
  · rintro ⟨x, hx, rfl, ha⟩
    exact ⟨x, hx, a, ha, rfl⟩

theorem mem_spentEntries {spent : List (COutPoint × TxOutput)} :
    (a, e) ∈ spentEntries spent ↔ ∃ x ∈ spent, outKey x.1 = entryKey e ∧
      x.2.addresses[e.position2]? = some a ∧ e.value = x.2.value := by
  simp only [spentEntries, List.mem_flatMap, mem_addressEntries, outKey]
  constructor
  · rintro ⟨x, hx, haddr, hvalue, hkey⟩
    exact ⟨x, hx, hkey.symm, haddr, hvalue⟩
  · rintro ⟨x, hx, hkey, haddr, hvalue⟩
    exact ⟨x, hx, haddr, hvalue, hkey.symm⟩

theorem keysOf_spentEntries (spent : List (COutPoint × TxOutput)) :
    keysOf (spentEntries spent) = spentKeys spent := by
  have hkeys : ∀ x : COutPoint × TxOutput, keysOf (addressEntries x.2.value
      x.2.addresses x.1.hash x.1.n.toNat) =
        x.2.addresses.map fun a => (a, x.1.hash, x.1.n.toNat) :=
    fun x => keysOf_addressEntries ..
  simp only [keysOf] at hkeys
  simp only [keysOf, spentEntries, spentKeys, List.map_flatMap, hkeys]

theorem nodup_spentKeys {spent : List (COutPoint × TxOutput)}
    (hnodup : (spent.map Prod.fst).Nodup) (h : ∀ x ∈ spent, x.2.addresses.Nodup) :
    (spentKeys spent).Nodup := by
  rw [spentKeys, List.nodup_flatMap]
  constructor
  · intro x hx
    exact (h x hx).map fun _ _ heq => (Prod.mk.inj heq).1
  · refine (List.pairwise_map.mp hnodup).imp fun {x y} hne => ?_
    intro k hx hy
    obtain ⟨_, -, rfl⟩ := List.mem_map.mp hx
    obtain ⟨_, -, heq⟩ := List.mem_map.mp hy
    exact hne (outKey_injective (Prod.mk.inj heq).2.symm)

theorem spentOutputs_eq (cfg : Config)
    (hrange : ∀ out ∈ tx.prevouts, out.n.toNat < (raw out.hash).tx.vout.length) :
    (spentOutputs cfg raw tx).map Prod.fst = tx.prevouts ∧
      ∀ x ∈ spentOutputs cfg raw tx, prevOutput cfg raw x.1 = some x.2 := by
  unfold spentOutputs prevOutputs
  generalize tx.prevouts = outs at hrange ⊢
  induction outs with
  | nil => simp
  | cons out rest ih =>
      obtain ⟨hout, hrest⟩ := List.forall_mem_cons.mp hrange
      obtain ⟨hmap, hmem⟩ := ih hrest
      have hsome : prevOutput cfg raw out = some
          { value := (raw out.hash).tx.vout[out.n.toNat].nValue
            addresses := outputAddresses cfg (raw out.hash).tx.vout[out.n.toNat] } := by
        rw [prevOutput_eq, List.getElem?_eq_getElem hout, Option.map_some]
      rw [List.filterMap_cons_some hsome, List.zip_cons_cons]
      exact ⟨by rw [List.map_cons, hmap], List.forall_mem_cons.mpr ⟨hsome, hmem⟩⟩

theorem mem_spentOutputs (cfg : Config)
    (hrange : ∀ out ∈ tx.prevouts, out.n.toNat < (raw out.hash).tx.vout.length)
    {out : COutPoint} (hout : out ∈ tx.prevouts) :
    ∃ output, (out, output) ∈ spentOutputs cfg raw tx := by
  rw [← (spentOutputs_eq cfg hrange).1] at hout
  obtain ⟨x, hx, rfl⟩ := List.mem_map.mp hout
  exact ⟨x.2, hx⟩

theorem mem_spentEntries_spentOutputs
    (hrange : ∀ out ∈ tx.prevouts, out.n.toNat < (raw out.hash).tx.vout.length) :
    (a, e) ∈ spentEntries (spentOutputs cfg raw tx) ↔
      (∃ out ∈ tx.prevouts, outKey out = entryKey e) ∧
        (a, e) ∈ ownEntries cfg e.txHash (raw e.txHash).tx.vout := by
  obtain ⟨hmap, hsome⟩ := spentOutputs_eq cfg hrange
  rw [mem_spentEntries, mem_ownEntries]
  constructor
  · rintro ⟨⟨out, output⟩, hx, hkey, haddr, hvalue⟩
    have hout := hsome _ hx
    obtain ⟨hhash, hposition⟩ := Prod.mk.inj hkey
    rw [prevOutput_eq, hhash, hposition] at hout
    obtain ⟨o, ho, rfl⟩ := Option.map_eq_some_iff.mp hout
    exact ⟨⟨out, hmap ▸ List.mem_map_of_mem hx, hkey⟩, rfl, o, ho, hvalue, haddr⟩
  · rintro ⟨⟨out, hout, hkey⟩, -, o, ho, hvalue, haddr⟩
    obtain ⟨output, hx⟩ := mem_spentOutputs cfg hrange hout
    have houtput := hsome _ hx
    obtain ⟨hhash, hposition⟩ := Prod.mk.inj hkey
    rw [prevOutput_eq, hhash, hposition, ho] at houtput
    obtain rfl := Option.some.inj houtput
    exact ⟨_, hx, hkey, haddr, hvalue⟩

theorem mem_spentKeys_spentOutputs
    (hrange : ∀ out ∈ tx.prevouts, out.n.toNat < (raw out.hash).tx.vout.length) :
    (a, k) ∈ spentKeys (spentOutputs cfg raw tx) ↔
      (∃ out ∈ tx.prevouts, outKey out = k) ∧
        (a, k) ∈ ownKeys cfg k.1 (raw k.1).tx.vout := by
  obtain ⟨hmap, hsome⟩ := spentOutputs_eq cfg hrange
  rw [mem_spentKeys, mem_ownKeys]
  constructor
  · rintro ⟨⟨out, output⟩, hx, rfl, haddr⟩
    have hout := hsome _ hx
    rw [prevOutput_eq] at hout
    obtain ⟨o, ho, rfl⟩ := Option.map_eq_some_iff.mp hout
    exact ⟨⟨out, hmap ▸ List.mem_map_of_mem hx, rfl⟩, rfl, o, ho, haddr⟩
  · rintro ⟨⟨out, hout, rfl⟩, -, o, ho, haddr⟩
    obtain ⟨output, hx⟩ := mem_spentOutputs cfg hrange hout
    have houtput := hsome _ hx
    rw [prevOutput_eq, show (raw out.hash).tx.vout[out.n.toNat]? = some o from ho]
      at houtput
    obtain rfl := Option.some.inj houtput
    exact ⟨_, hx, rfl, haddr⟩

theorem exists_entry_of_mem_keysOf {entries : List (Address × AddressUnspent)}
    (h : (a, k) ∈ keysOf entries) : ∃ e, (a, e) ∈ entries ∧ entryKey e = k := by
  obtain ⟨⟨a', e⟩, he, heq⟩ := List.mem_map.mp h
  obtain ⟨rfl, rfl⟩ := Prod.mk.inj heq
  exact ⟨e, he, rfl⟩

end Entries

/-! ## Linked ledgers -/

namespace Ledger

variable {raw : RawTxs} {p : Ledger} {row : TxLog2Row}

def SpentAt (raw : RawTxs) (p : Ledger) (k : Uint256 × Nat) : Prop :=
  ∃ hash, p.Live hash ∧ ∃ out ∈ (raw hash).tx.prevouts, outKey out = k

/-- What the dependency order makes of the live transactions. -/
structure Linked (raw : RawTxs) (p : Ledger) : Prop where
  nodup : ∀ hash, p.Live hash → (raw hash).tx.prevouts.Nodup
  prevout : ∀ hash, p.Live hash → ∀ out ∈ (raw hash).tx.prevouts,
    p.Live out.hash ∧ out.n.toNat < (raw out.hash).tx.vout.length
  spender : ∀ hash hash' out, p.Live hash → p.Live hash' →
    out ∈ (raw hash).tx.prevouts → out ∈ (raw hash').tx.prevouts → hash = hash'

theorem linked_empty : Linked raw .empty :=
  ⟨fun _ h => absurd rfl h, fun _ h => absurd rfl h, fun _ _ _ h => absurd rfl h⟩

theorem next_live_accept (htype : row.type = .txAccept) (hash : Uint256) :
    (p.next row).Live hash ↔ hash = row.txHash ∨ p.Live hash := by
  rw [next_live, htype]
  by_cases h : hash = row.txHash <;> simp [h]

theorem next_live_reject (htype : row.type = .txReject) (hash : Uint256) :
    (p.next row).Live hash ↔ hash ≠ row.txHash ∧ p.Live hash := by
  rw [next_live, htype]
  by_cases h : hash = row.txHash <;> simp [h]

theorem next_live_other (hallowed : p.TxAllowed row)
    (htype : row.type = .txConfirm ∨ row.type = .txUnconfirm) (hash : Uint256) :
    (p.next row).Live hash ↔ p.Live hash := by
  have hlive : p.Live row.txHash := by
    unfold Live
    rw [hallowed.status]
    rcases htype with htype | htype <;> simp [htype, Log2Type.statusBefore]
  rw [next_live]
  by_cases h : hash = row.txHash
  · rcases htype with htype | htype <;> simp [h, htype, hlive]
  · simp [h]

theorem not_live_of_accept (hallowed : p.TxAllowed row) (htype : row.type = .txAccept) :
    ¬p.Live row.txHash := by
  simp [Live, hallowed.status, htype, Log2Type.statusBefore]

theorem live_of_reject (hallowed : p.TxAllowed row) (htype : row.type = .txReject) :
    p.Live row.txHash := by
  simp [Live, hallowed.status, htype, Log2Type.statusBefore]

theorem Linked.next (hp : Linked raw p) (hallowed : p.TxAllowed row)
    (hdeps : p.Deps raw row) : Linked raw (p.next row) := by
  have hother : row.type = .txConfirm ∨ row.type = .txUnconfirm →
      Linked raw (p.next row) := by
    intro htype
    have hlive := next_live_other hallowed htype
    refine ⟨fun h hh => hp.nodup h ((hlive h).mp hh), fun h hh out hout => ?_,
      fun h h' out hh hh' => hp.spender h h' out ((hlive h).mp hh) ((hlive h').mp hh')⟩
    obtain ⟨hl, hr⟩ := hp.prevout h ((hlive h).mp hh) out hout
    exact ⟨(hlive _).mpr hl, hr⟩
  cases htype : row.type with
  | txConfirm => exact hother (.inl htype)
  | txUnconfirm => exact hother (.inr htype)
  | txAccept =>
      have hlive : ∀ hash, (p.next row).Live hash ↔ hash = row.txHash ∨ p.Live hash :=
        next_live_accept htype
      have hprevout := hdeps.accept_prevout htype
      refine ⟨fun h hh => ?_, fun h hh out hout => ?_, fun h h' out hh hh' hout hout' => ?_⟩
      · rcases (hlive h).mp hh with rfl | hh
        · exact hdeps.accept_nodup htype
        · exact hp.nodup h hh
      · rcases (hlive h).mp hh with rfl | hh
        · exact ⟨(hlive _).mpr (.inr (hprevout out hout).1), (hprevout out hout).2.1⟩
        · obtain ⟨hl, hr⟩ := hp.prevout h hh out hout
          exact ⟨(hlive _).mpr (.inr hl), hr⟩
      · rcases (hlive h).mp hh with rfl | hh <;> rcases (hlive h').mp hh' with rfl | hh'
        · rfl
        · exact absurd hout' ((hprevout out hout).2.2 h' hh')
        · exact absurd hout ((hprevout out hout').2.2 h hh)
        · exact hp.spender h h' out hh hh' hout hout'
  | txReject =>
      have hlive : ∀ hash, (p.next row).Live hash ↔ hash ≠ row.txHash ∧ p.Live hash :=
        next_live_reject htype
      have hunspent := hdeps.reject_unspent htype
      refine ⟨fun h hh => ?_, fun h hh out hout => ?_, fun h h' out hh hh' hout hout' => ?_⟩
      · exact hp.nodup h ((hlive h).mp hh).2
      · obtain ⟨hl, hr⟩ := hp.prevout h ((hlive h).mp hh).2 out hout
        exact ⟨(hlive _).mpr ⟨fun heq => hunspent out heq h ((hlive h).mp hh).2 hout, hl⟩, hr⟩
      · exact hp.spender h h' out ((hlive h).mp hh).2 ((hlive h').mp hh').2 hout hout'

theorem spentAt_next_accept (htype : row.type = .txAccept) (k : Uint256 × Nat) :
    (p.next row).SpentAt raw k ↔
      p.SpentAt raw k ∨ ∃ out ∈ (raw row.txHash).tx.prevouts, outKey out = k := by
  unfold SpentAt
  simp only [next_live_accept htype, or_and_right, exists_or, exists_eq_left]
  exact or_comm

theorem spentAt_next_other (hallowed : p.TxAllowed row)
    (htype : row.type = .txConfirm ∨ row.type = .txUnconfirm) (k : Uint256 × Nat) :
    (p.next row).SpentAt raw k ↔ p.SpentAt raw k := by
  unfold SpentAt
  simp only [next_live_other hallowed htype]

theorem spentAt_next_reject (hp : Linked raw p) (hallowed : p.TxAllowed row)
    (htype : row.type = .txReject) (k : Uint256 × Nat) :
    (p.next row).SpentAt raw k ↔
      p.SpentAt raw k ∧ ¬∃ out ∈ (raw row.txHash).tx.prevouts, outKey out = k := by
  unfold SpentAt
  simp only [next_live_reject htype]
  have hrow := live_of_reject hallowed htype
  constructor
  · rintro ⟨h, ⟨hne, hlive⟩, out, hout, rfl⟩
    refine ⟨⟨h, hlive, out, hout, rfl⟩, ?_⟩
    rintro ⟨out', hout', heq⟩
    obtain rfl := outKey_injective heq
    exact hne (hp.spender h row.txHash out' hlive hrow hout hout')
  · rintro ⟨⟨h, hlive, out, hout, rfl⟩, hnot⟩
    refine ⟨h, ⟨?_, hlive⟩, out, hout, rfl⟩
    rintro rfl
    exact hnot ⟨out, hout, rfl⟩

end Ledger

end ExplorerKV.Parser

import ExplorerKV.Parser.UtxoView

/-!
# Bulk changes of the unspent tables

The views of all addresses as slot tables, and what the folds of `UtxoView`
do to them: a list of entries with new keys is added, a list of present keys is
taken away, the spent-by records follow the outpoints.
-/

namespace ExplorerKV.Parser

open Bitcoin Foundation

/-- An outpoint as the keys of `02_` and `24_` spell it. -/
def outKey (out : COutPoint) : Uint256 × Nat := (out.hash, out.n.toNat)

theorem outKey_injective : Function.Injective outKey := by
  rintro ⟨h, n⟩ ⟨h', n'⟩ heq
  obtain ⟨hh, hn⟩ := Prod.mk.inj heq
  exact congrArg₂ COutPoint.mk hh (UInt32.toNat_inj.mp hn)

namespace UtxoView

variable {u : UtxoView} {S : Address → AddressUnspent → Prop} {drift : Address → Int}

/-- The table of each address holds exactly the values of its set. -/
def Exact (u : UtxoView) (S : Address → AddressUnspent → Prop)
    (drift : Address → Int) : Prop :=
  ∀ a, (u.table a).Exact entryKey (S a) (drift a)

def Grows (u u' : UtxoView) : Prop := ∀ a, (u.table a).Grows (u'.table a)

theorem Grows.refl (u : UtxoView) : u.Grows u := fun _ => .refl _

theorem Grows.trans {u u' u'' : UtxoView} (h : u.Grows u') (h' : u'.Grows u'') :
    u.Grows u'' := fun a => (h a).trans (h' a)

theorem Exact.congr {S' : Address → AddressUnspent → Prop} (h : u.Exact S drift)
    (hS : ∀ a c, S a c ↔ S' a c) : u.Exact S' drift :=
  fun a => (h a).congr (hS a)

/-! ## Insertions -/

theorem Exact.insert (h : u.Exact S drift) {address : Address} {entry : AddressUnspent}
    (hfresh : ∀ c, S address c → entryKey c ≠ entryKey entry) :
    (u.insert address entry).Exact (fun a c => S a c ∨ (a, c) = (address, entry)) drift ∧
      u.Grows (u.insert address entry) := by
  refine forall_and.mp fun a => ?_
  by_cases ha : a = address
  · subst ha
    have htable : ((u.insert a entry).table a).Exact entryKey
        (fun c => S a c ∨ c = entry) (drift a) ∧
        (u.table a).Grows ((u.insert a entry).table a) :=
      (h a).insert hfresh (fun i => by
          by_cases hi : i = (u.part a).2 + 1 <;> simp [table, UtxoView.insert, hi])
        (by simp [table, UtxoView.insert]) (by simp [table, UtxoView.insert])
        (by simp [table, UtxoView.insert])
    exact ⟨htable.1.congr (by simp), htable.2⟩
  · have htable : (u.insert address entry).table a = u.table a := by
      simp [table, UtxoView.insert, ha]
    rw [htable]
    exact ⟨(h a).congr (by simp [ha]), .refl _⟩

theorem Exact.insertAll {entries : List (Address × AddressUnspent)}
    (h : u.Exact S drift) (hnodup : (keysOf entries).Nodup)
    (hfresh : ∀ x ∈ entries, ∀ c, S x.1 c → entryKey c ≠ entryKey x.2) :
    (u.insertAll entries).Exact (fun a c => S a c ∨ (a, c) ∈ entries) drift ∧
      u.Grows (u.insertAll entries) := by
  induction entries generalizing u S with
  | nil => exact ⟨h.congr (by simp), .refl u⟩
  | cons x rest ih =>
      obtain ⟨hx, hrest⟩ := List.nodup_cons.mp hnodup
      obtain ⟨hexact, hgrows⟩ := h.insert (hfresh x (by simp))
      have hfresh' : ∀ y ∈ rest, ∀ c, S y.1 c ∨ (y.1, c) = (x.1, x.2) →
          entryKey c ≠ entryKey y.2 := by
        rintro y hy c (hc | hc) hkey
        · exact hfresh y (by simp [hy]) c hc hkey
        · obtain ⟨ha, rfl⟩ := Prod.mk.inj hc
          exact hx (List.mem_map.mpr ⟨y, hy, by rw [ha, ← hkey]⟩)
      obtain ⟨hexact', hgrows'⟩ := ih hexact hrest hfresh'
      exact ⟨hexact'.congr (by simp [or_assoc]), hgrows.trans hgrows'⟩

theorem insert_index_isSome (u : UtxoView) (address : Address) (entry : AddressUnspent)
    (a : Address) (hash : Uint256) (position : Nat) :
    ((u.insert address entry).index a hash position).isSome ↔
      (a, hash, position) = (address, entryKey entry) ∨
        (u.index a hash position).isSome := by
  have hkey : (a, hash, position) = (address, entryKey entry) ↔
      a = address ∧ (hash, position) = entryKey entry := Prod.ext_iff
  rw [hkey]
  unfold UtxoView.insert
  by_cases h : a = address ∧ (hash, position) = entryKey entry <;> simp [h]

theorem insertAll_index_isSome (u : UtxoView)
    (entries : List (Address × AddressUnspent)) (a : Address) (hash : Uint256)
    (position : Nat) :
    ((u.insertAll entries).index a hash position).isSome ↔
      (a, hash, position) ∈ keysOf entries ∨ (u.index a hash position).isSome := by
  induction entries generalizing u with
  | nil => simp [UtxoView.insertAll, keysOf]
  | cons x rest ih =>
      change ((UtxoView.insertAll (u.insert x.1 x.2) rest).index a hash position).isSome ↔ _
      rw [ih, insert_index_isSome, keysOf, keysOf, List.map_cons, List.mem_cons]
      tauto

/-! ## Removals -/

theorem Exact.remove (h : u.Exact S drift) {address : Address} {b : AddressUnspent}
    (hb : S address b) (count : Int) :
    ∃ v, u.remove count address b.txHash b.position = some v ∧
      v.Exact (fun a c => S a c ∧ (a, entryKey c) ≠ (address, entryKey b))
        (fun a => drift a + if a = address then 1 - count else 0) ∧
      u.Grows v ∧ v.spend = u.spend := by
  obtain ⟨i, hindex, -⟩ := (h address).index_of_mem hb
  have hremove : u.remove count address b.txHash b.position =
      some ((u.debit count address).erase address i b.txHash b.position) :=
    Option.map_eq_some_iff.mpr ⟨i, hindex, rfl⟩
  refine ⟨_, hremove, ?_⟩
  rw [← and_assoc]
  refine ⟨forall_and.mp fun a => ?_, rfl⟩
  by_cases ha : a = address
  · subst ha
    have htable : (((u.debit count a).erase a i b.txHash b.position).table a).Exact
          entryKey (fun c => S a c ∧ entryKey c ≠ entryKey b) (drift a + (1 - count)) ∧
        (u.table a).Grows (((u.debit count a).erase a i b.txHash b.position).table a) :=
      (h a).remove hb hindex (by simp [table, erase, debit])
        (by simp [table, erase, debit, entryKey]) (by simp [table, erase, debit])
        (by simp [table, erase, debit])
    exact ⟨by simpa using htable.1, htable.2⟩
  · have htable : ((u.debit count address).erase address i b.txHash b.position).table a =
        u.table a := by
      simp [table, erase, debit, ha]
    rw [htable]
    exact ⟨by simpa [ha] using h a, .refl _⟩

theorem Exact.removeAll {keys : List (Address × Uint256 × Nat)}
    (h : u.Exact S drift) (count : Int) (hnodup : keys.Nodup)
    (hmem : ∀ k ∈ keys, ∃ b, S k.1 b ∧ entryKey b = k.2) :
    ∃ v, u.removeAll count keys = some v ∧
      v.Exact (fun a c => S a c ∧ (a, entryKey c) ∉ keys)
        (fun a => drift a + (1 - count) * (keys.map Prod.fst).count a) ∧
      u.Grows v ∧ v.spend = u.spend := by
  induction keys generalizing u S drift with
  | nil => exact ⟨u, rfl, by simpa using h, .refl u, rfl⟩
  | cons k rest ih =>
      obtain ⟨address, key⟩ := k
      obtain ⟨hk, hrest⟩ := List.nodup_cons.mp hnodup
      obtain ⟨b, hb, rfl⟩ := hmem _ List.mem_cons_self
      obtain ⟨v, hv, hexact, hgrows, hspend⟩ := h.remove hb count
      have hmem' : ∀ k ∈ rest, ∃ c, (S k.1 c ∧ (k.1, entryKey c) ≠ (address, entryKey b)) ∧
          entryKey c = k.2 := by
        intro k hk'
        obtain ⟨c, hc, hkey⟩ := hmem k (by simp [hk'])
        refine ⟨c, ⟨hc, ?_⟩, hkey⟩
        rw [hkey]
        intro heq
        exact hk ((show k = (address, entryKey b) from heq) ▸ hk')
      obtain ⟨w, hw, hexact', hgrows', hspend'⟩ := ih hexact hrest hmem'
      refine ⟨w, ?_, ?_, hgrows.trans hgrows', hspend'.trans hspend⟩
      · rw [UtxoView.removeAll, List.foldlM_cons]
        exact Option.bind_eq_some_iff.mpr ⟨v, hv, hw⟩
      · intro a
        refine ((hexact' a).congr fun c => ?_).of_drift ?_
        · dsimp only
          rw [List.mem_cons, not_or, and_assoc]
        · dsimp only
          rw [List.map_cons, List.count_cons]
          by_cases ha : a = address
          · simp [ha]
            ring
          · simp [ha, Ne.symm ha]

theorem remove_index_isSome {count : Int} {v : UtxoView} {address : Address}
    {hash : Uint256} {position : Nat} (h : u.remove count address hash position = some v)
    (a : Address) (h' : Uint256) (n : Nat) :
    (v.index a h' n).isSome ↔
      (u.index a h' n).isSome ∧ (a, h', n) ≠ (address, hash, position) := by
  obtain ⟨i, -, rfl⟩ := Option.map_eq_some_iff.mp h
  have hkey : (a, h', n) = (address, hash, position) ↔
      a = address ∧ (h', n) = (hash, position) := Prod.ext_iff
  rw [ne_eq, hkey]
  change (if a = address ∧ (h', n) = (hash, position) then none
    else u.index a h' n).isSome ↔ _
  by_cases heq : a = address ∧ (h', n) = (hash, position)
  · simp [heq]
  · rw [if_neg heq, iff_self_and]
    exact fun _ => heq

theorem removeAll_index_isSome {keys : List (Address × Uint256 × Nat)} (count : Int)
    (hnodup : keys.Nodup) (hmem : ∀ k ∈ keys, (u.index k.1 k.2.1 k.2.2).isSome) :
    ∃ v, u.removeAll count keys = some v ∧ ∀ a hash position,
      (v.index a hash position).isSome ↔
        (u.index a hash position).isSome ∧ (a, hash, position) ∉ keys := by
  induction keys generalizing u with
  | nil => exact ⟨u, rfl, by simp⟩
  | cons k rest ih =>
      obtain ⟨hk, hrest⟩ := List.nodup_cons.mp hnodup
      obtain ⟨i, hi⟩ := Option.isSome_iff_exists.mp (hmem k List.mem_cons_self)
      have hremove : u.remove count k.1 k.2.1 k.2.2 =
          some ((u.debit count k.1).erase k.1 i k.2.1 k.2.2) :=
        Option.map_eq_some_iff.mpr ⟨i, hi, rfl⟩
      have hindex := remove_index_isSome hremove
      obtain ⟨v, hv, hv'⟩ := ih hrest fun k' hk' => (hindex ..).mpr
        ⟨hmem k' (by simp [hk']), fun heq => hk ((show k' = k from heq) ▸ hk')⟩
      refine ⟨v, ?_, fun a hash position => ?_⟩
      · rw [UtxoView.removeAll, List.foldlM_cons]
        exact Option.bind_eq_some_iff.mpr ⟨_, hremove, hv⟩
      · rw [hv', hindex, List.mem_cons, not_or, and_assoc]

/-! ## Spent-by records -/

theorem spendAll_append (u : UtxoView) (hash : Uint256) (prevouts : List COutPoint)
    (out : COutPoint) :
    u.spendAll hash (prevouts ++ [out]) =
      (u.spendAll hash prevouts).setSpend out.hash out.n.toNat
        (some ⟨prevouts.length, hash⟩) := by
  simp [spendAll, List.zipIdx_append]

theorem spendAll_table (u : UtxoView) (hash : Uint256) (prevouts : List COutPoint) :
    (u.spendAll hash prevouts).table = u.table := by
  induction prevouts using List.reverseRecOn with
  | nil => rfl
  | append_singleton prevouts out ih =>
      rw [spendAll_append, ← ih]
      rfl

theorem spendAll_spend {hash : Uint256} {prevouts : List COutPoint}
    (hnodup : prevouts.Nodup) (h : Uint256) (n : Nat) (x : TxSpentBy) :
    (u.spendAll hash prevouts).spend h n = some x ↔
      (x.txHash = hash ∧ ∃ out, (out, x.position) ∈ prevouts.zipIdx ∧ outKey out = (h, n)) ∨
      (∀ out ∈ prevouts, outKey out ≠ (h, n)) ∧ u.spend h n = some x := by
  induction prevouts using List.reverseRecOn with
  | nil => simp [spendAll]
  | append_singleton prevouts last ih =>
      obtain ⟨hinit, -, hlast⟩ := List.nodup_append.mp hnodup
      have hnotin : last ∉ prevouts := fun hmem => hlast last hmem last (by simp) rfl
      have hmem : ∀ out, (out, x.position) ∈ (prevouts ++ [last]).zipIdx ↔
          (out, x.position) ∈ prevouts.zipIdx ∨ out = last ∧ x.position = prevouts.length := by
        intro out
        simp [List.zipIdx_append]
      simp only [hmem, spendAll_append, setSpend]
      by_cases hkey : (h, n) = (last.hash, last.n.toNat)
      · have hout : ∀ out, outKey out = (h, n) ↔ out = last := fun out => by
          rw [hkey]
          exact (outKey_injective.eq_iff : outKey out = outKey last ↔ out = last)
        have hnot : ∀ position, (last, position) ∉ prevouts.zipIdx := fun position hp =>
          hnotin (List.fst_mem_of_mem_zipIdx hp)
        rw [if_pos hkey]
        constructor
        · intro hx
          obtain rfl := Option.some.inj hx
          exact .inl ⟨rfl, last, .inr ⟨rfl, rfl⟩, (hout _).mpr rfl⟩
        · rintro (⟨hhash, out, hor, hk⟩ | ⟨hall, -⟩)
          · obtain rfl := (hout out).mp hk
            rcases hor with hz | ⟨-, hpos⟩
            · exact absurd hz (hnot _)
            · rw [← hhash, ← hpos]
          · exact absurd ((hout last).mpr rfl) (hall last (by simp))
      · have hne : outKey last ≠ (h, n) := fun heq => hkey heq.symm
        rw [if_neg hkey, ih hinit]
        constructor
        · rintro (⟨hhash, out, hz, hk⟩ | ⟨hall, hx⟩)
          · exact .inl ⟨hhash, out, .inl hz, hk⟩
          · refine .inr ⟨fun out hout => ?_, hx⟩
            rcases List.mem_append.mp hout with hout | hout
            · exact hall out hout
            · rwa [List.mem_singleton.mp hout]
        · rintro (⟨hhash, out, hor, hk⟩ | ⟨hall, hx⟩)
          · rcases hor with hz | ⟨rfl, -⟩
            · exact .inl ⟨hhash, out, hz, hk⟩
            · exact absurd hk hne
          · exact .inr ⟨fun out hout => hall out (by simp [hout]), hx⟩

theorem insertAll_spend (u : UtxoView) (entries : List (Address × AddressUnspent)) :
    (u.insertAll entries).spend = u.spend := by
  induction entries generalizing u with
  | nil => rfl
  | cons x rest ih => exact ih _

theorem insertAll_setSpend (u : UtxoView) (entries : List (Address × AddressUnspent))
    (hash : Uint256) (position : Nat) (val : Option TxSpentBy) :
    (u.setSpend hash position val).insertAll entries =
      (u.insertAll entries).setSpend hash position val := by
  induction entries generalizing u with
  | nil => rfl
  | cons x rest ih => exact ih (u.insert x.1 x.2)

def clearSpend (u : UtxoView) (outs : List COutPoint) : UtxoView :=
  outs.foldl (fun u out => u.setSpend out.hash out.n.toNat none) u

theorem clearSpend_table (u : UtxoView) (outs : List COutPoint) :
    (u.clearSpend outs).table = u.table := by
  induction outs generalizing u with
  | nil => rfl
  | cons out rest ih => exact ih (u.setSpend out.hash out.n.toNat none)

theorem clearSpend_spend (u : UtxoView) (outs : List COutPoint) (h : Uint256) (n : Nat)
    (x : TxSpentBy) :
    (u.clearSpend outs).spend h n = some x ↔
      (∀ out ∈ outs, outKey out ≠ (h, n)) ∧ u.spend h n = some x := by
  induction outs generalizing u with
  | nil => simp [clearSpend]
  | cons out rest ih =>
      refine (ih (u.setSpend out.hash out.n.toNat none)).trans ?_
      rw [List.forall_mem_cons]
      unfold setSpend
      by_cases hkey : (h, n) = (out.hash, out.n.toNat)
      · simp [hkey, outKey]
      · have hne : outKey out ≠ (h, n) := fun heq => hkey heq.symm
        simp [hkey, hne]

theorem insertAll_clearSpend (u : UtxoView) (entries : List (Address × AddressUnspent))
    (outs : List COutPoint) :
    (u.clearSpend outs).insertAll entries = (u.insertAll entries).clearSpend outs := by
  induction outs generalizing u with
  | nil => rfl
  | cons out rest ih =>
      refine (ih (u.setSpend out.hash out.n.toNat none)).trans ?_
      rw [insertAll_setSpend]
      rfl

theorem unspendAll_eq (u : UtxoView) (spent : List (COutPoint × TxOutput)) :
    u.unspendAll spent =
      (u.insertAll (spentEntries spent)).clearSpend (spent.map Prod.fst) := by
  induction spent using List.reverseRecOn with
  | nil => rfl
  | append_singleton spent x ih =>
      have hentries : spentEntries (spent ++ [x]) = spentEntries spent ++
          addressEntries x.2.value x.2.addresses x.1.hash x.1.n.toNat := by
        simp [spentEntries]
      have hstep : u.unspendAll (spent ++ [x]) =
          ((u.unspendAll spent).setSpend x.1.hash x.1.n.toNat none).insertAll
            (addressEntries x.2.value x.2.addresses x.1.hash x.1.n.toNat) := by
        simp [unspendAll]
      have happend : u.insertAll (spentEntries spent ++ addressEntries x.2.value
            x.2.addresses x.1.hash x.1.n.toNat) =
          (u.insertAll (spentEntries spent)).insertAll
            (addressEntries x.2.value x.2.addresses x.1.hash x.1.n.toNat) :=
        List.foldl_append
      rw [hstep, ih, hentries, happend, insertAll_setSpend, insertAll_clearSpend]
      simp [clearSpend]

end UtxoView

end ExplorerKV.Parser

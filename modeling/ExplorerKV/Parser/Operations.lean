import ExplorerKV.Parser.TxLists

/-!
# The four operations

`TxInv` is the invariant of the transaction records: transaction objects, the
lists of all addresses, and `20_` records that agree with the cache.  Each
operation preserves it.  What the operation does to the unspent outputs is a
parameter here: the lemmas thread assertions about the `UtxoView` through the
phases that change it and carry them over all others.
-/

namespace ExplorerKV.Parser

open Bitcoin Foundation

/-! ## The other half of the store -/

/-- The spent-by records, the unspent records of all addresses, and their counters. -/
structure UtxoView where
  spend : Uint256 → Nat → Option TxSpentBy
  entry : Address → Int → Option AddressUnspent
  index : Address → Uint256 → Nat → Option Int
  part : Address → Int × Int

def ParserState.utxoView (s : ParserState) : UtxoView where
  spend hash position := s.kv (.txSpend hash position)
  entry address i := s.kv (.addrUnspent address i)
  index address hash position := s.kv (.addrUnspentIndex address hash position)
  part address := (s.infoOf address).unspentPart

/-- Writes under keys in `K` that leave every address's information alone. -/
structure Keeps (K : Key → Prop) (s s' : ParserState) : Prop where
  kv : ∀ key, ¬K key → s'.kv key = s.kv key
  info : ∀ address, s'.infoOf address = s.infoOf address

namespace Keeps

variable {K K' : Key → Prop} {s s' s'' : ParserState}

theorem refl (s : ParserState) : Keeps K s s := ⟨fun _ _ => rfl, fun _ => rfl⟩

theorem trans (h : Keeps K s s') (h' : Keeps K s' s'') : Keeps K s s'' :=
  ⟨fun key hkey => (h'.kv key hkey).trans (h.kv key hkey),
    fun a => (h'.info a).trans (h.info a)⟩

theorem mono (h : Keeps K s s') (hK : ∀ key, K key → K' key) : Keeps K' s s' :=
  ⟨fun key hkey => h.kv key fun hkey' => hkey (hK key hkey'), h.info⟩

theorem write (s : ParserState) (key : Key) (val : Option key.Val)
    (hkey : ∀ a, key ≠ .addrObject a) : Keeps (· = key) s (s.write ⟨key, val⟩) :=
  ⟨fun _ hne => s.write_kv_of_ne val hne, s.write_infoOf key val hkey⟩

theorem txView_eq (h : Keeps K s s') (hK : ∀ key, key.OfAddrTx → ¬K key)
    (address : Address) : s'.txView address = s.txView address := by
  unfold ParserState.txView ParserState.nodeOf ParserState.indexOf
  rw [h.info]
  congr 1
  · funext i
    exact h.kv _ (hK _ trivial)
  · funext hash
    exact h.kv _ (hK _ trivial)

theorem utxoView_eq (h : Keeps K s s') (hK : ∀ key, key.OfUtxo → ¬K key) :
    s'.utxoView = s.utxoView := by
  unfold ParserState.utxoView
  simp only [h.info, UtxoView.mk.injEq, and_true]
  refine ⟨?_, ?_, ?_⟩ <;> funext <;> exact h.kv _ (hK _ trivial)

end Keeps

theorem utxoView_of_effects {D : Address → Prop} {s s' : ParserState}
    (h : Effects Key.OfAddrTx (TxChange D) s s') : s'.utxoView = s.utxoView := by
  unfold ParserState.utxoView
  simp only [UtxoView.mk.injEq]
  refine ⟨?_, ?_, ?_, ?_⟩
  · funext
    exact h.kv_eq id
  · funext
    exact h.kv_eq id
  · funext
    exact h.kv_eq id
  · funext address
    exact h.infoOf_eq (fun _ => id) address _ fun _ _ hP => hP.2

/-- Nothing happened to the `20_` records and the information outside `D`. -/
def Outside (D : Address → Prop) (s s' : ParserState) : Prop :=
  ∀ a, ¬D a → s'.kv (.addrObject a) = s.kv (.addrObject a) ∧
    s'.infoOf a = s.infoOf a

namespace Outside

variable {D : Address → Prop} {s s' s'' : ParserState}

theorem trans (h : Outside D s s') (h' : Outside D s' s'') : Outside D s s'' :=
  fun a ha => ⟨(h' a ha).1.trans (h a ha).1, (h' a ha).2.trans (h a ha).2⟩

theorem of_effects {K : Key → Prop}
    {P : Address → AddressInfo → AddressInfo → Prop} (h : Effects K P s s')
    (hK : ∀ a, ¬K (.addrObject a)) (hP : ∀ a info info', P a info info' → D a) :
    Outside D s s' := fun a ha =>
  ⟨h.kv_eq (hK a), h.infoOf_eq hK a id fun _ _ hp => absurd (hP a _ _ hp) ha⟩

theorem of_keeps {K : Key → Prop} (h : Keeps K s s')
    (hK : ∀ a, K (.addrObject a) → D a) : Outside D s s' := fun a ha =>
  ⟨h.kv _ fun hkey => ha (hK a hkey), h.info a⟩

end Outside

/-! ## The common end of the operations -/

/-- The keys of the last phases: the `20_` records of `D` and the two counters. -/
def Key.OfTail (D : Address → Prop) : Key → Prop
  | .addrObject a => D a
  | .unconfirmedTxsSize | .unconfirmedTxsCount => True
  | _ => False

section Tail

variable {cfg : Config} {E : Fault → Prop} {s : ParserState}

theorem write_addrObject_infoOf {address : Address}
    (hcached : (s.cachedInfo address).isSome) (val : Option AddressInfo)
    (other : Address) :
    (s.write ⟨.addrObject address, val⟩).infoOf other = s.infoOf other := by
  unfold ParserState.infoOf ParserState.storedInfo
  rw [ParserState.write_cachedInfo]
  by_cases heq : other = address
  · obtain ⟨info, hinfo⟩ := Option.isSome_iff_exists.mp hcached
    simp [heq, hinfo]
  · rw [s.write_kv_of_ne _ (by simpa using heq)]

theorem flushAddressInfo_spec (hcfg : cfg.kMaxCacheCount = none)
    (balance : BalanceMap) :
    wp (flushAddressInfo cfg balance) (fun _ s' =>
      Keeps (Key.OfTail (· ∈ balance.keys)) s s' ∧
      (∀ a ∈ balance.keys, s'.kv (.addrObject a) = some (s.infoOf a)) ∧
      s'.unconfirmedTxsCount = s.unconfirmedTxsCount ∧
      s'.unconfirmedTxsSize = s.unconfirmedTxsSize) E s := by
  refine wp_forM (fun done s' =>
    Keeps (Key.OfTail (· ∈ balance.keys)) s s' ∧
    (∀ a ∈ BalanceMap.keys done, s'.kv (.addrObject a) = some (s.infoOf a)) ∧
    s'.unconfirmedTxsCount = s.unconfirmedTxsCount ∧
    s'.unconfirmedTxsSize = s.unconfirmedTxsSize)
    ⟨.refl s, by simp [BalanceMap.keys], rfl, rfl⟩ ?_
  rintro done ⟨address, d⟩ rest s' hxs ⟨hkeeps, hdone, hcount, hsize⟩
  have hmem : address ∈ balance.keys := by simp [BalanceMap.keys, hxs]
  simp only [wp_bind, wp_getAddressInfo hcfg, wp_kvSet]
  have hwrite := write_addrObject_infoOf (s'.cached_touch address)
    (some (s'.infoOf address))
  refine ⟨hkeeps.trans ⟨fun key hkey => ?_, fun a => ?_⟩, fun a ha => ?_, ?_, ?_⟩
  · rw [ParserState.write_kv_of_ne, ParserState.touch_kv]
    rintro rfl
    exact hkey hmem
  · rw [hwrite, ParserState.touch_infoOf]
  · rw [← hkeeps.info]
    by_cases heq : a = address
    · subst heq
      exact ParserState.write_kv_self ..
    · rw [ParserState.write_kv_of_ne _ _ (by simpa using heq),
        ParserState.touch_kv, hkeeps.info]
      exact hdone a (by simpa [BalanceMap.keys, heq] using ha)
  · simpa using hcount
  · simpa using hsize

theorem writeNotificationLogs_spec (balance : BalanceMap) (txLog2 : TxLog2) :
    wp (writeNotificationLogs cfg balance txLog2) (fun _ s' =>
      s'.kv = s.kv ∧ (∀ a, s'.infoOf a = s.infoOf a) ∧
      s'.unconfirmedTxsCount = s.unconfirmedTxsCount ∧
      s'.unconfirmedTxsSize = s.unconfirmedTxsSize) E s := by
  simp only [writeNotificationLogs, wp_bind, wp_get]
  refine wp_ite (fun _ => ?_) (fun _ => ?_)
  · exact ⟨rfl, fun _ => rfl, rfl, rfl⟩
  · exact ⟨rfl, fun _ => rfl, rfl, rfl⟩

theorem tail_spec (hcfg : cfg.kMaxCacheCount = none) (balance : BalanceMap)
    (txLog2 : TxLog2) (count size : Int) :
    wp (do
        flushAddressInfo cfg balance
        updateUnconfirmedTxPool count size
        writeNotificationLogs cfg balance txLog2) (fun _ s' =>
      Keeps (Key.OfTail (· ∈ balance.keys)) s s' ∧
      (∀ a ∈ balance.keys, s'.kv (.addrObject a) = some (s.infoOf a)) ∧
      s'.unconfirmedTxsCount = s.unconfirmedTxsCount + count ∧
      s'.unconfirmedTxsSize = s.unconfirmedTxsSize + size ∧
      s'.kv .unconfirmedTxsCount = some s'.unconfirmedTxsCount ∧
      s'.kv .unconfirmedTxsSize = some s'.unconfirmedTxsSize) E s := by
  refine wp_seq (flushAddressInfo_spec hcfg balance) ?_
  rintro _ s1 ⟨hkeeps, hflush, hcount, hsize⟩
  rw [wp_bind]
  simp only [updateUnconfirmedTxPool, wp_bind, wp_modify, wp_get, wp_kvSet]
  refine wp_mono (writeNotificationLogs_spec balance txLog2) ?_ fun _ he => he
  rintro _ s2 ⟨hkv, hinfo, hcount2, hsize2⟩
  simp only [ParserState.write_unconfirmedTxsCount,
    ParserState.write_unconfirmedTxsSize] at hcount2 hsize2
  refine ⟨hkeeps.trans ⟨fun key hkey => ?_, fun a => ?_⟩, fun a ha => ?_,
    by rw [hcount2, hcount], by rw [hsize2, hsize], ?_, ?_⟩
  · rw [hkv, ParserState.write_kv_of_ne, ParserState.write_kv_of_ne]
    · rintro rfl
      exact hkey trivial
    · rintro rfl
      exact hkey trivial
  · rw [hinfo, ParserState.write_infoOf _ _ _ (by simp),
      ParserState.write_infoOf _ _ _ (by simp)]
    rfl
  · rw [hkv, ParserState.write_kv_of_ne _ _ (by simp),
      ParserState.write_kv_of_ne _ _ (by simp)]
    exact hflush a ha
  · rw [hkv, hcount2, ParserState.write_kv_of_ne _ _ (by simp),
      ParserState.write_kv_self]
  · rw [hkv, hsize2, ParserState.write_kv_self]

end Tail

end ExplorerKV.Parser

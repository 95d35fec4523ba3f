import ExplorerKV.Foundation.Runs
import ExplorerKV.Parser.TxOps

/-!
# Rules for the primitives

What each access to the store and to the address cache does to the state.
`infoOf s address` is the address's current information: that of the cache
entry, else that of the `20_` record, else that of an unknown address.  With a
cache that never evicts, `getAddressInfo` returns it and leaves it unchanged.
-/

namespace ExplorerKV.Parser

open Bitcoin Foundation

@[simp] theorem wp_assertion {Q : Unit → ParserState → Prop} {E : Fault → Prop}
    {s : ParserState} (site : AssertSite) (c : Prop) [Decidable c] :
    wp (assertion site c) Q E s ↔ (c → Q () s) ∧ (¬c → E (.assertion site)) := by
  unfold assertion
  by_cases hc : c <;> simp [hc]

section StoreRules

variable {E : Fault → Prop} {s : ParserState} (key : Key)

@[simp] theorem wp_kvSet {Q : Unit → ParserState → Prop} (val : key.Val) :
    wp (kvSet key val) Q E s ↔ Q () (s.write ⟨key, some val⟩) := Iff.rfl

@[simp] theorem wp_kvDel {Q : Unit → ParserState → Prop} :
    wp (kvDel key) Q E s ↔ Q () (s.write ⟨key, none⟩) := Iff.rfl

@[simp] theorem wp_kvGetMayNotExist {Q : Option key.Val → ParserState → Prop} :
    wp (kvGetMayNotExist key) Q E s ↔ Q (s.kv key) s := Iff.rfl

theorem wp_kvGet_of {Q : key.Val → ParserState → Prop}
    (hsome : ∀ val, s.kv key = some val → Q val s)
    (hnone : s.kv key = none → E (.notFoundKey key)) : wp (kvGet key) Q E s := by
  rw [kvGet, wp_bind, wp_kvGetMayNotExist]
  cases h : s.kv key with
  | some val => exact hsome val h
  | none => exact hnone h

theorem wp_kvGetUnchecked_of {Q : key.Val → ParserState → Prop}
    (hsome : ∀ val, s.kv key = some val → Q val s)
    (hnone : s.kv key = none → E .undefinedBehaviour) :
    wp (kvGetUnchecked key) Q E s := by
  rw [kvGetUnchecked, wp_bind, wp_kvGetMayNotExist]
  cases h : s.kv key with
  | some val => exact hsome val h
  | none => exact hnone h

end StoreRules

namespace ParserState

@[simp] theorem write_kv (s : ParserState) (w : KVWrite) :
    (s.write w).kv = s.kv.apply w := rfl

theorem write_kv_of_ne (s : ParserState) {key key' : Key} (val : Option key.Val)
    (h : key' ≠ key) : (s.write ⟨key, val⟩).kv key' = s.kv key' :=
  KVDB.apply_of_ne _ _ h

theorem write_kv_self (s : ParserState) (key : Key) (val : Option key.Val) :
    (s.write ⟨key, val⟩).kv key = val :=
  KVDB.apply_self ..

@[simp] theorem write_addrTxCache (s : ParserState) (w : KVWrite) :
    (s.write w).addrTxCache = s.addrTxCache := rfl

@[simp] theorem write_lastUseIdx (s : ParserState) (w : KVWrite) :
    (s.write w).lastUseIdx = s.lastUseIdx := rfl

@[simp] theorem write_unconfirmedTxsCount (s : ParserState) (w : KVWrite) :
    (s.write w).unconfirmedTxsCount = s.unconfirmedTxsCount := rfl

@[simp] theorem write_unconfirmedTxsSize (s : ParserState) (w : KVWrite) :
    (s.write w).unconfirmedTxsSize = s.unconfirmedTxsSize := rfl

/-! ## The cache as a function -/

def cachedInfo (s : ParserState) (address : Address) : Option AddressInfo :=
  (s.addrTxCache.lookup address).map (·.info)

def storedInfo (kv : KVDB) (address : Address) : AddressInfo :=
  (kv (.addrObject address)).getD AddressInfo.empty

def infoOf (s : ParserState) (address : Address) : AddressInfo :=
  (s.cachedInfo address).getD (storedInfo s.kv address)

def touch (s : ParserState) (address : Address) : ParserState :=
  match s.addrTxCache.lookup address with
  | some _ => s
  | none => { s with
      addrTxCache :=
        (address, ⟨storedInfo s.kv address, s.lastUseIdx⟩) :: s.addrTxCache
      lastUseIdx := s.lastUseIdx + 1 }

def put (s : ParserState) (address : Address) (info : AddressInfo) :
    ParserState :=
  { s with addrTxCache := updateCache address info s.addrTxCache }

@[simp] theorem touch_kv (s : ParserState) (address : Address) :
    (s.touch address).kv = s.kv := by
  unfold touch
  split <;> rfl

@[simp] theorem touch_unconfirmedTxsCount (s : ParserState) (address : Address) :
    (s.touch address).unconfirmedTxsCount = s.unconfirmedTxsCount := by
  unfold touch
  split <;> rfl

@[simp] theorem touch_unconfirmedTxsSize (s : ParserState) (address : Address) :
    (s.touch address).unconfirmedTxsSize = s.unconfirmedTxsSize := by
  unfold touch
  split <;> rfl

@[simp] theorem put_kv (s : ParserState) (address : Address)
    (info : AddressInfo) : (s.put address info).kv = s.kv := rfl

@[simp] theorem put_unconfirmedTxsCount (s : ParserState) (address : Address)
    (info : AddressInfo) :
    (s.put address info).unconfirmedTxsCount = s.unconfirmedTxsCount := rfl

@[simp] theorem put_unconfirmedTxsSize (s : ParserState) (address : Address)
    (info : AddressInfo) :
    (s.put address info).unconfirmedTxsSize = s.unconfirmedTxsSize := rfl

@[simp] theorem write_cachedInfo (s : ParserState) (w : KVWrite)
    (address : Address) : (s.write w).cachedInfo address = s.cachedInfo address :=
  rfl

theorem touch_cachedInfo (s : ParserState) (address other : Address) :
    (s.touch address).cachedInfo other =
      if other = address then some (s.infoOf address)
      else s.cachedInfo other := by
  unfold touch infoOf cachedInfo
  cases hlookup : s.addrTxCache.lookup address with
  | some entry =>
      by_cases heq : other = address
      · simp [heq, hlookup]
      · simp [heq]
  | none =>
      by_cases heq : other = address
      · simp [heq]
      · have hbeq : (other == address) = false := by simpa using heq
        simp [List.lookup_cons, hbeq, heq]

end ParserState

theorem lookup_updateCache (address other : Address) (info : AddressInfo)
    (cache : List (Address × CacheEntry)) :
    (updateCache address info cache).lookup other =
      if other = address then
        (cache.lookup other).map fun entry => { entry with info := info }
      else cache.lookup other := by
  induction cache with
  | nil => simp [updateCache]
  | cons entry cache ih =>
      obtain ⟨a, e⟩ := entry
      simp only [updateCache, List.map_cons] at ih ⊢
      by_cases ha : a = address
      · subst ha
        by_cases ho : other = a
        · simp [ho]
        · have hbeq : (other == a) = false := by simpa using ho
          rw [if_neg ho] at ih ⊢
          simp only [if_true, List.lookup_cons, hbeq]
          exact ih
      · by_cases ho : other = a
        · subst ho
          simp [ha]
        · have hbeq : (other == a) = false := by simpa using ho
          simp only [if_neg ha, List.lookup_cons, hbeq]
          exact ih

namespace ParserState

theorem put_cachedInfo (s : ParserState) (address other : Address)
    (info : AddressInfo) :
    (s.put address info).cachedInfo other =
      if other = address then (s.cachedInfo other).map fun _ => info
      else s.cachedInfo other := by
  unfold put cachedInfo
  rw [lookup_updateCache]
  by_cases heq : other = address <;> simp [heq, Function.comp_def]

@[simp] theorem touch_infoOf (s : ParserState) (address other : Address) :
    (s.touch address).infoOf other = s.infoOf other := by
  by_cases heq : other = address
  · subst heq
    simp [infoOf, touch_cachedInfo]
  · simp [infoOf, touch_cachedInfo, heq]

theorem touch_put_cachedInfo (s : ParserState) (address other : Address)
    (info : AddressInfo) :
    ((s.touch address).put address info).cachedInfo other =
      if other = address then some info else s.cachedInfo other := by
  rw [put_cachedInfo, touch_cachedInfo]
  by_cases heq : other = address <;> simp [heq]

/-- A write outside the `20_` family leaves every address's information. -/
theorem write_infoOf (s : ParserState) (key : Key) (val : Option key.Val)
    (h : ∀ address, key ≠ .addrObject address) (address : Address) :
    (s.write ⟨key, val⟩).infoOf address = s.infoOf address := by
  unfold infoOf storedInfo
  rw [write_cachedInfo, write_kv, KVDB.apply_of_ne _ _ (h address).symm]

end ParserState

section CacheRules

variable {cfg : Config} {E : Fault → Prop} {s : ParserState}

@[simp] theorem wp_putAddressInfo {Q : Unit → ParserState → Prop}
    (address : Address) (info : AddressInfo) :
    wp (putAddressInfo address info) Q E s ↔ Q () (s.put address info) := Iff.rfl

theorem wp_getAddressInfo {Q : AddressInfo → ParserState → Prop}
    (hcfg : cfg.kMaxCacheCount = none) (address : Address) :
    wp (getAddressInfo cfg address) Q E s ↔
      Q (s.infoOf address) (s.touch address) := by
  simp only [getAddressInfo, wp_bind, wp_get, hcfg, evictCache]
  unfold ParserState.touch ParserState.infoOf ParserState.cachedInfo
    ParserState.storedInfo
  cases hlookup : s.addrTxCache.lookup address with
  | some entry => simp
  | none => simp

end CacheRules

end ExplorerKV.Parser

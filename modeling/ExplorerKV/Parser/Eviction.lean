import ExplorerKV.Foundation.Lockstep
import ExplorerKV.Parser.Primitives

/-!
# Eviction from the address cache

`CacheShape` is the part of the cache that decides what is evicted: the cached
addresses with their `lastUseIdx_`, and the counter.  It moves with the
addresses an operation looks up, not with their information, so what a run
evicts is a function of the run.  `unflushed` are the addresses whose
information has changed since their `20_` record was last written.

`Mirrors` relates a state to one of a cache that never evicts.  It lasts as long
as no unflushed address is evicted.
-/

namespace ExplorerKV.Parser

open Bitcoin Foundation

/-- One use of `_getAddressInfo`: before a change, or to write the record. -/
inductive CacheAccess where
  | modify (address : Address)
  | flush (address : Address)
  deriving DecidableEq, Repr

def CacheAccess.address : CacheAccess → Address
  | .modify address | .flush address => address

structure CacheShape where
  entries : List (Address × Int)
  lastUseIdx : Int
  unflushed : List Address
  deriving DecidableEq, Repr

namespace CacheShape

def empty : CacheShape := ⟨[], 0, []⟩

def addresses (c : CacheShape) : List Address := c.entries.map Prod.fst

/-- The clearing pass of `_getAddressInfo`. -/
def evict (bound : Option Nat) (lastUseIdx : Int) (entries : List (Address × Int)) :
    List (Address × Int) :=
  match bound with
  | none => entries
  | some bound =>
      if entries.length > bound then
        entries.filter fun entry => entry.2 > lastUseIdx - (bound / 2 : Nat)
      else entries

def lookup (bound : Option Nat) (c : CacheShape) (address : Address) : CacheShape :=
  if address ∈ c.addresses then c
  else { c with
    entries := evict bound (c.lastUseIdx + 1) ((address, c.lastUseIdx) :: c.entries)
    lastUseIdx := c.lastUseIdx + 1 }

theorem lookup_unflushed (bound : Option Nat) (c : CacheShape) (address : Address) :
    (c.lookup bound address).unflushed = c.unflushed := by
  unfold lookup
  split <;> rfl

def next (bound : Option Nat) (c : CacheShape) (access : CacheAccess) : CacheShape :=
  match access with
  | .modify address =>
      { c.lookup bound address with unflushed := address :: c.unflushed }
  | .flush address =>
      { c.lookup bound address with unflushed := c.unflushed.filter (· ≠ address) }

def Keeps (bound : Option Nat) (c : CacheShape) (access : CacheAccess) : Prop :=
  ∀ a ∈ access.address :: c.unflushed, a ∈ (c.lookup bound access.address).addresses

instance (bound : Option Nat) (c : CacheShape) (access : CacheAccess) :
    Decidable (c.Keeps bound access) := inferInstanceAs (Decidable (∀ a ∈ _, _))

end CacheShape

def Config.unbounded (cfg : Config) : Config := { cfg with kMaxCacheCount := none }

/-! ## Caches as association lists -/

section Cache

variable {cache : List (Address × CacheEntry)}

def shapeEntries (cache : List (Address × CacheEntry)) : List (Address × Int) :=
  cache.map fun entry => (entry.1, entry.2.lastUseIdx)

theorem evict_shapeEntries (bound : Option Nat) (lastUseIdx : Int)
    (cache : List (Address × CacheEntry)) :
    CacheShape.evict bound lastUseIdx (shapeEntries cache) =
      shapeEntries (evictCache bound lastUseIdx cache) := by
  cases bound with
  | none => rfl
  | some bound =>
      simp only [CacheShape.evict, evictCache, shapeEntries, List.length_map,
        List.filter_map]
      split <;> rfl

theorem shapeEntries_updateCache (address : Address) (info : AddressInfo) :
    shapeEntries (updateCache address info cache) = shapeEntries cache := by
  unfold shapeEntries updateCache
  rw [List.map_map]
  refine List.map_congr_left fun entry _ => ?_
  dsimp only [Function.comp_apply]
  split <;> rfl

theorem lookup_isSome_iff (address : Address) :
    (cache.lookup address).isSome ↔ address ∈ (shapeEntries cache).map Prod.fst := by
  induction cache with
  | nil => simp [shapeEntries]
  | cons entry rest ih =>
      obtain ⟨a, e⟩ := entry
      simp only [shapeEntries, List.map_cons, List.mem_cons] at ih ⊢
      rw [← ih]
      by_cases heq : address = a
      · simp [heq]
      · have hbeq : (address == a) = false := by simpa using heq
        simp [List.lookup_cons, hbeq, heq]

theorem lookup_of_sublist {cache' : List (Address × CacheEntry)}
    (hsub : cache'.Sublist cache) (hnodup : (cache.map Prod.fst).Nodup)
    {address : Address} {entry : CacheEntry} (h : cache'.lookup address = some entry) :
    cache.lookup address = some entry := by
  induction hsub with
  | slnil => exact h
  | @cons l₁ l₂ x hsub ih =>
      obtain ⟨hx, hrest⟩ := List.nodup_cons.mp hnodup
      have hlookup := ih hrest h
      have hne : address ≠ x.1 := by
        rintro rfl
        refine hx ?_
        have := (lookup_isSome_iff x.1).mp (by rw [hlookup]; rfl)
        simpa [shapeEntries] using this
      rw [List.lookup_cons, show (address == x.1) = false by simpa using hne]
      exact hlookup
  | @cons_cons l₁ l₂ x hsub ih =>
      rw [List.lookup_cons] at h ⊢
      cases hbeq : address == x.1 with
      | true => simpa [hbeq] using h
      | false =>
          rw [hbeq] at h
          exact ih (List.nodup_cons.mp hnodup).2 h

theorem evictCache_sublist (bound : Option Nat) (lastUseIdx : Int) :
    (evictCache bound lastUseIdx cache).Sublist cache := by
  cases bound with
  | none => exact List.Sublist.refl _
  | some bound =>
      unfold evictCache
      dsimp only
      split
      · exact List.filter_sublist
      · exact List.Sublist.refl _

end Cache

/-! ## States that mirror each other -/

def ParserState.withoutCache (s : ParserState) : ParserState :=
  { s with addrTxCache := [], lastUseIdx := 0 }

/-- `s` has a cache of shape `c`, and `t` one that has never evicted. -/
structure Mirrors (c : CacheShape) (s t : ParserState) : Prop where
  outside : s.withoutCache = t.withoutCache
  entries : shapeEntries s.addrTxCache = c.entries
  lastUseIdx : s.lastUseIdx = c.lastUseIdx
  nodup : c.addresses.Nodup
  info : ∀ a, s.infoOf a = t.infoOf a
  clean : ∀ a, a ∉ c.unflushed → s.infoOf a = ParserState.storedInfo s.kv a
  cached : ∀ a, a ∈ c.addresses → (t.cachedInfo a).isSome

namespace Mirrors

variable {c : CacheShape} {s t : ParserState}

theorem initial : Mirrors .empty .initial .initial :=
  ⟨rfl, rfl, rfl, List.nodup_nil, fun _ => rfl, fun _ _ => rfl, nofun⟩

theorem kv_of_outside {s t : ParserState} (h : s.withoutCache = t.withoutCache) :
    s.kv = t.kv := by
  change s.withoutCache.kv = t.withoutCache.kv
  rw [h]

theorem kv (h : Mirrors c s t) : s.kv = t.kv := kv_of_outside h.outside

theorem cached_iff (h : Mirrors c s t) (a : Address) :
    (s.cachedInfo a).isSome ↔ a ∈ c.addresses := by
  rw [ParserState.cachedInfo, Option.isSome_map, lookup_isSome_iff, h.entries]
  rfl

/-- A change of the state that leaves the cache and the `20_` records alone. -/
theorem step (h : Mirrors c s t) {s' t' : ParserState}
    (houtside : s'.withoutCache = t'.withoutCache)
    (hcache : s'.addrTxCache = s.addrTxCache) (hidx : s'.lastUseIdx = s.lastUseIdx)
    (hcache' : t'.addrTxCache = t.addrTxCache)
    (hstored : ∀ a, s'.kv (.addrObject a) = s.kv (.addrObject a)) : Mirrors c s' t' := by
  have hkv := kv_of_outside houtside
  have hinfo : ∀ a, s'.infoOf a = s.infoOf a := fun a => by
    unfold ParserState.infoOf ParserState.cachedInfo ParserState.storedInfo
    rw [hcache, hstored]
  have hinfo' : ∀ a, t'.infoOf a = t.infoOf a := fun a => by
    unfold ParserState.infoOf ParserState.cachedInfo ParserState.storedInfo
    rw [hcache', ← hkv, hstored, h.kv]
  refine ⟨houtside, hcache ▸ h.entries, hidx ▸ h.lastUseIdx, h.nodup, fun a => ?_,
    fun a ha => ?_, fun a ha => ?_⟩
  · rw [hinfo, hinfo', h.info]
  · rw [hinfo, h.clean a ha, ParserState.storedInfo, ParserState.storedInfo, hstored]
  · rw [ParserState.cachedInfo, hcache']
    exact h.cached a ha

theorem write (h : Mirrors c s t) (key : Key) (val : Option key.Val)
    (hkey : ∀ a, key ≠ .addrObject a) :
    Mirrors c (s.write ⟨key, val⟩) (t.write ⟨key, val⟩) :=
  h.step (congrArg (ParserState.write · ⟨key, val⟩) h.outside) rfl rfl rfl fun a =>
    s.write_kv_of_ne val (hkey a).symm

theorem put_infoOf {s : ParserState} {a : Address} (ha : (s.cachedInfo a).isSome)
    (info : AddressInfo) (b : Address) :
    (s.put a info).infoOf b = if b = a then info else s.infoOf b := by
  obtain ⟨old, hold⟩ := Option.isSome_iff_exists.mp ha
  unfold ParserState.infoOf
  rw [ParserState.put_cachedInfo]
  by_cases hb : b = a
  · simp [hb, hold]
  · simp [hb]

theorem put (h : Mirrors c s t) {a : Address} (ha : a ∈ c.addresses) (info : AddressInfo) :
    Mirrors { c with unflushed := a :: c.unflushed } (s.put a info) (t.put a info) where
  outside := h.outside
  entries := (shapeEntries_updateCache a info).trans h.entries
  lastUseIdx := h.lastUseIdx
  nodup := h.nodup
  info b := by
    rw [put_infoOf ((h.cached_iff a).mpr ha), put_infoOf (h.cached a ha), h.info]
  clean b hb := by
    obtain ⟨hne, hb⟩ := not_or.mp (mt List.mem_cons.mpr hb)
    rw [put_infoOf ((h.cached_iff a).mpr ha), if_neg hne]
    exact h.clean b hb
  cached b hb := by
    have hcached := h.cached b hb
    rw [ParserState.put_cachedInfo]
    split
    · rwa [Option.isSome_map]
    · exact hcached

theorem write_addrObject_infoOf {s : ParserState} {a : Address}
    (ha : (s.cachedInfo a).isSome) (info : AddressInfo) (b : Address) :
    (s.write ⟨.addrObject a, some info⟩).infoOf b = s.infoOf b := by
  by_cases hb : b = a
  · obtain ⟨old, hold⟩ := Option.isSome_iff_exists.mp ha
    unfold ParserState.infoOf
    rw [ParserState.write_cachedInfo, hb, hold]
    rfl
  · unfold ParserState.infoOf ParserState.storedInfo
    rw [ParserState.write_cachedInfo, ParserState.write_kv_of_ne]
    rintro ⟨⟩
    exact hb rfl

/-- Writing the `20_` record of an address from both caches. -/
theorem flush (h : Mirrors c s t) {a : Address} (ha : a ∈ c.addresses) :
    Mirrors { c with unflushed := c.unflushed.filter (· ≠ a) }
      (s.write ⟨.addrObject a, some (s.infoOf a)⟩)
      (t.write ⟨.addrObject a, some (s.infoOf a)⟩) where
  outside := congrArg (ParserState.write · ⟨.addrObject a, some (s.infoOf a)⟩) h.outside
  entries := h.entries
  lastUseIdx := h.lastUseIdx
  nodup := h.nodup
  info b := by
    rw [write_addrObject_infoOf ((h.cached_iff a).mpr ha),
      write_addrObject_infoOf (h.cached a ha), h.info]
  clean b hb := by
    rw [write_addrObject_infoOf ((h.cached_iff a).mpr ha), ParserState.storedInfo]
    by_cases heq : b = a
    · rw [heq, ParserState.write_kv_self]
      rfl
    · rw [s.write_kv_of_ne _ (by rintro ⟨⟩; exact heq rfl)]
      exact h.clean b fun hmem => hb (by simp [hmem, heq])
  cached := h.cached

end Mirrors

/-! ## Lookups -/

section Lookup

variable {cfg : Config} {c : CacheShape} {s t : ParserState}

theorem getAddressInfo_unbounded (address : Address) :
    getAddressInfo cfg.unbounded address t = .ok (t.infoOf address, t.touch address) :=
  run_of_wp ((wp_getAddressInfo (by rfl) address).mpr ⟨rfl, rfl⟩)

theorem touch_withoutCache (address : Address) :
    (t.touch address).withoutCache = t.withoutCache := by
  unfold ParserState.touch
  split <;> rfl

def ParserState.insertCache (bound : Option Nat) (s : ParserState) (address : Address) :
    ParserState :=
  { s with
    addrTxCache := evictCache bound (s.lastUseIdx + 1)
      ((address, ⟨ParserState.storedInfo s.kv address, s.lastUseIdx⟩) :: s.addrTxCache)
    lastUseIdx := s.lastUseIdx + 1 }

theorem Mirrors.insertCache (h : Mirrors c s t) {address : Address}
    (hmem : address ∉ c.addresses)
    (hkeeps : ∀ a ∈ address :: c.unflushed,
      a ∈ (c.lookup cfg.kMaxCacheCount address).addresses) :
    Mirrors (c.lookup cfg.kMaxCacheCount address)
      (s.insertCache cfg.kMaxCacheCount address) (t.touch address) := by
  have hlookup : (c.lookup cfg.kMaxCacheCount address).entries =
      shapeEntries (s.insertCache cfg.kMaxCacheCount address).addrTxCache := by
    rw [CacheShape.lookup, if_neg hmem, ← h.lastUseIdx, ← h.entries]
    exact evict_shapeEntries _ _ ((address, ⟨_, _⟩) :: s.addrTxCache)
  have hkeys : (s.addrTxCache.map Prod.fst) = c.addresses := by
    rw [CacheShape.addresses, ← h.entries, shapeEntries, List.map_map]
    rfl
  have hsub : (s.insertCache cfg.kMaxCacheCount address).addrTxCache.Sublist
      ((address, ⟨ParserState.storedInfo s.kv address, s.lastUseIdx⟩) :: s.addrTxCache) :=
    evictCache_sublist ..
  have hnodup : (((address, CacheEntry.mk (ParserState.storedInfo s.kv address)
      s.lastUseIdx) :: s.addrTxCache).map Prod.fst).Nodup := by
    rw [List.map_cons, hkeys]
    exact List.nodup_cons.mpr ⟨hmem, h.nodup⟩
  have hmem_iff : ∀ a, a ∈ (c.lookup cfg.kMaxCacheCount address).addresses ↔
      ((s.insertCache cfg.kMaxCacheCount address).addrTxCache.lookup a).isSome := by
    intro a
    rw [lookup_isSome_iff, ← hlookup]
    rfl
  have huncached : s.infoOf address = ParserState.storedInfo s.kv address := by
    cases hcached : s.cachedInfo address with
    | none => rw [ParserState.infoOf, hcached]; rfl
    | some info => exact absurd ((h.cached_iff address).mp (by rw [hcached]; rfl)) hmem
  have hinfo : ∀ b, (s.insertCache cfg.kMaxCacheCount address).infoOf b = s.infoOf b := by
    intro b
    cases hb : (s.insertCache cfg.kMaxCacheCount address).addrTxCache.lookup b with
    | some entry =>
        have hold := lookup_of_sublist hsub hnodup hb
        have hnew : (s.insertCache cfg.kMaxCacheCount address).infoOf b = entry.info := by
          rw [ParserState.infoOf, ParserState.cachedInfo, hb]
          rfl
        rw [hnew]
        by_cases heq : b = address
        · subst heq
          rw [List.lookup_cons_self] at hold
          rw [← Option.some.inj hold, huncached]
        · rw [List.lookup_cons, show (b == address) = false by simpa using heq] at hold
          change s.addrTxCache.lookup b = some entry at hold
          rw [ParserState.infoOf, ParserState.cachedInfo, hold]
          rfl
    | none =>
        have hnotin : b ∉ (c.lookup cfg.kMaxCacheCount address).addresses := by
          rw [hmem_iff, hb]
          simp
        have hclean := h.clean b fun hb' => hnotin (hkeeps b (by simp [hb']))
        rw [hclean, ParserState.infoOf, ParserState.cachedInfo, hb]
        rfl
  refine ⟨?_, hlookup.symm, ?_, ?_, fun b => ?_, fun b hb => ?_, fun b hb => ?_⟩
  · rw [touch_withoutCache, ← h.outside]
    rfl
  · rw [CacheShape.lookup, if_neg hmem, ← h.lastUseIdx]
    rfl
  · have hnodup' := (hsub.map Prod.fst).nodup hnodup
    rw [CacheShape.addresses, hlookup, shapeEntries, List.map_map]
    exact hnodup'
  · rw [hinfo, ParserState.touch_infoOf, h.info]
  · rw [hinfo]
    refine h.clean b fun hb' => hb ?_
    rw [CacheShape.lookup, if_neg hmem]
    exact hb'
  · rw [ParserState.touch_cachedInfo]
    split
    · rfl
    · rename_i hne
      have hlookup' := (hmem_iff b).mp hb
      obtain ⟨entry, hentry⟩ := Option.isSome_iff_exists.mp hlookup'
      have hold := lookup_of_sublist hsub hnodup hentry
      rw [List.lookup_cons, show (b == address) = false by simpa using hne] at hold
      change s.addrTxCache.lookup b = some entry at hold
      refine h.cached b ((h.cached_iff b).mp ?_)
      rw [ParserState.cachedInfo, hold]
      rfl

/-- `_getAddressInfo` in a cache that keeps what it must, next to one that keeps all. -/
theorem getAddressInfo_lockstep (h : Mirrors c s t) {address : Address}
    (hkeeps : ∀ a ∈ address :: c.unflushed,
      a ∈ (c.lookup cfg.kMaxCacheCount address).addresses) :
    Lockstep (fun info s' t' => Mirrors (c.lookup cfg.kMaxCacheCount address) s' t' ∧
        info = s'.infoOf address)
      (getAddressInfo cfg address) (getAddressInfo cfg.unbounded address) s t := by
  by_cases hmem : address ∈ c.addresses
  · have hlookup : c.lookup cfg.kMaxCacheCount address = c := if_pos hmem
    obtain ⟨info, hinfo⟩ := Option.isSome_iff_exists.mp ((h.cached_iff address).mpr hmem)
    obtain ⟨entry, hentry, hentryInfo⟩ := Option.map_eq_some_iff.mp hinfo
    obtain ⟨entry', hentry'⟩ := Option.isSome_iff_exists.mp
      (Option.isSome_map.symm.trans (h.cached address hmem))
    have hrun : getAddressInfo cfg address s = .ok (s.infoOf address, s) := by
      refine run_of_wp ?_
      simp only [getAddressInfo, wp_bind, wp_get, hentry, wp_pure, and_true]
      rw [ParserState.infoOf, hinfo, ← hentryInfo]
      rfl
    have htouch : t.touch address = t := by
      rw [ParserState.touch, hentry']
    refine .ok hrun ((getAddressInfo_unbounded address).trans ?_) ⟨hlookup ▸ h, rfl⟩
    rw [htouch, h.info]
  · have hmirrors := h.insertCache hmem hkeeps
    obtain ⟨info, hinfo⟩ := Option.isSome_iff_exists.mp
      ((hmirrors.cached_iff address).mpr (hkeeps address (by simp)))
    obtain ⟨entry, hentry, hentryInfo⟩ := Option.map_eq_some_iff.mp hinfo
    have hnone : s.addrTxCache.lookup address = none := by
      cases hcached : s.addrTxCache.lookup address with
      | none => rfl
      | some entry =>
          exact absurd ((h.cached_iff address).mp (by
            rw [ParserState.cachedInfo, hcached]
            rfl)) hmem
    have hvalue : (s.insertCache cfg.kMaxCacheCount address).infoOf address = entry.info := by
      rw [ParserState.infoOf, hinfo, hentryInfo]
      rfl
    have hrun : getAddressInfo cfg address s =
        .ok (entry.info, s.insertCache cfg.kMaxCacheCount address) := by
      refine run_of_wp ?_
      simp only [getAddressInfo, wp_bind, wp_get, hnone, wp_set]
      have hlookup : (evictCache cfg.kMaxCacheCount (s.lastUseIdx + 1)
          ((address, ⟨(s.kv (.addrObject address)).getD AddressInfo.empty, s.lastUseIdx⟩) ::
            s.addrTxCache)).lookup address = some entry := hentry
      rw [hlookup]
      exact ⟨rfl, rfl⟩
    refine .ok hrun ((getAddressInfo_unbounded address).trans ?_) ⟨hmirrors, hvalue.symm⟩
    rw [← t.touch_infoOf address, ← hmirrors.info, hvalue]

end Lookup

end ExplorerKV.Parser

import ExplorerKV.Bitcoin.Base58
import ExplorerKV.KVDB.Range
import ExplorerKV.Logs.NotifyText

/-!
# The pages of an address

`APIHandler::address` lists the txs of an address, the newest first, from the
records `21_<address>_<index>`.  The request has a page number; the handler
computes the range of keys from the page size alone.
-/

namespace ExplorerKV.API

open Bitcoin Foundation KVDB
open Logs (atoi hexByte)

/-- `fbe::Address`, as far as the handler reads it. -/
structure AddressView where
  received : Int64
  sent : Int64
  txCount : Int32
  deriving DecidableEq

/-- What the handler writes to `resp.data_`; of each tx the record it is printed from. -/
structure AddressData where
  address : Bytes
  hash160 : Bytes
  n_tx : Int32
  total_received : Int64
  total_sent : Int64
  final_balance : Int64
  txs : List Bytes
  deriving DecidableEq

structure APIInOut where
  verbose : Int32
  pageNo : Int32
  pageSize : Int32
  errorNo : Int32
  errorMsg : String
  data : Option AddressData
  deriving DecidableEq

/-- The parameters as `cb_api` takes them from the request. -/
def cbApi (verbose page_no page_size : Option Bytes) : APIInOut :=
  let verbose := (verbose.map atoi).getD 1
  let verbose := if verbose ≤ 0 then 1 else verbose
  let pageNo := (page_no.map atoi).getD 1
  let pageNo := if pageNo ≤ 0 then 1 else pageNo
  let pageSize := (page_size.map atoi).getD 50
  let pageSize := if pageSize < 0 ∨ pageSize > 1000 then 50 else pageSize
  ⟨verbose, pageNo, pageSize, 0, "", none⟩

/-- `GetKeyID`, of a key id that is zero before the call -/
def keyIdOf (network : Network) (addr : CBitcoinAddress) : Bytes :=
  if addr.isValid network ∧ addr.vchVersion = base58PrefixOf network .pubkeyAddress then
    addr.vchData
  else List.replicate 20 0

/-- `uint160::ToString` -/
def uint160Text (id : Bytes) : Bytes :=
  id.reverse.flatMap fun b => [hexByte (b.toNat / 16), hexByte (b.toNat % 16)]

/-- `20_<address>` -/
def addressObjectKey (address : Bytes) : Bytes := [50, 48, 95] ++ address

/-- `21_<address>_` -/
def addressTxFront (address : Bytes) : Bytes := [50, 49, 95] ++ address ++ [95]

/-- `21_<address>_%010d` -/
def addressTxKey (address : Bytes) (index : Nat) : Bytes :=
  addressTxFront address ++ paddedText 10 index

section Handler

variable (Hash : Bytes → Digest) (network : Network) (viewOf : Bytes → AddressView) (db : Db)

/-- `getMayNotExist` of the address object; an empty value counts as absent. -/
def addressObject (address : Bytes) : Option AddressView :=
  match db.entries.lookup (addressObjectKey address) with
  | none => none
  | some kvValue => if kvValue.length ≠ 0 then some (viewOf kvValue) else none

def addressTxs (address : Bytes) (tx_count pageSize : Int32) : Except RangeFault (List Bytes) :=
  if tx_count > 0 then
    let endIdx := tx_count - 1 - pageSize
    let endIdx := if endIdx ≤ 0 then 0 else endIdx
    let keyStart := addressTxKey address (tx_count - 1).toNatClampNeg
    let keyEnd := addressTxKey address endIdx.toNatClampNeg
    match range db keyStart keyEnd pageSize 0 with
    | .error e => .error e
    | .ok found => if found.length > 0 then .ok (found.map Prod.snd) else .error .assertion
  else .ok []

def address (resp : APIInOut) (query : Option Bytes) : Except RangeFault APIInOut :=
  let address := query.getD []
  let addressObj := CBitcoinAddress.ofString Hash address
  if addressObj.isValid network then
    let fbAddress := addressObject viewOf db address
    let received := (fbAddress.map AddressView.received).getD 0
    let sent := (fbAddress.map AddressView.sent).getD 0
    let tx_count := (fbAddress.map AddressView.txCount).getD 0
    match addressTxs db address tx_count resp.pageSize with
    | .error e => .error e
    | .ok txs => .ok { resp with
        data := some {
          address := address
          hash160 := uint160Text (keyIdOf network addressObj)
          n_tx := tx_count
          total_received := received
          total_sent := sent
          final_balance := received - sent
          txs := txs } }
  else .ok { resp with errorNo := 201, errorMsg := "invalid address" }

end Handler

/-! ## What a page should hold -/

/-- The indices from `n - 1 - (k - 1) p` down to `max 0 (n - k p)`. -/
def pageIndices (n p k : Nat) : List Nat :=
  (List.range' (n - k * p) (n - (k - 1) * p - (n - k * p))).reverse

theorem pages_cover (n p pages : Nat) (h : n ≤ pages * p) :
    (List.range pages).flatMap (fun k => pageIndices n p (k + 1)) = (List.range n).reverse := by
  have hupto : ∀ pages, (List.range pages).flatMap (fun k => pageIndices n p (k + 1)) =
      (List.range' (n - pages * p) (n - (n - pages * p))).reverse := by
    intro pages
    induction pages with
    | zero => simp
    | succ pages ih =>
        have hlow : n - (pages + 1) * p + (n - pages * p - (n - (pages + 1) * p)) =
            n - pages * p := by
          rw [Nat.succ_mul]
          omega
        have hcount : n - pages * p - (n - (pages + 1) * p) + (n - (n - pages * p)) =
            n - (n - (pages + 1) * p) := by
          rw [Nat.succ_mul]
          omega
        rw [List.range_succ, List.flatMap_append, ih, List.flatMap_singleton, pageIndices,
          Nat.add_sub_cancel, ← List.reverse_append]
        congr 1
        rw [← hcount, ← List.range'_append, Nat.one_mul, hlow]
  rw [hupto, Nat.sub_eq_zero_of_le h, Nat.sub_zero, List.range_eq_range']

def pageOf (txs : List Bytes) (p k : Nat) : List Bytes :=
  (pageIndices txs.length p k).filterMap fun i => txs[i]?

theorem filterMap_range' {α : Type} (xs : List α) (start count : Nat) :
    (List.range' start count).filterMap (fun i => xs[i]?) = (xs.drop start).take count := by
  induction count generalizing start with
  | zero => simp
  | succ count ih =>
      rw [List.range'_succ, List.filterMap_cons, ih]
      cases h : xs[start]? with
      | none =>
          have hend : xs.length ≤ start := List.getElem?_eq_none_iff.mp h
          rw [List.drop_eq_nil_of_le hend, List.drop_eq_nil_of_le (Nat.le_succ_of_le hend)]
          simp
      | some x =>
          obtain ⟨hlt, rfl⟩ := List.getElem?_eq_some_iff.mp h
          rw [List.drop_eq_getElem_cons hlt, List.take_succ_cons]

theorem pageOf_one (txs : List Bytes) (p : Nat) :
    pageOf txs p 1 = (txs.drop (txs.length - p)).reverse := by
  rw [pageOf, pageIndices, List.filterMap_reverse, filterMap_range', List.take_of_length_le]
  · simp
  · simp

/-! ## The list of an address -/

def listed (address : Bytes) (txs : List Bytes) : List (Bytes × Bytes) :=
  txs.mapIdx fun index tx => (addressTxKey address index, tx)

/-- The store lists `txs` for an address, and counts them in its object. -/
structure Lists (viewOf : Bytes → AddressView) (db : Db) (address : Bytes) (txs : List Bytes) :
    Prop where
  count : ((addressObject viewOf db address).map AddressView.txCount).getD 0 =
    .ofNat txs.length
  small : txs.length < 2 ^ 31
  records : ∀ e, e ∈ listed address txs ↔ e ∈ db.entries ∧ addressTxFront address <+: e.1
  distinct : txs.Nodup
  text : ∀ e ∈ db.entries, NulFree e.1

section Pages

variable {viewOf : Bytes → AddressView} {db : Db} {address : Bytes} {txs : List Bytes}

theorem addressTxKey_lt {i j : Nat} (hi : i < 2 ^ 31) (hj : j < 2 ^ 31) :
    addressTxKey address i < addressTxKey address j ↔ i < j := by
  rw [addressTxKey, addressTxKey, append_lt_append_iff, paddedText_lt (by omega) (by omega)]

theorem addressTxKey_le {i j : Nat} (hi : i < 2 ^ 31) (hj : j < 2 ^ 31) :
    addressTxKey address i ≤ addressTxKey address j ↔ i ≤ j := by
  rw [← not_lt, ← not_lt, addressTxKey_lt hj hi]

theorem nulFree_addressTxKey (haddress : NulFree address) (i : Nat) :
    NulFree (addressTxKey address i) := by
  intro hmem
  rw [addressTxKey, addressTxFront, List.mem_append, List.mem_append, List.mem_append] at hmem
  rcases hmem with ((hmem | hmem) | hmem) | hmem
  · exact absurd hmem (by decide)
  · exact haddress hmem
  · exact absurd hmem (by decide)
  · obtain ⟨d, hd, hzero⟩ := List.mem_map.mp hmem
    have hlt : d < 10 := lt_of_mem_fixedDigits (by decide) hd
    have hvalue := toNat_digitByte hlt
    rw [hzero, UInt8.toNat_zero] at hvalue
    omega

theorem sorted_listed (hsmall : txs.length < 2 ^ 31) :
    (listed address txs).Pairwise fun e f => e.1 < f.1 := by
  rw [List.pairwise_iff_getElem]
  intro i j hi hj hlt
  rw [listed, List.length_mapIdx] at hi hj
  simp only [listed, List.getElem_mapIdx]
  exact (addressTxKey_lt (by omega) (by omega)).mpr hlt

theorem entries_between (h : Lists viewOf db address txs) {low : Nat} (hlow : low < txs.length) :
    (db.entries.filter fun e => addressTxKey address low ≤ e.1 ∧
      e.1 ≤ addressTxKey address (txs.length - 1)) = (listed address txs).drop low := by
  have hsmall := h.small
  apply db.filter_eq_of_mem ((sorted_listed h.small).sublist (List.drop_sublist _ _))
  intro e
  rw [decide_eq_true_iff]
  constructor
  · intro he
    refine ⟨((h.records e).mp (List.mem_of_mem_drop he)).1, ?_⟩
    obtain ⟨i, hi, rfl⟩ := List.mem_drop_iff_getElem.mp he
    have hlength : i + low < txs.length := by simpa [listed] using hi
    simp only [listed, List.getElem_mapIdx]
    constructor
    · exact (addressTxKey_le (by omega) (by omega)).mpr (by omega)
    · exact (addressTxKey_le (by omega) (by omega)).mpr (by omega)
  · rintro ⟨he, hfrom, hupto⟩
    have hmem : e ∈ listed address txs := (h.records e).mpr ⟨he, begins_of_between hfrom hupto⟩
    obtain ⟨i, hi, rfl⟩ := List.mem_mapIdx.mp hmem
    have hle : low ≤ i := (addressTxKey_le (by omega) (by omega)).mp hfrom
    refine List.mem_drop_iff_getElem.mpr ⟨i - low, ?_, ?_⟩
    · simp only [listed, List.length_mapIdx]
      omega
    · simp [listed, Nat.add_sub_of_le hle]

theorem slice_last (h : Lists viewOf db address txs) {low : Nat} (hlow : low < txs.length) :
    slice db (addressTxKey address (txs.length - 1)) (addressTxKey address low) =
      ((listed address txs).drop low).reverse := by
  have hsmall := h.small
  have horder := @addressTxKey_le address (txs.length - 1) low (by omega) (by omega)
  by_cases hlast : low = txs.length - 1
  · have hone : ((listed address txs).drop low).length = 1 := by
      rw [List.length_drop, listed, List.length_mapIdx]
      omega
    obtain ⟨e, he⟩ := List.length_eq_one_iff.mp hone
    have hbetween := entries_between h hlow
    rw [he] at hbetween
    rw [slice, if_pos (horder.mpr hlast.ge), he, List.reverse_singleton, ← hbetween, hlast]
  · rw [slice, if_neg fun hle => hlast (by have := horder.mp hle; omega), entries_between h hlow]

theorem range_last (h : Lists viewOf db address txs) (haddress : NulFree address) {low : Nat}
    (hlow : low < txs.length) {limit : Int32} (hlimit : 1 ≤ limit) :
    range db (addressTxKey address (txs.length - 1)) (addressTxKey address low) limit 0 =
      .ok (((listed address txs).drop low).reverse.take limit.toNatClampNeg) := by
  have hsmall := h.small
  have hlast : (addressTxKey address (txs.length - 1), txs[txs.length - 1]) ∈
      listed address txs :=
    List.mem_mapIdx.mpr ⟨txs.length - 1, by omega, rfl⟩
  have hexact := @rangeExact_iff_of_start db _ _ _ _ h.text (nulFree_addressTxKey haddress _)
    (nulFree_addressTxKey haddress low) hlimit (Int32.le_refl 0)
    (.inr ⟨_, ((h.records _).mp hlast).1, le_refl (addressTxKey address (txs.length - 1))⟩)
  rw [slice_last h hlow] at hexact
  have hshort : ((listed address txs).drop low).reverse.length < 2 ^ 31 := by
    rw [List.length_reverse, List.length_drop, listed, List.length_mapIdx]
    omega
  have hrange := hexact.mpr (lt_of_le_of_lt (min_le_left _ _) hshort)
  rw [RangeExact, slice_last h hlow] at hrange
  exact hrange

theorem map_snd_listed : (listed address txs).map Prod.snd = txs := by
  apply List.ext_getElem
  · simp [listed]
  · intro i hi hi'
    simp [listed]

theorem addressTxs_eq (h : Lists viewOf db address txs) (haddress : NulFree address)
    {pageSize : Int32} {p : Nat} (hsize : pageSize.toInt = p) (hp : 1 ≤ p) (hp' : p ≤ 1000) :
    addressTxs db address (.ofNat txs.length) pageSize = .ok (pageOf txs p 1) := by
  have hsmall := h.small
  have hcount : (Int32.ofNat txs.length).toInt = txs.length :=
    Int32.toInt_ofNat_of_lt hsmall
  have hpos : Int32.ofNat txs.length > 0 ↔ txs.length ≠ 0 := by
    rw [gt_iff_lt, Int32.lt_iff_toInt_lt, hcount, Int32.toInt_zero]
    omega
  rw [addressTxs, pageOf_one]
  by_cases hempty : txs.length = 0
  · have hnone : ¬Int32.ofNat txs.length > 0 := fun hgt => hpos.mp hgt hempty
    rw [if_neg hnone, List.eq_nil_of_length_eq_zero hempty, List.drop_nil]
    rfl
  · rw [if_pos (hpos.mpr hempty)]
    have hlast : (Int32.ofNat txs.length - 1).toInt = txs.length - 1 := by
      rw [Int32.toInt_sub, hcount, Int32.toInt_one]
      exact Int.bmod_eq_of_le (by omega) (by omega)
    have hend : (Int32.ofNat txs.length - 1 - pageSize).toInt = txs.length - 1 - p := by
      rw [Int32.toInt_sub, hlast, hsize]
      exact Int.bmod_eq_of_le (by omega) (by omega)
    have hlow : (if Int32.ofNat txs.length - 1 - pageSize ≤ 0 then 0
        else Int32.ofNat txs.length - 1 - pageSize).toNatClampNeg = txs.length - 1 - p := by
      split
      · next hle =>
          rw [Int32.le_iff_toInt_le, hend, Int32.toInt_zero] at hle
          exact (Nat.sub_eq_zero_of_le (by omega)).symm
      · rw [Int32.toNatClampNeg, hend]
        omega
    have hfirst : (Int32.ofNat txs.length - 1).toNatClampNeg = txs.length - 1 := by
      rw [Int32.toNatClampNeg, hlast]
      omega
    have hlimit : 1 ≤ pageSize := by
      rw [Int32.le_iff_toInt_le, hsize, Int32.toInt_one]
      omega
    have hlimit' : pageSize.toNatClampNeg = p := by
      rw [Int32.toNatClampNeg, hsize]
      rfl
    have hinside : txs.length - 1 - p < txs.length := by omega
    have hrange := range_last h haddress hinside hlimit
    rw [hlimit'] at hrange
    dsimp only
    rw [hfirst, hlow, hrange]
    have hsome : (((listed address txs).drop (txs.length - 1 - p)).reverse.take p).length > 0 := by
      rw [List.length_take, List.length_reverse, List.length_drop, listed, List.length_mapIdx]
      omega
    have hnewest : txs.length - 1 - p + (txs.length - (txs.length - 1 - p) - p) =
        txs.length - p := by
      omega
    dsimp only
    rw [if_pos hsome, List.map_take, List.map_reverse, List.map_drop, map_snd_listed,
      List.take_reverse, List.length_drop, List.drop_drop, hnewest]

theorem pageSize_cbApi (verbose page_no : Option Bytes) {p : Nat} (hp' : p ≤ 1000) :
    (cbApi verbose page_no (some (decimalText p))).pageSize.toInt = p := by
  have htext : atoi (intText p) = .ofInt p :=
    Logs.atoi_intText_of_lt (by omega) (by omega)
  change atoi (decimalText p) = .ofInt p at htext
  have hvalue : (Int32.ofInt p).toInt = p := Int32.toInt_ofInt_of_le (by omega) (by omega)
  have hkept : ¬(Int32.ofInt p < 0 ∨ Int32.ofInt p > 1000) := by
    have hlow : (0 : Int32).toInt = 0 := by decide
    have hhigh : (1000 : Int32).toInt = 1000 := by decide
    rw [gt_iff_lt, Int32.lt_iff_toInt_lt, Int32.lt_iff_toInt_lt, hvalue, hlow, hhigh]
    omega
  simp only [cbApi, Option.map_some, Option.getD_some, htext, if_neg hkept, hvalue]

/-- The page that a request asks for is the page that it gets. -/
def PageExact (Hash : Bytes → Digest) (network : Network) (viewOf : Bytes → AddressView) (db : Db)
    (addr : Bytes) (txs : List Bytes) (verbose : Option Bytes) (p k : Nat) : Prop :=
  (API.address Hash network viewOf db
      (cbApi verbose (some (decimalText k)) (some (decimalText p))) (some addr)).map
    (fun resp => resp.data.map AddressData.txs) = .ok (some (pageOf txs p k))

theorem address_first (Hash : Bytes → Digest) (network : Network)
    (h : Lists viewOf db address txs) (haddress : NulFree address)
    (hvalid : (CBitcoinAddress.ofString Hash address).isValid network) (verbose : Option Bytes)
    {p : Nat} (hp : 1 ≤ p) (hp' : p ≤ 1000) (k : Nat) :
    (API.address Hash network viewOf db
        (cbApi verbose (some (decimalText k)) (some (decimalText p))) (some address)).map
      (fun resp => resp.data.map AddressData.txs) = .ok (some (pageOf txs p 1)) := by
  have hsize := pageSize_cbApi verbose (some (decimalText k)) hp'
  unfold API.address
  dsimp only [Option.getD_some]
  rw [if_pos hvalid, h.count, addressTxs_eq h haddress hsize hp hp']
  rfl

theorem pageOf_ne_first (h : txs.Nodup) (hne : txs ≠ []) {p k : Nat} (hp : 1 ≤ p) (hk : 2 ≤ k) :
    pageOf txs p 1 ≠ pageOf txs p k := by
  intro heq
  have hpos : 0 < txs.length := List.length_pos_iff.mpr hne
  have hlast : txs[txs.length - 1] ∈ pageOf txs p 1 := by
    rw [pageOf_one, List.mem_reverse, List.mem_drop_iff_getElem]
    exact ⟨min p txs.length - 1, by omega, by congr 1; omega⟩
  rw [heq, pageOf, List.mem_filterMap] at hlast
  obtain ⟨i, hi, hsame⟩ := hlast
  obtain ⟨hlt, hsame⟩ := List.getElem?_eq_some_iff.mp hsame
  have hindex : i = txs.length - 1 := (List.Nodup.getElem_inj_iff h).mp hsame
  rw [pageIndices, List.mem_reverse, List.mem_range'_1] at hi
  have hskip : p ≤ (k - 1) * p := Nat.le_mul_of_pos_left p (by omega)
  omega

/-- A request gets its page exactly if it asks for the first one, or the list is empty. -/
theorem address_page_iff (Hash : Bytes → Digest) (network : Network)
    (viewOf : Bytes → AddressView) (db : Db) (address : Bytes) (txs : List Bytes)
    (h : Lists viewOf db address txs) (haddress : NulFree address)
    (hvalid : (CBitcoinAddress.ofString Hash address).isValid network) (verbose : Option Bytes)
    (p k : Nat) (hp : 1 ≤ p) (hp' : p ≤ 1000) (hk : 1 ≤ k) :
    PageExact Hash network viewOf db address txs verbose p k ↔ k = 1 ∨ txs = [] := by
  rw [PageExact, address_first Hash network h haddress hvalid verbose hp hp' k, Except.ok.injEq,
    Option.some.injEq]
  constructor
  · intro heq
    by_contra hnot
    rw [not_or] at hnot
    exact pageOf_ne_first h.distinct hnot.2 hp (by omega) heq
  · rintro (rfl | rfl)
    · rfl
    · simp [pageOf]

end Pages

/-! ## The second page of two -/

/-- The buffer of an `fbe::Address` with two txs. -/
def exampleAddressObject : Bytes :=
  [16, 0, 0, 0, 0, 0, 10, 0, 8, 0, 0, 0, 0, 0, 4, 0, 10, 0, 0, 0, 2, 0, 0, 0]

def exampleViewOf (value : Bytes) : AddressView :=
  if value = exampleAddressObject then ⟨0, 0, 2⟩ else ⟨0, 0, 0⟩

/-- The buffer of an `fbe::AddressTx` whose hash has 64 times the same digit. -/
def exampleAddressTx (digit : UInt8) : Bytes :=
  [12, 0, 0, 0, 8, 0, 8, 0, 0, 0, 4, 0, 8, 0, 0, 0, 4, 0, 0, 0, 64, 0, 0, 0] ++
    List.replicate 64 digit ++ [0, 0, 0, 0]

def exampleTxs : List Bytes := [exampleAddressTx 97, exampleAddressTx 98]

def exampleAddressDb : Db :=
  ⟨(addressObjectKey exampleAddress, exampleAddressObject) :: listed exampleAddress exampleTxs, by
    decide +kernel⟩

theorem begins_of_listed {address : Bytes} {txs : List Bytes} {e : Bytes × Bytes}
    (h : e ∈ listed address txs) : addressTxFront address <+: e.1 := by
  obtain ⟨i, hi, rfl⟩ := List.mem_mapIdx.mp h
  exact List.prefix_append _ _

theorem exampleAddressDb_lists :
    Lists exampleViewOf exampleAddressDb exampleAddress exampleTxs where
  count := by decide +kernel
  small := by decide
  records := by
    intro e
    constructor
    · intro he
      exact ⟨.tail _ he, begins_of_listed he⟩
    · rintro ⟨he, hbegins⟩
      rcases List.mem_cons.mp he with rfl | he
      · exact absurd hbegins (by decide +kernel)
      · exact he
  distinct := by decide +kernel
  text := by
    unfold NulFree
    decide +kernel

theorem address_page_iff_example :
    PageExact exampleHash .main exampleViewOf exampleAddressDb exampleAddress exampleTxs none 1 1 :=
  (address_page_iff exampleHash .main exampleViewOf exampleAddressDb exampleAddress exampleTxs
    exampleAddressDb_lists (by unfold NulFree; decide) (by decide +kernel) none 1 1 (by decide)
    (by decide) (by decide)).mpr (.inl rfl)

/-- The second page of size one repeats the first. -/
theorem second_page_repeats : ¬∀ (db : Db) (address : Bytes) (txs : List Bytes) (p k : Nat),
    Lists exampleViewOf db address txs → NulFree address →
      (CBitcoinAddress.ofString exampleHash address).isValid .main → 1 ≤ p → p ≤ 1000 → 1 ≤ k →
        PageExact exampleHash .main exampleViewOf db address txs none p k := by
  intro h
  have haddress : NulFree exampleAddress := by
    unfold NulFree
    decide
  have hvalid : (CBitcoinAddress.ofString exampleHash exampleAddress).isValid .main := by
    decide +kernel
  have hexact := h exampleAddressDb exampleAddress exampleTxs 1 2 exampleAddressDb_lists haddress
    hvalid (by decide) (by decide) (by decide)
  rw [PageExact, address_first exampleHash .main exampleAddressDb_lists haddress hvalid none
    (by decide) (by decide) 2, Except.ok.injEq, Option.some.injEq] at hexact
  exact pageOf_ne_first exampleAddressDb_lists.distinct (by simp [exampleTxs]) (by decide)
    (by decide) hexact

end ExplorerKV.API

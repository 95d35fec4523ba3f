import ExplorerKV.Logs.Text

/-!
# The response to a get of several keys

`dbGetKeys` looks up all keys at once and puts the values one behind another
into `data`, with the position and the length of each beside it.  The schema
reserves the offset -1 for a key that is absent.
-/

namespace ExplorerKV.API

open Foundation Logs

structure APIResponse where
  data : Bytes
  length : List Int32
  offset : List Int32
  types : List String
  keys : List Bytes
  deriving DecidableEq

def APIResponse.empty : APIResponse := ⟨[], [], [], [], []⟩

/-- `gKeyTypes`; `none` is a null pointer. -/
def gKeyTypes : Int → Option String
  | 1 => some "Tx"
  | 2 => some "TxSpentBy"
  | 3 => some "UnconfirmedTx"
  | 11 => some "Block"
  | 20 => some "Address"
  | 21 => some "AddressTx"
  | 23 => some "AddressUnspent"
  | 24 => some "AddressUnspentIdx"
  | 30 => some "DoubleSpending"
  | 10 | 12 | 13 | 14 | 15 | 22 | 90 => some "string"
  | _ => none

/--
`KVDB::multiGet`: one value for each key, empty if the key is absent.  Its `Slice`s
point into copies of the keys that are gone by the time of the call; the copies
share the buffer of the key where `std::string` counts references, as here.
-/
def multiGet (kv : Bytes → Option Bytes) (keys : List Bytes) : List Bytes :=
  keys.map fun key => (kv key).getD []

def resize {α : Type} (xs : List α) (size : Nat) (value : α) : List α :=
  xs.take size ++ List.replicate (size - xs.length) value

/-- A round of the loop of `dbPut2Resp`. -/
def putValue (resp : APIResponse) (entry : (Bytes × Bytes) × Nat) : APIResponse :=
  let ((key, value), i) := entry
  { resp with
    types :=
      match gKeyTypes (atoi (key.take 2)).toInt with
      | some type => resp.types.set i type
      | none => resp.types
    offset := resp.offset.set i (Int32.ofNat resp.data.length)
    length := resp.length.set i (Int32.ofNat value.length)
    data := resp.data ++ value }

def dbPut2Resp (keys values : List Bytes) (resp : APIResponse) : APIResponse :=
  (keys.zip values).zipIdx.foldl putValue
    { resp with
      length := resize resp.length keys.length 0
      offset := resize resp.offset keys.length (-1)
      types := resize resp.types keys.length ""
      keys := keys }

/-- `dbGetKeys`; `none` is its assertion on the number of keys. -/
def dbGetKeys (kv : Bytes → Option Bytes) (keys : List Bytes) : Option APIResponse :=
  if keys.length = 0 then none
  else some (dbPut2Resp keys (multiGet kv keys) .empty)

/-! ## What the schema promises -/

/-- `data[offset, offset + length)`, if this lies inside -/
def APIResponse.slice (resp : APIResponse) (offset length : Int32) : Option Bytes :=
  if 0 ≤ offset.toInt ∧ 0 ≤ length.toInt ∧ offset.toInt + length.toInt ≤ resp.data.length then
    some ((resp.data.drop offset.toInt.toNat).take length.toInt.toNat)
  else none

structure EntryExact (value : Option Bytes) (resp : APIResponse) (offset length : Int32) :
    Prop where
  present : ∀ v, value = some v → resp.slice offset length = some v
  absent : offset = -1 ∧ length = 0 ↔ value = none

def ResponseExact (kv : Bytes → Option Bytes) (keys : List Bytes) (resp : APIResponse) : Prop :=
  ∀ (i : Nat) (key : Bytes), keys[i]? = some key → ∃ offset length : Int32,
    resp.offset[i]? = some offset ∧
      resp.length[i]? = some length ∧ EntryExact (kv key) resp offset length

/-! ## The loop -/

def offsets (values : List Bytes) : List Int32 :=
  (List.range values.length).map fun i => Int32.ofNat ((values.map List.length).take i).sum

theorem offsets_snoc (values : List Bytes) (value : Bytes) :
    offsets (values ++ [value]) = offsets values ++ [Int32.ofNat values.flatten.length] := by
  unfold offsets
  rw [List.length_append, List.length_singleton, List.range_succ, List.map_append,
    List.map_singleton, List.length_flatten]
  congr 1
  · apply List.map_congr_left
    intro i hi
    have hlt := List.mem_range.mp hi
    rw [List.map_append, List.take_append_of_le_length (by simp; omega)]
  · rw [List.map_append, List.take_left' (by simp)]

theorem offsets_getElem? (values : List Bytes) {i : Nat} (h : i < values.length) :
    (offsets values)[i]? = some (Int32.ofNat ((values.map List.length).take i).sum) := by
  simp [offsets, h]

/-- Position `i` of an array that is filled up to there. -/
theorem set_filled {α : Type} (xs : List α) (value filler : α) (n : Nat) :
    (xs ++ List.replicate (n + 1) filler).set xs.length value =
      xs ++ [value] ++ List.replicate n filler := by
  rw [List.set_append_right _ _ (Nat.le_refl _), Nat.sub_self, List.replicate_succ,
    List.set_cons_zero]
  simp

/-- The fields after some rounds; `room` is the number of rounds to come. -/
structure Filled (values : List Bytes) (room : Nat) (resp : APIResponse) : Prop where
  data : resp.data = values.flatten
  offset : resp.offset = offsets values ++ List.replicate room (-1)
  length : resp.length = values.map (fun v => Int32.ofNat v.length) ++ List.replicate room 0

theorem Filled.putValue {values : List Bytes} {room : Nat} {resp : APIResponse}
    (h : Filled values (room + 1) resp) (key value : Bytes) :
    Filled (values ++ [value]) room (putValue resp ((key, value), values.length)) := by
  obtain ⟨hdata, hoffset, hlength⟩ := h
  have hofs : (offsets values).length = values.length := by simp [offsets]
  have hlen : (values.map fun v => Int32.ofNat v.length).length = values.length := by simp
  constructor
  · simp [API.putValue, hdata]
  · simp only [API.putValue]
    rw [hdata, hoffset, offsets_snoc, ← set_filled, hofs]
  · simp only [API.putValue]
    rw [hlength, List.map_append, List.map_singleton, ← set_filled, hlen]

theorem filled_foldl (entries : List (Bytes × Bytes)) (values : List Bytes) (resp : APIResponse)
    (h : Filled values entries.length resp) :
    Filled (values ++ entries.map Prod.snd) 0
      ((entries.zipIdx values.length).foldl putValue resp) := by
  induction entries generalizing values resp with
  | nil => simpa using h
  | cons entry entries ih =>
      have hnext := ih (values ++ [entry.2]) _ (h.putValue entry.1 entry.2)
      rw [List.zipIdx_cons, List.foldl_cons]
      rw [List.length_append, List.length_singleton] at hnext
      simpa using hnext

theorem dbGetKeys_filled (kv : Bytes → Option Bytes) {keys : List Bytes} (hkeys : keys ≠ []) :
    ∃ resp, dbGetKeys kv keys = some resp ∧ Filled (multiGet kv keys) 0 resp := by
  have hlength : (keys.zip (multiGet kv keys)).length = keys.length := by simp [multiGet]
  have hvalues : (keys.zip (multiGet kv keys)).map Prod.snd = multiGet kv keys :=
    List.map_snd_zip (by simp [multiGet])
  have hpos : keys.length ≠ 0 := fun h => hkeys (List.eq_nil_of_length_eq_zero h)
  have hfilled := filled_foldl (keys.zip (multiGet kv keys)) []
    { APIResponse.empty with
      length := resize [] keys.length 0
      offset := resize [] keys.length (-1)
      types := resize [] keys.length ""
      keys := keys } ⟨rfl, by simp [resize, offsets, hlength], by simp [resize, hlength]⟩
  rw [hvalues] at hfilled
  exact ⟨_, if_neg hpos, hfilled⟩

/-! ## The entries -/

theorem Filled.entry {values : List Bytes} {resp : APIResponse} (h : Filled values 0 resp)
    (hsize : (values.map List.length).sum < 2 ^ 31) {i : Nat} {value : Bytes}
    (hvalue : values[i]? = some value) :
    ∃ offset length, resp.offset[i]? = some offset ∧ resp.length[i]? = some length ∧
      offset ≠ -1 ∧ resp.slice offset length = some value := by
  obtain ⟨hlt, rfl⟩ := List.getElem?_eq_some_iff.mp hvalue
  obtain ⟨hdata, hoffset, hlength⟩ := h
  have hnext : ((values.map List.length).take (i + 1)).sum =
      ((values.map List.length).take i).sum + values[i].length := by
    rw [List.take_succ_eq_append_getElem (by simpa using hlt), List.sum_append,
      List.sum_singleton, List.getElem_map]
  have hsum := List.sum_take_add_sum_drop (values.map List.length) (i + 1)
  have hofs : (Int32.ofNat ((values.map List.length).take i).sum).toInt =
      ((values.map List.length).take i).sum := Int32.toInt_ofNat_of_lt (by omega)
  have hlen : (Int32.ofNat values[i].length).toInt = values[i].length :=
    Int32.toInt_ofNat_of_lt (by omega)
  have hpart : (values.flatten.drop ((values.map List.length).take i).sum).take
      values[i].length = values[i] := by
    have h := List.drop_take_succ_flatten_eq_getElem values i hlt
    rwa [hnext, List.drop_take, Nat.add_sub_cancel_left] at h
  refine ⟨Int32.ofNat ((values.map List.length).take i).sum, Int32.ofNat values[i].length,
    ?_, ?_, fun hneg => ?_, ?_⟩
  · rw [hoffset, List.replicate_zero, List.append_nil, offsets_getElem? values hlt]
  · rw [hlength, List.replicate_zero, List.append_nil, List.getElem?_map, hvalue]
    rfl
  · rw [hneg] at hofs
    change (-1 : Int) = _ at hofs
    omega
  · have htotal : resp.data.length = (values.map List.length).sum := by
      rw [hdata, List.length_flatten]
    rw [APIResponse.slice, if_pos (by omega), hofs, hlen, hdata, Int.toNat_natCast,
      Int.toNat_natCast, hpart]

theorem getElem?_multiGet (kv : Bytes → Option Bytes) {keys : List Bytes} {i : Nat} {key : Bytes}
    (h : keys[i]? = some key) : (multiGet kv keys)[i]? = some ((kv key).getD []) := by
  simp [multiGet, h]

/-- The response is as the schema says if and only if no key asked for is absent. -/
theorem dbGetKeys_exact_iff (kv : Bytes → Option Bytes) (keys : List Bytes) (hkeys : keys ≠ [])
    (hsize : ((multiGet kv keys).map List.length).sum < 2 ^ 31) :
    (∃ resp, dbGetKeys kv keys = some resp ∧ ResponseExact kv keys resp) ↔
      ∀ key ∈ keys, (kv key).isSome := by
  obtain ⟨resp, hresp, hfilled⟩ := dbGetKeys_filled kv hkeys
  constructor
  · rintro ⟨_, hresp', hexact⟩ key hkey
    obtain rfl := Option.some.inj (hresp.symm.trans hresp')
    obtain ⟨i, hi⟩ := List.mem_iff_getElem?.mp hkey
    obtain ⟨offset, length, hofs, hlen, hne, -⟩ :=
      hfilled.entry hsize (getElem?_multiGet kv hi)
    obtain ⟨offset', length', hofs', hlen', hentry⟩ := hexact i key hi
    obtain rfl := Option.some.inj (hofs.symm.trans hofs')
    cases hvalue : kv key with
    | some v => rfl
    | none => exact absurd (hentry.absent.mpr hvalue).1 hne
  · intro hpresent
    refine ⟨resp, hresp, fun i key hi => ?_⟩
    obtain ⟨offset, length, hofs, hlen, hne, hslice⟩ :=
      hfilled.entry hsize (getElem?_multiGet kv hi)
    obtain ⟨v, hv⟩ := Option.isSome_iff_exists.mp (hpresent key (List.mem_of_getElem? hi))
    rw [hv] at hslice
    refine ⟨offset, length, hofs, hlen, ?_, ?_⟩
    · rintro w hw
      rw [hslice, ← Option.some.inj (hv.symm.trans hw)]
      rfl
    · rw [hv]
      exact iff_of_false (fun h => hne h.1) (by simp)

/-- A store with the keys `a`, whose value is empty, and `b`. -/
def exampleKv (key : Bytes) : Option Bytes :=
  if key = [97] then some [] else if key = [98] then some [1, 2] else none

theorem dbGetKeys_exact_iff_example :
    ∃ resp, dbGetKeys exampleKv [[98], [97], [98]] = some resp ∧
      ResponseExact exampleKv [[98], [97], [98]] resp :=
  (dbGetKeys_exact_iff exampleKv [[98], [97], [98]] (by decide) (by decide)).mpr (by decide)

/-- An absent key is answered like one with an empty value. -/
theorem dbGetKeys_hides_absence : ¬∀ (kv : Bytes → Option Bytes) (keys : List Bytes), keys ≠ [] →
    ((multiGet kv keys).map List.length).sum < 2 ^ 31 →
      ∃ resp, dbGetKeys kv keys = some resp ∧ ResponseExact kv keys resp := by
  intro h
  obtain ⟨resp, hresp, hexact⟩ := h exampleKv [[98], [99]] (by decide) (by decide)
  have hrun : dbGetKeys exampleKv [[98], [99]] =
      some ⟨[1, 2], [2, 0], [0, 2], ["", ""], [[98], [99]]⟩ := by decide
  obtain rfl := Option.some.inj (hrun.symm.trans hresp)
  obtain ⟨offset, length, hofs, -, hentry⟩ := hexact 1 [99] rfl
  have hneg := (hentry.absent.mpr rfl).1
  rw [hneg] at hofs
  exact absurd hofs (by decide)

end ExplorerKV.API

import ExplorerKV.Parser.BlockOps
import ExplorerKV.Logs.NotifyText

/-!
# The text of the `13_` records

`_insertOrphanBlockHash` and `_removeOrphanBlockHash` of `Parser.cc` on the flat
string that is stored: the hashes of the orphaned blocks of a height, 64
characters each.  The block operations work on the list of the hashes.
-/

namespace ExplorerKV.Parser

open Bitcoin Foundation Logs

/-- `value.substr(i * 64, 64)`, for each `i` below `value.length() / 64` -/
def blockHashes (value : Bytes) : Finset Bytes :=
  ((List.range (value.length / 64)).map fun i => (value.drop (i * 64)).take 64).toFinset

/-- The elements of the `set<string>` in its order, the first 64 characters of each. -/
def joinHashes (blks : Finset Bytes) : Bytes := (blks.sort (· ≤ ·)).flatMap (·.take 64)

def removeOrphanBlockHashText (hash value : Bytes) : Bytes :=
  joinHashes ((blockHashes value).erase hash)

def insertOrphanBlockHashText (hash value : Bytes) : Bytes :=
  if value.length = 0 then hash.take 64
  else joinHashes (insert hash (blockHashes value))

abbrev BlockHash := { hash : Bytes // hash.length = 64 }

inductive OrphanOp where
  | insert (hash : BlockHash)
  | remove (hash : BlockHash)

def OrphanOp.applyText (value : Bytes) : OrphanOp → Bytes
  | .insert hash => insertOrphanBlockHashText hash.val value
  | .remove hash => removeOrphanBlockHashText hash.val value

def OrphanOp.applySet (blks : Finset BlockHash) : OrphanOp → Finset BlockHash
  | .insert hash => Insert.insert hash blks
  | .remove hash => blks.erase hash

/-! ## Cutting and joining -/

variable {hashes : List Bytes}

theorem cut_flatten (h : ∀ hash ∈ hashes, hash.length = 64) :
    ((List.range (hashes.flatten.length / 64)).map fun i =>
      (hashes.flatten.drop (i * 64)).take 64) = hashes := by
  induction hashes with
  | nil => rfl
  | cons hash hashes ih =>
      obtain ⟨hhash, hrest⟩ := List.forall_mem_cons.mp h
      have hlength : (hash :: hashes).flatten.length / 64 = hashes.flatten.length / 64 + 1 := by
        rw [List.flatten_cons, List.length_append, hhash]
        omega
      rw [hlength, List.range_succ_eq_map, List.map_cons, List.map_map, List.flatten_cons]
      have hhead : ((hash ++ hashes.flatten).drop (0 * 64)).take 64 = hash := by
        rw [Nat.zero_mul, List.drop_zero, List.take_left' hhash]
      have htail : ((fun i => ((hash ++ hashes.flatten).drop (i * 64)).take 64) ∘ Nat.succ) =
          fun i => (hashes.flatten.drop (i * 64)).take 64 := by
        funext i
        change ((hash ++ hashes.flatten).drop ((i + 1) * 64)).take 64 = _
        rw [Nat.add_one_mul, Nat.add_comm, ← List.drop_drop, List.drop_left' hhash]
      rw [hhead, htail, ih hrest]

theorem blockHashes_flatten (h : ∀ hash ∈ hashes, hash.length = 64) :
    blockHashes hashes.flatten = hashes.toFinset := by
  rw [blockHashes, cut_flatten h]

variable {blks : Finset Bytes}

theorem joinHashes_eq (h : ∀ hash ∈ blks, hash.length = 64) :
    joinHashes blks = (blks.sort (· ≤ ·)).flatten := by
  have htake : ∀ hash ∈ blks.sort (· ≤ ·), hash.take 64 = hash := fun hash hmem =>
    List.take_of_length_le (h hash ((Finset.mem_sort _).mp hmem)).le
  rw [joinHashes, List.flatMap_def, List.map_congr_left htake, List.map_id']

theorem blockHashes_joinHashes (h : ∀ hash ∈ blks, hash.length = 64) :
    blockHashes (joinHashes blks) = blks := by
  rw [joinHashes_eq h, blockHashes_flatten fun hash hmem => h hash ((Finset.mem_sort _).mp hmem),
    Finset.sort_toFinset]

theorem joinHashes_eq_nil (h : ∀ hash ∈ blks, hash.length = 64) :
    joinHashes blks = [] ↔ blks = ∅ := by
  constructor
  · intro hnil
    rw [← blockHashes_joinHashes h, hnil]
    rfl
  · rintro rfl
    rw [joinHashes, Finset.sort_empty, List.flatMap_nil]

/-! ## The set in the value -/

/-- The value is the sorted hashes of a set, one behind the other. -/
def Holds (value : Bytes) (blks : Finset BlockHash) : Prop :=
  value = joinHashes (blks.image Subtype.val)

theorem length_of_mem_image {blks : Finset BlockHash} :
    ∀ hash ∈ blks.image Subtype.val, hash.length = 64 := by
  intro hash hmem
  obtain ⟨blk, -, rfl⟩ := Finset.mem_image.mp hmem
  exact blk.property

namespace Holds

variable {value : Bytes} {blks : Finset BlockHash}

theorem blockHashes_eq (h : Holds value blks) : blockHashes value = blks.image Subtype.val := by
  rw [h, blockHashes_joinHashes length_of_mem_image]

theorem eq_nil_iff (h : Holds value blks) : value = [] ↔ blks = ∅ := by
  rw [h, joinHashes_eq_nil length_of_mem_image, Finset.image_eq_empty]

theorem insert (h : Holds value blks) (hash : BlockHash) :
    Holds (insertOrphanBlockHashText hash.val value) (Insert.insert hash blks) := by
  rw [Holds, Finset.image_insert, insertOrphanBlockHashText]
  by_cases hempty : value.length = 0
  · have hblks := h.eq_nil_iff.mp (List.length_eq_zero_iff.mp hempty)
    rw [if_pos hempty, hblks, Finset.image_empty, insert_empty_eq, joinHashes,
      Finset.sort_singleton, List.flatMap_singleton]
  · rw [if_neg hempty, h.blockHashes_eq]

theorem remove (h : Holds value blks) (hash : BlockHash) :
    Holds (removeOrphanBlockHashText hash.val value) (blks.erase hash) := by
  rw [Holds, Finset.image_erase Subtype.val_injective, removeOrphanBlockHashText, h.blockHashes_eq]

theorem apply (h : Holds value blks) (op : OrphanOp) :
    Holds (op.applyText value) (op.applySet blks) := by
  cases op with
  | insert hash => exact h.insert hash
  | remove hash => exact h.remove hash

theorem run (h : Holds value blks) (ops : List OrphanOp) :
    Holds (ops.foldl OrphanOp.applyText value) (ops.foldl OrphanOp.applySet blks) := by
  induction ops generalizing value blks with
  | nil => exact h
  | cons op ops ih => exact ih (h.apply op)

theorem unique {value' : Bytes} (h : Holds value blks) (h' : Holds value' blks) : value = value' :=
  Eq.trans h h'.symm

end Holds

/--
After any operations from the empty value, the value is the hashes of the set,
strictly ascending and joined; what is there is inserted, and what is not is
removed, without a change.
-/
theorem orphanValue_spec (ops : List OrphanOp) :
    let value := ops.foldl OrphanOp.applyText []
    let blks := ops.foldl OrphanOp.applySet ∅
    (∃ hashes : List Bytes, value = hashes.flatten ∧ hashes.Pairwise (· < ·) ∧
      ∀ hash, hash ∈ hashes ↔ ∃ blk ∈ blks, blk.val = hash) ∧
      (∀ blk ∈ blks, insertOrphanBlockHashText blk.val value = value) ∧
      (∀ blk ∉ blks, removeOrphanBlockHashText blk.val value = value) ∧
      (value = [] ↔ blks = ∅) := by
  intro value blks
  have hempty : Holds [] ∅ := ((joinHashes_eq_nil length_of_mem_image).mpr rfl).symm
  have h : Holds value blks := hempty.run ops
  refine ⟨⟨(blks.image Subtype.val).sort (· ≤ ·), ?_, ?_, ?_⟩, ?_, ?_, h.eq_nil_iff⟩
  · rw [h, joinHashes_eq length_of_mem_image]
  · exact ((Finset.pairwise_sort _ _).and (Finset.sort_nodup _ _)).imp
      fun h => Std.lt_of_le_of_ne h.1 h.2
  · intro hash
    rw [Finset.mem_sort, Finset.mem_image]
  · intro blk hmem
    have hinsert := h.insert blk
    rw [Finset.insert_eq_of_mem hmem] at hinsert
    exact hinsert.unique h
  · intro blk hmem
    have hremove := h.remove blk
    rw [Finset.erase_eq_of_notMem hmem] at hremove
    exact hremove.unique h

/-! ## The list of the block operations -/

theorem hexByte_order : ∀ d < 16, ∀ e < 16,
    (hexByte d < hexByte e ↔ d < e) ∧ (hexByte d = hexByte e ↔ d = e) := by
  decide

theorem hashText_lt (a b : Uint256) : hashText a < hashText b ↔ a < b := by
  have hsixteen : 0 < 16 := by decide
  have hfits : ∀ hash : Uint256, hash.val < 16 ^ 64 := fun hash =>
    hash.isLt.trans_le (by rw [show 16 = 2 ^ 4 by rfl, ← Nat.pow_mul])
  rw [hashText, hashText, map_digits_lt hexByte_order (fun _ => lt_of_mem_fixedDigits hsixteen)
    (fun _ => lt_of_mem_fixedDigits hsixteen), fixedDigits_lt (hfits a) (hfits b), Fin.lt_def]

@[simp] theorem length_hashText (hash : Uint256) : (hashText hash).length = 64 := by
  rw [hashText, List.length_map, length_fixedDigits]

theorem hashText_injective : Function.Injective hashText := by
  intro a b h
  rw [← uint256OfHex_hashText a, h, uint256OfHex_hashText]

theorem sort_image_hashText (blks : Finset Uint256) :
    (blks.image hashText).sort (· ≤ ·) = blks.sort.map hashText := by
  have hle : (blks.sort.map hashText).Pairwise (· ≤ ·) := by
    rw [List.pairwise_map]
    refine (Finset.sortedLT_sort blks).pairwise.imp fun h => ?_
    exact Std.le_of_lt ((hashText_lt _ _).mpr h)
  have hperm : ((blks.image hashText).sort (· ≤ ·)).Perm (blks.sort.map hashText) := by
    refine (List.perm_ext_iff_of_nodup (Finset.sort_nodup _ _)
      ((Finset.sort_nodup _ _).map hashText_injective)).mpr fun text => ?_
    simp
  exact hperm.eq_of_pairwise (fun _ _ _ _ => Std.le_antisymm) (Finset.pairwise_sort _ _) hle

theorem joinHashes_image (blks : Finset Uint256) :
    joinHashes (blks.image hashText) = blks.sort.flatMap hashText := by
  rw [joinHashes_eq (by simp), sort_image_hashText, List.flatMap_def]

theorem blockHashes_flatMap (value : List Uint256) :
    blockHashes (value.flatMap hashText) = value.toFinset.image hashText := by
  rw [List.flatMap_def, blockHashes_flatten (by simp)]
  ext text
  simp

theorem removeOrphanBlockHash_text (hash : Uint256) (value : List Uint256) :
    removeOrphanBlockHashText (hashText hash) (value.flatMap hashText) =
      (removeOrphanBlockHash hash value).flatMap hashText := by
  rw [removeOrphanBlockHashText, blockHashes_flatMap, ← Finset.image_erase hashText_injective,
    joinHashes_image, removeOrphanBlockHash]

theorem insertOrphanBlockHash_text (hash : Uint256) (value : List Uint256) :
    insertOrphanBlockHashText (hashText hash) (value.flatMap hashText) =
      (insertOrphanBlockHash hash value).flatMap hashText := by
  cases value with
  | nil =>
      rw [insertOrphanBlockHash, if_pos List.length_nil, List.flatMap_singleton, List.flatMap_nil,
        insertOrphanBlockHashText, if_pos List.length_nil]
      exact List.take_of_length_le (length_hashText hash).le
  | cons head rest =>
      have hne : ((head :: rest).flatMap hashText).length ≠ 0 := by
        rw [List.flatMap_cons, List.length_append, length_hashText]
        omega
      have hne' : (head :: rest).length ≠ 0 := by simp
      rw [insertOrphanBlockHashText, if_neg hne, blockHashes_flatMap, ← Finset.image_insert,
        joinHashes_image, insertOrphanBlockHash, if_neg hne']

end ExplorerKV.Parser

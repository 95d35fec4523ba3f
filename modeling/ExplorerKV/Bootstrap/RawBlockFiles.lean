import ExplorerKV.Foundation.CString
import ExplorerKV.Foundation.Exec
import ExplorerKV.Logs.NotifyText

/-!
# Raw block files

`BlockImporter` writes the blocks of a range of heights to a file, a line for
each.  `getRawBlockFromDisk` reads such files piece by piece and keeps the piece
it read last.
-/

namespace ExplorerKV.Bootstrap.RawFiles

open Foundation
open ExplorerKV.Logs (split splitAll split_eq_take splitAll_cons splitAll_single hexDigit
  signedValue signedValue_intText)

def tab : UInt8 := 9

abbrev FileSystem := Bytes → Option Bytes

def dirPath (dir : Bytes) : Bytes :=
  let dir := if dir.length = 0 then [46] else dir
  if dir.getLast? = some 47 then dir else dir ++ [47]

def rawFileName (dir : Bytes) (beginHeight endHeight : Int) : Bytes :=
  (cStr (dirPath dir)).val ++ (intText beginHeight ++ 95 :: intText endHeight)

/-! ## The importer -/

namespace BlockImporter

def writeDisk (data : Bytes) (height : Int) : Bytes :=
  intText height ++ tab :: ((cStr data).val ++ [newline])

/-- What the consume thread writes; `dataVec` is filled by the others. -/
def threadConsumeBlock (beginHeight : Int) (dataVec : List Bytes) : Bytes :=
  dataVec.zipIdx.flatMap fun (data, i) => writeDisk data (i + beginHeight)

def run (dir : Bytes) (getblock : Int → Bytes) (beginHeight endHeight : Int)
    (files : FileSystem) : FileSystem :=
  let dataVec := (List.range (endHeight - beginHeight + 1).toNat).map fun i : Nat =>
    getblock (i + beginHeight)
  Function.update files (rawFileName dir beginHeight endHeight)
    (some (threadConsumeBlock beginHeight dataVec))

end BlockImporter

/-! ## The loader -/

def KCountPerFile : Int := 10000

structure RawBlockConfig where
  /-- `rawdata.dir` -/
  dir : Bytes
  /-- `raw.max.block.height` -/
  stopHeight : Int
  /-- where a call stops reading; the program has 500 MiB -/
  maxRead : Nat

structure RawBlock where
  height : Int
  hex : CharPtr

abbrev RawBlockCache := Int → Option RawBlock

inductive RawBlockError where
  /-- "fopen fail" -/
  | fopen (fname : Bytes)
  | assertion
  /-- `resize` of an empty line -/
  | lengthError
  /-- `arr` has no such element -/
  | outOfRange
  /-- "can't find rawblock from disk cache" -/
  | notFound (height : Int)
  deriving DecidableEq, Repr

def bufferSize (lineSize length : Nat) : Nat :=
  max (if lineSize = 0 then 120 else lineSize) (length + 1)

def getline (lineSize : Nat) (rest : Bytes) : Option (Bytes × Nat × Bytes) :=
  if rest = [] then none
  else
    let line := rest.take (rest.findIdx (· = newline) + 1)
    some (line, bufferSize lineSize line.length, rest.drop line.length)

theorem getline_lt {lineSize lineSize' : Nat} {rest line rest' : Bytes}
    (h : getline lineSize rest = some (line, lineSize', rest')) : rest'.length < rest.length := by
  unfold getline at h
  by_cases hrest : rest = []
  · rw [if_pos hrest] at h
    cases h
  · rw [if_neg hrest] at h
    simp only [Option.some.injEq, Prod.mk.injEq] at h
    obtain ⟨rfl, -, rfl⟩ := h
    have hpos := List.length_pos_of_ne_nil hrest
    rw [List.length_drop, List.length_take]
    omega

def loadLine (blkCache : RawBlockCache) (line : Bytes) :
    Except RawBlockError (Nat × RawBlockCache) :=
  let lineStr := (cStr line).val
  if lineStr.length = 0 then .error .lengthError
  else
    let lineStr := lineStr.dropLast
    match split lineStr tab 2 with
    | [arr₀, arr₁] =>
        -- `atoi`, of a height inside its range
        let blkHeight := signedValue (cStr arr₀).val
        .ok (lineStr.length,
          Function.update blkCache blkHeight (some ⟨blkHeight, cStr arr₁⟩))
    | _ => .error .outOfRange

def loadLines (maxRead : Nat) (blkCache : RawBlockCache) (lineSize currSize offset : Nat)
    (rest : Bytes) : Except RawBlockError (RawBlockCache × Nat) :=
  match _hline : getline lineSize rest with
  | none => .ok (blkCache, offset)
  | some (line, lineSize, rest) => do
      if ¬ lineSize > 80 then
        throw .assertion
      let (length, blkCache) ← loadLine blkCache line
      if currSize + length > maxRead then
        return (blkCache, offset + line.length)
      loadLines maxRead blkCache lineSize (currSize + length) (offset + line.length) rest
  termination_by rest.length
  decreasing_by exact getline_lt _hline

/-- The static variables of both functions. -/
structure RawBlockStatics where
  lastOffset : Nat
  lastHeightBegin : Int
  blkCache : RawBlockCache

def RawBlockStatics.start : RawBlockStatics := ⟨0, 0, fun _ => none⟩

abbrev RawBlockM := Exec RawBlockError RawBlockStatics

section Loader

variable (conf : RawBlockConfig) (files : FileSystem)

def loadRawBlockFromDisk (height : Int) : RawBlockM Unit := do
  let heightBegin := height.tdiv KCountPerFile * KCountPerFile
  let heightEnd := heightBegin + (KCountPerFile - 1)
  modify fun s =>
    if s.lastHeightBegin ≠ heightBegin then
      { s with lastOffset := 0, lastHeightBegin := heightBegin }
    else s
  let fname := rawFileName conf.dir heightBegin
    (if heightEnd > conf.stopHeight then conf.stopHeight else heightEnd)
  match files fname with
  | none => throw (.fopen fname)
  | some fin =>
      let s ← get
      let (blkCache, lastOffset) ←
        loadLines conf.maxRead s.blkCache 0 0 s.lastOffset (fin.drop s.lastOffset)
      set { s with blkCache := blkCache, lastOffset := lastOffset }

def getRawBlockFromDisk (height : Int) : RawBlockM Bytes := do
  if ((← get).blkCache height).isNone then
    modify fun s => { s with blkCache := fun _ => none }
    loadRawBlockFromDisk conf files height
  match (← get).blkCache height with
  | none => throw (.notFound height)
  | some block => return block.hex.val

end Loader

/-! ## The text of a block -/

abbrev RawHex := { hex : Bytes // hex ≠ [] ∧ ∀ c ∈ hex, (hexDigit c).isSome }

theorem RawHex.not_mem (hex : RawHex) {c : UInt8} (hc : hexDigit c = none) : c ∉ hex.val := by
  intro hmem
  have hsome := hex.property.2 c hmem
  rw [hc] at hsome
  cases hsome

def RawHex.chars (hex : RawHex) : CharPtr := ⟨hex.val, hex.not_mem (by decide)⟩

theorem RawHex.cStr (hex : RawHex) : Foundation.cStr hex.val = hex.chars :=
  cStr_of_not_mem _

def lineText (height : Nat) (hex : RawHex) : Bytes := intText height ++ tab :: hex.val

theorem writeDisk_eq (hex : RawHex) (height : Nat) :
    BlockImporter.writeDisk hex.val height = lineText height hex ++ [newline] := by
  rw [BlockImporter.writeDisk, hex.cStr, lineText, List.append_assoc]
  rfl

theorem not_mem_lineText {c : UInt8} (hc : hexDigit c = none) (htab : c ≠ tab) (hsign : c ≠ 45)
    (height : Nat) (hex : RawHex) : c ∉ lineText height hex := by
  have hdigit : c < 48 ∨ 57 < c := by
    by_contra hin
    rw [not_or, UInt8.not_lt, UInt8.not_lt] at hin
    rw [hexDigit, if_pos (by simpa [Logs.isDigit] using hin)] at hc
    cases hc
  intro hmem
  rw [lineText, List.mem_append, List.mem_cons] at hmem
  rcases hmem with h | h | h
  · exact not_mem_intText hsign hdigit _ h
  · exact htab h
  · exact hex.not_mem hc h

theorem getline_append {line : Bytes} (hline : newline ∉ line) (lineSize : Nat) (rest : Bytes) :
    getline lineSize ((line ++ [newline]) ++ rest) =
      some (line ++ [newline], bufferSize lineSize (line ++ [newline]).length, rest) := by
  have hlength : line.findIdx (fun c => decide (c = newline)) = line.length :=
    List.findIdx_eq_length_of_false fun c hc => decide_eq_false (ne_of_mem_of_not_mem hc hline)
  have hfind : ((line ++ [newline]) ++ rest).findIdx (fun c => decide (c = newline)) + 1 =
      (line ++ [newline]).length := by
    rw [List.append_assoc, List.findIdx_append, hlength, if_neg (lt_irrefl _),
      List.singleton_append, List.findIdx_cons, decide_eq_true rfl, List.length_append]
    exact congrArg (· + 1) (Nat.zero_add _)
  rw [getline, if_neg (by simp)]
  simp only [hfind, List.take_left, List.drop_left]

theorem loadLine_lineText (blkCache : RawBlockCache) (height : Nat) (hex : RawHex) :
    loadLine blkCache (lineText height hex ++ [newline]) =
      .ok ((lineText height hex).length,
        Function.update blkCache height (some ⟨height, hex.chars⟩)) := by
  have hnul : (0 : UInt8) ∉ lineText height hex ++ [newline] := by
    rw [List.mem_append, not_or]
    exact ⟨not_mem_lineText (by decide) (by decide) (by decide) height hex, by decide⟩
  have hsplit : split (lineText height hex) tab 2 = [intText height, hex.val] := by
    rw [split_eq_take, lineText, splitAll_cons (not_mem_intText (by decide) (by decide) _),
      splitAll_single (hex.not_mem (by decide)) hex.property.1]
    rfl
  have hheight : (cStr (intText height)).val = intText height :=
    congrArg Subtype.val (cStr_of_not_mem (not_mem_intText (by decide) (by decide) _))
  rw [loadLine, cStr_of_not_mem hnul, if_neg (by simp)]
  simp only [List.dropLast_concat, hsplit, hheight, signedValue_intText, hex.cStr]

/-! ## A piece of a file -/

section Pieces

variable (hex : Nat → RawHex)

def rawText (first count : Nat) : Bytes :=
  (List.range' first count).flatMap fun height => lineText height (hex height) ++ [newline]

def withBlocks (blkCache : RawBlockCache) (first count : Nat) : RawBlockCache := fun height =>
  if first ≤ height ∧ height < first + count then
    some ⟨height, (hex height.toNat).chars⟩
  else blkCache height

theorem rawText_succ (first count : Nat) :
    rawText hex first (count + 1) =
      (lineText first (hex first) ++ [newline]) ++ rawText hex (first + 1) count := by
  rw [rawText, List.range'_succ, List.flatMap_cons, rawText]

theorem rawText_add (first m n : Nat) :
    rawText hex first (m + n) = rawText hex first m ++ rawText hex (first + m) n := by
  rw [rawText, ← List.range'_append_1, List.flatMap_append, rawText, rawText]

theorem withBlocks_zero (blkCache : RawBlockCache) (first : Nat) :
    withBlocks hex blkCache first 0 = blkCache := by
  funext height
  exact if_neg (by omega)

theorem withBlocks_update (blkCache : RawBlockCache) (first count : Nat) :
    withBlocks hex (Function.update blkCache first (some ⟨first, (hex first).chars⟩))
      (first + 1) count = withBlocks hex blkCache first (count + 1) := by
  funext height
  unfold withBlocks
  by_cases heq : height = first
  · subst heq
    rw [if_neg (by omega), if_pos (by omega), Function.update_self, Int.toNat_natCast]
  · rw [Function.update_of_ne heq]
    congr 1
    apply propext
    omega

theorem bufferSize_gt {lineSize length : Nat} (h : lineSize = 0 ∨ 80 < lineSize) :
    80 < bufferSize lineSize length := by
  unfold bufferSize
  split_ifs <;> omega

theorem loadLines_line (maxRead : Nat) (blkCache : RawBlockCache) {lineSize : Nat}
    (hsize : lineSize = 0 ∨ 80 < lineSize) (currSize offset height : Nat) (rest : Bytes) :
    loadLines maxRead blkCache lineSize currSize offset
        ((lineText height (hex height) ++ [newline]) ++ rest) =
      let line := lineText height (hex height)
      let blkCache' := Function.update blkCache height (some ⟨height, (hex height).chars⟩)
      if currSize + line.length > maxRead then
        .ok (blkCache', offset + (line ++ [newline]).length)
      else
        loadLines maxRead blkCache' (bufferSize lineSize (line ++ [newline]).length)
          (currSize + line.length) (offset + (line ++ [newline]).length) rest := by
  have hline := not_mem_lineText (c := newline) (by decide) (by decide) (by decide) height
    (hex height)
  rw [loadLines, getline_append hline]
  simp only [bufferSize_gt hsize, not_true, if_false, loadLine_lineText]
  rfl

theorem loadLines_rawText (maxRead : Nat) (blkCache : RawBlockCache) {lineSize : Nat}
    (hsize : lineSize = 0 ∨ 80 < lineSize) (currSize offset first count : Nat) :
    ∃ n ≤ count, (0 < count → 0 < n) ∧
      loadLines maxRead blkCache lineSize currSize offset (rawText hex first count) =
        .ok (withBlocks hex blkCache first n, offset + (rawText hex first n).length) := by
  induction count generalizing blkCache lineSize currSize offset first with
  | zero =>
      refine ⟨0, le_rfl, fun h => h, ?_⟩
      rw [withBlocks_zero, loadLines]
      rfl
  | succ count ih =>
      rw [rawText_succ, loadLines_line hex maxRead blkCache hsize]
      by_cases hbreak : currSize + (lineText first (hex first)).length > maxRead
      · refine ⟨1, by omega, fun _ => Nat.one_pos, ?_⟩
        simp only [if_pos hbreak]
        rw [← withBlocks_update, withBlocks_zero, rawText_succ]
        simp [rawText]
      · simp only [if_neg hbreak]
        obtain ⟨n, hle, -, hrun⟩ := ih
          (Function.update blkCache first (some ⟨first, (hex first).chars⟩))
          (.inr (bufferSize_gt hsize)) (currSize + (lineText first (hex first)).length)
          (offset + (lineText first (hex first) ++ [newline]).length) (first + 1)
        refine ⟨n + 1, by omega, fun _ => Nat.succ_pos n, ?_⟩
        rw [hrun, withBlocks_update, rawText_succ]
        simp only [List.length_append, Nat.add_assoc]

end Pieces

/-! ## The files of a chain -/

/-- The last height of the `k`-th file. -/
def lastHeight (stopHeight k : Nat) : Nat := min (10000 * k + 9999) stopHeight

/-- The files hold the blocks up to a height, the last of them up to there only. -/
structure RawBlockFiles (dir : Bytes) (stopHeight : Nat) (hex : Nat → RawHex) where
  files : FileSystem
  written : ∀ k, 10000 * k ≤ stopHeight →
    files (rawFileName dir (10000 * k : Nat) (lastHeight stopHeight k)) =
      some (rawText hex (10000 * k) (lastHeight stopHeight k + 1 - 10000 * k))

section Importing

variable (dir : Bytes) (stopHeight : Nat) (hex : Nat → RawHex)

def importFiles (files : FileSystem) : FileSystem :=
  (List.range (stopHeight / 10000 + 1)).foldl (fun files k =>
    BlockImporter.run dir (fun height => (hex height.toNat).val) (10000 * k : Nat)
      (lastHeight stopHeight k) files) files

theorem threadConsumeBlock_eq (first count : Nat) :
    BlockImporter.threadConsumeBlock first
        ((List.range count).map fun i : Nat => (hex (i + first : Int).toNat).val) =
      rawText hex first count := by
  have hlines : ((List.range count).map fun i : Nat => (hex (i + first : Int).toNat).val).zipIdx =
      (List.range count).map fun i : Nat => ((hex (i + first : Int).toNat).val, i) := by
    apply List.ext_getElem
    · simp
    · intro i hi hi'
      simp
  rw [BlockImporter.threadConsumeBlock, hlines, List.flatMap_map, rawText,
    List.range'_eq_map_range, List.flatMap_map]
  apply List.flatMap_congr
  intro i _
  have hheight : (i : Int) + first = (first + i : Nat) := by omega
  change BlockImporter.writeDisk (hex (i + first : Int).toNat).val (i + first) = _
  rw [hheight, Int.toNat_natCast, writeDisk_eq]

theorem rawFileName_begin {beginHeight endHeight beginHeight' endHeight' : Int}
    (h : rawFileName dir beginHeight endHeight = rawFileName dir beginHeight' endHeight') :
    beginHeight = beginHeight' := by
  have hplain := not_mem_intText (c := 95) (by decide) (by decide)
  have hpieces := congrArg (splitAll · 95) (List.append_cancel_left h)
  simp only [splitAll_cons (hplain _)] at hpieces
  have hatoi := congrArg signedValue (List.cons.inj hpieces).1
  rwa [signedValue_intText, signedValue_intText] at hatoi

theorem importFiles_written (files : FileSystem) (k : Nat) (hk : 10000 * k ≤ stopHeight) :
    importFiles dir stopHeight hex files
        (rawFileName dir (10000 * k : Nat) (lastHeight stopHeight k)) =
      some (rawText hex (10000 * k) (lastHeight stopHeight k + 1 - 10000 * k)) := by
  have hlast : 10000 * k ≤ lastHeight stopHeight k := by
    unfold lastHeight
    omega
  have hrun : ∀ n, k < n →
      (List.range n).foldl (fun files k =>
        BlockImporter.run dir (fun height => (hex height.toNat).val) (10000 * k : Nat)
          (lastHeight stopHeight k) files) files
        (rawFileName dir (10000 * k : Nat) (lastHeight stopHeight k)) =
      some (rawText hex (10000 * k) (lastHeight stopHeight k + 1 - 10000 * k)) := by
    intro n hlt
    induction n with
    | zero => omega
    | succ n ih =>
        rw [List.range_succ, List.foldl_append, List.foldl_cons, List.foldl_nil, BlockImporter.run]
        by_cases heq : k = n
        · subst heq
          rw [Function.update_self, ← threadConsumeBlock_eq]
          congr 4
          omega
        · rw [Function.update_of_ne]
          · exact ih (by omega)
          · intro hname
            have := rawFileName_begin dir hname
            omega
  exact hrun _ (by omega)

def imported (files : FileSystem) : RawBlockFiles dir stopHeight hex where
  files := importFiles dir stopHeight hex files
  written := importFiles_written dir stopHeight hex files

end Importing

section Requests

variable {conf : RawBlockConfig} {stopHeight : Nat} {hex : Nat → RawHex}

/--
What is true between two requests: the cache holds the blocks of some heights,
and the offset, in the file the last of them comes from, stands behind them.
-/
structure Loaded (hex : Nat → RawHex) (stopHeight k first count : Nat)
    (s : RawBlockStatics) : Prop where
  blkCache : s.blkCache = withBlocks hex (fun _ => none) first count
  lastHeightBegin : s.lastHeightBegin = (10000 * k : Nat)
  begin_le : 10000 * k ≤ first
  le_end : first + count ≤ 10000 * k + 10000
  le_stop : first + count ≤ stopHeight + 1
  lastOffset : s.lastOffset = (rawText hex (10000 * k) (first + count - 10000 * k)).length

theorem loaded_start : Loaded hex stopHeight 0 0 0 .start where
  blkCache := (withBlocks_zero hex _ 0).symm
  lastHeightBegin := rfl
  begin_le := le_rfl
  le_end := by omega
  le_stop := by omega
  lastOffset := rfl

theorem loadRawBlockFromDisk_eq {files : FileSystem} {s : RawBlockStatics}
    {height heightBegin : Int} {offset : Nat} {fin : Bytes}
    (hbegin : height.tdiv KCountPerFile * KCountPerFile = heightBegin)
    (hoffset : (if s.lastHeightBegin ≠ heightBegin then 0 else s.lastOffset) = offset)
    (hfile : files (rawFileName conf.dir heightBegin
      (if heightBegin + (KCountPerFile - 1) > conf.stopHeight then conf.stopHeight
        else heightBegin + (KCountPerFile - 1))) = some fin)
    {blkCache : RawBlockCache} {lastOffset : Nat}
    (hload : loadLines conf.maxRead s.blkCache 0 0 offset (fin.drop offset) =
      .ok (blkCache, lastOffset)) :
    loadRawBlockFromDisk conf files height s =
      .ok ((), ⟨lastOffset, heightBegin, blkCache⟩) := by
  have hstatics : (if s.lastHeightBegin ≠ heightBegin then
      { s with lastOffset := 0, lastHeightBegin := heightBegin } else s) =
        (⟨offset, heightBegin, s.blkCache⟩ : RawBlockStatics) := by
    rw [← hoffset]
    split_ifs with hne
    · rfl
    · rw [← not_not.mp hne]
  subst hbegin
  unfold loadRawBlockFromDisk
  simp only [hfile, modify, modifyGet, MonadStateOf.modifyGet, StateT.modifyGet, bind,
    StateT.bind, pure, Except.pure, Except.bind, hstatics, get, getThe, MonadStateOf.get,
      StateT.get,
    liftM, monadLift, MonadLift.monadLift, StateT.lift, hload]
  rfl

variable {k first count : Nat} {s : RawBlockStatics}

theorem Loaded.offset (h : Loaded hex stopHeight k first count s) {height : Nat}
    (hheight : height = first + count) :
    (if s.lastHeightBegin ≠ (10000 * (height / 10000) : Nat) then 0 else s.lastOffset) =
      (rawText hex (10000 * (height / 10000)) (height % 10000)).length := by
  have hbegin := h.begin_le
  have hend := h.le_end
  rw [h.lastHeightBegin, h.lastOffset]
  by_cases hfile : height < 10000 * k + 10000
  · have hk : height / 10000 = k := by omega
    rw [hk, if_neg (by simp)]
    congr 2
    omega
  · -- the file before was read to its end
    have hk : height / 10000 = k + 1 := by omega
    have hmod : height % 10000 = 0 := by omega
    rw [if_pos (by omega), hmod]
    rfl

theorem loadRawBlockFromDisk_loaded (disk : RawBlockFiles conf.dir stopHeight hex)
    (hstop : conf.stopHeight = stopHeight) (h : Loaded hex stopHeight k first count s)
    {height : Nat} (hheight : height = first + count) (hle : height ≤ stopHeight) :
    ∃ n s', 0 < n ∧
      loadRawBlockFromDisk conf disk.files height { s with blkCache := fun _ => none } =
        .ok ((), s') ∧
      Loaded hex stopHeight (height / 10000) height n s' := by
  have hbegin : (height : Int).tdiv KCountPerFile * KCountPerFile =
      (10000 * (height / 10000) : Nat) := by
    rw [KCountPerFile, show (10000 : Int) = (10000 : Nat) from rfl, ← Int.ofNat_tdiv,
      ← Int.natCast_mul, Nat.mul_comm]
  have hname : (if ((10000 * (height / 10000) : Nat) : Int) + (KCountPerFile - 1) >
        conf.stopHeight then conf.stopHeight
      else ((10000 * (height / 10000) : Nat) : Int) + (KCountPerFile - 1)) =
      lastHeight stopHeight (height / 10000) := by
    rw [hstop, KCountPerFile, lastHeight]
    split_ifs <;> omega
  have hfile := disk.written (height / 10000) (by omega)
  have hcut : lastHeight stopHeight (height / 10000) + 1 - 10000 * (height / 10000) =
      height % 10000 + (lastHeight stopHeight (height / 10000) + 1 - height) := by
    unfold lastHeight
    omega
  have hfirst : 10000 * (height / 10000) + height % 10000 = height := Nat.div_add_mod height 10000
  have hlast : height ≤ lastHeight stopHeight (height / 10000) ∧
      lastHeight stopHeight (height / 10000) ≤ stopHeight ∧
      lastHeight stopHeight (height / 10000) ≤ 10000 * (height / 10000) + 9999 := by
    unfold lastHeight
    omega
  rw [hcut, rawText_add, hfirst] at hfile
  obtain ⟨n, hn, hpos, hload⟩ := loadLines_rawText hex conf.maxRead (fun _ => none) (.inl rfl) 0
    (rawText hex (10000 * (height / 10000)) (height % 10000)).length height
    (lastHeight stopHeight (height / 10000) + 1 - height)
  have hrun := loadRawBlockFromDisk_eq (s := { s with blkCache := fun _ => none }) hbegin
    (h.offset hheight) (hname ▸ hfile) (by rw [List.drop_left]; exact hload)
  refine ⟨n, _, hpos (by omega), hrun, rfl, rfl, by omega, by omega, by omega, ?_⟩
  have hlength : height + n - 10000 * (height / 10000) = height % 10000 + n := by omega
  rw [hlength, rawText_add, hfirst, List.length_append]

theorem getRawBlockFromDisk_loaded (disk : RawBlockFiles conf.dir stopHeight hex)
    (hstop : conf.stopHeight = stopHeight) (h : Loaded hex stopHeight k first count s)
    {height : Nat} (hfirst : first ≤ height) (hlast : height ≤ first + count)
    (hle : height ≤ stopHeight) :
    ∃ k' first' count' s', getRawBlockFromDisk conf disk.files height s =
        .ok ((hex height).val, s') ∧
      Loaded hex stopHeight k' first' count' s' ∧
      first' ≤ height + 1 ∧ height + 1 ≤ first' + count' := by
  have hcached : ∀ {first count : Nat}, first ≤ height → height < first + count →
      withBlocks hex (fun _ => none) first count height = some ⟨height, (hex height).chars⟩ :=
    fun hfirst hlast => if_pos ⟨by omega, by omega⟩
  by_cases hhit : height < first + count
  · have hblock : s.blkCache height = some ⟨height, (hex height).chars⟩ := by
      rw [h.blkCache, hcached hfirst hhit]
    refine ⟨k, first, count, s, ?_, h, by omega, by omega⟩
    unfold getRawBlockFromDisk
    simp only [bind, StateT.bind, get, getThe, MonadStateOf.get, StateT.get, pure, Except.pure,
      Except.bind, hblock, Option.isNone_some, Bool.false_eq_true, if_false]
    rfl
  · have hmiss : s.blkCache height = none := by
      rw [h.blkCache]
      exact if_neg (by omega)
    obtain ⟨n, s', hpos, hload, h'⟩ :=
      loadRawBlockFromDisk_loaded disk hstop h (show height = first + count by omega) hle
    have hblock : s'.blkCache height = some ⟨height, (hex height).chars⟩ := by
      rw [h'.blkCache, hcached le_rfl (by omega)]
    refine ⟨height / 10000, height, n, s', ?_, h', by omega, by omega⟩
    unfold getRawBlockFromDisk
    simp only [bind, StateT.bind, get, getThe, MonadStateOf.get, StateT.get, pure, Except.pure,
      Except.bind, modify, modifyGet, MonadStateOf.modifyGet, StateT.modifyGet, hmiss,
      Option.isNone_none, if_true, hload, hblock]
    rfl

theorem requests_loaded (disk : RawBlockFiles conf.dir stopHeight hex)
    (hstop : conf.stopHeight = stopHeight) (h : Loaded hex stopHeight k first count s)
    (next n : Nat) (hfirst : first ≤ next) (hlast : next ≤ first + count)
    (hle : next + n ≤ stopHeight + 1) :
    ∃ s', (List.range' next n).mapM
        (fun height : Nat => getRawBlockFromDisk conf disk.files height) s =
      .ok ((List.range' next n).map fun height => (hex height).val, s') := by
  induction n generalizing k first count s next with
  | zero => exact ⟨s, rfl⟩
  | succ n ih =>
      obtain ⟨k₁, first₁, count₁, s₁, hget, h₁, hfirst₁, hlast₁⟩ :=
        getRawBlockFromDisk_loaded disk hstop h hfirst hlast (by omega)
      obtain ⟨s₂, hrest⟩ := ih h₁ (next + 1) hfirst₁ hlast₁ (by omega)
      refine ⟨s₂, ?_⟩
      rw [List.range'_succ, List.mapM_cons]
      simp only [bind, StateT.bind, hget, Except.bind, hrest]
      rfl

end Requests

/--
Whatever the read-ahead, the requests for the heights from the first to the last
return what the importer was given for each.
-/
theorem getRawBlockFromDisk_exact (dir : Bytes) (stopHeight maxRead : Nat) (hex : Nat → RawHex)
    (disk : RawBlockFiles dir stopHeight hex) :
    ∃ s', (List.range (stopHeight + 1)).mapM
        (fun height : Nat => getRawBlockFromDisk ⟨dir, stopHeight, maxRead⟩ disk.files height)
        .start =
      .ok ((List.range (stopHeight + 1)).map fun height => (hex height).val, s') := by
  rw [List.range_eq_range']
  exact @requests_loaded ⟨dir, stopHeight, maxRead⟩ stopHeight hex 0 0 0 .start disk rfl
    loaded_start 0 (stopHeight + 1) le_rfl le_rfl (Nat.zero_add _).le

end ExplorerKV.Bootstrap.RawFiles

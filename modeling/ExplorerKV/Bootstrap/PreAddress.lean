import ExplorerKV.Foundation.BinarySearch
import ExplorerKV.Foundation.CString
import ExplorerKV.Logs.Text

/-!
# The addresses of the bootstrap

The consume thread of `PreAddress` writes an address to a file when it has not
seen it yet; `AddrHandler` reads the file and finds the entry of an address.
-/

namespace ExplorerKV.Bootstrap

open Foundation
open ExplorerKV.Logs (splitAll splitAll_cons splitAll_nil)

structure PreAddressItem where
  addrStr : CharArray 36

/-- `operator<` compares 35 bytes. -/
def PreAddressItem.key (item : PreAddressItem) : Bytes := item.addrStr.val.take 35

structure PreAddressHolder where
  count : Nat
  addrItems : List PreAddressItem
  /-- the recent addresses, a `set<string>` -/
  latestAddresses : Finset Bytes

namespace PreAddressHolder

def empty : PreAddressHolder := ⟨0, [], ∅⟩

def isExist (s : PreAddressHolder) (addressStr : Bytes) : Except MemFault Bool := do
  if addressStr ∈ s.latestAddresses then
    return true
  if s.addrItems.length = 0 then
    return false
  let needle ← strncpy (zeros 36) (cStr addressStr) 35
  return binarySearch PreAddressItem.key s.addrItems ⟨needle⟩

def moveItem (it : Bytes) : Except MemFault PreAddressItem := do
  return ⟨← strncpy (zeros 36) (cStr it) 35⟩

def adjust (s : PreAddressHolder) : Except MemFault PreAddressHolder := do
  let moved ← (s.latestAddresses.sort (· ≤ ·)).mapM moveItem
  return { s with
    addrItems := sortBy PreAddressItem.key (s.addrItems ++ moved)
    latestAddresses := ∅ }

def insert (s : PreAddressHolder) (addressStr : Bytes) : Except MemFault PreAddressHolder := do
  let s := { s with
    latestAddresses := Insert.insert addressStr s.latestAddresses
    count := s.count + 1 }
  if s.latestAddresses.card ≥ 500 * 10000 then
    s.adjust
  else
    return s

end PreAddressHolder

structure PreAddress where
  preAddressHolder : PreAddressHolder
  /-- what was printed to `f_` -/
  file : Bytes

/-- An address taken from the buffer; an `adjust` besides the ones of `insert`. -/
inductive ConsumeEvent where
  | addr (addr : Bytes)
  | adjust
  deriving DecidableEq

namespace PreAddress

def empty : PreAddress := ⟨.empty, []⟩

/-- The body of the loop of `threadConsumeAddr`. -/
def consumeAddr (s : PreAddress) (addr : Bytes) : Except MemFault PreAddress := do
  if ← s.preAddressHolder.isExist addr then
    return s
  let holder ← s.preAddressHolder.insert addr
  return ⟨holder, s.file ++ ((cStr addr).val ++ [newline])⟩

def step (s : PreAddress) : ConsumeEvent → Except MemFault PreAddress
  | .addr addr => s.consumeAddr addr
  | .adjust => return { s with preAddressHolder := ← s.preAddressHolder.adjust }

def threadConsumeAddr (events : List ConsumeEvent) : Except MemFault PreAddress :=
  events.foldlM step empty

end PreAddress

/-! ## The parser's side -/

namespace AddrHandler

structure AddrInfo where
  addrStr : CharArray 36

/-- `operator<` compares the strings, 35 bytes at most. -/
def AddrInfo.key (info : AddrInfo) : Bytes := (cStr (info.addrStr.val.take 35)).val

inductive AddrError where
  | fault (fault : MemFault)
  /-- "pre address count not match" -/
  | countNotMatch (i addrCount : Nat)
  /-- "AddrHandler can't find AddrInfo by address" -/
  | notFound (address : Bytes)
  deriving DecidableEq, Repr

end AddrHandler

def getNumberOfLines (file : Bytes) : Nat := (splitAll file newline).length

structure AddrHandler where
  addrInfo : List AddrHandler.AddrInfo
  addrCount : Nat

namespace AddrHandler

def readLine (addrCount : Nat) (addrInfo : List AddrInfo) (i : Nat) (line : Bytes) :
    Except AddrError (List AddrInfo) := do
  if i > addrCount then
    throw (.countNotMatch i addrCount)
  match addrInfo[i]? with
  | none => throw (.fault .write)
  | some info =>
      let addrStr ← (strncpy info.addrStr (cStr line) line.length).mapError .fault
      return addrInfo.set i ⟨addrStr⟩

def readLines (addrCount : Nat) :
    Nat → List AddrInfo → List Bytes → Except AddrError (List AddrInfo)
  | _, addrInfo, [] => .ok addrInfo
  | i, addrInfo, line :: lines => do
      readLines addrCount (i + 1) (← readLine addrCount addrInfo i line) lines

def ofFile (addrCount : Nat) (filePreAddr : Bytes) : Except AddrError AddrHandler := do
  let addrInfo ← readLines addrCount 0 (List.replicate addrCount ⟨zeros 36⟩)
    (splitAll filePreAddr newline)
  return ⟨sortBy AddrInfo.key addrInfo, addrCount⟩

def find (s : AddrHandler) (address : Bytes) : Except AddrError Nat := do
  let needle ← (strncpy (zeros 36) (cStr address) 35).mapError .fault
  let it := upperBound AddrInfo.key s.addrInfo ⟨needle⟩
  if it > s.addrInfo.length ∨ it ≤ 0 then
    throw (.notFound address)
  return it - 1

end AddrHandler

/-! ## Addresses as arrays -/

structure ValidAddress (addr : Bytes) : Prop where
  ne_nil : addr ≠ []
  length : addr.length ≤ 35
  nul : (0 : UInt8) ∉ addr
  newline : Foundation.newline ∉ addr

def addrArray (addr : Bytes) : CharArray 36 := padded 36 (cStr addr)

variable {addr addr' : Bytes}

theorem ValidAddress.cStr (h : ValidAddress addr) : (Foundation.cStr addr).val = addr := by
  rw [cStr_of_not_mem h.nul]

theorem ValidAddress.strncpy (h : ValidAddress addr) {n : Nat} (hlength : addr.length ≤ n)
    (hn : n ≤ 36) :
    Foundation.strncpy (zeros 36) (Foundation.cStr addr) n = .ok (addrArray addr) :=
  strncpy_zeros (by rwa [h.cStr]) hn

theorem ValidAddress.cStr_array (h : ValidAddress addr) :
    (Foundation.cStr (addrArray addr).val).val = addr := by
  have hlength := h.length
  rw [addrArray, cStr_padded (by rw [h.cStr]; omega), h.cStr]

theorem ValidAddress.key_info (h : ValidAddress addr) :
    AddrHandler.AddrInfo.key ⟨addrArray addr⟩ = addr := by
  have hlength : (Foundation.cStr addr).val.length ≤ 35 := h.cStr.symm ▸ h.length
  rw [AddrHandler.AddrInfo.key, addrArray, padded_take hlength (by decide), cStr_padded hlength,
    h.cStr]

theorem ValidAddress.eq_of_key (h : ValidAddress addr) (h' : ValidAddress addr')
    (hkey : PreAddressItem.key ⟨addrArray addr⟩ = PreAddressItem.key ⟨addrArray addr'⟩) :
    addr = addr' := by
  have hinfo : AddrHandler.AddrInfo.key ⟨addrArray addr⟩ =
      AddrHandler.AddrInfo.key ⟨addrArray addr'⟩ :=
    congrArg (fun bytes => (Foundation.cStr bytes).val) hkey
  rwa [h.key_info, h'.key_info] at hinfo

/-! ## What the holder has seen -/

namespace PreAddressHolder

/-- The holder has seen exactly these addresses. -/
structure Holds (s : PreAddressHolder) (seen : List Bytes) : Prop where
  valid : ∀ addr ∈ seen, ValidAddress addr
  latest : ∀ addr ∈ s.latestAddresses, addr ∈ seen
  items : ∀ item ∈ s.addrItems, ∃ addr ∈ seen, item = ⟨addrArray addr⟩
  cover : ∀ addr ∈ seen, addr ∈ s.latestAddresses ∨ ⟨addrArray addr⟩ ∈ s.addrItems
  sorted : s.addrItems.Pairwise fun x y => x.key ≤ y.key
  count : s.count = seen.length

variable {s : PreAddressHolder} {seen : List Bytes}

theorem isExist_of_holds (h : s.Holds seen) (haddr : ValidAddress addr) :
    s.isExist addr = .ok (decide (addr ∈ seen)) := by
  rw [isExist, haddr.strncpy haddr.length (by decide)]
  by_cases hlatest : addr ∈ s.latestAddresses
  · rw [if_pos hlatest, decide_eq_true (h.latest addr hlatest)]
    rfl
  · rw [if_neg hlatest]
    by_cases hempty : s.addrItems.length = 0
    · have hseen : addr ∉ seen := fun hmem => by
        have := List.length_pos_of_mem ((h.cover addr hmem).resolve_left hlatest)
        omega
      rw [if_pos hempty, decide_eq_false hseen]
      rfl
    · rw [if_neg hempty]
      have hfound : binarySearch PreAddressItem.key s.addrItems ⟨addrArray addr⟩ = true ↔
          addr ∈ seen := by
        rw [binarySearch_iff h.sorted]
        constructor
        · rintro ⟨item, hitem, hkey⟩
          obtain ⟨addr', hseen, rfl⟩ := h.items item hitem
          exact (h.valid addr' hseen).eq_of_key haddr hkey ▸ hseen
        · exact fun hseen => ⟨_, (h.cover addr hseen).resolve_left hlatest, rfl⟩
      change Except.ok (binarySearch PreAddressItem.key s.addrItems ⟨addrArray addr⟩) = _
      rw [← Bool.decide_coe (binarySearch _ _ _), decide_eq_decide.mpr hfound]

/-- An `adjust`, wherever it comes, does not change what the holder has seen. -/
theorem adjust_of_holds (h : s.Holds seen) : ∃ s', s.adjust = .ok s' ∧ s'.Holds seen := by
  have hmoved : (s.latestAddresses.sort (· ≤ ·)).mapM moveItem =
      .ok ((s.latestAddresses.sort (· ≤ ·)).map fun addr => ⟨addrArray addr⟩) := by
    apply mapM_ok
    intro addr hmem
    have haddr := h.valid addr (h.latest addr ((Finset.mem_sort _).mp hmem))
    rw [moveItem, haddr.strncpy haddr.length (by decide)]
    rfl
  have hitem : ∀ item : PreAddressItem,
      item ∈ sortBy PreAddressItem.key (s.addrItems ++
        (s.latestAddresses.sort (· ≤ ·)).map fun addr => ⟨addrArray addr⟩) ↔
      item ∈ s.addrItems ∨ ∃ addr ∈ s.latestAddresses, ⟨addrArray addr⟩ = item := by
    intro item
    rw [(sortBy_perm _ _).mem_iff, List.mem_append, List.mem_map]
    simp only [Finset.mem_sort]
  refine ⟨{ s with
    addrItems := sortBy PreAddressItem.key (s.addrItems ++
      (s.latestAddresses.sort (· ≤ ·)).map fun addr => ⟨addrArray addr⟩)
    latestAddresses := ∅ }, ?_, h.valid, ?_, ?_, ?_, pairwise_sortBy _ _, h.count⟩
  · rw [adjust, hmoved]
    rfl
  · intro addr hmem
    exact absurd hmem (Finset.notMem_empty addr)
  · intro item hmem
    cases (hitem item).mp hmem with
    | inl hold => exact h.items item hold
    | inr hnew =>
        obtain ⟨addr, hlatest, rfl⟩ := hnew
        exact ⟨addr, h.latest addr hlatest, rfl⟩
  · intro addr hseen
    cases h.cover addr hseen with
    | inl hlatest => exact .inr ((hitem _).mpr (.inr ⟨addr, hlatest, rfl⟩))
    | inr hold => exact .inr ((hitem _).mpr (.inl hold))

theorem insert_of_holds (h : s.Holds seen) (haddr : ValidAddress addr) :
    ∃ s', s.insert addr = .ok s' ∧ s'.Holds (seen ++ [addr]) := by
  have hinsert : PreAddressHolder.Holds
      { s with
        latestAddresses := Insert.insert addr s.latestAddresses
        count := s.count + 1 } (seen ++ [addr]) := {
    valid := by
      intro addr' hmem
      rw [List.mem_append, List.mem_singleton] at hmem
      cases hmem with
      | inl hseen => exact h.valid addr' hseen
      | inr heq => exact heq ▸ haddr
    latest := by
      intro addr' hmem
      rw [List.mem_append, List.mem_singleton]
      exact (Finset.mem_insert.mp hmem).symm.imp_left (h.latest addr')
    items := by
      intro item hmem
      obtain ⟨addr', hseen, heq⟩ := h.items item hmem
      exact ⟨addr', List.mem_append_left _ hseen, heq⟩
    cover := by
      intro addr' hmem
      rw [List.mem_append, List.mem_singleton] at hmem
      cases hmem with
      | inl hseen => exact (h.cover addr' hseen).imp_left (Finset.mem_insert_of_mem ·)
      | inr heq => exact .inl (heq ▸ Finset.mem_insert_self _ _)
    sorted := h.sorted
    count := by rw [List.length_append, List.length_singleton, h.count] }
  rw [insert]
  split_ifs
  · exact adjust_of_holds hinsert
  · exact ⟨_, rfl, hinsert⟩

end PreAddressHolder

/-! ## What is in the file -/

namespace PreAddress

/-- The file lists every address that was seen, once. -/
structure Listed (s : PreAddress) (lines : List Bytes) : Prop where
  holds : s.preAddressHolder.Holds lines
  nodup : lines.Nodup
  file : s.file = lines.flatMap (· ++ [newline])

theorem listed_empty : empty.Listed [] where
  holds := ⟨nofun, nofun, nofun, nofun, .nil, rfl⟩
  nodup := .nil
  file := rfl

variable {s : PreAddress} {lines : List Bytes}

theorem step_listed (h : s.Listed lines) (event : ConsumeEvent)
    (hvalid : ∀ addr, event = .addr addr → ValidAddress addr) :
    ∃ s' lines', s.step event = .ok s' ∧ s'.Listed lines' ∧
      ∀ addr, addr ∈ lines' ↔ addr ∈ lines ∨ event = .addr addr := by
  cases event with
  | adjust =>
      obtain ⟨holder, hadjust, hholds⟩ := PreAddressHolder.adjust_of_holds h.holds
      refine ⟨⟨holder, s.file⟩, lines, ?_, ⟨hholds, h.nodup, h.file⟩, by simp⟩
      rw [step, hadjust]
      rfl
  | addr addr =>
      have haddr := hvalid addr rfl
      have hexist := PreAddressHolder.isExist_of_holds h.holds haddr
      by_cases hseen : addr ∈ lines
      · rw [decide_eq_true hseen] at hexist
        refine ⟨s, lines, ?_, h, ?_⟩
        · rw [step, consumeAddr, hexist]
          rfl
        · intro addr'
          simp only [ConsumeEvent.addr.injEq, iff_self_or]
          rintro rfl
          exact hseen
      · rw [decide_eq_false hseen] at hexist
        obtain ⟨holder, hinsert, hholds⟩ := PreAddressHolder.insert_of_holds h.holds haddr
        refine ⟨⟨holder, s.file ++ ((cStr addr).val ++ [newline])⟩, lines ++ [addr], ?_,
          ⟨hholds, ?_, ?_⟩, ?_⟩
        · rw [step, consumeAddr, hexist]
          change (s.preAddressHolder.insert addr).bind (fun holder =>
            .ok (PreAddress.mk holder (s.file ++ ((cStr addr).val ++ [newline])))) = _
          rw [hinsert]
          rfl
        · exact List.nodup_append_comm.mp (List.nodup_cons.mpr ⟨hseen, h.nodup⟩)
        · rw [List.flatMap_append, List.flatMap_singleton, h.file, haddr.cStr]
        · intro addr'
          simp only [List.mem_append, List.mem_singleton, ConsumeEvent.addr.injEq, eq_comm]

theorem run_listed (h : s.Listed lines) (events : List ConsumeEvent)
    (hvalid : ∀ addr, .addr addr ∈ events → ValidAddress addr) :
    ∃ s' lines', events.foldlM step s = .ok s' ∧ s'.Listed lines' ∧
      ∀ addr, addr ∈ lines' ↔ addr ∈ lines ∨ .addr addr ∈ events := by
  induction events generalizing s lines with
  | nil => exact ⟨s, lines, rfl, h, by simp⟩
  | cons event events ih =>
      obtain ⟨s₁, lines₁, hstep, hlisted₁, hmem₁⟩ := step_listed h event
        fun addr heq => hvalid addr (heq ▸ List.mem_cons_self)
      obtain ⟨s₂, lines₂, hrun, hlisted₂, hmem₂⟩ := ih hlisted₁
        fun addr hmem => hvalid addr (List.mem_cons_of_mem _ hmem)
      refine ⟨s₂, lines₂, ?_, hlisted₂, ?_⟩
      · rw [List.foldlM_cons, hstep]
        exact hrun
      · intro addr
        rw [hmem₂, hmem₁, List.mem_cons, or_assoc, eq_comm (a := event)]

end PreAddress

/-! ## Reading the file back -/

theorem splitAll_lines {lines : List Bytes} (hvalid : ∀ addr ∈ lines, ValidAddress addr) :
    splitAll (lines.flatMap (· ++ [newline])) newline = lines := by
  induction lines with
  | nil => exact splitAll_nil newline
  | cons line lines ih =>
      rw [List.flatMap_cons, List.append_assoc]
      exact (splitAll_cons (hvalid line List.mem_cons_self).newline _).trans
        (congrArg _ (ih fun addr hmem => hvalid addr (List.mem_cons_of_mem _ hmem)))

namespace AddrHandler

/-- The first `i` entries are filled, the others still empty. -/
theorem readLines_filled (pre lines : List Bytes)
    (hvalid : ∀ addr ∈ lines, ValidAddress addr) :
    readLines (pre ++ lines).length pre.length
      (pre.map (fun addr => ⟨addrArray addr⟩) ++ List.replicate lines.length ⟨zeros 36⟩) lines =
      .ok ((pre ++ lines).map fun addr => ⟨addrArray addr⟩) := by
  induction lines generalizing pre with
  | nil => simp [readLines]
  | cons line lines ih =>
      have hline := hvalid line List.mem_cons_self
      have hread : readLine (pre ++ line :: lines).length
          (pre.map (fun addr => ⟨addrArray addr⟩) ++
            List.replicate (line :: lines).length ⟨zeros 36⟩) pre.length line =
          .ok (pre.map (fun addr => ⟨addrArray addr⟩) ++
            ⟨addrArray line⟩ :: List.replicate lines.length ⟨zeros 36⟩) := by
        have hlength := hline.length
        rw [readLine, if_neg (by simp), List.length_cons, List.replicate_succ]
        simp [hline.strncpy le_rfl (by omega), Except.mapError, bind, Except.bind, pure,
          Except.pure]
      rw [readLines, hread]
      have hrest := ih (pre ++ [line]) fun addr hmem => hvalid addr (List.mem_cons_of_mem _ hmem)
      simpa [bind, Except.bind] using hrest

theorem ofFile_lines {lines : List Bytes} (hvalid : ∀ addr ∈ lines, ValidAddress addr)
    {file : Bytes} (hfile : file = lines.flatMap (· ++ [newline])) :
    ofFile (getNumberOfLines file) file =
      .ok ⟨sortBy AddrInfo.key (lines.map fun addr => ⟨addrArray addr⟩), lines.length⟩ := by
  have hread := readLines_filled [] lines hvalid
  rw [List.nil_append, List.map_nil, List.nil_append, List.length_nil] at hread
  rw [ofFile, getNumberOfLines, hfile, splitAll_lines hvalid, hread]
  rfl

theorem find_entry {lines : List Bytes} (hvalid : ∀ addr ∈ lines, ValidAddress addr)
    {addr : Bytes} (haddr : addr ∈ lines) (addrCount : Nat) :
    let handler : AddrHandler :=
      ⟨sortBy AddrInfo.key (lines.map fun addr => ⟨addrArray addr⟩), addrCount⟩
    ∃ it info, handler.find addr = .ok it ∧ handler.addrInfo[it]? = some info ∧
      (cStr info.addrStr.val).val = addr := by
  intro handler
  have hentry : ∀ info ∈ handler.addrInfo, ∃ addr ∈ lines, info = ⟨addrArray addr⟩ := by
    intro info hinfo
    obtain ⟨addr, hmem, heq⟩ := List.mem_map.mp ((sortBy_perm _ _).mem_iff.mp hinfo)
    exact ⟨addr, hmem, heq.symm⟩
  have hmem : (⟨addrArray addr⟩ : AddrInfo) ∈ handler.addrInfo :=
    (sortBy_perm _ _).mem_iff.mpr (List.mem_map_of_mem haddr)
  obtain ⟨it, info, hbound, hinfo, hkey⟩ :=
    upperBound_spec (pairwise_sortBy AddrInfo.key _) hmem rfl
  obtain ⟨addr', hmem', rfl⟩ := hentry info (List.mem_of_getElem? hinfo)
  rw [(hvalid addr haddr).key_info, (hvalid addr' hmem').key_info] at hkey
  refine ⟨it, _, ?_, hinfo, hkey ▸ (hvalid addr' hmem').cStr_array⟩
  have hlt : it < handler.addrInfo.length := (List.getElem?_eq_some_iff.mp hinfo).1
  rw [find, (hvalid addr haddr).strncpy (hvalid addr haddr).length (by decide)]
  change (if upperBound AddrInfo.key handler.addrInfo ⟨addrArray addr⟩ > handler.addrInfo.length ∨
      upperBound AddrInfo.key handler.addrInfo ⟨addrArray addr⟩ ≤ 0 then
    .error (AddrError.notFound addr) else
    .ok (upperBound AddrInfo.key handler.addrInfo ⟨addrArray addr⟩ - 1)) = Except.ok it
  rw [hbound, if_neg (by omega), Nat.add_sub_cancel]

end AddrHandler

/--
Whatever addresses are handled, and wherever the holder is adjusted between them,
each distinct one is printed once; and the parser, with the file, finds for each
of them its own entry.
-/
theorem PreAddress.listed_and_found (events : List ConsumeEvent)
    (hvalid : ∀ addr, .addr addr ∈ events → ValidAddress addr) :
    ∃ s lines, threadConsumeAddr events = .ok s ∧
      s.file = lines.flatMap (· ++ [newline]) ∧ lines.Nodup ∧
      (∀ addr, addr ∈ lines ↔ .addr addr ∈ events) ∧
      ∃ handler, AddrHandler.ofFile (getNumberOfLines s.file) s.file = .ok handler ∧
        (handler.addrInfo.map fun info => (cStr info.addrStr.val).val).Perm lines ∧
        ∀ addr ∈ lines, ∃ it info, handler.find addr = .ok it ∧
          handler.addrInfo[it]? = some info ∧ (cStr info.addrStr.val).val = addr := by
  obtain ⟨s, lines, hrun, hlisted, hmem⟩ := run_listed listed_empty events hvalid
  have hlines : ∀ addr ∈ lines, ValidAddress addr := hlisted.holds.valid
  refine ⟨s, lines, hrun, hlisted.file, hlisted.nodup, fun addr => by simp [hmem], _,
    AddrHandler.ofFile_lines hlines hlisted.file, ?_, fun addr haddr =>
      AddrHandler.find_entry hlines haddr _⟩
  have hentries : (lines.map fun addr => (cStr (addrArray addr).val).val) = lines :=
    (List.map_congr_left fun addr haddr => (hlines addr haddr).cStr_array).trans (List.map_id _)
  have hperm := (sortBy_perm AddrHandler.AddrInfo.key (lines.map fun addr => ⟨addrArray addr⟩)).map
    fun info => (cStr info.addrStr.val).val
  rw [List.map_map] at hperm
  exact hperm.trans (.of_eq hentries)

/-- The address "1" twice, with an adjustment between. -/
theorem PreAddress.listed_and_found_example :
    ∃ s lines, threadConsumeAddr [.addr [49], .adjust, .addr [49]] = .ok s ∧
      s.file = lines.flatMap (· ++ [newline]) ∧ lines.Nodup ∧
      (∀ addr, addr ∈ lines ↔
        .addr addr ∈ [ConsumeEvent.addr [49], .adjust, .addr [49]]) ∧
      ∃ handler, AddrHandler.ofFile (getNumberOfLines s.file) s.file = .ok handler ∧
        (handler.addrInfo.map fun info => (cStr info.addrStr.val).val).Perm lines ∧
        ∀ addr ∈ lines, ∃ it info, handler.find addr = .ok it ∧
          handler.addrInfo[it]? = some info ∧ (cStr info.addrStr.val).val = addr :=
  listed_and_found _ fun addr hmem => by
    obtain rfl : addr = [49] := by simpa using hmem
    exact ⟨by decide, by decide, by decide, by decide⟩

end ExplorerKV.Bootstrap

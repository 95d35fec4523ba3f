import ExplorerKV.Logs.Text

/-!
# Lines of the log1 files

`Log1::parse` of `Log1Producer.cc`: a line has the date, the type and the
payload between commas, and the payload has its parts between bars.  What
`getBlock` and `getTx` decode later is left out.
-/

namespace ExplorerKV.Logs

open Foundation

def bar : UInt8 := 124

structure Log1Item where
  type_ : Int32
  blockHeight_ : Int32
  content_ : Bytes
  deriving DecidableEq, Repr

inductive Log1Fault where
  | invalidType (type : Int32)
  /-- `assert` on the number of parts -/
  | assertion
  | outOfRange
  deriving DecidableEq, Repr

namespace Log1Item

def TYPE_BLOCK : Int32 := 1

def TYPE_ACCEPT_TX : Int32 := 2

def TYPE_CLEAR_MEMTXS : Int32 := 3

def TYPE_REMOVE_TX : Int32 := 4

def reset : Log1Item := ⟨-1, -1, []⟩

/-- `operator[]` of a `vector` -/
def elementAt (v : List Bytes) (i : Nat) : Except Log1Fault Bytes :=
  match v[i]? with
  | some piece => .ok piece
  | none => .error .outOfRange

def parse (line : Bytes) : Except Log1Fault Log1Item := do
  let arr1 := split line comma 3
  let type := atoi (← elementAt arr1 1)
  if type = TYPE_CLEAR_MEMTXS then
    return { reset with type_ := type }
  let arr2 := splitAll (← elementAt arr1 2) bar
  if type = TYPE_BLOCK then
    if arr2.length ≠ 3 then throw .assertion
    let height ← elementAt arr2 0
    let hash ← elementAt arr2 1
    let hex ← elementAt arr2 2
    return { reset with blockHeight_ := atoi height, content_ := hash ++ hex, type_ := type }
  else if type = TYPE_ACCEPT_TX ∨ type = TYPE_REMOVE_TX then
    if arr2.length ≠ 2 then throw .assertion
    let hash ← elementAt arr2 0
    let hex ← elementAt arr2 1
    return { reset with content_ := hash ++ hex, type_ := type }
  else
    throw (.invalidType type)

/-! ## What a line sets -/

/-- The fields of each type, from the columns of the line. -/
inductive SetFrom (kind : Bytes) : Option Bytes → Log1Item → Prop where
  | clear {payload : Option Bytes} (htype : atoi kind = TYPE_CLEAR_MEMTXS) :
      SetFrom kind payload ⟨TYPE_CLEAR_MEMTXS, -1, []⟩
  | block {payload height hash hex : Bytes} (htype : atoi kind = TYPE_BLOCK)
      (hparts : splitAll payload bar = [height, hash, hex]) :
      SetFrom kind (some payload) ⟨TYPE_BLOCK, atoi height, hash ++ hex⟩
  | tx {payload hash hex : Bytes} {type : Int32} (htype : atoi kind = type)
      (htx : type = TYPE_ACCEPT_TX ∨ type = TYPE_REMOVE_TX)
      (hparts : splitAll payload bar = [hash, hex]) :
      SetFrom kind (some payload) ⟨type, -1, hash ++ hex⟩

/-- The line is rejected or gives an item with the fields of its type; no access is out of range. -/
def ParsedSafely (line : Bytes) : Prop :=
  match parse line with
  | .ok item => ∃ kind, (split line comma 3)[1]? = some kind ∧
      SetFrom kind (split line comma 3)[2]? item
  | .error fault => fault ≠ .outOfRange

def afterDelim (delim : UInt8) (line : Bytes) : Bytes := (line.dropWhile (· ≠ delim)).drop 1

def kindOf (line : Bytes) : Bytes := (afterDelim comma line).takeWhile (· ≠ comma)

/-- Something follows the first comma; something follows the second, or the line clears. -/
def WellCut (line : Bytes) : Prop :=
  afterDelim comma line ≠ [] ∧
    (atoi (kindOf line) = TYPE_CLEAR_MEMTXS ∨ afterDelim comma (afterDelim comma line) ≠ [])

instance (line : Bytes) : Decidable (WellCut line) :=
  inferInstanceAs (Decidable (_ ∧ (_ ∨ _)))

/-! ## The columns -/

variable {delim : UInt8}

theorem eq_takeWhile_append (delim : UInt8) (line : Bytes) :
    (delim ∉ line ∧ afterDelim delim line = [] ∧ line.takeWhile (· ≠ delim) = line) ∨
      line = line.takeWhile (· ≠ delim) ++ delim :: afterDelim delim line := by
  induction line with
  | nil => exact .inl ⟨by simp, rfl, rfl⟩
  | cons b line ih =>
      by_cases hb : b = delim
      · subst hb
        right
        simp [afterDelim]
      · have hcons : afterDelim delim (b :: line) = afterDelim delim line := by
          simp [afterDelim, hb]
        have htake : (b :: line).takeWhile (· ≠ delim) = b :: line.takeWhile (· ≠ delim) := by
          simp [hb]
        rw [hcons, htake]
        obtain ⟨hmem, hafter, hall⟩ | hline := ih
        · exact .inl ⟨by simp [hmem, Ne.symm hb], hafter, by rw [hall]⟩
        · exact .inr (by rw [List.cons_append, ← hline])

theorem splitAll_eq {line : Bytes} (hne : line ≠ []) :
    splitAll line delim = line.takeWhile (· ≠ delim) :: splitAll (afterDelim delim line) delim := by
  have hplain : delim ∉ line.takeWhile (· ≠ delim) := fun h => by
    simpa using List.mem_takeWhile_imp h
  obtain ⟨hmem, hafter, hall⟩ | hline := eq_takeWhile_append delim line
  · rw [hafter, splitAll_nil, hall, splitAll_single hmem hne]
  · conv_lhs => rw [hline]
    exact splitAll_cons hplain _

theorem splitAll_head (line : Bytes) :
    (splitAll line delim)[0]? =
      if line = [] then none else some (line.takeWhile (· ≠ delim)) := by
  by_cases hne : line = []
  · rw [if_pos hne, hne, splitAll_nil]
    rfl
  · rw [if_neg hne, splitAll_eq hne]
    rfl

theorem splitAll_tail (line : Bytes) (i : Nat) :
    (splitAll line delim)[i + 1]? = (splitAll (afterDelim delim line) delim)[i]? := by
  by_cases hne : line = []
  · rw [hne]
    change (splitAll [] delim)[i + 1]? = (splitAll [] delim)[i]?
    rw [splitAll_nil]
    rfl
  · rw [splitAll_eq hne, List.getElem?_cons_succ]

theorem column_kind (line : Bytes) :
    (split line comma 3)[1]? =
      if afterDelim comma line = [] then none else some (kindOf line) := by
  rw [split_eq_take, List.getElem?_take_of_lt (by decide), splitAll_tail, splitAll_head, kindOf]

theorem column_payload (line : Bytes) :
    (split line comma 3)[2]? =
      if afterDelim comma (afterDelim comma line) = [] then none
      else some ((afterDelim comma (afterDelim comma line)).takeWhile (· ≠ comma)) := by
  rw [split_eq_take, List.getElem?_take_of_lt (by decide), splitAll_tail, splitAll_tail,
    splitAll_head]

variable {v : List Bytes} {i : Nat} {line : Bytes}

theorem elementAt_some {piece : Bytes} (h : v[i]? = some piece) : elementAt v i = .ok piece := by
  rw [elementAt, h]

theorem elementAt_none (h : v[i]? = none) : elementAt v i = .error .outOfRange := by
  rw [elementAt, h]

theorem parse_outOfRange (h : ¬WellCut line) : parse line = .error .outOfRange := by
  have hkind := column_kind line
  have hpayload := column_payload line
  unfold parse
  by_cases hafter : afterDelim comma line = []
  · rw [if_pos hafter] at hkind
    simp only [elementAt_none hkind]
    rfl
  · rw [if_neg hafter] at hkind
    obtain ⟨htype, hnone⟩ : atoi (kindOf line) ≠ TYPE_CLEAR_MEMTXS ∧
        afterDelim comma (afterDelim comma line) = [] := by
      simpa [WellCut, hafter] using h
    rw [if_pos hnone] at hpayload
    simp only [elementAt_some hkind, bind, Except.bind]
    rw [if_neg htype, elementAt_none hpayload]

theorem ParsedSafely.of_ok {kind : Bytes} {item : Log1Item} (hrun : parse line = .ok item)
    (hkind : (split line comma 3)[1]? = some kind)
    (hset : SetFrom kind (split line comma 3)[2]? item) : ParsedSafely line := by
  rw [ParsedSafely, hrun]
  exact ⟨kind, hkind, hset⟩

theorem ParsedSafely.of_error {fault : Log1Fault} (hrun : parse line = .error fault)
    (hfault : fault ≠ .outOfRange) : ParsedSafely line := by
  rw [ParsedSafely, hrun]
  exact hfault

/-- With both columns there, what `parse` does depends on the parts of the payload alone. -/
theorem parsedSafely_of_columns {kind payload : Bytes}
    (hkind : (split line comma 3)[1]? = some kind)
    (hpayload : (split line comma 3)[2]? = some payload)
    (hclear : atoi kind ≠ TYPE_CLEAR_MEMTXS) : ParsedSafely line := by
  have hrun : parse line = parse line := rfl
  conv_rhs at hrun => unfold parse
  simp only [elementAt_some hkind, bind, Except.bind, if_neg hclear, elementAt_some hpayload]
    at hrun
  by_cases hblock : atoi kind = TYPE_BLOCK
  · rw [if_pos hblock] at hrun
    by_cases hlength : (splitAll payload bar).length = 3
    · obtain ⟨height, hash, hex, hparts⟩ := List.length_eq_three.mp hlength
      simp only [hparts] at hrun
      refine .of_ok hrun hkind ?_
      rw [hpayload, hblock]
      exact .block hblock hparts
    · rw [if_pos hlength] at hrun
      exact .of_error hrun nofun
  · rw [if_neg hblock] at hrun
    by_cases htx : atoi kind = TYPE_ACCEPT_TX ∨ atoi kind = TYPE_REMOVE_TX
    · rw [if_pos htx] at hrun
      by_cases hlength : (splitAll payload bar).length = 2
      · obtain ⟨hash, hex, hparts⟩ := List.length_eq_two.mp hlength
        simp only [hparts] at hrun
        refine .of_ok hrun hkind ?_
        rw [hpayload]
        exact .tx rfl htx hparts
      · rw [if_pos hlength] at hrun
        exact .of_error hrun nofun
    · rw [if_neg htx] at hrun
      exact .of_error hrun nofun

theorem parsedSafely_of_wellCut (h : WellCut line) : ParsedSafely line := by
  have hkind := column_kind line
  have hpayload := column_payload line
  rw [if_neg h.1] at hkind
  by_cases hclear : atoi (kindOf line) = TYPE_CLEAR_MEMTXS
  · have hrun : parse line = .ok { reset with type_ := atoi (kindOf line) } := by
      unfold parse
      simp only [elementAt_some hkind, bind, Except.bind, if_pos hclear]
      rfl
    refine .of_ok hrun hkind ?_
    rw [hclear]
    exact .clear hclear
  · rw [if_neg (h.2.resolve_left hclear)] at hpayload
    exact parsedSafely_of_columns hkind hpayload hclear

/-- The accesses stay in range exactly on the lines that have the columns their type needs. -/
theorem parsedSafely_iff (line : Bytes) : ParsedSafely line ↔ WellCut line := by
  constructor
  · intro h
    by_contra hcut
    rw [ParsedSafely, parse_outOfRange hcut] at h
    exact h rfl
  · exact parsedSafely_of_wellCut

/-- `2016-01-01 12:13:14,1`, the line of a block that was cut off after its type -/
def truncatedLine : Bytes :=
  [50, 48, 49, 54, 45, 48, 49, 45, 48, 49, 32, 49, 50, 58, 49, 51, 58, 49, 52, 44, 49]

theorem not_parsedSafely_truncatedLine : ¬ParsedSafely truncatedLine := by
  have hrun : parse truncatedLine = .error .outOfRange := by decide +kernel
  rw [ParsedSafely, hrun]
  exact fun h => h rfl

end Log1Item

end ExplorerKV.Logs

import ExplorerKV.Foundation.Digits
import ExplorerKV.Foundation.Machine

/-!
# JSON texts

A machine that reads a JSON text byte by byte, with a stack of the arrays and
objects that are open.  Numbers and strings are kept as they are spelled.  A
piece is a printed text together with the value it should spell and the
condition on which it does; pieces are put together as values are.
-/

namespace ExplorerKV.Foundation

def ascii (s : String) : Bytes := s.toList.map fun c => c.toNat.toUInt8

inductive Json where
  | null
  | bool (b : Bool)
  | num (text : Bytes)
  | str (text : Bytes)
  | arr (items : List Json)
  | obj (members : List (Bytes × Json))

namespace Json

/-! ## The machine -/

inductive Escape where
  | none
  | backslash
  /-- digits of `\\u` that are still to come -/
  | hex (digits : Nat)

inductive NumberPart where
  | minus
  | zero
  | int
  | point
  | frac
  | e
  | sign
  | exp

inductive Mode where
  | value
  | firstItem
  | firstKey
  | key
  | colon
  /-- A value has ended inside an array or an object. -/
  | after
  | done (v : Json)
  | string (isKey : Bool) (text : Bytes) (esc : Escape)
  | number (text : Bytes) (part : NumberPart)
  | word (rest : Bytes) (v : Json)

/-- What is open: an array with its items so far, an object with its members and the last key. -/
inductive Frame where
  | arr (items : List Json)
  | obj (members : List (Bytes × Json)) (key : Bytes)

structure State where
  stack : List Frame
  mode : Mode

def isBlank (c : UInt8) : Bool := c = 32 || c = 9 || c = 10 || c = 13

def isDigit (c : UInt8) : Bool := 48 ≤ c && c ≤ 57

def isHexDigit (c : UInt8) : Bool := isDigit c || (97 ≤ c && c ≤ 102) || (65 ≤ c && c ≤ 70)

def complete : List Frame → Json → State
  | [], v => ⟨[], .done v⟩
  | .arr items :: stack, v => ⟨.arr (items ++ [v]) :: stack, .after⟩
  | .obj members key :: stack, v => ⟨.obj (members ++ [(key, v)]) key :: stack, .after⟩

def beginValue (stack : List Frame) (c : UInt8) : Option State :=
  if c = 34 then some ⟨stack, .string false [] .none⟩
  else if c = 91 then some ⟨.arr [] :: stack, .firstItem⟩
  else if c = 123 then some ⟨.obj [] [] :: stack, .firstKey⟩
  else if c = 45 then some ⟨stack, .number [c] .minus⟩
  else if c = 48 then some ⟨stack, .number [c] .zero⟩
  else if isDigit c then some ⟨stack, .number [c] .int⟩
  else if c = 116 then some ⟨stack, .word (ascii "rue") (.bool true)⟩
  else if c = 102 then some ⟨stack, .word (ascii "alse") (.bool false)⟩
  else if c = 110 then some ⟨stack, .word (ascii "ull") .null⟩
  else none

def afterValue : State → UInt8 → Option State
  | ⟨.arr items :: stack, .after⟩, c =>
      if c = 44 then some ⟨.arr items :: stack, .value⟩
      else if c = 93 then some (complete stack (.arr items))
      else if isBlank c then some ⟨.arr items :: stack, .after⟩
      else none
  | ⟨.obj members key :: stack, .after⟩, c =>
      if c = 44 then some ⟨.obj members key :: stack, .key⟩
      else if c = 125 then some (complete stack (.obj members))
      else if isBlank c then some ⟨.obj members key :: stack, .after⟩
      else none
  | s, c => if isBlank c then some s else none

def NumberPart.next : NumberPart → UInt8 → Option NumberPart
  | .minus, c => if c = 48 then some .zero else if isDigit c then some .int else none
  | .zero, c => if c = 46 then some .point else if c = 69 ∨ c = 101 then some .e else none
  | .int, c =>
      if isDigit c then some .int else if c = 46 then some .point
      else if c = 69 ∨ c = 101 then some .e else none
  | .point, c => if isDigit c then some .frac else none
  | .frac, c =>
      if isDigit c then some .frac else if c = 69 ∨ c = 101 then some .e else none
  | .e, c =>
      if isDigit c then some .exp else if c = 43 ∨ c = 45 then some .sign else none
  | .sign, c => if isDigit c then some .exp else none
  | .exp, c => if isDigit c then some .exp else none

def NumberPart.ends : NumberPart → Bool
  | .zero | .int | .frac | .exp => true
  | _ => false

def stepString (stack : List Frame) (isKey : Bool) (text : Bytes) : Escape → UInt8 → Option State
  | .none, c =>
      if c = 34 then
        match isKey, stack with
        | true, .obj members _ :: stack => some ⟨.obj members text :: stack, .colon⟩
        | true, _ => none
        | false, stack => some (complete stack (.str text))
      else if c = 92 then some ⟨stack, .string isKey (text ++ [c]) .backslash⟩
      else if c < 32 then none
      else some ⟨stack, .string isKey (text ++ [c]) .none⟩
  | .backslash, c =>
      if c = 117 then some ⟨stack, .string isKey (text ++ [c]) (.hex 4)⟩
      else if c ∈ [34, 92, 47, 98, 102, 110, 114, 116] then
        some ⟨stack, .string isKey (text ++ [c]) .none⟩
      else none
  | .hex digits, c =>
      if isHexDigit c then
        some ⟨stack, .string isKey (text ++ [c])
          (if digits ≤ 1 then .none else .hex (digits - 1))⟩
      else none

def step (s : State) (c : UInt8) : Option State :=
  match s.mode with
  | .value => if isBlank c then some s else beginValue s.stack c
  | .firstItem =>
      if isBlank c then some s
      else
        match s.stack with
        | .arr items :: stack =>
            if c = 93 then some (complete stack (.arr items)) else beginValue s.stack c
        | _ => none
  | .firstKey =>
      if isBlank c then some s
      else if c = 34 then some ⟨s.stack, .string true [] .none⟩
      else
        match s.stack with
        | .obj members _ :: stack => if c = 125 then some (complete stack (.obj members)) else none
        | _ => none
  | .key =>
      if isBlank c then some s
      else if c = 34 then some ⟨s.stack, .string true [] .none⟩ else none
  | .colon => if isBlank c then some s else if c = 58 then some ⟨s.stack, .value⟩ else none
  | .after => afterValue s c
  | .done _ => afterValue s c
  | .string isKey text esc => stepString s.stack isKey text esc c
  | .number text part =>
      match part.next c with
      | some part => some ⟨s.stack, .number (text ++ [c]) part⟩
      | none => if part.ends then afterValue (complete s.stack (.num text)) c else none
  | .word rest v =>
      match rest with
      | [] => none
      | [r] => if c = r then some (complete s.stack v) else none
      | r :: rest => if c = r then some ⟨s.stack, .word rest v⟩ else none

def settle (s : State) : State :=
  match s.mode with
  | .number text part => if part.ends then complete s.stack (.num text) else s
  | _ => s

def parse (text : Bytes) : Option Json :=
  match runs step ⟨[], .value⟩ text with
  | none => none
  | some s =>
      match (settle s).mode with
      | .done v => some v
      | _ => none

/-! ## Texts that spell a value -/

/-- The value is complete, or will be with the next byte that is no part of a number. -/
def Completed (stack : List Frame) (v : Json) (s : State) : Prop :=
  s = complete stack v ∨
    ∃ text part, s = ⟨stack, .number text part⟩ ∧ part.ends ∧ v = .num text

inductive Starts : List Frame → Mode → Prop where
  | value (stack : List Frame) : Starts stack .value
  | firstItem (items : List Json) (stack : List Frame) : Starts (.arr items :: stack) .firstItem

/-- Where a value may begin, `text` is read as `v` if `good` holds, and is refused otherwise. -/
def Spells (good : Prop) (text : Bytes) (v : Json) : Prop :=
  ∀ stack mode, Starts stack mode →
    (good → ∃ s, runs step ⟨stack, mode⟩ text = some s ∧ Completed stack v s) ∧
      (¬good → runs step ⟨stack, mode⟩ text = none)

theorem step_complete (stack : List Frame) (v : Json) (c : UInt8) :
    step (complete stack v) c = afterValue (complete stack v) c := by
  cases stack with
  | nil => rfl
  | cons frame stack => cases frame <;> rfl

theorem next_ending (part : NumberPart) {c : UInt8} (hc : c = 44 ∨ c = 93 ∨ c = 125) :
    part.next c = none := by
  rcases hc with rfl | rfl | rfl <;> cases part <;> rfl

theorem Completed.follow {stack : List Frame} {v : Json} {s : State} (h : Completed stack v s)
    {c : UInt8} (hc : c = 44 ∨ c = 93 ∨ c = 125) :
    step s c = afterValue (complete stack v) c := by
  rcases h with rfl | ⟨text, part, rfl, hends, rfl⟩
  · exact step_complete stack v c
  · simp only [step, next_ending part hc, hends, if_true]

theorem parse_of_spells {good : Prop} {text : Bytes} {v : Json} (h : Spells good text v) :
    (good → parse text = some v) ∧ (¬good → parse text = none) := by
  obtain ⟨hgood, hbad⟩ := h [] .value (.value [])
  constructor
  · intro hg
    obtain ⟨s, hs, rfl | ⟨number, part, rfl, hends, rfl⟩⟩ := hgood hg
    · rw [parse, hs]
      rfl
    · simp [parse, hs, settle, hends, complete]
  · intro hg
    rw [parse, hbad hg]

/-! ## Strings, numbers and truth values -/

/-- A text that stands in quotes as it is. -/
structure PlainText where
  bytes : Bytes
  plain : ∀ b ∈ bytes, 32 ≤ b ∧ b ≠ 34 ∧ b ≠ 92

def quoted (s : Bytes) : Bytes := [34] ++ s ++ [34]

section Scalars

variable {stack : List Frame} {mode : Mode}

theorem step_start (h : Starts stack mode) {c : UInt8} (hblank : isBlank c = false)
    (hclose : c ≠ 93) : step ⟨stack, mode⟩ c = beginValue stack c := by
  cases h with
  | value => simp [step, hblank]
  | firstItem items stack => simp [step, hblank, hclose]

theorem runs_plain (isKey : Bool) (done : Bytes) {s : Bytes}
    (hplain : ∀ b ∈ s, 32 ≤ b ∧ b ≠ 34 ∧ b ≠ 92) :
    runs step ⟨stack, .string isKey done .none⟩ s =
      some ⟨stack, .string isKey (done ++ s) .none⟩ := by
  induction s generalizing done with
  | nil => simp
  | cons b s ih =>
      obtain ⟨⟨hlow, hquote, hescape⟩, hs⟩ := List.forall_mem_cons.mp hplain
      have hstep : step ⟨stack, .string isKey done .none⟩ b =
          some ⟨stack, .string isKey (done ++ [b]) .none⟩ := by
        simp [step, stepString, hquote, hescape, UInt8.not_lt.mpr hlow]
      rw [runs_cons, hstep, Option.bind_some, ih _ hs]
      simp

theorem runs_quoted (h : Starts stack mode) (s : PlainText) :
    runs step ⟨stack, mode⟩ (quoted s.bytes) = some (complete stack (.str s.bytes)) := by
  have hbegin : step ⟨stack, mode⟩ 34 = some ⟨stack, .string false [] .none⟩ :=
    step_start h (by decide) (by decide)
  rw [quoted, runs_append, List.singleton_append, runs_cons, hbegin, Option.bind_some,
    runs_plain false [] s.plain, Option.bind_some, runs_cons]
  rfl

theorem spells_quoted (s : PlainText) : Spells True (quoted s.bytes) (.str s.bytes) :=
  fun _ _ h => ⟨fun _ => ⟨_, runs_quoted h s, .inl rfl⟩, fun hnot => absurd trivial hnot⟩

theorem spells_bool (b : Bool) : Spells True (ascii (if b then "true" else "false")) (.bool b) := by
  intro stack mode h
  refine ⟨fun _ => ⟨complete stack (.bool b), ?_, .inl rfl⟩, fun hnot => absurd trivial hnot⟩
  cases h <;> cases b <;> rfl

theorem runs_digits (text : Bytes) {digits : Bytes} (h : ∀ b ∈ digits, 48 ≤ b ∧ b ≤ 57) :
    runs step ⟨stack, .number text .int⟩ digits = some ⟨stack, .number (text ++ digits) .int⟩ := by
  induction digits generalizing text with
  | nil => simp
  | cons b digits ih =>
      obtain ⟨⟨hlow, hhigh⟩, hdigits⟩ := List.forall_mem_cons.mp h
      have hstep : step ⟨stack, .number text .int⟩ b =
          some ⟨stack, .number (text ++ [b]) .int⟩ := by
        simp [step, NumberPart.next, isDigit, hlow, hhigh]
      rw [runs_cons, hstep, Option.bind_some, ih _ hdigits]
      simp

theorem runs_decimal {s : State} (text : Bytes)
    (hzero : step s 48 = some ⟨stack, .number (text ++ [48]) .zero⟩)
    (hdigit : ∀ b, 49 ≤ b → b ≤ 57 → step s b = some ⟨stack, .number (text ++ [b]) .int⟩)
    (n : Nat) : ∃ part : NumberPart, part.ends ∧
      runs step s (decimalText n) = some ⟨stack, .number (text ++ decimalText n) part⟩ := by
  rcases decimalText_cases n with h | ⟨b, rest, h, hlow, hhigh, hrest⟩
  · refine ⟨.zero, rfl, ?_⟩
    rw [h, runs_cons, hzero]
    rfl
  · refine ⟨.int, rfl, ?_⟩
    rw [h, runs_cons, hdigit b hlow hhigh, Option.bind_some, runs_digits _ hrest]
    simp

theorem isDigit_of_le : ∀ {b : UInt8}, 49 ≤ b → b ≤ 57 → isDigit b = true ∧ b ≠ 48 := by
  decide +kernel

theorem beginValue_digit (stack : List Frame) {b : UInt8} (hlow : 49 ≤ b) (hhigh : b ≤ 57) :
    isBlank b = false ∧ b ≠ 93 ∧ beginValue stack b = some ⟨stack, .number [b] .int⟩ := by
  have hother : isBlank b = false ∧ b ≠ 93 ∧ b ≠ 34 ∧ b ≠ 91 ∧ b ≠ 123 ∧ b ≠ 45 := by
    revert b
    decide +kernel
  obtain ⟨hdigit, hzero⟩ := isDigit_of_le hlow hhigh
  obtain ⟨hblank, hclose, hquote, harray, hobject, hminus⟩ := hother
  refine ⟨hblank, hclose, ?_⟩
  simp [beginValue, hquote, harray, hobject, hminus, hzero, hdigit]

theorem spells_int (i : Int) : Spells True (intText i) (.num (intText i)) := by
  intro stack mode h
  refine ⟨fun _ => ?_, fun hnot => absurd trivial hnot⟩
  have hread : ∃ part : NumberPart, part.ends ∧
      runs step ⟨stack, mode⟩ (intText i) = some ⟨stack, .number (intText i) part⟩ := by
    cases i with
    | ofNat n =>
        apply runs_decimal []
        · exact step_start h (by decide) (by decide)
        · intro b hlow hhigh
          obtain ⟨hblank, hclose, hbegin⟩ := beginValue_digit stack hlow hhigh
          rw [step_start h hblank hclose, hbegin, List.nil_append]
    | negSucc n =>
        have hminus : step ⟨stack, mode⟩ 45 = some ⟨stack, .number [45] .minus⟩ :=
          step_start h (by decide) (by decide)
        rw [intText, runs_cons, hminus, Option.bind_some]
        apply runs_decimal [45]
        · rfl
        · intro b hlow hhigh
          obtain ⟨hdigit, hzero⟩ := isDigit_of_le hlow hhigh
          simp [step, NumberPart.next, hdigit, hzero]
  obtain ⟨part, hends, hruns⟩ := hread
  exact ⟨_, hruns, .inr ⟨_, part, rfl, hends, rfl⟩⟩

end Scalars

/-! ## Pieces -/

/-- A printed text with the value it spells if `good` holds; otherwise it is no JSON. -/
structure Piece where
  text : Bytes
  val : Json
  good : Prop
  spells : Spells good text val

def commaJoined : List Bytes → Bytes
  | [] => []
  | [t] => t
  | t :: ts => t ++ 44 :: commaJoined ts

def terminated (texts : List Bytes) : Bytes := texts.flatMap fun t => t ++ [44]

theorem terminated_append (ts us : List Bytes) :
    terminated (ts ++ us) = terminated ts ++ terminated us :=
  List.flatMap_append

theorem commaJoined_cons {t : Bytes} {ts : List Bytes} (hne : ts ≠ []) :
    commaJoined (t :: ts) = t ++ 44 :: commaJoined ts := by
  cases ts with
  | nil => exact absurd rfl hne
  | cons u us => rfl

theorem commaJoined_concat (texts : List Bytes) (t : Bytes) :
    commaJoined (texts ++ [t]) = terminated texts ++ t := by
  induction texts with
  | nil => rfl
  | cons u texts ih =>
      rw [List.cons_append, commaJoined_cons (List.concat_ne_nil t texts), ih]
      simp [terminated]

theorem commaJoined_append (ts : List Bytes) {us : List Bytes} (hne : us ≠ []) :
    commaJoined (ts ++ us) = terminated ts ++ commaJoined us := by
  obtain ⟨front, t, rfl⟩ := (List.eq_nil_or_concat' us).resolve_left hne
  rw [← List.append_assoc, commaJoined_concat, commaJoined_concat, terminated_append,
    List.append_assoc]

section Joined

variable {α : Type} {text : α → Bytes} {good : α → Prop} {begins : List α → State → Prop}
  {closed : List α → State} {close : UInt8}

/--
Entries with commas between them, up to the end of what holds them: each entry
that is good leads to where the next one begins, any other stops the machine.
-/
theorem runs_joined
    (hbad : ∀ done x s, begins done s → ¬good x → runs step s (text x) = none)
    (hgood : ∀ done x s, begins done s → good x → ∃ t, runs step s (text x) = some t ∧
      (∃ u, step t 44 = some u ∧ begins (done ++ [x]) u) ∧
      step t close = some (closed (done ++ [x])))
    (done xs : List α) (hne : xs ≠ []) {s : State} (hs : begins done s) :
    ((∀ x ∈ xs, good x) →
      runs step s (commaJoined (xs.map text) ++ [close]) = some (closed (done ++ xs))) ∧
    ((¬∀ x ∈ xs, good x) → runs step s (commaJoined (xs.map text) ++ [close]) = none) := by
  induction xs generalizing done s with
  | nil => exact absurd rfl hne
  | cons x xs ih =>
      have hstop : ∀ rest : Bytes, ¬good x → runs step s (text x ++ rest) = none :=
        fun rest hx => by
          rw [runs_append, hbad done x s hs hx]
          rfl
      cases xs with
      | nil =>
          rw [List.map_singleton, commaJoined, List.forall_mem_singleton]
          refine ⟨fun hx => ?_, hstop [close]⟩
          obtain ⟨t, ht, -, hclose⟩ := hgood done x s hs hx
          rw [runs_append, ht, Option.bind_some, runs_cons, hclose]
          rfl
      | cons y xs =>
          have htext : commaJoined ((x :: y :: xs).map text) ++ [close] =
              text x ++ 44 :: (commaJoined ((y :: xs).map text) ++ [close]) := by
            simp [commaJoined]
          rw [htext, List.forall_mem_cons]
          by_cases hx : good x
          · obtain ⟨t, ht, ⟨u, hcomma, hu⟩, -⟩ := hgood done x s hs hx
            obtain ⟨ihgood, ihbad⟩ := ih (done ++ [x]) (List.cons_ne_nil y xs) hu
            rw [runs_append, ht, Option.bind_some, runs_cons, hcomma, Option.bind_some]
            constructor
            · intro hall
              rw [ihgood hall.2, List.append_assoc, List.singleton_append]
            · intro hnot
              exact ihbad fun hrest => hnot ⟨hx, hrest⟩
          · exact ⟨fun hall => absurd hall.1 hx, fun _ => hstop _ hx⟩

end Joined

/-! ## Arrays and objects -/

def arrayText (items : List Bytes) : Bytes := [91] ++ commaJoined items ++ [93]

theorem spells_array (items : List Piece) :
    Spells (∀ p ∈ items, p.good) (arrayText (items.map Piece.text))
      (.arr (items.map Piece.val)) := by
  intro stack mode h
  have hbegin : step ⟨stack, mode⟩ 91 = some ⟨.arr [] :: stack, .firstItem⟩ :=
    step_start h (by decide) (by decide)
  rw [arrayText, List.append_assoc, List.singleton_append, runs_cons, hbegin, Option.bind_some]
  by_cases hne : items = []
  · subst hne
    exact ⟨fun _ => ⟨_, rfl, .inl rfl⟩, fun hnot => absurd (by simp) hnot⟩
  · let begins (done : List Piece) (s : State) : Prop :=
      ∃ mode, Starts (.arr (done.map Piece.val) :: stack) mode ∧
        s = ⟨.arr (done.map Piece.val) :: stack, mode⟩
    have hbad : ∀ done (p : Piece) s, begins done s → ¬p.good → runs step s p.text = none := by
      rintro done p s ⟨mode, hmode, rfl⟩ hp
      exact (p.spells _ _ hmode).2 hp
    have hgood : ∀ done (p : Piece) s, begins done s → p.good →
        ∃ t, runs step s p.text = some t ∧ (∃ u, step t 44 = some u ∧ begins (done ++ [p]) u) ∧
          step t 93 = some (complete stack (.arr ((done ++ [p]).map Piece.val))) := by
      rintro done p s ⟨mode, hmode, rfl⟩ hp
      obtain ⟨t, ht, hcompleted⟩ := (p.spells _ _ hmode).1 hp
      rw [List.map_append, List.map_singleton]
      refine ⟨t, ht, ⟨⟨.arr (done.map Piece.val ++ [p.val]) :: stack, .value⟩, ?_, .value, ?_⟩, ?_⟩
      · rw [hcompleted.follow (.inl rfl)]
        rfl
      · rw [List.map_append, List.map_singleton]
        exact ⟨.value _, rfl⟩
      · rw [hcompleted.follow (.inr (.inl rfl))]
        rfl
    obtain ⟨hall, hnone⟩ := @runs_joined Piece Piece.text Piece.good begins
      (fun done => complete stack (.arr (done.map Piece.val))) 93 hbad hgood [] items hne _
      ⟨.firstItem, .firstItem [] stack, rfl⟩
    exact ⟨fun h => ⟨_, hall h, .inl rfl⟩, hnone⟩

structure Member where
  key : PlainText
  piece : Piece

def Member.text (m : Member) : Bytes := quoted m.key.bytes ++ 58 :: m.piece.text

def Member.val (m : Member) : Bytes × Json := (m.key.bytes, m.piece.val)

def objectText (members : List Bytes) : Bytes := [123] ++ commaJoined members ++ [125]

theorem runs_key {members : List (Bytes × Json)} {key : Bytes} {stack : List Frame} {mode : Mode}
    (h : mode = .firstKey ∨ mode = .key) (k : PlainText) :
    runs step ⟨.obj members key :: stack, mode⟩ (quoted k.bytes ++ [58]) =
      some ⟨.obj members k.bytes :: stack, .value⟩ := by
  have hquote : step ⟨.obj members key :: stack, mode⟩ 34 =
      some ⟨.obj members key :: stack, .string true [] .none⟩ := by
    rcases h with rfl | rfl <;> rfl
  rw [quoted, runs_append, runs_append, List.singleton_append, runs_cons, hquote, Option.bind_some,
    runs_plain true [] k.plain]
  rfl

theorem spells_object (members : List Member) :
    Spells (∀ m ∈ members, m.piece.good) (objectText (members.map Member.text))
      (.obj (members.map Member.val)) := by
  intro stack mode h
  have hbegin : step ⟨stack, mode⟩ 123 = some ⟨.obj [] [] :: stack, .firstKey⟩ :=
    step_start h (by decide) (by decide)
  rw [objectText, List.append_assoc, List.singleton_append, runs_cons, hbegin, Option.bind_some]
  by_cases hne : members = []
  · subst hne
    exact ⟨fun _ => ⟨_, rfl, .inl rfl⟩, fun hnot => absurd (by simp) hnot⟩
  · let begins (done : List Member) (s : State) : Prop :=
      ∃ key mode, (mode = .firstKey ∨ mode = .key) ∧
        s = ⟨.obj (done.map Member.val) key :: stack, mode⟩
    have hvalue : ∀ done (m : Member) s, begins done s → runs step s m.text =
        runs step ⟨.obj (done.map Member.val) m.key.bytes :: stack, .value⟩ m.piece.text := by
      rintro done m s ⟨key, mode, hmode, rfl⟩
      have htext : m.text = (quoted m.key.bytes ++ [58]) ++ m.piece.text := by simp [Member.text]
      rw [htext, runs_append, runs_key hmode, Option.bind_some]
    have hbad : ∀ done (m : Member) s, begins done s → ¬m.piece.good →
        runs step s m.text = none := by
      intro done m s hs hm
      rw [hvalue done m s hs]
      exact (m.piece.spells _ _ (.value _)).2 hm
    have hgood : ∀ done (m : Member) s, begins done s → m.piece.good →
        ∃ t, runs step s m.text = some t ∧ (∃ u, step t 44 = some u ∧ begins (done ++ [m]) u) ∧
          step t 125 = some (complete stack (.obj ((done ++ [m]).map Member.val))) := by
      intro done m s hs hm
      obtain ⟨t, ht, hcompleted⟩ := (m.piece.spells _ _ (.value
        (.obj (done.map Member.val) m.key.bytes :: stack))).1 hm
      rw [hvalue done m s hs, List.map_append, List.map_singleton]
      refine ⟨t, ht, ⟨⟨.obj (done.map Member.val ++ [m.val]) m.key.bytes :: stack, .key⟩, ?_,
        m.key.bytes, .key, .inr rfl, ?_⟩, ?_⟩
      · rw [hcompleted.follow (.inl rfl)]
        rfl
      · rw [List.map_append, List.map_singleton]
      · rw [hcompleted.follow (.inr (.inr rfl))]
        rfl
    obtain ⟨hall, hnone⟩ := @runs_joined Member Member.text (fun m => m.piece.good) begins
      (fun done => complete stack (.obj (done.map Member.val))) 125 hbad hgood [] members hne _
      ⟨[], .firstKey, .inl rfl, rfl⟩
    exact ⟨fun h => ⟨_, hall h, .inl rfl⟩, hnone⟩

theorem spells_unseparated (items : List PlainText) :
    Spells (items.length ≤ 1) ([91] ++ items.flatMap (fun s => quoted s.bytes) ++ [93])
      (.arr (items.map fun s => .str s.bytes)) := by
  intro stack mode h
  have hbegin : step ⟨stack, mode⟩ 91 = some ⟨.arr [] :: stack, .firstItem⟩ :=
    step_start h (by decide) (by decide)
  rw [List.append_assoc, List.singleton_append, runs_cons, hbegin, Option.bind_some]
  cases items with
  | nil => exact ⟨fun _ => ⟨_, rfl, .inl rfl⟩, fun hnot => absurd (by simp) hnot⟩
  | cons s items =>
      have hfirst := runs_quoted (.firstItem [] stack) s
      rw [List.flatMap_cons, List.append_assoc, runs_append, hfirst, Option.bind_some]
      cases items with
      | nil => exact ⟨fun _ => ⟨_, rfl, .inl rfl⟩, fun hnot => absurd (by simp) hnot⟩
      | cons t items => exact ⟨fun hlength => absurd hlength (by simp), fun _ => rfl⟩

namespace Piece

def quoted (s : PlainText) : Piece := ⟨_, _, _, spells_quoted s⟩

def int (i : Int) : Piece := ⟨_, _, _, spells_int i⟩

def bool (b : Bool) : Piece := ⟨_, _, _, spells_bool b⟩

def array (items : List Piece) : Piece := ⟨_, _, _, spells_array items⟩

def object (members : List Member) : Piece := ⟨_, _, _, spells_object members⟩

def unseparated (items : List PlainText) : Piece := ⟨_, _, _, spells_unseparated items⟩

@[simp] theorem good_quoted (s : PlainText) : (quoted s).good ↔ True := Iff.rfl

@[simp] theorem good_int (i : Int) : (int i).good ↔ True := Iff.rfl

@[simp] theorem good_bool (b : Bool) : (bool b).good ↔ True := Iff.rfl

@[simp] theorem good_array (items : List Piece) :
    (array items).good ↔ ∀ p ∈ items, p.good := Iff.rfl

@[simp] theorem good_object (members : List Member) :
    (object members).good ↔ ∀ m ∈ members, m.piece.good := Iff.rfl

@[simp] theorem good_unseparated (items : List PlainText) :
    (unseparated items).good ↔ items.length ≤ 1 := Iff.rfl

end Piece

/-! ## Reading a value -/

def field? (key : Bytes) : Json → Option Json
  | .obj members => members.lookup key
  | _ => none

def items? : Json → Option (List Json)
  | .arr items => some items
  | _ => none

def str? : Json → Option Bytes
  | .str text => some text
  | _ => none

def num? : Json → Option Bytes
  | .num text => some text
  | _ => none

end Json

end ExplorerKV.Foundation

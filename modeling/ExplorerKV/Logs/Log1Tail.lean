import ExplorerKV.Foundation.TailReader

/-!
# Log2Producer reads what Log1Producer writes

The two programs share the directory `log1/files`.  `writeLog1` appends a line,
and leaves a file that has become too long; `initLog1` finds the highest file
again after a restart.  `tryReadLog1` hands on the lines after its position.
-/

namespace ExplorerKV.Logs

open Foundation

structure Log1Config where
  /-- `log1.file.max.size.mb`, in bytes -/
  log1FileMaxSize : Nat
  /-- `log1.files.max.num` -/
  keepLogNum : Int

structure Log1State where
  files : LogFiles
  log1FileIndex : Nat
  log1FileOffset : Nat
  reader : TailPc
  /-- the position the reader started from -/
  start : LogPos
  /-- the lines `tryReadLog1` has returned since -/
  delivered : List LogLine

inductive Log1Action where
  /-- `writeLog1`, and `initLog1` after a restart -/
  | writer (a : WriteAction)
  /-- `syncLog1` -/
  | syncLog1 (index offset : Nat)
  /-- `tryReadLog1`, up to the end of its loop -/
  | tryReadLog1 (a : TailAction)
  /-- the rest of it -/
  | finishRead
  deriving DecidableEq, Repr

/-- The loop of `tryRemoveOldLog1`, below a number. -/
def removeFilesBelow (names : Finset Nat) : Nat → Finset Nat
  | 0 => names
  | fileIdx + 1 =>
      if fileIdx ∈ names then removeFilesBelow (names.erase fileIdx) fileIdx else names

def tryRemoveOldLog1 (keepLogNum : Int) (names : Finset Nat) (log1FileIndex : Nat) :
    Finset Nat :=
  removeFilesBelow names ((log1FileIndex : Int) - keepLogNum + 1).toNat

/-- A position a run of the reader may start from: the start of a line. -/
def IsLineStart (f : LogFiles) (index offset : Nat) : Prop :=
  offset = 0 ∨ ∃ line ∈ f.log, line.file = index ∧ line.offset = offset

instance (f : LogFiles) (index offset : Nat) : Decidable (IsLineStart f index offset) :=
  inferInstanceAs (Decidable (_ ∨ _))

namespace Log1State

def initial : Log1State where
  files := .empty
  log1FileIndex := 0
  log1FileOffset := 0
  reader := .idle
  start := toLex (0, 0)
  delivered := []

def pos (s : Log1State) : LogPos := toLex (s.log1FileIndex, s.log1FileOffset)

variable (cfg : Log1Config)

/-- `tryReadLog1` with the lines of its loop and the offset it came to. -/
def finishRead (s : Log1State) (isNextExist : Bool) (lines : List LogLine) (offset : Nat) :
    Log1State :=
  if lines.length > 0 then
    { s with
      log1FileOffset := offset
      reader := .idle
      delivered := s.delivered ++ lines }
  else if isNextExist then
    { s with
      files := { s.files with
        names := tryRemoveOldLog1 cfg.keepLogNum s.files.names (s.log1FileIndex + 1) }
      log1FileIndex := s.log1FileIndex + 1
      log1FileOffset := 0
      reader := .idle }
  else { s with reader := .idle }

def step (s : Log1State) : Log1Action → Option Log1State
  | .writer a =>
      (s.files.step cfg.log1FileMaxSize a).map fun files => { s with files := files }
  | .syncLog1 index offset =>
      if IsLineStart s.files index offset then
        some { s with
          log1FileIndex := index
          log1FileOffset := offset
          reader := .idle
          start := toLex (index, offset)
          delivered := [] }
      else none
  | .tryReadLog1 a =>
      (tailStep 500 s.files s.log1FileIndex s.log1FileOffset s.reader a).map
        fun pc => { s with reader := pc }
  | .finishRead =>
      match s.reader with
      | .returned next lines offset => some (s.finishRead cfg next lines offset)
      | _ => none

def run (schedule : List Log1Action) : Option Log1State :=
  runs (step cfg) initial schedule

end Log1State

/-! ## Old files -/

theorem removeFilesBelow_subset (names : Finset Nat) (n : Nat) :
    removeFilesBelow names n ⊆ names := by
  induction n generalizing names with
  | zero => exact subset_rfl
  | succ n ih =>
      rw [removeFilesBelow]
      split
      · exact (ih _).trans (Finset.erase_subset _ _)
      · exact subset_rfl

theorem mem_removeFilesBelow {names : Finset Nat} {n i : Nat} (hi : i ∈ names) (hn : n ≤ i) :
    i ∈ removeFilesBelow names n := by
  induction n generalizing names with
  | zero => exact hi
  | succ n ih =>
      rw [removeFilesBelow]
      split
      · apply ih _ (by omega)
        exact Finset.mem_erase.mpr ⟨by omega, hi⟩
      · exact hi

theorem mem_tryRemoveOldLog1 {keepLogNum : Int} (hkeep : 0 < keepLogNum) {names : Finset Nat}
    {log1FileIndex i : Nat} (hi : i ∈ names) (hle : log1FileIndex ≤ i) :
    i ∈ tryRemoveOldLog1 keepLogNum names log1FileIndex :=
  mem_removeFilesBelow hi (by omega)

/-! ## Nothing is skipped and nothing comes twice -/

namespace Log1State

/-- What holds between any two steps of the two programs. -/
structure Inv (s : Log1State) : Prop where
  files : s.files.Inv
  atLine : s.files.AtLine s.log1FileIndex s.log1FileOffset
  delivered : linesAfter s.start s.files.log = s.delivered ++ linesAfter s.pos s.files.log
  start_le : s.start ≤ s.pos
  reached : s.start = s.pos ∨ s.files.Reached s.log1FileIndex s.log1FileOffset
  reader : TailInv s.files s.log1FileIndex s.log1FileOffset s.reader

variable {cfg : Log1Config} {s s' : Log1State}

theorem inv_initial : initial.Inv where
  files := LogFiles.inv_empty
  atLine := LogFiles.atLine_zero _ _
  delivered := rfl
  start_le := le_refl _
  reached := Or.inl rfl
  reader := trivial

theorem inv_writer (h : s.Inv) {files : LogFiles} (hfiles : files.Inv)
    (hgrows : s.files.Grows files) : Inv { s with files := files } where
  files := hfiles
  atLine := hgrows.atLine h.atLine
  delivered := by
    rcases h.reached with heq | hreached
    · have hnone : s.delivered = [] := by
        have hdelivered := h.delivered
        rw [heq] at hdelivered
        exact List.self_eq_append_left.mp hdelivered
      rw [hnone, List.nil_append, heq]
      rfl
    · exact hgrows.linesAfter s.delivered hreached h.start_le h.delivered
  start_le := h.start_le
  reached := h.reached.imp_right hgrows.reached
  reader := h.reader.grows hgrows

theorem inv_syncLog1 (h : s.Inv) {index offset : Nat}
    (hstart : IsLineStart s.files index offset) :
    Inv { s with
      log1FileIndex := index
      log1FileOffset := offset
      reader := .idle
      start := toLex (index, offset)
      delivered := [] } where
  files := h.files
  atLine := by
    rcases hstart with rfl | ⟨line, hline, rfl, rfl⟩
    · exact s.files.atLine_zero index
    · exact h.files.atLine_of_mem hline
  delivered := rfl
  start_le := le_refl _
  reached := Or.inl rfl
  reader := trivial

theorem inv_finishRead (hkeep : 0 < cfg.keepLogNum) (h : s.Inv) {next : Bool}
    {lines : List LogLine} {offset : Nat} (hreader : s.reader = .returned next lines offset) :
    (s.finishRead cfg next lines offset).Inv := by
  have hread := h.reader
  rw [hreader] at hread
  obtain ⟨hnext, hto, hat, hswitch⟩ := hread
  have hdelivered := h.delivered
  rw [finishRead]
  split
  · constructor
    · exact h.files
    · exact hat
    · rw [pos, hto.split] at hdelivered
      rw [List.append_assoc]
      exact hdelivered
    · apply h.start_le.trans
      rw [pos, pos, Prod.Lex.toLex_le_toLex]
      exact Or.inr ⟨rfl, hto.le⟩
    · exact Or.inr (hat.reached hto.mem)
    · trivial
  · rename_i hlines
    have hnil : lines = [] := List.eq_nil_of_length_eq_zero (by omega)
    split
    · rename_i hn
      obtain ⟨last, hlast, hlt⟩ := hnext hn
      constructor
      · apply h.files.removeBelow (removeFilesBelow_subset _ _)
          (fun i hi hle => mem_tryRemoveOldLog1 hkeep hi hle) ⟨last, hlast, hlt⟩
      · exact LogFiles.atLine_zero _ _
      · rw [pos, hswitch hn hnil] at hdelivered
        exact hdelivered
      · apply h.start_le.trans
        rw [pos, pos, Prod.Lex.toLex_le_toLex]
        exact Or.inl (Nat.lt_succ_self _)
      · exact Or.inr ⟨⟨last, mem_tryRemoveOldLog1 hkeep hlast hlt, hlt⟩, Nat.zero_le _⟩
      · trivial
    · exact { h with reader := trivial }

theorem inv_step (hkeep : 0 < cfg.keepLogNum) {a : Log1Action} (h : s.Inv)
    (hstep : s.step cfg a = some s') : s'.Inv := by
  cases a with
  | writer a =>
      obtain ⟨files, hfiles, rfl⟩ := Option.map_eq_some_iff.mp hstep
      obtain ⟨hinv, hgrows⟩ := LogFiles.inv_step h.files hfiles
      exact inv_writer h hinv hgrows
  | syncLog1 index offset =>
      obtain ⟨hstart, rfl⟩ := Option.ite_some_none_eq_some.mp hstep
      exact inv_syncLog1 h hstart
  | tryReadLog1 a =>
      obtain ⟨pc, hpc, rfl⟩ := Option.map_eq_some_iff.mp hstep
      exact { h with reader := tailInv_step h.reader h.files h.atLine hpc }
  | finishRead =>
      cases hreader : s.reader with
      | returned next lines offset =>
          simp only [step, hreader, Option.some.injEq] at hstep
          subst hstep
          exact inv_finishRead hkeep h hreader
      | idle | checked | reading | failed => simp [step, hreader] at hstep

theorem run_inv (hkeep : 0 < cfg.keepLogNum) {schedule : List Log1Action}
    (hrun : run cfg schedule = some s) : s.Inv :=
  runs_inv_state Inv inv_initial (fun _ _ _ h hstep => inv_step hkeep h hstep) hrun

end Log1State

/-- The lines handed on are the first of those written after the start, each once. -/
theorem tryReadLog1_exactlyOnce (cfg : Log1Config) (hkeep : 0 < cfg.keepLogNum)
    (schedule : List Log1Action) (s : Log1State)
    (hrun : Log1State.run cfg schedule = some s) :
    s.delivered <+: linesAfter s.start s.files.log ∧
      ∀ line ∈ s.delivered, s.files.AtLine line.file line.offset := by
  have hinv := Log1State.run_inv hkeep hrun
  have hbegins : s.delivered <+: linesAfter s.start s.files.log :=
    ⟨_, hinv.delivered.symm⟩
  refine ⟨hbegins, ?_⟩
  intro line hline
  exact hinv.files.atLine_of_mem (mem_linesAfter.mp (hbegins.subset hline)).1

def exampleLog1Schedule : List Log1Action :=
  [.writer (.write [[65]]), .writer .reveal, .tryReadLog1 .check, .writer .reveal,
    .tryReadLog1 .openFile, .tryReadLog1 (.fetch 1), .tryReadLog1 .getc, .tryReadLog1 .getc,
    .writer .finish, .writer (.write [[66]]), .writer .reveal, .tryReadLog1 (.fetch 1),
    .finishRead, .writer .reveal, .tryReadLog1 .check, .tryReadLog1 .openFile,
    .tryReadLog1 (.fetch 1), .finishRead, .tryReadLog1 .check, .tryReadLog1 .openFile,
    .tryReadLog1 (.fetch 1), .tryReadLog1 .getc, .tryReadLog1 .getc, .tryReadLog1 (.fetch 1),
    .finishRead]

theorem tryReadLog1_exactlyOnce_example :
    ∃ s, Log1State.run ⟨0, 72⟩ exampleLog1Schedule = some s ∧ s.delivered.length = 2 ∧
      s.delivered <+: linesAfter s.start s.files.log := by
  have hrun : ((Log1State.run ⟨0, 72⟩ exampleLog1Schedule).map
      fun s => s.delivered.length) = some 2 := by decide +kernel
  obtain ⟨s, hs, hlength⟩ := Option.map_eq_some_iff.mp hrun
  exact ⟨s, hs, hlength, (tryReadLog1_exactlyOnce ⟨0, 72⟩ (by decide) _ s hs).1⟩

/-! ## Lines that are written can be read -/

theorem runs_writer (cfg : Log1Config) (s : Log1State) (actions : List WriteAction) :
    runs (Log1State.step cfg) s (actions.map .writer) =
      (runs (LogFiles.step cfg.log1FileMaxSize) s.files actions).map
        fun files => { s with files := files } := by
  induction actions generalizing s with
  | nil => rfl
  | cons a actions ih =>
      rw [List.map_cons, runs_cons, runs_cons, Log1State.step]
      cases s.files.step cfg.log1FileMaxSize a with
      | none => rfl
      | some files => exact ih { s with files := files }

theorem runs_tryReadLog1 (cfg : Log1Config) (s : Log1State) (actions : List TailAction) :
    runs (Log1State.step cfg) s (actions.map .tryReadLog1) =
      (runs (tailStep 500 s.files s.log1FileIndex s.log1FileOffset) s.reader actions).map
        fun pc => { s with reader := pc } := by
  induction actions generalizing s with
  | nil => rfl
  | cons a actions ih =>
      rw [List.map_cons, runs_cons, runs_cons, Log1State.step]
      cases tailStep 500 s.files s.log1FileIndex s.log1FileOffset s.reader a with
      | none => rfl
      | some pc => exact ih { s with reader := pc }

theorem reveal_rest (maxSize : Nat) {f : LogFiles} {line rest : Bytes}
    (hwriter : f.writer = .writing line rest) :
    ∃ f', runs (LogFiles.step maxSize) f (List.replicate rest.length .reveal) = some f' ∧
      f'.names = f.names ∧ f'.index = f.index ∧
        f'.content f.current = f.content f.current ++ rest := by
  induction rest generalizing f line with
  | nil => exact ⟨f, rfl, rfl, rfl, (List.append_nil _).symm⟩
  | cons b rest ih =>
      have hstep : ∃ f₁ line₁, f.step maxSize .reveal = some f₁ ∧
          f₁.writer = .writing line₁ rest ∧ f₁.names = f.names ∧ f₁.index = f.index ∧
            f₁.content f.current = f.content f.current ++ [b] := by
        by_cases hb : b = newline
        · refine ⟨{ f.appendByte b with
              writer := .writing [] rest
              log := f.log ++ [⟨f.current, (f.content f.current).length + 1, line⟩] }, [],
            ?_, rfl, rfl, rfl, Function.update_self ..⟩
          simp only [LogFiles.step, hwriter, if_pos hb]
        · refine ⟨{ f.appendByte b with writer := .writing (line ++ [b]) rest }, line ++ [b],
            ?_, rfl, rfl, rfl, Function.update_self ..⟩
          simp only [LogFiles.step, hwriter, if_neg hb]
      obtain ⟨f₁, line₁, hreveal, hwriter₁, hnames₁, hindex₁, hcontent₁⟩ := hstep
      obtain ⟨f', hrun, hnames, hindex, hcontent⟩ := ih hwriter₁
      have hcurrent : f₁.current = f.current := congrArg (·.getD 0) hindex₁
      rw [hcurrent, hcontent₁] at hcontent
      refine ⟨f', ?_, hnames.trans hnames₁, hindex.trans hindex₁, ?_⟩
      · rw [List.length_cons, List.replicate_succ, runs_cons, hreveal]
        exact hrun
      · rw [hcontent, List.append_assoc]
        rfl

section Tail

variable {maxLines index offset : Nat} {f : LogFiles} {next : Bool} {lines : List LogLine}

theorem getc_line {o : Nat} {text part avail : Bytes} (htext : newline ∉ text)
    (hmax : lines.length < maxLines) :
    runs (tailStep maxLines f index offset)
        (.reading next lines o part (text ++ newline :: avail))
        (List.replicate (text.length + 1) .getc) =
      some (.reading next
        (lines ++ [⟨index, o + (part ++ text).length + 1, part ++ text⟩])
        (o + (part ++ text).length + 1) [] avail) := by
  induction text generalizing part with
  | nil =>
      have hfew : ¬maxLines < lines.length + 1 := by omega
      simp [runs, tailStep, hfew]
  | cons b text ih =>
      have hb : b ≠ newline := fun heq => htext (heq ▸ .head _)
      have hgetc : tailStep maxLines f index offset
          (.reading next lines o part (b :: (text ++ newline :: avail))) .getc =
            some (.reading next lines o (part ++ [b]) (text ++ newline :: avail)) :=
        if_neg hb
      rw [List.length_cons, List.replicate_succ, runs_cons, List.cons_append, hgetc,
        Option.bind_some, ih (fun hmem => htext (.tail _ hmem)), List.append_assoc]
      rfl

theorem getc_lines (o : Nat) {texts : List Bytes} (htexts : ∀ text ∈ texts, newline ∉ text)
    (hmax : lines.length + texts.length ≤ maxLines) :
    ∃ read, read.map (·.text) = texts ∧
      runs (tailStep maxLines f index offset)
          (.reading next lines o [] (texts.flatMap (· ++ [newline])))
          (List.replicate (texts.flatMap (· ++ [newline])).length .getc) =
        some (.reading next (lines ++ read) (o + (texts.flatMap (· ++ [newline])).length)
          [] []) := by
  induction texts generalizing lines o with
  | nil => exact ⟨[], rfl, by simp⟩
  | cons text texts ih =>
      obtain ⟨htext, htexts⟩ := List.forall_mem_cons.mp htexts
      rw [List.length_cons] at hmax
      have hmax' : (lines ++ [LogLine.mk index (o + text.length + 1) text]).length +
          texts.length ≤ maxLines := by
        rw [List.length_append, List.length_singleton]
        omega
      obtain ⟨read, hread, hrun⟩ := ih (o + text.length + 1) htexts hmax'
      have hlength : (text ++ [newline] ++ texts.flatMap (· ++ [newline])).length =
          text.length + 1 + (texts.flatMap (· ++ [newline])).length := by
        rw [List.length_append, List.length_append, List.length_singleton]
      refine ⟨⟨index, o + text.length + 1, text⟩ :: read, by rw [List.map_cons, hread], ?_⟩
      rw [List.flatMap_cons, hlength, List.replicate_add, runs_append, List.append_assoc,
        List.singleton_append, getc_line htext (by omega)]
      simp only [List.nil_append, Option.bind_some]
      rw [hrun, List.append_assoc, List.singleton_append, ← Nat.add_assoc, ← Nat.add_assoc]

/-- A call of `tryReadLog1` that comes upon the end of the file behind `n` bytes. -/
def readActions (n : Nat) : List TailAction :=
  [.check, .openFile, .fetch n] ++ List.replicate n .getc ++ [.fetch 0]

theorem read_lines {texts : List Bytes} (hname : index ∈ f.names)
    (hcontent : f.content index = texts.flatMap (· ++ [newline])) (hne : texts ≠ [])
    (htexts : ∀ text ∈ texts, newline ∉ text) (hmax : texts.length ≤ maxLines) :
    ∃ read, read.map (·.text) = texts ∧
      runs (tailStep maxLines f index 0) .idle
          (readActions (texts.flatMap (· ++ [newline])).length) =
        some (.returned (decide (index + 1 ∈ f.names)) read
          (texts.flatMap (· ++ [newline])).length) := by
  have hmax' : ([] : List LogLine).length + texts.length ≤ maxLines := by
    rwa [List.length_nil, Nat.zero_add]
  obtain ⟨read, hread, hgetc⟩ :=
    @getc_lines maxLines index 0 f (decide (index + 1 ∈ f.names)) [] 0 texts htexts hmax'
  set bytes := texts.flatMap (· ++ [newline]) with hbytes
  have hbytes_ne : bytes ≠ [] := by
    obtain ⟨text, rest, rfl⟩ := List.exists_cons_of_ne_nil hne
    simp [hbytes]
  have hopen : runs (tailStep maxLines f index 0) .idle
      [.check, .openFile, .fetch bytes.length] =
        some (.reading (decide (index + 1 ∈ f.names)) [] 0 [] bytes) := by
    have hchunk : bytes.take (bytes.length + 1) = bytes :=
      List.take_of_length_le (Nat.le_succ _)
    simp [runs, tailStep, hname, hcontent, hchunk, hbytes_ne]
  have hend : tailStep maxLines f index 0
      (.reading (decide (index + 1 ∈ f.names)) read bytes.length [] []) (.fetch 0) =
        some (.returned (decide (index + 1 ∈ f.names)) read bytes.length) := by
    simp [tailStep, hcontent]
  refine ⟨read, hread, ?_⟩
  rw [readActions, runs_append, runs_append, hopen, Option.bind_some, hgetc, Option.bind_some,
    Nat.zero_add bytes.length, List.nil_append, runs_cons, hend]
  rfl

end Tail

theorem write_lines (maxSize : Nat) {texts : List Bytes}
    (htexts : ∀ text ∈ texts, newline ∉ text) :
    ∃ f, runs (LogFiles.step maxSize) .empty
        (.write texts :: List.replicate (texts.flatMap (· ++ [newline])).length .reveal) =
          some f ∧
      0 ∈ f.names ∧ f.content 0 = texts.flatMap (· ++ [newline]) := by
  have hwrite : LogFiles.empty.step maxSize (.write texts) =
      some { LogFiles.empty.openCurrent with
        writer := .writing [] (texts.flatMap (· ++ [newline])) } :=
    if_pos ⟨rfl, htexts⟩
  obtain ⟨f, hreveal, hnames, -, hcontent⟩ := reveal_rest maxSize
    (f := { LogFiles.empty.openCurrent with
      writer := .writing [] (texts.flatMap (· ++ [newline])) }) rfl
  refine ⟨f, ?_, hnames ▸ Finset.mem_insert_self 0 ∅, hcontent⟩
  rw [runs_cons, hwrite]
  exact hreveal

/-- A run in which the lines are written to the first file and read in one call. -/
theorem exists_delivered (cfg : Log1Config) {texts : List Bytes} (hne : texts ≠ [])
    (htexts : ∀ text ∈ texts, newline ∉ text) (hlength : texts.length ≤ 500) :
    ∃ schedule s, Log1State.run cfg schedule = some s ∧ s.delivered.map (·.text) = texts ∧
      ∀ texts', .writer (.write texts') ∈ schedule → texts' = texts := by
  set bytes := texts.flatMap (· ++ [newline])
  obtain ⟨f, hwrite, hname, hcontent⟩ := write_lines cfg.log1FileMaxSize htexts
  obtain ⟨read, hread, htail⟩ := read_lines hname hcontent hne htexts hlength
  have hlines : read.length > 0 := by
    rw [← List.length_map (·.text), hread]
    exact List.length_pos_iff.mpr hne
  have hwritten := (runs_writer cfg .initial _).trans (congrArg (Option.map _) hwrite)
  have hreturned := (runs_tryReadLog1 cfg { Log1State.initial with files := f } _).trans
    (congrArg (Option.map _) htail)
  refine ⟨(.write texts :: List.replicate bytes.length .reveal).map .writer ++
      (readActions bytes.length).map .tryReadLog1 ++ [.finishRead],
    { Log1State.initial with files := f, log1FileOffset := bytes.length, delivered := read },
    ?_, hread, fun texts' hmem => ?_⟩
  · rw [Log1State.run, runs_append, runs_append, hwritten, Option.map_some, Option.bind_some,
      hreturned, Option.map_some, Option.bind_some]
    exact congrArg some (if_pos hlines)
  · simpa [readActions] using hmem

end ExplorerKV.Logs

import ExplorerKV.Logs.Notify

/-!
# Events are delivered at least once

The daemon handles the lines in their order.  What it has got past before a
crash it has inserted the rows for, and what it saves is a place it has got past;
so a restart repeats lines but leaves none out.
-/

namespace ExplorerKV.Logs

open Foundation

def EventStmt.inserted : EventStmt → Option (Int × EventRow)
  | .insert appId row => some (appId, row)
  | .trim _ => none

def dueRows (cfg : NotifyConfig) (line : LogLine) : List (Int × EventRow) :=
  match parse line.text with
  | .item item => (eventStmts cfg item).filterMap EventStmt.inserted
  | .unknownType | .abort => []

def EventTable.lines (t : EventTable) : List LogLine := t.rows.map Prod.fst

/-! ## First occurrences -/

/-- The first occurrences of lines stand in line order. -/
def FirstsInOrder (lines : List LogLine) : Prop :=
  ∀ e ∈ lines, ∀ e' ∈ lines, e.pos < e'.pos → lines.idxOf e < lines.idxOf e'

theorem firstsInOrder_snoc {lines : List LogLine} {e : LogLine} (h : FirstsInOrder lines)
    (he : e ∈ lines ∨ ∀ e' ∈ lines, e'.pos < e.pos) : FirstsInOrder (lines ++ [e]) := by
  have hold : ∀ x ∈ lines, (lines ++ [e]).idxOf x = lines.idxOf x :=
    fun x hx => List.idxOf_append_of_mem hx
  rcases he with he | he
  · have hmem : ∀ x ∈ lines ++ [e], x ∈ lines := by
      intro x hx
      rcases List.mem_append.mp hx with hx | hx
      · exact hx
      · rwa [List.mem_singleton.mp hx]
    intro x hx y hy hlt
    rw [hold x (hmem x hx), hold y (hmem y hy)]
    exact h x (hmem x hx) y (hmem y hy) hlt
  · intro x hx y hy hlt
    rw [List.mem_append, List.mem_singleton] at hx hy
    rcases hx with hx | rfl
    · rw [hold x hx]
      rcases hy with hy | rfl
      · rw [hold y hy]
        exact h x hx y hy hlt
      · by_cases hmem : y ∈ lines
        · rw [hold y hmem]
          exact h x hx y hmem hlt
        · rw [List.idxOf_append_of_notMem hmem]
          have := List.idxOf_lt_length_of_mem hx
          omega
    · rcases hy with hy | rfl
      · exact absurd (he y hy) (not_lt.mpr hlt.le)
      · exact absurd hlt (lt_irrefl _)

/-! ## The event tables -/

theorem rows_exec (line : LogLine) (table : Int → EventTable) (stmt : EventStmt) (appId : Int) :
    (EventTable.exec line table stmt appId).rows = (table appId).rows ++
      (stmt.inserted.toList.filter fun d => d.1 = appId).map fun d => (line, d.2) := by
  cases stmt with
  | insert appId' row =>
      by_cases h : appId' = appId
      · subst h
        simp [EventTable.exec, EventStmt.inserted]
      · simp [EventTable.exec, EventStmt.inserted, h, Ne.symm h]
  | trim appId' =>
      by_cases h : appId = appId'
      · subst h
        simp only [EventTable.exec, Function.update_self, EventTable.trim]
        split <;> simp [EventStmt.inserted]
      · simp [EventTable.exec, EventStmt.inserted, h]

theorem mem_rows_exec {line : LogLine} {table : Int → EventTable} {stmt : EventStmt}
    {appId : Int} {r : LogLine × EventRow} :
    r ∈ (EventTable.exec line table stmt appId).rows ↔
      r ∈ (table appId).rows ∨ (r.1 = line ∧ stmt.inserted = some (appId, r.2)) := by
  rw [rows_exec, List.mem_append]
  cases stmt.inserted with
  | none => simp
  | some d =>
      obtain ⟨appId', row⟩ := d
      by_cases h : appId' = appId
      · subst h
        simp [Prod.ext_iff, eq_comm]
      · simp [h]

/-- What the tables hold, given the history and the lines the daemon has got past. -/
structure TableInv (cfg : NotifyConfig) (log handled : List LogLine)
    (table : Int → EventTable) : Prop where
  handled : ∀ line ∈ handled, ∀ d ∈ dueRows cfg line, (line, d.2) ∈ (table d.1).rows
  sound : ∀ appId, ∀ r ∈ (table appId).rows, r.1 ∈ log ∧ (appId, r.2) ∈ dueRows cfg r.1
  closed : ∀ appId, ∀ line ∈ (table appId).lines, ∀ line' ∈ log, line'.pos < line.pos →
    ∀ row, (appId, row) ∈ dueRows cfg line' → line' ∈ (table appId).lines
  ordered : ∀ appId, FirstsInOrder (table appId).lines

section Tables

variable {cfg : NotifyConfig} {log handled : List LogLine} {table : Int → EventTable}

theorem mem_lines_of_mem_rows {t : EventTable} {line : LogLine} {row : EventRow}
    (h : (line, row) ∈ t.rows) : line ∈ t.lines :=
  List.mem_map_of_mem (f := Prod.fst) h

theorem mem_lines_exec {line x : LogLine} {stmt : EventStmt} {appId : Int} :
    x ∈ (EventTable.exec line table stmt appId).lines ↔
      x ∈ (table appId).lines ∨ (x = line ∧ ∃ row, stmt.inserted = some (appId, row)) := by
  simp only [EventTable.lines, List.mem_map, mem_rows_exec]
  constructor
  · rintro ⟨r, hr | ⟨rfl, hr⟩, rfl⟩
    · exact Or.inl ⟨r, hr, rfl⟩
    · exact Or.inr ⟨rfl, r.2, hr⟩
  · rintro (⟨r, hr, rfl⟩ | ⟨rfl, row, hrow⟩)
    · exact ⟨r, Or.inl hr, rfl⟩
    · exact ⟨(x, row), Or.inr ⟨rfl, hrow⟩, rfl⟩

theorem TableInv.mem_or_after (h : TableInv cfg log handled table)
    (hsorted : log.Pairwise fun e e' => e.pos < e'.pos) {line : LogLine} (hline : line ∈ log)
    {appId : Int} {row : EventRow} (hdue : (appId, row) ∈ dueRows cfg line) :
    line ∈ (table appId).lines ∨ ∀ e ∈ (table appId).lines, e.pos < line.pos := by
  by_cases hmem : line ∈ (table appId).lines
  · exact Or.inl hmem
  · right
    intro e he
    obtain ⟨r, hr, rfl⟩ := List.mem_map.mp he
    rcases lt_trichotomy r.1.pos line.pos with hlt | heq | hgt
    · exact hlt
    · rw [eq_of_pos_eq hsorted (h.sound appId r hr).1 hline heq] at he
      exact absurd he hmem
    · exact absurd (h.closed appId r.1 he line hline hgt row hdue) hmem

theorem TableInv.exec (h : TableInv cfg log handled table)
    (hsorted : log.Pairwise fun e e' => e.pos < e'.pos) {line : LogLine} (hline : line ∈ log)
    (hearlier : ∀ e ∈ log, e.pos < line.pos → e ∈ handled) {stmt : EventStmt}
    (hdue : ∀ d, stmt.inserted = some d → d ∈ dueRows cfg line) :
    TableInv cfg log handled (EventTable.exec line table stmt) := by
  have hold : ∀ appId, ∀ e ∈ log, e.pos < line.pos → ∀ row, (appId, row) ∈ dueRows cfg e →
      e ∈ (table appId).lines := fun appId e he hlt row hrow =>
    mem_lines_of_mem_rows (h.handled e (hearlier e he hlt) _ hrow)
  constructor
  · intro e he d hd
    exact mem_rows_exec.mpr (Or.inl (h.handled e he d hd))
  · intro appId r hr
    rcases mem_rows_exec.mp hr with hold | ⟨rfl, hnew⟩
    · exact h.sound appId r hold
    · exact ⟨hline, hdue _ hnew⟩
  · intro appId e he e' he' hlt row hrow
    rw [mem_lines_exec] at he ⊢
    rcases he with he | ⟨rfl, -⟩
    · exact Or.inl (h.closed appId e he e' he' hlt row hrow)
    · exact Or.inl (hold appId e' he' hlt row hrow)
  · intro appId
    have hordered := h.ordered appId
    rw [EventTable.lines, rows_exec, List.map_append]
    rw [EventTable.lines] at hordered
    cases hstmt : stmt.inserted with
    | none => simpa using hordered
    | some d =>
        obtain ⟨appId', row⟩ := d
        by_cases happ : appId' = appId
        · subst happ
          have hsnoc := firstsInOrder_snoc hordered (h.mem_or_after hsorted hline (hdue _ hstmt))
          simpa using hsnoc
        · simpa [happ] using hordered

end Tables

/-! ## Positions the daemon may be at -/

/-- A position every line up to which the daemon has got past. -/
structure PosInv (f : LogFiles) (handled : List LogLine) (index offset : Nat) : Prop where
  atLine : f.AtLine index offset
  reached : f.Reached index offset ∨ (index = 0 ∧ offset = 0)
  done : ∀ line ∈ f.log, line.pos ≤ toLex (index, offset) → line ∈ handled

section Positions

variable {cfg : NotifyConfig} {f f' : LogFiles} {handled : List LogLine}
  {table : Int → EventTable} {index offset : Nat}

theorem posInv_zero (f : LogFiles) (hf : f.Inv) (handled : List LogLine) :
    PosInv f handled 0 0 where
  atLine := f.atLine_zero 0
  reached := Or.inr ⟨rfl, rfl⟩
  done := by
    intro line hline hle
    obtain ⟨-, hpos, -⟩ := hf.of_mem hline
    rw [LogLine.pos, Prod.Lex.toLex_le_toLex] at hle
    dsimp only at hle
    omega

theorem PosInv.grows (h : PosInv f handled index offset) (hf' : f'.Inv)
    (hgrows : f.Grows f') : PosInv f' handled index offset where
  atLine := hgrows.atLine h.atLine
  reached := h.reached.imp_left hgrows.reached
  done := by
    intro line hline hle
    rcases h.reached with hreached | ⟨rfl, rfl⟩
    · obtain ⟨new, hlog, hnew⟩ := hgrows.new_lines hreached
      rw [hlog, List.mem_append] at hline
      rcases hline with hline | hline
      · exact h.done line hline hle
      · exact absurd hle (not_le.mpr (hnew line hline))
    · exact (posInv_zero f' hf' handled).done line hline hle

theorem PosInv.mono {handled' : List LogLine} (h : PosInv f handled index offset)
    (hsub : handled ⊆ handled') : PosInv f handled' index offset where
  atLine := h.atLine
  reached := h.reached
  done := fun line hline hle => hsub (h.done line hline hle)

theorem PosInv.of_line (hf : f.Inv) {line : LogLine} (hline : line ∈ f.log)
    (hearlier : ∀ e ∈ f.log, e.pos < line.pos → e ∈ handled) (hhandled : line ∈ handled) :
    PosInv f handled line.file line.offset where
  atLine := hf.atLine_of_mem hline
  reached := Or.inl (hf.reached_of_mem hline)
  done := by
    intro e he hle
    rcases lt_or_eq_of_le hle with hlt | heq
    · exact hearlier e he hlt
    · rwa [eq_of_pos_eq hf.sorted he hline heq]

theorem PosInv.next (h : PosInv f handled index offset) (hnext : f.NextExists index)
    (hswitch : linesAfter (toLex (index, offset)) f.log =
      linesAfter (toLex (index + 1, 0)) f.log) : PosInv f handled (index + 1) 0 where
  atLine := f.atLine_zero _
  reached := Or.inl hnext.reached
  done := by
    intro line hline hle
    apply h.done line hline
    by_contra hlt
    have hmem := mem_linesAfter.mpr ⟨hline, not_le.mp hlt⟩
    rw [hswitch, mem_linesAfter] at hmem
    exact absurd hle (not_le.mpr hmem.2)

theorem TableInv.handle {log : List LogLine} (h : TableInv cfg log handled table) {line : LogLine}
    (hrows : ∀ d ∈ dueRows cfg line, (line, d.2) ∈ (table d.1).rows) :
    TableInv cfg log (handled ++ [line]) table where
  handled := by
    intro e he
    rcases List.mem_append.mp he with he | he
    · exact h.handled e he
    · rwa [List.mem_singleton.mp he]
  sound := h.sound
  closed := h.closed
  ordered := h.ordered

theorem TableInv.grows (h : TableInv cfg f.log handled table) (hf' : f'.Inv)
    (hgrows : f.Grows f') : TableInv cfg f'.log handled table where
  handled := h.handled
  sound := by
    intro appId r hr
    obtain ⟨hmem, hdue⟩ := h.sound appId r hr
    exact ⟨hgrows.log_subset hmem, hdue⟩
  closed := by
    intro appId line hline line' hline' hlt
    obtain ⟨r, hr, rfl⟩ := List.mem_map.mp hline
    have hmem := hgrows.mem_of_lt hf' (h.sound appId r hr).1 hline' hlt
    exact h.closed appId r.1 hline line' hmem hlt
  ordered := h.ordered

end Positions

/-! ## Runs of the daemon -/

namespace NotifyState

/-- The rest of a batch: lines of the current file, next in the log. -/
structure BatchInv (s : NotifyState) (lines : List LogLine) : Prop where
  next : lines <+: linesAfter (toLex (s.logFileIndex, s.logFileOffset)) s.files.log
  file : ∀ line ∈ lines, line.file = s.logFileIndex

/-- A line some statements of which are still to be executed. -/
structure LineInv (cfg : NotifyConfig) (s : NotifyState) (line : LogLine)
    (stmts : List EventStmt) : Prop where
  mem : line ∈ s.files.log
  index : s.logFileIndex = line.file
  offset : s.logFileOffset = line.offset
  earlier : ∀ e ∈ s.files.log, e.pos < line.pos → e ∈ s.handled
  due : ∀ d, (∃ stmt ∈ stmts, stmt.inserted = some d) → d ∈ dueRows cfg line
  inserted : ∀ d ∈ dueRows cfg line,
    (∃ stmt ∈ stmts, stmt.inserted = some d) ∨ (line, d.2) ∈ (s.table d.1).rows

/-- What the daemon knows at each place of its loop. -/
def PcInv (cfg : NotifyConfig) (s : NotifyState) : Prop :=
  match s.pc with
  | .stopped => True
  | .reading reader =>
      PosInv s.files s.handled s.logFileIndex s.logFileOffset ∧
        TailInv s.files s.logFileIndex s.logFileOffset reader
  | .handling lines =>
      PosInv s.files s.handled s.logFileIndex s.logFileOffset ∧ s.BatchInv lines
  | .executing line stmts _ rest => s.LineInv cfg line stmts ∧ s.BatchInv rest

structure Inv (cfg : NotifyConfig) (s : NotifyState) : Prop where
  files : s.files.Inv
  saved : ∀ p, s.saved = some p → PosInv s.files s.handled p.1 p.2
  table : TableInv cfg s.files.log s.handled s.table
  pc : s.PcInv cfg

variable {cfg : NotifyConfig} {s s' : NotifyState}

theorem inv_initial : initial.Inv cfg where
  files := LogFiles.inv_empty
  saved := by simp [initial]
  table := by
    constructor
    · simp [initial]
    · simp [initial]
    · simp [initial, EventTable.lines]
    · simp [initial, EventTable.lines, FirstsInOrder]
  pc := trivial

theorem inv_producer (h : s.Inv cfg) {files : LogFiles} (hfiles : files.Inv)
    (hgrows : s.files.Grows files) : Inv cfg { s with files := files } where
  files := hfiles
  saved := fun p hp => (h.saved p hp).grows hfiles hgrows
  table := h.table.grows hfiles hgrows
  pc := by
    have hpc := h.pc
    have hbatch : ∀ lines, s.BatchInv lines → BatchInv { s with files := files } lines :=
      fun lines hlines => ⟨hlines.next.trans (hgrows.linesAfter_begins _), hlines.file⟩
    rw [PcInv] at hpc ⊢
    dsimp only
    split at hpc
    · trivial
    · exact ⟨hpc.1.grows hfiles hgrows, hpc.2.grows hgrows⟩
    · exact ⟨hpc.1.grows hfiles hgrows, hbatch _ hpc.2⟩
    · obtain ⟨hline, hrest⟩ := hpc
      refine ⟨?_, hbatch _ hrest⟩
      constructor
      · exact hgrows.log_subset hline.mem
      · exact hline.index
      · exact hline.offset
      · exact fun e he hlt => hline.earlier e (hgrows.mem_of_lt hfiles hline.mem he hlt) hlt
      · exact hline.due
      · exact hline.inserted

theorem inv_start (h : s.Inv cfg) : Inv cfg { s.getStatus with pc := .reading .idle } := by
  cases hsaved : s.saved with
  | none =>
      rw [getStatus, hsaved]
      have hzero := posInv_zero s.files h.files s.handled
      refine ⟨h.files, ?_, h.table, hzero, trivial⟩
      intro p hp
      cases hp
      exact hzero
  | some p =>
      obtain ⟨index, offset⟩ := p
      have hpos := h.saved (index, offset) hsaved
      have hsaved' := h.saved
      rw [hsaved] at hsaved'
      rw [getStatus, hsaved]
      exact ⟨h.files, hsaved', h.table, hpos, trivial⟩

theorem inv_haveLines (h : s.Inv cfg) {next : Bool} {lines : List LogLine} {offset : Nat}
    (hpc : s.pc = .reading (.returned next lines offset)) : (s.haveLines next lines).Inv cfg := by
  have hreading := h.pc
  rw [PcInv, hpc] at hreading
  obtain ⟨hpos, hnext, hto, -, hswitch⟩ := hreading
  rw [haveLines]
  split
  · rename_i hcond
    have hnil := List.eq_nil_of_length_eq_zero hcond.2
    exact ⟨h.files, h.saved, h.table,
      hpos.next (hnext hcond.1) (hswitch hcond.1 hnil), trivial⟩
  · split
    · exact ⟨h.files, h.saved, h.table, hpos, trivial⟩
    · exact ⟨h.files, h.saved, h.table, hpos, ⟨_, hto.split.symm⟩, hto.file⟩

theorem inv_beginLine (h : s.Inv cfg) {line : LogLine} {rest : List LogLine}
    (hpc : s.pc = .handling (line :: rest)) : (s.beginLine cfg line rest).Inv cfg := by
  have hhandling := h.pc
  rw [PcInv, hpc] at hhandling
  obtain ⟨hpos, ⟨tail, htail⟩, hfile⟩ := hhandling
  have hindex : line.file = s.logFileIndex := hfile line List.mem_cons_self
  have hcons : linesAfter (toLex (s.logFileIndex, s.logFileOffset)) s.files.log =
      line :: (rest ++ tail) := by rw [← htail, List.cons_append]
  have hmem : line ∈ s.files.log :=
    (mem_linesAfter.mp (hcons ▸ List.mem_cons_self)).1
  have hearlier : ∀ e ∈ s.files.log, e.pos < line.pos → e ∈ s.handled := fun e he hlt =>
    hpos.done e he (le_of_linesAfter_eq_cons h.files.sorted hcons he hlt)
  have hrest : rest <+: linesAfter (toLex (s.logFileIndex, line.offset)) s.files.log := by
    rw [← hindex]
    exact ⟨tail, (linesAfter_of_eq_append h.files.sorted [] hcons).symm⟩
  have hrestFile : ∀ e ∈ rest, e.file = s.logFileIndex :=
    fun e he => hfile e (List.mem_cons_of_mem _ he)
  cases hparse : parse line.text with
  | abort =>
      rw [beginLine, hparse]
      exact ⟨h.files, h.saved, h.table, trivial⟩
  | unknownType =>
      rw [beginLine, hparse]
      have hnone : dueRows cfg line = [] := by rw [dueRows, hparse]
      have hsub : s.handled ⊆ s.handled ++ [line] := List.subset_append_left _ _
      refine ⟨h.files, fun p hp => (h.saved p hp).mono hsub, ?_, ?_, hrest, hrestFile⟩
      · apply h.table.handle
        simp [hnone]
      · have hline := PosInv.of_line h.files hmem
          (fun e he hlt => hsub (hearlier e he hlt)) (List.mem_append_right _ (by simp))
        rwa [hindex] at hline
  | item item =>
      rw [beginLine, hparse]
      have hdue : ∀ d, d ∈ dueRows cfg line ↔
          ∃ stmt ∈ eventStmts cfg item, stmt.inserted = some d := by
        intro d
        rw [dueRows, hparse, List.mem_filterMap]
      exact ⟨h.files, h.saved, h.table,
        ⟨hmem, hindex.symm, rfl, hearlier, fun d hd => (hdue d).mpr hd,
          fun d hd => Or.inl ((hdue d).mp hd)⟩, hrest, hrestFile⟩

theorem inv_execute (h : s.Inv cfg) {line : LogLine} {stmt : EventStmt}
    {stmts : List EventStmt} {cnt : Nat} {rest : List LogLine}
    (hpc : s.pc = .executing line (stmt :: stmts) cnt rest) :
    Inv cfg { s with
      table := EventTable.exec line s.table stmt
      pc := .executing line stmts cnt rest } := by
  have hexecuting := h.pc
  rw [PcInv, hpc] at hexecuting
  obtain ⟨hline, hrest⟩ := hexecuting
  have hdue : ∀ d, stmt.inserted = some d → d ∈ dueRows cfg line :=
    fun d hd => hline.due d ⟨stmt, List.mem_cons_self, hd⟩
  refine ⟨h.files, h.saved, h.table.exec h.files.sorted hline.mem hline.earlier hdue, ?_,
    hrest.next, hrest.file⟩
  constructor
  · exact hline.mem
  · exact hline.index
  · exact hline.offset
  · exact hline.earlier
  · rintro d ⟨stmt', hmem, hd⟩
    exact hline.due d ⟨stmt', List.mem_cons_of_mem _ hmem, hd⟩
  · intro d hd
    rcases hline.inserted d hd with ⟨stmt', hmem, hins⟩ | hrow
    · rcases List.mem_cons.mp hmem with rfl | hmem
      · exact Or.inr (mem_rows_exec.mpr (Or.inr ⟨rfl, hins⟩))
      · exact Or.inl ⟨stmt', hmem, hins⟩
    · exact Or.inr (mem_rows_exec.mpr (Or.inl hrow))

theorem inv_endLine (h : s.Inv cfg) {line : LogLine} {cnt : Nat} {rest : List LogLine}
    (hpc : s.pc = .executing line [] cnt rest) (late : Bool) :
    Inv cfg (if cnt > 0 ∨ late then
      updateStatus { s with pc := .handling rest, handled := s.handled ++ [line] }
      else { s with pc := .handling rest, handled := s.handled ++ [line] }) := by
  have hexecuting := h.pc
  rw [PcInv, hpc] at hexecuting
  obtain ⟨hline, hrest⟩ := hexecuting
  have hsub : s.handled ⊆ s.handled ++ [line] := List.subset_append_left _ _
  have hpos : PosInv s.files (s.handled ++ [line]) s.logFileIndex s.logFileOffset := by
    rw [hline.index, hline.offset]
    exact PosInv.of_line h.files hline.mem (fun e he hlt => hsub (hline.earlier e he hlt))
      (List.mem_append_right _ (by simp))
  have htable : TableInv cfg s.files.log (s.handled ++ [line]) s.table := by
    apply h.table.handle
    intro d hd
    rcases hline.inserted d hd with ⟨stmt, hmem, -⟩ | hrow
    · cases hmem
    · exact hrow
  split
  · refine ⟨h.files, ?_, htable, hpos, hrest.next, hrest.file⟩
    intro p hp
    cases hp
    exact hpos
  · exact ⟨h.files, fun p hp => (h.saved p hp).mono hsub, htable, hpos, hrest.next, hrest.file⟩

theorem inv_step {a : NotifyAction} (h : s.Inv cfg) (hstep : s.step cfg a = some s') :
    s'.Inv cfg := by
  cases a with
  | producer a =>
      obtain ⟨files, hfiles, rfl⟩ := Option.map_eq_some_iff.mp hstep
      obtain ⟨hinv, hgrows⟩ := LogFiles.inv_step h.files hfiles
      exact inv_producer h hinv hgrows
  | start =>
      cases hpc : s.pc with
      | stopped =>
          simp only [step, hpc, Option.some.injEq] at hstep
          subst hstep
          exact inv_start h
      | reading | handling | executing => simp [step, hpc] at hstep
  | crash =>
      cases hstep
      exact ⟨h.files, h.saved, h.table, trivial⟩
  | readLines a =>
      cases hpc : s.pc with
      | reading reader =>
          simp only [step, hpc] at hstep
          obtain ⟨reader', hreader, rfl⟩ := Option.map_eq_some_iff.mp hstep
          have hreading := h.pc
          rw [PcInv, hpc] at hreading
          exact ⟨h.files, h.saved, h.table, hreading.1,
            tailInv_step hreading.2 h.files hreading.1.atLine hreader⟩
      | stopped | handling | executing => simp [step, hpc] at hstep
  | haveLines =>
      cases hpc : s.pc with
      | reading reader =>
          cases reader with
          | returned next lines offset =>
              simp only [step, hpc, Option.some.injEq] at hstep
              subst hstep
              exact inv_haveLines h hpc
          | idle | checked | reading | failed => simp [step, hpc] at hstep
      | stopped | handling | executing => simp [step, hpc] at hstep
  | nextLine =>
      cases hpc : s.pc with
      | handling lines =>
          cases lines with
          | nil =>
              simp only [step, hpc, Option.some.injEq] at hstep
              subst hstep
              have hhandling := h.pc
              rw [PcInv, hpc] at hhandling
              exact ⟨h.files, h.saved, h.table, hhandling.1, trivial⟩
          | cons line rest =>
              simp only [step, hpc, Option.some.injEq] at hstep
              subst hstep
              exact inv_beginLine h hpc
      | stopped | reading | executing => simp [step, hpc] at hstep
  | execute =>
      cases hpc : s.pc with
      | executing line stmts cnt rest =>
          cases stmts with
          | nil => simp [step, hpc] at hstep
          | cons stmt stmts =>
              simp only [step, hpc, Option.some.injEq] at hstep
              subst hstep
              exact inv_execute h hpc
      | stopped | reading | handling => simp [step, hpc] at hstep
  | endLine late =>
      cases hpc : s.pc with
      | executing line stmts cnt rest =>
          cases stmts with
          | nil =>
              simp only [step, hpc, Option.some.injEq] at hstep
              subst hstep
              exact inv_endLine h hpc late
          | cons stmt stmts => simp [step, hpc] at hstep
      | stopped | reading | handling => simp [step, hpc] at hstep

theorem run_inv {schedule : List NotifyAction} (hrun : run cfg schedule = some s) :
    s.Inv cfg :=
  runs_inv_state (Inv cfg) inv_initial (fun _ _ _ h hstep => inv_step h hstep) hrun

end NotifyState

theorem mem_dueRows_tx {cfg : NotifyConfig} {line : LogLine} {item : NotifyEvent}
    (hparse : parse line.text = .item item) (htx : isTxEvent item.type) (appId : Int)
    (row : EventRow) : (appId, row) ∈ dueRows cfg line ↔
      appId ∈ cfg.addressTable item.address ∧
        row = ⟨item.type, item.hash, item.height, item.address, item.amount⟩ := by
  have hblock : isBlockEvent item.type = false := by
    simp only [isTxEvent, isBlockEvent, Bool.and_eq_true, decide_eq_true_eq,
      Bool.and_eq_false_iff, decide_eq_false_iff_not] at htx ⊢
    omega
  simp only [dueRows, hparse, eventStmts, hblock, Bool.false_eq_true, if_false,
    List.mem_filterMap, List.mem_map]
  constructor
  · rintro ⟨stmt, ⟨appId', hmem, rfl⟩, hins⟩
    cases hins
    exact ⟨hmem, rfl⟩
  · rintro ⟨hmem, rfl⟩
    exact ⟨_, ⟨appId, hmem, rfl⟩, rfl⟩

/-- At-least-once delivery, in every state of every run with crashes. -/
theorem notify_atLeastOnce (cfg : NotifyConfig) (schedule : List NotifyAction)
    (s : NotifyState) (hrun : NotifyState.run cfg schedule = some s) :
    (∀ p, s.saved = some p →
      ∀ line ∈ s.files.log, line.pos ≤ toLex p → line ∈ s.handled) ∧
    (∀ reader, s.pc = .reading reader → ∀ line ∈ s.files.log,
      line.pos ≤ toLex (s.logFileIndex, s.logFileOffset) → line ∈ s.handled) ∧
    (∀ line ∈ s.handled, ∀ item, parse line.text = .item item → isTxEvent item.type →
      ∀ appId ∈ cfg.addressTable item.address,
        (line, ⟨item.type, item.hash, item.height, item.address, item.amount⟩) ∈
          (s.table appId).rows) ∧
    (∀ appId, ∀ r ∈ (s.table appId).rows, ∀ item, parse r.1.text = .item item →
      isTxEvent item.type → appId ∈ cfg.addressTable item.address) ∧
    ∀ appId, FirstsInOrder (s.table appId).lines := by
  have hinv := NotifyState.run_inv hrun
  refine ⟨fun p hp => (hinv.saved p hp).done, ?_, ?_, ?_, hinv.table.ordered⟩
  · intro reader hpc
    have hreading := hinv.pc
    rw [NotifyState.PcInv, hpc] at hreading
    exact hreading.1.done
  · intro line hline item hparse htx appId happ
    exact hinv.table.handled line hline (appId, _)
      ((mem_dueRows_tx hparse htx appId _).mpr ⟨happ, rfl⟩)
  · intro appId r hr item hparse htx
    exact ((mem_dueRows_tx hparse htx appId r.2).mp (hinv.table.sound appId r hr).2).1

/-- Application 7 subscribed the address `1A`. -/
def exampleNotifyConfig : NotifyConfig where
  subscriptions := [(7, [49, 65])]
  toAddress := some

/-- One event is written and read; the daemon stops before it has saved its position. -/
def exampleNotifySchedule : List NotifyAction :=
  let line : Bytes := [120, 44, 50, 48, 44, 49, 65, 44, 45, 49, 44, 102, 70, 44, 53]
  let handle : List NotifyAction :=
    [.start, .readLines .check, .readLines .openFile, .readLines (.fetch 15)] ++
      List.replicate 16 (.readLines .getc) ++
      [.readLines (.fetch 0), .haveLines, .nextLine, .execute]
  [.producer (.write [line])] ++ List.replicate 16 (.producer .reveal) ++
    handle ++ [.crash] ++ handle ++ [.endLine false, .nextLine]

theorem notify_atLeastOnce_example :
    ∃ s, NotifyState.run exampleNotifyConfig exampleNotifySchedule = some s ∧
      (s.table 7).rows.length = 2 ∧ FirstsInOrder (s.table 7).lines := by
  have hrun : ((NotifyState.run exampleNotifyConfig exampleNotifySchedule).map
      fun s => (s.table 7).rows.length) = some 2 := by decide +kernel
  obtain ⟨s, hs, hlength⟩ := Option.map_eq_some_iff.mp hrun
  exact ⟨s, hs, hlength, (notify_atLeastOnce exampleNotifyConfig _ s hs).2.2.2.2 7⟩

end ExplorerKV.Logs

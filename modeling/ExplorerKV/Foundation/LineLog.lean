import ExplorerKV.Foundation.Machine

/-!
# Numbered append-only line files

A log is a directory of files with numbers for names.  One writer appends lines
to the file with the highest number; a line becomes visible byte by byte.  `log`
is the history: every line that is complete, with the place it stands at.
-/

namespace ExplorerKV.Foundation

abbrev Bytes := List UInt8

instance isTransBytes : IsTrans Bytes (· ≤ ·) := inferInstance

instance antisymmBytes : Std.Antisymm fun x y : Bytes => x ≤ y := inferInstance

instance totalBytes : Std.Total fun x y : Bytes => x ≤ y := inferInstance

def newline : UInt8 := 10

/-- A complete line: its file, the offset just after it, its text. -/
structure LogLine where
  file : Nat
  offset : Nat
  text : Bytes
  deriving DecidableEq, Repr

abbrev LogPos := Nat ×ₗ Nat

def LogLine.pos (line : LogLine) : LogPos := toLex (line.file, line.offset)

def linesAfter (p : LogPos) (log : List LogLine) : List LogLine :=
  log.filter fun line => p < line.pos

/-- No line is left open at the end. -/
def EndsLine (bytes : Bytes) : Prop :=
  ∀ b ∈ bytes.getLast?, b = newline

inductive WriterPc where
  | idle
  /-- `line` is the visible part of the current line, `rest` still to come -/
  | writing (line rest : Bytes)
  deriving DecidableEq, Repr

structure LogFiles where
  names : Finset Nat
  content : Nat → Bytes
  /-- the file the writer is at; `none` before the first -/
  index : Option Nat
  writer : WriterPc
  log : List LogLine

inductive WriteAction where
  /-- opens the file and hands it some lines -/
  | write (lines : List Bytes)
  /-- one more byte is visible; a piece of a line is several of these -/
  | reveal
  /-- the lines are written; a file longer than the limit is left -/
  | finish
  | restart
  deriving DecidableEq, Repr

namespace LogFiles

def empty : LogFiles where
  names := ∅
  content := fun _ => []
  index := none
  writer := .idle
  log := []

def current (f : LogFiles) : Nat := f.index.getD 0

def openCurrent (f : LogFiles) : LogFiles :=
  { f with
    index := some f.current
    names := insert f.current f.names
    content :=
      if f.current ∈ f.names then f.content
      else Function.update f.content f.current [] }

def appendByte (f : LogFiles) (b : UInt8) : LogFiles :=
  { f with content := Function.update f.content f.current (f.content f.current ++ [b]) }

def step (maxSize : Nat) (f : LogFiles) : WriteAction → Option LogFiles
  | .write lines =>
      if f.writer = .idle ∧ ∀ line ∈ lines, newline ∉ line then
        some { f.openCurrent with
          writer := .writing [] (lines.flatMap (· ++ [newline])) }
      else none
  | .reveal =>
      match f.writer with
      | .writing line (b :: rest) =>
          if b = newline then
            some { f.appendByte b with
              writer := .writing [] rest
              log := f.log ++ [⟨f.current, (f.content f.current).length + 1, line⟩] }
          else some { f.appendByte b with writer := .writing (line ++ [b]) rest }
      | _ => none
  | .finish =>
      if f.writer = .writing [] [] then
        some { f with
          index :=
            if maxSize < (f.content f.current).length then some (f.current + 1) else f.index
          writer := .idle }
      else none
  | .restart =>
      match f.writer with
      | .idle | .writing [] _ => some { f with index := f.names.max, writer := .idle }
      | .writing (_ :: _) _ => none

end LogFiles

/-! ## Lines of a byte string -/

section Bytes

variable {bytes xs ys s t : Bytes} {b : UInt8}

@[simp] theorem endsLine_nil : EndsLine [] := by
  simp [EndsLine]

@[simp] theorem endsLine_snoc : EndsLine (bytes ++ [b]) ↔ b = newline := by
  simp [EndsLine]

theorem EndsLine.append (hxs : EndsLine xs) (hys : EndsLine ys) : EndsLine (xs ++ ys) := by
  cases ys using List.reverseRecOn with
  | nil => simpa using hxs
  | append_singleton ys b =>
      rw [← List.append_assoc, endsLine_snoc]
      exact endsLine_snoc.mp hys

theorem EndsLine.mem (h : EndsLine bytes) (hne : bytes ≠ []) : newline ∈ bytes := by
  rw [← h _ (List.getLast_mem_getLast? hne)]
  exact List.getLast_mem hne

theorem EndsLine.of_append (h : EndsLine (xs ++ ys)) : EndsLine ys := by
  cases ys using List.reverseRecOn with
  | nil => exact endsLine_nil
  | append_singleton ys b =>
      rw [← List.append_assoc, endsLine_snoc] at h
      exact endsLine_snoc.mpr h

theorem endsLine_flatMap (lines : List Bytes) :
    EndsLine (lines.flatMap (· ++ [newline])) := by
  induction lines with
  | nil => exact endsLine_nil
  | cons line lines ih =>
      rw [List.flatMap_cons]
      exact EndsLine.append (endsLine_snoc.mpr rfl) ih

theorem endsLine_append_inj (hxs : EndsLine xs) (hys : EndsLine ys) (hs : newline ∉ s)
    (ht : newline ∉ t) (h : xs ++ s = ys ++ t) : xs = ys ∧ s = t := by
  have hempty : ∀ {u v w : Bytes}, EndsLine (u ++ v) → newline ∉ v ++ w → v = [] := by
    intro u v w hends hmem
    by_contra hne
    exact hmem (List.mem_append_left w (hends.of_append.mem hne))
  rcases List.append_eq_append_iff.mp h with ⟨u, rfl, rfl⟩ | ⟨u, rfl, rfl⟩
  · have hu := hempty hys hs
    simp [hu]
  · have hu := hempty hxs ht
    simp [hu]

end Bytes

/-! ## What holds of the files after every write -/

namespace LogFiles

def openLine (f : LogFiles) (i : Nat) : Bytes :=
  match f.writer with
  | .idle => []
  | .writing line _ => if i = f.current then line else []

structure Inv (f : LogFiles) : Prop where
  names_le : ∀ i ∈ f.names, i ≤ f.current
  reach : f.current = 0 ∨ ∃ i ∈ f.names, f.current ≤ i + 1
  fresh : ∀ i, f.current ≤ i → i ∉ f.names → f.content i = []
  writing : ∀ line rest, f.writer = .writing line rest →
    f.current ∈ f.names ∧ newline ∉ line ∧ EndsLine rest
  whole : ∀ i, ∃ whole, EndsLine whole ∧ f.content i = whole ++ f.openLine i
  sorted : f.log.Pairwise fun e e' => e.pos < e'.pos
  sound : ∀ e ∈ f.log, ∃ before after,
    f.content e.file = before ++ e.text ++ newline :: after ∧
      e.offset = before.length + e.text.length + 1
  complete : ∀ i before text after, f.content i = before ++ text ++ newline :: after →
    EndsLine before → newline ∉ text →
    ⟨i, before.length + text.length + 1, text⟩ ∈ f.log

variable {f f' : LogFiles} {maxSize : Nat}

theorem inv_empty : empty.Inv where
  names_le := by simp [empty]
  reach := Or.inl rfl
  fresh := fun _ _ _ => rfl
  writing := by simp [empty]
  whole := fun i => ⟨[], endsLine_nil, by simp [empty, openLine]⟩
  sorted := List.Pairwise.nil
  sound := by simp [empty]
  complete := by simp [empty]

/-- What a write leaves a reader to see. -/
structure Grows (f f' : LogFiles) : Prop where
  names : f.names ⊆ f'.names
  content : ∀ i, f.content i <+: f'.content i
  log : ∃ new, f'.log = f.log ++ new ∧ ∀ e ∈ new,
    (∀ i ∈ f.names, i ≤ e.file) ∧ (f.content e.file).length < e.offset

theorem Inv.of_mem (h : f.Inv) {e : LogLine} (he : e ∈ f.log) :
    e.file ≤ f.current ∧ 0 < e.offset ∧ e.offset ≤ (f.content e.file).length := by
  obtain ⟨before, after, hcontent, hoffset⟩ := h.sound e he
  constructor
  · by_contra hlt
    have hname : e.file ∉ f.names := fun hmem => hlt (h.names_le _ hmem)
    have hempty := h.fresh e.file (by omega) hname
    simp [hcontent] at hempty
  · simp only [hcontent, List.length_append, List.length_cons]
    omega

theorem Inv.pos_lt (h : f.Inv) {e : LogLine} (he : e ∈ f.log) (text : Bytes) :
    e.pos < LogLine.pos ⟨f.current, (f.content f.current).length + 1, text⟩ := by
  obtain ⟨hfile, -, hoffset⟩ := h.of_mem he
  rw [LogLine.pos, LogLine.pos, Prod.Lex.toLex_lt_toLex]
  rcases Nat.lt_or_eq_of_le hfile with hlt | heq
  · exact Or.inl hlt
  · rw [heq] at hoffset
    exact Or.inr ⟨heq, Nat.lt_succ_of_le hoffset⟩

theorem Inv.openCurrent_content (h : f.Inv) : f.openCurrent.content = f.content := by
  by_cases hmem : f.current ∈ f.names
  · simp [openCurrent, hmem]
  · simp [openCurrent, hmem, ← h.fresh f.current (le_refl _) hmem]

/-- A byte after `xs` ends a line, or every line that ends is a line of `xs`. -/
theorem snoc_eq_append_newline {xs ys zs : Bytes} {b : UInt8}
    (h : xs ++ [b] = ys ++ newline :: zs) :
    (b = newline ∧ xs = ys) ∨ ∃ zs', xs = ys ++ newline :: zs' := by
  cases zs using List.reverseRecOn with
  | nil =>
      obtain ⟨rfl, hb⟩ := List.append_inj' h rfl
      exact Or.inl ⟨by simpa using hb, rfl⟩
  | append_singleton zs c =>
      rw [← List.cons_append, ← List.append_assoc] at h
      exact Or.inr ⟨zs, (List.append_inj' h rfl).1⟩

theorem inv_write {lines : List Bytes} (h : f.Inv) (hidle : f.writer = .idle) :
    LogFiles.Inv { f.openCurrent with
      writer := .writing [] (lines.flatMap (· ++ [newline])) } where
  names_le := by
    intro i hi
    rcases Finset.mem_insert.mp hi with rfl | hi
    · exact le_refl _
    · exact h.names_le i hi
  reach := Or.inr ⟨f.current, Finset.mem_insert_self _ _, Nat.le_succ _⟩
  fresh := by
    intro i hi hmem
    rw [show (f.openCurrent).content = f.content from h.openCurrent_content]
    exact h.fresh i hi fun hname => hmem (Finset.mem_insert_of_mem hname)
  writing := by
    intro line rest hwriter
    cases hwriter
    exact ⟨Finset.mem_insert_self _ _, List.not_mem_nil, endsLine_flatMap lines⟩
  whole := by
    intro i
    obtain ⟨whole, hwhole, hcontent⟩ := h.whole i
    refine ⟨whole, hwhole, ?_⟩
    rw [show (f.openCurrent).content = f.content from h.openCurrent_content, hcontent]
    simp [openLine, hidle]
  sorted := h.sorted
  sound := by
    intro e he
    rw [show (f.openCurrent).content = f.content from h.openCurrent_content]
    exact h.sound e he
  complete := by
    intro i before text after hcontent
    rw [show (f.openCurrent).content = f.content from h.openCurrent_content] at hcontent
    exact h.complete i before text after hcontent

theorem appendByte_content_current (f : LogFiles) (b : UInt8) :
    (f.appendByte b).content f.current = f.content f.current ++ [b] :=
  Function.update_self ..

theorem appendByte_content_of_ne {i : Nat} (hi : i ≠ f.current) (b : UInt8) :
    (f.appendByte b).content i = f.content i :=
  Function.update_of_ne hi ..

theorem content_prefix_appendByte (f : LogFiles) (b : UInt8) (i : Nat) :
    f.content i <+: (f.appendByte b).content i := by
  by_cases hi : i = f.current
  · rw [hi, appendByte_content_current]
    exact List.prefix_append _ _
  · rw [appendByte_content_of_ne hi]

theorem appendByte_fresh (h : f.Inv) (hmem : f.current ∈ f.names) (b : UInt8) (i : Nat)
    (hi : f.current ≤ i) (hname : i ∉ f.names) : (f.appendByte b).content i = [] := by
  have hne : i ≠ f.current := by
    rintro rfl
    exact hname hmem
  rw [appendByte_content_of_ne hne]
  exact h.fresh i hi hname

theorem sound_of_prefixes (h : f.Inv) {content : Nat → Bytes}
    (hcontent : ∀ i, f.content i <+: content i) {e : LogLine} (he : e ∈ f.log) :
    ∃ before after, content e.file = before ++ e.text ++ newline :: after ∧
      e.offset = before.length + e.text.length + 1 := by
  obtain ⟨before, after, hline, hoffset⟩ := h.sound e he
  obtain ⟨more, hmore⟩ := hcontent e.file
  refine ⟨before, after ++ more, ?_, hoffset⟩
  rw [← hmore, hline, List.append_assoc, List.cons_append]

theorem complete_appendByte (h : f.Inv) {b : UInt8} {i : Nat} {before text after : Bytes}
    (hcontent : (f.appendByte b).content i = before ++ text ++ newline :: after)
    (hbefore : EndsLine before) (htext : newline ∉ text) :
    (i = f.current ∧ b = newline ∧ f.content i = before ++ text) ∨
      ⟨i, before.length + text.length + 1, text⟩ ∈ f.log := by
  by_cases hi : i = f.current
  · rw [hi, appendByte_content_current] at hcontent
    rcases snoc_eq_append_newline hcontent with ⟨hb, heq⟩ | ⟨after', heq⟩
    · exact Or.inl ⟨hi, hb, hi ▸ heq⟩
    · exact Or.inr (h.complete i before text after' (hi ▸ heq) hbefore htext)
  · rw [appendByte_content_of_ne hi] at hcontent
    exact Or.inr (h.complete i before text after hcontent hbefore htext)

theorem inv_reveal_byte (h : f.Inv) {line rest : Bytes} {b : UInt8}
    (hwriter : f.writer = .writing line (b :: rest)) (hb : b ≠ newline) :
    LogFiles.Inv { f.appendByte b with writer := .writing (line ++ [b]) rest } := by
  obtain ⟨hmem, hline, hrest⟩ := h.writing line (b :: rest) hwriter
  constructor
  · exact h.names_le
  · exact h.reach
  · exact appendByte_fresh h hmem b
  · intro line' rest' heq
    cases heq
    refine ⟨hmem, ?_, (List.singleton_append ▸ hrest).of_append⟩
    simp [hline, hb.symm]
  · intro i
    obtain ⟨whole, hwhole, hcontent⟩ := h.whole i
    refine ⟨whole, hwhole, ?_⟩
    rw [openLine, hwriter] at hcontent
    by_cases hi : i = f.current
    · subst hi
      change (f.appendByte b).content f.current = whole ++ if f.current = f.current then _ else []
      rw [appendByte_content_current, hcontent]
      simp
    · change (f.appendByte b).content i = whole ++ if i = f.current then _ else []
      rw [appendByte_content_of_ne hi, hcontent]
      simp [hi]
  · exact h.sorted
  · intro e he
    exact sound_of_prefixes h (content_prefix_appendByte f b) he
  · intro i before text after hcontent hbefore htext
    rcases complete_appendByte h hcontent hbefore htext with ⟨-, hnew, -⟩ | hmem
    · exact absurd hnew hb
    · exact hmem

theorem inv_reveal_newline (h : f.Inv) {line rest : Bytes}
    (hwriter : f.writer = .writing line (newline :: rest)) :
    LogFiles.Inv { f.appendByte newline with
      writer := .writing [] rest
      log := f.log ++ [⟨f.current, (f.content f.current).length + 1, line⟩] } := by
  obtain ⟨hmem, hline, hrest⟩ := h.writing line (newline :: rest) hwriter
  obtain ⟨whole, hwhole, hcurrent⟩ := h.whole f.current
  rw [openLine, hwriter] at hcurrent
  simp only [if_true] at hcurrent
  constructor
  · exact h.names_le
  · exact h.reach
  · exact appendByte_fresh h hmem newline
  · intro line' rest' heq
    cases heq
    exact ⟨hmem, List.not_mem_nil, (List.singleton_append ▸ hrest).of_append⟩
  · intro i
    by_cases hi : i = f.current
    · subst hi
      refine ⟨f.content f.current ++ [newline], endsLine_snoc.mpr rfl, ?_⟩
      change (f.appendByte newline).content f.current = _ ++ if f.current = f.current then _ else _
      rw [appendByte_content_current]
      simp
    · obtain ⟨whole, hwhole, hcontent⟩ := h.whole i
      refine ⟨whole, hwhole, ?_⟩
      rw [openLine, hwriter] at hcontent
      change (f.appendByte newline).content i = whole ++ if i = f.current then _ else _
      rw [appendByte_content_of_ne hi, hcontent]
      simp [hi]
  · rw [List.pairwise_append]
    refine ⟨h.sorted, List.pairwise_singleton _ _, ?_⟩
    intro e he e' he'
    rw [List.mem_singleton] at he'
    subst he'
    exact h.pos_lt he line
  · intro e he
    rcases List.mem_append.mp he with he | he
    · exact sound_of_prefixes h (content_prefix_appendByte f newline) he
    · rw [List.mem_singleton] at he
      subst he
      refine ⟨whole, [], ?_, ?_⟩
      · change (f.appendByte newline).content f.current = whole ++ line ++ [newline]
        rw [appendByte_content_current, hcurrent]
      · simp [hcurrent]
  · intro i before text after hcontent hbefore htext
    rw [List.mem_append]
    rcases complete_appendByte h hcontent hbefore htext with ⟨hi, -, heq⟩ | hmem
    · subst hi
      right
      rw [hcurrent] at heq
      obtain ⟨rfl, rfl⟩ := endsLine_append_inj hwhole hbefore hline htext heq
      simp [hcurrent]
    · exact Or.inl hmem

theorem inv_finish (h : f.Inv) (hwriter : f.writer = .writing [] []) :
    LogFiles.Inv { f with
      index := if maxSize < (f.content f.current).length then some (f.current + 1) else f.index
      writer := .idle } := by
  obtain ⟨hmem, -, -⟩ := h.writing [] [] hwriter
  have hle : f.current ≤ (if maxSize < (f.content f.current).length then some (f.current + 1)
      else f.index).getD 0 ∧ (if maxSize < (f.content f.current).length then some (f.current + 1)
      else f.index).getD 0 ≤ f.current + 1 := by
    split
    · exact ⟨Nat.le_succ _, le_refl _⟩
    · exact ⟨le_refl _, Nat.le_succ _⟩
  constructor
  · intro i hi
    exact (h.names_le i hi).trans hle.1
  · exact Or.inr ⟨f.current, hmem, hle.2⟩
  · intro i hi
    exact h.fresh i (hle.1.trans hi)
  · intro line rest heq
    cases heq
  · intro i
    obtain ⟨whole, hwhole, hcontent⟩ := h.whole i
    refine ⟨whole, hwhole, ?_⟩
    rw [openLine, hwriter] at hcontent
    simpa [openLine] using hcontent
  · exact h.sorted
  · exact h.sound
  · exact h.complete

theorem current_restart (h : f.Inv) (f' : LogFiles) (hindex : f'.index = f.names.max) :
    (∀ i ∈ f.names, i ≤ f'.current) ∧ (f'.current = 0 ∨ f'.current ∈ f.names) ∧
      ∀ i, f'.current ≤ i → i ∉ f.names → f.current ≤ i := by
  cases hmax : f.names.max with
  | bot =>
      have hnone : f.names = ∅ := Finset.max_eq_bot.mp hmax
      have hzero : f.current = 0 := by
        rcases h.reach with hzero | ⟨i, hi, -⟩
        · exact hzero
        · simp [hnone] at hi
      have hzero' : f'.current = 0 := by
        rw [current, hindex, hmax]
        rfl
      rw [hzero, hzero', hnone]
      simp
  | coe j =>
      have hj : f'.current = j := by
        rw [current, hindex, hmax]
        rfl
      have hmem := Finset.mem_of_max hmax
      rw [hj]
      refine ⟨fun i hi => Finset.le_max_of_eq hi hmax, Or.inr hmem, ?_⟩
      intro i hi hname
      have hne : i ≠ j := by
        rintro rfl
        exact hname hmem
      rcases h.reach with hzero | ⟨k, hk, hle⟩
      · omega
      · have := Finset.le_max_of_eq hk hmax
        omega

theorem inv_restart (h : f.Inv) (hopen : ∀ i, f.openLine i = []) :
    LogFiles.Inv { f with index := f.names.max, writer := .idle } := by
  obtain ⟨hnames, hreach, hle⟩ :=
    current_restart h { f with index := f.names.max, writer := .idle } rfl
  constructor
  · exact hnames
  · exact hreach.imp_right fun hmem => ⟨_, hmem, Nat.le_succ _⟩
  · intro i hi hname
    exact h.fresh i (hle i hi hname) hname
  · intro line rest heq
    cases heq
  · intro i
    obtain ⟨whole, hwhole, hcontent⟩ := h.whole i
    exact ⟨whole, hwhole, by rw [hcontent, hopen i]; rfl⟩
  · exact h.sorted
  · exact h.sound
  · exact h.complete

theorem Grows.of_eq (hnames : f.names ⊆ f'.names) (hcontent : f'.content = f.content)
    (hlog : f'.log = f.log) : f.Grows f' where
  names := hnames
  content := fun i => by rw [hcontent]
  log := ⟨[], by simp [hlog]⟩

theorem inv_step {a : WriteAction} (h : f.Inv) (hstep : f.step maxSize a = some f') :
    f'.Inv ∧ f.Grows f' := by
  cases a with
  | write lines =>
      obtain ⟨⟨hidle, -⟩, rfl⟩ := Option.ite_some_none_eq_some.mp hstep
      exact ⟨inv_write h hidle,
        .of_eq (Finset.subset_insert _ _) h.openCurrent_content rfl⟩
  | reveal =>
      cases hwriter : f.writer with
      | idle => simp [step, hwriter] at hstep
      | writing line rest =>
          cases rest with
          | nil => simp [step, hwriter] at hstep
          | cons b rest =>
              simp only [step, hwriter] at hstep
              split at hstep
              · rename_i hb
                cases hstep
                subst hb
                refine ⟨inv_reveal_newline h hwriter, subset_rfl,
                  content_prefix_appendByte f newline, _, rfl, ?_⟩
                intro e he
                rw [List.mem_singleton] at he
                subst he
                exact ⟨h.names_le, Nat.lt_succ_self _⟩
              · rename_i hb
                cases hstep
                exact ⟨inv_reveal_byte h hwriter hb, subset_rfl,
                  content_prefix_appendByte f b, [], by simp [appendByte], by simp⟩
  | finish =>
      obtain ⟨hwriter, rfl⟩ := Option.ite_some_none_eq_some.mp hstep
      exact ⟨inv_finish h hwriter, .of_eq subset_rfl rfl rfl⟩
  | restart =>
      have hopen : ∀ i, f.openLine i = [] ∧
          f' = { f with index := f.names.max, writer := .idle } := by
        intro i
        cases hwriter : f.writer with
        | idle =>
            simp only [step, hwriter, Option.some.injEq] at hstep
            exact ⟨by simp [openLine, hwriter], hstep.symm⟩
        | writing line rest =>
            cases line with
            | nil =>
                simp only [step, hwriter, Option.some.injEq] at hstep
                exact ⟨by simp [openLine, hwriter], hstep.symm⟩
            | cons b line => simp [step, hwriter] at hstep
      obtain rfl := (hopen 0).2
      exact ⟨inv_restart h fun i => (hopen i).1, .of_eq subset_rfl rfl rfl⟩

theorem Inv.removeBelow (h : f.Inv) {names : Finset Nat} {k : Nat} (hsub : names ⊆ f.names)
    (hkeep : ∀ i ∈ f.names, k ≤ i → i ∈ names) (hlast : ∃ i ∈ f.names, k ≤ i) :
    LogFiles.Inv { f with names := names } := by
  obtain ⟨last, hlast, hk⟩ := hlast
  have hcurrent : k ≤ f.current := hk.trans (h.names_le last hlast)
  constructor
  · exact fun i hi => h.names_le i (hsub hi)
  · rcases h.reach with hzero | ⟨i, hi, hle⟩
    · exact Or.inl hzero
    · right
      by_cases hik : k ≤ i
      · exact ⟨i, hkeep i hi hik, hle⟩
      · exact ⟨last, hkeep last hlast hk, hle.trans (by omega)⟩
  · intro i hi hname
    apply h.fresh i hi
    exact fun hmem => hname (hkeep i hmem (hcurrent.trans hi))
  · intro line rest hwriter
    obtain ⟨hmem, hline⟩ := h.writing line rest hwriter
    exact ⟨hkeep _ hmem hcurrent, hline⟩
  · exact h.whole
  · exact h.sorted
  · exact h.sound
  · exact h.complete

/-! ## Where the lines come from -/

/-- The complete lines, and those the writer still has to reveal, have a property. -/
structure AllLines (P : Bytes → Prop) (f : LogFiles) : Prop where
  log : ∀ e ∈ f.log, P e.text
  writing : ∀ line rest, f.writer = .writing line rest → ∃ texts : List Bytes,
    (∀ text ∈ texts, P text ∧ newline ∉ text) ∧ line ++ rest = texts.flatMap (· ++ [newline])

variable {P : Bytes → Prop}

theorem allLines_empty : AllLines P empty where
  log := fun _ he => absurd he List.not_mem_nil
  writing := fun _ _ h => by cases h

theorem AllLines.idle (h : f.AllLines P) (hlog : f'.log = f.log) (hidle : f'.writer = .idle) :
    f'.AllLines P where
  log := hlog ▸ h.log
  writing := fun _ _ hwriter => by
    rw [hidle] at hwriter
    cases hwriter

theorem append_newline_inj {xs ys xs' ys' : Bytes} (hxs : newline ∉ xs) (hxs' : newline ∉ xs')
    (h : xs ++ newline :: ys = xs' ++ newline :: ys') : xs = xs' ∧ ys = ys' := by
  induction xs generalizing xs' with
  | nil =>
      cases xs' with
      | nil => exact ⟨rfl, (List.cons.inj h).2⟩
      | cons b xs' =>
          rw [List.nil_append, List.cons_append] at h
          exact absurd (.head _) ((List.cons.inj h).1 ▸ hxs')
  | cons a xs ih =>
      cases xs' with
      | nil =>
          rw [List.nil_append, List.cons_append] at h
          exact absurd (.head _) ((List.cons.inj h).1 ▸ hxs)
      | cons b xs' =>
          obtain ⟨rfl, htail⟩ := List.cons.inj h
          obtain ⟨rfl, rfl⟩ := ih (fun hmem => hxs (.tail _ hmem)) (fun hmem => hxs' (.tail _ hmem))
            htail
          exact ⟨rfl, rfl⟩

theorem AllLines.complete (h : f.AllLines P) (hinv : f.Inv) {line rest : Bytes}
    (hwriter : f.writer = .writing line (newline :: rest)) : P line ∧
      ∃ texts : List Bytes, (∀ text ∈ texts, P text ∧ newline ∉ text) ∧
        rest = texts.flatMap (· ++ [newline]) := by
  obtain ⟨-, hline, -⟩ := hinv.writing _ _ hwriter
  obtain ⟨texts, htexts, heq⟩ := h.writing _ _ hwriter
  cases texts with
  | nil => simp at heq
  | cons text texts =>
      obtain ⟨⟨htext, hnewline⟩, hrest⟩ := List.forall_mem_cons.mp htexts
      rw [List.flatMap_cons, List.append_assoc, List.singleton_append] at heq
      obtain ⟨rfl, rfl⟩ := append_newline_inj hline hnewline heq
      exact ⟨htext, texts, hrest, rfl⟩

theorem AllLines.step {a : WriteAction} (h : f.AllLines P) (hinv : f.Inv)
    (hwrite : ∀ texts, a = .write texts → ∀ text ∈ texts, P text)
    (hstep : f.step maxSize a = some f') : f'.AllLines P := by
  cases a with
  | write texts =>
      obtain ⟨⟨-, hnewline⟩, rfl⟩ := Option.ite_some_none_eq_some.mp hstep
      refine ⟨h.log, fun line rest hwriter => ?_⟩
      cases hwriter
      exact ⟨texts, fun text ht => ⟨hwrite texts rfl text ht, hnewline text ht⟩, rfl⟩
  | reveal =>
      cases hwriter : f.writer with
      | idle => simp [LogFiles.step, hwriter] at hstep
      | writing line rest =>
          cases rest with
          | nil => simp [LogFiles.step, hwriter] at hstep
          | cons b rest =>
              simp only [LogFiles.step, hwriter] at hstep
              split at hstep
              · rename_i hb
                subst hb
                obtain ⟨hline, texts, htexts, hrest⟩ := h.complete hinv hwriter
                cases hstep
                constructor
                · intro e he
                  rcases List.mem_append.mp he with he | he
                  · exact h.log e he
                  · rw [List.mem_singleton.mp he]
                    exact hline
                · intro line' rest' heq
                  cases heq
                  exact ⟨texts, htexts, hrest⟩
              · cases hstep
                refine ⟨h.log, fun line' rest' heq => ?_⟩
                cases heq
                obtain ⟨texts, htexts, hrest⟩ := h.writing _ _ hwriter
                exact ⟨texts, htexts, by rw [← hrest, List.append_assoc, List.singleton_append]⟩
  | finish =>
      obtain ⟨-, rfl⟩ := Option.ite_some_none_eq_some.mp hstep
      exact h.idle rfl rfl
  | restart =>
      cases hwriter : f.writer with
      | idle =>
          simp only [LogFiles.step, hwriter, Option.some.injEq] at hstep
          subst hstep
          exact h.idle rfl rfl
      | writing line rest =>
          cases line with
          | nil =>
              simp only [LogFiles.step, hwriter, Option.some.injEq] at hstep
              subst hstep
              exact h.idle rfl rfl
          | cons b line => simp [LogFiles.step, hwriter] at hstep

end LogFiles

end ExplorerKV.Foundation

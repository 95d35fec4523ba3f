import ExplorerKV.Foundation.LineLog

/-!
# Reading the tail of a line log

A reader opens the file of its position, goes to its offset and cuts lines until
the visible bytes end or it has enough of them.  It looks for the next file
before it opens this one.  Every look at the directory or into the file is a
step of its own, so that the writer may come between any two.
-/

namespace ExplorerKV.Foundation

inductive TailPc where
  | idle
  /-- has looked whether the next file exists -/
  | checked (next : Bool)
  /-- at `offset`, with `part` of a line cut and `avail` fetched but not looked at -/
  | reading (next : Bool) (lines : List LogLine) (offset : Nat) (part avail : Bytes)
  | returned (next : Bool) (lines : List LogLine) (offset : Nat)
  /-- the file could not be opened -/
  | failed
  deriving DecidableEq, Repr

inductive TailAction where
  | check
  | openFile
  /-- takes up to `n + 1` bytes from the file, or finds its end -/
  | fetch (n : Nat)
  | getc
  deriving DecidableEq, Repr

/-- One step of a reader at `index` and `offset`, with a bound on the lines it takes. -/
def tailStep (maxLines : Nat) (f : LogFiles) (index offset : Nat) :
    TailPc → TailAction → Option TailPc
  | .idle, .check => some (.checked (decide (index + 1 ∈ f.names)))
  | .checked next, .openFile =>
      some (if index ∈ f.names then .reading next [] offset [] [] else .failed)
  | .reading next lines o part [], .fetch n =>
      let chunk := ((f.content index).drop (o + part.length)).take (n + 1)
      some (if chunk = [] then .returned next lines o else .reading next lines o part chunk)
  | .reading next lines o part (b :: avail), .getc =>
      if b = newline then
        let o' := o + part.length + 1
        let lines' := lines ++ [⟨index, o', part⟩]
        some (if maxLines < lines'.length then .returned next lines' o'
          else .reading next lines' o' [] avail)
      else some (.reading next lines o (part ++ [b]) avail)
  | _, _ => none

/-! ## Positions in a history -/

section Positions

variable {log : List LogLine} {p q : LogPos} {e : LogLine}

theorem mem_linesAfter : e ∈ linesAfter p log ↔ e ∈ log ∧ p < e.pos := by
  simp [linesAfter]

theorem eq_of_pos_eq (hsorted : log.Pairwise fun e e' => e.pos < e'.pos) {e e' : LogLine}
    (he : e ∈ log) (he' : e' ∈ log) (h : e.pos = e'.pos) : e = e' := by
  obtain ⟨i, hi, rfl⟩ := List.mem_iff_getElem.mp he
  obtain ⟨j, hj, rfl⟩ := List.mem_iff_getElem.mp he'
  rw [List.pairwise_iff_getElem] at hsorted
  rcases Nat.lt_trichotomy i j with hlt | rfl | hlt
  · exact absurd h (ne_of_lt (hsorted i j hi hj hlt))
  · rfl
  · exact absurd h (ne_of_gt (hsorted j i hj hi hlt))

theorem linesAfter_eq_cons (hsorted : log.Pairwise fun e e' => e.pos < e'.pos)
    (he : e ∈ log) (hp : p < e.pos) (hfirst : ∀ e' ∈ log, p < e'.pos → e.pos ≤ e'.pos) :
    linesAfter p log = e :: linesAfter e.pos log := by
  obtain ⟨xs, ys, rfl⟩ := List.mem_iff_append.mp he
  rw [List.pairwise_append, List.pairwise_cons] at hsorted
  obtain ⟨-, ⟨hys, -⟩, hxs⟩ := hsorted
  have hbefore : ∀ e' ∈ xs, e'.pos < e.pos := fun e' he' => hxs e' he' e List.mem_cons_self
  have hnone : ∀ e' ∈ xs, ¬p < e'.pos := fun e' he' hlt =>
    absurd (hfirst e' (List.mem_append_left _ he') hlt) (not_le.mpr (hbefore e' he'))
  have hleft : xs.filter (fun e' => p < e'.pos) = [] := by
    simpa [List.filter_eq_nil_iff] using hnone
  have hleft' : xs.filter (fun e' => e.pos < e'.pos) = [] := by
    simpa [List.filter_eq_nil_iff] using fun e' he' => le_of_lt (hbefore e' he')
  have hright : ys.filter (fun e' => p < e'.pos) = ys := by
    simpa [List.filter_eq_self] using fun e' he' => hp.trans (hys e' he')
  have hright' : ys.filter (fun e' => e.pos < e'.pos) = ys := by
    simpa [List.filter_eq_self] using hys
  simp [linesAfter, List.filter_append, hleft, hleft', hright, hright', hp]

theorem linesAfter_of_eq_append (hsorted : log.Pairwise fun e e' => e.pos < e'.pos)
    (xs : List LogLine) {ys : List LogLine} (h : linesAfter p log = xs ++ e :: ys) :
    linesAfter e.pos log = ys := by
  have hmem : e ∈ log ∧ p < e.pos := mem_linesAfter.mp (h ▸ by simp)
  have hsub : linesAfter e.pos log = (linesAfter p log).filter fun e' => e.pos < e'.pos := by
    rw [linesAfter, linesAfter, List.filter_filter]
    apply List.filter_congr
    intro e' _
    simp only [← Bool.decide_and, decide_eq_decide]
    exact ⟨fun hlt => ⟨hlt, hmem.2.trans hlt⟩, And.left⟩
  have hpair := hsorted.sublist (List.filter_sublist (p := fun e' => decide (p < e'.pos)))
  rw [show log.filter (fun e' => decide (p < e'.pos)) = xs ++ e :: ys from h,
    List.pairwise_append, List.pairwise_cons] at hpair
  obtain ⟨-, ⟨hys, -⟩, hxs⟩ := hpair
  have hleft : xs.filter (fun e' => e.pos < e'.pos) = [] := by
    simpa [List.filter_eq_nil_iff] using
      fun e' he' => le_of_lt (hxs e' he' e List.mem_cons_self)
  have hright : ys.filter (fun e' => e.pos < e'.pos) = ys := by
    simpa [List.filter_eq_self] using hys
  rw [hsub, h]
  simp [List.filter_append, hleft, hright]

theorem le_of_linesAfter_eq_cons (hsorted : log.Pairwise fun e e' => e.pos < e'.pos)
    {ys : List LogLine} (h : linesAfter p log = e :: ys) {e' : LogLine} (he' : e' ∈ log)
    (hlt : e'.pos < e.pos) : e'.pos ≤ p := by
  by_contra hp
  have hmem : e' ∈ linesAfter p log := mem_linesAfter.mpr ⟨he', not_le.mp hp⟩
  have hpair := hsorted.sublist (List.filter_sublist (p := fun e' => decide (p < e'.pos)))
  rw [show log.filter (fun e' => decide (p < e'.pos)) = e :: ys from h,
    List.pairwise_cons] at hpair
  rw [h, List.mem_cons] at hmem
  rcases hmem with rfl | hmem
  · exact lt_irrefl _ hlt
  · exact absurd hlt (not_lt.mpr (hpair.1 e' hmem).le)

end Positions

/-! ## Positions in the files -/

namespace LogFiles

variable {f f' : LogFiles} {index offset o : Nat}

/-- The offset is inside the file, at the start of a line. -/
def AtLine (f : LogFiles) (index offset : Nat) : Prop :=
  ∃ before after, f.content index = before ++ after ∧ before.length = offset ∧ EndsLine before

/-- The writer has come as far as this position. -/
def Reached (f : LogFiles) (index offset : Nat) : Prop :=
  (∃ i ∈ f.names, index ≤ i) ∧ offset ≤ (f.content index).length

def NextExists (f : LogFiles) (index : Nat) : Prop :=
  ∃ i ∈ f.names, index < i

theorem atLine_zero (f : LogFiles) (index : Nat) : f.AtLine index 0 :=
  ⟨[], f.content index, rfl, rfl, endsLine_nil⟩

theorem Inv.atLine_of_mem (h : f.Inv) {e : LogLine} (he : e ∈ f.log) :
    f.AtLine e.file e.offset := by
  obtain ⟨before, after, hcontent, hoffset⟩ := h.sound e he
  refine ⟨before ++ e.text ++ [newline], after, ?_, ?_, endsLine_snoc.mpr rfl⟩
  · simpa using hcontent
  · simp [hoffset, Nat.add_assoc]

theorem Inv.reached_of_mem (h : f.Inv) {e : LogLine} (he : e ∈ f.log) :
    f.Reached e.file e.offset := by
  obtain ⟨hfile, hpos, hoffset⟩ := h.of_mem he
  refine ⟨?_, hoffset⟩
  by_cases hmem : e.file ∈ f.names
  · exact ⟨e.file, hmem, le_refl _⟩
  · have hlt : e.file < f.current := by
      by_contra hle
      have hempty := h.fresh e.file (by omega) hmem
      simp [hempty] at hoffset
      omega
    rcases h.reach with hzero | ⟨i, hi, hle⟩
    · omega
    · exact ⟨i, hi, by omega⟩

theorem AtLine.le_length (h : f.AtLine index offset) : offset ≤ (f.content index).length := by
  obtain ⟨before, after, hcontent, rfl, -⟩ := h
  simp [hcontent]

theorem AtLine.reached (h : f.AtLine index offset) (hmem : index ∈ f.names) :
    f.Reached index offset :=
  ⟨⟨index, hmem, le_refl _⟩, h.le_length⟩

theorem NextExists.reached (h : f.NextExists index) : f.Reached (index + 1) 0 :=
  ⟨h, Nat.zero_le _⟩

theorem Grows.atLine (hgrows : f.Grows f') (h : f.AtLine index offset) :
    f'.AtLine index offset := by
  obtain ⟨before, after, hcontent, hlength, hbefore⟩ := h
  obtain ⟨more, hmore⟩ := hgrows.content index
  exact ⟨before, after ++ more, by rw [← hmore, hcontent, List.append_assoc], hlength, hbefore⟩

theorem Grows.reached (hgrows : f.Grows f') (h : f.Reached index offset) :
    f'.Reached index offset := by
  obtain ⟨⟨i, hi, hle⟩, hoffset⟩ := h
  exact ⟨⟨i, hgrows.names hi, hle⟩, hoffset.trans (hgrows.content index).length_le⟩

theorem Grows.nextExists (hgrows : f.Grows f') (h : f.NextExists index) :
    f'.NextExists index := by
  obtain ⟨i, hi, hlt⟩ := h
  exact ⟨i, hgrows.names hi, hlt⟩

theorem Grows.new_lines (hgrows : f.Grows f') (hreached : f.Reached index offset) :
    ∃ new, f'.log = f.log ++ new ∧ ∀ e ∈ new, toLex (index, offset) < e.pos := by
  obtain ⟨new, hlog, hnew⟩ := hgrows.log
  obtain ⟨⟨i, hi, hindex⟩, hoffset⟩ := hreached
  refine ⟨new, hlog, ?_⟩
  intro e he
  obtain ⟨hfile, hlength⟩ := hnew e he
  have hle := hindex.trans (hfile i hi)
  rw [LogLine.pos, Prod.Lex.toLex_lt_toLex]
  rcases Nat.lt_or_eq_of_le hle with hlt | heq
  · exact Or.inl hlt
  · exact Or.inr ⟨heq, lt_of_le_of_lt hoffset (heq ▸ hlength)⟩

theorem Grows.log_subset (hgrows : f.Grows f') {e : LogLine} (he : e ∈ f.log) : e ∈ f'.log := by
  obtain ⟨new, hlog, -⟩ := hgrows.log
  rw [hlog]
  exact List.mem_append_left new he

theorem Grows.mem_of_lt (hgrows : f.Grows f') (hf' : f'.Inv) {e e' : LogLine} (he : e ∈ f.log)
    (he' : e' ∈ f'.log) (hlt : e'.pos < e.pos) : e' ∈ f.log := by
  obtain ⟨new, hlog, -⟩ := hgrows.log
  have hsorted := hf'.sorted
  rw [hlog, List.pairwise_append] at hsorted
  rw [hlog, List.mem_append] at he'
  rcases he' with he' | he'
  · exact he'
  · exact absurd hlt (not_lt.mpr (hsorted.2.2 e he e' he').le)

theorem Grows.linesAfter_begins (hgrows : f.Grows f') (p : LogPos) :
    Foundation.linesAfter p f.log <+: Foundation.linesAfter p f'.log := by
  obtain ⟨new, hlog, -⟩ := hgrows.log
  rw [hlog, Foundation.linesAfter, Foundation.linesAfter, List.filter_append]
  exact List.prefix_append _ _

theorem Grows.linesAfter (hgrows : f.Grows f') {p : LogPos} (xs : List LogLine)
    (hreached : f.Reached index offset) (hle : p ≤ toLex (index, offset))
    (h : Foundation.linesAfter p f.log =
      xs ++ Foundation.linesAfter (toLex (index, offset)) f.log) :
    Foundation.linesAfter p f'.log =
      xs ++ Foundation.linesAfter (toLex (index, offset)) f'.log := by
  obtain ⟨new, hlog, hnew⟩ := hgrows.new_lines hreached
  have hkeep : ∀ q ≤ toLex (index, offset), Foundation.linesAfter q f'.log =
      Foundation.linesAfter q f.log ++ new := by
    intro q hq
    rw [hlog, Foundation.linesAfter, List.filter_append, Foundation.linesAfter]
    congr 1
    simpa [List.filter_eq_self] using fun e he => lt_of_le_of_lt hq (hnew e he)
  rw [hkeep p hle, hkeep _ (le_refl _), h, List.append_assoc]

theorem Inv.linesAfter_line (h : f.Inv) {before text after : Bytes}
    (hcontent : f.content index = before ++ text ++ newline :: after)
    (hbefore : EndsLine before) (htext : newline ∉ text) :
    Foundation.linesAfter (toLex (index, before.length)) f.log =
      ⟨index, before.length + text.length + 1, text⟩ ::
        Foundation.linesAfter (toLex (index, before.length + text.length + 1)) f.log := by
  apply linesAfter_eq_cons h.sorted (h.complete index before text after hcontent hbefore htext)
  · rw [LogLine.pos, Prod.Lex.toLex_lt_toLex]
    exact Or.inr ⟨rfl, by dsimp only; omega⟩
  · intro e he hlt
    rw [LogLine.pos, Prod.Lex.toLex_lt_toLex] at hlt
    rw [LogLine.pos, LogLine.pos, Prod.Lex.toLex_le_toLex]
    rcases hlt with hlt | ⟨heq, hlt⟩
    · exact Or.inl hlt
    · refine Or.inr ⟨heq, ?_⟩
      obtain ⟨before', after', hcontent', hoffset⟩ := h.sound e he
      dsimp only at heq hlt ⊢
      -- a newline inside the text would be in the way
      by_contra hshort
      subst heq
      apply htext
      have hbyte : (f.content e.file)[e.offset - 1]? = some newline := by
        rw [hcontent', show e.offset - 1 = (before' ++ e.text).length by
          rw [List.length_append]
          omega]
        simp
      rw [hcontent, List.append_assoc, List.getElem?_append_right (by omega),
        List.getElem?_append_left (by omega)] at hbyte
      exact List.mem_of_getElem? hbyte

theorem Inv.linesAfter_end (h : f.Inv) (hend : (f.content index).length ≤ offset) :
    Foundation.linesAfter (toLex (index, offset)) f.log =
      Foundation.linesAfter (toLex (index + 1, 0)) f.log := by
  apply List.filter_congr
  intro e he
  obtain ⟨-, hpos, hoffset⟩ := h.of_mem he
  rw [decide_eq_decide, LogLine.pos, Prod.Lex.toLex_lt_toLex, Prod.Lex.toLex_lt_toLex]
  dsimp only
  constructor
  · rintro (hlt | ⟨rfl, hlt⟩)
    · omega
    · omega
  · rintro (hlt | ⟨heq, -⟩)
    · exact Or.inl (by omega)
    · exact Or.inl (by omega)

theorem Inv.endsLine_of_nextExists (h : f.Inv) (hnext : f.NextExists index) :
    EndsLine (f.content index) := by
  obtain ⟨i, hi, hlt⟩ := hnext
  have hne : index ≠ f.current := by
    have := h.names_le i hi
    omega
  obtain ⟨whole, hwhole, hcontent⟩ := h.whole index
  have hopen : f.openLine index = [] := by
    unfold openLine
    split <;> simp [hne]
  rw [hcontent, hopen, List.append_nil]
  exact hwhole

end LogFiles

/-! ## What holds of a reader between any two steps -/

/-- The lines of a batch are the ones between its start and where it got to. -/
structure ReadTo (f : LogFiles) (index offset : Nat) (lines : List LogLine) (o : Nat) :
    Prop where
  mem : index ∈ f.names
  le : offset ≤ o
  split : linesAfter (toLex (index, offset)) f.log =
    lines ++ linesAfter (toLex (index, o)) f.log
  nil : lines = [] → o = offset
  file : ∀ line ∈ lines, line.file = index

/-- The invariant of a reader at `index` and `offset`. -/
def TailInv (f : LogFiles) (index offset : Nat) : TailPc → Prop
  | .idle | .failed => True
  | .checked next => next → f.NextExists index
  | .reading next lines o part avail =>
      (next → f.NextExists index) ∧ ReadTo f index offset lines o ∧ newline ∉ part ∧
        ∃ before after, f.content index = before ++ part ++ avail ++ after ∧
          before.length = o ∧ EndsLine before
  | .returned next lines o =>
      (next → f.NextExists index) ∧ ReadTo f index offset lines o ∧ f.AtLine index o ∧
        (next → lines = [] → linesAfter (toLex (index, offset)) f.log =
          linesAfter (toLex (index + 1, 0)) f.log)

section Reader

variable {f f' : LogFiles} {index offset o maxLines : Nat} {lines : List LogLine}
  {pc pc' : TailPc}

theorem ReadTo.grows (h : ReadTo f index offset lines o) (hat : f.AtLine index o)
    (hgrows : f.Grows f') : ReadTo f' index offset lines o where
  mem := hgrows.names h.mem
  le := h.le
  split := by
    apply hgrows.linesAfter lines (hat.reached h.mem) _ h.split
    rw [Prod.Lex.toLex_le_toLex]
    exact Or.inr ⟨rfl, h.le⟩
  nil := h.nil
  file := h.file

theorem TailInv.grows (h : TailInv f index offset pc) (hgrows : f.Grows f') :
    TailInv f' index offset pc := by
  cases pc with
  | idle | failed => trivial
  | checked next => exact fun hnext => hgrows.nextExists (h hnext)
  | reading next lines o part avail =>
      obtain ⟨hnext, hread, hpart, before, after, hcontent, hlength, hbefore⟩ := h
      obtain ⟨more, hmore⟩ := hgrows.content index
      have hat : f.AtLine index o :=
        ⟨before, part ++ avail ++ after, by simp [hcontent], hlength, hbefore⟩
      exact ⟨fun hn => hgrows.nextExists (hnext hn), hread.grows hat hgrows, hpart,
        before, after ++ more, by rw [← hmore, hcontent, List.append_assoc], hlength, hbefore⟩
  | returned next lines o =>
      obtain ⟨hnext, hread, hat, hswitch⟩ := h
      refine ⟨fun hn => hgrows.nextExists (hnext hn), hread.grows hat hgrows,
        hgrows.atLine hat, ?_⟩
      intro hn hnil
      apply hgrows.linesAfter [] (hnext hn).reached _ (hswitch hn hnil)
      rw [Prod.Lex.toLex_le_toLex]
      exact Or.inl (Nat.lt_succ_self _)

theorem ReadTo.snoc (h : ReadTo f index offset lines o) (hf : f.Inv)
    {before part : Bytes} (after : Bytes)
    (hcontent : f.content index = before ++ part ++ newline :: after)
    (hlength : before.length = o) (hbefore : EndsLine before) (hpart : newline ∉ part) :
    ReadTo f index offset (lines ++ [⟨index, o + part.length + 1, part⟩])
      (o + part.length + 1) where
  mem := h.mem
  le := by have := h.le; omega
  split := by
    have hline := hf.linesAfter_line hcontent hbefore hpart
    rw [hlength] at hline
    rw [h.split, hline, List.append_assoc, List.singleton_append]
  nil := by simp
  file := by
    intro line hline
    rcases List.mem_append.mp hline with hline | hline
    · exact h.file line hline
    · rw [List.mem_singleton.mp hline]

theorem tailInv_step (h : TailInv f index offset pc) (hf : f.Inv)
    (hat : f.AtLine index offset) {a : TailAction}
    (hstep : tailStep maxLines f index offset pc a = some pc') :
    TailInv f index offset pc' := by
  cases a with
  | check =>
      cases pc with
      | idle =>
          simp only [tailStep, Option.some.injEq] at hstep
          subst hstep
          intro hnext
          exact ⟨index + 1, of_decide_eq_true hnext, Nat.lt_succ_self _⟩
      | checked | reading | returned | failed => simp [tailStep] at hstep
  | openFile =>
      cases pc with
      | checked next =>
          simp only [tailStep, Option.some.injEq] at hstep
          subst hstep
          split
          · rename_i hmem
            obtain ⟨before, after, hcontent, hlength, hbefore⟩ := hat
            exact ⟨h, ⟨hmem, le_refl _, rfl, fun _ => rfl, by simp⟩, List.not_mem_nil,
              before, after, by simpa using hcontent, hlength, hbefore⟩
          · trivial
      | idle | reading | returned | failed => simp [tailStep] at hstep
  | fetch n =>
      cases pc with
      | reading next lines o part avail =>
          cases avail with
          | cons b avail => simp [tailStep] at hstep
          | nil =>
              obtain ⟨hnext, hread, hpart, before, after, hcontent, hlength, hbefore⟩ := h
              simp only [tailStep, Option.some.injEq] at hstep
              subst hstep
              have hdrop : (f.content index).drop (o + part.length) = after := by
                rw [hcontent, List.append_nil, ← hlength, ← List.length_append,
                  List.drop_left]
              rw [hdrop]
              split
              · rename_i hend
                have hafter : after = [] := by
                  cases after with
                  | nil => rfl
                  | cons b after => simp at hend
                rw [hafter, List.append_nil, List.append_nil] at hcontent
                refine ⟨hnext, hread, ⟨before, part, hcontent, hlength, hbefore⟩, ?_⟩
                intro hn hnil
                apply hf.linesAfter_end
                have hends := hf.endsLine_of_nextExists (hnext hn)
                rw [hcontent] at hends
                have hnone : part = [] := by
                  by_contra hne
                  exact hpart (hends.of_append.mem hne)
                have := hread.nil hnil
                simp [hcontent, hnone]
                omega
              · refine ⟨hnext, hread, hpart, before, after.drop (n + 1), ?_, hlength, hbefore⟩
                rw [hcontent, List.append_nil, List.append_assoc _ (List.take _ _),
                  List.take_append_drop]
      | idle | checked | returned | failed => simp [tailStep] at hstep
  | getc =>
      cases pc with
      | reading next lines o part avail =>
          cases avail with
          | nil => simp [tailStep] at hstep
          | cons b avail =>
              obtain ⟨hnext, hread, hpart, before, after, hcontent, hlength, hbefore⟩ := h
              simp only [tailStep] at hstep
              split at hstep
              · rename_i hb
                subst hb
                simp only [Option.some.injEq] at hstep
                subst hstep
                have hline := hread.snoc hf (avail ++ after)
                  (by simpa using hcontent) hlength hbefore hpart
                have hcontent' : f.content index =
                    (before ++ part ++ [newline]) ++ [] ++ avail ++ after := by
                  simpa using hcontent
                have hlength' : (before ++ part ++ [newline]).length = o + part.length + 1 := by
                  simp [hlength, Nat.add_assoc]
                split
                · refine ⟨hnext, hline, ⟨_, avail ++ after, ?_, hlength', endsLine_snoc.mpr rfl⟩,
                    by simp⟩
                  simpa using hcontent
                · exact ⟨hnext, hline, List.not_mem_nil, _, after, hcontent', hlength',
                    endsLine_snoc.mpr rfl⟩
              · rename_i hb
                simp only [Option.some.injEq] at hstep
                subst hstep
                refine ⟨hnext, hread, ?_, before, after, by simpa using hcontent, hlength,
                  hbefore⟩
                simp [hpart, Ne.symm hb]
      | idle | checked | returned | failed => simp [tailStep] at hstep

end Reader

end ExplorerKV.Foundation

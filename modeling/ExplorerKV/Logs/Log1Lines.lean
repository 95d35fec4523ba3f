import ExplorerKV.Bitcoin.RawHex
import ExplorerKV.Logs.Log1Tail
import ExplorerKV.Logs.Log1Text

/-!
# What a log1 line carries

`writeLog1Tx` and `writeLog1Block` put the raw transaction or block into the
line, behind its hash; `getTx` and `getBlock` decode it and compare the hash.
The hash function is that of OpenSSL and stays a parameter.
-/

namespace ExplorerKV.Logs

open Bitcoin Bitcoin.Wire Foundation

inductive Log1Entry where
  | block (height : Int32) (blk : Wire.CBlock)
  | acceptTx (tx : Wire.CTransaction)
  | removeTx (tx : Wire.CTransaction)
  | clearMemtxs
  deriving DecidableEq, Repr

section Lines

-- `Hash`, of the bytes it is given
variable (hash : Bytes → Uint256)

def getHash (tx : Wire.CTransaction) : Uint256 := hash tx.serialize

def getBlockHash (block : Wire.CBlock) : Uint256 := hash block.toCBlockHeader.serialize

/-! ## Writing -/

/-- The line `writeLog1` appends, without its newline. -/
def writeLog1 (date : Bytes) (type : Int32) (line : Bytes) : Bytes :=
  date ++ comma :: intText type.toInt ++ comma :: line

def writeLog1Tx (date : Bytes) (type : Int32) (tx : Wire.CTransaction) : Bytes :=
  writeLog1 date type (hashText (getHash hash tx) ++ bar :: encodeHexTx tx)

def writeLog1Block (date : Bytes) (height : Int32) (block : Wire.CBlock) : Bytes :=
  writeLog1 date Log1Item.TYPE_BLOCK (intText height.toInt ++ bar ::
    (hashText (getBlockHash hash block) ++ bar :: encodeHexBlock block))

def Log1Entry.line (date : Bytes) : Log1Entry → Bytes
  | .block height blk => writeLog1Block hash date height blk
  | .acceptTx tx => writeLog1Tx hash date Log1Item.TYPE_ACCEPT_TX tx
  | .removeTx tx => writeLog1Tx hash date Log1Item.TYPE_REMOVE_TX tx
  | .clearMemtxs => writeLog1 date Log1Item.TYPE_CLEAR_MEMTXS []

/-! ## Reading -/

inductive Log1ReadFault where
  | parse (fault : Log1Fault)
  /-- `substr(64)` of less than 64 bytes -/
  | noHash
  | decodeFailure
  | hashNotMatch
  deriving DecidableEq, Repr

/-- `getTx` and `getBlock`, which differ in the class they decode. -/
def Log1Item.decode {α : Type} (decodeHex : Bytes → Option α) (hashOf : α → Uint256)
    (item : Log1Item) : Except Log1ReadFault α :=
  if item.content_.length < 64 then .error .noHash
  else match decodeHex (item.content_.drop 64) with
    | none => .error .decodeFailure
    | some a =>
        if hashText (hashOf a) ≠ item.content_.take 64 then .error .hashNotMatch else .ok a

def Log1Item.getTx (item : Log1Item) : Except Log1ReadFault Wire.CTransaction :=
  item.decode decodeHexTx (getHash hash)

def Log1Item.getBlock (item : Log1Item) : Except Log1ReadFault Wire.CBlock :=
  item.decode decodeHexBlk (getBlockHash hash)

/-- What `handleTx`, `handleBlock` and `clearMempoolTxs` take from the item. -/
def Log1Item.entry (item : Log1Item) : Except Log1ReadFault Log1Entry :=
  if item.type_ = TYPE_ACCEPT_TX then return .acceptTx (← item.getTx hash)
  else if item.type_ = TYPE_REMOVE_TX then return .removeTx (← item.getTx hash)
  else if item.type_ = TYPE_BLOCK then return .block item.blockHeight_ (← item.getBlock hash)
  else return .clearMemtxs

def readLog1 (line : Bytes) : Except Log1ReadFault Log1Entry :=
  match Log1Item.parse line with
  | .error fault => .error (.parse fault)
  | .ok item => item.entry hash

end Lines

/-! ## A line read back -/

/-- The vectors keep to the size the reader accepts. -/
def Log1Entry.Fits : Log1Entry → Prop
  | .block _ blk => blk.Fits
  | .acceptTx tx => tx.Fits
  | .removeTx tx => tx.Fits
  | .clearMemtxs => True

variable {hash : Bytes → Uint256} {date : Bytes}

theorem not_mem_hexStr {c : UInt8} (hc : hexDigit c = none) (bytes : Bytes) : c ∉ hexStr bytes :=
  fun hmem => by
    have hsome := isSome_of_mem_hexStr hmem
    rw [hc] at hsome
    cases hsome

theorem not_mem_hashText {c : UInt8} (hc : hexDigit c = none) (h : Uint256) : c ∉ hashText h :=
  fun hmem => by
    obtain ⟨d, hd, rfl⟩ := List.mem_map.mp hmem
    rw [hexDigit_hexByte d (lt_of_mem_fixedDigits (by decide) hd)] at hc
    cases hc

@[simp] theorem length_hashText (h : Uint256) : (hashText h).length = 64 := by
  rw [hashText, List.length_map, length_fixedDigits]

theorem encode_ne_nil {bytes : Bytes} (h : bytes ≠ []) : hexStr bytes ≠ [] := fun hnil => h <| by
  rw [← parseHex_hexStr bytes, hnil, parseHex_nil]

theorem split_writeLog1 {type : Int32} {line : Bytes} (hdate : comma ∉ date)
    (hline : comma ∉ line) (hne : line ≠ []) :
    split (writeLog1 date type line) comma 3 = [date, intText type.toInt, line] := by
  rw [split_eq_take, writeLog1, List.append_assoc, List.cons_append,
    splitAll_cons hdate, splitAll_cons (comma_not_mem_intText _), splitAll_single hline hne]
  rfl

theorem parse_tx {type : Int32} {hashStr hex : Bytes}
    (htype : type = Log1Item.TYPE_ACCEPT_TX ∨ type = Log1Item.TYPE_REMOVE_TX)
    (hdate : comma ∉ date) (hline : comma ∉ hashStr ++ bar :: hex) (hbar : bar ∉ hashStr)
    (hbar' : bar ∉ hex) (hne : hex ≠ []) :
    Log1Item.parse (writeLog1 date type (hashStr ++ bar :: hex)) =
      .ok { Log1Item.reset with content_ := hashStr ++ hex, type_ := type } := by
  have hparts : splitAll (hashStr ++ bar :: hex) bar = [hashStr, hex] := by
    rw [splitAll_cons hbar, splitAll_single hbar' hne]
  have hclear : type ≠ Log1Item.TYPE_CLEAR_MEMTXS := by
    obtain rfl | rfl := htype <;> decide
  have hblock : type ≠ Log1Item.TYPE_BLOCK := by
    obtain rfl | rfl := htype <;> decide
  simp [Log1Item.parse, split_writeLog1 hdate hline (by simp), Log1Item.elementAt,
    atoi_intText, hparts, hclear, hblock, htype, bind, Except.bind, pure, Except.pure]

theorem parse_block {height : Int32} {hashStr hex : Bytes} (hdate : comma ∉ date)
    (hline : comma ∉ hashStr ++ bar :: hex) (hbar : bar ∉ hashStr) (hbar' : bar ∉ hex)
    (hne : hex ≠ []) :
    Log1Item.parse (writeLog1 date Log1Item.TYPE_BLOCK
        (intText height.toInt ++ bar :: (hashStr ++ bar :: hex))) =
      .ok { Log1Item.reset with
        blockHeight_ := height, content_ := hashStr ++ hex, type_ := Log1Item.TYPE_BLOCK } := by
  have hheight : bar ∉ intText height.toInt := not_mem_intText (by decide) (.inr (by decide)) _
  have hparts : splitAll (intText height.toInt ++ bar :: (hashStr ++ bar :: hex)) bar =
      [intText height.toInt, hashStr, hex] := by
    rw [splitAll_cons hheight, splitAll_cons hbar, splitAll_single hbar' hne]
  have hcomma : comma ∉ intText height.toInt ++ bar :: (hashStr ++ bar :: hex) := by
    rw [List.mem_append, List.mem_cons]
    exact fun h => h.elim (comma_not_mem_intText _) fun h => h.elim (by decide) hline
  have hkind : atoi (intText Log1Item.TYPE_BLOCK.toInt) = Log1Item.TYPE_BLOCK :=
    atoi_intText _
  have hclear : Log1Item.TYPE_BLOCK ≠ Log1Item.TYPE_CLEAR_MEMTXS := by decide
  simp only [Log1Item.parse, split_writeLog1 hdate hcomma (by simp), Log1Item.elementAt,
    List.getElem?_cons_succ, List.getElem?_cons_zero, bind, Except.bind, hkind, hclear, hparts]
  simp [atoi_intText, pure, Except.pure]

theorem parse_clear (hdate : comma ∉ date) :
    Log1Item.parse (writeLog1 date Log1Item.TYPE_CLEAR_MEMTXS []) =
      .ok { Log1Item.reset with type_ := Log1Item.TYPE_CLEAR_MEMTXS } := by
  have hsplit : split (writeLog1 date Log1Item.TYPE_CLEAR_MEMTXS []) comma 3 =
      [date, intText Log1Item.TYPE_CLEAR_MEMTXS.toInt] := by
    rw [split_eq_take, writeLog1, List.append_assoc, List.cons_append, splitAll_cons hdate,
      splitAll_cons (comma_not_mem_intText _), splitAll_nil]
    rfl
  simp [Log1Item.parse, hsplit, Log1Item.elementAt, atoi_intText, bind, Except.bind, pure,
    Except.pure]

theorem decode_of_written {α : Type} {decodeHex : Bytes → Option α} {hashOf : α → Uint256}
    {item : Log1Item} {hex : Bytes} {a : α} (hcontent : item.content_ = hashText (hashOf a) ++ hex)
    (hdecode : decodeHex hex = some a) : item.decode decodeHex hashOf = .ok a := by
  have hlength : 64 ≤ item.content_.length := by
    rw [hcontent, List.length_append, length_hashText]
    omega
  have htake : item.content_.take 64 = hashText (hashOf a) := by
    rw [hcontent, List.take_left' (length_hashText _)]
  have hdrop : item.content_.drop 64 = hex := by
    rw [hcontent, List.drop_left' (length_hashText _)]
  rw [Log1Item.decode, if_neg (by omega), hdrop, hdecode]
  simp [htake]

theorem readLog1_line {entry : Log1Entry} (hfits : entry.Fits) (hdate : comma ∉ date) :
    readLog1 hash (entry.line hash date) = .ok entry := by
  have hcomma : ∀ h bytes, comma ∉ hashText h ++ bar :: hexStr bytes := fun h bytes hmem => by
    rw [List.mem_append, List.mem_cons] at hmem
    exact hmem.elim (not_mem_hashText (by decide) h) fun hmem =>
      hmem.elim (by decide) (not_mem_hexStr (by decide) bytes)
  have hbar : ∀ h, bar ∉ hashText h := not_mem_hashText (by decide)
  have hbar' : ∀ bytes, bar ∉ hexStr bytes := not_mem_hexStr (by decide)
  cases entry with
  | block height blk =>
      rw [readLog1, Log1Entry.line, writeLog1Block, encodeHexBlock,
        parse_block hdate (hcomma _ _) (hbar _) (hbar' _)
          (encode_ne_nil (serialize_block_ne_nil _))]
      have hget : Log1Item.getBlock hash ⟨Log1Item.TYPE_BLOCK, height,
          hashText (getBlockHash hash blk) ++ hexStr blk.serialize⟩ = .ok blk :=
        decode_of_written rfl (decodeHexBlk_encodeHexBlock hfits)
      simp only [Log1Item.entry, hget]
      rfl
  | acceptTx tx =>
      rw [readLog1, Log1Entry.line, writeLog1Tx, encodeHexTx,
        parse_tx (.inl rfl) hdate (hcomma _ _) (hbar _) (hbar' _)
          (encode_ne_nil (serialize_ne_nil _))]
      have hget : Log1Item.getTx hash ⟨Log1Item.TYPE_ACCEPT_TX, -1,
          hashText (getHash hash tx) ++ hexStr tx.serialize⟩ = .ok tx :=
        decode_of_written rfl (decodeHexTx_encodeHexTx hfits)
      simp only [Log1Item.entry, Log1Item.reset, hget]
      rfl
  | removeTx tx =>
      rw [readLog1, Log1Entry.line, writeLog1Tx, encodeHexTx,
        parse_tx (.inr rfl) hdate (hcomma _ _) (hbar _) (hbar' _)
          (encode_ne_nil (serialize_ne_nil _))]
      have hget : Log1Item.getTx hash ⟨Log1Item.TYPE_REMOVE_TX, -1,
          hashText (getHash hash tx) ++ hexStr tx.serialize⟩ = .ok tx :=
        decode_of_written rfl (decodeHexTx_encodeHexTx hfits)
      simp only [Log1Item.entry, Log1Item.reset, hget]
      rfl
  | clearMemtxs =>
      rw [readLog1, Log1Entry.line, parse_clear hdate]
      rfl

/-! ## From the writer to the handlers -/

/-- A line the producer may be told to write; a date has no comma and no newline. -/
structure Log1Line where
  date : Bytes
  entry : Log1Entry
  date_comma : comma ∉ date
  date_newline : newline ∉ date
  fits : entry.Fits

def Log1Line.text (hash : Bytes → Uint256) (line : Log1Line) : Bytes :=
  line.entry.line hash line.date

def WritesLines (hash : Bytes → Uint256) (schedule : List Log1Action) : Prop :=
  ∀ texts, .writer (.write texts) ∈ schedule → ∀ text ∈ texts,
    ∃ line : Log1Line, text = line.text hash

variable {cfg : Log1Config} {s s' : Log1State}

theorem Log1State.files_of_not_writer {a : Log1Action} (hstep : s.step cfg a = some s')
    (ha : ∀ b, a ≠ .writer b) : s'.files.log = s.files.log ∧ s'.files.writer = s.files.writer := by
  cases a with
  | writer b => exact absurd rfl (ha b)
  | syncLog1 index offset =>
      obtain ⟨-, rfl⟩ := Option.ite_some_none_eq_some.mp hstep
      exact ⟨rfl, rfl⟩
  | tryReadLog1 a =>
      obtain ⟨pc, -, rfl⟩ := Option.map_eq_some_iff.mp hstep
      exact ⟨rfl, rfl⟩
  | finishRead =>
      cases hreader : s.reader with
      | returned next lines offset =>
          simp only [Log1State.step, hreader, Option.some.injEq] at hstep
          subst hstep
          rw [Log1State.finishRead]
          split
          · exact ⟨rfl, rfl⟩
          · split <;> exact ⟨rfl, rfl⟩
      | idle | checked | reading | failed => simp [Log1State.step, hreader] at hstep

theorem Log1State.run_allLines (hkeep : 0 < cfg.keepLogNum) {schedule : List Log1Action}
    (hwrites : WritesLines hash schedule) (hrun : Log1State.run cfg schedule = some s) :
    s.files.AllLines fun text => ∃ line : Log1Line, text = line.text hash := by
  refine runs_inv (fun schedule s => WritesLines hash schedule → s.Inv ∧
      s.files.AllLines fun text => ∃ line : Log1Line, text = line.text hash)
    (fun _ => ⟨inv_initial, LogFiles.allLines_empty⟩) ?_ hrun hwrites |>.2
  intro as a t t' _ ih hstep hwrites
  obtain ⟨hinv, hall⟩ := ih fun texts hmem => hwrites texts (List.mem_append_left _ hmem)
  refine ⟨inv_step hkeep hinv hstep, ?_⟩
  cases a with
  | writer b =>
      obtain ⟨files, hfiles, rfl⟩ := Option.map_eq_some_iff.mp hstep
      refine hall.step hinv.files (fun texts hb => ?_) hfiles
      exact hwrites texts (List.mem_append_right _ (hb ▸ .head _))
  | syncLog1 | tryReadLog1 | finishRead =>
      obtain ⟨hlog, hwriter⟩ := files_of_not_writer hstep fun b hb => by cases hb
      exact ⟨hlog ▸ hall.log, hwriter ▸ hall.writing⟩

theorem exists_lines {texts : List Bytes}
    (h : ∀ text ∈ texts, ∃ line : Log1Line, text = line.text hash) :
    ∃ lines : List Log1Line, texts = lines.map (·.text hash) := by
  induction texts with
  | nil => exact ⟨[], rfl⟩
  | cons text texts ih =>
      obtain ⟨⟨line, rfl⟩, hrest⟩ := List.forall_mem_cons.mp h
      obtain ⟨lines, rfl⟩ := ih hrest
      exact ⟨line :: lines, rfl⟩

/--
In any run of the two programs, restarts included, the lines written after the
reader's start stand for entries, and what the handlers are given is the first
of these entries, in order, with every field of the transactions and blocks; no
line is refused.
-/
theorem readLog1_delivered (hash : Bytes → Uint256) (cfg : Log1Config) (hkeep : 0 < cfg.keepLogNum)
    (schedule : List Log1Action) (s : Log1State) (hrun : Log1State.run cfg schedule = some s)
    (hwrites : WritesLines hash schedule) :
    ∃ lines : List Log1Line,
      (linesAfter s.start s.files.log).map (·.text) = lines.map (·.text hash) ∧
        s.delivered.map (fun line => readLog1 hash line.text) =
          (lines.take s.delivered.length).map fun line => .ok line.entry := by
  have hall := Log1State.run_allLines hkeep hwrites hrun
  have hinv := Log1State.run_inv hkeep hrun
  have hwritten : ∀ text ∈ (linesAfter s.start s.files.log).map (·.text),
      ∃ line : Log1Line, text = line.text hash := fun text htext => by
    obtain ⟨e, he, rfl⟩ := List.mem_map.mp htext
    exact hall.log e (mem_linesAfter.mp he).1
  obtain ⟨lines, hlines⟩ := exists_lines hwritten
  have htake : s.delivered.map (·.text) = (lines.take s.delivered.length).map (·.text hash) := by
    rw [List.map_take, ← hlines, hinv.delivered, List.map_append,
      List.take_left' (List.length_map _)]
  refine ⟨lines, hlines, ?_⟩
  calc s.delivered.map (fun line => readLog1 hash line.text)
      = (s.delivered.map (·.text)).map (readLog1 hash) := by rw [List.map_map]; rfl
    _ = (lines.take s.delivered.length).map fun line => readLog1 hash (line.text hash) := by
        rw [htake, List.map_map]; rfl
    _ = (lines.take s.delivered.length).map fun line => .ok line.entry :=
        List.map_congr_left fun line _ => readLog1_line line.fits line.date_comma

def exampleLog1Tx : Wire.CTransaction := ⟨1, [], [⟨5, []⟩], 0⟩

theorem exampleLog1Tx_fits : exampleLog1Tx.Fits where
  vin := by decide +kernel
  vout := by decide +kernel

/-- A transaction and a block of it. -/
def exampleLog1Lines : List Log1Line :=
  [{ date := [68]
     entry := .acceptTx exampleLog1Tx
     date_comma := by decide
     date_newline := by decide
     fits := exampleLog1Tx_fits },
   { date := [69]
     entry := .block 7 ⟨⟨1, 0, 0, 0, 0, 0⟩, [exampleLog1Tx]⟩
     date_comma := by decide
     date_newline := by decide
     fits := ⟨by decide +kernel, fun tx htx => List.mem_singleton.mp htx ▸ exampleLog1Tx_fits⟩ }]

theorem readLog1_delivered_example : ∃ schedule s,
    Log1State.run ⟨0, 72⟩ schedule = some s ∧ s.delivered.length = 2 ∧
      ∃ lines : List Log1Line,
        (linesAfter s.start s.files.log).map (·.text) = lines.map (·.text fun _ => 5) ∧
          s.delivered.map (fun line => readLog1 (fun _ => 5) line.text) =
            (lines.take s.delivered.length).map fun line => .ok line.entry := by
  have hnewline : ∀ text ∈ exampleLog1Lines.map (·.text fun _ => 5), newline ∉ text := by
    decide +kernel
  obtain ⟨schedule, s, hrun, htexts, hwrites⟩ :=
    exists_delivered ⟨0, 72⟩ (by decide) hnewline (by decide)
  have hlength : s.delivered.length = 2 := by
    rw [← List.length_map (·.text), htexts]
    rfl
  refine ⟨schedule, s, hrun, hlength,
    readLog1_delivered _ ⟨0, 72⟩ (by decide) schedule s hrun ?_⟩
  intro texts hmem text htext
  rw [hwrites texts hmem] at htext
  obtain ⟨line, -, rfl⟩ := List.mem_map.mp htext
  exact ⟨line, rfl⟩

end ExplorerKV.Logs

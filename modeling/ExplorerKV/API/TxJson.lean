import ExplorerKV.Bitcoin.Base58
import ExplorerKV.Foundation.Json
import ExplorerKV.Logs.NotifyText

/-!
# A tx as JSON

`APIHandler::getTx` puts the text of a tx together by hand.  Members are
printed with a comma behind them and the last comma is taken away again; behind
the addresses of an input or an output no comma is printed at all.
-/

namespace ExplorerKV.API

open Foundation Foundation.Json

structure TxInput where
  sequence : UInt32
  scriptAsm : PlainText
  scriptHex : PlainText
  prevTxHash : PlainText
  prevPosition : Int32
  prevValue : Int64
  prevAddresses : List PlainText

structure TxOutput where
  value : Int64
  addresses : List PlainText
  scriptAsm : PlainText
  scriptHex : PlainText
  scriptType : PlainText

/-- `fbe::Tx`, as far as `getTx` reads it. -/
structure TxView where
  blockHeight : Int32
  isCoinbase : Bool
  version : Int32
  lockTime : UInt32
  size : Int32
  fee : Int64
  inputs : List TxInput
  inputsCount : Int32
  inputsValue : Int64
  outputs : List TxOutput
  outputsCount : Int32
  outputsValue : Int64

/-! ## The text -/

/-- `"<key>":"%s",` -/
def formatStr (key : String) (s : Bytes) : Bytes :=
  ascii "\"" ++ ascii key ++ ascii "\":\"" ++ s ++ ascii "\","

/-- `"<key>":%d,`, with the number or the truth value as it is printed -/
def formatNum (key : String) (text : Bytes) : Bytes :=
  ascii "\"" ++ ascii key ++ ascii "\":" ++ text ++ ascii ","

def removeLastComma (buf : Bytes) : Bytes :=
  if buf.getLast? = some 44 then buf.dropLast else buf

/-- The loop over addresses, with the call of `removeLastComma` that follows it. -/
def appendAddresses (buf : Bytes) (addresses : List PlainText) : Bytes :=
  removeLastComma (addresses.foldl
    (fun buf addr => buf ++ (ascii "\"" ++ addr.bytes ++ ascii "\"")) buf)

def appendInput (isCoinbase : Bool) (verbose : Int32) (buf : Bytes) (input : TxInput) : Bytes :=
  let buf := buf ++ [123]
  let buf :=
    if verbose ≥ 3 then
      buf ++ formatNum "sequence" (decimalText input.sequence.toNat) ++
        formatStr "script_asm" input.scriptAsm.bytes ++
        formatStr "script_hex" input.scriptHex.bytes
    else buf
  let buf :=
    if isCoinbase then buf
    else
      let buf := buf ++ formatStr "prev_hash" input.prevTxHash.bytes ++
        formatNum "prev_position" (intText input.prevPosition.toInt) ++
        formatNum "prev_value" (intText input.prevValue.toInt) ++ ascii "\"prev_addr\":["
      appendAddresses buf input.prevAddresses ++ ascii "]"
  removeLastComma buf ++ [125, 44]

def appendOutput (verbose : Int32) (buf : Bytes) (output : TxOutput) : Bytes :=
  let buf := buf ++ [123] ++ ascii "\"address\":["
  let buf := appendAddresses buf output.addresses ++ ascii "],"
  let buf := buf ++ formatNum "value" (intText output.value.toInt)
  let buf :=
    if verbose ≥ 3 then
      buf ++ formatStr "script_asm" output.scriptAsm.bytes ++
        formatStr "script_hex" output.scriptHex.bytes ++
        formatStr "script_type" output.scriptType.bytes
    else buf
  removeLastComma buf ++ [125, 44]

/-- `getTx`, of the object that was found under the hash -/
def getTx (txHash : PlainText) (fbTx : TxView) (buf : Bytes) (verbose : Int32) : Bytes :=
  let buf := buf ++ formatStr "hash" txHash.bytes ++
    formatNum "block_height" (intText fbTx.blockHeight.toInt) ++
    formatNum "is_coinbase" (ascii (if fbTx.isCoinbase then "true" else "false")) ++
    formatNum "inputs_count" (intText fbTx.inputsCount.toInt) ++
    formatNum "inputs_value" (intText fbTx.inputsValue.toInt) ++
    formatNum "outputs_count" (intText fbTx.outputsCount.toInt) ++
    formatNum "outputs_value" (intText fbTx.outputsValue.toInt)
  let buf :=
    if verbose ≥ 2 then
      buf ++ formatNum "size" (intText fbTx.size.toInt) ++
        formatNum "fee" (intText fbTx.fee.toInt) ++
        formatNum "version" (intText fbTx.version.toInt) ++
        formatNum "lock_time" (decimalText fbTx.lockTime.toNat)
    else buf
  let buf := buf ++ ascii "\"inputs\":["
  let buf := removeLastComma (fbTx.inputs.foldl (appendInput fbTx.isCoinbase verbose) buf)
  let buf := buf ++ ascii "],"
  let buf := buf ++ ascii "\"outputs\":["
  let buf := removeLastComma (fbTx.outputs.foldl (appendOutput verbose) buf)
  buf ++ ascii "]"

/-- What a caller prints before the tx: `tx` nothing, `address` two members. -/
structure AddressTxHead where
  txBlockTime : UInt32
  balanceDiff : Int64

def enclosed (head : Option AddressTxHead) (txHash : PlainText) (fbTx : TxView)
    (verbose : Int32) : Bytes :=
  let buf :=
    match head with
    | none => [123]
    | some addressTx => [123] ++
        formatNum "block_time" (decimalText addressTx.txBlockTime.toNat) ++
        formatNum "balance_diff" (intText addressTx.balanceDiff.toInt)
  getTx txHash fbTx buf verbose ++ [125]

/-! ## The value it should spell -/

def key (name : String) (h : ∀ b ∈ ascii name, 32 ≤ b ∧ b ≠ 34 ∧ b ≠ 92) : PlainText :=
  ⟨ascii name, h⟩

def inputScripts (input : TxInput) : List Member :=
  [⟨key "sequence" (by simp [ascii]), .int input.sequence.toNat⟩,
    ⟨key "script_asm" (by simp [ascii]), .quoted input.scriptAsm⟩,
    ⟨key "script_hex" (by simp [ascii]), .quoted input.scriptHex⟩]

def prevMembers (input : TxInput) : List Member :=
  [⟨key "prev_hash" (by simp [ascii]), .quoted input.prevTxHash⟩,
    ⟨key "prev_position" (by simp [ascii]), .int input.prevPosition.toInt⟩,
    ⟨key "prev_value" (by simp [ascii]), .int input.prevValue.toInt⟩]

def prevAddrMember (input : TxInput) : Member :=
  ⟨key "prev_addr" (by simp [ascii]), .unseparated input.prevAddresses⟩

def inputMembers (isCoinbase : Bool) (verbose : Int32) (input : TxInput) : List Member :=
  (if verbose ≥ 3 then inputScripts input else []) ++
    if isCoinbase then [] else prevMembers input ++ [prevAddrMember input]

def outputScripts (output : TxOutput) : List Member :=
  [⟨key "script_asm" (by simp [ascii]), .quoted output.scriptAsm⟩,
    ⟨key "script_hex" (by simp [ascii]), .quoted output.scriptHex⟩,
    ⟨key "script_type" (by simp [ascii]), .quoted output.scriptType⟩]

def outputMembers (verbose : Int32) (output : TxOutput) : List Member :=
  [⟨key "address" (by simp [ascii]), .unseparated output.addresses⟩,
    ⟨key "value" (by simp [ascii]), .int output.value.toInt⟩] ++
    if verbose ≥ 3 then outputScripts output else []

def inputPiece (isCoinbase : Bool) (verbose : Int32) (input : TxInput) : Piece :=
  .object (inputMembers isCoinbase verbose input)

def outputPiece (verbose : Int32) (output : TxOutput) : Piece :=
  .object (outputMembers verbose output)

def countMembers (txHash : PlainText) (fbTx : TxView) : List Member :=
  [⟨key "hash" (by simp [ascii]), .quoted txHash⟩,
    ⟨key "block_height" (by simp [ascii]), .int fbTx.blockHeight.toInt⟩,
    ⟨key "is_coinbase" (by simp [ascii]), .bool fbTx.isCoinbase⟩,
    ⟨key "inputs_count" (by simp [ascii]), .int fbTx.inputsCount.toInt⟩,
    ⟨key "inputs_value" (by simp [ascii]), .int fbTx.inputsValue.toInt⟩,
    ⟨key "outputs_count" (by simp [ascii]), .int fbTx.outputsCount.toInt⟩,
    ⟨key "outputs_value" (by simp [ascii]), .int fbTx.outputsValue.toInt⟩]

def sizeMembers (fbTx : TxView) : List Member :=
  [⟨key "size" (by simp [ascii]), .int fbTx.size.toInt⟩,
    ⟨key "fee" (by simp [ascii]), .int fbTx.fee.toInt⟩,
    ⟨key "version" (by simp [ascii]), .int fbTx.version.toInt⟩,
    ⟨key "lock_time" (by simp [ascii]), .int fbTx.lockTime.toNat⟩]

def inputsMember (fbTx : TxView) (verbose : Int32) : Member :=
  ⟨key "inputs" (by simp [ascii]), .array (fbTx.inputs.map (inputPiece fbTx.isCoinbase verbose))⟩

def outputsMember (fbTx : TxView) (verbose : Int32) : Member :=
  ⟨key "outputs" (by simp [ascii]), .array (fbTx.outputs.map (outputPiece verbose))⟩

def txMembers (txHash : PlainText) (fbTx : TxView) (verbose : Int32) : List Member :=
  countMembers txHash fbTx ++ (if verbose ≥ 2 then sizeMembers fbTx else []) ++
    [inputsMember fbTx verbose, outputsMember fbTx verbose]

def headMembers : Option AddressTxHead → List Member
  | none => []
  | some addressTx =>
      [⟨key "block_time" (by simp [ascii]), .int addressTx.txBlockTime.toNat⟩,
        ⟨key "balance_diff" (by simp [ascii]), .int addressTx.balanceDiff.toInt⟩]

def txPiece (head : Option AddressTxHead) (txHash : PlainText) (fbTx : TxView)
    (verbose : Int32) : Piece :=
  .object (headMembers head ++ txMembers txHash fbTx verbose)

/-! ## The text is that of the piece -/

section Text

theorem removeLastComma_of_ne {buf : Bytes} (h : buf.getLast? ≠ some 44) :
    removeLastComma buf = buf :=
  if_neg h

theorem removeLastComma_terminated {buf : Bytes} (h : buf.getLast? ≠ some 44)
    (texts : List Bytes) :
    removeLastComma (buf ++ terminated texts) = buf ++ commaJoined texts := by
  rcases List.eq_nil_or_concat' texts with rfl | ⟨front, t, rfl⟩
  · simpa [terminated, commaJoined] using removeLastComma_of_ne h
  · have hterminated : buf ++ terminated (front ++ [t]) =
        (buf ++ (terminated front ++ t)) ++ [44] := by
      simp [terminated]
    rw [commaJoined_concat, hterminated, removeLastComma, if_pos List.getLast?_concat,
      List.dropLast_concat]

theorem foldl_append_text {α : Type} (f : α → Bytes) (xs : List α) (buf : Bytes) :
    xs.foldl (fun buf x => buf ++ f x) buf = buf ++ xs.flatMap f := by
  induction xs generalizing buf with
  | nil => simp
  | cons x xs ih => simp [ih]

theorem formatStr_eq (name : String) (s : Bytes) :
    formatStr name s = quoted (ascii name) ++ 58 :: (quoted s ++ [44]) := by
  simp [formatStr, quoted, ascii]

theorem formatNum_eq (name : String) (text : Bytes) :
    formatNum name text = quoted (ascii name) ++ 58 :: (text ++ [44]) := by
  simp [formatNum, quoted, ascii]

theorem appendAddresses_eq (buf : Bytes) (addresses : List PlainText) :
    appendAddresses (buf ++ [91]) addresses ++ [93] =
      buf ++ (Piece.unseparated addresses).text := by
  have hloop : addresses.foldl
      (fun (buf : Bytes) (addr : PlainText) => buf ++ (ascii "\"" ++ addr.bytes ++ ascii "\""))
      (buf ++ [91]) = (buf ++ [91]) ++ addresses.flatMap fun addr => quoted addr.bytes :=
    foldl_append_text (fun addr : PlainText => quoted addr.bytes) addresses (buf ++ [91])
  have hlast : ((buf ++ [91]) ++ addresses.flatMap
      fun addr : PlainText => quoted addr.bytes).getLast? ≠ some 44 := by
    rcases List.eq_nil_or_concat' addresses with rfl | ⟨front, addr, rfl⟩
    · simp
    · rw [List.flatMap_append, List.flatMap_singleton, quoted, ← List.append_assoc,
        ← List.append_assoc, List.getLast?_concat]
      decide
  rw [appendAddresses, hloop, removeLastComma_of_ne hlast]
  simp [Piece.unseparated]

theorem array_eq {α : Type} (piece : α → Piece) (append : Bytes → α → Bytes)
    (happend : ∀ buf x, append buf x = buf ++ ((piece x).text ++ [44])) (buf : Bytes)
    (xs : List α) :
    removeLastComma (xs.foldl append (buf ++ [91])) ++ [93] =
      buf ++ (Piece.array (xs.map piece)).text := by
  have hfun : append = fun buf x => buf ++ ((piece x).text ++ [44]) := by
    funext buf x
    exact happend buf x
  have hloop : xs.foldl append (buf ++ [91]) =
      (buf ++ [91]) ++ terminated ((xs.map piece).map Piece.text) := by
    rw [hfun, foldl_append_text]
    simp [terminated, List.flatMap_map]
  rw [hloop, removeLastComma_terminated (by simp)]
  simp [Piece.array, arrayText]

theorem inputScripts_text (buf : Bytes) (input : TxInput) :
    buf ++ formatNum "sequence" (decimalText input.sequence.toNat) ++
        formatStr "script_asm" input.scriptAsm.bytes ++
        formatStr "script_hex" input.scriptHex.bytes =
      buf ++ terminated ((inputScripts input).map Member.text) := by
  simp [terminated, inputScripts, formatNum_eq, formatStr_eq, Member.text, key, Piece.int,
    Piece.quoted, intText]

theorem prevMembers_text (buf : Bytes) (input : TxInput) :
    appendAddresses (buf ++ formatStr "prev_hash" input.prevTxHash.bytes ++
        formatNum "prev_position" (intText input.prevPosition.toInt) ++
        formatNum "prev_value" (intText input.prevValue.toInt) ++ ascii "\"prev_addr\":[")
          input.prevAddresses ++ ascii "]" =
      buf ++ terminated ((prevMembers input).map Member.text) ++ (prevAddrMember input).text := by
  have hopen : ascii "\"prev_addr\":[" = quoted (ascii "prev_addr") ++ [58] ++ [91] := by
    simp [ascii, quoted]
  have hclose : ascii "]" = [93] := by decide
  rw [hopen, hclose, ← List.append_assoc, appendAddresses_eq]
  simp [terminated, prevMembers, prevAddrMember, formatNum_eq, formatStr_eq, Member.text, key,
    Piece.int, Piece.quoted]

theorem appendInput_eq (isCoinbase : Bool) (verbose : Int32) (buf : Bytes) (input : TxInput) :
    appendInput isCoinbase verbose buf input =
      buf ++ ((inputPiece isCoinbase verbose input).text ++ [44]) := by
  have hscripts : (if verbose ≥ 3 then
        buf ++ [123] ++ formatNum "sequence" (decimalText input.sequence.toNat) ++
          formatStr "script_asm" input.scriptAsm.bytes ++
          formatStr "script_hex" input.scriptHex.bytes
      else buf ++ [123]) =
        buf ++ [123] ++ terminated
          ((if verbose ≥ 3 then inputScripts input else []).map Member.text) := by
    split
    · exact inputScripts_text _ _
    · simp [terminated]
  unfold appendInput
  dsimp only
  rw [hscripts]
  cases isCoinbase with
  | true =>
      rw [if_pos rfl, removeLastComma_terminated (by simp)]
      simp [inputPiece, inputMembers, Piece.object, objectText]
  | false =>
      have hlast : ∀ front : Bytes,
          (front ++ (prevAddrMember input).text).getLast? ≠ some 44 := by
        intro front
        have htext : (prevAddrMember input).text =
            quoted (ascii "prev_addr") ++ 58 :: ([91] ++ input.prevAddresses.flatMap
              fun addr : PlainText => quoted addr.bytes) ++ [93] := by
          simp [Member.text, prevAddrMember, Piece.unseparated, key]
        rw [htext, ← List.append_assoc, List.getLast?_concat]
        decide
      rw [if_neg Bool.false_ne_true, prevMembers_text, removeLastComma_of_ne (hlast _)]
      simp only [inputPiece, inputMembers, Piece.object, objectText, if_neg Bool.false_ne_true,
        ← List.append_assoc, List.map_append, List.map_singleton, commaJoined_concat]
      simp [terminated]

theorem appendOutput_eq (verbose : Int32) (buf : Bytes) (output : TxOutput) :
    appendOutput verbose buf output = buf ++ ((outputPiece verbose output).text ++ [44]) := by
  have hopen : ascii "\"address\":[" = quoted (ascii "address") ++ [58] ++ [91] := by
    simp [ascii, quoted]
  have hclose : ascii "]," = [93] ++ [44] := by simp [ascii]
  have hscripts : ∀ buf : Bytes, (if verbose ≥ 3 then
        buf ++ formatStr "script_asm" output.scriptAsm.bytes ++
          formatStr "script_hex" output.scriptHex.bytes ++
          formatStr "script_type" output.scriptType.bytes
      else buf) =
        buf ++ terminated ((if verbose ≥ 3 then outputScripts output else []).map Member.text) := by
    intro buf
    split
    · simp [terminated, outputScripts, formatStr_eq, Member.text, key, Piece.quoted]
    · simp [terminated]
  have hfront : buf ++ [123] ++ (quoted (ascii "address") ++ [58]) ++
        (Piece.unseparated output.addresses).text ++ [44] ++
        formatNum "value" (intText output.value.toInt) =
      buf ++ [123] ++ terminated ([(⟨key "address" (by simp [ascii]),
        .unseparated output.addresses⟩ : Member), ⟨key "value" (by simp [ascii]),
        .int output.value.toInt⟩].map Member.text) := by
    simp [terminated, formatNum_eq, Member.text, key, Piece.int]
  unfold appendOutput
  dsimp only
  rw [hopen, hclose, ← List.append_assoc (_ ++ _) _ [91], ← List.append_assoc _ [93] [44],
    appendAddresses_eq, hscripts, hfront, List.append_assoc (buf ++ [123]), ← terminated_append,
    ← List.map_append, removeLastComma_terminated (by simp)]
  simp [outputPiece, outputMembers, Piece.object, objectText]

theorem countMembers_text (buf : Bytes) (txHash : PlainText) (fbTx : TxView) :
    buf ++ formatStr "hash" txHash.bytes ++
        formatNum "block_height" (intText fbTx.blockHeight.toInt) ++
        formatNum "is_coinbase" (ascii (if fbTx.isCoinbase then "true" else "false")) ++
        formatNum "inputs_count" (intText fbTx.inputsCount.toInt) ++
        formatNum "inputs_value" (intText fbTx.inputsValue.toInt) ++
        formatNum "outputs_count" (intText fbTx.outputsCount.toInt) ++
        formatNum "outputs_value" (intText fbTx.outputsValue.toInt) =
      buf ++ terminated ((countMembers txHash fbTx).map Member.text) := by
  simp [terminated, countMembers, formatNum_eq, formatStr_eq, Member.text, key, Piece.int,
    Piece.quoted, Piece.bool]

theorem sizeMembers_text (buf : Bytes) (fbTx : TxView) :
    buf ++ formatNum "size" (intText fbTx.size.toInt) ++
        formatNum "fee" (intText fbTx.fee.toInt) ++
        formatNum "version" (intText fbTx.version.toInt) ++
        formatNum "lock_time" (decimalText fbTx.lockTime.toNat) =
      buf ++ terminated ((sizeMembers fbTx).map Member.text) := by
  simp [terminated, sizeMembers, formatNum_eq, Member.text, key, Piece.int, intText]

theorem getTx_eq (txHash : PlainText) (fbTx : TxView) (buf : Bytes) (verbose : Int32) :
    getTx txHash fbTx buf verbose =
      buf ++ commaJoined ((txMembers txHash fbTx verbose).map Member.text) := by
  have hsize : ∀ buf : Bytes, (if verbose ≥ 2 then
        buf ++ formatNum "size" (intText fbTx.size.toInt) ++
          formatNum "fee" (intText fbTx.fee.toInt) ++
          formatNum "version" (intText fbTx.version.toInt) ++
          formatNum "lock_time" (decimalText fbTx.lockTime.toNat)
      else buf) =
        buf ++ terminated ((if verbose ≥ 2 then sizeMembers fbTx else []).map Member.text) := by
    intro buf
    split
    · exact sizeMembers_text buf fbTx
    · simp [terminated]
  have hinputs : ascii "\"inputs\":[" = quoted (ascii "inputs") ++ [58] ++ [91] := by
    simp [ascii, quoted]
  have houtputs : ascii "\"outputs\":[" = quoted (ascii "outputs") ++ [58] ++ [91] := by
    simp [ascii, quoted]
  have hclose : ascii "]," = [93] ++ [44] := by simp [ascii]
  have hend : ascii "]" = [93] := by simp [ascii]
  unfold getTx
  dsimp only
  rw [countMembers_text, hsize, hinputs, houtputs, hclose, hend, ← List.append_assoc _ _ [91],
    ← List.append_assoc _ _ [91], ← List.append_assoc _ [93] [44],
    array_eq _ _ (appendInput_eq fbTx.isCoinbase verbose),
    array_eq _ _ (appendOutput_eq verbose), txMembers, List.map_append,
    commaJoined_append _ (by simp), List.map_append, terminated_append]
  simp [inputsMember, outputsMember, Member.text, key, commaJoined]

theorem headMembers_text (head : Option AddressTxHead) :
    (match head with
    | none => [123]
    | some addressTx => [123] ++
        formatNum "block_time" (decimalText addressTx.txBlockTime.toNat) ++
        formatNum "balance_diff" (intText addressTx.balanceDiff.toInt)) =
      [123] ++ terminated ((headMembers head).map Member.text) := by
  cases head with
  | none => simp [terminated, headMembers]
  | some addressTx =>
      simp [terminated, headMembers, formatNum_eq, Member.text, key, Piece.int, intText]

theorem enclosed_eq (head : Option AddressTxHead) (txHash : PlainText) (fbTx : TxView)
    (verbose : Int32) :
    enclosed head txHash fbTx verbose = (txPiece head txHash fbTx verbose).text := by
  have hne : (txMembers txHash fbTx verbose).map Member.text ≠ [] := by simp [txMembers]
  unfold enclosed
  dsimp only
  rw [headMembers_text, getTx_eq, txPiece, Piece.object]
  dsimp only
  rw [objectText, List.map_append, commaJoined_append _ hne]
  simp

end Text

/-! ## What is read back -/

structure InputShown where
  script : Option (Int × Bytes × Bytes)
  prev : Option (Bytes × Int × Int × List Bytes)

structure OutputShown where
  addresses : Option (List Bytes)
  value : Option Int
  script : Option (Bytes × Bytes × Bytes)

structure TxShown where
  inputs : List InputShown
  outputs : List OutputShown

section Reading

def readStr (name : String) (v : Json) : Option Bytes := (v.field? (ascii name)).bind Json.str?

def readNum (name : String) (v : Json) : Option Int :=
  (v.field? (ascii name)).bind fun v => v.num?.map Logs.signedValue

def readItems (name : String) (v : Json) : Option (List Json) :=
  (v.field? (ascii name)).bind Json.items?

def readStrs (name : String) (v : Json) : Option (List Bytes) :=
  (readItems name v).bind fun items => items.mapM Json.str?

def readInput (v : Json) : InputShown where
  script := do
    return (← readNum "sequence" v, ← readStr "script_asm" v, ← readStr "script_hex" v)
  prev := do
    return (← readStr "prev_hash" v, ← readNum "prev_position" v, ← readNum "prev_value" v,
      ← readStrs "prev_addr" v)

def readOutput (v : Json) : OutputShown where
  addresses := readStrs "address" v
  value := readNum "value" v
  script := do
    return (← readStr "script_asm" v, ← readStr "script_hex" v, ← readStr "script_type" v)

def readTx (v : Json) : Option TxShown := do
  let inputs ← readItems "inputs" v
  let outputs ← readItems "outputs" v
  return ⟨inputs.map readInput, outputs.map readOutput⟩

end Reading

/-- What a level of verbosity shows of an input; a coinbase has no previous output. -/
def shownInput (isCoinbase : Bool) (verbose : Int32) (input : TxInput) : InputShown where
  script :=
    if verbose ≥ 3 then
      some (input.sequence.toNat, input.scriptAsm.bytes, input.scriptHex.bytes)
    else none
  prev :=
    if isCoinbase then none
    else some (input.prevTxHash.bytes, input.prevPosition.toInt, input.prevValue.toInt,
      input.prevAddresses.map PlainText.bytes)

def shownOutput (verbose : Int32) (output : TxOutput) : OutputShown where
  addresses := some (output.addresses.map PlainText.bytes)
  value := some output.value.toInt
  script :=
    if verbose ≥ 3 then
      some (output.scriptAsm.bytes, output.scriptHex.bytes, output.scriptType.bytes)
    else none

def shownTx (fbTx : TxView) (verbose : Int32) : TxShown where
  inputs := fbTx.inputs.map (shownInput fbTx.isCoinbase verbose)
  outputs := fbTx.outputs.map (shownOutput verbose)

/-- The text is JSON and gives back what is stored. -/
def Faithful (head : Option AddressTxHead) (txHash : PlainText) (fbTx : TxView)
    (verbose : Int32) : Prop :=
  ∃ v, parse (enclosed head txHash fbTx verbose) = some v ∧
    readTx v = some (shownTx fbTx verbose)

/-- No two addresses stand side by side. -/
def SingleAddresses (fbTx : TxView) : Prop :=
  (fbTx.isCoinbase = false → ∀ input ∈ fbTx.inputs, input.prevAddresses.length ≤ 1) ∧
    ∀ output ∈ fbTx.outputs, output.addresses.length ≤ 1

theorem mapM_str (texts : List PlainText) :
    texts.mapM (Json.str? ∘ fun s : PlainText => Json.str s.bytes) =
      some (texts.map PlainText.bytes) := by
  induction texts with
  | nil => rfl
  | cons s texts ih => simp [ih, Json.str?]

theorem readInput_inputPiece (isCoinbase : Bool) (verbose : Int32) (input : TxInput) :
    readInput (inputPiece isCoinbase verbose input).val = shownInput isCoinbase verbose input := by
  by_cases hverbose : verbose ≥ 3 <;> cases isCoinbase <;>
    simp [readInput, shownInput, readNum, readStr, readStrs, readItems, Json.field?, inputPiece,
      Piece.object, inputMembers, inputScripts, prevMembers, prevAddrMember, Member.val, key,
      List.lookup, ascii, hverbose, Piece.int, Piece.quoted, Piece.unseparated, Json.str?,
      Json.num?, Json.items?, mapM_str, Logs.signedValue_intText]

theorem readOutput_outputPiece (verbose : Int32) (output : TxOutput) :
    readOutput (outputPiece verbose output).val = shownOutput verbose output := by
  by_cases hverbose : verbose ≥ 3 <;>
    simp [readOutput, shownOutput, readNum, readStr, readStrs, readItems, Json.field?, outputPiece,
      Piece.object, outputMembers, outputScripts, Member.val, key, List.lookup, ascii, hverbose,
      Piece.int, Piece.quoted, Piece.unseparated, Json.str?, Json.num?, Json.items?, mapM_str,
      Logs.signedValue_intText]

theorem readTx_txPiece (head : Option AddressTxHead) (txHash : PlainText) (fbTx : TxView)
    (verbose : Int32) :
    readTx (txPiece head txHash fbTx verbose).val = some (shownTx fbTx verbose) := by
  have hinputs : readItems "inputs" (txPiece head txHash fbTx verbose).val =
      some (fbTx.inputs.map fun input => (inputPiece fbTx.isCoinbase verbose input).val) := by
    cases head <;> by_cases hverbose : verbose ≥ 2 <;>
      simp [readItems, Json.field?, txPiece, Piece.object, txMembers, countMembers, sizeMembers,
        inputsMember, headMembers, Member.val, key, List.lookup, ascii, hverbose, Piece.array,
        Json.items?]
  have houtputs : readItems "outputs" (txPiece head txHash fbTx verbose).val =
      some (fbTx.outputs.map fun output => (outputPiece verbose output).val) := by
    cases head <;> by_cases hverbose : verbose ≥ 2 <;>
      simp [readItems, Json.field?, txPiece, Piece.object, txMembers, countMembers, sizeMembers,
        inputsMember, outputsMember, headMembers, Member.val, key, List.lookup, ascii, hverbose,
        Piece.array, Json.items?]
  have hread : readTx (txPiece head txHash fbTx verbose).val =
      some ⟨(fbTx.inputs.map fun input => (inputPiece fbTx.isCoinbase verbose input).val).map
        readInput, (fbTx.outputs.map fun output => (outputPiece verbose output).val).map
        readOutput⟩ := by
    rw [readTx, hinputs, houtputs]
    rfl
  rw [hread, List.map_map, List.map_map, shownTx]
  congr 2
  · exact List.map_congr_left fun input _ => readInput_inputPiece fbTx.isCoinbase verbose input
  · exact List.map_congr_left fun output _ => readOutput_outputPiece verbose output

theorem good_inputPiece (isCoinbase : Bool) (verbose : Int32) (input : TxInput) :
    (inputPiece isCoinbase verbose input).good ↔
      (isCoinbase = false → input.prevAddresses.length ≤ 1) := by
  have hscripts : ∀ m ∈ if verbose ≥ 3 then inputScripts input else [], m.piece.good := by
    split <;> simp [inputScripts]
  rw [inputPiece, Piece.good_object, inputMembers, List.forall_mem_append,
    and_iff_right hscripts]
  cases isCoinbase <;> simp [prevMembers, prevAddrMember]

theorem good_outputPiece (verbose : Int32) (output : TxOutput) :
    (outputPiece verbose output).good ↔ output.addresses.length ≤ 1 := by
  have hscripts : ∀ m ∈ if verbose ≥ 3 then outputScripts output else [], m.piece.good := by
    split <;> simp [outputScripts]
  rw [outputPiece, Piece.good_object, outputMembers, List.forall_mem_append,
    and_iff_left hscripts]
  simp

theorem good_txPiece (head : Option AddressTxHead) (txHash : PlainText) (fbTx : TxView)
    (verbose : Int32) :
    (txPiece head txHash fbTx verbose).good ↔ SingleAddresses fbTx := by
  have hhead : ∀ m ∈ headMembers head, m.piece.good := by
    cases head <;> simp [headMembers]
  have hcounts : ∀ m ∈ countMembers txHash fbTx, m.piece.good := by
    simp [countMembers]
  have hsizes : ∀ m ∈ if verbose ≥ 2 then sizeMembers fbTx else [], m.piece.good := by
    split <;> simp [sizeMembers]
  rw [txPiece, Piece.good_object, List.forall_mem_append, and_iff_right hhead, txMembers,
    List.forall_mem_append, List.forall_mem_append, and_iff_right ⟨hcounts, hsizes⟩,
    SingleAddresses]
  have hinputs : (inputsMember fbTx verbose).piece.good ↔
      (fbTx.isCoinbase = false → ∀ input ∈ fbTx.inputs, input.prevAddresses.length ≤ 1) := by
    simp only [inputsMember, Piece.good_array, List.forall_mem_map, good_inputPiece]
    constructor
    · exact fun h hcoinbase input hinput => h input hinput hcoinbase
    · exact fun h input hinput hcoinbase => h hcoinbase input hinput
  have houtputs : (outputsMember fbTx verbose).piece.good ↔
      ∀ output ∈ fbTx.outputs, output.addresses.length ≤ 1 := by
    simp only [outputsMember, Piece.good_array, List.forall_mem_map, good_outputPiece]
  rw [List.forall_mem_cons, List.forall_mem_singleton, hinputs, houtputs]

/-- A tx is printed faithfully exactly if no address follows another in one array. -/
theorem getTx_faithful_iff (head : Option AddressTxHead) (txHash : PlainText) (fbTx : TxView)
    (verbose : Int32) :
    Faithful head txHash fbTx verbose ↔ SingleAddresses fbTx := by
  obtain ⟨hgood, hbad⟩ := parse_of_spells (txPiece head txHash fbTx verbose).spells
  rw [good_txPiece] at hgood hbad
  rw [Faithful, enclosed_eq]
  constructor
  · rintro ⟨v, hparse, -⟩
    by_contra hnot
    rw [hbad hnot] at hparse
    cases hparse
  · intro hsingle
    exact ⟨_, hgood hsingle, readTx_txPiece head txHash fbTx verbose⟩

def noText : PlainText := ⟨[], by simp⟩

def exampleHolder : PlainText := ⟨Bitcoin.exampleAddress, by simp [Bitcoin.exampleAddress]⟩

def exampleTx : TxView where
  blockHeight := 300000
  isCoinbase := true
  version := 1
  lockTime := 0
  size := 100
  fee := 0
  inputs := [⟨4294967295, noText, noText, noText, -1, 0, []⟩]
  inputsCount := 1
  inputsValue := 0
  outputs := [⟨2500000000, [exampleHolder, exampleHolder], noText, noText, noText⟩]
  outputsCount := 1
  outputsValue := 2500000000

def exampleTxHash : PlainText := ⟨List.replicate 64 97, by simp⟩

theorem addresses_not_separated : ¬∀ (head : Option AddressTxHead) (txHash : PlainText)
    (fbTx : TxView) (verbose : Int32), Faithful head txHash fbTx verbose := by
  intro h
  obtain ⟨v, hparse, -⟩ := h none exampleTxHash exampleTx 1
  have hnone : (parse (enclosed none exampleTxHash exampleTx 1)).isNone := by
    decide +kernel
  rw [hparse] at hnone
  cases hnone

end ExplorerKV.API

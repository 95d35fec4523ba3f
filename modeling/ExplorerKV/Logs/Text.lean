import ExplorerKV.Bitcoin.Core
import ExplorerKV.Foundation.LineLog

/-!
# The text of log lines

What the programs use to take a line apart: `split` of `Util.cc`, the number
conversions of the C library, and the constructor of `uint256` from a string.
-/

namespace ExplorerKV.Logs

open Bitcoin Foundation

def comma : UInt8 := 44

/-- `split` with a limit; `getline` makes no piece of an empty rest. -/
def split (s : Bytes) (delim : UInt8) (limit : Nat) : List Bytes :=
  let pieces := s.splitOn delim
  (if pieces.getLast? = some [] then pieces.dropLast else pieces).take limit

/-- `split` without a limit -/
def splitAll (s : Bytes) (delim : UInt8) : List Bytes :=
  let pieces := s.splitOn delim
  if pieces.getLast? = some [] then pieces.dropLast else pieces

theorem split_eq_take (s : Bytes) (delim : UInt8) (limit : Nat) :
    split s delim limit = (splitAll s delim).take limit :=
  rfl

theorem splitAll_intercalate {pieces : List Bytes} {delim : UInt8} (hne : pieces ≠ [])
    (hplain : ∀ piece ∈ pieces, delim ∉ piece) (hlast : pieces.getLast? ≠ some []) :
    splitAll ([delim].intercalate pieces) delim = pieces := by
  unfold splitAll
  rw [List.splitOn_intercalate delim hplain hne]
  exact if_neg hlast

theorem splitAll_nil (delim : UInt8) : splitAll [] delim = [] := by
  rw [splitAll, List.splitOn_nil]
  rfl

theorem splitAll_single {piece : Bytes} {delim : UInt8} (hplain : delim ∉ piece)
    (hne : piece ≠ []) : splitAll piece delim = [piece] := by
  rw [splitAll, List.splitOn_eq_singleton hplain]
  exact if_neg (by simpa using hne)

theorem splitAll_cons {piece : Bytes} {delim : UInt8} (hplain : delim ∉ piece) (rest : Bytes) :
    splitAll (piece ++ delim :: rest) delim = piece :: splitAll rest delim := by
  have hne := List.splitOn_ne_nil delim rest
  rw [splitAll, splitAll, List.splitOn_append_cons_self_of_not_mem hplain,
    List.getLast?_cons_of_ne_nil hne, List.dropLast_cons_of_ne_nil hne]
  split_ifs <;> rfl

def isSpace (b : UInt8) : Bool := b = 32 || (9 ≤ b && b ≤ 13)

def isDigit (b : UInt8) : Bool := 48 ≤ b && b ≤ 57

def decimalValue (s : Bytes) : Nat :=
  (s.takeWhile isDigit).foldl (fun value b => value * 10 + (b.toNat - 48)) 0

def signedValue (s : Bytes) : Int :=
  match s.dropWhile isSpace with
  | 45 :: s => -(decimalValue s : Int)
  | 43 :: s => decimalValue s
  | s => decimalValue s

/-- `strtol` keeps inside a `long`. -/
def strtol (s : Bytes) : Int := max (-2 ^ 63) (min (2 ^ 63 - 1) (signedValue s))

/-- `atoi` drops the high bits of a `long`. -/
def atoi (s : Bytes) : Int32 := .ofInt (strtol s)

def atoll (s : Bytes) : Int64 := .ofInt (strtol s)

def hexDigit (b : UInt8) : Option Nat :=
  if isDigit b then some (b.toNat - 48)
  else if 97 ≤ b && b ≤ 102 then some (b.toNat - 87)
  else if 65 ≤ b && b ≤ 70 then some (b.toNat - 55)
  else none

/-- `uint256(str)`: the hex digits after blanks and a `0x`, modulo 2^256 -/
def uint256OfHex (s : Bytes) : Uint256 :=
  let s := s.dropWhile isSpace
  let s := if s.take 2 = [48, 120] ∨ s.take 2 = [48, 88] then s.drop 2 else s
  Fin.ofNat (2 ^ 256) (((s.map hexDigit).takeWhile Option.isSome).reduceOption.foldl
    (fun value digit => value * 16 + digit) 0)

end ExplorerKV.Logs

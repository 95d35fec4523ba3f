import ExplorerKV.Foundation.LineLog

/-!
# Strings of the C library

A `char *` that a function reads from is the bytes of a string and the `NUL`
behind them; a buffer that it writes from the front has a size.  An access behind
either end is an error.
-/

namespace ExplorerKV.Foundation

inductive MemFault where
  | read
  | write
  /-- a loop used up the rounds it was given -/
  | diverge
  deriving DecidableEq, Repr

/-- `char` is signed: an expression of `int` extends it by its sign. -/
def charInt (c : UInt8) : Int32 := c.toInt8.toInt32

/-- `strlen` and the bytes in front of the `NUL`. -/
abbrev CharPtr := { str : Bytes // (0 : UInt8) ∉ str }

/-- `c_str`: what a function sees of a string that is handed over as a `char *`. -/
def cStr (bytes : Bytes) : CharPtr :=
  ⟨bytes.takeWhile (· ≠ 0), fun h => by simpa using List.mem_takeWhile_imp h⟩

theorem cStr_of_not_mem {bytes : Bytes} (h : (0 : UInt8) ∉ bytes) : cStr bytes = ⟨bytes, h⟩ := by
  apply Subtype.ext
  rw [cStr, List.takeWhile_eq_self_iff]
  exact fun c hc => by simpa using ne_of_mem_of_not_mem hc h

theorem cStr_terminated {bytes : Bytes} (h : (0 : UInt8) ∉ bytes) :
    (cStr (bytes ++ [0])).val = bytes := by
  have hne : ∀ c ∈ bytes, decide (c ≠ 0) = true :=
    fun c hc => by simpa using ne_of_mem_of_not_mem hc h
  change (bytes ++ [0]).takeWhile (fun c => decide (c ≠ 0)) = bytes
  rw [List.takeWhile_append_of_pos hne]
  simp

/-- `str[i]` -/
def charAt (str : CharPtr) (i : Nat) : Except MemFault UInt8 :=
  match (str.val ++ [0])[i]? with
  | some c => .ok c
  | none => .error .read

/-- `*pbuf++ = c` -/
def put (size : Nat) (buf : Bytes) (c : UInt8) : Except MemFault Bytes :=
  if buf.length < size then .ok (buf ++ [c]) else .error .write

theorem put_ok {size : Nat} {buf : Bytes} (h : buf.length < size) (c : UInt8) :
    put size buf c = .ok (buf ++ [c]) :=
  if_pos h

theorem charAt_cons {str : CharPtr} {i : Nat} {c : UInt8} {rest : Bytes}
    (hrest : str.val.drop i = c :: rest) : charAt str i = .ok c := by
  have hc : str.val[i]? = some c := by
    rw [← Nat.add_zero i, ← List.getElem?_drop, hrest]
    rfl
  rw [charAt, List.getElem?_append_left (List.getElem?_eq_some_iff.mp hc).1, hc]

theorem charAt_end {str : CharPtr} {i : Nat} (hrest : str.val.drop i = [])
    (hi : i ≤ str.val.length) : charAt str i = .ok 0 := by
  have hend : i = str.val.length := by
    have := List.drop_eq_nil_iff.mp hrest
    omega
  rw [charAt, hend, List.getElem?_concat_length]

theorem ne_zero_of_drop {str : CharPtr} {i : Nat} {c : UInt8} {rest : Bytes}
    (h : str.val.drop i = c :: rest) : c ≠ 0 := by
  rintro rfl
  exact str.property (List.mem_of_mem_drop (h ▸ List.mem_cons_self))

theorem drop_succ_of_drop {str : Bytes} {i : Nat} {c : UInt8} {rest : Bytes}
    (h : str.drop i = c :: rest) : str.drop (i + 1) = rest := by
  rw [← List.drop_drop, h]
  rfl

theorem lt_of_drop_cons {str : Bytes} {i : Nat} {c : UInt8} {rest : Bytes}
    (h : str.drop i = c :: rest) : i < str.length := by
  by_contra hle
  rw [List.drop_eq_nil_of_le (by omega)] at h
  cases h

theorem mapM_ok {α β ε : Type} {f : α → Except ε β} {g : α → β} {l : List α}
    (h : ∀ a ∈ l, f a = .ok (g a)) : l.mapM f = .ok (l.map g) := by
  induction l with
  | nil => rfl
  | cons a l ih =>
      rw [List.mapM_cons, h a List.mem_cons_self, ih fun a ha => h a (List.mem_cons_of_mem _ ha)]
      rfl

/-! ## Arrays of chars -/

abbrev CharArray (size : Nat) := { bytes : Bytes // bytes.length = size }

def zeros (size : Nat) : CharArray size := ⟨List.replicate size 0, List.length_replicate⟩

/-- `strncpy`: behind the end of the string it writes zeros. -/
def strncpy {size : Nat} (dest : CharArray size) (src : CharPtr) (n : Nat) :
    Except MemFault (CharArray size) :=
  if h : n ≤ size then
    .ok ⟨(src.val ++ List.replicate n 0).take n ++ dest.val.drop n, by
      simp only [List.length_append, List.length_take, List.length_replicate, List.length_drop,
        dest.property]
      omega⟩
  else .error .write

def padded (size : Nat) (src : CharPtr) : CharArray size :=
  ⟨(src.val ++ List.replicate size 0).take size, by simp⟩

theorem padded_val {size : Nat} {src : CharPtr} (h : src.val.length ≤ size) :
    (padded size src).val = src.val ++ List.replicate (size - src.val.length) 0 := by
  change (src.val ++ List.replicate size 0).take size = _
  rw [List.take_append, List.take_of_length_le h, List.take_replicate, Nat.min_eq_left (by omega)]

theorem strncpy_zeros {size n : Nat} {src : CharPtr} (hlength : src.val.length ≤ n)
    (hn : n ≤ size) : strncpy (zeros size) src n = .ok (padded size src) := by
  rw [strncpy, dif_pos hn]
  congr 1
  apply Subtype.ext
  rw [padded_val (hlength.trans hn)]
  simp only [zeros, List.take_append, List.take_of_length_le hlength, List.take_replicate,
    List.drop_replicate, List.append_assoc, List.replicate_append_replicate]
  congr 2
  omega

theorem takeWhile_append_zeros {bytes : Bytes} (h : (0 : UInt8) ∉ bytes) (n : Nat) :
    (bytes ++ List.replicate n 0).takeWhile (fun c => decide (c ≠ 0)) = bytes := by
  rw [List.takeWhile_append_of_pos fun c hc => by simpa using ne_of_mem_of_not_mem hc h]
  simp

theorem padded_take {size n : Nat} {src : CharPtr} (hlength : src.val.length ≤ n) (hn : n ≤ size) :
    (padded size src).val.take n = (padded n src).val := by
  rw [padded_val (hlength.trans hn), padded_val hlength, List.take_append,
    List.take_of_length_le hlength, List.take_replicate, Nat.min_eq_left (by omega)]

theorem cStr_padded {size : Nat} {src : CharPtr} (h : src.val.length ≤ size) :
    cStr (padded size src).val = src := by
  apply Subtype.ext
  rw [padded_val h]
  exact takeWhile_append_zeros src.property _

end ExplorerKV.Foundation

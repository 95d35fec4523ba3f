import ExplorerKV.Foundation.LineLog

/-!
# Codecs

A reader takes a value from the front of a byte string and leaves the rest.  It
is the codec of a writer when it accepts just what the writer puts there, for
the values that fit: what was written is read back whatever follows, and what is
accepted was written.
-/

namespace ExplorerKV.Foundation

abbrev ReadM := StateT Bytes Option

variable {α β γ : Type} {fits : α → Prop} {write : α → Bytes} {read : ReadM α}

def Codec (fits : α → Prop) (write : α → Bytes) (read : ReadM α) : Prop :=
  ∀ bytes a rest, read.run bytes = some (a, rest) ↔ fits a ∧ bytes = write a ++ rest

namespace Codec

theorem read_write (h : Codec fits write read) {a : α} (ha : fits a) (rest : Bytes) :
    read.run (write a ++ rest) = some (a, rest) :=
  (h _ a rest).mpr ⟨ha, rfl⟩

/-! ## Sequences -/

/-- A reader that goes on with `k` has read a value first. -/
theorem bind_iff (h : Codec fits write read) {k : α → ReadM γ} {bytes : Bytes} {c : γ}
    {rest : Bytes} : (read >>= k).run bytes = some (c, rest) ↔
      ∃ a tail, fits a ∧ bytes = write a ++ tail ∧ (k a).run tail = some (c, rest) := by
  rw [StateT.run_bind, Option.bind_eq_bind, Option.bind_eq_some_iff]
  constructor
  · rintro ⟨⟨a, tail⟩, hread, hk⟩
    obtain ⟨ha, hbytes⟩ := (h _ _ _).mp hread
    exact ⟨a, tail, ha, hbytes, hk⟩
  · rintro ⟨a, tail, ha, hbytes, hk⟩
    exact ⟨(a, tail), (h _ _ _).mpr ⟨ha, hbytes⟩, hk⟩

theorem pure_iff {c d : γ} {bytes rest : Bytes} :
    (pure c : ReadM γ).run bytes = some (d, rest) ↔ c = d ∧ bytes = rest := by
  rw [StateT.run_pure, Option.pure_def, Option.some.injEq, Prod.mk.injEq]

theorem map (h : Codec fits write read) {f : α → β} {g : β → α} {fits' : β → Prop}
    (hto : ∀ a, fits a → fits' (f a) ∧ g (f a) = a)
    (hback : ∀ b, fits' b → fits (g b) ∧ f (g b) = b) :
    Codec fits' (fun b => write (g b)) (do let a ← read; return f a) := by
  intro bytes b rest
  rw [h.bind_iff]
  constructor
  · rintro ⟨a, tail, ha, rfl, hk⟩
    obtain ⟨rfl, rfl⟩ := pure_iff.mp hk
    exact ⟨(hto a ha).1, congrArg (write · ++ tail) (hto a ha).2.symm⟩
  · rintro ⟨hb, rfl⟩
    exact ⟨g b, rest, (hback b hb).1, rfl, pure_iff.mpr ⟨(hback b hb).2, rfl⟩⟩

theorem guard (h : Codec fits write read) (p : α → Prop) [DecidablePred p] :
    Codec (fun a => fits a ∧ ¬p a) write
      (do let a ← read; if p a then failure else return a) := by
  intro bytes b rest
  rw [h.bind_iff]
  constructor
  · rintro ⟨a, tail, ha, rfl, hk⟩
    by_cases hp : p a
    · rw [if_pos hp] at hk
      cases hk
    · rw [if_neg hp] at hk
      obtain ⟨rfl, rfl⟩ := pure_iff.mp hk
      exact ⟨⟨ha, hp⟩, rfl⟩
  · rintro ⟨⟨hb, hp⟩, rfl⟩
    exact ⟨b, rest, hb, rfl, by rw [if_neg hp]; exact pure_iff.mpr ⟨rfl, rfl⟩⟩

end Codec

/-! ## A given number of bytes -/

def takeBytes (n : Nat) : ReadM Bytes := fun bytes =>
  if bytes.length < n then none else some (bytes.take n, bytes.drop n)

theorem codec_takeBytes (n : Nat) :
    Codec (fun bytes : Bytes => bytes.length = n) id (takeBytes n) := by
  intro bytes a rest
  rw [StateT.run, takeBytes]
  constructor
  · intro h
    split at h
    · cases h
    · rename_i hlength
      rw [Option.some.injEq, Prod.mk.injEq] at h
      obtain ⟨rfl, rfl⟩ := h
      exact ⟨List.length_take_of_le (by omega), (List.take_append_drop n bytes).symm⟩
  · rintro ⟨rfl, rfl⟩
    simp

/-! ## Numbers, the lowest byte first -/

def littleEndianBytes : Nat → Nat → Bytes
  | 0, _ => []
  | width + 1, n => UInt8.ofNat n :: littleEndianBytes width (n / 256)

def littleEndianValue : Bytes → Nat
  | [] => 0
  | b :: bytes => b.toNat + 256 * littleEndianValue bytes

@[simp] theorem length_littleEndianBytes (width n : Nat) :
    (littleEndianBytes width n).length = width := by
  induction width generalizing n with
  | zero => rfl
  | succ width ih => rw [littleEndianBytes, List.length_cons, ih]

theorem littleEndianValue_lt (bytes : Bytes) : littleEndianValue bytes < 256 ^ bytes.length := by
  induction bytes with
  | nil => simp [littleEndianValue]
  | cons b bytes ih =>
      have hb := b.toNat_lt
      rw [littleEndianValue, List.length_cons, pow_succ]
      omega

theorem littleEndianValue_bytes {width n : Nat} (h : n < 256 ^ width) :
    littleEndianValue (littleEndianBytes width n) = n := by
  induction width generalizing n with
  | zero => simp_all [littleEndianBytes, littleEndianValue]
  | succ width ih =>
      rw [littleEndianBytes, littleEndianValue, ih (by rw [pow_succ] at h; omega),
        UInt8.toNat_ofNat']
      omega

theorem littleEndianBytes_value (bytes : Bytes) :
    littleEndianBytes bytes.length (littleEndianValue bytes) = bytes := by
  induction bytes with
  | nil => rfl
  | cons b bytes ih =>
      have hb := b.toNat_lt
      rw [List.length_cons, littleEndianBytes, littleEndianValue]
      congr 1
      · apply UInt8.toNat_inj.mp
        rw [UInt8.toNat_ofNat']
        omega
      · rw [show (b.toNat + 256 * littleEndianValue bytes) / 256 = littleEndianValue bytes by omega,
          ih]

def readLittleEndian (width : Nat) : ReadM Nat := do
  let bytes ← takeBytes width
  return littleEndianValue bytes

theorem codec_littleEndian (width : Nat) :
    Codec (· < 256 ^ width) (littleEndianBytes width) (readLittleEndian width) :=
  (codec_takeBytes width).map
    (fun bytes h => ⟨h ▸ littleEndianValue_lt bytes, h ▸ littleEndianBytes_value bytes⟩)
    fun n h => ⟨length_littleEndianBytes width n, littleEndianValue_bytes h⟩

/-! ## Lists -/

def readTimes (read : ReadM α) : Nat → ReadM (List α)
  | 0 => return []
  | n + 1 => do
    let a ← read
    let rest ← readTimes read n
    return a :: rest

theorem Codec.times (h : Codec fits write read) (n : Nat) :
    Codec (fun xs : List α => xs.length = n ∧ ∀ a ∈ xs, fits a) (fun xs => xs.flatMap write)
      (readTimes read n) := by
  induction n with
  | zero =>
      intro bytes xs rest
      rw [readTimes, Codec.pure_iff]
      constructor
      · rintro ⟨rfl, rfl⟩
        simp
      · rintro ⟨⟨hlength, -⟩, rfl⟩
        simp [List.length_eq_zero_iff.mp hlength]
  | succ n ih =>
      intro bytes xs rest
      rw [readTimes, h.bind_iff]
      constructor
      · rintro ⟨a, tail, ha, rfl, hk⟩
        obtain ⟨as, tail', ⟨hlength, has⟩, rfl, hk'⟩ := ih.bind_iff.mp hk
        obtain ⟨rfl, rfl⟩ := Codec.pure_iff.mp hk'
        refine ⟨⟨by rw [List.length_cons, hlength], List.forall_mem_cons.mpr ⟨ha, has⟩⟩, ?_⟩
        simp only [List.flatMap_cons, List.append_assoc]
      · rintro ⟨⟨hlength, hxs⟩, rfl⟩
        obtain ⟨a, as, rfl⟩ := List.exists_cons_of_length_eq_add_one hlength
        obtain ⟨ha, has⟩ := List.forall_mem_cons.mp hxs
        simp only [List.flatMap_cons, List.append_assoc]
        exact ⟨a, _, ha, rfl, ih.bind_iff.mpr ⟨as, rest, ⟨Nat.succ.inj hlength, has⟩, rfl,
          Codec.pure_iff.mpr ⟨rfl, rfl⟩⟩⟩

theorem Codec.counted {fitsCount : Nat → Prop} {writeCount : Nat → Bytes} {readCount : ReadM Nat}
    (hcount : Codec fitsCount writeCount readCount) (h : Codec fits write read) :
    Codec (fun xs : List α => fitsCount xs.length ∧ ∀ a ∈ xs, fits a)
      (fun xs => writeCount xs.length ++ xs.flatMap write)
      (do let n ← readCount; readTimes read n) := by
  intro bytes xs rest
  rw [hcount.bind_iff]
  constructor
  · rintro ⟨n, tail, hn, rfl, hk⟩
    obtain ⟨⟨rfl, hxs⟩, rfl⟩ := (h.times n _ _ _).mp hk
    exact ⟨⟨hn, hxs⟩, (List.append_assoc ..).symm⟩
  · rintro ⟨⟨hn, hxs⟩, rfl⟩
    exact ⟨_, _, hn, List.append_assoc .., (h.times _ _ _ _).mpr ⟨⟨rfl, hxs⟩, rfl⟩⟩

/-! ## Reading in blocks -/

theorem takeBytes_add (m n : Nat) :
    takeBytes (m + n) = do
      let xs ← takeBytes m
      let ys ← takeBytes n
      return xs ++ ys := by
  funext bytes
  by_cases hm : bytes.length < m
  · simp [takeBytes, bind, StateT.bind, hm, show bytes.length < m + n by omega]
  · by_cases hn : bytes.length < m + n
    · simp [takeBytes, bind, StateT.bind, hm, hn, show bytes.length - m < n by omega]
    · simp [takeBytes, bind, StateT.bind, hm, hn, show ¬bytes.length - m < n by omega, pure,
        StateT.pure, List.take_add]

theorem readTimes_add (read : ReadM α) (m n : Nat) :
    readTimes read (m + n) = do
      let xs ← readTimes read m
      let ys ← readTimes read n
      return xs ++ ys := by
  induction m with
  | zero => simp [readTimes]
  | succ m ih => simp [Nat.succ_add, readTimes, ih]

/-- A reader of `n` items is used for one block of them after the other. -/
def readInBlocks (block : ℕ+) (read : Nat → ReadM (List α)) (n : Nat) : ReadM (List α) :=
  if n = 0 then return []
  else do
    let xs ← read (min n block)
    let ys ← readInBlocks block read (n - min n block)
    return xs ++ ys
  termination_by n
  decreasing_by have := block.pos; omega

theorem readInBlocks_eq {block : ℕ+} {read : Nat → ReadM (List α)} (hzero : read 0 = return [])
    (hadd : ∀ m n, read (m + n) = do let xs ← read m; let ys ← read n; return xs ++ ys) (n : Nat) :
    readInBlocks block read n = read n := by
  induction n using Nat.strong_induction_on with
  | _ n ih =>
      rw [readInBlocks]
      split
      · rename_i h
        rw [h, hzero]
      · have := block.pos
        rw [ih (n - min n block) (by omega), ← hadd]
        congr
        omega

end ExplorerKV.Foundation

import ExplorerKV.Foundation.LineLog

/-!
# Numbers as text

Positional digits of a fixed width, which keep the order of the numbers, and
decimal text without leading zeros, as `%d` and `%010d` print them.  Texts are
byte strings.
-/

namespace ExplorerKV.Foundation

/-! ## A fixed number of digits -/

def fixedDigits (base : Nat) : Nat → Nat → List Nat
  | 0, _ => []
  | width + 1, n => fixedDigits base width (n / base) ++ [n % base]

def digitsValue (base : Nat) (digits : List Nat) : Nat :=
  digits.foldl (fun value digit => value * base + digit) 0

section Fixed

variable {base width m n : Nat}

@[simp] theorem length_fixedDigits : (fixedDigits base width n).length = width := by
  induction width generalizing n with
  | zero => rfl
  | succ width ih => simp [fixedDigits, ih]

theorem lt_of_mem_fixedDigits (hbase : 0 < base) {d : Nat} (h : d ∈ fixedDigits base width n) :
    d < base := by
  induction width generalizing n with
  | zero => cases h
  | succ width ih =>
      rcases List.mem_append.mp h with h | h
      · exact ih h
      · rw [List.mem_singleton.mp h]
        exact Nat.mod_lt _ hbase

theorem digitsValue_append (digits : List Nat) (d : Nat) :
    digitsValue base (digits ++ [d]) = digitsValue base digits * base + d := by
  simp [digitsValue]

theorem digitsValue_fixedDigits :
    digitsValue base (fixedDigits base width n) = n % base ^ width := by
  induction width generalizing n with
  | zero => simp [fixedDigits, digitsValue, Nat.mod_one]
  | succ width ih =>
      rw [fixedDigits, digitsValue_append, ih, Nat.pow_succ', Nat.mod_mul, Nat.mul_comm]
      omega

theorem append_singleton_lt {α : Type} [LinearOrder α] {xs ys : List α} {x y : α}
    (hlength : xs.length = ys.length) : xs ++ [x] < ys ++ [y] ↔ xs < ys ∨ xs = ys ∧ x < y := by
  induction xs generalizing ys with
  | nil =>
      obtain rfl := List.eq_nil_of_length_eq_zero hlength.symm
      simp [List.cons_lt_cons_iff]
  | cons a xs ih =>
      cases ys with
      | nil => cases hlength
      | cons b ys =>
          have hlength : xs.length = ys.length := Nat.succ.inj hlength
          simp only [List.cons_append, List.cons_lt_cons_iff, ih hlength, List.cons.injEq]
          constructor
          · rintro (h | ⟨rfl, h | ⟨rfl, h⟩⟩)
            · exact .inl (.inl h)
            · exact .inl (.inr ⟨rfl, h⟩)
            · exact .inr ⟨⟨rfl, rfl⟩, h⟩
          · rintro ((h | ⟨rfl, h⟩) | ⟨⟨rfl, rfl⟩, h⟩)
            · exact .inl h
            · exact .inr ⟨rfl, .inl h⟩
            · exact .inr ⟨rfl, .inr ⟨rfl, h⟩⟩

theorem fixedDigits_inj (hm : m < base ^ width) (hn : n < base ^ width)
    (h : fixedDigits base width m = fixedDigits base width n) : m = n := by
  have hvalue := congrArg (digitsValue base) h
  rwa [digitsValue_fixedDigits, digitsValue_fixedDigits, Nat.mod_eq_of_lt hm,
    Nat.mod_eq_of_lt hn] at hvalue

theorem fixedDigits_lt (hm : m < base ^ width) (hn : n < base ^ width) :
    fixedDigits base width m < fixedDigits base width n ↔ m < n := by
  induction width generalizing m n with
  | zero =>
      rw [Nat.pow_zero, Nat.lt_one_iff] at hm hn
      simp [fixedDigits, hm, hn]
  | succ width ih =>
      have hm' : m / base < base ^ width := Nat.div_lt_of_lt_mul (by rwa [← Nat.pow_succ'])
      have hn' : n / base < base ^ width := Nat.div_lt_of_lt_mul (by rwa [← Nat.pow_succ'])
      have hfront : fixedDigits base width (m / base) = fixedDigits base width (n / base) ↔
          m / base = n / base :=
        ⟨fixedDigits_inj hm' hn', fun h => h ▸ rfl⟩
      rw [fixedDigits, fixedDigits, append_singleton_lt (by simp), ih hm' hn', hfront]
      have hdivm := Nat.div_add_mod m base
      have hdivn := Nat.div_add_mod n base
      constructor
      · rintro (h | ⟨heq, h⟩)
        · exact Nat.lt_of_div_lt_div h
        · rw [heq] at hdivm
          omega
      · intro h
        rcases Nat.lt_or_eq_of_le (Nat.div_le_div_right h.le) with hlt | heq
        · exact .inl hlt
        · rw [heq] at hdivm
          exact .inr ⟨heq, by omega⟩

end Fixed

/-! ## A common beginning -/

section Beginning

variable {α : Type} [LinearOrder α] {xs ys zs : List α}

theorem append_lt_append_iff (front : List α) : front ++ xs < front ++ ys ↔ xs < ys := by
  induction front with
  | nil => rfl
  | cons a front ih => simp [ih]

theorem cons_le_iff {a b : α} : a :: xs ≤ b :: ys ↔ a < b ∨ a = b ∧ xs ≤ ys := by
  rw [← not_lt, ← not_lt, List.cons_lt_cons_iff]
  rcases lt_trichotomy a b with h | rfl | h
  · simp [h, h.not_gt, h.ne']
  · simp
  · simp [h, h.not_gt, h.ne']

theorem begins_of_between {front : List α} (hlow : front ++ xs ≤ zs) (hhigh : zs ≤ front ++ ys) :
    front <+: zs := by
  induction front generalizing zs with
  | nil => exact List.nil_prefix
  | cons a front ih =>
      cases zs with
      | nil => exact absurd (List.nil_lt_cons a (front ++ xs)) hlow.not_gt
      | cons b zs =>
          rw [List.cons_append, cons_le_iff] at hlow hhigh
          rcases hlow with hab | ⟨rfl, hlow⟩
          · rcases hhigh with hba | ⟨rfl, -⟩
            · exact absurd hba hab.not_gt
            · exact absurd hab (lt_irrefl _)
          · rcases hhigh with hba | ⟨-, hhigh⟩
            · exact absurd hba (lt_irrefl _)
            · exact List.cons_prefix_cons.mpr ⟨rfl, ih hlow hhigh⟩

end Beginning

/-! ## As many digits as it takes -/

def radixDigits (base n : Nat) : List Nat := (Nat.digits base n).reverse

section Radix

variable {base n : Nat} {digits : List Nat}

theorem digitsValue_reverse : digitsValue base digits.reverse = Nat.ofDigits base digits := by
  rw [digitsValue, List.foldl_reverse, Nat.ofDigits_eq_foldr]
  congr 1
  funext digit value
  rw [Nat.cast_id, Nat.mul_comm, Nat.add_comm]

@[simp] theorem digitsValue_radixDigits : digitsValue base (radixDigits base n) = n := by
  rw [radixDigits, digitsValue_reverse, Nat.ofDigits_digits]

theorem lt_of_mem_radixDigits (hbase : 1 < base) {d : Nat} (h : d ∈ radixDigits base n) :
    d < base :=
  Nat.digits_lt_base hbase (List.mem_reverse.mp h)

theorem head?_radixDigits : (radixDigits base n).head? ≠ some 0 := by
  intro hhead
  rw [radixDigits, List.head?_reverse] at hhead
  have hne : Nat.digits base n ≠ [] := fun h => by simp [h] at hhead
  rw [List.getLast?_eq_some_getLast hne] at hhead
  exact Nat.getLast_digit_ne_zero base (Nat.digits_ne_nil_iff_ne_zero.mp hne)
    (Option.some.inj hhead)

theorem digitsValue_zeros (zeros : Nat) :
    digitsValue base (List.replicate zeros 0 ++ digits) = digitsValue base digits := by
  induction zeros with
  | zero => rfl
  | succ zeros ih =>
      rw [List.replicate_succ, List.cons_append, ← ih]
      simp [digitsValue]

theorem radixDigits_digitsValue (hbase : 1 < base) (hlt : ∀ d ∈ digits, d < base)
    (hhead : digits.head? ≠ some 0) : radixDigits base (digitsValue base digits) = digits := by
  have hvalue : digitsValue base digits = Nat.ofDigits base digits.reverse := by
    rw [← digitsValue_reverse, List.reverse_reverse]
  rw [hvalue, radixDigits, Nat.digits_ofDigits base hbase, List.reverse_reverse]
  · exact fun d hd => hlt d (List.mem_reverse.mp hd)
  · intro hne hlast
    apply hhead
    rw [← List.getLast?_reverse, List.getLast?_eq_some_getLast hne, hlast]

end Radix

/-! ## Text -/

def digitByte (d : Nat) : UInt8 := 48 + d.toUInt8

theorem toNat_digitByte {d : Nat} (h : d < 10) : (digitByte d).toNat = 48 + d := by
  simp only [digitByte, UInt8.toNat_add, UInt8.toNat_ofNat, Nat.toUInt8_eq, UInt8.toNat_ofNat']
  omega

/-- `%0<width>d`, for numbers of at most that many digits. -/
def paddedText (width n : Nat) : Bytes := (fixedDigits 10 width n).map digitByte

def decimalDigits (n : Nat) : List Nat := if n = 0 then [0] else (Nat.digits 10 n).reverse

/-- `%d` and `%u`, of a number that is not negative -/
def decimalText (n : Nat) : Bytes := (decimalDigits n).map digitByte

/-- `%d` and `%lld` -/
def intText : Int → Bytes
  | .ofNat n => decimalText n
  | .negSucc n => 45 :: decimalText (n + 1)

section Text

variable {m n : Nat}

theorem lt_of_mem_decimalDigits {d : Nat} (h : d ∈ decimalDigits n) : d < 10 := by
  unfold decimalDigits at h
  split at h
  · simp_all
  · exact Nat.digits_lt_base (by decide) (List.mem_reverse.mp h)

theorem digitsValue_decimalDigits : digitsValue 10 (decimalDigits n) = n := by
  unfold decimalDigits
  split
  · simp_all [digitsValue]
  · exact digitsValue_radixDigits

theorem decimalDigits_ne_nil : decimalDigits n ≠ [] := by
  unfold decimalDigits
  split
  · simp
  · rename_i hne
    simpa [Nat.digits_eq_nil_iff_eq_zero] using hne

theorem mem_decimalText {b : UInt8} (h : b ∈ decimalText n) : 48 ≤ b ∧ b ≤ 57 := by
  obtain ⟨d, hd, rfl⟩ := List.mem_map.mp h
  have hlt := lt_of_mem_decimalDigits hd
  have hvalue := toNat_digitByte hlt
  rw [UInt8.le_iff_toNat_le, UInt8.le_iff_toNat_le, hvalue]
  constructor
  · exact Nat.le_add_right 48 d
  · exact Nat.add_le_add_left (Nat.le_of_lt_succ hlt) 48

theorem not_mem_intText {c : UInt8} (hsign : c ≠ 45) (hdigit : c < 48 ∨ 57 < c) (i : Int) :
    c ∉ intText i := by
  have hdigits : ∀ n, c ∉ decimalText n := by
    intro n h
    obtain ⟨hlow, hhigh⟩ := mem_decimalText h
    exact hdigit.elim (fun h => absurd hlow (UInt8.not_le.mpr h))
      fun h => absurd hhigh (UInt8.not_le.mpr h)
  cases i with
  | ofNat n => exact hdigits n
  | negSucc n =>
      intro h
      exact (List.mem_cons.mp h).elim hsign (hdigits _)

theorem decimalText_cases (n : Nat) : decimalText n = [48] ∨
    ∃ b rest, decimalText n = b :: rest ∧ 49 ≤ b ∧ b ≤ 57 ∧ ∀ c ∈ rest, 48 ≤ c ∧ c ≤ 57 := by
  have hmem := fun b => @mem_decimalText n b
  cases hdigits : decimalDigits n with
  | nil => exact absurd hdigits decimalDigits_ne_nil
  | cons d ds =>
      have htext : decimalText n = digitByte d :: ds.map digitByte := by
        rw [decimalText, hdigits, List.map_cons]
      unfold decimalDigits at hdigits
      split at hdigits
      · rw [← (List.cons.inj hdigits).1, ← (List.cons.inj hdigits).2] at htext
        exact .inl htext
      · have hradix : radixDigits 10 n = d :: ds := hdigits
        have hlead : (radixDigits 10 n).head? ≠ some 0 := head?_radixDigits
        have hlt : d < 10 := lt_of_mem_radixDigits (by decide) (hradix ▸ List.mem_cons_self)
        have hpos : d ≠ 0 := fun h => hlead (by rw [hradix, h]; rfl)
        rw [htext] at hmem
        refine .inr ⟨_, _, htext, ?_, (hmem _ List.mem_cons_self).2, fun c hc =>
          hmem c (.tail _ hc)⟩
        have hone : (49 : UInt8).toNat = 49 := by decide
        rw [UInt8.le_iff_toNat_le, toNat_digitByte hlt, hone]
        omega

theorem foldl_decimalText :
    (decimalText n).foldl (fun value b => value * 10 + (b.toNat - 48)) 0 = n := by
  calc (decimalText n).foldl (fun value b => value * 10 + (b.toNat - 48)) 0
      = (decimalDigits n).foldl (fun value d => value * 10 + ((digitByte d).toNat - 48)) 0 :=
        List.foldl_map
    _ = digitsValue 10 (decimalDigits n) := by
        apply List.foldl_ext
        intro value d hd
        rw [toNat_digitByte (lt_of_mem_decimalDigits hd), Nat.add_sub_cancel_left]
    _ = n := digitsValue_decimalDigits

theorem map_digits_lt {base : Nat} {char : Nat → UInt8}
    (hchar : ∀ d < base, ∀ e < base, (char d < char e ↔ d < e) ∧ (char d = char e ↔ d = e))
    {xs ys : List Nat} (hxs : ∀ d ∈ xs, d < base) (hys : ∀ d ∈ ys, d < base) :
    xs.map char < ys.map char ↔ xs < ys := by
  induction xs generalizing ys with
  | nil => cases ys <;> simp
  | cons x xs ih =>
      cases ys with
      | nil => simp
      | cons y ys =>
          obtain ⟨hx, hxs⟩ := List.forall_mem_cons.mp hxs
          obtain ⟨hy, hys⟩ := List.forall_mem_cons.mp hys
          obtain ⟨hlt, heq⟩ := hchar x hx y hy
          simp only [List.map_cons, List.cons_lt_cons_iff, hlt, heq, ih hxs hys]

theorem digitByte_order : ∀ d < 10, ∀ e < 10,
    (digitByte d < digitByte e ↔ d < e) ∧ (digitByte d = digitByte e ↔ d = e) := by
  decide

theorem paddedText_lt {width : Nat} (hm : m < 10 ^ width) (hn : n < 10 ^ width) :
    paddedText width m < paddedText width n ↔ m < n := by
  have hten : 0 < 10 := by decide
  rw [paddedText, paddedText, map_digits_lt digitByte_order
    (fun _ => lt_of_mem_fixedDigits hten) (fun _ => lt_of_mem_fixedDigits hten),
    fixedDigits_lt hm hn]

end Text

end ExplorerKV.Foundation

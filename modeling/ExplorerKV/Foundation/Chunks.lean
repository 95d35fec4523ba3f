import ExplorerKV.Foundation.Exec

/-!
# Chunks of a list

A list cut into chunks of one size, the last of them shorter; and the loop that
gathers a chunk, writes it when it is full and writes what is left at the end.
-/

namespace ExplorerKV.Foundation

variable {α ε σ : Type}

def chunk (size : Nat) (xs : List α) (i : Nat) : List α := (xs.drop (i * size)).take size

/-- `⌈n / size⌉` -/
def chunkCount (size n : Nat) : Nat := (n + (size - 1)) / size

def chunks (size : Nat) (xs : List α) : List (List α) :=
  (List.range (chunkCount size xs.length)).map (chunk size xs)

section Chunks

variable {size n k : Nat} {xs : List α}

theorem chunkCount_of_dvd (hsize : 0 < size) : chunkCount size (k * size) = k := by
  rw [chunkCount, Nat.add_comm, Nat.add_mul_div_right _ _ hsize,
    Nat.div_eq_of_lt (by omega), Nat.zero_add]

theorem chunkCount_of_lt {r : Nat} (hr : 0 < r) (hlt : r < size) :
    chunkCount size (k * size + r) = k + 1 := by
  have hrest : (r + (size - 1)) / size = 1 := by
    rw [show r + (size - 1) = (r - 1) + size by omega, Nat.add_div_right _ (by omega),
      Nat.div_eq_of_lt (by omega)]
  rw [chunkCount, Nat.add_assoc, Nat.add_comm, Nat.add_mul_div_right _ _ (by omega), hrest,
    Nat.add_comm]

theorem le_chunkCount_mul (hsize : 0 < size) (n : Nat) : n ≤ chunkCount size n * size := by
  have h := Nat.div_add_mod (n + (size - 1)) size
  have hlt := Nat.mod_lt (n + (size - 1)) hsize
  rw [Nat.mul_comm] at h
  rw [chunkCount]
  omega

theorem lt_of_lt_chunkCount (hsize : 0 < size) (h : k + 1 < chunkCount size n) :
    (k + 1) * size < n := by
  have hle : (k + 2) * size ≤ n + (size - 1) := by
    rw [← Nat.le_div_iff_mul_le hsize]
    exact h
  rw [Nat.succ_mul] at hle
  omega

theorem flatten_chunks_take (k : Nat) :
    ((List.range k).map (chunk size xs)).flatten = xs.take (k * size) := by
  induction k with
  | zero => simp
  | succ k ih =>
      rw [List.range_succ, List.map_append, List.flatten_append, ih, List.map_singleton,
        List.flatten_singleton, chunk, Nat.succ_mul, List.take_add]

theorem flatten_chunks (hsize : 0 < size) (xs : List α) : (chunks size xs).flatten = xs := by
  rw [chunks, flatten_chunks_take, List.take_of_length_le (le_chunkCount_mul hsize _)]

theorem length_chunk_of_le (h : (k + 1) * size ≤ xs.length) : (chunk size xs k).length = size := by
  rw [Nat.succ_mul] at h
  rw [chunk, List.length_take, List.length_drop]
  omega

theorem length_of_mem_dropLast (hsize : 0 < size) {c : List α}
    (h : c ∈ (chunks size xs).dropLast) : c.length = size := by
  rw [chunks, ← List.map_dropLast, List.mem_map] at h
  obtain ⟨i, hi, rfl⟩ := h
  have hlt : i + 1 < chunkCount size xs.length := by
    rw [List.dropLast_eq_take, List.length_range, List.take_range, List.mem_range] at hi
    omega
  exact length_chunk_of_le (lt_of_lt_chunkCount hsize hlt).le

end Chunks

/-! ## Writing full chunks from a loop -/

/-- `value` gathers the elements; the `if` behind the loop writes what is left. -/
def flushLoop (size : Nat) (write : Nat → List α → Exec ε σ Unit) (xs : List α) :
    Exec ε σ Unit := do
  let value ← xs.zipIdx.foldlM (fun value (x, i) => do
    let value := value ++ [x]
    if (i + 1) % size = 0 then
      write (i / size) value
      pure []
    else pure value) []
  if value.length ≠ 0 then
    write (xs.length / size) value

variable {size : Nat} {xs : List α} {upd : Nat → List α → σ → σ} {s : σ}

/-- The state after the first `k` chunks have been written. -/
def afterChunks (size : Nat) (upd : Nat → List α → σ → σ) (xs : List α) (k : Nat) (s : σ) : σ :=
  (List.range k).foldl (fun s i => upd i (chunk size xs i) s) s

theorem afterChunks_succ (k : Nat) :
    afterChunks size upd xs (k + 1) s = upd k (chunk size xs k) (afterChunks size upd xs k s) := by
  rw [afterChunks, List.range_succ, List.foldl_append]
  rfl

/-- What is gathered when the `k`-th chunk is full. -/
theorem chunk_of_gathered {k : Nat} {done : List α} (hdone : done.length = (k + 1) * size)
    (rest : List α) :
    chunk size (done ++ rest) k = done.drop (k * size) := by
  have hle : k * size ≤ done.length := by
    rw [hdone, Nat.succ_mul]
    omega
  have hlength : (done.drop (k * size)).length = size := by
    rw [List.length_drop, hdone, Nat.succ_mul]
    omega
  rw [chunk, List.drop_append_of_le_length hle, List.take_left' hlength]

theorem flushLoop_run (hsize : 0 < size) (upd : Nat → List α → σ → σ) (xs : List α) (s : σ) :
    flushLoop size (fun i value => (modify (upd i value) : Exec ε σ Unit)) xs s =
      .ok ((), afterChunks size upd xs (chunkCount size xs.length) s) := by
  apply run_of_wp
  unfold flushLoop
  refine wp_seq (wp_foldlM_zipIdx (fun done value t =>
    value = done.drop (done.length / size * size) ∧
      t = afterChunks size upd xs (done.length / size) s) ⟨by simp, by simp [afterChunks]⟩ ?_) ?_
  · rintro done x rest value t hxs ⟨rfl, rfl⟩
    have hdiv := Nat.div_add_mod' done.length size
    have hlt := Nat.mod_lt done.length hsize
    have hgather : done.drop (done.length / size * size) ++ [x] =
        (done ++ [x]).drop (done.length / size * size) :=
      (List.drop_append_of_le_length (by omega)).symm
    apply wp_ite
    · intro hfull
      have hnext : (done.length + 1) / size = done.length / size + 1 :=
        Nat.succ_div_of_mod_eq_zero hfull
      have hlength : (done ++ [x]).length = (done.length / size + 1) * size := by
        rw [List.length_append, List.length_singleton, ← hnext, Nat.div_mul_cancel]
        exact Nat.dvd_of_mod_eq_zero hfull
      have hchunk : chunk size xs (done.length / size) =
          done.drop (done.length / size * size) ++ [x] := by
        rw [hgather, ← chunk_of_gathered hlength rest, hxs, List.append_assoc]
        rfl
      rw [wp_bind, wp_modify, wp_pure, List.length_append, List.length_singleton, hnext,
        afterChunks_succ, hchunk, ← hlength, List.drop_length]
      exact ⟨rfl, rfl⟩
    · intro hfull
      have hnext : (done.length + 1) / size = done.length / size :=
        Nat.succ_div_of_mod_ne_zero hfull
      rw [wp_pure, List.length_append, List.length_singleton, hnext]
      exact ⟨hgather, rfl⟩
  · rintro value t ⟨rfl, rfl⟩
    have hdiv := Nat.div_add_mod' xs.length size
    have hlt := Nat.mod_lt xs.length hsize
    have hleft : (xs.drop (xs.length / size * size)).length = xs.length % size := by
      rw [List.length_drop]
      omega
    apply wp_ite
    · intro hsome
      rw [hleft] at hsome
      have hcount : chunkCount size xs.length = xs.length / size + 1 := by
        conv_lhs => rw [← hdiv]
        exact chunkCount_of_lt (by omega) hlt
      have hchunk : chunk size xs (xs.length / size) = xs.drop (xs.length / size * size) :=
        List.take_of_length_le (by omega)
      rw [wp_modify, hcount, afterChunks_succ, hchunk]
      exact ⟨rfl, rfl⟩
    · intro hnone
      rw [hleft, not_not] at hnone
      have hcount : chunkCount size xs.length = xs.length / size := by
        conv_lhs => rw [← hdiv, hnone]
        exact chunkCount_of_dvd hsize
      rw [wp_pure, hcount]
      exact ⟨rfl, rfl⟩

end ExplorerKV.Foundation

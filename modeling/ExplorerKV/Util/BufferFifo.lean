import ExplorerKV.Util.BoundedBuffer

/-!
# The order of the bounded buffer

The bodies of `pushFront` and `popBack` as atomic steps, each with its guard.
Items enter the circular buffer at the front; the counter marks how many from
the front are unread, and what lies behind them is consumed and still there.
-/

namespace ExplorerKV.Util

open Foundation

variable {α : Type} {n : Nat}

/-- A buffer, and the items that went in and came out; `none` is a read out of range. -/
structure BufferTrace (α : Type) (n : Nat) where
  buffer : BoundedBuffer α n
  pushed : List α
  popped : List (Option α)

namespace BufferTrace

def start (α : Type) (n : Nat) : BufferTrace α n := ⟨BoundedBuffer.initial α n, [], []⟩

def call (capacity : UInt64) (s : BufferTrace α n) (c : BufferCall α) : Option (BufferTrace α n) :=
  if s.buffer.ready capacity.toNat c then
    match c with
    | .pushFront item =>
        some { s with
          buffer := s.buffer.pushBody capacity.toNat item, pushed := s.pushed ++ [item] }
    | .popBack =>
        some { s with buffer := s.buffer.popBody.1, popped := s.popped ++ [s.buffer.popBody.2] }
  else none

end BufferTrace

namespace BoundedBuffer

def waiting (b : BoundedBuffer α n) : List α := (b.container.take b.unread.toNat).reverse

/-- The counter stays inside the buffer, and the buffer inside its capacity. -/
structure Within (capacity : UInt64) (b : BoundedBuffer α n) : Prop where
  unread_le : b.unread.toNat ≤ b.container.length
  length_le : b.container.length ≤ capacity.toNat

variable {capacity : UInt64} {b : BoundedBuffer α n}

theorem unread_push (h : b.unread.toNat < capacity.toNat) :
    (b.unread + 1).toNat = b.unread.toNat + 1 := by
  have hsize := capacity.toNat_lt
  rw [UInt64.toNat_add]
  change (b.unread.toNat + 1) % 2 ^ 64 = _
  omega

/-- What `push_front` overwrites lies behind the unread items. -/
theorem waiting_push (hroom : b.unread.toNat < capacity.toNat) (item : α) :
    (b.pushBody capacity.toNat item).waiting = b.waiting ++ [item] := by
  have hunread := unread_push hroom
  simp only [waiting, pushBody, hunread, List.take_take]
  rw [Nat.min_eq_left (by omega), List.take_succ_cons, List.reverse_cons]

theorem unread_pop (h : 0 < b.unread) : (b.unread - 1).toNat + 1 = b.unread.toNat := by
  have hpos : 0 < b.unread.toNat := by simpa using UInt64.lt_iff_toNat_lt.mp h
  rw [UInt64.toNat_sub_of_le]
  · change b.unread.toNat - 1 + 1 = b.unread.toNat
    omega
  · rw [UInt64.le_iff_toNat_le]
    change 1 ≤ b.unread.toNat
    omega

namespace Within

theorem length_waiting (h : b.Within capacity) : b.waiting.length = b.unread.toNat := by
  rw [waiting, List.length_reverse, List.length_take, Nat.min_eq_left h.unread_le]

theorem push (h : b.Within capacity) (hroom : b.unread.toNat < capacity.toNat) (item : α) :
    (b.pushBody capacity.toNat item).Within capacity := by
  have hunread := unread_push hroom
  have hle := h.unread_le
  constructor
  · simp only [pushBody, List.length_take, List.length_cons, hunread]
    omega
  · simp only [pushBody, List.length_take]
    omega

theorem pop (h : b.Within capacity) (hsome : 0 < b.unread) : b.popBody.1.Within capacity := by
  have hunread := unread_pop hsome
  have hle := h.unread_le
  exact ⟨by simp only [popBody]; omega, h.length_le⟩

/-- `container_[--unread_]` is the oldest of the unread items. -/
theorem waiting_pop (h : b.Within capacity) (hsome : 0 < b.unread) :
    ∃ item, b.popBody.2 = some item ∧ b.waiting = item :: b.popBody.1.waiting := by
  have hunread := unread_pop hsome
  have hlt : (b.unread - 1).toNat < b.container.length := by
    have := h.unread_le
    omega
  refine ⟨b.container[(b.unread - 1).toNat], List.getElem?_eq_getElem hlt, ?_⟩
  rw [waiting, ← hunread, List.take_succ_eq_append_getElem hlt, List.reverse_append]
  rfl

end Within

end BoundedBuffer

namespace BufferTrace

variable {capacity : UInt64} {s s' : BufferTrace α n} {c : BufferCall α}

/-- What went in came out or waits, in this order. -/
structure Fifo (capacity : UInt64) (s : BufferTrace α n) : Prop where
  within : s.buffer.Within capacity
  pushed_eq : s.pushed.map some = s.popped ++ s.buffer.waiting.map some

theorem call_push {item : α}
    (hready : s.buffer.ready capacity.toNat (.pushFront item) = true) :
    s.call capacity (.pushFront item) = some { s with
      buffer := s.buffer.pushBody capacity.toNat item, pushed := s.pushed ++ [item] } :=
  if_pos hready

theorem call_pop (hready : s.buffer.ready capacity.toNat .popBack = true) :
    s.call capacity .popBack = some { s with
      buffer := s.buffer.popBody.1, popped := s.popped ++ [s.buffer.popBody.2] } :=
  if_pos hready

theorem fifo_start : (start α n).Fifo capacity :=
  ⟨⟨Nat.le_refl _, Nat.zero_le _⟩, rfl⟩

theorem Fifo.call (h : s.Fifo capacity) (hcall : s.call capacity c = some s') :
    s'.Fifo capacity := by
  unfold BufferTrace.call at hcall
  split at hcall
  · next hready =>
      cases c with
      | pushFront item =>
          cases hcall
          have hroom : s.buffer.unread.toNat < capacity.toNat := by
            simpa [BoundedBuffer.ready] using hready
          refine ⟨h.within.push hroom item, ?_⟩
          simp only [BoundedBuffer.waiting_push hroom, List.map_append, h.pushed_eq,
            List.append_assoc]
      | popBack =>
          cases hcall
          have hsome : 0 < s.buffer.unread := by simpa [BoundedBuffer.ready] using hready
          obtain ⟨item, hitem, hwaiting⟩ := h.within.waiting_pop hsome
          refine ⟨h.within.pop hsome, ?_⟩
          simp only [h.pushed_eq, hwaiting, hitem, List.map_cons, List.append_assoc,
            List.singleton_append]
  · cases hcall

/--
Whatever the capacity and the calls that their guards let through, the values
popped are the values pushed, in the order of the pushes, up to the ones unread.
-/
theorem fifo (capacity : UInt64) (calls : List (BufferCall α))
    (hrun : runs (call capacity) (start α n) calls = some s) :
    s.popped = (s.pushed.take s.popped.length).map some ∧
      s.pushed.length = s.popped.length + s.buffer.unread.toNat := by
  have h : s.Fifo capacity :=
    runs_inv_state (fun s => s.Fifo capacity) fifo_start (fun _ _ _ h hcall => h.call hcall) hrun
  constructor
  · rw [List.map_take, h.pushed_eq, List.take_left]
  · have hlength := congrArg List.length h.pushed_eq
    rwa [List.length_map, List.length_append, List.length_map, h.within.length_waiting] at hlength

def threeItems : List (BufferCall Nat) :=
  [.pushFront 1, .pushFront 2, .popBack, .pushFront 3, .popBack, .popBack]

theorem fifo_threeItems : ∃ s : BufferTrace Nat 0,
    runs (call 2) (start Nat 0) threeItems = some s ∧
      s.popped = (s.pushed.take s.popped.length).map some ∧
      s.pushed.length = s.popped.length + s.buffer.unread.toNat :=
  ⟨_, rfl, fifo 2 threeItems rfl⟩

end BufferTrace

/-! ## The calls of the threads -/

namespace BoundedBuffer

variable {capacity : UInt64} {b b' : BoundedBuffer α n}

/-- The buffer is the one that some guarded calls leave, and a body is entered under its guard. -/
structure Atomic (capacity : UInt64) (b : BoundedBuffer α n) : Prop where
  inv : b.Inv
  ready : ∀ t call, b.pc t = .body call → b.ready capacity.toNat call = true
  calls : ∃ calls s, runs (BufferTrace.call capacity) (BufferTrace.start α n) calls = some s ∧
    s.buffer.container = b.container ∧ s.buffer.unread = b.unread

theorem ready_congr {c : BoundedBuffer α n} (h : c.unread = b.unread) (capacity : Nat)
    (call : BufferCall α) : c.ready capacity call = b.ready capacity call := by
  cases call with
  | pushFront item => rw [ready, ready, h]
  | popBack => rw [ready, ready, h]

theorem Inv.not_body {t : Fin n} {p : BufferPc α} (h : b.Inv) (ht : (b.pc t).Holding)
    (hp : ∀ call, p ≠ .body call) (u : Fin n) (call : BufferCall α) :
    Function.update b.pc t p u ≠ .body call := by
  intro hu
  by_cases hut : u = t
  · subst hut
    rw [Function.update_self] at hu
    exact hp call hu
  · rw [Function.update_of_ne hut] at hu
    exact hut (h.exclusive u t (by rw [hu]; trivial) ht)

namespace Atomic

theorem ready_of_pc (h : b.Atomic capacity) (hunread : b'.unread = b.unread)
    (hpc : ∀ t call, b'.pc t = .body call → b.pc t = .body call) (t : Fin n)
    (call : BufferCall α) (hbody : b'.pc t = .body call) :
    b'.ready capacity.toNat call = true := by
  rw [ready_congr hunread]
  exact h.ready t call (hpc t call hbody)

theorem body_of_update {t : Fin n} {p : BufferPc α} (hp : ∀ call, p ≠ .body call) (u : Fin n)
    (call : BufferCall α) (hu : Function.update b.pc t p u = .body call) : b.pc u = .body call := by
  by_cases hut : u = t
  · subst hut
    rw [Function.update_self] at hu
    exact absurd hu (hp call)
  · rwa [Function.update_of_ne hut] at hu

theorem ne_body {p : BufferPc α} (hp : ¬p.Holding) (call : BufferCall α) : p ≠ .body call := by
  rintro rfl
  exact hp trivial

theorem step {a : BufferAction α n} (h : b.Atomic capacity) (hquiet : b.QuietDestructor a)
    (hstep : BoundedBuffer.step capacity.toNat b a = some b') : b'.Atomic capacity := by
  have hinv := inv_step h.inv hquiet hstep
  obtain ⟨calls, s, hrun, hcontainer, hunread⟩ := h.calls
  cases effect_of_step hstep with
  | outside hpc =>
      refine ⟨hinv, h.ready_of_pc rfl fun u call hu => ?_, h.calls⟩
      exact (hpc u).elim (fun heq => heq ▸ hu) fun hout => absurd hu (ne_body hout call)
  | acquire _ hp => exact ⟨hinv, h.ready_of_pc rfl (body_of_update hp), h.calls⟩
  | @enter t call hin hready =>
      refine ⟨hinv, fun u call' hu => ?_, h.calls⟩
      by_cases hut : u = t
      · subst hut
        obtain rfl : call = call' := by simpa [BoundedBuffer.goto] using hu
        exact hready
      · refine h.ready u call' ?_
        simpa only [BoundedBuffer.goto, Function.update_of_ne hut] using hu
  | release _ hp => exact ⟨hinv, h.ready_of_pc rfl (body_of_update (ne_body hp)), h.calls⟩
  | @push t item hpc =>
      have hin : (b.pc t).Holding := by rw [hpc]; trivial
      have hready := h.ready t _ hpc
      rw [← ready_congr hunread] at hready
      refine ⟨hinv, fun u call hu => ?_, calls ++ [.pushFront item], _,
        runs_snoc.mpr ⟨s, hrun, BufferTrace.call_push hready⟩, ?_, ?_⟩
      · exact absurd hu
          (h.inv.not_body (p := .unlocking (.pushFront item) none) hin nofun u call)
      · simp only [pushBody, goto, hcontainer]
      · simp only [pushBody, goto, hunread]
  | @pop t hpc =>
      have hin : (b.pc t).Holding := by rw [hpc]; trivial
      have hready := h.ready t _ hpc
      rw [← ready_congr hunread] at hready
      refine ⟨hinv, fun u call hu => ?_, calls ++ [.popBack], _,
        runs_snoc.mpr ⟨s, hrun, BufferTrace.call_pop hready⟩, ?_, ?_⟩
      · exact absurd hu
          (h.inv.not_body (p := .unlocking .popBack b.popBody.2) hin nofun u call)
      · simp only [popBody, goto, hcontainer]
      · simp only [popBody, goto, hunread]
  | destroy => exact ⟨hinv, h.ready_of_pc rfl (body_of_update nofun), h.calls⟩

end Atomic

/--
While no destructor unlocks the mutex of another thread, the buffer under any
interleaving is the one that some calls leave which ran one after the other.
-/
theorem atomic_of_quiet {schedule : List (BufferAction α n)}
    (hrun : run capacity.toNat schedule = some b)
    (hquiet : EachStep (step capacity.toNat) QuietDestructor (initial α n) schedule) :
    b.Atomic capacity := by
  have hstart : (initial α n).Atomic capacity :=
    ⟨inv_initial, nofun, [], BufferTrace.start α n, rfl, rfl, rfl⟩
  exact runs_inv_of_each (fun b => b.Atomic capacity) hstart (fun _ _ _ h => h.step) hrun hquiet

end BoundedBuffer

end ExplorerKV.Util

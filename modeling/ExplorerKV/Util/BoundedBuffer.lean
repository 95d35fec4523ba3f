import ExplorerKV.Foundation.Machine
import ExplorerKV.Foundation.Mutex

/-!
# The bounded buffer

`BoundedBuffer` of `Util.h` and any number of threads that call it.  A step is
one of the atomic steps of a call; the mutex is a flag that any unlock clears.
`lock_.unlock()` goes past the `unique_lock`, whose destructor unlocks again.
-/

namespace ExplorerKV.Util

open Foundation

variable {α : Type}

inductive BufferCall (α : Type) where
  | pushFront (item : α)
  | popBack
  deriving DecidableEq, Repr

/-- Where a thread is in its call; `item` is what `popBack` has written to `pItem`. -/
inductive BufferPc (α : Type) where
  | outside
  /-- in the constructor of the `unique_lock`, or about to return from a wait -/
  | locking (call : BufferCall α)
  /-- about to test the predicate of the wait -/
  | testing (call : BufferCall α)
  /-- blocked in the wait, with the mutex released -/
  | waiting (call : BufferCall α)
  | body (call : BufferCall α)
  | unlocking (call : BufferCall α) (item : Option α)
  | notifying (call : BufferCall α) (item : Option α)
  /-- in the destructor of the `unique_lock` -/
  | leaving (call : BufferCall α) (item : Option α)
  deriving DecidableEq, Repr

/-- Between acquisition and release of the lock. -/
def BufferPc.Holding : BufferPc α → Prop
  | .testing _ | .body _ | .unlocking _ _ => True
  | _ => False

instance : DecidablePred (BufferPc.Holding (α := α))
  | .testing _ | .body _ | .unlocking _ _ => .isTrue trivial
  | .outside | .locking _ | .waiting _ | .notifying _ _ | .leaving _ _ => .isFalse id

structure BoundedBuffer (α : Type) (n : Nat) where
  container : List α
  unread : UInt64
  locked : Bool
  pc : Fin n → BufferPc α

inductive BufferAction (α : Type) (n : Nat) where
  | call (t : Fin n) (call : BufferCall α)
  | lock (t : Fin n)
  | test (t : Fin n)
  /-- a wait may end without a notification -/
  | wake (t : Fin n)
  | body (t : Fin n)
  | unlock (t : Fin n)
  | notify (t : Fin n) (woken : Option (Fin n))
  | destroy (t : Fin n)
  deriving DecidableEq, Repr

namespace BoundedBuffer

variable {n : Nat}

def initial (α : Type) (n : Nat) : BoundedBuffer α n := ⟨[], 0, false, fun _ => .outside⟩

def goto (b : BoundedBuffer α n) (t : Fin n) (p : BufferPc α) : BoundedBuffer α n :=
  { b with pc := Function.update b.pc t p }

/-- The predicate of the wait: `notFull_` for `pushFront`, `notEmpty_` for `popBack`. -/
def ready (capacity : Nat) (b : BoundedBuffer α n) : BufferCall α → Bool
  | .pushFront _ => b.unread.toNat < capacity
  | .popBack => 0 < b.unread

/-- `push_front` of a full circular buffer drops what is at the back. -/
def pushBody (capacity : Nat) (b : BoundedBuffer α n) (item : α) : BoundedBuffer α n :=
  { b with container := (item :: b.container).take capacity, unread := b.unread + 1 }

def popBody (b : BoundedBuffer α n) : BoundedBuffer α n × Option α :=
  ({ b with unread := b.unread - 1 }, b.container[(b.unread - 1).toNat]?)

@[simp] theorem pushBody_pc (capacity : Nat) (b : BoundedBuffer α n) (item : α) :
    (b.pushBody capacity item).pc = b.pc := by
  dsimp only [pushBody]

@[simp] theorem popBody_pc (b : BoundedBuffer α n) : b.popBody.1.pc = b.pc := by
  dsimp only [popBody]

/-- `pushFront` notifies a waiting `popBack`, and `popBack` a waiting `pushFront`. -/
def wakes : BufferCall α → BufferPc α → Bool
  | .pushFront _, .waiting .popBack => true
  | .popBack, .waiting (.pushFront _) => true
  | _, _ => false

def wake (b : BoundedBuffer α n) (u : Fin n) : BoundedBuffer α n :=
  match b.pc u with
  | .waiting call => b.goto u (.locking call)
  | _ => b

def step (capacity : Nat) (b : BoundedBuffer α n) : BufferAction α n → Option (BoundedBuffer α n)
  | .call t call => if b.pc t matches .outside then some (b.goto t (.locking call)) else none
  | .lock t =>
      match b.pc t with
      | .locking call =>
          if b.locked then none else some { b.goto t (.testing call) with locked := true }
      | _ => none
  | .test t =>
      match b.pc t with
      | .testing call =>
          if b.ready capacity call then some (b.goto t (.body call))
          else some { b.goto t (.waiting call) with locked := false }
      | _ => none
  | .wake t => if b.pc t matches .waiting _ then some (b.wake t) else none
  | .body t =>
      match b.pc t with
      | .body (.pushFront item) =>
          some ((b.pushBody capacity item).goto t (.unlocking (.pushFront item) none))
      | .body .popBack => some (b.popBody.1.goto t (.unlocking .popBack b.popBody.2))
      | _ => none
  | .unlock t =>
      match b.pc t with
      | .unlocking call item => some { b.goto t (.notifying call item) with locked := false }
      | _ => none
  | .notify t (some u) =>
      match b.pc t with
      | .notifying call item =>
          if wakes call (b.pc u) then some ((b.wake u).goto t (.leaving call item)) else none
      | _ => none
  | .notify t none =>
      match b.pc t with
      | .notifying call item =>
          if ∀ u, ¬wakes call (b.pc u) then some (b.goto t (.leaving call item)) else none
      | _ => none
  | .destroy t =>
      match b.pc t with
      | .leaving _ _ => some { b.goto t .outside with locked := false }
      | _ => none

def run (capacity : Nat) (schedule : List (BufferAction α n)) : Option (BoundedBuffer α n) :=
  runs (step capacity) (initial α n) schedule

/-- Whoever unlocks the mutex holds it. -/
def UnlocksHeld (b : BoundedBuffer α n) : BufferAction α n → Prop
  | .test t | .unlock t | .destroy t => (b.pc t).Holding
  | _ => True

/-! ## What the steps keep -/

/-- The destructor runs while no thread is between acquisition and release. -/
def QuietDestructor (b : BoundedBuffer α n) : BufferAction α n → Prop
  | .destroy _ => ∀ u, ¬(b.pc u).Holding
  | _ => True

def Inv (b : BoundedBuffer α n) : Prop := Guarded BufferPc.Holding b.pc b.locked

variable {capacity : Nat} {b b' : BoundedBuffer α n}

theorem inv_initial : Inv (initial α n) := Guarded.of_none_inside false fun _ => id

/-- What a step can do to the mutex, the buffer and the threads inside the lock. -/
inductive Effect (capacity : Nat) (b : BoundedBuffer α n) :
    BufferAction α n → BoundedBuffer α n → Prop where
  /-- threads go to points outside the lock -/
  | outside {a : BufferAction α n} {pc : Fin n → BufferPc α}
      (hpc : ∀ u, pc u = b.pc u ∨ ¬(pc u).Holding) : Effect capacity b a { b with pc := pc }
  | acquire {t : Fin n} {p : BufferPc α} (hlocked : b.locked = false)
      (hp : ∀ call, p ≠ .body call) :
      Effect capacity b (.lock t) { b.goto t p with locked := true }
  | enter {t : Fin n} {call : BufferCall α} (hin : (b.pc t).Holding)
      (hready : b.ready capacity call = true) : Effect capacity b (.test t) (b.goto t (.body call))
  | release {a : BufferAction α n} {t : Fin n} {p : BufferPc α} (hin : (b.pc t).Holding)
      (hp : ¬p.Holding) : Effect capacity b a { b.goto t p with locked := false }
  | push {t : Fin n} {item : α} (hpc : b.pc t = .body (.pushFront item)) :
      Effect capacity b (.body t)
        ((b.pushBody capacity item).goto t (.unlocking (.pushFront item) none))
  | pop {t : Fin n} (hpc : b.pc t = .body .popBack) :
      Effect capacity b (.body t) (b.popBody.1.goto t (.unlocking .popBack b.popBody.2))
  | destroy {t : Fin n} : Effect capacity b (.destroy t) { b.goto t .outside with locked := false }

theorem Effect.goto {a : BufferAction α n} {t : Fin n} {p : BufferPc α} (hp : ¬p.Holding) :
    Effect capacity b a (b.goto t p) := by
  refine .outside fun u => ?_
  by_cases hut : u = t
  · subst hut
    exact .inr (by rwa [Function.update_self])
  · exact .inl (Function.update_of_ne hut _ _)

theorem wake_eq (b : BoundedBuffer α n) (u : Fin n) :
    ∃ pc, b.wake u = { b with pc := pc } ∧ ∀ v, pc v = b.pc v ∨ ¬(pc v).Holding := by
  unfold wake
  split
  · next call _ =>
      refine ⟨_, rfl, fun v => ?_⟩
      by_cases hvu : v = u
      · subst hvu
        exact .inr (by rw [Function.update_self]; exact id)
      · exact .inl (Function.update_of_ne hvu _ _)
  · exact ⟨b.pc, rfl, fun v => .inl rfl⟩

theorem Effect.wake_goto {a : BufferAction α n} {t u : Fin n} {p : BufferPc α} (hp : ¬p.Holding) :
    Effect capacity b a ((b.wake u).goto t p) := by
  obtain ⟨pc, hwake, hpc⟩ := wake_eq b u
  rw [hwake]
  refine .outside fun v => ?_
  by_cases hvt : v = t
  · subst hvt
    exact .inr (by rwa [Function.update_self])
  · rw [Function.update_of_ne hvt]
    exact hpc v

theorem effect_of_step {a : BufferAction α n} (hstep : step capacity b a = some b') :
    Effect capacity b a b' := by
  cases a with
  | call t call =>
      obtain ⟨-, rfl⟩ := Option.ite_some_none_eq_some.mp hstep
      exact .goto id
  | lock t =>
      simp only [step] at hstep
      cases hpc : b.pc t with
      | locking call =>
          simp only [hpc] at hstep
          cases hlocked : b.locked with
          | true => simp [hlocked] at hstep
          | false =>
              simp only [hlocked, Bool.false_eq_true, if_false, Option.some.injEq] at hstep
              subst hstep
              exact .acquire hlocked nofun
      | _ => simp [hpc] at hstep
  | test t =>
      simp only [step] at hstep
      cases hpc : b.pc t with
      | testing call =>
          have hin : (b.pc t).Holding := by rw [hpc]; trivial
          simp only [hpc] at hstep
          split at hstep
          · next hready =>
              cases hstep
              exact .enter hin hready
          · cases hstep
            exact .release hin id
      | _ => simp [hpc] at hstep
  | wake t =>
      obtain ⟨-, rfl⟩ := Option.ite_some_none_eq_some.mp hstep
      obtain ⟨pc, hwake, hpc⟩ := wake_eq b t
      rw [hwake]
      exact .outside hpc
  | body t =>
      simp only [step] at hstep
      cases hpc : b.pc t with
      | body call =>
          cases call with
          | pushFront item =>
              simp only [hpc, Option.some.injEq] at hstep
              subst hstep
              exact .push hpc
          | popBack =>
              simp only [hpc, Option.some.injEq] at hstep
              subst hstep
              exact .pop hpc
      | _ => simp [hpc] at hstep
  | unlock t =>
      simp only [step] at hstep
      cases hpc : b.pc t with
      | unlocking call item =>
          have hin : (b.pc t).Holding := by rw [hpc]; trivial
          simp only [hpc, Option.some.injEq] at hstep
          subst hstep
          exact .release hin id
      | _ => simp [hpc] at hstep
  | notify t woken =>
      cases woken with
      | some u =>
          simp only [step] at hstep
          cases hpc : b.pc t with
          | notifying call item =>
              simp only [hpc] at hstep
              obtain ⟨-, rfl⟩ := Option.ite_some_none_eq_some.mp hstep
              exact .wake_goto id
          | _ => simp [hpc] at hstep
      | none =>
          simp only [step] at hstep
          cases hpc : b.pc t with
          | notifying call item =>
              simp only [hpc] at hstep
              obtain ⟨-, rfl⟩ := Option.ite_some_none_eq_some.mp hstep
              exact .goto id
          | _ => simp [hpc] at hstep
  | destroy t =>
      simp only [step] at hstep
      cases hpc : b.pc t with
      | leaving call item =>
          simp only [hpc, Option.some.injEq] at hstep
          subst hstep
          exact .destroy
      | _ => simp [hpc] at hstep

theorem inv_step {a : BufferAction α n} (h : b.Inv) (hquiet : b.QuietDestructor a)
    (hstep : step capacity b a = some b') : b'.Inv := by
  cases effect_of_step hstep with
  | outside hpc =>
      exact Guarded.of_subset h fun u hu => (hpc u).elim (· ▸ hu) fun hout => absurd hu hout
  | acquire hlocked _ => exact Guarded.acquire (hlocked ▸ h)
  | enter hin _ => exact Guarded.move h hin
  | release hin hp => exact Guarded.release h hin hp false
  | @push t item hpc =>
      have hin : (b.pc t).Holding := by rw [hpc]; trivial
      exact Guarded.move h hin
  | @pop t hpc =>
      have hin : (b.pc t).Holding := by rw [hpc]; trivial
      exact Guarded.move h hin
  | destroy =>
      exact Guarded.of_none_inside false fun u hu =>
        hquiet u (Guarded.inside_update id hu).2

theorem exclusive_of_quiet {schedule : List (BufferAction α n)}
    (hrun : run capacity schedule = some b)
    (hquiet : EachStep (step capacity) QuietDestructor (initial α n) schedule) :
    Exclusive BufferPc.Holding b.pc :=
  (runs_inv_of_each Inv inv_initial (fun _ _ _ => inv_step) hrun hquiet).exclusive

theorem holding_of_step {a : BufferAction α n} (hstep : step capacity b a = some b')
    (ha : ∀ t, a ≠ .destroy t) : b.UnlocksHeld a := by
  cases a with
  | test t =>
      simp only [step] at hstep
      cases hpc : b.pc t with
      | testing call => rw [UnlocksHeld, hpc]; trivial
      | _ => simp [hpc] at hstep
  | unlock t =>
      simp only [step] at hstep
      cases hpc : b.pc t with
      | unlocking call item => rw [UnlocksHeld, hpc]; trivial
      | _ => simp [hpc] at hstep
  | destroy t => exact absurd rfl (ha t)
  | _ => trivial

theorem not_holding_of_destroy {t : Fin n} (hstep : step capacity b (.destroy t) = some b') :
    ¬b.UnlocksHeld (.destroy t) := by
  simp only [step] at hstep
  cases hpc : b.pc t with
  | leaving call item => rw [UnlocksHeld, hpc]; exact id
  | _ => simp [hpc] at hstep

/--
The lock excludes and is unlocked only by its holder exactly as long as no call
has run the destructor of its `unique_lock`.
-/
theorem mutualExclusion_iff (capacity n : Nat) (schedule : List (BufferAction α n))
    (b : BoundedBuffer α n) (hrun : run capacity schedule = some b) :
    ((∀ before c, before <+: schedule → run capacity before = some c →
        Exclusive BufferPc.Holding c.pc) ∧
      EachStep (step capacity) UnlocksHeld (initial α n) schedule) ↔
    ∀ t, .destroy t ∉ schedule := by
  constructor
  · rintro ⟨-, hheld⟩ t hmem
    obtain ⟨before, after, rfl⟩ := List.append_of_mem hmem
    obtain ⟨c, d, hc, hd, -⟩ := runs_split hrun
    exact not_holding_of_destroy hd (hheld before (.destroy t) c ⟨after, by simp⟩ hc)
  · intro hnone
    have hother : ∀ before (a : BufferAction α n), before ++ [a] <+: schedule →
        ∀ t, a ≠ .destroy t := by
      rintro before a ⟨after, rfl⟩ t rfl
      exact hnone t (by simp)
    constructor
    · intro before c hbegins hc
      refine exclusive_of_quiet hc fun as a d has _ => ?_
      have ha := hother as a (has.trans hbegins)
      cases a with
      | destroy t => exact absurd rfl (ha t)
      | _ => trivial
    · rintro before a c ⟨after, rfl⟩ hc
      obtain ⟨d, e, hd, he, -⟩ := runs_split (List.append_assoc before [a] after ▸ hrun)
      obtain rfl : c = d := Option.some.inj (hc.symm.trans hd)
      exact holding_of_step he (hother before a ⟨after, rfl⟩)

def onePush (n : Nat) (t : Fin n) (item : Nat) : List (BufferAction Nat n) :=
  [.call t (.pushFront item), .lock t, .test t, .body t, .unlock t, .notify t none]

theorem mutualExclusion_iff_example :
    ∃ b, run 2 (onePush 2 0 7 ++ [.call 1 .popBack, .lock 1, .test 1]) = some b ∧
      Exclusive BufferPc.Holding b.pc := by
  have hsome : (run 2 (onePush 2 0 7 ++ [.call 1 .popBack, .lock 1, .test 1])).isSome := by
    decide +kernel
  obtain ⟨b, hb⟩ := Option.isSome_iff_exists.mp hsome
  exact ⟨b, hb, ((mutualExclusion_iff 2 2 _ b hb).mpr (by decide +kernel)).1 _ b
    (List.prefix_refl _) hb⟩

/-- The destructor of thread 0 clears the flag of thread 1, and thread 2 comes in as well. -/
theorem not_exclusive : ¬∀ (capacity n : Nat) (schedule : List (BufferAction Nat n))
    (b : BoundedBuffer Nat n), run capacity schedule = some b →
      Exclusive BufferPc.Holding b.pc ∧
        EachStep (step capacity) UnlocksHeld (initial Nat n) schedule := by
  intro h
  have hpc : (run 2 (onePush 3 0 7 ++ [.call 1 .popBack, .call 2 .popBack, .lock 1,
      .destroy 0, .lock 2])).map (fun b => (b.pc 1, b.pc 2)) =
        some (.testing .popBack, .testing .popBack) := by decide +kernel
  obtain ⟨b, hb, heq⟩ := Option.map_eq_some_iff.mp hpc
  rw [Prod.mk.injEq] at heq
  have hsame := (h _ _ _ b hb).1 1 2 (by rw [heq.1]; trivial) (by rw [heq.2]; trivial)
  exact absurd hsame (by decide)

end BoundedBuffer

end ExplorerKV.Util

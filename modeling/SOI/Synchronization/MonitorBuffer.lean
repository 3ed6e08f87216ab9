import SOI.Library.Runs
import SOI.Library.Tally
import SOI.Synchronization.Primitives

/-! # The monitor buffer as a step function

Any number of threads, each calling one procedure of the buffer over and over.
Semaphore operations, the accesses to `values` and those to `waitingCount` are
single steps. `putA`, `putB` and `get` are one procedure with three parameters.
-/
namespace SOI.MonitorBuffer
open Synchronization

inductive Cond
  | A
  | B
  | C
  deriving DecidableEq, Repr

/-- The guard under which the buffer signals a condition, which is also the
guard of the procedure that waits on it. -/
def can : Cond → Guard
  | .A => canA
  | .B => canB
  | .C => canCons

/-- Program points, named by the access made there. A pending signal carries the
conditions still to be considered after it. -/
inductive PC
  | idle
  | enter
  | test (todo : Guard)
  | countWaiter
  | leaveToWait
  | wait
  | push
  | front
  | erase
  | display
  | testSignal (c : Cond) (todo : Guard) (rest : List Cond)
  | testCount (c : Cond) (rest : List Cond)
  | uncount (c : Cond) (rest : List Cond)
  | post (c : Cond) (rest : List Cond)
  | reenter (rest : List Cond)
  | leave
  deriving DecidableEq, Repr

/-- What the three procedures differ in: the condition awaited, the first access
to `values`, and the conditions signalled, in source order. -/
structure Procedure where
  own : Cond
  action : PC
  signals : List Cond

def putA : Procedure := ⟨.A,.push,[.B,.C]⟩
def putB : Procedure := ⟨.B,.push,[.A,.C]⟩
def get : Procedure := ⟨.C,.front,[.A,.B]⟩

inductive Role
  | putA
  | putB
  | get
  deriving DecidableEq, Repr

def Role.procedure : Role → Procedure
  | .putA => MonitorBuffer.putA
  | .putB => MonitorBuffer.putB
  | .get => MonitorBuffer.get

/-- The monitor semaphore `s`, the conditions, the buffer, and the program point
and locals of every thread; `pushed` and `removed` record the history. -/
structure State (τ : Type) where
  s : ℕ
  w : Cond → ℕ
  waitingCount : Cond → ℤ
  values : List Char
  pc : τ → PC
  value : τ → Char
  front : τ → Option Char
  pushed : List Char
  removed : List Char

variable {τ : Type}

def initial : State τ where
  s := 1
  w _ := 0
  waitingCount _ := 0
  values := []
  pc _ := .idle
  value _ := 'A'
  front _ := none
  pushed := []
  removed := []

def after : List Cond → PC
  | [] => .leave
  | c :: rest => .testSignal c (can c) rest

variable [DecidableEq τ]

def State.go (m : State τ) (t : τ) (pc : PC) : State τ := { m with pc := Function.update m.pc t pc }

/-- One step of a thread; `arg` is the argument of the call it starts when it is
between two calls. -/
def step (role : τ → Role) (m : State τ) (k : τ × Char) : Option (State τ) :=
  let t := k.1
  let own := (role t).procedure.own
  match m.pc t with
  | .idle => some { m.go t .enter with value := Function.update m.value t k.2 }
  | .enter => (p m.s).map fun n => { m.go t (.test (can own)) with s := n }
  | .test [] => some (m.go t (role t).procedure.action)
  | .test (c :: todo) =>
      if c.holds m.values.length then some (m.go t (.test todo)) else some (m.go t .countWaiter)
  -- Monitor::wait: count the waiter, release the monitor, then sleep
  | .countWaiter => some { m.go t .leaveToWait with
      waitingCount := Function.update m.waitingCount own (m.waitingCount own + 1) }
  | .leaveToWait => some { m.go t .wait with s := v m.s }
  | .wait => (p (m.w own)).map fun n =>
      { m.go t (role t).procedure.action with w := Function.update m.w own n }
  | .push => some { m.go t .display with
      values := m.values ++ [m.value t], pushed := m.pushed ++ [m.value t] }
  | .front => some { m.go t .erase with front := Function.update m.front t m.values.head? }
  | .erase => some { m.go t .display with
      values := m.values.tail, removed := m.removed ++ (m.front t).toList }
  | .display => some (m.go t (after (role t).procedure.signals))
  | .testSignal c [] rest => some (m.go t (.testCount c rest))
  | .testSignal c (x :: todo) rest =>
      if x.holds m.values.length then some (m.go t (.testSignal c todo rest))
      else some (m.go t (after rest))
  -- Condition::signal and Monitor::signal: wake one waiter, then queue for re-entry
  | .testCount c rest =>
      if m.waitingCount c ≠ 0 then some (m.go t (.uncount c rest)) else some (m.go t (after rest))
  | .uncount c rest => some { m.go t (.post c rest) with
      waitingCount := Function.update m.waitingCount c (m.waitingCount c - 1) }
  | .post c rest => some { m.go t (.reenter rest) with w := Function.update m.w c (v (m.w c)) }
  | .reenter rest => (p m.s).map fun n => { m.go t (after rest) with s := n }
  | .leave => some { m.go t .idle with s := v m.s }

inductive Moves (role : τ → Role) (m : State τ) (t : τ) (arg : Char) : State τ → Prop
  | idle (hp : m.pc t = .idle) : Moves role m t arg { m.go t .enter with value := Function.update m.value t arg }
  | enter {n : ℕ} (hp : m.pc t = .enter) (hn : m.s = n + 1) :
      Moves role m t arg { m.go t (.test (can (role t).procedure.own)) with s := n }
  | passes (hp : m.pc t = .test []) : Moves role m t arg (m.go t (role t).procedure.action)
  | testHolds {c : Comparison} {todo : Guard} (hp : m.pc t = .test (c :: todo)) (hc : c.holds m.values.length = true) :
      Moves role m t arg (m.go t (.test todo))
  | testFails {c : Comparison} {todo : Guard} (hp : m.pc t = .test (c :: todo)) (hc : c.holds m.values.length = false) :
      Moves role m t arg (m.go t .countWaiter)
  | countWaiter (hp : m.pc t = .countWaiter) : Moves role m t arg { m.go t .leaveToWait with
      waitingCount := Function.update m.waitingCount (role t).procedure.own (m.waitingCount (role t).procedure.own + 1) }
  | leaveToWait (hp : m.pc t = .leaveToWait) : Moves role m t arg { m.go t .wait with s := v m.s }
  | wait {n : ℕ} (hp : m.pc t = .wait) (hn : m.w (role t).procedure.own = n + 1) :
      Moves role m t arg { m.go t (role t).procedure.action with w := Function.update m.w (role t).procedure.own n }
  | push (hp : m.pc t = .push) : Moves role m t arg { m.go t .display with
      values := m.values ++ [m.value t], pushed := m.pushed ++ [m.value t] }
  | front (hp : m.pc t = .front) :
      Moves role m t arg { m.go t .erase with front := Function.update m.front t m.values.head? }
  | erase (hp : m.pc t = .erase) : Moves role m t arg { m.go t .display with
      values := m.values.tail, removed := m.removed ++ (m.front t).toList }
  | display (hp : m.pc t = .display) : Moves role m t arg (m.go t (after (role t).procedure.signals))
  | signals {c : Cond} {rest : List Cond} (hp : m.pc t = .testSignal c [] rest) :
      Moves role m t arg (m.go t (.testCount c rest))
  | signalHolds {c : Cond} {x : Comparison} {todo : Guard} {rest : List Cond} (hp : m.pc t = .testSignal c (x :: todo) rest)
      (hx : x.holds m.values.length = true) : Moves role m t arg (m.go t (.testSignal c todo rest))
  | signalFails {c : Cond} {x : Comparison} {todo : Guard} {rest : List Cond} (hp : m.pc t = .testSignal c (x :: todo) rest)
      (hx : x.holds m.values.length = false) : Moves role m t arg (m.go t (after rest))
  | anyWaiter {c : Cond} {rest : List Cond} (hp : m.pc t = .testCount c rest) (hc : m.waitingCount c ≠ 0) :
      Moves role m t arg (m.go t (.uncount c rest))
  | noWaiter {c : Cond} {rest : List Cond} (hp : m.pc t = .testCount c rest) (hc : m.waitingCount c = 0) :
      Moves role m t arg (m.go t (after rest))
  | uncount {c : Cond} {rest : List Cond} (hp : m.pc t = .uncount c rest) : Moves role m t arg { m.go t (.post c rest) with
      waitingCount := Function.update m.waitingCount c (m.waitingCount c - 1) }
  | post {c : Cond} {rest : List Cond} (hp : m.pc t = .post c rest) :
      Moves role m t arg { m.go t (.reenter rest) with w := Function.update m.w c (v (m.w c)) }
  | reenter {n : ℕ} {rest : List Cond} (hp : m.pc t = .reenter rest) (hn : m.s = n + 1) :
      Moves role m t arg { m.go t (after rest) with s := n }
  | leave (hp : m.pc t = .leave) : Moves role m t arg { m.go t .idle with s := v m.s }

/-- Inside the monitor: entered and neither gone to sleep nor handed over. -/
def PC.active : PC → Bool
  | .idle | .enter | .wait | .reenter _ => false
  | _ => true

@[simp] theorem active_after (cs : List Cond) : (after cs).active = true := by
  cases cs <;> rfl

@[simp] theorem active_action (r : Role) : r.procedure.action.active = true := by
  cases r <;> rfl

theorem step_moves {role : τ → Role} {m m' : State τ} {t : τ} {arg : Char} (h : step role m (t,arg) = some m') :
    Moves role m t arg m' := by
  cases hp : m.pc t with
  | idle =>
    simp only [step, hp] at h
    cases h
    exact .idle hp
  | enter =>
    simp only [step, hp, Option.map_eq_some_iff, p_eq_some] at h
    obtain ⟨n,hn,rfl⟩ := h
    exact .enter hp hn
  | test todo =>
    cases todo with
    | nil =>
      simp only [step, hp] at h
      cases h
      exact .passes hp
    | cons c todo =>
      simp only [step, hp] at h
      split at h <;> cases h
      · next hc => exact .testHolds hp hc
      · next hc => exact .testFails hp (Bool.eq_false_of_not_eq_true hc)
  | countWaiter =>
    simp only [step, hp] at h
    cases h
    exact .countWaiter hp
  | leaveToWait =>
    simp only [step, hp] at h
    cases h
    exact .leaveToWait hp
  | wait =>
    simp only [step, hp, Option.map_eq_some_iff, p_eq_some] at h
    obtain ⟨n,hn,rfl⟩ := h
    exact .wait hp hn
  | push =>
    simp only [step, hp] at h
    cases h
    exact .push hp
  | front =>
    simp only [step, hp] at h
    cases h
    exact .front hp
  | erase =>
    simp only [step, hp] at h
    cases h
    exact .erase hp
  | display =>
    simp only [step, hp] at h
    cases h
    exact .display hp
  | testSignal c todo rest =>
    cases todo with
    | nil =>
      simp only [step, hp] at h
      cases h
      exact .signals hp
    | cons x todo =>
      simp only [step, hp] at h
      split at h <;> cases h
      · next hx => exact .signalHolds hp hx
      · next hx => exact .signalFails hp (Bool.eq_false_of_not_eq_true hx)
  | testCount c rest =>
    simp only [step, hp] at h
    split at h <;> cases h
    · next hc => exact .anyWaiter hp hc
    · next hc => exact .noWaiter hp (not_not.mp hc)
  | uncount c rest =>
    simp only [step, hp] at h
    cases h
    exact .uncount hp
  | post c rest =>
    simp only [step, hp] at h
    cases h
    exact .post hp
  | reenter rest =>
    simp only [step, hp, Option.map_eq_some_iff, p_eq_some] at h
    obtain ⟨n,hn,rfl⟩ := h
    exact .reenter hp hn
  | leave =>
    simp only [step, hp] at h
    cases h
    exact .leave hp

end SOI.MonitorBuffer

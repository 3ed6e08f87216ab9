import SOI.Library.Linked

/-! # The process table and the ready queues

Processes are the slots `ρ` of the process table. The queues are linked through
the slots themselves, as in the kernel. An operation gives `none` where the
kernel would panic or follow a null pointer; the loops of `sched` take the number
of turns they may make.
-/
namespace SOI.Scheduling

/-- The three ready queues, by falling priority. -/
inductive Queue
  | TASK_Q
  | SERVER_Q
  | USER_Q
  deriving DecidableEq, Repr

inductive Priority
  | PPRI_NONE
  | PPRI_TASK
  | PPRI_SERVER
  | PPRI_USER
  | PPRI_IDLE
  deriving DecidableEq, Repr

/-- Whom a receiver accepts a message from. -/
inductive Source (ρ : Type)
  | ANY
  | HARDWARE
  | proc (nr : ρ)
  deriving DecidableEq, Repr

/-- The bits of `p_flags`; a process is runnable when none is set. -/
structure Flags where
  NO_MAP : Bool := false
  SENDING : Bool := false
  RECEIVING : Bool := false
  PENDING : Bool := false
  SIG_PENDING : Bool := false
  P_STOP : Bool := false
  deriving DecidableEq, Repr

def STACK_GUARD : ℕ := 0xDEADBEEF

structure Proc (ρ : Type) where
  p_stguard : ℕ := STACK_GUARD
  p_int_blocked : Bool := false
  p_int_held : Bool := false
  p_nextheld : Option ρ := none
  p_flags : Flags := {}
  p_pid : ℤ := 0
  p_priority : Priority := .PPRI_NONE
  user_time : ℕ := 0
  sys_time : ℕ := 0
  p_alarm : ℕ := 0
  p_getfrom : Source ρ := .ANY
  p_nextready : Option ρ := none
  group : ℤ := 0
  deriving DecidableEq, Repr

/-- The slots that the kernel addresses by number. -/
structure Slots (ρ : Type) where
  IDLE : ρ
  CLOCK : ρ
  HARDWARE : ρ

structure Table (ρ : Type) where
  proc : ρ → Proc ρ
  rdy_head : Queue → Option ρ := fun _ => none
  rdy_tail : Queue → Option ρ := fun _ => none
  proc_ptr : ρ
  bill_ptr : ρ
  switching : Bool := false

/-- The slots of the tables in the examples. -/
inductive Slot
  | system | a | b | c
  deriving DecidableEq, Repr

instance : Fintype Slot := ⟨{.system,.a,.b,.c},fun rp => by cases rp <;> decide⟩

variable {ρ : Type}

def Table.next (k : Table ρ) (rp : ρ) : Option ρ := (k.proc rp).p_nextready

def Table.setHead (k : Table ρ) (q : Queue) (rp : Option ρ) : Table ρ :=
  { k with rdy_head := Function.update k.rdy_head q rp }

def Table.setTail (k : Table ρ) (q : Queue) (rp : Option ρ) : Table ρ :=
  { k with rdy_tail := Function.update k.rdy_tail q rp }

def istaskp (k : Table ρ) (rp : ρ) : Bool := (k.proc rp).p_priority = .PPRI_TASK
def isservp (k : Table ρ) (rp : ρ) : Bool := (k.proc rp).p_priority = .PPRI_SERVER

/-- The queue that `ready` and `unready` use for a process. -/
def queueOf (k : Table ρ) (rp : ρ) : Queue :=
  if istaskp k rp then .TASK_Q else if isservp k rp then .SERVER_Q else .USER_Q

/-- Decide who to run now. -/
def pick_proc (slots : Slots ρ) (k : Table ρ) : Table ρ :=
  match k.rdy_head .TASK_Q with
  | some rp => { k with proc_ptr := rp }
  | none =>
    match k.rdy_head .SERVER_Q with
    | some rp => { k with proc_ptr := rp }
    | none =>
      match k.rdy_head .USER_Q with
      | some rp => { k with proc_ptr := rp, bill_ptr := rp }
      | none => { k with proc_ptr := slots.IDLE, bill_ptr := slots.IDLE }

variable [DecidableEq ρ]

def Table.setProc (k : Table ρ) (rp : ρ) (f : Proc ρ → Proc ρ) : Table ρ :=
  { k with proc := Function.update k.proc rp (f (k.proc rp)) }

theorem proc_setProc_self (k : Table ρ) (rp : ρ) (f : Proc ρ → Proc ρ) : (k.setProc rp f).proc rp = f (k.proc rp) :=
  Function.update_self ..

theorem proc_setProc_of_ne (k : Table ρ) {p rp : ρ} (h : p ≠ rp) (f : Proc ρ → Proc ρ) :
    (k.setProc rp f).proc p = k.proc p :=
  Function.update_of_ne h _ _

theorem kept_setProc {α : Type} (field : Proc ρ → α) {k : Table ρ} {rp : ρ} {f : Proc ρ → Proc ρ}
    {p : ρ} (hf : field (f (k.proc rp)) = field (k.proc rp)) : field ((k.setProc rp f).proc p) = field (k.proc p) := by
  by_cases hp : p = rp
  · rw [hp, proc_setProc_self, hf]
  · rw [proc_setProc_of_ne _ hp]

def Table.setNext (k : Table ρ) (rp : ρ) (next : Option ρ) : Table ρ :=
  k.setProc rp fun p => { p with p_nextready := next }

/-- `if (rdy_tail[q] == rp) rdy_tail[q] = xp;` -/
def Table.cutTail (k : Table ρ) (q : Queue) (rp xp : ρ) : Table ρ :=
  if k.rdy_tail q = some rp then k.setTail q (some xp) else k

/-- Add to the end of a queue, whose tail is only meaningful when it has a head. -/
def append (k : Table ρ) (q : Queue) (rp : ρ) : Option (Table ρ) :=
  (match k.rdy_head q with
    | some _ => (k.rdy_tail q).map fun tail => k.setNext tail (some rp)
    | none => some (k.setHead q (some rp))).map fun k : Table ρ => (k.setTail q (some rp)).setNext rp none

/-- A fresh task is run next when no other task is ready. -/
def readyTask (k : Table ρ) (rp : ρ) : Option (Table ρ) :=
  append (if k.rdy_head .TASK_Q = none then { k with proc_ptr := rp } else k) .TASK_Q rp

/-- This process is now runnable; user processes go to the front of their queue. -/
def ready (k : Table ρ) (rp : ρ) : Option (Table ρ) :=
  if istaskp k rp then readyTask k rp
  else if isservp k rp then append k .SERVER_Q rp
  else
    let k := if k.rdy_head .USER_Q = none then k.setTail .USER_Q (some rp) else k
    some ((k.setNext rp (k.rdy_head .USER_Q)).setHead .USER_Q (some rp))

/-- `while (xp->p_nextready != rp)`: the predecessor of `rp`, if `rp` is queued
behind `xp`. -/
def predecessor (k : Table ρ) (rp : ρ) : ℕ → ρ → Option (Option ρ)
  | 0, _ => none
  | fuel + 1, xp =>
    match k.next xp with
    | none => some none
    | some node => if node = rp then some (some xp) else predecessor k rp fuel node

/-- Take a process out of the body of a queue whose head it is not. -/
def removeBehind (k : Table ρ) (q : Queue) (xp rp : ρ) (fuel : ℕ) : Option (Table ρ) :=
  (predecessor k rp fuel xp).map fun found =>
    match found with
    | none => k
    | some xp => (k.setNext xp (k.next rp)).cutTail q rp xp

/-- A process has blocked. Removing the head of the server or user queue picks a
process in any case, removing a task only when it was running. -/
def unready (slots : Slots ρ) (fuel : ℕ) (k : Table ρ) (rp : ρ) : Option (Table ρ) :=
  if istaskp k rp && (k.proc rp).p_stguard != STACK_GUARD then none
  else
    let q := queueOf k rp
    match k.rdy_head q with
    | none => some k
    | some xp =>
      if xp = rp then
        let removed := k.setHead q (k.next xp)
        if istaskp k rp && rp != k.proc_ptr then some removed else some (pick_proc slots removed)
      else removeBehind k q xp rp fuel

/-- `while (prev_node->p_nextready != NULL && prev_node->p_nextready->group != group)` -/
def seek (k : Table ρ) (group : ℤ) : ℕ → ρ → Option ρ
  | 0, _ => none
  | fuel + 1, prev_node =>
    match k.next prev_node with
    | none => some prev_node
    | some node => if (k.proc node).group ≠ group then seek k group fuel node else some prev_node

/-- Move the first process of the group, if there is one, to the front of the
user queue with this head. -/
def promote (k : Table ρ) (fuel : ℕ) (head : ρ) (group : ℤ) : Option (Table ρ) :=
  if (k.proc head).group ≠ group then
    (seek k group fuel head).map fun prev_node =>
      match k.next prev_node with
      | none => k
      | some node =>
        let k := (k.setNext prev_node (k.next node)).cutTail .USER_Q node prev_node
        (k.setNext node (some head)).setHead .USER_Q (some node)
  else some k

/-- The `do` loop: try the groups in cyclic order until one has the head. -/
def nextGroup (fuel : ℕ) : ℕ → ℤ → Table ρ → Option (Table ρ)
  | 0, _, _ => none
  | turns + 1, group, k => do
    let group := (group + 1).tmod 3
    let head ← k.rdy_head .USER_Q
    let k ← promote k fuel head group
    let head ← k.rdy_head .USER_Q
    if (k.proc head).group ≠ group then nextGroup fuel turns group k else some k

/-- Put the current head at the end of the user queue. -/
def rotate (k : Table ρ) (head : ρ) : Option (Table ρ) :=
  (k.rdy_tail .USER_Q).map fun tail =>
    let k := k.setNext tail (some head)
    let k := k.setTail .USER_Q (some head)
    let k := k.setHead .USER_Q (k.next head)
    k.setNext head none

/-- The current process has run too long. -/
def sched (slots : Slots ρ) (fuel : ℕ) (k : Table ρ) : Option (Table ρ) :=
  match k.rdy_head .USER_Q with
  | none => some k
  | some head => do
    let group := (k.proc head).group
    let k ← rotate k head
    let k ← nextGroup fuel fuel group k
    some (pick_proc slots k)

/-- Safe gateway to `sched` for tasks. -/
def lock_sched (slots : Slots ρ) (fuel : ℕ) (k : Table ρ) : Option (Table ρ) :=
  (sched slots fuel { k with switching := true }).map fun k => { k with switching := false }

end SOI.Scheduling

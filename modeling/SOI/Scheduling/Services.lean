import SOI.Scheduling.Messages

/-! # The kernel as a state machine

What the system task does to the state of the processes for MM and FS, the flushing
of held-up interrupts, and one step of the kernel for each of its entries. The
registers and the name of a process are left out.
-/
namespace SOI.Scheduling
open Rendezvous
variable {ρ : Type}

/-- The requests of `do_trace` that stop a process or let it go on. -/
inductive Trace
  | T_STOP
  | T_RESUME
  | T_STEP
  deriving DecidableEq, Repr

/-- What `do_fork` and `do_xit` work on. -/
def System.processes (s : System ρ) : Processes ρ := ⟨s.table,s.rest,s.sig_procs⟩

def System.withProcesses (s : System ρ) (k : Processes ρ) : System ρ :=
  { s.withTable k.table with rest := k.rest, sig_procs := k.sig_procs }

variable [DecidableEq ρ]

/-- `m_ptr->PROC1` has forked. The child is `m_ptr->PROC2`. -/
def System.do_fork (s : System ρ) (PROC1 PROC2 : ρ) (PID : ℤ) : Option (System ρ) :=
  (Scheduling.do_fork s.processes PROC1 PROC2 PID).map fun k =>
    (s.withProcesses k).setPost PROC2 fun _ => s.post PROC1

/-- Install the memory map that MM has for process `k`. -/
def System.do_newmap (s : System ρ) (k : ρ) (map : MemMap) : Option (System ρ) :=
  let old_flags := s.flags k
  let s := s.setPost k fun p => { p with p_map := map }
  let s := s.setFlags k fun f => { f with NO_MAP := false }
  if old_flags ≠ {} then s.whenRunnable k fun t => lock_ready t k else some s

/-- A process has done a successful EXEC; `PROC2` says whether it is being traced. -/
def System.do_exec (c : Config ρ) (s : System ρ) (PROC1 : ρ) (PROC2 : Bool) : Option (System ρ) :=
  if isuserp s.table PROC1 then
    (if PROC2 then cause_sig c s PROC1 c.SIGTRAP else some s).bind fun s =>
      let s := s.setFlags PROC1 fun f => { f with RECEIVING := false }
      s.whenRunnable PROC1 fun t => lock_ready t PROC1
  else none

/-- A process has exited; a message it was sending is lost. -/
def System.do_xit (c : Config ρ) (s : System ρ) (parent proc_nr : ρ) : Option (System ρ) :=
  (Scheduling.do_xit c.slots c.order c.fuel s.processes parent proc_nr).map fun k =>
    let s' := s.withProcesses k
    if (s.flags proc_nr).SENDING then
      let p := s.post proc_nr
      { s' with log := s'.log ++ [Event.dropped proc_nr p.p_sendto (s.letter c proc_nr p.p_messbuf)] }
    else s'

/-- Cause a signal to be sent to a process via MM. -/
def System.do_kill (c : Config ρ) (s : System ρ) (PR : ρ) (SIGNUM : ℕ) : Option (System ρ) :=
  if isuserp s.table PR then cause_sig c s PR SIGNUM else none

/-- MM has finished one signal; nothing happens if the process is already dead. -/
def System.do_endsig (s : System ρ) (PROC1 : ρ) : Option (System ρ) :=
  if isemptyp s.table PROC1 then some s
  else if isuserp s.table PROC1 then
    if (s.rest PROC1).p_pendcount ≠ 0 then
      let s := s.setRest PROC1 fun r => { r with p_pendcount := r.p_pendcount - 1 }
      if (s.rest PROC1).p_pendcount = 0 then
        let s := s.setFlags PROC1 fun f => { f with SIG_PENDING := false }
        s.whenRunnable PROC1 fun t => lock_ready t PROC1
      else some s
    else some s
  else none

/-- Handle the debugging commands that concern the flags. -/
def System.do_trace (c : Config ρ) (s : System ρ) (TR_PROCNR : ρ) (TR_REQUEST : Trace) : Option (System ρ) :=
  if isemptyp s.table TR_PROCNR then some s
  else
    match TR_REQUEST with
    | .T_STOP =>
      (s.whenRunnable TR_PROCNR fun t => lock_unready c.slots c.fuel t TR_PROCNR).map fun s =>
        s.setFlags TR_PROCNR fun f => { f with P_STOP := true }
    | .T_RESUME | .T_STEP =>
      (s.setFlags TR_PROCNR fun f => { f with P_STOP := false }).whenRunnable TR_PROCNR fun t => lock_ready t TR_PROCNR

/-- One turn of the loop of `unhold`, for the head of the held queue. -/
def System.unholdOne (s : System ρ) (rp : ρ) : Option (System ρ) :=
  let held_head := (s.table.proc rp).p_nextheld
  let k := { s.kernel with
    held_head := held_head, held_tail := if held_head = none then none else s.kernel.held_tail }
  ({ s with kernel := k }.setProc rp fun p => { p with p_int_held := false }).interrupt 0 rp

/-- `do { .. } while ((rp = held_head) != NIL_PROC);` -/
def System.unholdLoop : ℕ → System ρ → Option (System ρ)
  | 0, _ => none
  | fuel + 1, s =>
    match s.kernel.held_head with
    | none => some s
    | some rp => (s.unholdOne rp).bind (System.unholdLoop fuel)

def System.unhold (c : Config ρ) (s : System ρ) : Option (System ρ) :=
  if s.table.switching then some s
  else s.kernel.held_head.bind fun _ => System.unholdLoop c.fuel s

/-- What `main` makes of a slot in the boot image. -/
def Config.bootPriority (c : Config ρ) (rp : ρ) : Priority :=
  if c.p_nr rp < 0 then .PPRI_TASK else if c.p_nr rp < c.LOW_USER then .PPRI_SERVER else .PPRI_USER

def Config.isidlehardware (c : Config ρ) (rp : ρ) : Bool := rp = c.slots.IDLE || rp = c.slots.HARDWARE

/-- IDLE and HARDWARE are never ready. -/
def Config.bootSlot (c : Config ρ) (t : Table ρ) (rp : ρ) : Option (Table ρ) :=
  let t := t.setProc rp fun p => { p with p_priority := c.bootPriority rp }
  (if !c.isidlehardware rp then lock_ready t rp else some t).map fun t =>
    t.setProc rp fun p => { p with p_flags := {} }

/-- Set up the process table and start the ball rolling; `e_hdr` are the memory
maps of the boot image. -/
def main (c : Config ρ) (quants : Fin 3 → ℤ) (e_hdr : ρ → MemMap) (memory : ρ → ℕ → Letter ρ) : Option (System ρ) :=
  let image := c.order.take (c.NR_TASKS + c.LOW_USER + 1)
  let cleared : Table ρ := { proc := fun _ => {}, proc_ptr := c.slots.IDLE, bill_ptr := c.slots.IDLE }
  (image.foldlM c.bootSlot cleared).map fun t =>
    let t := t.setProc c.INIT_PROC_NR fun p => { p with p_pid := 1 }
    let t := t.setProc c.slots.IDLE fun p => { p with p_priority := .PPRI_IDLE }
    { kernel := { table := lock_pick_proc c.slots t, quants := quants, sched_ticks := 0 }
      post := fun rp => { p_sendto := c.MM_PROC_NR, p_map := e_hdr rp }
      memory := memory }

/-- What happens to the kernel: a trap, an interrupt or a turn of the loop that
repeats the held-up ones, and what the tasks do with the process table. Between its
entries the processes write messages. -/
inductive KernelOp (ρ : Type)
  | sys_call (function : FunctionCode) (src_dest : Option (Source ρ)) (m_ptr : ℕ)
  | store (rp : ρ) (m_ptr : ℕ) (m : Letter ρ)
  | interrupt (k_reenter : ℤ) (task : ρ)
  | unhold
  | lock_sched
  | do_fork (PROC1 PROC2 : ρ) (PID : ℤ)
  | do_newmap (k : ρ) (map : MemMap)
  | do_exec (PROC1 : ρ) (PROC2 : Bool)
  | do_xit (parent proc_nr : ρ)
  | do_kill (PR : ρ) (SIGNUM : ℕ)
  | do_endsig (PROC1 : ρ)
  | do_trace (TR_PROCNR : ρ) (TR_REQUEST : Trace)
  | SYSSIGNON (proc_nr : ρ) (priv copied : Bool)
  | do_setGroup (m : Message)

def kernelStep (c : Config ρ) (s : System ρ) : KernelOp ρ → Option (System ρ)
  | .sys_call function src_dest m_ptr => (sys_call c s function src_dest m_ptr).map Prod.snd
  | .store rp m_ptr m => some (s.store rp m_ptr m)
  | .interrupt k_reenter task =>
    ({ s with interrupts := s.interrupts ++ [Interrupt.raised task] } : System ρ).interrupt k_reenter task
  | .unhold => s.kernel.held_head.bind s.unholdOne
  | .lock_sched => s.onTable (Scheduling.lock_sched c.slots c.fuel)
  | .do_fork PROC1 PROC2 PID => s.do_fork PROC1 PROC2 PID
  | .do_newmap k map => s.do_newmap k map
  | .do_exec PROC1 PROC2 => s.do_exec c PROC1 PROC2
  | .do_xit parent proc_nr => s.do_xit c parent proc_nr
  | .do_kill PR SIGNUM => s.do_kill c PR SIGNUM
  | .do_endsig PROC1 => s.do_endsig PROC1
  | .do_trace TR_PROCNR TR_REQUEST => s.do_trace c TR_PROCNR TR_REQUEST
  | .SYSSIGNON proc_nr priv copied =>
    some (s.withProcesses (do_sysctl_SYSSIGNON s.processes proc_nr priv copied).2)
  | .do_setGroup m => some (s.withTable (Scheduling.do_setGroup c.order s.table m).2)

def signals (set : ℕ) : Finset ℕ := (Finset.range (set + 1)).filter fun sig => set.testBit sig

def System.taskRuns (s : System ρ) : Bool := istaskp s.table s.table.proc_ptr

/-- What the kernel trusts its callers with. Tasks and servers send to other
processes; the system task works for MM only on processes that are there, and lets
go only those that were held: a process forks or exits when nobody is blocked
sending to it, it does an EXEC or signs on as a server while it waits for MM, and
signals are finished after MM was told about them. -/
def Legal (c : Config ρ) (s : System ρ) : KernelOp ρ → Prop
  | .sys_call function src_dest _ =>
    s.table.proc_ptr ≠ c.slots.IDLE ∧ (isuserp s.table s.table.proc_ptr ∨ function = .RECEIVE ∨
      src_dest ≠ some .ANY ∧ src_dest ≠ some .HARDWARE ∧ src_dest ≠ some (.proc c.slots.HARDWARE) ∧
        src_dest ≠ some (.proc s.table.proc_ptr))
  | .store rp _ _ => (s.flags rp).SENDING = false
  | .interrupt _ task => istaskp s.table task ∧ task ≠ c.slots.HARDWARE
  | .unhold => s.kernel.held_head ≠ none
  | .lock_sched => True
  | .do_fork PROC1 PROC2 _ => isuserp s.table PROC1 ∧ isemptyp s.table PROC2 ∧ (s.flags PROC1).SENDING = false ∧
      (s.rest PROC1).p_callerq = none
  | .do_newmap k _ => s.taskRuns ∧ ¬ istaskp s.table k
  | .do_exec PROC1 _ => s.taskRuns ∧ isuserp s.table PROC1 ∧ (s.flags PROC1).RECEIVING
  | .do_xit parent proc_nr => isuserp s.table parent ∧ isuserp s.table proc_nr ∧ (s.rest proc_nr).p_callerq = none
  | .do_kill PR _ => isuserp s.table PR
  | .do_endsig PROC1 => isemptyp s.table PROC1 ∨ s.taskRuns ∧ isuserp s.table PROC1 ∧
      (signals (s.rest PROC1).p_pending).card < (s.rest PROC1).p_pendcount
  | .do_trace TR_PROCNR TR_REQUEST => isemptyp s.table TR_PROCNR ∨ isuserp s.table TR_PROCNR ∧
      (TR_REQUEST = .T_STOP ∨ s.taskRuns ∧ (s.flags TR_PROCNR).P_STOP)
  | .SYSSIGNON proc_nr _ _ => isuserp s.table proc_nr → (s.flags proc_nr).RECEIVING
  | .do_setGroup _ => True

end SOI.Scheduling

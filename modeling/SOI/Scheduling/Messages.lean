import SOI.Library.Rendezvous
import SOI.Scheduling.ProcessTable

/-! # Sending and receiving messages

The only system calls that exist are sending and receiving. The model keeps the
messages in the data segments of the processes, one at each address. As before an
operation gives `none` where the kernel would panic, follow a bad pointer or loop
forever. `log` and `interrupts` record what was done and are never read.
-/
namespace SOI.Scheduling
open Rendezvous
variable {ρ : Type}

def HARD_INT : ℤ := 2
def KSIG : ℤ := 64

structure Letter (ρ : Type) where
  m_source : Source ρ := .ANY
  m_type : ℤ := 0
  m2_i1 : ℤ := 0
  m2_l1 : ℕ := 0
  others : List ℤ := []
  deriving DecidableEq, Repr

structure MemMap where
  D_vir : ℕ := 0
  D_len : ℕ := 0
  S_vir : ℕ := 0
  S_len : ℕ := 0
  deriving DecidableEq, Repr

/-- The fields of a slot that only messages use. -/
structure Post (ρ : Type) where
  p_messbuf : ℕ := 0
  p_sendto : ρ
  p_map : MemMap := {}
  deriving DecidableEq, Repr

/-- A task was to be started by an interrupt, and it was told. -/
inductive Interrupt (ρ : Type)
  | raised (task : ρ)
  | taken (task : ρ)
  deriving DecidableEq, Repr

structure System (ρ : Type) where
  kernel : Kernel ρ
  rest : ρ → Rest ρ := fun _ => {}
  post : ρ → Post ρ
  sig_procs : ℤ := 0
  memory : ρ → ℕ → Letter ρ := fun _ _ => {}
  log : List (Event ρ (Letter ρ)) := []
  interrupts : List (Interrupt ρ) := []

inductive Result
  | OK
  | E_BAD_SRC
  | E_NO_PERM
  | E_BAD_DEST
  | EFAULT
  | ELOCKED
  deriving DecidableEq, Repr

inductive FunctionCode
  | SEND
  | RECEIVE
  | BOTH
  deriving DecidableEq, Repr

abbrev System.table (s : System ρ) : Table ρ := s.kernel.table

def System.flags (s : System ρ) (rp : ρ) : Flags := (s.table.proc rp).p_flags

def System.withTable (s : System ρ) (t : Table ρ) : System ρ := { s with kernel := { s.kernel with table := t } }

def System.onTable (s : System ρ) (f : Table ρ → Option (Table ρ)) : Option (System ρ) := (f s.table).map s.withTable

/-- `if (rp->p_flags == 0) ..` -/
def System.whenRunnable (s : System ρ) (rp : ρ) (f : Table ρ → Option (Table ρ)) : Option (System ρ) :=
  if s.flags rp = {} then s.onTable f else some s

def mustBeOK (r : Result × System ρ) : Option (System ρ) := if r.1 = .OK then some r.2 else none

/-- What the system's headers and the configuration fix: the slots of the process
table from `BEG_PROC_ADDR` on, some of which the kernel addresses by number, the
bounds of messages, and where `inform` keeps its message. -/
structure Config (ρ : Type) [DecidableEq ρ] where
  order : List ρ
  NR_TASKS : ℕ
  LOW_USER : ℕ
  slots : Slots ρ
  MM_PROC_NR : ρ
  FS_PROC_NR : ρ
  INIT_PROC_NR : ρ
  SIGTRAP : ℕ := 5
  ALLOW_GAP_MESSAGES : Bool := true
  CLICK_SHIFT : ℕ := 8
  MESS_SIZE : ℕ := 36
  vir_bytes : ℕ := 2 ^ 32
  m : ℕ := 0
  nodup : order.Nodup
  complete : ∀ rp, rp ∈ order
  IDLE_lt : order.idxOf slots.IDLE < NR_TASKS
  HARDWARE_lt : order.idxOf slots.HARDWARE < NR_TASKS
  IDLE_ne : slots.IDLE ≠ slots.HARDWARE
  MM_le : NR_TASKS ≤ order.idxOf MM_PROC_NR
  MM_lt : order.idxOf MM_PROC_NR < NR_TASKS + LOW_USER
  FS_le : NR_TASKS ≤ order.idxOf FS_PROC_NR
  FS_lt : order.idxOf FS_PROC_NR < NR_TASKS + LOW_USER

variable [DecidableEq ρ]

def Config.fuel (c : Config ρ) : ℕ := c.order.length + 2

def Config.p_nr (c : Config ρ) (rp : ρ) : ℤ := (c.order.idxOf rp : ℤ) - c.NR_TASKS

/-- The slots from `BEG_SERV_ADDR` on. -/
def Config.servers (c : Config ρ) : List ρ := c.order.drop c.NR_TASKS

/-- Check for messages outside data, stack or gap, or wrapping around top of memory. -/
def Config.outside (c : Config ρ) (map : MemMap) (vb : ℕ) : Bool :=
  let vlo := vb >>> c.CLICK_SHIFT
  let vhi := ((vb + c.MESS_SIZE - 1) % c.vir_bytes) >>> c.CLICK_SHIFT
  if c.ALLOW_GAP_MESSAGES then
    vlo < map.D_vir || vlo > vhi || vhi ≥ (map.S_vir + map.S_len) % c.vir_bytes
  else vhi < vlo || (vhi + c.vir_bytes - map.D_vir) % c.vir_bytes ≥ map.D_len

/-- The slot with this number; `ANY` is not the number of a slot. -/
def Config.proc_addr (c : Config ρ) : Source ρ → Option ρ
  | .ANY => none
  | .HARDWARE => some c.slots.HARDWARE
  | .proc rp => some rp

def Config.proc_number (c : Config ρ) (rp : ρ) : Source ρ := if rp = c.slots.HARDWARE then .HARDWARE else .proc rp

def Config.issysentn (c : Config ρ) (n : Source ρ) : Bool := n = .proc c.FS_PROC_NR || n = .proc c.MM_PROC_NR

/-- `src == ANY || src == proc_number(sender)` -/
def Config.accepts (c : Config ρ) (src : Source ρ) (sender : ρ) : Prop := src = .ANY ∨ src = c.proc_number sender

instance (c : Config ρ) (src : Source ρ) (sender : ρ) : Decidable (c.accepts src sender) :=
  inferInstanceAs (Decidable (_ ∨ _))

def System.setProc (s : System ρ) (rp : ρ) (f : Proc ρ → Proc ρ) : System ρ := s.withTable (s.table.setProc rp f)

def System.setFlags (s : System ρ) (rp : ρ) (f : Flags → Flags) : System ρ :=
  s.setProc rp fun p => { p with p_flags := f p.p_flags }

def System.setRest (s : System ρ) (rp : ρ) (f : Rest ρ → Rest ρ) : System ρ :=
  { s with rest := Function.update s.rest rp (f (s.rest rp)) }

def System.setPost (s : System ρ) (rp : ρ) (f : Post ρ → Post ρ) : System ρ :=
  { s with post := Function.update s.post rp (f (s.post rp)) }

def System.store (s : System ρ) (rp : ρ) (m_ptr : ℕ) (m : Letter ρ) : System ρ :=
  { s with memory := Function.update s.memory rp (Function.update (s.memory rp) m_ptr m) }

/-- The message that a process sends from this address: its source is filled in on the way. -/
def System.letter (c : Config ρ) (s : System ρ) (rp : ρ) (m_ptr : ℕ) : Letter ρ :=
  { s.memory rp m_ptr with m_source := c.proc_number rp }

/-- Copy a message to its receiver. -/
def System.CopyMess (c : Config ρ) (s : System ρ) (sp : ρ) (sm : ℕ) (dp : ρ) (dm : ℕ) : System ρ :=
  { s.store dp dm (s.letter c sp sm) with log := s.log ++ [Event.delivered sp dp (s.letter c sp sm)] }

def lock_ready (t : Table ρ) (rp : ρ) : Option (Table ρ) :=
  (ready { t with switching := true } rp).map fun t => { t with switching := false }

omit [DecidableEq ρ] in
def lock_pick_proc (slots : Slots ρ) (t : Table ρ) : Table ρ :=
  { pick_proc slots { t with switching := true } with switching := false }

/-- Check for deadlock by `caller_ptr` and `dest` sending to each other: `while (TRUE)`. -/
def System.locked (s : System ρ) (caller_ptr : ρ) : ℕ → ρ → Option Bool
  | 0, _ => none
  | fuel + 1, next_ptr =>
    if next_ptr = caller_ptr then some true
    else if (s.flags next_ptr).SENDING then s.locked caller_ptr fuel (s.post next_ptr).p_sendto
    else some false

omit [DecidableEq ρ] in
/-- `while (next_ptr->p_sendlink != NIL_PROC)` -/
def System.lastSender (s : System ρ) : ℕ → ρ → Option ρ
  | 0, _ => none
  | fuel + 1, next_ptr =>
    match (s.rest next_ptr).p_sendlink with
    | none => some next_ptr
    | some next => s.lastSender fuel next

/-- Process is now blocked. Put it on the destination's queue. -/
def System.joinQueue (s : System ρ) (fuel : ℕ) (caller_ptr dest_ptr : ρ) : Option (System ρ) :=
  (match (s.rest dest_ptr).p_callerq with
    | none => some (s.setRest dest_ptr fun r => { r with p_callerq := some caller_ptr })
    | some next_ptr => (s.lastSender fuel next_ptr).map fun last =>
        s.setRest last fun r => { r with p_sendlink := some caller_ptr }).map fun s : System ρ =>
    s.setRest caller_ptr fun r => { r with p_sendlink := none }

/-- Is the destination blocked waiting for a message of this process? -/
def System.awaits (c : Config ρ) (s : System ρ) (dest_ptr caller_ptr : ρ) : Bool :=
  (s.flags dest_ptr).RECEIVING && !(s.flags dest_ptr).SENDING &&
    decide (c.accepts (s.table.proc dest_ptr).p_getfrom caller_ptr)

/-- Destination is indeed waiting for this message. -/
def System.deliver (c : Config ρ) (s : System ρ) (caller_ptr dest_ptr : ρ) (m_ptr : ℕ) : Option (System ρ) :=
  let s := s.CopyMess c caller_ptr m_ptr dest_ptr (s.post dest_ptr).p_messbuf
  let s := s.setFlags dest_ptr fun f => { f with RECEIVING := false }
  s.whenRunnable dest_ptr fun t => ready t dest_ptr

/-- Destination is not waiting. Block and queue caller. -/
def System.block (c : Config ρ) (s : System ρ) (caller_ptr dest_ptr : ρ) (m_ptr : ℕ) : Option (System ρ) :=
  let s := s.setPost caller_ptr fun p => { p with p_messbuf := m_ptr }
  (s.whenRunnable caller_ptr fun t => unready c.slots c.fuel t caller_ptr).bind fun s =>
    let s := s.setFlags caller_ptr fun f => { f with SENDING := true }
    let s := s.setPost caller_ptr fun p => { p with p_sendto := dest_ptr }
    s.joinQueue c.fuel caller_ptr dest_ptr

/-- Send a message from `caller_ptr` to `dest`. -/
def mini_send (c : Config ρ) (s : System ρ) (caller_ptr : ρ) (dest : Source ρ) (m_ptr : ℕ) :
    Option (Result × System ρ) :=
  if isuserp s.table caller_ptr && !c.issysentn dest then some (.E_BAD_DEST,s)
  else (c.proc_addr dest).bind fun dest_ptr =>
    if isemptyp s.table dest_ptr then some (.E_BAD_DEST,s)
    else if c.outside (s.post caller_ptr).p_map m_ptr then some (.EFAULT,s)
    else (if (s.flags dest_ptr).SENDING then s.locked caller_ptr c.fuel (s.post dest_ptr).p_sendto
        else some false).bind fun locked =>
      if locked then some (.ELOCKED,s)
      else
        let s := { s with log := s.log ++ [Event.accepted caller_ptr dest_ptr (s.letter c caller_ptr m_ptr)] }
        (if s.awaits c dest_ptr caller_ptr then s.deliver c caller_ptr dest_ptr m_ptr
          else s.block c caller_ptr dest_ptr m_ptr).map fun s => (.OK,s)

/-- Safe gateway to `mini_send` for tasks. -/
def lock_mini_send (c : Config ρ) (s : System ρ) (caller_ptr : ρ) (dest : Source ρ) (m_ptr : ℕ) :
    Option (Result × System ρ) :=
  (mini_send c (s.withTable { s.table with switching := true }) caller_ptr dest m_ptr).map fun r =>
    (r.1,r.2.withTable { r.2.table with switching := false })

/-- MM is waiting for new input. Tell it about a process with pending signals. -/
def inform (c : Config ρ) (s : System ρ) : Option (System ρ) :=
  match c.servers.find? fun rp => (s.flags rp).PENDING with
  | none => some s
  | some rp =>
    let HARDWARE := c.slots.HARDWARE
    let m := { s.memory HARDWARE c.m with m_type := KSIG, m2_i1 := c.p_nr rp, m2_l1 := (s.rest rp).p_pending }
    let s := { s.store HARDWARE c.m m with sig_procs := s.sig_procs - 1 }
    (lock_mini_send c s HARDWARE (.proc c.MM_PROC_NR) c.m).bind fun r =>
      (mustBeOK r).map fun s =>
        let s := s.setRest rp fun r => { r with p_pending := 0 }
        let s := s.setFlags rp fun f => { f with PENDING := false }
        s.withTable (lock_pick_proc c.slots s.table)

/-- Look through the caller queue: the first acceptable sender, and the one ahead of it. -/
def System.findSender (c : Config ρ) (s : System ρ) (src : Source ρ) :
    ℕ → Option ρ → Option ρ → Option (Option (Option ρ × ρ))
  | 0, _, _ => none
  | _ + 1, _, none => some none
  | fuel + 1, previous_ptr, some sender_ptr =>
    if c.accepts src sender_ptr then some (some (previous_ptr,sender_ptr))
    else s.findSender c src fuel (some sender_ptr) (s.rest sender_ptr).p_sendlink

/-- An acceptable message has been found. -/
def System.takeFrom (c : Config ρ) (s : System ρ) (caller_ptr : ρ) (m_ptr : ℕ) (previous_ptr : Option ρ)
    (sender_ptr : ρ) : Option (System ρ) :=
  let s := s.CopyMess c sender_ptr (s.post sender_ptr).p_messbuf caller_ptr m_ptr
  let sendlink := (s.rest sender_ptr).p_sendlink
  (if (s.rest caller_ptr).p_callerq = some sender_ptr then
      some (s.setRest caller_ptr fun r => { r with p_callerq := sendlink })
    else previous_ptr.map fun p => s.setRest p fun r => { r with p_sendlink := sendlink }).bind fun s =>
    let s := s.setFlags sender_ptr fun f => { f with SENDING := false }
    s.whenRunnable sender_ptr fun t => ready t sender_ptr

/-- A message from the hardware. -/
def System.hardInt (s : System ρ) (rp : ρ) (m_ptr : ℕ) : System ρ :=
  { s.store rp m_ptr { s.memory rp m_ptr with m_source := .HARDWARE, m_type := HARD_INT } with
    interrupts := s.interrupts ++ [Interrupt.taken rp] }

/-- No suitable message is available. Block the process trying to receive. -/
def System.await (c : Config ρ) (s : System ρ) (caller_ptr : ρ) (src : Source ρ) (m_ptr : ℕ) : Option (System ρ) :=
  let s := s.setProc caller_ptr fun p => { p with p_getfrom := src }
  let s := s.setPost caller_ptr fun p => { p with p_messbuf := m_ptr }
  (s.whenRunnable caller_ptr fun t => unready c.slots c.fuel t caller_ptr).bind fun s =>
    let s := s.setFlags caller_ptr fun f => { f with RECEIVING := true }
    if 0 < s.sig_procs && caller_ptr = c.MM_PROC_NR && src = .ANY then inform c s else some s

/-- A process or task wants to get a message. -/
def mini_rec (c : Config ρ) (s : System ρ) (caller_ptr : ρ) (src : Source ρ) (m_ptr : ℕ) : Option (System ρ) :=
  if (s.flags caller_ptr).SENDING then s.await c caller_ptr src m_ptr
  else (s.findSender c src c.fuel none (s.rest caller_ptr).p_callerq).bind fun found =>
    match found with
    | some (previous_ptr,sender_ptr) => s.takeFrom c caller_ptr m_ptr previous_ptr sender_ptr
    | none =>
      if (s.table.proc caller_ptr).p_int_blocked && isrxhardware src then
        some ((s.hardInt caller_ptr m_ptr).setProc caller_ptr fun p => { p with p_int_blocked := false })
      else s.await c caller_ptr src m_ptr

/-- The system call of the running process; a bad `src_dest` is `none`. -/
def sys_call (c : Config ρ) (s : System ρ) (function : FunctionCode) (src_dest : Option (Source ρ)) (m_ptr : ℕ) :
    Option (Result × System ρ) :=
  match src_dest with
  | none => some (.E_BAD_SRC,s)
  | some src_dest =>
    let rp := s.table.proc_ptr
    if isuserp s.table rp && function ≠ .BOTH then some (.E_NO_PERM,s)
    else if function = .RECEIVE then (mini_rec c s rp src_dest m_ptr).map fun s => (.OK,s)
    else (mini_send c s rp src_dest m_ptr).bind fun r =>
      if function = .SEND ∨ r.1 ≠ .OK then some r
      else (mini_rec c r.2 rp src_dest m_ptr).map fun s => (.OK,s)

/-- A task wants to send a signal to a process. -/
def cause_sig (c : Config ρ) (s : System ρ) (proc_nr : ρ) (sig_nr : ℕ) : Option (System ρ) :=
  if (s.rest proc_nr).p_pending.testBit sig_nr then some s
  else
    let s := s.setRest proc_nr fun r =>
      { r with p_pending := r.p_pending ||| 1 <<< sig_nr, p_pendcount := r.p_pendcount + 1 }
    if (s.flags proc_nr).PENDING then some s
    else (s.whenRunnable proc_nr fun t => lock_unready c.slots c.fuel t proc_nr).bind fun s =>
      let s := s.setFlags proc_nr fun f => { f with PENDING := true, SIG_PENDING := true }
      let s := { s with sig_procs := s.sig_procs + 1 }
      let mmp := c.MM_PROC_NR
      if !(s.flags mmp).RECEIVING || (s.table.proc mmp).p_getfrom ≠ .ANY then some s else inform c s

/-- An interrupt with its message, at this level of nesting. -/
def System.interrupt (s : System ρ) (k_reenter : ℤ) (task : ρ) : Option (System ρ) :=
  let s := { s with kernel := { s.kernel with k_reenter := k_reenter } }
  let f := s.flags task
  let s := if k_reenter = 0 ∧ ¬ s.table.switching ∧ f.RECEIVING ∧ ¬ f.SENDING ∧ isrxhardware (s.table.proc task).p_getfrom
    then s.hardInt task (s.post task).p_messbuf else s
  (Scheduling.interrupt s.kernel task).map fun k => { s with kernel := k }

end SOI.Scheduling

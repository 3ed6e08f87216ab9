import SOI.Scheduling.Proc
import SOI.Library.Runs

/-! # The clock interrupt and the clock task

`clock_handler` runs at every tick and wakes the clock task only when there is
work for it; the task then runs `do_clocktick` and blocks in `receive` again.
Nobody else sends to the clock task here. Times are unbounded and an alarm of
`LONG_MAX` is `none`; signals and watchdogs, hence expired alarms, are left out.
-/
namespace SOI.Scheduling
variable {ρ : Type}

def MILLISEC : ℕ := 100

/-- Ticks per scheduling period; `HZ` comes with the system's headers. -/
def SCHED_RATE (HZ : ℕ) : ℕ := MILLISEC * HZ / 1000

/-- The kernel's variables; `scheds` counts the calls of `sched` by the clock task. -/
structure Kernel (ρ : Type) where
  table : Table ρ
  quants : Fin 3 → ℤ
  sched_ticks : ℤ
  prev_ptr : Option ρ := none
  realtime : ℕ := 0
  pending_ticks : ℕ := 0
  lost_ticks : ℕ := 0
  next_alarm : Option ℕ := none
  k_reenter : ℤ := 0
  held_head : Option ρ := none
  held_tail : Option ρ := none
  scheds : ℕ := 0

/-- `quants[group]`, an access outside the array giving `none`. -/
def Kernel.quantsAt (k : Kernel ρ) (group : ℤ) : Option ℤ :=
  if h : 0 ≤ group ∧ group < 3 then some (k.quants ⟨group.toNat,by omega⟩) else none

/-- `if (proc_ptr->p_pid != 0) sched_ticks = SCHED_RATE * quants[proc_ptr->group];
else sched_ticks = SCHED_RATE; prev_ptr = bill_ptr;` -/
def Kernel.reload (HZ : ℕ) (k : Kernel ρ) : Option (Kernel ρ) :=
  let p := k.table.proc k.table.proc_ptr
  (if p.p_pid ≠ 0 then (k.quantsAt p.group).map fun q => (SCHED_RATE HZ : ℤ) * q
    else some (SCHED_RATE HZ : ℤ)).map fun ticks =>
      { k with sched_ticks := ticks, prev_ptr := some k.table.bill_ptr }

/-- `next_alarm <= now` -/
def due (next_alarm : Option ℕ) (now : ℕ) : Bool := next_alarm.any fun alarm => alarm ≤ now

/-- The new `next_alarm`, provided no alarm has gone off. -/
def scanAlarms (k : Kernel ρ) : List ρ → Option ℕ → Option (Option ℕ)
  | [], next => some next
  | rp :: rest, next =>
    let alarm := (k.table.proc rp).p_alarm
    if alarm = 0 then scanAlarms k rest next
    else if alarm ≤ k.realtime then none
    else scanAlarms k rest (if next.all fun n => alarm < n then some alarm else next)

def isrxhardware : Source ρ → Bool
  | .ANY | .HARDWARE => true
  | .proc _ => false

variable [DecidableEq ρ]

def Kernel.setProc (k : Kernel ρ) (rp : ρ) (f : Proc ρ → Proc ρ) : Kernel ρ :=
  { k with table := k.table.setProc rp f }

/-- Put the task on the queue of interrupts to be repeated later. -/
def hold (k : Kernel ρ) (rp : ρ) : Option (Kernel ρ) :=
  if (k.table.proc rp).p_int_held then some k
  else
    let k := k.setProc rp fun p => { p with p_int_held := true }
    (match k.held_head with
      | some _ => k.held_tail.map fun tail => k.setProc tail fun p => { p with p_nextheld := some rp }
      | none => some { k with held_head := some rp }).map fun k : Kernel ρ =>
        { k with held_tail := some rp }.setProc rp fun p => { p with p_nextheld := none }

/-- An interrupt has occurred: start the task that handles it. -/
def interrupt (k : Kernel ρ) (rp : ρ) : Option (Kernel ρ) :=
  let p := k.table.proc rp
  if k.k_reenter ≠ 0 ∨ k.table.switching then hold k rp
  else if ¬ (p.p_flags.RECEIVING ∧ ¬ p.p_flags.SENDING) ∨ ¬ isrxhardware p.p_getfrom then
    some (k.setProc rp fun p => { p with p_int_blocked := true })
  else
    let k := k.setProc rp fun p =>
      { p with p_flags := { p.p_flags with RECEIVING := false }, p_int_blocked := false }
    (readyTask k.table rp).map fun table => { k with table := table }

/-- `if (next_alarm <= realtime) { .. }` -/
def updateAlarm (order : List ρ) (k : Kernel ρ) : Option (Kernel ρ) :=
  if due k.next_alarm k.realtime then
    (scanAlarms k order none).map fun next => { k with next_alarm := next }
  else some k

def reschedule (slots : Slots ρ) (fuel : ℕ) (k : Kernel ρ) : Option (Kernel ρ) :=
  if some k.table.bill_ptr = k.prev_ptr then
    (lock_sched slots fuel k.table).map fun table => { k with table := table, scheds := k.scheds + 1 }
  else some k

/-- Work on the clock ticks when a lot of it needs to be done. -/
def do_clocktick (HZ : ℕ) (slots : Slots ρ) (order : List ρ) (fuel : ℕ) (k : Kernel ρ) :
    Option (Kernel ρ) := do
  let k ← updateAlarm order k
  let k := { k with sched_ticks := k.sched_ticks - 1 }
  if k.sched_ticks = 0 then (reschedule slots fuel k).bind (Kernel.reload HZ) else some k

/-- The end of `mini_rec` for a task to which nobody sends: an interrupt that was
held back is taken at once (`inl`), else the task blocks (`inr`). -/
def receiveAny (slots : Slots ρ) (fuel : ℕ) (k : Kernel ρ) (rp : ρ) : Option (Kernel ρ ⊕ Kernel ρ) :=
  let p := k.table.proc rp
  if ¬ p.p_flags.SENDING ∧ p.p_int_blocked then
    some (.inl (k.setProc rp fun p => { p with p_int_blocked := false }))
  else
    let k := k.setProc rp fun p => { p with p_getfrom := .ANY }
    (if p.p_flags = {} then unready slots fuel k.table rp else some k.table).map fun table =>
      .inr (({ k with table := table } : Kernel ρ).setProc rp fun p =>
        { p with p_flags := { p.p_flags with RECEIVING := true } })

/-- `realtime += pending_ticks; pending_ticks = 0;` -/
def takePending (k : Kernel ρ) : Kernel ρ :=
  { k with realtime := k.realtime + k.pending_ticks, pending_ticks := 0 }

/-- The clock task from a hardware message on, until it blocks. -/
def clock_task (HZ : ℕ) (slots : Slots ρ) (order : List ρ) (fuel : ℕ) : ℕ → Kernel ρ → Option (Kernel ρ)
  | 0, _ => none
  | turns + 1, k => do
    let k ← do_clocktick HZ slots order fuel (takePending k)
    match ← receiveAny slots fuel k slots.CLOCK with
    | .inl k => clock_task HZ slots order fuel turns k
    | .inr k => some k

/-- Charge the ticks to `rp`, and to the billable process where it is another one. -/
def charge (slots : Slots ρ) (t : Table ρ) (rp : ρ) (ticks : ℕ) : Table ρ :=
  let charged := t.setProc rp fun p => { p with user_time := p.user_time + ticks }
  if rp ≠ t.bill_ptr ∧ rp ≠ slots.IDLE then
    charged.setProc t.bill_ptr fun p => { p with sys_time := p.sys_time + ticks }
  else charged

/-- The accounting at the start of `clock_handler`. -/
def account (slots : Slots ρ) (k : Kernel ρ) : Kernel ρ :=
  let rp := if k.k_reenter ≠ 0 then slots.HARDWARE else k.table.proc_ptr
  let ticks := k.lost_ticks + 1
  { k with
    table := charge slots k.table rp ticks
    lost_ticks := 0
    pending_ticks := k.pending_ticks + ticks }

def clock_handler (HZ : ℕ) (slots : Slots ρ) (k : Kernel ρ) : Option (Kernel ρ) :=
  let k := account slots k
  if due k.next_alarm (k.realtime + k.pending_ticks) ∨
      k.sched_ticks = 1 ∧ some k.table.bill_ptr = k.prev_ptr ∧ k.table.rdy_head .USER_Q ≠ none then
    interrupt k slots.CLOCK
  else
    let k := { k with sched_ticks := k.sched_ticks - 1 }
    if k.sched_ticks = 0 then k.reload HZ else some k

/-- One clock tick; the clock task, once woken, runs until it blocks. -/
def tick (HZ : ℕ) (slots : Slots ρ) (order : List ρ) (fuel : ℕ) (k : Kernel ρ) : Option (Kernel ρ) := do
  let k ← clock_handler HZ slots k
  if k.table.proc_ptr = slots.CLOCK then clock_task HZ slots order fuel fuel k else some k

def ticks (HZ : ℕ) (slots : Slots ρ) (order : List ρ) (fuel n : ℕ) (k : Kernel ρ) : Option (Kernel ρ) :=
  Runs.run (fun k (_ : Unit) => tick HZ slots order fuel k) k (List.replicate n ())

end SOI.Scheduling

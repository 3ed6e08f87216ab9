import SOI.Scheduling.Boot

/-! # What every run of the kernel keeps

The results about whole runs, from the start of the kernel on and over every entry
that its callers may make.
-/
namespace SOI.Scheduling
open Linked Parents Rendezvous Runs
variable {ρ : Type} [DecidableEq ρ] {c : Config ρ} {s s₀ : System ρ} {r : Mailbox ρ} {ops : List (KernelOp ρ)}
  {quants : Fin 3 → ℤ} {e_hdr : ρ → MemMap} {memory : ρ → ℕ → Letter ρ} {a d : ρ}

instance (c : Config ρ) (s : System ρ) : (op : KernelOp ρ) → Decidable (Legal c s op)
  | .sys_call function src_dest _ =>
    inferInstanceAs (Decidable (s.table.proc_ptr ≠ c.slots.IDLE ∧ (isuserp s.table s.table.proc_ptr ∨ function = .RECEIVE ∨
      src_dest ≠ some .ANY ∧ src_dest ≠ some .HARDWARE ∧ src_dest ≠ some (.proc c.slots.HARDWARE) ∧
        src_dest ≠ some (.proc s.table.proc_ptr))))
  | .store rp _ _ => inferInstanceAs (Decidable ((s.flags rp).SENDING = false))
  | .interrupt _ task => inferInstanceAs (Decidable (istaskp s.table task ∧ task ≠ c.slots.HARDWARE))
  | .unhold => inferInstanceAs (Decidable (s.kernel.held_head ≠ none))
  | .lock_sched | .do_setGroup _ => isTrue trivial
  | .do_fork PROC1 PROC2 _ =>
    inferInstanceAs (Decidable (isuserp s.table PROC1 ∧ isemptyp s.table PROC2 ∧ (s.flags PROC1).SENDING = false ∧
      (s.rest PROC1).p_callerq = none))
  | .do_newmap k _ => inferInstanceAs (Decidable (s.taskRuns ∧ ¬ istaskp s.table k))
  | .do_exec PROC1 _ => inferInstanceAs (Decidable (s.taskRuns ∧ isuserp s.table PROC1 ∧ (s.flags PROC1).RECEIVING))
  | .do_xit parent proc_nr =>
    inferInstanceAs (Decidable (isuserp s.table parent ∧ isuserp s.table proc_nr ∧ (s.rest proc_nr).p_callerq = none))
  | .do_kill PR _ => inferInstanceAs (Decidable (isuserp s.table PR))
  | .do_endsig PROC1 =>
    inferInstanceAs (Decidable (isemptyp s.table PROC1 ∨ s.taskRuns ∧ isuserp s.table PROC1 ∧
      (signals (s.rest PROC1).p_pending).card < (s.rest PROC1).p_pendcount))
  | .do_trace TR_PROCNR TR_REQUEST =>
    inferInstanceAs (Decidable (isemptyp s.table TR_PROCNR ∨ isuserp s.table TR_PROCNR ∧
      (TR_REQUEST = .T_STOP ∨ s.taskRuns ∧ (s.flags TR_PROCNR).P_STOP)))
  | .SYSSIGNON proc_nr _ _ => inferInstanceAs (Decidable (isuserp s.table proc_nr → (s.flags proc_nr).RECEIVING))

inductive Nr
  | IDLE | CLOCK | SYSTASK | HARDWARE | MM | FS | INIT | a
  deriving DecidableEq, Repr

instance : Fintype Nr := ⟨{.IDLE,.CLOCK,.SYSTASK,.HARDWARE,.MM,.FS,.INIT,.a},fun rp => by cases rp <;> decide⟩

def small : Config Nr where
  order := [.IDLE,.CLOCK,.SYSTASK,.HARDWARE,.MM,.FS,.INIT,.a]
  NR_TASKS := 4
  LOW_USER := 2
  slots := ⟨.IDLE,.CLOCK,.HARDWARE⟩
  MM_PROC_NR := .MM
  FS_PROC_NR := .FS
  INIT_PROC_NR := .INIT
  nodup := by decide
  complete := by decide
  IDLE_lt := by decide
  HARDWARE_lt := by decide
  IDLE_ne := by decide
  MM_le := by decide
  MM_lt := by decide
  FS_le := by decide
  FS_lt := by decide

def smallBoot : Option (System Nr) := main small ![1,3,2] (fun _ => ⟨0,10,20,30⟩) fun _ _ => {}

def smallStart : System Nr := smallBoot.get (by decide +kernel)

/-- INIT forks while the clock ticks, and a signal is sent to it. -/
def smallOps : List (KernelOp Nr) :=
  [.sys_call .RECEIVE (some .ANY) 0,.sys_call .RECEIVE (some .ANY) 0,.sys_call .RECEIVE (some .ANY) 0,
    .sys_call .RECEIVE (some .ANY) 0,.store .INIT 0 { m_type := 2 },.sys_call .BOTH (some (.proc .MM)) 0,
    .do_fork .INIT .a 2,.interrupt 1 .CLOCK,.unhold,.do_newmap .a ⟨0,10,20,30⟩,.do_kill .INIT 3,
    .sys_call .RECEIVE (some .ANY) 0,.sys_call .SEND (some (.proc .INIT)) 0,.sys_call .RECEIVE (some .ANY) 0,
    .sys_call .RECEIVE (some .ANY) 0,.interrupt 0 .CLOCK,.do_endsig .INIT,.sys_call .RECEIVE (some .ANY) 0,
    .sys_call .BOTH (some (.proc .MM)) 0,.do_xit .INIT .a,.sys_call .SEND (some (.proc .FS)) 0,
    .sys_call .SEND (some (.proc .FS)) 0]

theorem smallStart_eq : smallBoot = some smallStart := (Option.some_get _).symm

/-- The ready queues hold the runnable processes, each that of its class, and the head
of the first queue that is not empty runs, or IDLE. -/
structure Scheduled (c : Config ρ) (s : System ρ) : Prop where
  queue : ∀ q, ∃ xs, OnQueue s.table q xs ∧ ∀ rp, rp ∈ xs ↔ queueOf s.table rp = q ∧
    s.flags rp = {} ∧ ¬ isemptyp s.table rp ∧ rp ≠ c.slots.IDLE ∧ rp ≠ c.slots.HARDWARE
  runs : s.table.proc_ptr = chosen c.slots s.table

theorem alive_iff (s : System ρ) (rp : ρ) :
    s.view.alive c rp ↔ ¬ isemptyp s.table rp ∧ rp ≠ c.slots.IDLE ∧ rp ≠ c.slots.HARDWARE := by
  rw [View.alive, Config.isidlehardware, Bool.or_eq_false_iff, decide_eq_false_iff_not, decide_eq_false_iff_not, isemptyp,
    decide_eq_true_eq]
  rfl

section Runs
variable [Fintype ρ]

theorem Steady.scheduled (h : Steady c s r) : Scheduled c s := by
  have hlined : Lined s.table (s.view.runnable c) := h.ready
  refine ⟨fun q => ?_,h.picked⟩
  obtain ⟨xs,hq,hmem⟩ := hlined.queues.queue q
  refine ⟨xs,hq,fun rp => ?_⟩
  rw [hmem, mem_runnable, alive_iff, flags_eq_iff]

/-- The kernel starts, every run of legal entries is carried out to its end, and the
scheduling is right after it. -/
theorem kernel_schedules (c : Config ρ) (quants : Fin 3 → ℤ) (e_hdr : ρ → MemMap) (memory : ρ → ℕ → Letter ρ)
    (hmap : c.outside (e_hdr c.slots.HARDWARE) c.m = false) :
    ∃ s₀, main c quants e_hdr memory = some s₀ ∧ ∀ ops, Meets (kernelStep c) (Legal c) s₀ ops →
      ∃ s, run (kernelStep c) s₀ ops = some s ∧ Scheduled c s := by
  obtain ⟨s₀,hboot,hsteady⟩ := main_steady c quants e_hdr memory hmap
  refine ⟨s₀,hboot,fun ops hlegal => ?_⟩
  obtain ⟨s,r,hrun,hs⟩ := hsteady.run hlegal
  exact ⟨s,hrun,hs.scheduled⟩

theorem small_schedules : ∃ s, run (kernelStep small) smallStart smallOps = some s ∧ Scheduled small s := by
  obtain ⟨s₀,hboot,hruns⟩ := kernel_schedules small ![1,3,2] (fun _ => ⟨0,10,20,30⟩) (fun _ _ => {}) (by decide)
  obtain rfl : smallStart = s₀ := Option.some_injective _ (smallStart_eq.symm.trans hboot)
  exact hruns smallOps (by decide +kernel)

def System.blockedOn (s : System ρ) (p : ρ) : Option ρ := if (s.flags p).SENDING then some (s.post p).p_sendto else none

def System.waitingOf (c : Config ρ) (s : System ρ) (a d : ρ) : List (Letter ρ) :=
  if s.blockedOn a = some d then [s.letter c a (s.post a).p_messbuf] else []

/-- What is known of the signals: a process is held up as long as MM has not finished its
signals, and MM does not wait for new input while there is one that it was not told about. -/
structure SignalsTold [Fintype ρ] (c : Config ρ) (s : System ρ) : Prop where
  pending : ∀ p, (s.flags p).PENDING = true ↔ (s.rest p).p_pending ≠ 0
  unfinished : ∀ p, (s.flags p).SIG_PENDING = true ↔ (s.rest p).p_pendcount ≠ 0
  counted : ∀ p, (signals (s.rest p).p_pending).card ≤ (s.rest p).p_pendcount
  procs : s.sig_procs = (Finset.univ.filter fun p => (s.flags p).PENDING = true).card
  told : (s.flags c.MM_PROC_NR).RECEIVING = true → (s.table.proc c.MM_PROC_NR).p_getfrom = .ANY → s.sig_procs = 0
  none_dead : ∀ p, isemptyp s.table p → s.flags p = {}

theorem Steady.signalsTold (h : Steady c s r) : SignalsTold c s := by
  refine ⟨h.signals.pending,h.signals.unfinished,h.signals.counted,h.signals.procs,fun hR hany => ?_,fun p hp => ?_⟩
  · have hprocs : s.sig_procs = _ := h.signals.procs
    rw [hprocs, Finset.filter_false_of_mem fun p _ => by rw [h.told hR hany p]; simp]
    rfl
  · refine (flags_eq_iff s p).mpr (h.roles.quiet p fun hal => hal.1 ?_)
    exact of_decide_eq_true hp

theorem kernel_tells_signals (hboot : main c quants e_hdr memory = some s₀)
    (hmap : c.outside (e_hdr c.slots.HARDWARE) c.m = false) (hlegal : Meets (kernelStep c) (Legal c) s₀ ops) :
    ∃ s, run (kernelStep c) s₀ ops = some s ∧ SignalsTold c s := by
  obtain ⟨s,r,hrun,hs⟩ := booted_run hboot hmap hlegal
  exact ⟨s,hrun,hs.signalsTold⟩

theorem small_tells_signals : ∃ s, run (kernelStep small) smallStart smallOps = some s ∧ SignalsTold small s :=
  kernel_tells_signals smallStart_eq (by decide) (by decide +kernel)

end Runs

end SOI.Scheduling

import SOI.Scheduling.ReadyQueue
import SOI.Scheduling.Clock

/-! # One clock tick with processes that are always ready

Between two ticks the head of the user queue runs and is billed, and the clock
task waits for its interrupt. A tick either only counts, or it wakes the clock
task, which is the running process until it blocks again.
-/
namespace SOI.Scheduling
variable {ρ : Type} {slots : Slots ρ} {HZ fuel : ℕ} {order xs ys : List ρ} {t t' t'' : Table ρ}

/-- A process without its accounting, its flags and its place in a queue. -/
def Proc.fixed (p : Proc ρ) : Proc ρ :=
  { p with user_time := 0, sys_time := 0, p_flags := {}, p_nextready := none }

def SameProcs (t t' : Table ρ) : Prop := ∀ rp, (t'.proc rp).fixed = (t.proc rp).fixed

theorem SameProcs.trans (h : SameProcs t t') (h' : SameProcs t' t'') : SameProcs t t'' :=
  fun rp => (h' rp).trans (h rp)

theorem SameProcs.group (h : SameProcs t t') (rp : ρ) : (t'.proc rp).group = (t.proc rp).group := by
  simpa [Proc.fixed] using congrArg Proc.group (h rp)

theorem Reordered.sameProcs (h : Reordered xs t t') : SameProcs t t' := by
  intro rp
  simpa [Proc.fixed] using congrArg Proc.fixed (h.fields rp)

/-- Two or more processes of the groups 0 to 2 on the user queue, nobody else
ready, no alarm set, the clock task at its `receive` or running. -/
structure Setting (slots : Slots ρ) (k : Kernel ρ) (xs : List ρ) : Prop where
  queue : OnQueue k.table .USER_Q xs
  two : 2 ≤ xs.length
  user : ∀ p ∈ xs, p ≠ slots.CLOCK ∧ (k.table.proc p).p_pid ≠ 0 ∧
    0 ≤ (k.table.proc p).group ∧ (k.table.proc p).group < 3
  server_q : k.table.rdy_head .SERVER_Q = none
  clock_task : (k.table.proc slots.CLOCK).fixed = { p_priority := .PPRI_TASK }
  no_alarm : ∀ p, (k.table.proc p).p_alarm = 0
  switching : k.table.switching = false
  k_reenter : k.k_reenter = 0
  quants : ∀ g, 1 ≤ k.quants g ∧ k.quants g ≤ 100

structure Running (slots : Slots ρ) (k : Kernel ρ) (xs : List ρ) : Prop extends Setting slots k xs where
  task_q : k.table.rdy_head .TASK_Q = none
  running : xs.head? = some k.table.proc_ptr
  billed : k.table.bill_ptr = k.table.proc_ptr
  waiting : (k.table.proc slots.CLOCK).p_flags = { RECEIVING := true }
  alarm_past : ∀ n, k.next_alarm = some n → n ≤ k.realtime
  counting : 0 < k.sched_ticks

structure InTask (slots : Slots ρ) (k : Kernel ρ) (xs : List ρ) : Prop extends Setting slots k xs where
  task_q : k.table.rdy_head .TASK_Q = some slots.CLOCK
  alone : k.table.next slots.CLOCK = none
  running : k.table.proc_ptr = slots.CLOCK
  runnable : (k.table.proc slots.CLOCK).p_flags = {}

theorem Setting.transfer {k k' : Kernel ρ} (h : Setting slots k xs) (hsame : SameProcs k.table k'.table)
    (hqueue : OnQueue k'.table .USER_Q ys) (hperm : ys.Perm xs)
    (hserver : k'.table.rdy_head .SERVER_Q = k.table.rdy_head .SERVER_Q)
    (hswitching : k'.table.switching = k.table.switching) (hreenter : k'.k_reenter = k.k_reenter)
    (hquants : k'.quants = k.quants) : Setting slots k' ys := by
  refine ⟨hqueue,?_,fun p hp => ?_,?_,?_,fun p => ?_,?_,?_,?_⟩
  · rw [hperm.length_eq]
    exact h.two
  · have hpid : (k'.table.proc p).p_pid = (k.table.proc p).p_pid := by
      simpa [Proc.fixed] using congrArg Proc.p_pid (hsame p)
    rw [hpid, hsame.group]
    exact h.user p (hperm.subset hp)
  · rw [hserver]
    exact h.server_q
  · rw [hsame slots.CLOCK]
    exact h.clock_task
  · have halarm : (k'.table.proc p).p_alarm = (k.table.proc p).p_alarm := by
      simpa [Proc.fixed] using congrArg Proc.p_alarm (hsame p)
    rw [halarm]
    exact h.no_alarm p
  · rw [hswitching]
    exact h.switching
  · rw [hreenter]
    exact h.k_reenter
  · rw [hquants]
    exact h.quants

theorem Setting.counters {k k' : Kernel ρ} (h : Setting slots k xs) (htable : k'.table = k.table)
    (hreenter : k'.k_reenter = k.k_reenter) (hquants : k'.quants = k.quants) : Setting slots k' xs := by
  refine h.transfer (fun rp => by rw [htable]) ?_ (List.Perm.refl xs) ?_ ?_ hreenter hquants
  · rw [htable]
    exact h.queue
  · rw [htable]
  · rw [htable]

theorem InTask.counters {k k' : Kernel ρ} (h : InTask slots k xs) (htable : k'.table = k.table)
    (hreenter : k'.k_reenter = k.k_reenter) (hquants : k'.quants = k.quants) : InTask slots k' xs := by
  refine ⟨h.toSetting.counters htable hreenter hquants,?_,?_,?_,?_⟩
  all_goals rw [htable]
  · exact h.task_q
  · exact h.alone
  · exact h.running
  · exact h.runnable

theorem Running.counters {k k' : Kernel ρ} (h : Running slots k xs) (htable : k'.table = k.table)
    (hreenter : k'.k_reenter = k.k_reenter) (hquants : k'.quants = k.quants)
    (halarm : k'.next_alarm = none) (hcounting : 0 < k'.sched_ticks) : Running slots k' xs := by
  refine ⟨h.toSetting.counters htable hreenter hquants,?_,?_,?_,?_,by simp [halarm],hcounting⟩
  all_goals rw [htable]
  · exact h.task_q
  · exact h.running
  · exact h.billed
  · exact h.waiting

theorem Setting.clock_fields {k : Kernel ρ} (h : Setting slots k xs) :
    istaskp k.table slots.CLOCK = true ∧ (k.table.proc slots.CLOCK).p_pid = 0 ∧
      (k.table.proc slots.CLOCK).p_stguard = STACK_GUARD ∧
      (k.table.proc slots.CLOCK).p_getfrom = .ANY ∧ (k.table.proc slots.CLOCK).p_int_blocked = false := by
  have hc := h.clock_task
  have hpriority := congrArg Proc.p_priority hc
  refine ⟨by simpa [istaskp, Proc.fixed] using hpriority,?_,?_,?_,?_⟩
  · simpa [Proc.fixed] using congrArg Proc.p_pid hc
  · simpa [Proc.fixed] using congrArg Proc.p_stguard hc
  · simpa [Proc.fixed] using congrArg Proc.p_getfrom hc
  · simpa [Proc.fixed] using congrArg Proc.p_int_blocked hc

/-- What waking the clock task and letting it block leave alone. -/
structure Kept (k k' : Kernel ρ) : Prop where
  same : SameProcs k.table k'.table
  quants : k'.quants = k.quants
  sched_ticks : k'.sched_ticks = k.sched_ticks
  prev_ptr : k'.prev_ptr = k.prev_ptr
  next_alarm : k'.next_alarm = k.next_alarm
  scheds : k'.scheds = k.scheds

variable [DecidableEq ρ]

theorem SameProcs.setProc (t : Table ρ) (rp : ρ) {f : Proc ρ → Proc ρ}
    (hf : (f (t.proc rp)).fixed = (t.proc rp).fixed) : SameProcs t (t.setProc rp f) :=
  fun _ => kept_setProc Proc.fixed hf

structure Charged (t t' : Table ρ) : Prop where
  same : SameProcs t t'
  flags : ∀ rp, (t'.proc rp).p_flags = (t.proc rp).p_flags
  next : t'.next = t.next
  rdy_head : t'.rdy_head = t.rdy_head
  rdy_tail : t'.rdy_tail = t.rdy_tail
  proc_ptr : t'.proc_ptr = t.proc_ptr
  bill_ptr : t'.bill_ptr = t.bill_ptr
  switching : t'.switching = t.switching

theorem Charged.setProc (h : Charged t t') (rp : ρ) {f : Proc ρ → Proc ρ} (hf : ∀ p, (f p).fixed = p.fixed)
    (hflags : ∀ p, (f p).p_flags = p.p_flags) (hnext : ∀ p, (f p).p_nextready = p.p_nextready) :
    Charged t (t'.setProc rp f) := by
  refine ⟨h.same.trans (SameProcs.setProc t' rp (hf _)),fun p => ?_,?_,h.rdy_head,h.rdy_tail,h.proc_ptr,
    h.bill_ptr,h.switching⟩
  · exact (kept_setProc Proc.p_flags (hflags _)).trans (h.flags p)
  · exact (next_setProc hnext).trans h.next

theorem charge_charged (slots : Slots ρ) (t : Table ρ) (rp : ρ) (ticks : ℕ) :
    Charged t (charge slots t rp ticks) := by
  have hrefl : Charged t t := ⟨fun _ => rfl,fun _ => rfl,rfl,rfl,rfl,rfl,rfl,rfl⟩
  have huser : Charged t (t.setProc rp fun p => { p with user_time := p.user_time + ticks }) :=
    hrefl.setProc rp (fun _ => rfl) (fun _ => rfl) (fun _ => rfl)
  unfold charge
  split
  · exact huser.setProc t.bill_ptr (fun _ => rfl) (fun _ => rfl) (fun _ => rfl)
  · exact huser

theorem Running.accounted {k : Kernel ρ} (h : Running slots k xs) : Running slots (account slots k) xs := by
  have hc : Charged k.table (account slots k).table := charge_charged _ _ _ _
  have hset : Setting slots (account slots k) xs := by
    refine h.toSetting.transfer hc.same ?_ (List.Perm.refl xs) ?_ hc.switching rfl rfl
    · exact h.queue.frame (fun p _ => by rw [hc.next]) (by rw [hc.rdy_head]) (by rw [hc.rdy_tail])
    · rw [hc.rdy_head]
  refine ⟨hset,?_,?_,?_,?_,?_,?_⟩
  · rw [hc.rdy_head]
    exact h.task_q
  · rw [hc.proc_ptr]
    exact h.running
  · rw [hc.bill_ptr, hc.proc_ptr]
    exact h.billed
  · rw [hc.flags]
    exact h.waiting
  · exact h.alarm_past
  · exact h.counting

theorem account_kept (slots : Slots ρ) (k : Kernel ρ) : Kept k (account slots k) :=
  ⟨(charge_charged _ _ _ _).same,rfl,rfl,rfl,rfl,rfl⟩

theorem readyTask_first {rp : ρ} (h : t.rdy_head .TASK_Q = none) :
    readyTask t rp = some (((({ t with proc_ptr := rp } : Table ρ).setHead .TASK_Q (some rp)).setTail
      .TASK_Q (some rp)).setNext rp none) := by
  simp [readyTask, append, h]

/-- An interrupt finds the clock task waiting and makes it the running process. -/
theorem Running.wake {k : Kernel ρ} (h : Running slots k xs) :
    ∃ k', interrupt k slots.CLOCK = some k' ∧ InTask slots k' xs ∧ Kept k k' ∧
      k'.table.bill_ptr = k.table.bill_ptr ∧ k'.realtime = k.realtime := by
  obtain ⟨-,-,-,hget,hblocked⟩ := h.clock_fields
  have hguard : ¬ (k.k_reenter ≠ 0 ∨ k.table.switching = true) := by
    simp [h.k_reenter, h.switching]
  have hreceives : ¬ (¬ ((k.table.proc slots.CLOCK).p_flags.RECEIVING = true ∧
      ¬ (k.table.proc slots.CLOCK).p_flags.SENDING = true) ∨
      ¬ isrxhardware (k.table.proc slots.CLOCK).p_getfrom = true) := by
    simp [h.waiting, hget, isrxhardware]
  let t := k.table.setProc slots.CLOCK fun p =>
    { p with p_flags := { p.p_flags with RECEIVING := false }, p_int_blocked := false }
  let t' := ((({ t with proc_ptr := slots.CLOCK } : Table ρ).setHead .TASK_Q (some slots.CLOCK)).setTail
    .TASK_Q (some slots.CLOCK)).setNext slots.CLOCK none
  have hready : readyTask t slots.CLOCK = some t' := readyTask_first h.task_q
  have hsame : SameProcs k.table t' := by
    have hflags : SameProcs k.table t := SameProcs.setProc _ _ (by simp [Proc.fixed, hblocked])
    exact hflags.trans (SameProcs.setProc _ _ rfl)
  have hnext : ∀ p ∈ xs, t'.next p = k.table.next p := by
    intro p hp
    have hclock := (h.user p hp).1
    have hlinks : t.next = k.table.next := next_setProc fun _ => rfl
    rw [← hlinks]
    simp only [t', next_setNext]
    rw [Function.update_of_ne hclock]
    rfl
  have hset : Setting slots { k with table := t' } xs :=
    h.toSetting.transfer hsame (h.queue.frame hnext rfl rfl) (List.Perm.refl xs) rfl rfl rfl rfl
  refine ⟨{ k with table := t' },?_,⟨hset,?_,?_,rfl,?_⟩,⟨hsame,rfl,rfl,rfl,rfl,rfl⟩,rfl,rfl⟩
  · simp only [interrupt, if_neg hguard, if_neg hreceives]
    exact congrArg (Option.map _) hready
  · simp [t']
  · simp [t']
  · have hflags : (t'.proc slots.CLOCK).p_flags =
        { (k.table.proc slots.CLOCK).p_flags with RECEIVING := false } := by
      simp [t', t, Table.setNext, Table.setProc, Table.setHead, Table.setTail]
    rw [hflags, h.waiting]

omit [DecidableEq ρ] in
theorem pick_proc_user {p : ρ} (htask : t.rdy_head .TASK_Q = none) (hserver : t.rdy_head .SERVER_Q = none)
    (huser : t.rdy_head .USER_Q = some p) :
    pick_proc slots t = { t with proc_ptr := p, bill_ptr := p } := by
  simp only [pick_proc, htask, hserver, huser]

omit [DecidableEq ρ] in
theorem pick_proc_task {p : ρ} (htask : t.rdy_head .TASK_Q = some p) :
    pick_proc slots t = { t with proc_ptr := p } := by
  simp only [pick_proc, htask]

theorem unready_task {rp : ρ} (htask : istaskp t rp = true) (hguard : (t.proc rp).p_stguard = STACK_GUARD)
    (hhead : t.rdy_head .TASK_Q = some rp) (hrunning : t.proc_ptr = rp) :
    unready slots fuel t rp = some (pick_proc slots (t.setHead .TASK_Q (t.next rp))) := by
  have hq : queueOf t rp = .TASK_Q := by simp [queueOf, htask]
  simp [unready, htask, hguard, hq, hhead, hrunning]

/-- The clock task blocks in `receive`, and the head of the user queue runs. -/
theorem InTask.sleep {k : Kernel ρ} (h : InTask slots k xs) (fuel : ℕ) :
    ∃ k', receiveAny slots fuel k slots.CLOCK = some (.inr k') ∧ Setting slots k' xs ∧ Kept k k' ∧
      k'.table.rdy_head .TASK_Q = none ∧ xs.head? = some k'.table.proc_ptr ∧
      k'.table.bill_ptr = k'.table.proc_ptr ∧
      (k'.table.proc slots.CLOCK).p_flags = { RECEIVING := true } ∧ k'.realtime = k.realtime := by
  obtain ⟨htask,-,hguard,hget,hblocked⟩ := h.clock_fields
  obtain ⟨p,hp⟩ : ∃ p, xs.head? = some p := by
    cases xs with
    | nil => exact absurd h.two (by simp)
    | cons p xs => exact ⟨p,rfl⟩
  let t := k.table.setProc slots.CLOCK fun p => { p with p_getfrom := .ANY }
  let t' := { t.setHead .TASK_Q none with proc_ptr := p, bill_ptr := p }
  let t'' := t'.setProc slots.CLOCK fun p => { p with p_flags := { p.p_flags with RECEIVING := true } }
  have hsame₁ : SameProcs k.table t := SameProcs.setProc _ _ (by simp [Proc.fixed, hget])
  have hsame : SameProcs k.table t'' :=
    hsame₁.trans (SameProcs.setProc t' _ rfl)
  have hlinks : t.next = k.table.next := next_setProc fun _ => rfl
  have hunready : unready slots fuel t slots.CLOCK = some t' := by
    rw [unready_task, hlinks, h.alone]
    · have hserver : t.rdy_head .SERVER_Q = none := h.server_q
      have huser : t.rdy_head .USER_Q = some p := h.queue.head.trans hp
      rw [pick_proc_user] <;> simp [hserver, huser]
    · simpa [istaskp, t, Table.setProc] using htask
    · simpa [t, Table.setProc] using hguard
    · exact h.task_q
    · exact h.running
  have hset : Setting slots { k with table := t'' } xs := by
    refine h.toSetting.transfer hsame (h.queue.frame ?_ rfl rfl) (List.Perm.refl xs) rfl rfl rfl rfl
    intro q _
    have hlinks'' : t''.next = t'.next := next_setProc fun _ => rfl
    exact (congrFun hlinks'' q).trans (congrFun hlinks q)
  refine ⟨{ k with table := t'' },?_,hset,⟨hsame,rfl,rfl,rfl,rfl,rfl⟩,?_,hp,rfl,?_,rfl⟩
  · simp only [receiveAny, hblocked, h.runnable, Bool.false_eq_true, and_false, if_false, if_true]
    exact congrArg (Option.map _) hunready
  · simp [t'', t', Table.setProc]
  · simp [t'', t', t, Table.setProc, Table.setHead, h.runnable]

omit [DecidableEq ρ] in
theorem scanAlarms_none {k : Kernel ρ} (h : ∀ p, (k.table.proc p).p_alarm = 0) (order : List ρ)
    (next : Option ℕ) : scanAlarms k order next = some next := by
  induction order with
  | nil => rfl
  | cons p order ih => simp [scanAlarms, h p, ih]

omit [DecidableEq ρ] in
theorem Setting.updateAlarm {k : Kernel ρ} (h : Setting slots k xs)
    (hpast : ∀ n, k.next_alarm = some n → n ≤ k.realtime) (order : List ρ) :
    updateAlarm order k = some { k with next_alarm := none } := by
  cases ha : k.next_alarm with
  | none =>
    have hk : k = { k with next_alarm := none } := by rw [← ha]
    rw [Scheduling.updateAlarm, ha, due, Option.any_none, if_neg Bool.false_ne_true, ← hk]
  | some n =>
    have hdue : due k.next_alarm k.realtime = true := by simpa [ha, due] using hpast n ha
    rw [Scheduling.updateAlarm, if_pos hdue, scanAlarms_none h.no_alarm]
    rfl

omit [DecidableEq ρ] in
/-- The clock task, being no user process, always loads the plain rate. -/
theorem InTask.reload {k : Kernel ρ} (h : InTask slots k xs) (HZ : ℕ) :
    k.reload HZ = some { k with sched_ticks := SCHED_RATE HZ, prev_ptr := some k.table.bill_ptr } := by
  have hpid := h.clock_fields.2.1
  simp [Kernel.reload, h.running, hpid]

theorem lock_sched_inTask {k : Kernel ρ} (h : InTask slots k xs) (hfuel : xs.length + 2 ≤ fuel) :
    ∃ t, lock_sched slots fuel k.table = some t ∧ t.bill_ptr = k.table.bill_ptr ∧
      SameProcs k.table t ∧ InTask slots { k with table := t } (afterSched k.table xs) := by
  cases xs with
  | nil => exact absurd h.two (by simp)
  | cons x xs =>
    have hqueue : OnQueue { k.table with switching := true } .USER_Q (x :: xs) :=
      h.queue.frame (fun _ _ => rfl) rfl rfl
    obtain ⟨t,hsched,hafter,hsame⟩ := sched_onQueue slots hqueue (h.user x (by simp)).2.2 hfuel
    have htask : t.rdy_head .TASK_Q = some slots.CLOCK :=
      (hsame.heads .TASK_Q (by decide)).trans h.task_q
    rw [pick_proc_task htask] at hsched
    have hprocs : SameProcs k.table t := hsame.sameProcs
    have hclock : slots.CLOCK ∉ x :: xs := fun hmem => (h.user _ hmem).1 rfl
    refine ⟨{ t with proc_ptr := slots.CLOCK, switching := false },?_,hsame.bill_ptr,hprocs,?_,htask,?_,rfl,?_⟩
    · rw [lock_sched, hsched]
      rfl
    · exact h.toSetting.transfer hprocs (hafter.frame (fun _ _ => rfl) rfl rfl) (afterSched_perm _ _)
        (hsame.heads .SERVER_Q (by decide)) h.switching.symm rfl rfl
    · exact (hsame.links _ hclock).trans h.alone
    · have hflags : (t.proc slots.CLOCK).p_flags = (k.table.proc slots.CLOCK).p_flags := by
        simpa using congrArg Proc.p_flags (hsame.fields slots.CLOCK)
      exact hflags.trans h.runnable

/-- The clock task finds that the billed process has been sampled before. -/
theorem InTask.clocktick_sched {k : Kernel ρ} (h : InTask slots k xs) (HZ : ℕ) (order : List ρ)
    (hpast : ∀ n, k.next_alarm = some n → n ≤ k.realtime) (hfuel : xs.length + 2 ≤ fuel)
    (hticks : k.sched_ticks = 1) (hprev : some k.table.bill_ptr = k.prev_ptr) :
    ∃ k', do_clocktick HZ slots order fuel k = some k' ∧ InTask slots k' (afterSched k.table xs) ∧
      SameProcs k.table k'.table ∧ k'.next_alarm = none ∧ k'.quants = k.quants ∧
      k'.sched_ticks = SCHED_RATE HZ ∧ k'.prev_ptr = some k.table.bill_ptr ∧ k'.scheds = k.scheds + 1 := by
  obtain ⟨t,hlock,hbill,hprocs,htask⟩ := lock_sched_inTask h hfuel
  let k₁ := { k with table := t, next_alarm := none, sched_ticks := 0, scheds := k.scheds + 1 }
  have hreload := InTask.reload (htask.counters (show k₁.table = t from rfl) rfl rfl) HZ
  refine ⟨{ k₁ with sched_ticks := SCHED_RATE HZ, prev_ptr := some t.bill_ptr },?_,
    htask.counters rfl rfl rfl,hprocs,rfl,rfl,rfl,congrArg some hbill,rfl⟩
  simp only [do_clocktick, h.updateAlarm hpast order, Option.bind_eq_bind, Option.bind_some, hticks,
    sub_self, if_true, reschedule, hprev, hlock, Option.map_some]
  exact hreload

/-- When it has not, the clock task only counts, and a period that ends is followed by a plain one. -/
theorem InTask.clocktick_count {k : Kernel ρ} (h : InTask slots k xs) (HZ : ℕ) (order : List ρ)
    (hpast : ∀ n, k.next_alarm = some n → n ≤ k.realtime)
    (hno : ¬ (k.sched_ticks = 1 ∧ some k.table.bill_ptr = k.prev_ptr)) :
    ∃ k', do_clocktick HZ slots order fuel k = some k' ∧ InTask slots k' xs ∧
      k'.table = k.table ∧ k'.next_alarm = none ∧ k'.quants = k.quants ∧ k'.scheds = k.scheds ∧
      (k.sched_ticks = 1 → k'.sched_ticks = SCHED_RATE HZ ∧ k'.prev_ptr = some k.table.bill_ptr) ∧
      (k.sched_ticks ≠ 1 → k'.sched_ticks = k.sched_ticks - 1 ∧ k'.prev_ptr = k.prev_ptr) := by
  by_cases hticks : k.sched_ticks = 1
  · have hprev : some k.table.bill_ptr ≠ k.prev_ptr := fun hp => hno ⟨hticks,hp⟩
    let k₁ := { k with next_alarm := none, sched_ticks := 0 }
    have hreload := InTask.reload (h.counters (show k₁.table = k.table from rfl) rfl rfl) HZ
    refine ⟨{ k₁ with sched_ticks := SCHED_RATE HZ, prev_ptr := some k.table.bill_ptr },?_,
      h.counters rfl rfl rfl,rfl,rfl,rfl,rfl,fun _ => ⟨rfl,rfl⟩,fun hne => absurd hticks hne⟩
    simp only [do_clocktick, h.updateAlarm hpast order, Option.bind_eq_bind, Option.bind_some, hticks,
      sub_self, if_true, reschedule, if_neg hprev]
    exact hreload
  · refine ⟨{ k with next_alarm := none, sched_ticks := k.sched_ticks - 1 },?_,h.counters rfl rfl rfl,
      rfl,rfl,rfl,rfl,fun heq => absurd heq hticks,fun _ => ⟨rfl,rfl⟩⟩
    have hne : ¬ k.sched_ticks - 1 = 0 := fun h0 => hticks (by omega)
    simp only [do_clocktick, h.updateAlarm hpast order, Option.bind_eq_bind, Option.bind_some, if_neg hne]

end SOI.Scheduling

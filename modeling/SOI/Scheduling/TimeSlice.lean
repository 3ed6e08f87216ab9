import SOI.Scheduling.ClockTick

/-! # The time slice of a process

A process put in front by `sched` is first sampled for one plain period: the
clock task loads the counter while it is itself the running process. When the
interrupt handler finds that period over it loads the quantum of the group, and
only its end wakes the clock task again.
-/
namespace SOI.Scheduling
open Runs
variable {ρ : Type} {slots : Slots ρ} {HZ fuel : ℕ} {order xs ys : List ρ} {k k' k'' : Kernel ρ}

def quantum (k : Kernel ρ) (p : ρ) : ℕ := ((k.quantsAt (k.table.proc p).group).getD 0).toNat

/-- The parameters that a slice depends on have not changed. -/
structure SameParams (k k' : Kernel ρ) : Prop where
  quants : k'.quants = k.quants
  group : ∀ p, (k'.table.proc p).group = (k.table.proc p).group

theorem SameParams.quantum (h : SameParams k k') (p : ρ) : quantum k' p = quantum k p := by
  simp only [Scheduling.quantum, Kernel.quantsAt, h.quants, h.group]

/-- A tick on which the clock task calls `sched`. -/
structure Served (HZ : ℕ) (k k' : Kernel ρ) : Prop extends SameParams k k' where
  scheds : k'.scheds = k.scheds + 1
  changed : k'.table.proc_ptr ≠ k.table.bill_ptr
  next_alarm : k'.next_alarm = none
  sched_ticks : k'.sched_ticks = SCHED_RATE HZ
  prev_ptr : k'.prev_ptr = some k.table.bill_ptr

structure Counted (HZ : ℕ) (k k' : Kernel ρ) : Prop extends SameParams k k' where
  scheds : k'.scheds = k.scheds
  proc_ptr : k'.table.proc_ptr = k.table.proc_ptr
  next_alarm : k'.next_alarm = none
  count : k.sched_ticks ≠ 1 → k'.sched_ticks = k.sched_ticks - 1 ∧ k'.prev_ptr = k.prev_ptr
  expire : k.sched_ticks = 1 → k.next_alarm = none →
    k'.sched_ticks = SCHED_RATE HZ * quantum k k.table.proc_ptr ∧ k'.prev_ptr = some k.table.proc_ptr

theorem Running.mem (h : Running slots k xs) : k.table.proc_ptr ∈ xs := List.mem_of_head? h.running

theorem Kept.params (h : Kept k k') : SameParams k k' := ⟨h.quants,h.same.group⟩

theorem Kept.trans (h : Kept k k') (h' : Kept k' k'') : Kept k k'' :=
  ⟨h.same.trans h'.same,h'.quants.trans h.quants,h'.sched_ticks.trans h.sched_ticks,
    h'.prev_ptr.trans h.prev_ptr,h'.next_alarm.trans h.next_alarm,h'.scheds.trans h.scheds⟩

theorem Running.quantsAt (h : Running slots k xs) :
    k.quantsAt (k.table.proc k.table.proc_ptr).group = some (quantum k k.table.proc_ptr : ℤ) ∧
      0 < quantum k k.table.proc_ptr := by
  obtain ⟨-,-,hlow,hhigh⟩ := h.user _ h.mem
  have hq : k.quantsAt (k.table.proc k.table.proc_ptr).group = some _ := dif_pos ⟨hlow,hhigh⟩
  have hpos := (h.quants ⟨(k.table.proc k.table.proc_ptr).group.toNat,by omega⟩).1
  simp only [quantum, hq, Option.getD_some, Option.some.injEq]
  omega

variable [DecidableEq ρ]

theorem Running.woken (h : Running slots k xs) (HZ : ℕ)
    (hcond : k.next_alarm ≠ none ∨ k.sched_ticks = 1 ∧ k.prev_ptr = some k.table.bill_ptr) :
    ∃ k', clock_handler HZ slots k = some k' ∧ InTask slots (takePending k') xs ∧ Kept k (takePending k') ∧
      k'.table.bill_ptr = k.table.bill_ptr ∧ k'.table.proc_ptr = slots.CLOCK ∧
      ∀ n, (takePending k').next_alarm = some n → n ≤ (takePending k').realtime := by
  have ha := h.accounted
  have hbill₀ : (account slots k).table.bill_ptr = k.table.bill_ptr := (charge_charged _ _ _ _).bill_ptr
  obtain ⟨k',hint,htask,hkept,hbill,htime⟩ := ha.wake
  have hhead : (account slots k).table.rdy_head .USER_Q ≠ none := by
    rw [ha.queue.head, ha.running]
    simp
  refine ⟨k',?_,htask.counters rfl rfl rfl,?_,hbill.trans hbill₀,htask.running,?_⟩
  · rw [clock_handler, if_pos, hint]
    rcases hcond with halarm | ⟨hticks,hprev⟩
    · left
      obtain ⟨n,hn⟩ := Option.ne_none_iff_exists'.mp halarm
      have hpast := h.alarm_past n hn
      have hn' : (account slots k).next_alarm = some n := hn
      have hreal : (account slots k).realtime = k.realtime := rfl
      simp only [due, hn', hreal, Option.any_some, decide_eq_true_eq]
      omega
    · exact Or.inr ⟨hticks,by rw [hbill₀, ← hprev]; rfl,hhead⟩
  · obtain ⟨hsame,hquants,hsched,hprev,halarm,hscheds⟩ := (account_kept slots k).trans hkept
    exact ⟨hsame,hquants,hsched,hprev,halarm,hscheds⟩
  · intro n hn
    have hn' : k.next_alarm = some n := hkept.next_alarm.symm.trans hn
    have hpast := h.alarm_past n hn'
    have hreal : (takePending k').realtime = k.realtime + k'.pending_ticks := by
      rw [takePending, htime]
      rfl
    omega

/-- When the clock task blocks, its work done, the next user process runs. -/
theorem InTask.block (h : InTask slots k xs) (fuel : ℕ) (halarm : k.next_alarm = none)
    (hticks : 0 < k.sched_ticks) :
    ∃ k', receiveAny slots fuel k slots.CLOCK = some (.inr k') ∧ Running slots k' xs ∧ Kept k k' := by
  obtain ⟨k',hreceive,hset,hkept,htask,hrunning,hbilled,hwaiting,-⟩ := h.sleep fuel
  refine ⟨k',hreceive,⟨hset,htask,hrunning,hbilled,hwaiting,?_,?_⟩,hkept⟩
  · intro n hn
    rw [hkept.next_alarm, halarm] at hn
    cases hn
  · rw [hkept.sched_ticks]
    exact hticks

theorem tick_wake {k₁ k₂ k₃ : Kernel ρ} (hhandler : clock_handler HZ slots k = some k₁)
    (hrunning : k₁.table.proc_ptr = slots.CLOCK) (hfuel : 0 < fuel)
    (hwork : do_clocktick HZ slots order fuel (takePending k₁) = some k₂)
    (hblock : receiveAny slots fuel k₂ slots.CLOCK = some (.inr k₃)) :
    tick HZ slots order fuel k = some k₃ := by
  obtain ⟨n,rfl⟩ : ∃ n, fuel = n + 1 := ⟨fuel - 1,by omega⟩
  simp only [tick, hhandler, Option.bind_eq_bind, Option.bind_some, hrunning, if_true, clock_task, hwork, hblock]

/-- A process that has used its quantum is replaced by another one. -/
theorem tick_sched (h : Running slots k xs) (order : List ρ) (hrate : 0 < SCHED_RATE HZ)
    (hfuel : xs.length + 2 ≤ fuel) (hticks : k.sched_ticks = 1) (hprev : k.prev_ptr = some k.table.bill_ptr) :
    ∃ k' ys, tick HZ slots order fuel k = some k' ∧ Running slots k' ys ∧ ys.length = xs.length ∧
      Served HZ k k' := by
  obtain ⟨k₁,hhandler,htask,hkept,hbill,hclock,hpast⟩ := h.woken HZ (Or.inr ⟨hticks,hprev⟩)
  have hprev₁ : some (takePending k₁).table.bill_ptr = (takePending k₁).prev_ptr :=
    (congrArg some hbill).trans (hprev.symm.trans hkept.prev_ptr.symm)
  obtain ⟨k₂,hwork,htask₂,hprocs,halarm₂,hquants₂,hticks₂,hprev₂,hscheds₂⟩ :=
    htask.clocktick_sched HZ order hpast hfuel (hkept.sched_ticks.trans hticks) hprev₁
  obtain ⟨k₃,hblock,hrun,hkept₃⟩ := htask₂.block fuel halarm₂ (by rw [hticks₂]; exact_mod_cast hrate)
  have hlen : (afterSched (takePending k₁).table xs).length = xs.length := (afterSched_perm _ _).length_eq
  refine ⟨k₃,_,tick_wake hhandler hclock (by omega) hwork hblock,hrun,hlen,⟨⟨?_,?_⟩,?_,?_,?_,?_,?_⟩⟩
  · rw [hkept₃.quants, hquants₂, hkept.quants]
  · intro p
    rw [hkept₃.same.group, hprocs.group, hkept.same.group]
  · rw [hkept₃.scheds, hscheds₂, hkept.scheds]
  · -- the queue has two members, so its new head is not the old one
    have hrunning := hrun.running
    have hhead := h.running
    match xs, h.two with
    | x :: y :: xs, _ =>
      have hx : x = k.table.proc_ptr := by simpa using hhead
      obtain ⟨z,zs,hz,hne,-⟩ := afterSched_head (htask.queue.nodup) fun p hp => (htask.user p hp).2.2
      rw [hz] at hrunning
      have hzp : z = k₃.table.proc_ptr := by simpa using hrunning
      rw [← hzp, h.billed, ← hx]
      exact hne
  · rw [hkept₃.next_alarm, halarm₂]
  · rw [hkept₃.sched_ticks, hticks₂]
  · rw [hkept₃.prev_ptr, hprev₂]
    exact congrArg some hbill

omit [DecidableEq ρ] in
theorem Running.reload (h : Running slots k xs) (HZ : ℕ) (hquants : k'.quants = k.quants)
    (htable : k'.table = k.table) : k'.reload HZ = some { k' with
      sched_ticks := SCHED_RATE HZ * quantum k k.table.proc_ptr, prev_ptr := some k.table.proc_ptr } := by
  have hpid : (k.table.proc k.table.proc_ptr).p_pid ≠ 0 := (h.user _ h.mem).2.1
  have hq : k'.quantsAt (k.table.proc k.table.proc_ptr).group = some (quantum k k.table.proc_ptr : ℤ) := by
    rw [← h.quantsAt.1]
    simp only [Kernel.quantsAt, hquants]
  simp only [Kernel.reload, htable, if_pos hpid, hq, Option.map_some, h.billed]

theorem tick_count_alarm (h : Running slots k xs) (order : List ρ) (hrate : 0 < SCHED_RATE HZ) (hfuel : 0 < fuel)
    (hno : ¬ (k.sched_ticks = 1 ∧ k.prev_ptr = some k.table.bill_ptr)) {n : ℕ} (ha : k.next_alarm = some n) :
    ∃ k', tick HZ slots order fuel k = some k' ∧ Running slots k' xs ∧ Counted HZ k k' := by
  have hcounting := h.counting
  obtain ⟨k₁,hhandler,htask,hkept,hbill,hclock,hpast⟩ := h.woken HZ (Or.inl (by simp [ha]))
  have hno₁ : ¬ ((takePending k₁).sched_ticks = 1 ∧
      some (takePending k₁).table.bill_ptr = (takePending k₁).prev_ptr) := by
    rw [hkept.sched_ticks, hkept.prev_ptr]
    rintro ⟨hticks,hprev⟩
    exact hno ⟨hticks,hprev.symm.trans (congrArg some hbill)⟩
  obtain ⟨k₂,hwork,htask₂,htable₂,halarm₂,hquants₂,hscheds₂,hone,hmore⟩ :=
    htask.clocktick_count HZ order hpast hno₁
  rw [hkept.sched_ticks] at hone hmore
  have hticks₂ : 0 < k₂.sched_ticks := by
    by_cases hticks : k.sched_ticks = 1
    · rw [(hone hticks).1]
      exact_mod_cast hrate
    · rw [(hmore hticks).1]
      omega
  obtain ⟨k₃,hblock,hrun,hkept₃⟩ := htask₂.block fuel halarm₂ hticks₂
  refine ⟨k₃,tick_wake hhandler hclock hfuel hwork hblock,hrun,⟨⟨?_,?_⟩,?_,?_,?_,?_,?_⟩⟩
  · rw [hkept₃.quants, hquants₂, hkept.quants]
  · intro p
    rw [hkept₃.same.group, htable₂, hkept.same.group]
  · rw [hkept₃.scheds, hscheds₂, hkept.scheds]
  · exact Option.some_injective _ (hrun.running.symm.trans h.running)
  · rw [hkept₃.next_alarm, halarm₂]
  · intro hticks
    rw [hkept₃.sched_ticks, hkept₃.prev_ptr, (hmore hticks).1, (hmore hticks).2, hkept.prev_ptr]
    exact ⟨rfl,rfl⟩
  · intro _ hnone
    rw [ha] at hnone
    cases hnone

/-- A tick that the handler deals with alone leaves the running process where it is. -/
theorem tick_count_handler (h : Running slots k xs) (order : List ρ) (hrate : 0 < SCHED_RATE HZ)
    (hno : ¬ (k.sched_ticks = 1 ∧ k.prev_ptr = some k.table.bill_ptr)) (ha : k.next_alarm = none) :
    ∃ k', tick HZ slots order fuel k = some k' ∧ Running slots k' xs ∧ Counted HZ k k' := by
  have hcounting := h.counting
  have haccount := h.accounted
  have hkept := account_kept slots k
  have hcharged : Charged k.table (account slots k).table := charge_charged _ _ _ _
  let k₁ := { account slots k with sched_ticks := k.sched_ticks - 1 }
  have hhandler : clock_handler HZ slots k = if k₁.sched_ticks = 0 then k₁.reload HZ else some k₁ := by
    rw [clock_handler, if_neg]
    · rfl
    · rintro (hdue | ⟨hticks,hprev,-⟩)
      · have hnone : (account slots k).next_alarm = none := ha
        rw [hnone] at hdue
        cases hdue
      · exact hno ⟨hticks,hprev.symm.trans (congrArg some hcharged.bill_ptr)⟩
  have hstay : ∀ k' : Kernel ρ, k'.table = (account slots k).table → k'.table.proc_ptr ≠ slots.CLOCK := by
    intro k' htable
    rw [htable, hcharged.proc_ptr]
    exact (h.user _ h.mem).1
  by_cases hticks : k.sched_ticks = 1
  · have hzero : k₁.sched_ticks = 0 := by simp [k₁, hticks]
    have hreload : k₁.reload HZ = _ := haccount.reload HZ rfl rfl
    rw [if_pos hzero, hreload, hkept.params.quantum, hcharged.proc_ptr] at hhandler
    have hq := h.quantsAt.2
    refine ⟨{ k₁ with
        sched_ticks := SCHED_RATE HZ * quantum k k.table.proc_ptr, prev_ptr := some k.table.proc_ptr },
      ?_,haccount.counters rfl rfl rfl ha ?_,⟨⟨rfl,hkept.params.group⟩,rfl,hcharged.proc_ptr,ha,
        fun hne => absurd hticks hne,fun _ _ => ⟨rfl,rfl⟩⟩⟩
    · simp only [tick, hhandler, Option.bind_eq_bind, Option.bind_some]
      rw [if_neg (hstay _ rfl)]
    · show (0 : ℤ) < SCHED_RATE HZ * quantum k k.table.proc_ptr
      exact_mod_cast Nat.mul_pos hrate hq
  · have hzero : k₁.sched_ticks ≠ 0 := by simp only [k₁]; omega
    rw [if_neg hzero] at hhandler
    refine ⟨k₁,?_,haccount.counters rfl rfl rfl ha (by simp only [k₁]; omega),
      ⟨⟨rfl,hkept.params.group⟩,rfl,hcharged.proc_ptr,ha,fun _ => ⟨rfl,rfl⟩,
        fun heq => absurd heq hticks⟩⟩
    simp only [tick, hhandler, Option.bind_eq_bind, Option.bind_some]
    rw [if_neg (hstay _ rfl)]

theorem tick_count (h : Running slots k xs) (order : List ρ) (hrate : 0 < SCHED_RATE HZ)
    (hfuel : 0 < fuel) (hno : ¬ (k.sched_ticks = 1 ∧ k.prev_ptr = some k.table.bill_ptr)) :
    ∃ k', tick HZ slots order fuel k = some k' ∧ Running slots k' xs ∧ Counted HZ k k' := by
  cases ha : k.next_alarm with
  | some n => exact tick_count_alarm h order hrate hfuel hno ha
  | none => exact tick_count_handler h order hrate hno ha

theorem ticks_succ (n : ℕ) (k : Kernel ρ) :
    ticks HZ slots order fuel (n + 1) k = (ticks HZ slots order fuel n k).bind (tick HZ slots order fuel) := by
  rw [ticks, List.replicate_succ', run_append]
  refine congrArg _ (funext fun k => ?_)
  simp [run]

theorem ticks_add (m n : ℕ) (k : Kernel ρ) : ticks HZ slots order fuel (m + n) k =
    (ticks HZ slots order fuel m k).bind (ticks HZ slots order fuel n) := by
  rw [ticks, List.replicate_add, run_append]
  rfl

/-- After this many ticks of a period nothing but the counter has changed. -/
structure Elapsed (slots : Slots ρ) (xs : List ρ) (k : Kernel ρ) (n : ℕ) (k' : Kernel ρ) : Prop
    extends SameParams k k' where
  running : Running slots k' xs
  scheds : k'.scheds = k.scheds
  proc_ptr : k'.table.proc_ptr = k.table.proc_ptr
  next_alarm : k'.next_alarm = none
  prev_ptr : k'.prev_ptr = k.prev_ptr
  sched_ticks : k'.sched_ticks = k.sched_ticks - n

/-- A period counts down to one. -/
theorem elapse (h : Running slots k xs) (order : List ρ) (halarm : k.next_alarm = none)
    (hrate : 0 < SCHED_RATE HZ) (hfuel : 0 < fuel) (n : ℕ) (hn : (n : ℤ) < k.sched_ticks) :
    ∃ k', ticks HZ slots order fuel n k = some k' ∧ Elapsed slots xs k n k' := by
  induction n with
  | zero => exact ⟨k,rfl,⟨⟨rfl,fun _ => rfl⟩,h,rfl,rfl,halarm,rfl,by simp⟩⟩
  | succ n ih =>
    push_cast at hn
    obtain ⟨k₁,hticks,he⟩ := ih (by omega)
    have hmore : k₁.sched_ticks ≠ 1 := by
      rw [he.sched_ticks]
      omega
    obtain ⟨k₂,htick,hrun,hc⟩ := tick_count he.running order hrate hfuel fun hboth => hmore hboth.1
    refine ⟨k₂,by rw [ticks_succ, hticks]; exact htick,⟨⟨?_,?_⟩,hrun,?_,?_,hc.next_alarm,?_,?_⟩⟩
    · rw [hc.quants, he.quants]
    · intro p
      rw [hc.group, he.group]
    · rw [hc.scheds, he.scheds]
    · rw [hc.proc_ptr, he.proc_ptr]
    · rw [(hc.count hmore).2, he.prev_ptr]
    · rw [(hc.count hmore).1, he.sched_ticks]
      push_cast
      omega

/-- The running process stays for exactly `len` ticks until `sched` is called. -/
def SliceIs (HZ : ℕ) (slots : Slots ρ) (order : List ρ) (fuel len : ℕ) (k : Kernel ρ) : Prop :=
  (∀ n < len, ∃ k', ticks HZ slots order fuel n k = some k' ∧
    k'.table.proc_ptr = k.table.proc_ptr ∧ k'.scheds = k.scheds) ∧
  ∃ k', ticks HZ slots order fuel len k = some k' ∧ k'.scheds = k.scheds + 1

/-- A plain period, in which the handler finds the process new, and a quantum. -/
theorem slice_of_fresh (h : Running slots k xs) (order : List ρ) (halarm : k.next_alarm = none)
    (hrate : 0 < SCHED_RATE HZ) (hfuel : xs.length + 2 ≤ fuel) (hticks : k.sched_ticks = SCHED_RATE HZ)
    (hprev : k.prev_ptr ≠ some k.table.bill_ptr) :
    SliceIs HZ slots order fuel (SCHED_RATE HZ * (1 + quantum k k.table.proc_ptr)) k := by
  obtain ⟨r,hr⟩ : ∃ r, SCHED_RATE HZ = r + 1 := ⟨SCHED_RATE HZ - 1,by omega⟩
  obtain ⟨q,hq⟩ : ∃ q, SCHED_RATE HZ * quantum k k.table.proc_ptr = q + 1 :=
    ⟨_,(Nat.succ_pred_eq_of_pos (Nat.mul_pos hrate h.quantsAt.2)).symm⟩
  have hpos : 0 < fuel := by omega
  -- the plain period ends with the handler taking the process for the sampled one
  obtain ⟨k₁,hticks₁,he₁⟩ := elapse h order halarm hrate hpos r (by omega)
  have hone₁ : k₁.sched_ticks = 1 := by
    rw [he₁.sched_ticks]
    omega
  have hfresh : k₁.prev_ptr ≠ some k₁.table.bill_ptr := by
    rwa [he₁.prev_ptr, he₁.running.billed, he₁.proc_ptr, ← h.billed]
  obtain ⟨k₂,htick₂,hrun₂,hc₂⟩ := tick_count he₁.running order hrate hpos fun hboth => hfresh hboth.2
  obtain ⟨hload,hprev₂⟩ := hc₂.expire hone₁ he₁.next_alarm
  have hticks₂ : ticks HZ slots order fuel (r + 1) k = some k₂ := by
    rw [ticks_succ, hticks₁]
    exact htick₂
  have hptr₂ : k₂.table.proc_ptr = k.table.proc_ptr := hc₂.proc_ptr.trans he₁.proc_ptr
  have hscheds₂ : k₂.scheds = k.scheds := hc₂.scheds.trans he₁.scheds
  rw [he₁.proc_ptr, he₁.quantum] at hload
  have hload₂ : k₂.sched_ticks = (q + 1 : ℕ) := by
    rw [hload, ← hq]
    push_cast
    rfl
  -- the quantum ends with the clock task
  obtain ⟨k₃,hticks₃,he₃⟩ := elapse hrun₂ order hc₂.next_alarm hrate hpos q (by omega)
  have hone₃ : k₃.sched_ticks = 1 := by
    rw [he₃.sched_ticks]
    omega
  have hprev₃ : k₃.prev_ptr = some k₃.table.bill_ptr := by
    rw [he₃.prev_ptr, hprev₂, he₃.running.billed, he₃.proc_ptr, hc₂.proc_ptr]
  obtain ⟨k₄,-,htick₄,-,-,hs₄⟩ := tick_sched he₃.running order hrate hfuel hone₃ hprev₃
  have hlen : SCHED_RATE HZ * (1 + quantum k k.table.proc_ptr) = (r + 1) + (q + 1) := by
    rw [Nat.mul_add, hq, hr, Nat.mul_one]
  rw [hlen]
  refine ⟨fun n hn => ?_,k₄,?_,?_⟩
  · by_cases hfirst : n ≤ r
    · obtain ⟨k',hk',he'⟩ := elapse h order halarm hrate hpos n (by omega)
      exact ⟨k',hk',he'.proc_ptr,he'.scheds⟩
    · obtain ⟨j,rfl⟩ : ∃ j, n = (r + 1) + j := ⟨n - (r + 1),by omega⟩
      obtain ⟨k',hk',he'⟩ := elapse hrun₂ order hc₂.next_alarm hrate hpos j (by omega)
      refine ⟨k',?_,he'.proc_ptr.trans hptr₂,he'.scheds.trans hscheds₂⟩
      rw [ticks_add, hticks₂]
      exact hk'
  · rw [← Nat.add_assoc, ticks_succ, ticks_add, hticks₂, Option.bind_some, hticks₃]
    exact htick₄
  · rw [hs₄.scheds, he₃.scheds, hscheds₂]

theorem tick_running (h : Running slots k xs) (hrate : 0 < SCHED_RATE HZ) (hfuel : xs.length + 2 ≤ fuel)
    (htick : tick HZ slots order fuel k = some k') :
    ∃ ys, Running slots k' ys ∧ ys.length = xs.length := by
  by_cases hboth : k.sched_ticks = 1 ∧ k.prev_ptr = some k.table.bill_ptr
  · obtain ⟨k₁,ys,htick₁,hrun,hlen,-⟩ := tick_sched h order hrate hfuel hboth.1 hboth.2
    rw [htick₁] at htick
    cases htick
    exact ⟨ys,hrun,hlen⟩
  · obtain ⟨k₁,htick₁,hrun,-⟩ := tick_count h order hrate (show 0 < fuel by omega) hboth
    rw [htick₁] at htick
    cases htick
    exact ⟨xs,hrun,rfl⟩

theorem ticks_running (h : Running slots k xs) (hrate : 0 < SCHED_RATE HZ) (hfuel : xs.length + 2 ≤ fuel)
    (n : ℕ) (hrun : ticks HZ slots order fuel n k = some k') :
    ∃ ys, Running slots k' ys ∧ ys.length = xs.length := by
  have hstep : ∀ (k : Kernel ρ) (_ : Unit) (k' : Kernel ρ),
      (∃ ys, Running slots k ys ∧ ys.length = xs.length) → tick HZ slots order fuel k = some k' →
        ∃ ys, Running slots k' ys ∧ ys.length = xs.length := by
    rintro k - k' ⟨ys,hys,hlen⟩ htick
    obtain ⟨zs,hzs,hlen'⟩ := tick_running hys hrate (hlen ▸ hfuel) htick
    exact ⟨zs,hzs,hlen'.trans hlen⟩
  exact run_invariant hstep ⟨xs,h,rfl⟩ hrun

/-- Whenever in a run the clock task calls `sched`, the process then put in front
is another one, and it runs for one plain period and the quantum of its group. -/
theorem time_slice (hHZ : 10 ≤ HZ) (h : Running slots k xs) (hfuel : xs.length + 2 ≤ fuel) (n : ℕ)
    (m m' : Kernel ρ) (hrun : ticks HZ slots order fuel n k = some m)
    (htick : tick HZ slots order fuel m = some m') (hsched : m'.scheds ≠ m.scheds) :
    m'.table.proc_ptr ≠ m.table.bill_ptr ∧
      SliceIs HZ slots order fuel (SCHED_RATE HZ * (1 + quantum m' m'.table.proc_ptr)) m' := by
  have hrate : 0 < SCHED_RATE HZ := by
    unfold SCHED_RATE MILLISEC
    omega
  obtain ⟨ys,hm,hlen⟩ := ticks_running h hrate hfuel n hrun
  by_cases hboth : m.sched_ticks = 1 ∧ m.prev_ptr = some m.table.bill_ptr
  · obtain ⟨m₁,zs,htick₁,hrun₁,hlen₁,hs⟩ :=
      tick_sched hm order hrate (show ys.length + 2 ≤ fuel by omega) hboth.1 hboth.2
    rw [htick₁] at htick
    cases htick
    refine ⟨hs.changed,slice_of_fresh hrun₁ order hs.next_alarm hrate (by omega) hs.sched_ticks ?_⟩
    rw [hs.prev_ptr, hrun₁.billed]
    exact fun heq => hs.changed (Option.some_injective _ heq).symm
  · obtain ⟨m₁,htick₁,-,hc⟩ := tick_count hm order hrate (show 0 < fuel by omega) hboth
    rw [htick₁] at htick
    cases htick
    exact absurd hc.scheds hsched

def fourSlots : Slots (Fin 4) := ⟨0,1,0⟩

def twoReady : Kernel (Fin 4) where
  table := {
    proc := ![{ p_priority := .PPRI_IDLE },{ p_priority := .PPRI_TASK, p_flags := { RECEIVING := true } },
      { p_priority := .PPRI_USER, p_pid := 1, p_nextready := some 3 },{ p_priority := .PPRI_USER, p_pid := 2 }]
    rdy_head := fun q => if q = .USER_Q then some 2 else none
    rdy_tail := fun q => if q = .USER_Q then some 3 else none
    proc_ptr := 2
    bill_ptr := 2 }
  quants := ![1,3,2]
  sched_ticks := 1
  prev_ptr := some 2

theorem twoReady_running : Running fourSlots twoReady [2,3] := by
  refine ⟨⟨⟨by simp [twoReady, Table.next],by simp [twoReady]⟩,by decide,by decide,rfl,by decide,by decide,rfl,rfl,
    by decide⟩,rfl,rfl,rfl,rfl,by simp [twoReady],by decide⟩

/-- The slice that the quantum of the group alone would give is too short: after
the six ticks that it allows, `sched` has not been called again. -/
theorem slice_longer_than_quantum :
    ¬ ∀ (k : Kernel (Fin 4)) (xs : List (Fin 4)) (n : ℕ) (m m' : Kernel (Fin 4)), Running fourSlots k xs →
      ticks 60 fourSlots [0,1,2,3] 4 n k = some m → tick 60 fourSlots [0,1,2,3] 4 m = some m' →
      m'.scheds ≠ m.scheds → m'.table.proc_ptr ≠ m.table.bill_ptr →
      SliceIs 60 fourSlots [0,1,2,3] 4 (SCHED_RATE 60 * quantum m' m'.table.proc_ptr) m' := by
  intro h
  obtain ⟨m',ys,htick,hrun,hlen,hs⟩ :=
    tick_sched twoReady_running [0,1,2,3] (show 0 < SCHED_RATE 60 by decide) (show _ ≤ 4 by decide) rfl rfl
  have hne : m'.scheds ≠ twoReady.scheds := by
    rw [hs.scheds]
    decide
  obtain ⟨-,u,hu,hcalled⟩ := h twoReady [2,3] 0 twoReady m' twoReady_running rfl htick hne hs.changed
  have hfresh : m'.prev_ptr ≠ some m'.table.bill_ptr := by
    rw [hs.prev_ptr, hrun.billed]
    exact fun heq => hs.changed (Option.some_injective _ heq).symm
  have hslice := slice_of_fresh hrun [0,1,2,3] hs.next_alarm (show 0 < SCHED_RATE 60 by decide)
    (show ys.length + 2 ≤ 4 by rw [hlen]; decide) hs.sched_ticks hfresh
  obtain ⟨u',hu',-,hstill⟩ := hslice.1 (SCHED_RATE 60 * quantum m' m'.table.proc_ptr) (by
    rw [Nat.mul_add]
    exact Nat.lt_add_of_pos_left (by decide))
  rw [hu] at hu'
  cases hu'
  omega

/-- There the slice is six ticks and six more. -/
theorem twoReady_slice : ∃ m', tick 60 fourSlots [0,1,2,3] 4 twoReady = some m' ∧
    m'.table.proc_ptr ≠ twoReady.table.bill_ptr ∧
    SliceIs 60 fourSlots [0,1,2,3] 4 (SCHED_RATE 60 * (1 + quantum m' m'.table.proc_ptr)) m' := by
  have hall : (tick 60 fourSlots [0,1,2,3] 4 twoReady).any (fun m' => m'.scheds == 1) = true := by decide
  obtain ⟨m',hm',hscheds⟩ := (Option.any_eq_true _ _).mp hall
  have hne : m'.scheds ≠ twoReady.scheds := by
    rw [beq_iff_eq.mp hscheds]
    decide
  exact ⟨m',hm',time_slice (by decide) twoReady_running (by decide) 0 twoReady m' rfl hm' hne⟩

end SOI.Scheduling

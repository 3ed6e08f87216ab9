import SOI.Scheduling.KernelSteps

/-! # Interrupts

What becomes of an interrupt: it is held up, put on record until its task asks for
it, or the task gets its message at once. No interrupt is lost in between, and a
task is told about no more of them than there were.
-/
namespace SOI.Scheduling
open Linked Parents Rendezvous
variable {ρ : Type} [DecidableEq ρ] [Fintype ρ] {c : Config ρ} {s s₁ s' : System ρ} {t t' t₁ : Table ρ} {r r' : Mailbox ρ}
  {v v' : View ρ} {task : ρ} {k_reenter : ℤ} {S : Finset ρ}

omit [DecidableEq ρ] [Fintype ρ] in
def View.waits (v : View ρ) (task : ρ) : Bool := v.RECEIVING task && !v.SENDING task && isrxhardware (v.getfrom task)

/-- What an interrupt does to its task. -/
inductive Outcome (k_reenter : ℤ) (task : ρ) (v : View ρ) : View ρ → Prop
  | again (hk : k_reenter ≠ 0) (hheld : v.int_held task = true) : Outcome k_reenter task v v
  | held {next : ρ → Option ρ} (hk : k_reenter ≠ 0) (hheld : v.int_held task = false)
      (hqueue : Held { v with
        int_held := Function.update v.int_held task true
        nextheld := next
        held_head := some (v.held_head.getD task)
        held_tail := some task }) :
      Outcome k_reenter task v { v with
        int_held := Function.update v.int_held task true
        nextheld := next
        held_head := some (v.held_head.getD task)
        held_tail := some task }
  | blocked (hk : k_reenter = 0) (hwaits : v.waits task = false) :
      Outcome k_reenter task v { v with int_blocked := Function.update v.int_blocked task true }
  | taken (hk : k_reenter = 0) (hwaits : v.waits task = true) :
      Outcome k_reenter task v { v with
        memory := Function.update v.memory task (Function.update (v.memory task) (v.messbuf task)
          { v.memory task (v.messbuf task) with m_source := .HARDWARE, m_type := HARD_INT })
        RECEIVING := Function.update v.RECEIVING task false
        int_blocked := Function.update v.int_blocked task false
        interrupts := v.interrupts ++ [.taken task] }

omit [Fintype ρ] in
theorem Lined.setField (h : Lined t S) (rp : ρ) {f : Proc ρ → Proc ρ} (hnext : ∀ p, (f p).p_nextready = p.p_nextready)
    (hclass : ∀ p, (f p).p_priority = p.p_priority) (hgroup : ∀ p, (f p).group = p.group)
    (hguard : ∀ p, (f p).p_stguard = p.p_stguard) : Lined (t.setProc rp f) S := by
  refine h.setProc hnext (fun _ => hclass _) ?_ ?_
  · rw [hgroup]
    exact h.queues.groups rp
  · rw [hguard]
    exact h.guards rp

omit [Fintype ρ] in
theorem Roles.alive_task (h : Roles c v) (htask : v.priority task = .PPRI_TASK ∧ task ≠ c.slots.HARDWARE) : v.alive c task := by
  refine ⟨by simp [htask.1],?_⟩
  rw [Config.isidlehardware, Bool.or_eq_false_iff, decide_eq_false_iff_not, decide_eq_false_iff_not]
  refine ⟨?_,htask.2⟩
  rintro rfl
  rw [h.idle] at htask
  cases htask.1

structure Unmoved (slots : Slots ρ) (t t' : Table ρ) : Prop where
  switching : t'.switching = t.switching
  picked : Picked slots t → Picked slots t'

omit [Fintype ρ] in
theorem hold_behind {k : Kernel ρ} {x tail : ρ} (hfree : (k.table.proc task).p_int_held = false)
    (hhead : k.held_head = some x) (htail : k.held_tail = some tail) :
    hold k task = some ({ (k.setProc task fun p => { p with p_int_held := true }).setProc tail
      fun p => { p with p_nextheld := some task } with held_tail := some task }.setProc task
        fun p => { p with p_nextheld := none }) := by
  obtain ⟨_,_,_,_,_,_,_,_,_,head,last,_⟩ := k
  obtain rfl : head = some x := hhead
  obtain rfl : last = some tail := htail
  rw [hold, if_neg (by rw [hfree]; simp)]
  rfl

theorem interrupt_hold (hk : k_reenter ≠ 0) (hready : Ready c s) (hheld : Held s.view) :
    ∃ s', s.interrupt k_reenter task = some s' ∧ Ready c s' ∧ Unmoved c.slots s.table s'.table ∧
      Outcome k_reenter task s.view s'.view := by
  let s₀ : System ρ := { s with kernel := { s.kernel with k_reenter := k_reenter } }
  have hlined : Lined s.table (s.view.runnable c) := hready
  have hinterrupt : s.interrupt k_reenter task = (hold s₀.kernel task).map fun k => { s₀ with kernel := k } := by
    have hnot : ¬ (k_reenter = 0 ∧ ¬ s₀.table.switching ∧ (s₀.flags task).RECEIVING ∧ ¬ (s₀.flags task).SENDING ∧
        isrxhardware (s₀.table.proc task).p_getfrom) := fun hno => hk hno.1
    rw [System.interrupt]
    dsimp only
    rw [if_neg hnot, Scheduling.interrupt, if_pos (Or.inl hk)]
  rw [hinterrupt]
  by_cases hint : (s₀.kernel.table.proc task).p_int_held = true
  · rw [hold, if_pos hint]
    exact ⟨s₀,rfl,hready,⟨rfl,id⟩,.again hk hint⟩
  have hfree : s.view.int_held task = false := Bool.eq_false_iff.mpr hint
  obtain ⟨next,hpush,hcases⟩ := hheld.push hfree
  let s₁ := s₀.setProc task fun p => { p with p_int_held := true }
  have hlined₁ : Lined s₁.table (s.view.runnable c) :=
    Lined.setField hlined task (f := fun p => { p with p_int_held := true }) (fun _ => rfl) (fun _ => rfl) (fun _ => rfl) fun _ => rfl
  have hview₁ : s₁.view = { s.view with int_held := Function.update s.view.int_held task true } := by
    rw [view_int_held]
    rfl
  rcases hcases with ⟨hhead,rfl⟩ | ⟨tail,hhead,htail,rfl⟩
  · let s₂ : System ρ := { s₁ with kernel := { s₁.kernel with held_head := some task, held_tail := some task } }
    let s₃ := s₂.setProc task fun p => { p with p_nextheld := none }
    have hview₂ : s₂.view = { s₁.view with held_head := some task, held_tail := some task } := rfl
    have hview : s₃.view = { s.view with
        int_held := Function.update s.view.int_held task true
        nextheld := Function.update s.view.nextheld task none
        held_head := some (s.view.held_head.getD task)
        held_tail := some task } := by
      rw [view_nextheld, hview₂, hview₁, hhead]
      rfl
    refine ⟨s₃,?_,?_,⟨rfl,fun hpick => hpick.congr rfl rfl⟩,?_⟩
    · have hnone : s₀.kernel.held_head = none := hhead
      rw [hold, if_neg hint]
      simp only [Kernel.setProc, hnone]
      rfl
    · rw [Ready, hview]
      exact Lined.setField (t := s₂.table) hlined₁ task (f := fun p => { p with p_nextheld := none }) (fun _ => rfl)
        (fun _ => rfl) (fun _ => rfl) fun _ => rfl
    · rw [hview]
      exact .held hk hfree hpush
  · let s₂ := s₁.setProc tail fun p => { p with p_nextheld := some task }
    let s₃ : System ρ := { s₂ with kernel := { s₂.kernel with held_tail := some task } }
    let s₄ := s₃.setProc task fun p => { p with p_nextheld := none }
    obtain ⟨x,hx⟩ := Option.ne_none_iff_exists'.mp hhead
    have hview₂ : s₂.view = { s₁.view with nextheld := Function.update s₁.view.nextheld tail (some task) } :=
      view_nextheld ..
    have hview₃ : s₃.view = { s₂.view with held_tail := some task } := rfl
    have hview : s₄.view = { s.view with
        int_held := Function.update s.view.int_held task true
        nextheld := Function.update (Function.update s.view.nextheld tail (some task)) task none
        held_head := some (s.view.held_head.getD task)
        held_tail := some task } := by
      rw [view_nextheld, hview₃, hview₂, hview₁, hx]
      apply View.ext
      case held_head => exact hx
      all_goals rfl
    have hlined₂ : Lined s₂.table (s.view.runnable c) :=
      Lined.setField hlined₁ tail (f := fun p => { p with p_nextheld := some task }) (fun _ => rfl) (fun _ => rfl) (fun _ => rfl)
        fun _ => rfl
    refine ⟨s₄,?_,?_,⟨rfl,fun hpick => hpick.congr rfl rfl⟩,?_⟩
    · rw [@hold_behind _ _ task s₀.kernel x tail hfree hx htail]
      rfl
    · rw [Ready, hview]
      exact Lined.setField (t := s₃.table) hlined₂ task (f := fun p => { p with p_nextheld := none }) (fun _ => rfl)
        (fun _ => rfl) (fun _ => rfl) fun _ => rfl
    · rw [hview]
      exact .held hk hfree hpush

omit [Fintype ρ] in
theorem interrupt_blocks {k : Kernel ρ} (hopen : ¬ (k.k_reenter ≠ 0 ∨ k.table.switching = true))
    (hwaits : ¬ ((k.table.proc task).p_flags.RECEIVING = true ∧ ¬ (k.table.proc task).p_flags.SENDING = true) ∨
      ¬ isrxhardware (k.table.proc task).p_getfrom = true) :
    Scheduling.interrupt k task = some (k.setProc task fun p => { p with p_int_blocked := true }) := by
  rw [Scheduling.interrupt]
  simp only [if_neg hopen, if_pos hwaits]

omit [Fintype ρ] in
theorem interrupt_starts {k : Kernel ρ} (hopen : ¬ (k.k_reenter ≠ 0 ∨ k.table.switching = true))
    (hwaits : ¬ (¬ ((k.table.proc task).p_flags.RECEIVING = true ∧ ¬ (k.table.proc task).p_flags.SENDING = true) ∨
      ¬ isrxhardware (k.table.proc task).p_getfrom = true)) :
    Scheduling.interrupt k task = (readyTask (k.table.setProc task
      fun p => { p with p_flags := { p.p_flags with RECEIVING := false }, p_int_blocked := false }) task).map
        fun table => { k with table := table } := by
  rw [Scheduling.interrupt]
  simp only [if_neg hopen, if_neg hwaits]
  rfl

theorem interrupt_now (hready : Ready c s) (hswitch : s.table.switching = false) (hroles : Roles c s.view)
    (htask : s.view.priority task = .PPRI_TASK ∧ task ≠ c.slots.HARDWARE) :
    ∃ s', s.interrupt 0 task = some s' ∧ Ready c s' ∧ Unmoved c.slots s.table s'.table ∧ Outcome 0 task s.view s'.view := by
  let s₀ : System ρ := { s with kernel := { s.kernel with k_reenter := 0 } }
  have hclass := htask.1
  have halive := hroles.alive_task htask
  have hlined : Lined s.table (s.view.runnable c) := hready
  have hopen : ¬ (s₀.kernel.k_reenter ≠ 0 ∨ s₀.kernel.table.switching = true) := by
    rintro (hno | hno)
    · exact hno rfl
    · exact Bool.noConfusion (hswitch.symm.trans hno)
  cases hwaits : s.view.waits task with
  | false =>
    have hflags : ¬ ((s.flags task).RECEIVING = true ∧ ¬ (s.flags task).SENDING = true) ∨
        ¬ isrxhardware (s.table.proc task).p_getfrom = true := by
      by_contra hno
      rw [not_or, not_not, not_not] at hno
      have hyes : s.view.waits task = true := by
        rw [View.waits, Bool.and_eq_true, Bool.and_eq_true, Bool.not_eq_true']
        exact ⟨⟨hno.1.1,Bool.eq_false_iff.mpr hno.1.2⟩,hno.2⟩
      exact Bool.noConfusion (hwaits.symm.trans hyes)
    have hnot : ¬ ((0 : ℤ) = 0 ∧ ¬ s₀.table.switching ∧ (s₀.flags task).RECEIVING ∧ ¬ (s₀.flags task).SENDING ∧
        isrxhardware (s₀.table.proc task).p_getfrom) := by
      rintro ⟨-,-,hR,hS,hrx⟩
      exact hflags.elim (fun hno => hno ⟨hR,hS⟩) fun hno => hno hrx
    let s' := s₀.setProc task fun p => { p with p_int_blocked := true }
    have hview : s'.view = { s.view with int_blocked := Function.update s.view.int_blocked task true } := by
      rw [view_int_blocked]
      rfl
    refine ⟨s',?_,?_,⟨rfl,fun hpick => hpick.congr rfl rfl⟩,?_⟩
    · have hsys : s.interrupt 0 task = (Scheduling.interrupt s₀.kernel task).map fun k => { s₀ with kernel := k } := by
        rw [System.interrupt]
        dsimp only
        rw [if_neg hnot]
      rw [hsys, interrupt_blocks hopen hflags]
      rfl
    · rw [Ready, hview]
      exact hlined.setField task (f := fun p => { p with p_int_blocked := true }) (fun _ => rfl) (fun _ => rfl)
        (fun _ => rfl) fun _ => rfl
    · rw [hview]
      exact .blocked rfl hwaits
  | true =>
    obtain ⟨⟨hR,hS⟩,hrx⟩ : ((s.flags task).RECEIVING = true ∧ (s.flags task).SENDING = false) ∧
        isrxhardware (s.table.proc task).p_getfrom = true := by
      rw [View.waits, Bool.and_eq_true, Bool.and_eq_true, Bool.not_eq_true'] at hwaits
      exact hwaits
    have hyes : (0 : ℤ) = 0 ∧ ¬ s₀.table.switching = true ∧ (s₀.flags task).RECEIVING = true ∧
        ¬ (s₀.flags task).SENDING = true ∧ isrxhardware (s₀.table.proc task).p_getfrom = true :=
      ⟨rfl,fun hno => Bool.noConfusion (hswitch.symm.trans hno),hR,fun hno => Bool.noConfusion (hS.symm.trans hno),hrx⟩
    have hflags : ¬ (¬ ((s.flags task).RECEIVING = true ∧ ¬ (s.flags task).SENDING = true) ∨
        ¬ isrxhardware (s.table.proc task).p_getfrom = true) := by
      rintro (hno | hno)
      · exact hno ⟨hR,hyes.2.2.2.1⟩
      · exact hno hrx
    let s₁ := (s₀.hardInt task (s.post task).p_messbuf).setProc task
      fun p => { p with p_flags := { p.p_flags with RECEIVING := false }, p_int_blocked := false }
    have hview : s₁.view = { s.view with
        memory := Function.update s.view.memory task (Function.update (s.view.memory task) (s.view.messbuf task)
          { s.view.memory task (s.view.messbuf task) with m_source := .HARDWARE, m_type := HARD_INT })
        RECEIVING := Function.update s.view.RECEIVING task false
        int_blocked := Function.update s.view.int_blocked task false
        interrupts := s.view.interrupts ++ [.taken task] } := by
      rw [view_setProc]
      apply View.ext
      all_goals first | rfl | exact Function.update_eq_self _ _
    have hlined₁ : Lined s₁.table (s.view.runnable c) :=
      Lined.setField (t := s.table) hlined task
        (f := fun p => { p with p_flags := { p.p_flags with RECEIVING := false }, p_int_blocked := false })
        (fun _ => rfl) (fun _ => rfl) (fun _ => rfl) fun _ => rfl
    have hnot : task ∉ s.view.runnable c := by
      rw [mem_runnable, flagless_of_RECEIVING hR]
      simp
    obtain ⟨t,hrun,hlined',hreadied⟩ := ready_spec c.slots hlined₁ hnot
    have hpriority : (s₁.table.proc task).p_priority = .PPRI_TASK :=
      (kept_setProc (f := fun p => { p with p_flags := { p.p_flags with RECEIVING := false }, p_int_blocked := false })
        Proc.p_priority rfl).trans hclass
    have hrunTask : istaskp s₁.table task = true := decide_eq_true hpriority
    have hstarted : readyTask s₁.table task = some t := by
      rw [← hrun, ready, if_pos hrunTask]
    refine ⟨s₁.withTable t,?_,?_,⟨?_,fun hpick => ?_⟩,?_⟩
    · let s₂ := s₀.hardInt task (s.post task).p_messbuf
      have hsys : s.interrupt 0 task = (Scheduling.interrupt s₂.kernel task).map fun k => { s₂ with kernel := k } := by
        rw [System.interrupt]
        dsimp only
        rw [if_pos hyes]
      have hstart := @interrupt_starts _ _ task s₂.kernel hopen hflags
      rw [show readyTask (s₂.kernel.table.setProc task _) task = some t from hstarted] at hstart
      rw [hsys, hstart]
      rfl
    · have helse : Elsewhere task s.view s₁.view := by
        rw [hview]
        exact fun p hp => ⟨by simp only [View.flagless, Function.update_of_ne hp],rfl⟩
      have hplain := hroles.plain task hclass
      have hflag : s₁.view.flagless task = true := by
        rw [hview, flagless_iff]
        exact ⟨hplain.1,hS,Function.update_self ..,hplain.2.1,hplain.2.2.1,hplain.2.2.2⟩
      have halive₁ : s₁.view.alive c task := by
        rw [hview]
        exact halive
      rw [Ready, view_withTable hreadied.same, runnable_insert helse halive₁ hnot, if_pos hflag]
      exact hlined'
    · exact (hreadied.switching hswitch).trans hswitch.symm
    · exact hreadied.picked (Or.inl hrunTask) (hpick.congr rfl rfl)
    · rw [view_withTable hreadied.same, hview]
      exact .taken rfl hwaits

section Outcome
variable {c : Config ρ}

omit [DecidableEq ρ] [Fintype ρ] in
theorem View.waits_iff : v.waits task = true ↔
    v.RECEIVING task = true ∧ v.SENDING task = false ∧ isrxhardware (v.getfrom task) = true := by
  rw [View.waits, Bool.and_eq_true, Bool.and_eq_true, Bool.not_eq_true', and_assoc]

omit [Fintype ρ] in
theorem Outcome.mail (h : Outcome k_reenter task v v') (hmail : Mail c v r) : ∃ r', Mail c v' r' := by
  cases h with
  | again => exact ⟨r,hmail⟩
  | held => exact ⟨r,hmail.frame rfl rfl rfl rfl rfl rfl rfl rfl rfl⟩
  | blocked => exact ⟨r,hmail.frame rfl rfl rfl rfl rfl rfl rfl rfl rfl⟩
  | taken hk hwaits =>
    refine ⟨_,((hmail.store (View.waits_iff.mp hwaits).2.1 _).wake task).frame rfl rfl rfl rfl rfl rfl rfl rfl rfl⟩

omit [Fintype ρ] in
theorem Outcome.roles (h : Outcome k_reenter task v v') (hroles : Roles c v)
    (htask : v.priority task = .PPRI_TASK ∧ task ≠ c.slots.HARDWARE) : Roles c v' := by
  cases h with
  | again => exact hroles
  | held =>
    have hset := hroles.setAlerts true (v.int_blocked task) htask
    rw [Function.update_eq_self] at hset
    exact { hset with }
  | blocked =>
    have hset := hroles.setAlerts (v.int_held task) true htask
    rw [Function.update_eq_self] at hset
    exact { hset with }
  | taken =>
    have hset := (hroles.setReceiving false (hroles.alive_task htask)).setAlerts (v.int_held task) false htask
    rw [Function.update_eq_self] at hset
    exact { hset with }

omit [Fintype ρ] in
theorem Outcome.held_queue (h : Outcome k_reenter task v v') (hheld : Held v) : Held v' := by
  cases h with
  | again => exact hheld
  | held hk hfree hqueue => exact hqueue
  | blocked => exact hheld
  | taken => exact hheld

theorem Outcome.signals (h : Outcome k_reenter task v v') (hsignals : Signals c v) : Signals c v' := by
  cases h with
  | again => exact hsignals
  | held => exact { hsignals with }
  | blocked => exact { hsignals with }
  | taken => exact { hsignals with }

omit [Fintype ρ] in
theorem Outcome.told (h : Outcome k_reenter task v v') (htold : Told c v) : Told c v' := by
  cases h with
  | again => exact htold
  | held => exact htold
  | blocked => exact htold
  | taken =>
    refine htold.of (fun hmm => ?_) rfl rfl
    dsimp only at hmm
    by_cases htask : c.MM_PROC_NR = task
    · rw [htask, Function.update_self] at hmm
      cases hmm
    · rwa [Function.update_of_ne htask] at hmm

omit [Fintype ρ] in
/-- A new interrupt is held up, put on record or answered. -/
theorem Outcome.ints_raised (h : Outcome k_reenter task { v with interrupts := v.interrupts ++ [.raised task] } v')
    (hints : Ints v) : Ints v' := by
  have hcounted := hints.counted task
  cases h with
  | again hk hheld =>
    have hset := @Ints.setTask _ _ _ hints task (v.int_held task) (v.int_blocked task) (v.RECEIVING task) [.raised task]
      (by simp) (hints.reply task) (hints.ready task) (fun _ => Or.inl hheld) (by
        rw [List.count_append, List.count_append]
        simp
        omega)
    simp only [Function.update_eq_self] at hset
    exact { hset with }
  | held hk hheld =>
    dsimp only at hheld
    rw [hheld] at hcounted
    have hset := @Ints.setTask _ _ _ hints task true (v.int_blocked task) (v.RECEIVING task) [.raised task]
      (by simp) (hints.reply task) (hints.ready task) (fun _ => Or.inl rfl) (by
        rw [List.count_append, List.count_append]
        simp at hcounted ⊢
        omega)
    simp only [Function.update_eq_self] at hset
    exact { hset with }
  | blocked hk hwaits =>
    have hset := @Ints.setTask _ _ _ hints task (v.int_held task) true (v.RECEIVING task) [.raised task]
      (by simp) (hints.reply task) (fun hS hR hrx => by
        have hyes : v.waits task = true := View.waits_iff.mpr ⟨hR,hS,hrx⟩
        exact Bool.noConfusion (hyes.symm.trans hwaits)) (fun _ => Or.inr rfl) (by
        rw [List.count_append, List.count_append]
        simp
        omega)
    simp only [Function.update_eq_self] at hset
    exact { hset with }
  | taken hk hwaits =>
    have hset := @Ints.setTask _ _ _ hints task (v.int_held task) false false [.raised task,.taken task]
      (by simp) (fun _ hno => Bool.noConfusion hno) (fun _ hno => Bool.noConfusion hno)
      (fun hno => by rw [List.append_cons, unanswered_taken] at hno; cases hno) (by
        rw [List.count_append, List.count_append]
        simp
        omega)
    simp only [Function.update_eq_self] at hset
    rw [List.append_cons v.interrupts] at hset
    exact { hset with }

omit [Fintype ρ] in
theorem Outcome.ints_unheld {held_head held_tail : Option ρ}
    (h : Outcome 0 task { v with
      int_held := Function.update v.int_held task false
      held_head := held_head
      held_tail := held_tail } v')
    (hints : Ints v) (hheld : v.int_held task = true) : Ints v' := by
  have hcounted := hints.counted task
  rw [hheld] at hcounted
  cases h with
  | again hk => exact absurd rfl hk
  | held hk => exact absurd rfl hk
  | blocked hk hwaits =>
    have hset := @Ints.setTask _ _ _ hints task false true (v.RECEIVING task) []
      (by simp) (hints.reply task) (fun hS hR hrx => by
        have hyes : v.waits task = true := View.waits_iff.mpr ⟨hR,hS,hrx⟩
        exact Bool.noConfusion (hyes.symm.trans hwaits)) (fun _ => Or.inr rfl) (by
        simp at hcounted ⊢
        omega)
    simp only [Function.update_eq_self, List.append_nil] at hset
    exact { hset with }
  | taken hk hwaits =>
    have hset := @Ints.setTask _ _ _ hints task false false false [.taken task]
      (by simp) (fun _ hno => Bool.noConfusion hno) (fun _ hno => Bool.noConfusion hno)
      (fun hno => by rw [unanswered_taken] at hno; cases hno) (by
        rw [List.count_append, List.count_append]
        simp at hcounted ⊢
        omega)
    exact { hset with }

end Outcome

theorem Steady.interrupt (h : Steady c s r) (hlegal : Legal c s (.interrupt k_reenter task)) :
    ∃ s' r', kernelStep c s (.interrupt k_reenter task) = some s' ∧ Steady c s' r' := by
  have htask : s.view.priority task = .PPRI_TASK ∧ task ≠ c.slots.HARDWARE := ⟨of_decide_eq_true hlegal.1,hlegal.2⟩
  let s₀ : System ρ := { s with interrupts := s.interrupts ++ [Interrupt.raised task] }
  have hview₀ : s₀.view = { s.view with interrupts := s.view.interrupts ++ [.raised task] } := rfl
  obtain ⟨s',hrun,hready,hunmoved,hout⟩ : ∃ s', s₀.interrupt k_reenter task = some s' ∧ Ready c s' ∧
      Unmoved c.slots s.table s'.table ∧ Outcome k_reenter task s₀.view s'.view := by
    by_cases hk : k_reenter = 0
    · subst hk
      exact interrupt_now (s := s₀) h.ready h.switching { h.roles with } htask
    · exact interrupt_hold (s := s₀) hk h.ready h.held
  have hmail₀ : Mail c s₀.view r := h.mail.frame rfl rfl rfl rfl rfl rfl rfl rfl rfl
  obtain ⟨r',hmail⟩ := hout.mail hmail₀
  refine ⟨s',r',hrun,⟨⟨hready,hmail,hout.roles { h.roles with } htask,?_,hout.held_queue h.held⟩,
    hout.signals { h.signals with }⟩,hout.told h.told,hunmoved.switching.trans h.switching,hunmoved.picked h.picked⟩
  rw [hview₀] at hout
  exact hout.ints_raised h.ints

/-- One turn of the loop that repeats the held-up interrupts. -/
theorem Steady.unholdOne (h : Steady c s r) (hhead : s.kernel.held_head = some task) :
    ∃ s' r', s.unholdOne task = some s' ∧ Steady c s' r' ∧ s'.view.held_head = s.view.nextheld task ∧
      s'.view.nextheld = s.view.nextheld := by
  obtain ⟨hheld,hpop⟩ := h.held.pop hhead
  have htask := h.roles.alerts task (Or.inl hheld)
  let k : Kernel ρ := { s.kernel with
    held_head := (s.table.proc task).p_nextheld
    held_tail := if (s.table.proc task).p_nextheld = none then none else s.kernel.held_tail }
  let s₀ : System ρ := ({ s with kernel := k } : System ρ).setProc task fun p => { p with p_int_held := false }
  have hview₀ : s₀.view = { s.view with
      int_held := Function.update s.view.int_held task false
      held_head := s.view.nextheld task
      held_tail := if s.view.nextheld task = none then none else s.view.held_tail } := by
    rw [view_int_held]
    rfl
  have hready₀ : Ready c s₀ := by
    have hlined : Lined ({ s with kernel := k } : System ρ).table (s.view.runnable c) := h.ready
    rw [Ready, hview₀]
    exact hlined.setField task (f := fun p => { p with p_int_held := false }) (fun _ => rfl) (fun _ => rfl) (fun _ => rfl)
      fun _ => rfl
  have hroles₀ : Roles c s₀.view := by
    have hset := h.roles.setAlerts false (s.view.int_blocked task) htask
    rw [Function.update_eq_self] at hset
    rw [hview₀]
    exact { hset with }
  have htask₀ : s₀.view.priority task = .PPRI_TASK ∧ task ≠ c.slots.HARDWARE := by
    rw [hview₀]
    exact htask
  have hmail₀ : Mail c s₀.view r := by
    rw [hview₀]
    exact h.mail.frame rfl rfl rfl rfl rfl rfl rfl rfl rfl
  obtain ⟨s',hrun,hready,hunmoved,hout⟩ := interrupt_now (s := s₀) hready₀ h.switching hroles₀ htask₀
  obtain ⟨r',hmail⟩ := hout.mail hmail₀
  have hroles := hout.roles hroles₀ htask₀
  rw [hview₀] at hout
  refine ⟨s',r',hrun,⟨⟨⟨hready,hmail,hroles,hout.ints_unheld h.ints hheld,hout.held_queue hpop⟩,
    hout.signals { h.signals with }⟩,hout.told h.told,hunmoved.switching.trans h.switching,
    hunmoved.picked (h.picked.congr rfl rfl)⟩,?_,?_⟩
  · generalize s'.view = v' at hout
    cases hout with
    | again hk => exact absurd rfl hk
    | held hk => exact absurd rfl hk
    | blocked => rfl
    | taken => rfl
  · generalize s'.view = v' at hout
    cases hout with
    | again hk => exact absurd rfl hk
    | held hk => exact absurd rfl hk
    | blocked => rfl
    | taken => rfl

/-- The loop of `unhold` takes one turn for each held-up interrupt. -/
theorem Steady.unholdLoop {xs : List ρ} {fuel : ℕ} (h : Steady c s r)
    (hqueue : Seg some s.view.nextheld s.view.held_head xs none) (hfuel : xs.length < fuel) :
    ∃ s' r', System.unholdLoop fuel s = some s' ∧ Steady c s' r' ∧ s'.view.held_head = none ∧
      Runs.run (kernelStep c) s (List.replicate xs.length .unhold) = some s' := by
  induction xs generalizing s r fuel with
  | nil =>
    obtain ⟨fuel,rfl⟩ : ∃ n, fuel = n + 1 := ⟨fuel - 1,by simp at hfuel; omega⟩
    have hnone : s.kernel.held_head = none := hqueue
    exact ⟨s,r,by rw [System.unholdLoop, hnone],h,hnone,rfl⟩
  | cons x xs ih =>
    obtain ⟨fuel,rfl⟩ : ∃ n, fuel = n + 1 := ⟨fuel - 1,by simp at hfuel; omega⟩
    have hsome : s.kernel.held_head = some x := hqueue.1
    obtain ⟨s₁,r₁,hturn,hsteady,hhead,hnext⟩ := h.unholdOne hsome
    have hqueue₁ : Seg some s₁.view.nextheld s₁.view.held_head xs none := by
      rw [hhead, hnext]
      exact hqueue.2
    obtain ⟨s',r',hloop,hsteady',hempty,hrun⟩ := ih hsteady hqueue₁ (show xs.length < fuel by simpa using hfuel)
    refine ⟨s',r',?_,hsteady',hempty,?_⟩
    · rw [System.unholdLoop, hsome]
      dsimp only
      rw [hturn]
      exact hloop
    · rw [List.length_cons, List.replicate_succ]
      refine Runs.run_cons_iff.mpr ⟨s₁,?_,hrun⟩
      rw [kernelStep, hsome]
      exact hturn

/-- `unhold` comes to an end and leaves no interrupt held up. -/
theorem Steady.unhold (h : Steady c s r) (hhead : s.kernel.held_head ≠ none) :
    ∃ s' r' n, s.unhold c = some s' ∧ Steady c s' r' ∧ (∀ p, s'.view.int_held p = false) ∧
      Runs.run (kernelStep c) s (List.replicate n .unhold) = some s' := by
  obtain ⟨xs,hqueue,-⟩ := h.held
  have hlen := length_le_fuel c (hqueue.nodup (Option.some_injective _) (by simp))
  obtain ⟨s',r',hloop,hsteady,hempty,hrun⟩ := @Steady.unholdLoop _ _ _ _ _ _ xs c.fuel h hqueue (by omega)
  obtain ⟨task,htask⟩ := Option.ne_none_iff_exists'.mp hhead
  refine ⟨s',r',xs.length,?_,hsteady,fun p => ?_,hrun⟩
  · rw [System.unhold, if_neg (by rw [h.switching]; simp), htask]
    exact hloop
  · obtain ⟨ys,hys,-,hmem⟩ := hsteady.held
    rw [hempty] at hys
    have hnil : ys = [] := by
      cases ys with
      | nil => rfl
      | cons y ys => cases hys.1
    rw [Bool.eq_false_iff, Ne, ← hmem, hnil]
    simp

end SOI.Scheduling

import SOI.Scheduling.Sending

/-! # Receiving a message

`mini_rec` takes the first acceptable message of the caller queue or a message
from the hardware, or it blocks the caller. When MM is blocked with signals
pending it is told about one of them at once.
-/
namespace SOI.Scheduling
open Linked Parents Rendezvous
variable {ρ : Type} [DecidableEq ρ] [Fintype ρ] {c : Config ρ} {s s₁ s' : System ρ} {t t' t₁ : Table ρ} {r r' : Mailbox ρ}
  {v v' : View ρ} {a d p rp sender : ρ} {m_ptr : ℕ} {slots : Slots ρ} {src : Source ρ} {front back : List ρ}

omit [Fintype ρ] in
theorem Mail.free_of_any (h : Mail c v r) (hR : v.RECEIVING d = true) (hany : v.getfrom d = .ANY) : v.SENDING d = false := by
  by_contra hS
  have hreply := h.sound.reply d .ANY (v.sendto d) (h.receiving_eq_some.mpr ⟨hR,hany⟩)
    (h.sendingTo_eq_some.mpr ⟨by simpa using hS,rfl⟩)
  exact c.IDLE_ne ((hreply _ (Or.inl rfl)).trans (hreply _ (Or.inl rfl)).symm)

theorem Inv.of_pending (h : Inv c s r) (hp : s.view.PENDING p = true) :
    s.view.SIG_PENDING p = true ∧ s.view.alive c p ∧ s.view.priority p ≠ .PPRI_TASK := by
  refine ⟨?_,?_,?_⟩
  · rw [h.signals.unfinished]
    intro hzero
    have hcounted := h.signals.counted p
    rw [hzero, Nat.le_zero] at hcounted
    exact (h.signals.pending p).mp hp (signals_eq_zero hcounted)
  · refine h.roles.alive_of_flag ?_
    simp [View.flagless, hp]
  · exact (h.roles.servers p (h.signals.scanned p hp)).1

theorem inform_spec (h : Inv c s r) (hR : s.view.RECEIVING c.MM_PROC_NR = true)
    (hany : s.view.getfrom c.MM_PROC_NR = .ANY) (hsome : ∃ p, s.view.PENDING p = true) :
    ∃ s' r', inform c s = some s' ∧ Inv c s' r' ∧ Picked c.slots s'.table ∧ s'.table.switching = false ∧
      (Busy s.table → Busy s'.table) ∧
      s'.view.RECEIVING = Function.update s.view.RECEIVING c.MM_PROC_NR false ∧ s'.view.SENDING = s.view.SENDING ∧
      s'.view.priority = s.view.priority := by
  obtain ⟨rp,hfind⟩ : ∃ rp, c.servers.find? (fun rp => (s.flags rp).PENDING) = some rp := by
    obtain ⟨p,hp⟩ := hsome
    rw [← Option.isSome_iff_exists, List.find?_isSome]
    exact ⟨p,h.signals.scanned p hp,hp⟩
  have hrp : s.view.PENDING rp = true := List.find?_some hfind
  obtain ⟨hsig,halive,htask⟩ := h.of_pending hrp
  let HARDWARE := c.slots.HARDWARE
  let m := { s.memory HARDWARE c.m with m_type := KSIG, m2_i1 := c.p_nr rp, m2_l1 := (s.rest rp).p_pending }
  let s₁ : System ρ := { s.store HARDWARE c.m m with sig_procs := s.sig_procs - 1 }
  let s₂ := s₁.withTable { s₁.table with switching := true }
  -- the message lies in the data segment of HARDWARE, which never sends a message of its own
  have hplain : s.view.flagless HARDWARE = true := h.roles.quiet HARDWARE fun hal => by
    simpa [HARDWARE, Config.isidlehardware] using hal.2
  have hhw : s.view.SENDING HARDWARE = false := ((flagless_iff _ _).mp hplain).2.1
  have hcore : Core c s₂ r := by
    refine ⟨Lined.congr h.ready rfl rfl rfl,?_,{ h.roles with },{ h.ints with },h.held⟩
    exact (h.mail.store hhw _).frame rfl rfl rfl rfl rfl rfl rfl rfl rfl
  have hawaits : s₂.awaits c c.MM_PROC_NR HARDWARE = true :=
    awaits_eq_true.mpr ⟨hR,h.mail.free_of_any hR hany,Or.inl hany⟩
  have hperm : (isuserp s₂.table HARDWARE && !c.issysentn (.proc c.MM_PROC_NR)) = false := by
    rw [isuserp, show (s₂.table.proc HARDWARE).p_priority = .PPRI_TASK from h.roles.hardware_task]
    rfl
  have hempty : isemptyp s₂.table c.MM_PROC_NR = false := by
    rw [isemptyp, show (s₂.table.proc c.MM_PROC_NR).p_priority = .PPRI_SERVER from h.roles.mm]
    rfl
  have hsend := mini_send_direct rfl hperm hempty h.roles.reachable hawaits
  obtain ⟨s₃,hdeliver,hcore₃,hview₃,hwoken⟩ := deliver_spec hcore hawaits c.m
  let s₄ := s₃.withTable { s₃.table with switching := false }
  let s₅ := s₄.setRest rp fun r => { r with p_pending := 0 }
  let s₆ := s₅.setFlags rp fun f => { f with PENDING := false }
  let s' := s₆.withTable (lock_pick_proc c.slots s₆.table)
  have hproc : (lock_pick_proc c.slots s₆.table).proc = s₆.table.proc := proc_pick_proc c.slots _
  have hview : s'.view = { s₃.view with
      pending := Function.update s₃.view.pending rp 0
      PENDING := Function.update s₃.view.PENDING rp false } := by
    rw [view_withTable fun p => by rw [hproc], view_PENDING, view_pending]
    rfl
  have hsig₃ : s₃.view.SIG_PENDING rp = true := by rw [hview₃]; exact hsig
  have halive₃ : s₃.view.alive c rp := by rw [hview₃]; exact halive
  have htask₃ : s₃.view.priority rp ≠ .PPRI_TASK := by rw [hview₃]; exact htask
  refine ⟨s',{ r with receiving := Function.update r.receiving c.MM_PROC_NR none },?_,⟨⟨?_,?_,?_,?_,?_⟩,?_⟩,?_,rfl,
    fun hbusy => ?_,?_,?_,?_⟩
  · rw [inform, hfind]
    dsimp only
    rw [lock_mini_send, hsend, hdeliver]
    rfl
  · have hlined : Lined s₅.table (s₃.view.runnable c) := Lined.congr hcore₃.ready rfl rfl rfl
    have hrunnable : s'.view.runnable c = s₃.view.runnable c := by
      rw [hview]
      refine runnable_congr (funext fun p => ?_) rfl
      by_cases hp : p = rp
      · simp [View.flagless, hp, hsig₃]
      · simp only [View.flagless, Function.update_of_ne hp]
    rw [Ready, hrunnable]
    exact (hlined.setFlags rp _).pick c.slots
  · rw [hview]
    exact hcore₃.mail.frame rfl rfl rfl rfl rfl rfl rfl rfl rfl
  · have hroles := hcore₃.roles.setOthers (s₃.view.NO_MAP rp) false (s₃.view.SIG_PENDING rp) (s₃.view.P_STOP rp) halive₃ htask₃
    simp only [Function.update_eq_self] at hroles
    rw [hview]
    exact { hroles with }
  · rw [hview]
    exact { hcore₃.ints with }
  · rw [hview]
    exact hcore₃.held
  · have hset := @Signals.setOne _ _ _ _ _ h.signals rp 0 (s.view.pendcount rp) false (s.view.SIG_PENDING rp) (by simp)
      (h.signals.unfinished rp) (by simp [signals_zero]) (by simp)
    simp only [Function.update_eq_self, hrp, Bool.toNat_true, Bool.toNat_false, Nat.cast_one, Nat.cast_zero, add_zero] at hset
    rw [hview, hview₃]
    exact { hset with }
  · exact (picked_pick_proc c.slots _).congr rfl rfl
  · have hheads : (lock_pick_proc c.slots s₆.table).rdy_head = s₃.table.rdy_head := rdy_head_pick_proc c.slots _
    have hbusy₃ : Busy s₃.table := hwoken.busy hbusy
    rw [Busy, show s'.table.rdy_head = s₃.table.rdy_head from hheads]
    exact hbusy₃
  · rw [hview, hview₃]
    rfl
  · rw [hview, hview₃]
    rfl
  · rw [hview, hview₃]
    rfl

omit [DecidableEq ρ] [Fintype ρ] in
theorem mail_split (hnames : names r a = front ++ sender :: back) :
    ∃ frontm m backm, r.mail a = frontm ++ (sender,m) :: backm ∧ frontm.map Prod.fst = front ∧
      backm.map Prod.fst = back := by
  obtain ⟨frontm,rest,hmail,hfront,hrest⟩ := List.map_eq_append_iff.mp hnames
  obtain ⟨⟨x,m⟩,backm,rfl,rfl,hback⟩ := List.map_eq_cons_iff.mp hrest
  exact ⟨frontm,m,backm,hmail,hfront,hback⟩

theorem takeFrom_spec (h : Inv c s r) (hS : s.view.SENDING a = false) (hR : s.view.RECEIVING a = false)
    (hnames : names r a = front ++ sender :: back) (hfirst : ∀ x ∈ front, ¬ c.accepts src x)
    (haccepts : c.accepts src sender) (m_ptr : ℕ) :
    ∃ s' r', s.takeFrom c a m_ptr front.getLast? sender = some s' ∧ Inv c s' r' ∧ (Told c s.view → Told c s'.view) ∧
      Woken c.slots sender s.table s'.table := by
  obtain ⟨frontm,m,backm,hmail,rfl,rfl⟩ := mail_split hnames
  obtain ⟨hsend,-⟩ := h.mail.sending_of_mem (show (sender,m) ∈ r.mail a by simp [hmail])
  have hsend' : s.view.SENDING sender = true := hsend
  let s₁ := s.CopyMess c sender (s.post sender).p_messbuf a m_ptr
  have hqueue : Family s₁.view.sendlink s₁.view.callerq (names r) := h.mail.queue
  obtain ⟨s₂,callerq,sendlink,hunlink,hkernel,hview₂,hfamily⟩ := unlink_spec hqueue hnames
  let s₃ := s₂.setFlags sender fun f => { f with SENDING := false }
  have hview₃ : s₃.view = { s.view with
      memory := Function.update s.view.memory a
        (Function.update (s.view.memory a) m_ptr (s.view.letter c sender (s.view.messbuf sender)))
      SENDING := Function.update s.view.SENDING sender false
      callerq := callerq
      sendlink := sendlink
      log := s.view.log ++ [.delivered sender a (s.view.letter c sender (s.view.messbuf sender))] } := by
    rw [view_SENDING, hview₂]
    rfl
  have htable : s₂.table = s.table := congrArg Kernel.table hkernel
  have hlined : Lined s₂.table (s.view.runnable c) := by
    rw [htable]
    exact h.ready
  have helse : Elsewhere sender s.view s₃.view := by
    rw [hview₃]
    exact fun p hp => ⟨by simp only [View.flagless, Function.update_of_ne hp],rfl⟩
  have halive : s₃.view.alive c sender := by
    rw [hview₃]
    exact h.roles.alive_blocked (Or.inl hsend')
  obtain ⟨t,hwake,hview,hready,hreadied⟩ := wakeUp (f := fun t => ready t sender) (hlined.setFlags sender _) helse
    (flagless_of_SENDING hsend') halive fun t S hl hn => ready_spec c.slots hl hn
  rw [hview₃] at hview
  have hwoken : Woken c.slots sender s₂.table t := hreadied.woken rfl rfl rfl (priority_setFlags ..)
  rw [htable] at hwoken
  refine ⟨s₃.withTable t,r.release sender a (frontm ++ backm),?_,⟨⟨hready,?_,?_,?_,?_⟩,?_⟩,?_,hwoken⟩
  · rw [System.takeFrom]
    dsimp only
    rw [hunlink]
    exact hwake
  · rw [hview]
    rw [← List.map_append] at hfamily
    exact h.mail.take hmail hS hR (fun x hx => hfirst x.1 (List.mem_map_of_mem hx)) haccepts _ hfamily
  · rw [hview]
    exact { h.roles.stopSending hsend' with }
  · rw [hview]
    exact { h.ints.stopSending hsend' with }
  · rw [hview]
    exact h.held
  · rw [hview]
    exact { h.signals with }
  · rw [hview]
    exact id

omit [Fintype ρ] in
theorem unanswered_taken (task : ρ) (log : List (Interrupt ρ)) :
    unanswered task (log ++ [.taken task]) = false := by
  simp [unanswered_append]

theorem hardInt_spec (h : Inv c s r) (htold : Told c s.view) (hS : s.view.SENDING a = false)
    (hint : s.view.int_blocked a = true) (m_ptr : ℕ) :
    Inv c ((s.hardInt a m_ptr).setProc a fun p => { p with p_int_blocked := false }) r ∧
      Told c ((s.hardInt a m_ptr).setProc a fun p => { p with p_int_blocked := false }).view := by
  have hlined : Lined (s.hardInt a m_ptr).table (s.view.runnable c) := h.ready
  have hview : ((s.hardInt a m_ptr).setProc a fun p => { p with p_int_blocked := false }).view = { s.view with
      memory := Function.update s.view.memory a (Function.update (s.view.memory a) m_ptr
        { s.view.memory a m_ptr with m_source := .HARDWARE, m_type := HARD_INT })
      int_blocked := Function.update s.view.int_blocked a false
      interrupts := s.view.interrupts ++ [.taken a] } := by
    rw [view_int_blocked]
    rfl
  refine ⟨⟨⟨?_,?_,?_,?_,?_⟩,?_⟩,?_⟩
  · rw [Ready, hview]
    exact hlined.setProc (f := fun p => { p with p_int_blocked := false }) (fun _ => rfl) (fun _ => rfl)
      (hlined.queues.groups a) (hlined.guards a)
  · rw [hview]
    exact (h.mail.store hS _).frame rfl rfl rfl rfl rfl rfl rfl rfl rfl
  · have hset := h.roles.setAlerts (s.view.int_held a) false (h.roles.alerts a (Or.inr hint))
    rw [Function.update_eq_self] at hset
    rw [hview]
    exact { hset with }
  · have hcounted := h.ints.counted a
    rw [hint] at hcounted
    have hset := @Ints.setTask _ _ _ h.ints a (s.view.int_held a) false (s.view.RECEIVING a) [.taken a] (by simp)
      (h.ints.reply a) (fun _ _ _ => rfl) (fun hun => by rw [unanswered_taken] at hun; cases hun) (by
        rw [List.count_append, List.count_append]
        simp at hcounted ⊢
        omega)
    rw [Function.update_eq_self, Function.update_eq_self] at hset
    rw [hview]
    exact { hset with }
  · rw [hview]
    exact h.held
  · rw [hview]
    exact { h.signals with }
  · rw [hview]
    exact htold

/-- What the caller may wait for: nothing that is there already, and only an answer
while its own message waits. -/
structure MayAwait (c : Config ρ) (v : View ρ) (r : Mailbox ρ) (a : ρ) (src : Source ρ) (m_ptr : ℕ) : Prop where
  free : v.SENDING a = false → ∀ p ∈ names r a, ¬ c.accepts src p
  reply : v.SENDING a = true → v.messbuf a = m_ptr ∧ isrxhardware src = false ∧ ∀ x, c.accepts src x → x = v.sendto a
  hardware : v.SENDING a = false → isrxhardware src = true → v.int_blocked a = false

theorem await_spec (h : Inv c s r) (htold : Told c s.view) (halive : s.view.alive c a)
    (hwait : MayAwait c s.view r a src m_ptr) :
    ∃ s' r', s.await c a src m_ptr = some s' ∧ Inv c s' r' ∧ Told c s'.view ∧
      (s.table.switching = false → s'.table.switching = false) ∧ (Picked c.slots s.table → Picked c.slots s'.table) ∧
      (a ≠ c.MM_PROC_NR → (s.table.proc a).p_flags = {} → ¬ istaskp s.table a →
        s.table.rdy_head (queueOf s.table a) = some a → Picked c.slots s'.table) := by
  let s₁ := s.setProc a fun p => { p with p_getfrom := src }
  let s₂ := s₁.setPost a fun p => { p with p_messbuf := m_ptr }
  have hview₂ : s₂.view = { s.view with
      getfrom := Function.update s.view.getfrom a src
      messbuf := Function.update s.view.messbuf a m_ptr } := by
    rw [view_messbuf, view_getfrom]
  have hready : Lined s.table (s.view.runnable c) := h.ready
  have hready₂ : Ready c s₂ := by
    rw [Ready, hview₂]
    exact hready.setProc (f := fun p => { p with p_getfrom := src }) (fun _ => rfl) (fun _ => rfl)
      (hready.queues.groups a) (hready.guards a)
  obtain ⟨t,hsleep,hview,hlined,hslept⟩ := goToSleep hready₂ (unready_slot c a)
  rw [hview₂] at hview
  let s₃ := (s₂.withTable t).setFlags a fun f => { f with RECEIVING := true }
  have hview₃ : s₃.view = { s.view with
      getfrom := Function.update s.view.getfrom a src
      messbuf := Function.update s.view.messbuf a m_ptr
      RECEIVING := Function.update s.view.RECEIVING a true } := by
    rw [view_RECEIVING, hview]
  let r₃ : Mailbox ρ := { r with receiving := Function.update r.receiving a (some src) }
  have hinv : Inv c s₃ r₃ := by
    refine ⟨⟨?_,?_,?_,?_,?_⟩,?_⟩
    · refine @ready_of_erase _ _ _ _ _ s₂.view a ?_ ?_ ?_
      · exact Lined.setFlags (s := s₂.withTable t) hlined a _
      · rw [hview₃, hview₂]
        exact fun p hp => ⟨by simp only [View.flagless, Function.update_of_ne hp],rfl⟩
      · rw [hview₃]
        exact flagless_of_RECEIVING (Function.update_self ..)
    · rw [hview₃]
      exact h.mail.await src m_ptr hwait.free fun hS => ⟨(hwait.reply hS).1,(hwait.reply hS).2.2⟩
    · rw [hview₃]
      exact { h.roles.setReceiving true halive with }
    · rw [hview₃]
      exact { h.ints.await (fun hS => (hwait.reply hS).2.1) hwait.hardware with }
    · rw [hview₃]
      exact h.held
    · rw [hview₃]
      exact { h.signals with }
  -- the table of the caller differs from that of the process going to sleep in `p_getfrom`
  have hflags : (s₁.table.proc a).p_flags = (s.table.proc a).p_flags :=
    kept_setProc (f := fun p => { p with p_getfrom := src }) Proc.p_flags rfl
  have hclass : (s₁.table.proc a).p_priority = (s.table.proc a).p_priority :=
    kept_setProc (f := fun p => { p with p_getfrom := src }) Proc.p_priority rfl
  have hswitch : s.table.switching = false → s₃.table.switching = false := hslept.switching
  have hpicked : Picked c.slots s.table → Picked c.slots s₃.table := hslept.picked
  have hanew : (s.table.proc a).p_flags = {} → ¬ istaskp s.table a → s.table.rdy_head (queueOf s.table a) = some a →
      Picked c.slots s₃.table := by
    intro hnone htask hhead
    have hqueue : queueOf s₁.table a = queueOf s.table a := queueOf_congr hclass
    refine hslept.anew (hflags.trans hnone) ?_ ?_
    · show ¬ istaskp s₁.table a
      rw [istaskp, hclass]
      exact htask
    · show s.table.rdy_head (queueOf s₁.table a) = some a
      rw [hqueue]
      exact hhead
  have hawait : s.await c a src m_ptr =
      if 0 < s₃.sig_procs && a = c.MM_PROC_NR && src = .ANY then inform c s₃ else some s₃ := by
    rw [System.await]
    dsimp only
    rw [hsleep]
    rfl
  by_cases htell : (0 < s₃.sig_procs && a = c.MM_PROC_NR && src = .ANY) = true
  · rw [hawait, if_pos htell]
    simp only [Bool.and_eq_true, decide_eq_true_eq] at htell
    obtain ⟨⟨hprocs,rfl⟩,rfl⟩ := htell
    have hR : s₃.view.RECEIVING c.MM_PROC_NR = true := by
      rw [hview₃]
      exact Function.update_self ..
    have hany : s₃.view.getfrom c.MM_PROC_NR = .ANY := by
      rw [hview₃]
      exact Function.update_self ..
    have hsome : ∃ p, s₃.view.PENDING p = true := by
      have hcard : s₃.sig_procs = _ := hinv.signals.procs
      rw [hcard, Nat.cast_pos, Finset.card_pos] at hprocs
      obtain ⟨p,hp⟩ := hprocs
      exact ⟨p,(Finset.mem_filter.mp hp).2⟩
    obtain ⟨s',r',hinform,hinv',hpick,hsw,-,hrec,-⟩ := inform_spec hinv hR hany hsome
    refine ⟨s',r',hinform,hinv',fun hmm => ?_,fun _ => hsw,fun _ => hpick,fun _ _ _ _ => hpick⟩
    rw [hrec, Function.update_self] at hmm
    cases hmm
  · rw [hawait, if_neg htell]
    refine ⟨s₃,r₃,rfl,hinv,fun hmm hany p => ?_,hswitch,hpicked,fun _ => hanew⟩
    by_cases hcaller : a = c.MM_PROC_NR
    · have hsrc : src = .ANY := by
        rw [hview₃, ← hcaller] at hany
        dsimp only at hany
        rwa [Function.update_self] at hany
      have hcard : s₃.sig_procs = _ := hinv.signals.procs
      simp only [hcaller, hsrc, hcard, decide_true, Bool.and_true, decide_eq_true_eq, Nat.cast_pos, Finset.card_pos,
        Finset.not_nonempty_iff_eq_empty, Finset.filter_eq_empty_iff] at htell
      simpa using htell (Finset.mem_univ p)
    · rw [hview₃] at hmm hany ⊢
      dsimp only at hmm hany
      rw [Function.update_of_ne (Ne.symm hcaller)] at hmm hany
      exact htold hmm hany p

theorem mini_rec_spec (src : Source ρ) (m_ptr : ℕ) (h : Inv c s r) (htold : Told c s.view) (halive : s.view.alive c a)
    (hR : s.view.RECEIVING a = false)
    (hreply : s.view.SENDING a = true →
      s.view.messbuf a = m_ptr ∧ isrxhardware src = false ∧ ∀ x, c.accepts src x → x = s.view.sendto a) :
    ∃ s' r', mini_rec c s a src m_ptr = some s' ∧ Inv c s' r' ∧ Told c s'.view ∧
      (s.table.switching = false → s'.table.switching = false) ∧
      ((s.view.SENDING a = false → Busy s.table) → Picked c.slots s.table → Picked c.slots s'.table) ∧
      (a ≠ c.MM_PROC_NR → (s.table.proc a).p_flags = {} → ¬ istaskp s.table a →
        s.table.rdy_head (queueOf s.table a) = some a → isrxhardware src = false →
        (∀ p ∈ names r a, ¬ c.accepts src p) → Picked c.slots s'.table) := by
  cases hS : (s.flags a).SENDING with
  | true =>
    have hsend : s.view.SENDING a = true := hS
    have hwait : MayAwait c s.view r a src m_ptr :=
      ⟨fun hno => (Bool.noConfusion (hsend.symm.trans hno)),hreply,fun hno => (Bool.noConfusion (hsend.symm.trans hno))⟩
    obtain ⟨s',r',hawait,hinv,htold',hsw,hpick,hanew⟩ := await_spec h htold halive hwait
    rw [mini_rec, if_pos hS]
    exact ⟨s',r',hawait,hinv,htold',hsw,fun _ => hpick,fun hne hfl ht hh _ _ => hanew hne hfl ht hh⟩
  | false =>
    have hfree : s.view.SENDING a = false := hS
    have hnosend : s.view.SENDING a = true → False := fun hyes => Bool.noConfusion (hfree.symm.trans hyes)
    have hfuel : (names r a).length < c.fuel := by
      have hlen := length_le_fuel c (h.mail.queue.nodup a)
      omega
    rw [mini_rec, if_neg (by rw [hS]; simp)]
    rcases findSender_cases src none (h.mail.queue.linked a) hfuel with
      ⟨hfound,hnone⟩ | ⟨front,sender,back,hnames,hfirst,haccepts,hfound⟩
    · rw [show s.findSender c src c.fuel none (s.rest a).p_callerq = some none from hfound, Option.bind_some]
      dsimp only
      by_cases hint : ((s.table.proc a).p_int_blocked && isrxhardware src) = true
      · rw [if_pos hint]
        obtain ⟨hblocked,hrx⟩ := Bool.and_eq_true_iff.mp hint
        obtain ⟨hinv,htold'⟩ := hardInt_spec h htold hfree hblocked m_ptr
        refine ⟨_,r,rfl,hinv,htold',id,fun _ hpick => hpick.congr rfl rfl,fun _ _ _ _ hno => ?_⟩
        rw [hrx] at hno
        cases hno
      · rw [if_neg hint]
        have hwait : MayAwait c s.view r a src m_ptr := by
          refine ⟨fun _ => hnone,hreply,fun _ hrx => ?_⟩
          rw [hrx, Bool.and_true] at hint
          exact Bool.eq_false_iff.mpr hint
        obtain ⟨s',r',hawait,hinv,htold',hsw,hpick,hanew⟩ := await_spec h htold halive hwait
        exact ⟨s',r',hawait,hinv,htold',hsw,fun _ => hpick,fun hne hfl ht hh _ _ => hanew hne hfl ht hh⟩
    · rw [show s.findSender c src c.fuel none (s.rest a).p_callerq = _ from hfound, Option.bind_some]
      dsimp only
      rw [Option.or_none]
      obtain ⟨s',r',htake,hinv,htold',hwoken⟩ := takeFrom_spec h hfree hR hnames hfirst haccepts m_ptr
      refine ⟨s',r',htake,hinv,htold' htold,hwoken.switching,fun hbusy => hwoken.picked (Or.inr (hbusy hfree)),
        fun _ _ _ _ _ hno => ?_⟩
      exact absurd haccepts (hno sender (by simp [hnames]))

end SOI.Scheduling

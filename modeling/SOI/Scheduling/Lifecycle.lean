import SOI.Scheduling.Signalling

/-! # Processes come and go

A process forks into a free slot and exits, which takes it out of the queue it was
sending to; a process signs on as a server and changes its group. The scheduler
rotates the user queue.
-/
namespace SOI.Scheduling
open Linked Parents Rendezvous
variable {ρ : Type} [DecidableEq ρ] [Fintype ρ] {c : Config ρ} {s s₁ s' : System ρ} {t t' t₁ : Table ρ} {r r₁ r' : Mailbox ρ}
  {v v' : View ρ} {a d p : ρ} {S : Finset ρ}

omit [Fintype ρ] in
theorem Lined.setFresh (h : Lined t S) (hp : p ∉ S) (x : Proc ρ) (hgroup : 0 ≤ x.group ∧ x.group < 3)
    (hguard : x.p_stguard = STACK_GUARD) : Lined (t.setProc p fun _ => x) S := by
  refine ⟨⟨fun q => ?_,fun rp => ?_⟩,fun rp => ?_⟩
  · obtain ⟨xs,hq,hmem⟩ := h.queues.queue q
    have hne : ∀ y, y ∈ S → y ≠ p := by
      rintro y hy rfl
      exact hp hy
    refine ⟨xs,hq.frame (fun y hy => ?_) rfl rfl,fun y => ?_⟩
    · rw [Table.next, proc_setProc_of_ne _ (hne y ((hmem y).mp hy).2), Table.next]
    · rw [hmem]
      by_cases hy : y ∈ S
      · have hclass : queueOf (t.setProc p fun _ => x) y = queueOf t y :=
          queueOf_congr (by rw [proc_setProc_of_ne _ (hne y hy)])
        rw [hclass]
      · exact iff_of_false (fun hno => hy hno.2) fun hno => hy hno.2
  · by_cases hrp : rp = p
    · rw [hrp, proc_setProc_self]
      exact hgroup
    · rw [proc_setProc_of_ne _ hrp]
      exact h.queues.groups rp
  · by_cases hrp : rp = p
    · rw [hrp, proc_setProc_self]
      exact hguard
    · rw [proc_setProc_of_ne _ hrp]
      exact h.guards rp

omit [DecidableEq ρ] [Fintype ρ] in
theorem update_same {ι α : Type} [DecidableEq ι] {f : ι → α} {i : ι} {x : α} (h : f i = x) : Function.update f i x = f := by
  rw [← h, Function.update_eq_self]

theorem Facts.nobody_sends (h : Facts c v r) (hdead : v.priority d = .PPRI_NONE) : names r d = [] := by
  rw [List.eq_nil_iff_forall_not_mem]
  intro p hp
  obtain ⟨hS,rfl⟩ := h.mail.mem_names.mp hp
  exact h.roles.live p hS hdead

omit [Fintype ρ] in
theorem Mail.setIdle (h : Mail c v r) (hS : v.SENDING p = false) (link : Option ρ) (dest : ρ) (buf : ℕ) :
    Mail c { v with
      sendlink := Function.update v.sendlink p link
      sendto := Function.update v.sendto p dest
      messbuf := Function.update v.messbuf p buf } r where
  sending := by
    funext q
    dsimp only
    by_cases hq : q = p
    · rw [hq, h.sending]
      dsimp only
      rw [hS]
      rfl
    · rw [Function.update_of_ne hq, h.sending]
  receiving := h.receiving
  queue := ⟨fun e => (h.queue.linked e).update (h.not_mem_names hS e) link,h.queue.apart⟩
  letters := by
    intro e x hx
    dsimp only
    have hne : x.1 ≠ p := by
      intro hxp
      have hsend := (h.sending_of_mem hx).1
      rw [hxp, hS] at hsend
      cases hsend
    rw [Function.update_of_ne hne]
    exact h.letters e x hx
  steps := h.steps

omit [Fintype ρ] in
theorem Mail.setGetfrom (h : Mail c v r) (hR : v.RECEIVING p = false) (src : Source ρ) :
    Mail c { v with getfrom := Function.update v.getfrom p src } r :=
  { h with
    receiving := by
      funext q
      dsimp only
      by_cases hq : q = p
      · rw [hq, h.receiving]
        dsimp only
        rw [hR]
        rfl
      · rw [Function.update_of_ne hq, h.receiving] }

/-- The slot of a child: a copy of that of its parent, which MM is about to give a map. -/
theorem Facts.fork (h : Facts c v r) (a : ρ) (hchild : v.priority d = .PPRI_NONE) :
    ∃ r', Facts c { v with
      NO_MAP := Function.update v.NO_MAP d true
      RECEIVING := Function.update v.RECEIVING d (v.RECEIVING a)
      priority := Function.update v.priority d .PPRI_USER
      getfrom := Function.update v.getfrom d (v.getfrom a)
      nextheld := Function.update v.nextheld d (v.nextheld a)
      sendlink := Function.update v.sendlink d (v.sendlink a)
      sendto := Function.update v.sendto d (v.sendto a)
      messbuf := Function.update v.messbuf d (v.messbuf a)
      map := Function.update v.map d (v.map a) } r' := by
  have hquiet := (flagless_iff _ _).mp (h.roles.quiet d fun hal => hal.1 hchild)
  have hheld : v.int_held d = false := by
    by_contra hyes
    have htask := (h.roles.alerts d (Or.inl (by simpa using hyes))).1
    rw [hchild] at htask
    cases htask
  have hblocked : v.int_blocked d = false := by
    by_contra hyes
    have htask := (h.roles.alerts d (Or.inr (by simpa using hyes))).1
    rw [hchild] at htask
    cases htask
  have hserver : d ∈ c.servers := h.roles.mem_servers (by simp [hchild]) (by simp [hchild])
  have hne : ∀ {q : ρ}, v.priority q ≠ .PPRI_NONE → q ≠ d := by
    rintro q hq rfl
    exact hq hchild
  have hmm : c.MM_PROC_NR ≠ d := hne (by simp [h.roles.mm])
  have hidle := h.mail.setIdle hquiet.2.1 (v.sendlink a) (v.sendto a) (v.messbuf a)
  -- the child waits for a message if its parent does
  obtain ⟨r',hmail⟩ : ∃ r', Mail c { v with
      RECEIVING := Function.update v.RECEIVING d (v.RECEIVING a)
      getfrom := Function.update v.getfrom d (v.getfrom a)
      sendlink := Function.update v.sendlink d (v.sendlink a)
      sendto := Function.update v.sendto d (v.sendto a)
      messbuf := Function.update v.messbuf d (v.messbuf a) } r' := by
    cases hR : v.RECEIVING a with
    | true =>
      have hwait := hidle.await (d := d) (v.getfrom a) (v.messbuf a)
        (fun _ p hp => by rw [h.nobody_sends hchild] at hp; cases hp) fun hno => Bool.noConfusion (hquiet.2.1.symm.trans hno)
      refine ⟨_,hwait.frame rfl rfl rfl rfl rfl rfl ?_ rfl rfl⟩
      exact (Function.update_idem ..).symm
    | false =>
      refine ⟨r,(hidle.setGetfrom hquiet.2.2.1 (v.getfrom a)).frame rfl ?_ rfl rfl rfl rfl rfl rfl rfl⟩
      exact update_same hquiet.2.2.1
  refine ⟨r',hmail.frame rfl rfl rfl rfl rfl rfl rfl rfl rfl,?_,?_,?_,{ h.signals with },?_⟩
  · have hkept : ∀ q, q ≠ d → Function.update v.priority d .PPRI_USER q = v.priority q := fun q hq =>
      Function.update_of_ne hq _ _
    refine ⟨?_,fun p hp hpi => ?_,fun p hp => ?_,?_,?_,fun p hp => ?_,fun p hp => ?_,fun p hp => ?_,fun p hp => ?_,?_⟩
    · exact (hkept _ (hne (by simp [h.roles.idle]))).trans h.roles.idle
    · refine (hkept p ?_).trans (h.roles.tasks p hp hpi)
      rintro rfl
      exact hp hserver
    · dsimp only
      by_cases hpd : p = d
      · rw [hpd, Function.update_self]
        simp
      · rw [hkept p hpd]
        exact h.roles.servers p hp
    · exact (hkept _ hmm).trans h.roles.mm
    · exact (hkept _ (hne (by simp [h.roles.fs]))).trans h.roles.fs
    · dsimp only at hp ⊢
      by_cases hpd : p = d
      · rw [hpd, Function.update_self] at hp
        cases hp
      · rw [hkept p hpd] at hp
        rw [Function.update_of_ne hpd]
        exact h.roles.plain p hp
    · have hpd : p ≠ d := by
        rintro rfl
        refine hp ⟨by simp,?_⟩
        rw [Config.isidlehardware, Bool.or_eq_false_iff, decide_eq_false_iff_not, decide_eq_false_iff_not]
        exact ⟨(hne (by simp [h.roles.idle])).symm,(hne (by simp [h.roles.hardware_task])).symm⟩
      have hdead : ¬ v.alive c p := by
        rw [View.alive, ← hkept p hpd]
        exact hp
      simp only [View.flagless, Function.update_of_ne hpd]
      exact h.roles.quiet p hdead
    · dsimp only at hp ⊢
      have hpd : p ≠ d := by
        rintro rfl
        rw [hquiet.2.1] at hp
        cases hp
      rw [Function.update_of_ne hpd, hkept _ (hne (h.roles.live p hp))]
      exact h.roles.live p hp
    · have hpd : p ≠ d := by
        rintro rfl
        dsimp only at hp
        rw [hheld, hblocked] at hp
        rcases hp with hp | hp <;> cases hp
      refine ⟨(hkept p hpd).trans (h.roles.alerts p hp).1,(h.roles.alerts p hp).2⟩
    · dsimp only
      rw [Function.update_of_ne (hne (by simp [h.roles.hardware_task]))]
      exact h.roles.reachable
  · refine ⟨fun p hp => ?_,fun p hp => ?_,h.ints.kept,h.ints.counted⟩
    · dsimp only at hp ⊢
      have hpd : p ≠ d := by
        rintro rfl
        rw [hquiet.2.1] at hp
        cases hp
      rw [Function.update_of_ne hpd, Function.update_of_ne hpd]
      exact h.ints.reply p hp
    · dsimp only at hp ⊢
      by_cases hpd : p = d
      · rw [hpd]
        exact fun _ _ => hblocked
      · rw [Function.update_of_ne hpd, Function.update_of_ne hpd]
        exact h.ints.ready p hp
  · obtain ⟨xs,hlinked,htail,hmem⟩ := h.held
    refine ⟨xs,hlinked.update ?_ _,htail,hmem⟩
    rw [hmem, hheld]
    simp
  · intro hrec hany
    dsimp only at hrec hany
    rw [Function.update_of_ne hmm] at hrec hany
    exact h.told hrec hany

theorem Steady.do_fork (h : Steady c s r) {PID : ℤ} (hlegal : Legal c s (.do_fork a d PID)) :
    ∃ s' r', s.do_fork a d PID = some s' ∧ Steady c s' r' := by
  obtain ⟨huser,hempty,hsend,hqueue⟩ := hlegal
  have hparent : s.view.priority a = .PPRI_USER := of_decide_eq_true huser
  have hchild : s.view.priority d = .PPRI_NONE := of_decide_eq_true hempty
  have hquiet := (flagless_iff _ _).mp (h.roles.quiet d fun hal => hal.1 hchild)
  have halert : ∀ p, s.view.priority p ≠ .PPRI_TASK → s.view.int_held p = false ∧ s.view.int_blocked p = false := by
    intro p hp
    constructor
    · by_contra hyes
      exact hp (h.roles.alerts p (Or.inl (by simpa using hyes))).1
    · by_contra hyes
      exact hp (h.roles.alerts p (Or.inr (by simpa using hyes))).1
  have haparent := halert a (by simp [hparent])
  have hachild := halert d (by simp [hchild])
  have hheadless : s.view.callerq d = none := by
    rw [h.mail.queue.head_eq, h.facts.nobody_sends hchild]
    rfl
  have hnone : s.view.pending d = 0 ∧ s.view.pendcount d = 0 := by
    constructor
    · by_contra hno
      exact Bool.noConfusion (((h.signals.pending d).mpr hno).symm.trans hquiet.2.2.2.1)
    · by_contra hno
      exact Bool.noConfusion (((h.signals.unfinished d).mpr hno).symm.trans hquiet.2.2.2.2.1)
  let flags : Flags := { s.flags a with NO_MAP := true, PENDING := false, SIG_PENDING := false, P_STOP := false }
  let slot : Proc ρ := { s.table.proc a with p_flags := flags, p_pid := PID, user_time := 0, sys_time := 0, group := 0 }
  let rest : Rest ρ := { s.rest a with
    p_ldt_sel := (s.rest d).p_ldt_sel, p_pending := 0, p_pendcount := 0, retreg := 0, child_utime := 0, child_stime := 0 }
  let s' := ((s.setProc d fun _ => slot).setRest d fun _ => rest).setPost d fun _ => s.post a
  have hrun : s.do_fork a d PID = some s' := by
    rw [System.do_fork, Scheduling.do_fork, show isuserp s.processes.table a = true from huser,
      show isemptyp s.processes.table d = true from hempty]
    rfl
  have hview : s'.view = { s.view with
      NO_MAP := Function.update s.view.NO_MAP d true
      RECEIVING := Function.update s.view.RECEIVING d (s.view.RECEIVING a)
      priority := Function.update s.view.priority d .PPRI_USER
      getfrom := Function.update s.view.getfrom d (s.view.getfrom a)
      nextheld := Function.update s.view.nextheld d (s.view.nextheld a)
      sendlink := Function.update s.view.sendlink d (s.view.sendlink a)
      sendto := Function.update s.view.sendto d (s.view.sendto a)
      messbuf := Function.update s.view.messbuf d (s.view.messbuf a)
      map := Function.update s.view.map d (s.view.map a) } := by
    rw [view_setPost, view_setRest, view_setProc]
    apply View.ext
    case SENDING => exact update_same (hquiet.2.1.trans hsend.symm)
    case PENDING => exact update_same hquiet.2.2.2.1
    case SIG_PENDING => exact update_same hquiet.2.2.2.2.1
    case P_STOP => exact update_same hquiet.2.2.2.2.2
    case priority => exact congrArg (Function.update s.view.priority d) hparent
    case int_blocked => exact update_same (hachild.2.trans haparent.2.symm)
    case int_held => exact update_same (hachild.1.trans haparent.1.symm)
    case callerq => exact update_same (hheadless.trans hqueue.symm)
    case pending => exact update_same hnone.1
    case pendcount => exact update_same hnone.2
    all_goals rfl
  obtain ⟨r',hfacts⟩ := h.facts.fork a hchild
  have hfresh : d ∉ s.view.runnable c := fun hmem => (mem_runnable.mp hmem).2.1 hchild
  have hlined : Lined s.table (s.view.runnable c) := h.ready
  have hlined' : Lined s'.table (s.view.runnable c) := hlined.setFresh hfresh slot ⟨le_refl _,by simp [slot]⟩ (hlined.guards a)
  refine ⟨s',r',hrun,Facts.steady (by rw [hview]; exact hfacts) ?_ h.switching (h.picked.congr rfl rfl)⟩
  have hsame : s'.view.runnable c = s.view.runnable c := by
    rw [@runnable_erase _ _ c s.view s'.view d _, Finset.erase_eq_of_notMem hfresh]
    · rw [hview]
      exact fun q hq => ⟨by simp only [View.flagless, Function.update_of_ne hq],Function.update_of_ne hq _ _⟩
    · rw [hview]
      simp [View.flagless]
  rw [Ready, hsame]
  exact hlined'

/-- An exited process has no flags and no class, and its message is lost. -/
theorem Facts.exit (h : Facts c v r) (huser : v.priority a = .PPRI_USER) (hnobody : names r a = [])
    {callerq sendlink : ρ → Option ρ} {log : List (Event ρ (Letter ρ))}
    (hmail : ∃ r', Mail c { v with
      SENDING := Function.update v.SENDING a false
      RECEIVING := Function.update v.RECEIVING a false
      callerq := callerq
      sendlink := sendlink
      log := log } r') :
    ∃ r', Facts c { v with
      NO_MAP := Function.update v.NO_MAP a false
      SENDING := Function.update v.SENDING a false
      RECEIVING := Function.update v.RECEIVING a false
      PENDING := Function.update v.PENDING a false
      SIG_PENDING := Function.update v.SIG_PENDING a false
      P_STOP := Function.update v.P_STOP a false
      priority := Function.update v.priority a .PPRI_NONE
      callerq := callerq
      sendlink := sendlink
      pending := Function.update v.pending a 0
      pendcount := Function.update v.pendcount a 0
      sig_procs := v.sig_procs - (v.PENDING a).toNat
      log := log } r' := by
  obtain ⟨r',hmail⟩ := hmail
  have hserver : a ∈ c.servers := h.roles.mem_servers (by simp [huser]) (by simp [huser])
  have hne : ∀ {q : ρ}, v.priority q ≠ .PPRI_USER → q ≠ a := by
    rintro q hq rfl
    exact hq huser
  have hkept : ∀ q, q ≠ a → Function.update v.priority a .PPRI_NONE q = v.priority q := fun q hq =>
    Function.update_of_ne hq _ _
  refine ⟨r',hmail.frame rfl rfl rfl rfl rfl rfl rfl rfl rfl,?_,?_,h.held,?_,?_⟩
  · refine ⟨?_,fun p hp hpi => ?_,fun p hp => ?_,?_,?_,fun p hp => ?_,fun p hp => ?_,fun p hp => ?_,fun p hp => ?_,h.roles.reachable⟩
    · exact (hkept _ (hne (by simp [h.roles.idle]))).trans h.roles.idle
    · refine (hkept p ?_).trans (h.roles.tasks p hp hpi)
      rintro rfl
      exact hp hserver
    · dsimp only
      by_cases hpa : p = a
      · rw [hpa, Function.update_self]
        simp
      · rw [hkept p hpa]
        exact h.roles.servers p hp
    · exact (hkept _ (hne (by simp [h.roles.mm]))).trans h.roles.mm
    · exact (hkept _ (hne (by simp [h.roles.fs]))).trans h.roles.fs
    · dsimp only at hp ⊢
      by_cases hpa : p = a
      · rw [hpa, Function.update_self] at hp
        cases hp
      · rw [hkept p hpa] at hp
        simp only [Function.update_of_ne hpa]
        exact h.roles.plain p hp
    · by_cases hpa : p = a
      · simp [View.flagless, hpa]
      · have hdead : ¬ v.alive c p := by
          rw [View.alive, ← hkept p hpa]
          exact hp
        simp only [View.flagless, Function.update_of_ne hpa]
        exact h.roles.quiet p hdead
    · dsimp only at hp ⊢
      by_cases hpa : p = a
      · rw [hpa, Function.update_self] at hp
        cases hp
      · rw [Function.update_of_ne hpa] at hp
        rw [hkept]
        · exact h.roles.live p hp
        · intro hto
          have hmem := h.mail.mem_names.mpr ⟨hp,hto⟩
          rw [hnobody] at hmem
          cases hmem
    · have hpa : p ≠ a := hne (by simp [(h.roles.alerts p hp).1])
      exact ⟨(hkept p hpa).trans (h.roles.alerts p hp).1,(h.roles.alerts p hp).2⟩
  · refine ⟨fun p hp hr => ?_,fun p hp hr => ?_,h.ints.kept,h.ints.counted⟩
    · dsimp only at hp hr ⊢
      by_cases hpa : p = a
      · rw [hpa, Function.update_self] at hp
        cases hp
      · rw [Function.update_of_ne hpa] at hp hr
        exact h.ints.reply p hp hr
    · dsimp only at hp hr ⊢
      by_cases hpa : p = a
      · rw [hpa, Function.update_self] at hr
        cases hr
      · rw [Function.update_of_ne hpa] at hp hr
        exact h.ints.ready p hp hr
  · have hset := @Signals.setOne _ _ _ _ _ h.signals a 0 0 false false (by simp) (by simp) (by simp [signals_zero]) (by simp)
    simp only [Bool.toNat_false, Nat.cast_zero, add_zero] at hset
    exact { hset with }
  · intro hrec hany p
    dsimp only at hrec hany ⊢
    rw [Function.update_of_ne (hne (by simp [h.roles.mm]))] at hrec
    by_cases hpa : p = a
    · rw [hpa, Function.update_self]
    · rw [Function.update_of_ne hpa]
      exact h.told hrec hany p

omit [Fintype ρ] in
theorem heads_update (rest : ρ → Rest ρ) (p : ρ) (x : Rest ρ) (h : x.p_callerq = (rest p).p_callerq) :
    heads (Function.update rest p x) = heads rest :=
  (funext (field_update Rest.p_callerq rest p x)).trans (update_same h.symm)

omit [Fintype ρ] in
theorem links_update (rest : ρ → Rest ρ) (p : ρ) (x : Rest ρ) (h : x.p_sendlink = (rest p).p_sendlink) :
    links (Function.update rest p x) = links rest :=
  (funext (field_update Rest.p_sendlink rest p x)).trans (update_same h.symm)

omit [DecidableEq ρ] [Fintype ρ] in
theorem SameRest.field {α : Type} {rest rest' : ρ → Rest ρ} (h : SameRest rest rest') (field : Rest ρ → α)
    (hfield : ∀ x, field { x with p_callerq := none, p_sendlink := none } = field x) (p : ρ) :
    field (rest' p) = field (rest p) := by
  rw [← hfield (rest' p), h p, hfield]

omit [Fintype ρ] in
theorem view_dead (s : System ρ) (a : ρ) :
    (s.setProc a fun p => { p with p_flags := {}, p_priority := .PPRI_NONE }).view = { s.view with
      NO_MAP := Function.update s.view.NO_MAP a false
      SENDING := Function.update s.view.SENDING a false
      RECEIVING := Function.update s.view.RECEIVING a false
      PENDING := Function.update s.view.PENDING a false
      SIG_PENDING := Function.update s.view.SIG_PENDING a false
      P_STOP := Function.update s.view.P_STOP a false
      priority := Function.update s.view.priority a .PPRI_NONE } := by
  rw [view_setProc]
  apply View.ext
  all_goals first | rfl | exact Function.update_eq_self _ _

theorem Steady.leave_queue (h : Steady c s r) {rest : ρ → Rest ρ} (hheads : heads rest = s.view.callerq)
    (hlinks : links rest = s.view.sendlink) :
    ∃ rest' r', (if (s.flags a).SENDING then unlinkCaller a c.fuel c.order rest else some rest) = some rest' ∧
      SameRest rest rest' ∧ Mail c { s.view with
        SENDING := Function.update s.view.SENDING a false
        RECEIVING := Function.update s.view.RECEIVING a false
        callerq := heads rest'
        sendlink := links rest'
        log := if (s.flags a).SENDING then s.log ++ [.dropped a (s.post a).p_sendto (s.letter c a (s.post a).p_messbuf)]
          else s.log } r' := by
  cases hS : (s.flags a).SENDING with
  | true =>
    have hsend : s.view.SENDING a = true := hS
    have hfamily : Family (links rest) (heads rest) (names r) := by
      rw [hheads, hlinks]
      exact h.mail.queue
    obtain ⟨front,back,hnames⟩ := List.append_of_mem (h.mail.mem_names.mpr ⟨hsend,rfl⟩)
    obtain ⟨frontm,m,backm,hmail,rfl,rfl⟩ := mail_split hnames
    obtain ⟨rest',hunlink,hsame,hfamily'⟩ := unlinkCaller_spec hfamily hnames (c.complete _)
    rw [← List.map_append] at hfamily'
    exact ⟨rest',_,by rw [if_pos rfl, hunlink],hsame,h.mail.drop hmail hfamily'⟩
  | false =>
    have hfree : s.view.SENDING a = false := hS
    refine ⟨rest,_,if_neg Bool.false_ne_true,fun _ => rfl,(h.mail.wake a).frame (update_same hfree) rfl rfl rfl hheads hlinks
      rfl rfl ?_⟩
    dsimp only
    rw [if_neg Bool.false_ne_true]
    rfl

theorem Steady.do_xit (h : Steady c s r) {parent : ρ} (hlegal : Legal c s (.do_xit parent a)) :
    ∃ s' r', s.do_xit c parent a = some s' ∧ Steady c s' r' := by
  obtain ⟨hparent,huser,hqueue⟩ := hlegal
  have hclass : s.view.priority a = .PPRI_USER := of_decide_eq_true huser
  have hlined : Lined s.table (s.view.runnable c) := h.ready
  -- its alarm is cleared and it is not ready any more
  let s₁ := s.setProc a fun p => { p with p_alarm := 0 }
  have hview₁ : s₁.view = s.view := by
    rw [view_setProc]
    apply View.ext
    all_goals first | rfl | exact Function.update_eq_self _ _
  have hready₁ : Ready c s₁ := by
    rw [Ready, hview₁]
    exact hlined.setField a (f := fun p => { p with p_alarm := 0 }) (fun _ => rfl) (fun _ => rfl) (fun _ => rfl) fun _ => rfl
  obtain ⟨t,hsleep,hview,hlined',hslept⟩ := goToSleep hready₁ (lock_unready_slot c a)
  rw [hview₁] at hview hlined'
  have hflags₁ : s₁.flags a = s.flags a := kept_setProc (f := fun p => { p with p_alarm := 0 }) Proc.p_flags rfl
  have hunready : (if (s.table.proc a).p_flags = {} then lock_unready c.slots c.fuel s₁.table a else some s₁.table) = some t := by
    rw [System.whenRunnable, hflags₁] at hsleep
    by_cases hflags : (s.table.proc a).p_flags = {}
    · rw [if_pos (show s.flags a = {} from hflags), System.onTable, Option.map_eq_some_iff] at hsleep
      obtain ⟨t',ht',heq⟩ := hsleep
      rw [if_pos hflags, ht', show t' = t from congrArg System.table heq]
    · rw [if_neg (show ¬ s.flags a = {} from hflags)] at hsleep
      rw [if_neg hflags, show s₁.table = t from congrArg System.table (Option.some_injective _ hsleep)]
  -- it is taken out of the queue it stands in
  let rest₁ := Function.update s.rest parent { s.rest parent with
    child_utime := (s.rest parent).child_utime + ((s.table.proc a).user_time + (s.rest a).child_utime)
    child_stime := (s.rest parent).child_stime + ((s.table.proc a).sys_time + (s.rest a).child_stime) }
  let rest₂ := Function.update rest₁ a { rest₁ a with p_name := "<noname>" }
  have hheads : heads rest₂ = s.view.callerq := by
    have h₁ : heads rest₁ = heads s.rest := heads_update _ _ _ rfl
    have h₂ : heads rest₂ = heads rest₁ := heads_update _ _ _ rfl
    exact h₂.trans h₁
  have hlinks : links rest₂ = s.view.sendlink := by
    have h₁ : links rest₁ = links s.rest := links_update _ _ _ rfl
    have h₂ : links rest₂ = links rest₁ := links_update _ _ _ rfl
    exact h₂.trans h₁
  have hpending : ∀ p, (rest₂ p).p_pending = s.view.pending p ∧ (rest₂ p).p_pendcount = s.view.pendcount p := by
    have h₁ : ∀ p, (rest₁ p).p_pending = s.view.pending p ∧ (rest₁ p).p_pendcount = s.view.pendcount p := by
      intro p
      by_cases hp : p = parent
      · rw [hp, show rest₁ parent = _ from Function.update_self ..]
        exact ⟨rfl,rfl⟩
      · rw [show rest₁ p = s.rest p from Function.update_of_ne hp _ _]
        exact ⟨rfl,rfl⟩
    intro p
    by_cases hp : p = a
    · rw [hp, show rest₂ a = _ from Function.update_self ..]
      exact h₁ a
    · rw [show rest₂ p = rest₁ p from Function.update_of_ne hp _ _]
      exact h₁ p
  obtain ⟨rest',r₁,hunlink,hsame,hmail⟩ := h.leave_queue (a := a) hheads hlinks
  have hpending' : ∀ p, (rest' p).p_pending = s.view.pending p ∧ (rest' p).p_pendcount = s.view.pendcount p := by
    intro p
    rw [← (hpending p).1, ← (hpending p).2]
    exact ⟨hsame.field Rest.p_pending (fun _ => rfl) p,hsame.field Rest.p_pendcount (fun _ => rfl) p⟩
  have hnobody : names r a = [] := by
    have hhead := h.mail.queue.head_eq a
    rw [show s.view.callerq a = none from hqueue] at hhead
    exact List.head?_eq_none_iff.mp hhead.symm
  obtain ⟨r',hfacts⟩ := h.facts.exit hclass hnobody ⟨r₁,hmail⟩
  -- the state that results
  let s₂ := (s₁.withTable t).setProc a fun p => { p with p_flags := {}, p_priority := .PPRI_NONE }
  let s' : System ρ := { s₂ with
    rest := Function.update rest' a { rest' a with p_pending := 0, p_pendcount := 0 }
    sig_procs := if (s.flags a).PENDING then s.sig_procs - 1 else s.sig_procs
    log := if (s.flags a).SENDING then s.log ++ [.dropped a (s.post a).p_sendto (s.letter c a (s.post a).p_messbuf)]
      else s.log }
  have hrun : s.do_xit c parent a = some s' := by
    have hxit : Scheduling.do_xit c.slots c.order c.fuel s.processes parent a = some {
        table := s₂.table
        rest := Function.update rest' a { rest' a with p_pending := 0, p_pendcount := 0 }
        sig_procs := if (s.flags a).PENDING then s.sig_procs - 1 else s.sig_procs } := by
      rw [Scheduling.do_xit, show isuserp s.processes.table parent = true from hparent,
        show isuserp s.processes.table a = true from huser]
      dsimp only [System.processes]
      rw [Bool.and_true, if_pos rfl]
      erw [hunready]
      rw [Option.bind_eq_bind, Option.bind_some]
      erw [hunlink]
      rfl
    rw [System.do_xit, hxit, Option.map_some]
    cases hS : (s.flags a).SENDING with
    | true => simp only [s', hS, if_true]; rfl
    | false => simp only [s', hS, Bool.false_eq_true, if_false]; rfl
  have hview₂ : s₂.view = { s.view with
      NO_MAP := Function.update s.view.NO_MAP a false
      SENDING := Function.update s.view.SENDING a false
      RECEIVING := Function.update s.view.RECEIVING a false
      PENDING := Function.update s.view.PENDING a false
      SIG_PENDING := Function.update s.view.SIG_PENDING a false
      P_STOP := Function.update s.view.P_STOP a false
      priority := Function.update s.view.priority a .PPRI_NONE } := by
    rw [view_dead, hview]
  have hview' : s'.view = { s₂.view with
      callerq := heads rest'
      sendlink := links rest'
      pending := Function.update s.view.pending a 0
      pendcount := Function.update s.view.pendcount a 0
      sig_procs := s.view.sig_procs - (s.view.PENDING a).toNat
      log := if (s.flags a).SENDING then s.log ++ [.dropped a (s.post a).p_sendto (s.letter c a (s.post a).p_messbuf)]
        else s.log } := by
    apply View.ext
    case callerq => exact heads_update rest' a _ rfl
    case sendlink => exact links_update rest' a _ rfl
    case pending =>
      refine (funext (field_update Rest.p_pending rest' a _)).trans ?_
      rw [show (fun p => (rest' p).p_pending) = s.view.pending from funext fun p => (hpending' p).1]
    case pendcount =>
      refine (funext (field_update Rest.p_pendcount rest' a _)).trans ?_
      rw [show (fun p => (rest' p).p_pendcount) = s.view.pendcount from funext fun p => (hpending' p).2]
    case sig_procs =>
      show (if (s.flags a).PENDING then s.sig_procs - 1 else s.sig_procs) = s.sig_procs - ((s.flags a).PENDING).toNat
      cases (s.flags a).PENDING with
      | true => rw [if_pos rfl, Bool.toNat_true, Nat.cast_one]
      | false => rw [if_neg Bool.false_ne_true, Bool.toNat_false, Nat.cast_zero, sub_zero]
    all_goals rfl
  rw [hview₂] at hview'
  refine ⟨s',r',hrun,Facts.steady (by rw [hview']; exact hfacts) ?_ (hslept.switching h.switching)
    ((hslept.picked (h.picked.congr rfl rfl)).congr rfl rfl)⟩
  have hrunnable : s'.view.runnable c = (s.view.runnable c).erase a := by
    refine runnable_erase_of_notMem ?_ fun hmem => ?_
    · rw [hview']
      exact fun q hq => ⟨by simp only [View.flagless, Function.update_of_ne hq],Function.update_of_ne hq _ _⟩
    · have hdead : s'.view.priority a = .PPRI_NONE := by
        rw [hview']
        exact Function.update_self ..
      exact (mem_runnable.mp hmem).2.1 hdead
  rw [Ready, hrunnable]
  refine hlined'.setProc (f := fun p => { p with p_flags := {}, p_priority := .PPRI_NONE }) (fun _ => rfl) (fun hmem => ?_)
    (hlined'.queues.groups a) (hlined'.guards a)
  exact absurd rfl (Finset.mem_erase.mp hmem).1

omit [Fintype ρ] in
theorem view_server (s : System ρ) (a : ρ) :
    (s.setProc a fun p => { p with p_priority := .PPRI_SERVER, p_pid := 0 }).view =
      { s.view with priority := Function.update s.view.priority a .PPRI_SERVER } := by
  rw [view_setProc]
  apply View.ext
  all_goals first | rfl | exact Function.update_eq_self _ _

omit [Fintype ρ] in
/-- A user process becomes a server. -/
theorem Roles.promote (h : Roles c v) (huser : v.priority a = .PPRI_USER) :
    Roles c { v with priority := Function.update v.priority a .PPRI_SERVER } := by
  have hserver : a ∈ c.servers := h.mem_servers (by simp [huser]) (by simp [huser])
  have hclass : ∀ p, Function.update v.priority a .PPRI_SERVER p = v.priority p ∨
      p = a ∧ Function.update v.priority a .PPRI_SERVER p = .PPRI_SERVER := by
    intro p
    by_cases hp : p = a
    · exact Or.inr ⟨hp,by rw [hp, Function.update_self]⟩
    · exact Or.inl (Function.update_of_ne hp _ _)
  have hother : ∀ {p} {x : Priority}, v.priority p = x → x ≠ .PPRI_USER →
      Function.update v.priority a .PPRI_SERVER p = x := by
    rintro p x rfl hx
    refine (hclass p).resolve_right ?_
    rintro ⟨rfl,-⟩
    exact hx huser
  have hnone : ∀ p, Function.update v.priority a .PPRI_SERVER p = .PPRI_NONE ↔ v.priority p = .PPRI_NONE := by
    intro p
    rcases hclass p with hp | ⟨rfl,hp⟩
    · rw [hp]
    · rw [hp, huser]
      simp
  refine ⟨hother h.idle (by simp),fun p hp hpi => hother (h.tasks p hp hpi) (by simp),fun p hp => ?_,hother h.mm (by simp),
    hother h.fs (by simp),fun p hp => ?_,fun p hp => ?_,fun p hp => ?_,fun p hp => ?_,h.reachable⟩
  · dsimp only
    rcases hclass p with hpp | ⟨-,hpp⟩
    · rw [hpp]
      exact h.servers p hp
    · rw [hpp]
      simp
  · dsimp only at hp
    rcases hclass p with hpp | ⟨-,hpp⟩
    · rw [hpp] at hp
      exact h.plain p hp
    · rw [hpp] at hp
      cases hp
  · refine h.quiet p fun hal => hp ⟨?_,hal.2⟩
    exact fun hno => hal.1 ((hnone p).mp hno)
  · exact fun hno => h.live p hp ((hnone _).mp hno)
  · exact ⟨hother (h.alerts p hp).1 (by simp),(h.alerts p hp).2⟩

theorem Steady.SYSSIGNON (h : Steady c s r) {priv copied : Bool} (hlegal : Legal c s (.SYSSIGNON a priv copied)) :
    Steady c (s.withProcesses (do_sysctl_SYSSIGNON s.processes a priv copied).2) r := by
  rw [do_sysctl_SYSSIGNON]
  by_cases hrefuse : (!priv || !isuserp s.processes.table a) = true
  · rw [if_pos hrefuse]
    exact h
  rw [if_neg hrefuse]
  by_cases hcopied : (!copied) = true
  · rw [if_pos hcopied]
    exact h
  rw [if_neg hcopied]
  rw [Bool.or_eq_true, not_or, Bool.not_eq_true', Bool.not_eq_true', Bool.not_eq_false, Bool.not_eq_false] at hrefuse
  have huser : isuserp s.table a = true := hrefuse.2
  have hclass : s.view.priority a = .PPRI_USER := of_decide_eq_true huser
  have hR : s.view.RECEIVING a = true := hlegal huser
  let s' := s.setProc a fun p => { p with p_priority := .PPRI_SERVER, p_pid := 0 }
  have hview : s'.view = { s.view with priority := Function.update s.view.priority a .PPRI_SERVER } := view_server s a
  have hlined : Lined s.table (s.view.runnable c) := h.ready
  have hfresh : a ∉ s.view.runnable c := by
    rw [mem_runnable, flagless_of_RECEIVING hR]
    simp
  refine Facts.steady (s := s') ?_ ?_ h.switching (h.picked.congr rfl rfl)
  · rw [hview]
    exact ⟨h.mail.frame rfl rfl rfl rfl rfl rfl rfl rfl rfl,h.roles.promote hclass,{ h.ints with },h.held,{ h.signals with },
      h.told⟩
  · have hsame : s'.view.runnable c = s.view.runnable c := by
      rw [@runnable_erase _ _ c s.view s'.view a _, Finset.erase_eq_of_notMem hfresh]
      · rw [hview]
        exact fun q hq => ⟨rfl,Function.update_of_ne hq _ _⟩
      · rw [hview]
        exact flagless_of_RECEIVING hR
    rw [Ready, hsame]
    exact hlined.setProc (f := fun p => { p with p_priority := .PPRI_SERVER, p_pid := 0 }) (fun _ => rfl)
      (fun hmem => absurd hmem hfresh) (hlined.queues.groups a) (hlined.guards a)

theorem Steady.do_setGroup (h : Steady c s r) (m : Message) : Steady c (s.withTable (do_setGroup c.order s.table m).2) r := by
  rcases do_setGroup_cases c.order s.table m with ⟨heq,-⟩ | ⟨rp,-,hrange,heq⟩
  · rw [heq]
    exact h
  · rw [heq]
    let s' := s.setProc rp fun p => { p with group := m.m1_i2 }
    have hview : s'.view = s.view := by
      rw [view_setProc]
      apply View.ext
      all_goals first | rfl | exact Function.update_eq_self _ _
    have hlined : Lined s.table (s.view.runnable c) := h.ready
    refine Facts.steady (s := s') (by rw [hview]; exact h.facts) ?_ h.switching (h.picked.congr rfl rfl)
    rw [Ready, hview]
    exact hlined.setProc (f := fun p => { p with group := m.m1_i2 }) (fun _ => rfl) (fun _ => rfl) ⟨hrange.1,by dsimp only; omega⟩
      (hlined.guards rp)

omit [DecidableEq ρ] [Fintype ρ] in
theorem sched_picked [DecidableEq ρ] {slots : Slots ρ} {fuel : ℕ} (hsched : sched slots fuel t = some t')
    (hpicked : Picked slots t) : Picked slots t' := by
  rw [sched] at hsched
  split at hsched
  · cases hsched
    exact hpicked
  · simp only [Option.bind_eq_bind, Option.bind_eq_some_iff] at hsched
    obtain ⟨t₁,-,t₂,-,heq⟩ := hsched
    cases heq
    exact picked_pick_proc _ _

theorem Steady.lock_sched (h : Steady c s r) :
    ∃ s', s.onTable (lock_sched c.slots c.fuel) = some s' ∧ Steady c s' r := by
  have hlined : Lined s.table (s.view.runnable c) := h.ready
  have hlocked : Lined { s.table with switching := true } (s.view.runnable c) := hlined.congr rfl rfl rfl
  have hcard : Fintype.card ρ + 2 ≤ c.fuel := by
    have hlen := length_le_fuel c (Finset.nodup_toList (Finset.univ : Finset ρ))
    rwa [Finset.length_toList, Finset.card_univ] at hlen
  obtain ⟨t,hsched,hqueues,hperm⟩ := hlocked.queues.sched c.slots hcard
  have hsame : SameFields s.table { t with switching := false } := hperm.fields
  refine ⟨s.withTable { t with switching := false },?_,Facts.steady ?_ ?_ rfl ?_⟩
  · rw [System.onTable, Scheduling.lock_sched, hsched]
    rfl
  · rw [view_withTable hsame]
    exact h.facts
  · rw [Ready, view_withTable hsame]
    have hlined' : Lined t (s.view.runnable c) := by
      refine ⟨hqueues,fun p => ?_⟩
      rw [SameFields.field hsame Proc.p_stguard fun _ => rfl]
      exact hlined.guards p
    exact hlined'.congr rfl rfl rfl
  · exact (sched_picked hsched (h.picked.congr rfl rfl)).congr rfl rfl

theorem Steady.store (h : Steady c s r) (hS : s.view.SENDING p = false) (m_ptr : ℕ) (m : Letter ρ) :
    Steady c (s.store p m_ptr m) r :=
  Facts.steady (s := s.store p m_ptr m)
    ⟨h.mail.store hS _,{ h.roles with },{ h.ints with },h.held,{ h.signals with },h.told⟩ h.ready h.switching h.picked

/-- Every entry that is legal is carried out and keeps what holds between the entries. -/
theorem Steady.step (h : Steady c s r) {op : KernelOp ρ} (hlegal : Legal c s op) :
    ∃ s' r', kernelStep c s op = some s' ∧ Steady c s' r' := by
  cases op with
  | sys_call function src_dest m_ptr =>
    obtain ⟨res,s',r',hrun,hsteady⟩ := h.sys_call hlegal
    exact ⟨s',r',by rw [kernelStep, hrun]; rfl,hsteady⟩
  | store rp m_ptr m => exact ⟨_,r,rfl,h.store hlegal m_ptr m⟩
  | interrupt k_reenter task => exact h.interrupt hlegal
  | unhold =>
    obtain ⟨task,htask⟩ := Option.ne_none_iff_exists'.mp hlegal
    obtain ⟨s',r',hrun,hsteady,-⟩ := h.unholdOne htask
    exact ⟨s',r',by rw [kernelStep, htask]; exact hrun,hsteady⟩
  | lock_sched =>
    obtain ⟨s',hrun,hsteady⟩ := h.lock_sched
    exact ⟨s',r,hrun,hsteady⟩
  | do_fork PROC1 PROC2 PID => exact h.do_fork hlegal
  | do_newmap k map => exact h.do_newmap hlegal
  | do_exec PROC1 PROC2 => exact h.do_exec hlegal
  | do_xit parent proc_nr => exact h.do_xit hlegal
  | do_kill PR SIGNUM => exact h.do_kill hlegal
  | do_endsig PROC1 => exact h.do_endsig hlegal
  | do_trace TR_PROCNR TR_REQUEST => exact h.do_trace hlegal
  | SYSSIGNON proc_nr priv copied => exact ⟨_,r,rfl,h.SYSSIGNON hlegal⟩
  | do_setGroup m => exact ⟨_,r,rfl,h.do_setGroup m⟩

end SOI.Scheduling

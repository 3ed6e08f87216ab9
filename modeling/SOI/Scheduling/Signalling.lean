import SOI.Scheduling.Interrupts

/-! # Signals and the processes they hold up

What the system task does to processes that go on existing: it sends them signals,
stops them and lets them go on. A process is made ready again only when the last
flag is gone, and a task is running then.
-/
namespace SOI.Scheduling
open Linked Parents Rendezvous
variable {ρ : Type} [DecidableEq ρ] [Fintype ρ] {c : Config ρ} {s s₁ s' : System ρ} {t t' t₁ : Table ρ} {r r₁ r' : Mailbox ρ}
  {v v' : View ρ} {p k proc_nr : ρ} {S : Finset ρ}

/-- What holds of the kernel between its entries apart from its ready queues. -/
structure Facts (c : Config ρ) (v : View ρ) (r : Mailbox ρ) : Prop where
  mail : Mail c v r
  roles : Roles c v
  ints : Ints v
  held : Held v
  signals : Signals c v
  told : Told c v

theorem Steady.facts (h : Steady c s r) : Facts c s.view r :=
  ⟨h.mail,h.roles,h.ints,h.held,h.signals,h.told⟩

theorem Facts.steady (h : Facts c s.view r) (hready : Ready c s) (hswitch : s.table.switching = false)
    (hpicked : Picked c.slots s.table) : Steady c s r :=
  ⟨⟨⟨hready,h.mail,h.roles,h.ints,h.held⟩,h.signals⟩,h.told,hswitch,hpicked⟩

theorem Steady.busy_of_task (h : Steady c s r) (htask : s.taskRuns = true) : Busy s.table := by
  have hclass : s.view.priority s.table.proc_ptr = .PPRI_TASK := of_decide_eq_true htask
  refine h.busy (fun hidle => ?_) ?_
  · rw [hidle, h.roles.idle] at hclass
    cases hclass
  · rw [isuserp, show (s.table.proc s.table.proc_ptr).p_priority = .PPRI_TASK from hclass]
    rfl

theorem lock_ready_slot (c : Config ρ) (rp : ρ) (t : Table ρ) (S : Finset ρ) (h : Lined t S) (hrp : rp ∉ S) :
    ∃ t', lock_ready t rp = some t' ∧ Lined t' (insert rp S) ∧ Readied c.slots rp t t' :=
  lock_ready_spec c.slots h hrp

theorem Steady.resume (h : Steady c s r) (s₁ : System ρ) (r₁ : Mailbox ρ) (hbusy : Busy s.table)
    (hlined : Lined s₁.table (s.view.runnable c)) (helse : Elsewhere p s.view s₁.view) (hblocked : s.view.flagless p = false) (halive : s₁.view.alive c p)
    (hfacts : Facts c s₁.view r₁) (hheads : s₁.table.rdy_head = s.table.rdy_head)
    (hproc : s₁.table.proc_ptr = s.table.proc_ptr) (hswitch : s₁.table.switching = s.table.switching) :
    ∃ s', s₁.whenRunnable p (fun t => lock_ready t p) = some s' ∧ Steady c s' r₁ := by
  obtain ⟨t,hwake,hview,hready,hreadied⟩ := wakeUp hlined helse hblocked halive (lock_ready_slot c p)
  have hbusy₁ : Busy s₁.table := by
    rw [Busy, hheads]
    exact hbusy
  refine ⟨_,hwake,Facts.steady (by rw [hview]; exact hfacts) hready (hreadied.switching (hswitch.trans h.switching)) ?_⟩
  exact hreadied.picked (Or.inr hbusy₁) (h.picked.congr hheads hproc)

omit [Fintype ρ] in
theorem alive_congr (h : v'.priority = v.priority) (halive : v.alive c p) : v'.alive c p := by
  rw [View.alive, h]
  exact halive

theorem Signals.add (h : Signals c v) (sig : ℕ) (hscanned : p ∈ c.servers) :
    Signals c { v with
      pending := Function.update v.pending p (v.pending p ||| 1 <<< sig)
      pendcount := Function.update v.pendcount p (v.pendcount p + 1)
      PENDING := Function.update v.PENDING p true
      SIG_PENDING := Function.update v.SIG_PENDING p true
      sig_procs := v.sig_procs - (v.PENDING p).toNat + 1 } := by
  refine h.setOne p (iff_of_true rfl ?_) (iff_of_true rfl (by omega)) ?_ fun _ => hscanned
  · intro hzero
    have hmem : sig ∈ signals (v.pending p ||| 1 <<< sig) := by simp [signals_add]
    rw [hzero, signals_zero] at hmem
    simp at hmem
  · rw [signals_add]
    exact (Finset.card_insert_le _ _).trans (Nat.add_le_add_right (h.counted p) 1)

theorem Steady.cause_sig (h : Steady c s r) (huser : s.view.priority p = .PPRI_USER) (sig_nr : ℕ) :
    ∃ s' r', cause_sig c s p sig_nr = some s' ∧ Steady c s' r' ∧ (Busy s.table → Busy s'.table) ∧
      s'.view.priority = s.view.priority ∧ s'.view.RECEIVING p = s.view.RECEIVING p := by
  have hserver : p ∈ c.servers := h.roles.mem_servers (by simp [huser]) (by simp [huser])
  have halive : s.view.alive c p := h.roles.alive_user (Or.inl huser)
  have htask : s.view.priority p ≠ .PPRI_TASK := by simp [huser]
  have hmm : p ≠ c.MM_PROC_NR := by
    rintro rfl
    rw [h.roles.mm] at huser
    cases huser
  rw [Scheduling.cause_sig]
  by_cases hold : (s.rest p).p_pending.testBit sig_nr = true
  · exact ⟨s,r,if_pos hold,h,id,rfl,rfl⟩
  rw [if_neg hold]
  have hadded := h.signals.add sig_nr hserver
  let s₁ := s.setRest p fun r => { r with p_pending := r.p_pending ||| 1 <<< sig_nr, p_pendcount := r.p_pendcount + 1 }
  have hview₁ : s₁.view = { s.view with
      pending := Function.update s.view.pending p (s.view.pending p ||| 1 <<< sig_nr)
      pendcount := Function.update s.view.pendcount p (s.view.pendcount p + 1) } := by
    rw [view_setRest]
    apply View.ext
    all_goals first | rfl | exact Function.update_eq_self _ _
  have hlined : Lined s.table (s.view.runnable c) := h.ready
  have hready₁ : Ready c s₁ := by
    rw [Ready, hview₁]
    exact hlined
  cases hpending : (s.flags p).PENDING with
  | true =>
    have hP : s.view.PENDING p = true := hpending
    obtain ⟨hsig,-⟩ := h.toInv.of_pending hP
    refine ⟨s₁,r,if_pos hpending,Facts.steady ?_ hready₁ h.switching h.picked,id,by rw [hview₁],by rw [hview₁]⟩
    have hPsame : Function.update s.view.PENDING p true = s.view.PENDING := by rw [← hP, Function.update_eq_self]
    have hSsame : Function.update s.view.SIG_PENDING p true = s.view.SIG_PENDING := by rw [← hsig, Function.update_eq_self]
    rw [hPsame, hSsame, hP] at hadded
    simp only [Bool.toNat_true, Nat.cast_one, sub_add_cancel] at hadded
    rw [hview₁]
    exact ⟨h.mail.frame rfl rfl rfl rfl rfl rfl rfl rfl rfl,{ h.roles with },{ h.ints with },h.held,{ hadded with },h.told⟩
  | false =>
    have hP : s.view.PENDING p = false := hpending
    rw [hP] at hadded
    simp only [Bool.toNat_false, Nat.cast_zero, sub_zero] at hadded
    obtain ⟨t,hsleep,hview,hlined',hslept⟩ := goToSleep hready₁ (lock_unready_slot c p)
    rw [hview₁] at hview
    let s₂ := (s₁.withTable t).setFlags p fun f => { f with PENDING := true, SIG_PENDING := true }
    let s₃ : System ρ := { s₂ with sig_procs := s₂.sig_procs + 1 }
    have hview₃ : s₃.view = { s.view with
        pending := Function.update s.view.pending p (s.view.pending p ||| 1 <<< sig_nr)
        pendcount := Function.update s.view.pendcount p (s.view.pendcount p + 1)
        PENDING := Function.update s.view.PENDING p true
        SIG_PENDING := Function.update s.view.SIG_PENDING p true
        sig_procs := s.view.sig_procs + 1 } := by
      have hview₂ : s₂.view = { s.view with
          pending := Function.update s.view.pending p (s.view.pending p ||| 1 <<< sig_nr)
          pendcount := Function.update s.view.pendcount p (s.view.pendcount p + 1)
          PENDING := Function.update s.view.PENDING p true
          SIG_PENDING := Function.update s.view.SIG_PENDING p true } := by
        rw [view_signalled, hview]
      have hagain : s₃.view = { s₂.view with sig_procs := s₂.view.sig_procs + 1 } := rfl
      rw [hagain, hview₂]
    have hready₃ : Ready c s₃ := by
      refine @ready_of_erase _ _ _ _ _ s.view p ?_ ?_ ?_
      · have herase : Lined t ((s.view.runnable c).erase p) := by
          rw [hview₁] at hlined'
          exact hlined'
        have hmarked : Lined s₂.table ((s.view.runnable c).erase p) := Lined.setFlags (s := s₁.withTable t) herase p _
        exact hmarked
      · rw [hview₃]
        exact fun q hq => ⟨by simp only [View.flagless, Function.update_of_ne hq],rfl⟩
      · rw [hview₃]
        simp [View.flagless]
    have hroles := h.roles.setOthers (s.view.NO_MAP p) true true (s.view.P_STOP p) halive htask
    simp only [Function.update_eq_self] at hroles
    have hinv : Inv c s₃ r := by
      refine ⟨⟨hready₃,?_,?_,?_,?_⟩,?_⟩
      · rw [hview₃]
        exact h.mail.frame rfl rfl rfl rfl rfl rfl rfl rfl rfl
      · rw [hview₃]
        exact { hroles with }
      · rw [hview₃]
        exact { h.ints with }
      · rw [hview₃]
        exact h.held
      · rw [hview₃]
        exact hadded
    have hbusy : Busy s.table → Busy s₃.table := by
      have hqueue : queueOf s.table p = .USER_Q := by
        rw [queueOf, istaskp, isservp, show (s.table.proc p).p_priority = .PPRI_USER from huser]
        rfl
      have hkept : ∀ q, q ≠ .USER_Q → s₃.table.rdy_head q = s.table.rdy_head q := fun q hq => hslept.heads q (by
        rw [show queueOf s₁.table p = .USER_Q from hqueue]
        exact hq)
      rw [Busy, Busy, hkept _ (by simp), hkept _ (by simp)]
      exact id
    have hrun : (if (s₁.flags p).PENDING = true then some s₁ else
        (s₁.whenRunnable p fun t => lock_unready c.slots c.fuel t p).bind fun s =>
          let s := s.setFlags p fun f => { f with PENDING := true, SIG_PENDING := true }
          let s := { s with sig_procs := s.sig_procs + 1 }
          let mmp := c.MM_PROC_NR
          if !(s.flags mmp).RECEIVING || (s.table.proc mmp).p_getfrom ≠ .ANY then some s else inform c s) =
        if !(s₃.flags c.MM_PROC_NR).RECEIVING || (s₃.table.proc c.MM_PROC_NR).p_getfrom ≠ .ANY then some s₃
          else inform c s₃ := by
      rw [if_neg (by rw [show (s₁.flags p).PENDING = false from hpending]; simp), hsleep]
      rfl
    rw [show s.setRest p _ = s₁ from rfl, hrun]
    by_cases hwaits : (!(s₃.flags c.MM_PROC_NR).RECEIVING || (s₃.table.proc c.MM_PROC_NR).p_getfrom ≠ .ANY) = true
    · refine ⟨s₃,r,if_pos hwaits,⟨hinv,fun hrec hany => ?_,hslept.switching h.switching,hslept.picked h.picked⟩,hbusy,
        by rw [hview₃],by rw [hview₃]⟩
      rw [Bool.or_eq_true, Bool.not_eq_true', decide_eq_true_eq] at hwaits
      rcases hwaits with hno | hno
      · exact Bool.noConfusion (hno.symm.trans hrec)
      · exact absurd hany hno
    · rw [if_neg hwaits]
      rw [Bool.or_eq_true, not_or, Bool.not_eq_true', decide_eq_true_eq, not_not, Bool.not_eq_false] at hwaits
      have hsome : ∃ q, s₃.view.PENDING q = true := ⟨p,by rw [hview₃]; exact Function.update_self ..⟩
      obtain ⟨s',r',hinform,hinv',hpick,hsw,hbusy',hrec,-,hclass⟩ := inform_spec hinv hwaits.1 hwaits.2 hsome
      refine ⟨s',r',hinform,⟨hinv',fun hno => ?_,hsw,hpick⟩,fun hb => hbusy' (hbusy hb),?_,?_⟩
      · rw [hrec, Function.update_self] at hno
        cases hno
      · rw [hclass, hview₃]
      · rw [hrec, Function.update_of_ne hmm, hview₃]

theorem Facts.wake (h : Facts c v r) (halive : v.alive c p) :
    Facts c { v with RECEIVING := Function.update v.RECEIVING p false }
      { r with receiving := Function.update r.receiving p none } := by
  refine ⟨h.mail.wake p,h.roles.setReceiving false halive,h.ints.wake p,h.held,{ h.signals with },?_⟩
  refine h.told.of (fun hmm => ?_) rfl rfl
  dsimp only at hmm
  by_cases hp : c.MM_PROC_NR = p
  · rw [hp, Function.update_self] at hmm
    cases hmm
  · rwa [Function.update_of_ne hp] at hmm

theorem Facts.setHalts (h : Facts c v r) (no_map p_stop : Bool) (halive : v.alive c p) (htask : v.priority p ≠ .PPRI_TASK) :
    Facts c { v with
      NO_MAP := Function.update v.NO_MAP p no_map
      P_STOP := Function.update v.P_STOP p p_stop } r := by
  have hroles := h.roles.setOthers no_map (v.PENDING p) (v.SIG_PENDING p) p_stop halive htask
  simp only [Function.update_eq_self] at hroles
  exact ⟨h.mail.frame rfl rfl rfl rfl rfl rfl rfl rfl rfl,{ hroles with },{ h.ints with },h.held,{ h.signals with },h.told⟩

theorem Steady.do_kill (h : Steady c s r) {SIGNUM : ℕ} (hlegal : Legal c s (.do_kill p SIGNUM)) :
    ∃ s' r', s.do_kill c p SIGNUM = some s' ∧ Steady c s' r' := by
  have huser : isuserp s.table p = true := hlegal
  obtain ⟨s',r',hrun,hsteady,-⟩ := h.cause_sig (of_decide_eq_true huser) SIGNUM
  exact ⟨s',r',by rw [System.do_kill, if_pos huser, hrun],hsteady⟩

theorem Steady.do_exec (h : Steady c s r) {PROC2 : Bool} (hlegal : Legal c s (.do_exec p PROC2)) :
    ∃ s' r', s.do_exec c p PROC2 = some s' ∧ Steady c s' r' := by
  obtain ⟨htask,huser,hrec⟩ := hlegal
  have hclass : s.view.priority p = .PPRI_USER := of_decide_eq_true huser
  have hR : s.view.RECEIVING p = true := hrec
  -- a trap signal does not change what is said about the process
  obtain ⟨s₁,r₁,hsig,hsteady,hbusy,hclass₁,hrec₁⟩ : ∃ s₁ r₁,
      (if PROC2 then Scheduling.cause_sig c s p c.SIGTRAP else some s) = some s₁ ∧ Steady c s₁ r₁ ∧ (Busy s.table → Busy s₁.table) ∧
        s₁.view.priority = s.view.priority ∧ s₁.view.RECEIVING p = s.view.RECEIVING p := by
    cases PROC2 with
    | true => exact h.cause_sig hclass c.SIGTRAP
    | false => exact ⟨s,r,rfl,h,id,rfl,rfl⟩
  have halive : s₁.view.alive c p := alive_congr hclass₁ (h.roles.alive_user (Or.inl hclass))
  let s₂ := s₁.setFlags p fun f => { f with RECEIVING := false }
  have hview : s₂.view = { s₁.view with RECEIVING := Function.update s₁.view.RECEIVING p false } := view_RECEIVING ..
  have hlined : Lined s₁.table (s₁.view.runnable c) := hsteady.ready
  obtain ⟨s',hrun,hsteady'⟩ := hsteady.resume (p := p) s₂
    { r₁ with receiving := Function.update r₁.receiving p none } (hbusy (h.busy_of_task htask)) (hlined.setFlags p _)
    (by rw [hview]; exact fun q hq => ⟨by simp only [View.flagless, Function.update_of_ne hq],rfl⟩)
    (flagless_of_RECEIVING (hrec₁.trans hR)) (by rw [hview]; exact halive) (by rw [hview]; exact hsteady.facts.wake halive)
    rfl rfl rfl
  refine ⟨s',_,?_,hsteady'⟩
  rw [System.do_exec, if_pos huser, hsig]
  exact hrun

theorem Steady.do_newmap (h : Steady c s r) {map : MemMap} (hlegal : Legal c s (.do_newmap k map)) :
    ∃ s' r', s.do_newmap k map = some s' ∧ Steady c s' r' := by
  obtain ⟨htask,hno⟩ := hlegal
  have hclass : s.view.priority k ≠ .PPRI_TASK := by
    intro hyes
    exact hno (decide_eq_true hyes)
  have hhw : k ≠ c.slots.HARDWARE := by
    rintro rfl
    exact hclass h.roles.hardware_task
  let s₁ := s.setPost k fun p => { p with p_map := map }
  let s₂ := s₁.setFlags k fun f => { f with NO_MAP := false }
  have hview : s₂.view = { s.view with
      map := Function.update s.view.map k map
      NO_MAP := Function.update s.view.NO_MAP k false } := by
    rw [view_NO_MAP, view_map]
  have hlined : Lined s₁.table (s.view.runnable c) := h.ready
  have hlined₂ : Lined s₂.table (s.view.runnable c) := hlined.setFlags k _
  have hfacts : ∀ v, Facts c v r → Facts c { v with map := Function.update v.map k map } r := fun v hv =>
    ⟨hv.mail.frame rfl rfl rfl rfl rfl rfl rfl rfl rfl,hv.roles.setMap map hhw,{ hv.ints with },hv.held,{ hv.signals with },
      hv.told⟩
  rw [System.do_newmap]
  by_cases hflags : s.flags k = {}
  · -- nothing but the map changes
    have hflag := (flags_eq_iff s k).mp hflags
    have hsame : Function.update s.view.NO_MAP k false = s.view.NO_MAP := by
      rw [← ((flagless_iff _ _).mp hflag).1, Function.update_eq_self]
    rw [hsame] at hview
    refine ⟨s₂,r,by rw [if_neg (not_not.mpr hflags)],Facts.steady ?_ ?_ h.switching (h.picked.congr rfl rfl)⟩
    · rw [hview]
      exact hfacts _ h.facts
    · rw [Ready, hview]
      exact hlined₂
  · rw [if_pos hflags]
    have hblocked : s.view.flagless k = false := Bool.eq_false_iff.mpr fun hno => hflags ((flags_eq_iff s k).mpr hno)
    have halive := h.roles.alive_of_flag hblocked
    have hhalts := hfacts _ (h.facts.setHalts false (s.view.P_STOP k) halive hclass)
    rw [Function.update_eq_self] at hhalts
    obtain ⟨s',hrun,hsteady⟩ := h.resume (p := k) s₂ r (h.busy_of_task htask) hlined₂
      (by rw [hview]; exact fun q hq => ⟨by simp only [View.flagless, Function.update_of_ne hq],rfl⟩)
      hblocked (by rw [hview]; exact halive) (by rw [hview]; exact hhalts) rfl rfl rfl
    exact ⟨s',r,hrun,hsteady⟩

theorem Steady.do_trace (h : Steady c s r) {TR_REQUEST : Trace} (hlegal : Legal c s (.do_trace p TR_REQUEST)) :
    ∃ s' r', s.do_trace c p TR_REQUEST = some s' ∧ Steady c s' r' := by
  rcases hlegal with hempty | ⟨huser,hrequest⟩
  · refine ⟨s,r,?_,h⟩
    cases TR_REQUEST <;> rw [System.do_trace, if_pos hempty]
  have hclass : s.view.priority p = .PPRI_USER := of_decide_eq_true huser
  have halive := h.roles.alive_user (Or.inl hclass)
  have htask : s.view.priority p ≠ .PPRI_TASK := by simp [hclass]
  have hempty : ¬ isemptyp s.table p = true := by
    rw [isemptyp, show (s.table.proc p).p_priority = .PPRI_USER from hclass]
    simp
  have hlined : Lined s.table (s.view.runnable c) := h.ready
  have hstop : ∀ b, Facts c { s.view with P_STOP := Function.update s.view.P_STOP p b } r := by
    intro b
    have hhalts := h.facts.setHalts (s.view.NO_MAP p) b halive htask
    rw [Function.update_eq_self] at hhalts
    exact hhalts
  have helse : ∀ b, Elsewhere p s.view { s.view with P_STOP := Function.update s.view.P_STOP p b } := fun b q hq =>
    ⟨by simp only [View.flagless, Function.update_of_ne hq],rfl⟩
  -- both ways of letting a process go on are the same
  have hresume : s.taskRuns = true → (s.flags p).P_STOP = true →
      ∃ s', (s.setFlags p fun f => { f with P_STOP := false }).whenRunnable p (fun t => lock_ready t p) = some s' ∧
        Steady c s' r := by
    intro hruns hstopped
    have hblocked : s.view.flagless p = false := by
      have hyes : s.view.P_STOP p = true := hstopped
      simp [View.flagless, hyes]
    exact h.resume _ r (h.busy_of_task hruns) (hlined.setFlags p _) (by rw [view_P_STOP]; exact helse false) hblocked
      (by rw [view_P_STOP]; exact halive) (by rw [view_P_STOP]; exact hstop false) rfl rfl rfl
  cases TR_REQUEST with
  | T_STOP =>
    rw [System.do_trace, if_neg hempty]
    obtain ⟨t,hsleep,hview,hlined',hslept⟩ := goToSleep h.ready (lock_unready_slot c p)
    let s' := (s.withTable t).setFlags p fun f => { f with P_STOP := true }
    have hview' : s'.view = { s.view with P_STOP := Function.update s.view.P_STOP p true } := by
      rw [view_P_STOP, hview]
    refine ⟨s',r,by rw [hsleep]; rfl,Facts.steady ?_ ?_ (hslept.switching h.switching) (hslept.picked h.picked)⟩
    · rw [hview']
      exact hstop true
    · refine @ready_of_erase _ _ _ _ _ s.view p ?_ ?_ ?_
      · exact Lined.setFlags (s := s.withTable t) hlined' p _
      · rw [hview']
        exact helse true
      · rw [hview']
        simp [View.flagless]
  | T_RESUME =>
    rw [System.do_trace, if_neg hempty]
    obtain ⟨hruns,hstopped⟩ := hrequest.resolve_left (by simp)
    obtain ⟨s',hrun,hsteady⟩ := hresume hruns hstopped
    exact ⟨s',r,hrun,hsteady⟩
  | T_STEP =>
    rw [System.do_trace, if_neg hempty]
    obtain ⟨hruns,hstopped⟩ := hrequest.resolve_left (by simp)
    obtain ⟨s',hrun,hsteady⟩ := hresume hruns hstopped
    exact ⟨s',r,hrun,hsteady⟩

theorem Steady.do_endsig (h : Steady c s r) (hlegal : Legal c s (.do_endsig p)) :
    ∃ s' r', s.do_endsig p = some s' ∧ Steady c s' r' := by
  rcases hlegal with hempty | ⟨hruns,huser,hcount⟩
  · exact ⟨s,r,by rw [System.do_endsig, if_pos hempty],h⟩
  have hclass : s.view.priority p = .PPRI_USER := of_decide_eq_true huser
  have halive := h.roles.alive_user (Or.inl hclass)
  have htask : s.view.priority p ≠ .PPRI_TASK := by simp [hclass]
  have hempty : ¬ isemptyp s.table p = true := by
    rw [isemptyp, show (s.table.proc p).p_priority = .PPRI_USER from hclass]
    simp
  have hlined : Lined s.table (s.view.runnable c) := h.ready
  have hsome : (s.rest p).p_pendcount ≠ 0 := Nat.ne_of_gt (Nat.zero_lt_of_lt hcount)
  have hsig : s.view.SIG_PENDING p = true := (h.signals.unfinished p).mpr hsome
  have hleft : (signals (s.view.pending p)).card ≤ s.view.pendcount p - 1 := Nat.le_sub_one_of_lt hcount
  let s₁ := s.setRest p fun r => { r with p_pendcount := r.p_pendcount - 1 }
  have hview₁ : s₁.view = { s.view with pendcount := Function.update s.view.pendcount p (s.view.pendcount p - 1) } := by
    rw [view_setRest]
    apply View.ext
    all_goals first | rfl | exact Function.update_eq_self _ _
  have hnow : (s₁.rest p).p_pendcount = s.view.pendcount p - 1 := by
    show s₁.view.pendcount p = _
    rw [hview₁]
    exact Function.update_self ..
  -- whether the process is still held up depends on what is left
  have hsignals : ∀ b, (b = true ↔ s.view.pendcount p - 1 ≠ 0) → Signals c { s.view with
      pendcount := Function.update s.view.pendcount p (s.view.pendcount p - 1)
      SIG_PENDING := Function.update s.view.SIG_PENDING p b } := by
    intro b hb
    have hset := h.signals.setOne p (h.signals.pending p) hb hleft (h.signals.scanned p)
    simp only [Function.update_eq_self, sub_add_cancel] at hset
    exact hset
  have hrun : s.do_endsig p = if (s₁.rest p).p_pendcount = 0 then
      (s₁.setFlags p fun f => { f with SIG_PENDING := false }).whenRunnable p fun t => lock_ready t p else some s₁ := by
    rw [System.do_endsig, if_neg hempty, if_pos huser, if_pos hsome]
  rw [hrun, hnow]
  by_cases hlast : s.view.pendcount p - 1 = 0
  · rw [if_pos hlast]
    let s₂ := s₁.setFlags p fun f => { f with SIG_PENDING := false }
    have hview₂ : s₂.view = { s.view with
        pendcount := Function.update s.view.pendcount p (s.view.pendcount p - 1)
        SIG_PENDING := Function.update s.view.SIG_PENDING p false } := by
      rw [view_SIG_PENDING, hview₁]
    have hroles := h.roles.setOthers (s.view.NO_MAP p) (s.view.PENDING p) false (s.view.P_STOP p) halive htask
    simp only [Function.update_eq_self] at hroles
    have hfacts : Facts c s₂.view r := by
      rw [hview₂]
      exact ⟨h.mail.frame rfl rfl rfl rfl rfl rfl rfl rfl rfl,{ hroles with },{ h.ints with },h.held,
        hsignals false (by simp [hlast]),h.told⟩
    have hlined₁ : Lined s₁.table (s.view.runnable c) := hlined
    obtain ⟨s',hwake,hsteady⟩ := h.resume (p := p) s₂ _ (h.busy_of_task hruns) (hlined₁.setFlags p _)
      (by rw [hview₂]; exact fun q hq => ⟨by simp only [View.flagless, Function.update_of_ne hq],rfl⟩)
      (by simp [View.flagless, hsig]) (by rw [hview₂]; exact halive) hfacts rfl rfl rfl
    exact ⟨s',r,hwake,hsteady⟩
  · rw [if_neg hlast]
    have hset := hsignals true (by simp [hlast])
    rw [← hsig, Function.update_eq_self] at hset
    refine ⟨s₁,r,rfl,Facts.steady ?_ ?_ h.switching h.picked⟩
    · rw [hview₁]
      exact ⟨h.mail.frame rfl rfl rfl rfl rfl rfl rfl rfl rfl,{ h.roles with },{ h.ints with },h.held,hset,h.told⟩
    · rw [Ready, hview₁]
      exact hlined

end SOI.Scheduling

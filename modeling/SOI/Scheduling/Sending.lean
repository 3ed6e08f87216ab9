import SOI.Scheduling.KernelInvariant

/-! # Sending a message

`mini_send` either hands the message over to a receiver that waits for it or
blocks the caller behind the others. In both cases the invariant of the kernel is
kept, and it is known what becomes of the choice of who runs.
-/
namespace SOI.Scheduling
open Linked Parents Rendezvous
variable {ρ : Type} [DecidableEq ρ] [Fintype ρ] {c : Config ρ} {s s₁ s' : System ρ} {t t' t₁ : Table ρ} {r : Mailbox ρ}
  {v v' : View ρ} {a d rp : ρ} {m_ptr : ℕ} {slots : Slots ρ}

/-- What holds of the kernel while it passes messages. -/
structure Core (c : Config ρ) (s : System ρ) (r : Mailbox ρ) : Prop where
  ready : Ready c s
  mail : Mail c s.view r
  roles : Roles c s.view
  ints : Ints s.view
  held : Held s.view

/-- What holds of the kernel whenever it is not about to tell MM of a signal. -/
structure Inv (c : Config ρ) (s : System ρ) (r : Mailbox ρ) : Prop extends Core c s r where
  signals : Signals c s.view

omit [DecidableEq ρ] [Fintype ρ] in
structure Woken (slots : Slots ρ) (rp : ρ) (t t' : Table ρ) : Prop where
  switching : t.switching = false → t'.switching = false
  picked : istaskp t rp ∨ Busy t → Picked slots t → Picked slots t'
  busy : Busy t → Busy t'
  heads : ∀ q, q ≠ queueOf t rp → t'.rdy_head q = t.rdy_head q

omit [DecidableEq ρ] [Fintype ρ] in
structure Slept (slots : Slots ρ) (rp : ρ) (t t' : Table ρ) : Prop where
  switching : t.switching = false → t'.switching = false
  picked : Picked slots t → Picked slots t'
  anew : (t.proc rp).p_flags = {} → ¬ istaskp t rp → t.rdy_head (queueOf t rp) = some rp → Picked slots t'
  heads : ∀ q, q ≠ queueOf t rp → t'.rdy_head q = t.rdy_head q

omit [DecidableEq ρ] [Fintype ρ] in
theorem Readied.woken (h : Readied slots rp t₁ t') (hheads : t₁.rdy_head = t.rdy_head) (hproc : t₁.proc_ptr = t.proc_ptr)
    (hswitch : t₁.switching = t.switching) (hclass : (t₁.proc rp).p_priority = (t.proc rp).p_priority) :
    Woken slots rp t t' where
  switching hfalse := h.switching (hswitch.trans hfalse)
  picked hbusy hpicked := by
    refine h.picked ?_ (hpicked.congr hheads hproc)
    rw [istaskp, hclass, Busy, hheads]
    exact hbusy
  busy hbusy := by
    refine h.busy ?_
    rw [Busy, hheads]
    exact hbusy
  heads q hq := by
    rw [h.heads q (by rwa [queueOf_congr hclass]), hheads]

theorem wakeUp {f : Table ρ → Option (Table ρ)} (hlined : Lined s₁.table (s.view.runnable c))
    (helse : Elsewhere rp s.view s₁.view) (hblocked : s.view.flagless rp = false) (halive : s₁.view.alive c rp)
    (hf : ∀ t S, Lined t S → rp ∉ S → ∃ t', f t = some t' ∧ Lined t' (insert rp S) ∧ Readied c.slots rp t t') :
    ∃ t, s₁.whenRunnable rp f = some (s₁.withTable t) ∧ (s₁.withTable t).view = s₁.view ∧ Ready c (s₁.withTable t) ∧
      Readied c.slots rp s₁.table t := by
  have hnot : rp ∉ s.view.runnable c := by
    rw [mem_runnable, hblocked]
    simp
  exact wake hlined hnot hf (runnable_insert helse halive hnot)

theorem goToSleep {f : Table ρ → Option (Table ρ)} (h : Ready c s)
    (hf : ∀ t S, Lined t S → ∃ t', f t = some t' ∧ Lined t' (S.erase rp) ∧ Unreadied c.slots rp t t') :
    ∃ t, s.whenRunnable rp f = some (s.withTable t) ∧ (s.withTable t).view = s.view ∧
      Lined t ((s.view.runnable c).erase rp) ∧ Slept c.slots rp s.table t := by
  obtain ⟨t,hsleep,hview,hlined,⟨hflag,hun⟩ | ⟨hflag,rfl⟩⟩ := sleep h hf
  · exact ⟨t,hsleep,hview,hlined,hun.switching,hun.picked,fun _ => hun.anew,hun.heads⟩
  · exact ⟨_,hsleep,hview,hlined,id,id,fun hno => absurd hno hflag,fun _ _ => rfl⟩

theorem ready_of_erase (hlined : Lined s₁.table ((v.runnable c).erase rp)) (helse : Elsewhere rp v s₁.view)
    (hflag : s₁.view.flagless rp = false) : Ready c s₁ := by
  rw [Ready, runnable_erase helse hflag]
  exact hlined

omit [DecidableEq ρ] [Fintype ρ] in
theorem flagless_of_RECEIVING (h : v.RECEIVING rp = true) : v.flagless rp = false := by
  simp [View.flagless, h]

omit [DecidableEq ρ] [Fintype ρ] in
theorem flagless_of_SENDING (h : v.SENDING rp = true) : v.flagless rp = false := by
  simp [View.flagless, h]

theorem unready_slot (c : Config ρ) (rp : ρ) (t : Table ρ) (S : Finset ρ) (h : Lined t S) :
    ∃ t', unready c.slots c.fuel t rp = some t' ∧ Lined t' (S.erase rp) ∧ Unreadied c.slots rp t t' :=
  unready_spec c.slots h (card_le_fuel c) rp

theorem lock_unready_slot (c : Config ρ) (rp : ρ) (t : Table ρ) (S : Finset ρ) (h : Lined t S) :
    ∃ t', lock_unready c.slots c.fuel t rp = some t' ∧ Lined t' (S.erase rp) ∧ Unreadied c.slots rp t t' :=
  lock_unready_spec c.slots h (card_le_fuel c) rp

omit [Fintype ρ] in
theorem priority_setFlags (s : System ρ) (rp p : ρ) (f : Flags → Flags) :
    ((s.setFlags rp f).table.proc p).p_priority = (s.table.proc p).p_priority :=
  kept_setProc (f := fun q => { q with p_flags := f q.p_flags }) Proc.p_priority rfl

omit [Fintype ρ] in
theorem awaits_eq_true : s.awaits c d a = true ↔
    s.view.RECEIVING d = true ∧ s.view.SENDING d = false ∧ c.accepts (s.view.getfrom d) a := by
  rw [System.awaits, Bool.and_eq_true, Bool.and_eq_true, decide_eq_true_eq, Bool.not_eq_true', and_assoc]
  rfl

theorem deliver_spec (h : Core c s r) (hawaits : s.awaits c d a = true) (m_ptr : ℕ) :
    ∃ s', System.deliver c { s with log := s.log ++ [.accepted a d (s.letter c a m_ptr)] } a d m_ptr = some s' ∧
      Core c s' { r with receiving := Function.update r.receiving d none } ∧
      s'.view = { s.view with
        memory := Function.update s.view.memory d
          (Function.update (s.view.memory d) (s.view.messbuf d) (s.letter c a m_ptr))
        RECEIVING := Function.update s.view.RECEIVING d false
        log := s.view.log ++ [.accepted a d (s.letter c a m_ptr),.delivered a d (s.letter c a m_ptr)] } ∧
      Woken c.slots d s.table s'.table := by
  obtain ⟨hR,hS,haccepts⟩ := awaits_eq_true.mp hawaits
  let s₀ : System ρ := { s with log := s.log ++ [.accepted a d (s.letter c a m_ptr)] }
  let s₁ := (s₀.CopyMess c a m_ptr d (s.post d).p_messbuf).setFlags d fun f => { f with RECEIVING := false }
  have hview : s₁.view = { s.view with
      memory := Function.update s.view.memory d
        (Function.update (s.view.memory d) (s.view.messbuf d) (s.letter c a m_ptr))
      RECEIVING := Function.update s.view.RECEIVING d false
      log := s.view.log ++ [.accepted a d (s.letter c a m_ptr),.delivered a d (s.letter c a m_ptr)] } := by
    rw [view_RECEIVING]
    apply View.ext
    case log => exact List.append_assoc ..
    all_goals rfl
  have halive := h.roles.alive_blocked (Or.inr hR)
  have hlined : Lined (s₀.CopyMess c a m_ptr d (s.post d).p_messbuf).table (s.view.runnable c) := h.ready
  have helse : Elsewhere d s.view s₁.view := by
    rw [hview]
    exact fun p hp => ⟨by simp only [View.flagless, Function.update_of_ne hp],rfl⟩
  have halive' : s₁.view.alive c d := by
    rw [hview]
    exact halive
  obtain ⟨t,hwake,hview',hready,hreadied⟩ := wakeUp (f := fun t => ready t d) (hlined.setFlags d _) helse
    (flagless_of_RECEIVING hR) halive' fun t S hl hn => ready_spec c.slots hl hn
  rw [hview] at hview'
  refine ⟨s₁.withTable t,hwake,⟨hready,?_,?_,?_,?_⟩,hview',hreadied.woken rfl rfl rfl ?_⟩
  · rw [hview']
    exact h.mail.direct hR hS haccepts _ _
  · rw [hview']
    exact { h.roles.setReceiving false halive with }
  · rw [hview']
    exact { h.ints.wake d with }
  · rw [hview']
    exact h.held
  · exact priority_setFlags ..

theorem block_spec (h : Core c s r) (halive : s.view.alive c a) (hS : s.view.SENDING a = false)
    (hR : s.view.RECEIVING a = false) (hd : s.view.priority d ≠ .PPRI_NONE)
    (hopen : ∀ n, climb r.sendingTo n d ≠ some a) (hbusy : s.awaits c d a = false) (m_ptr : ℕ) :
    ∃ s' r' callerq sendlink,
      System.block c { s with log := s.log ++ [.accepted a d (s.letter c a m_ptr)] } a d m_ptr = some s' ∧
      Core c s' r' ∧
      s'.view = { s.view with
        messbuf := Function.update s.view.messbuf a m_ptr
        SENDING := Function.update s.view.SENDING a true
        sendto := Function.update s.view.sendto a d
        callerq := callerq
        sendlink := sendlink
        log := s.view.log ++ [.accepted a d (s.letter c a m_ptr)] } ∧
      Slept c.slots a s.table s'.table := by
  let s₁ : System ρ := ({ s with log := s.log ++ [.accepted a d (s.letter c a m_ptr)] } : System ρ).setPost a
    fun p => { p with p_messbuf := m_ptr }
  have hview₁ : s₁.view = { s.view with
      messbuf := Function.update s.view.messbuf a m_ptr
      log := s.view.log ++ [.accepted a d (s.letter c a m_ptr)] } := by
    rw [view_messbuf]
    rfl
  have hready₁ : Ready c s₁ := h.ready
  obtain ⟨t,hsleep,hview,hlined,hslept⟩ := goToSleep hready₁ (unready_slot c a)
  rw [hview₁] at hview
  let s₂ := (s₁.withTable t).setFlags a fun f => { f with SENDING := true }
  let s₃ := s₂.setPost a fun p => { p with p_sendto := d }
  have hview₃ : s₃.view = { s.view with
      messbuf := Function.update s.view.messbuf a m_ptr
      SENDING := Function.update s.view.SENDING a true
      sendto := Function.update s.view.sendto a d
      log := s.view.log ++ [.accepted a d (s.letter c a m_ptr)] } := by
    rw [view_sendto, view_SENDING, hview]
  have hqueue : Family s₃.view.sendlink s₃.view.callerq (names r) := by
    rw [hview₃]
    exact h.mail.queue
  obtain ⟨s',callerq,sendlink,hjoin,hkernel,hview',hfamily⟩ := joinQueue_spec hqueue (c := c) (d := d) (h.mail.not_mem_names hS)
  have htable : s'.table = s₂.table := congrArg Kernel.table hkernel
  rw [hview₃] at hview'
  refine ⟨s',{ r with
      sendingTo := Function.update r.sendingTo a (some d)
      mail := Function.update r.mail d (r.mail d ++ [(a,s.view.letter c a m_ptr)]) },
    callerq,sendlink,?_,⟨?_,?_,?_,?_,?_⟩,hview',?_⟩
  · rw [System.block]
    dsimp only
    rw [hsleep]
    exact hjoin
  · refine @ready_of_erase _ _ _ _ _ s.view a ?_ ?_ ?_
    · rw [htable]
      exact Lined.setFlags (s := s₁.withTable t) hlined a _
    · rw [hview']
      exact fun p hp => ⟨by simp only [View.flagless, Function.update_of_ne hp],rfl⟩
    · rw [hview']
      exact flagless_of_SENDING (Function.update_self ..)
  · rw [hview']
    refine h.mail.post hS hR hopen (fun hrec hsend haccepts => ?_) m_ptr hfamily
    rw [awaits_eq_true.mpr ⟨hrec,hsend,haccepts⟩] at hbusy
    cases hbusy
  · rw [hview']
    exact { h.roles.startSending halive hd with }
  · rw [hview']
    exact { h.ints.startSending hR with }
  · rw [hview']
    exact h.held
  · rw [htable]
    exact ⟨hslept.switching,hslept.picked,hslept.anew,hslept.heads⟩

omit [Fintype ρ] in
/-- The search along the senders comes to an end and finds the caller if it is there. -/
theorem locked_spec {x : ρ} {fuel : ℕ} (h : Mail c s.view r) (hends : ∃ n < fuel, climb r.sendingTo n x = none) :
    ∃ b, s.locked a fuel x = some b ∧ (b = true ↔ ∃ n, climb r.sendingTo n x = some a) := by
  induction fuel generalizing x with
  | zero =>
    obtain ⟨n,hn,-⟩ := hends
    omega
  | succ fuel ih =>
    rw [System.locked]
    by_cases hx : x = a
    · exact ⟨true,by rw [if_pos hx],iff_of_true rfl ⟨0,by rw [hx, climb]⟩⟩
    rw [if_neg hx]
    cases hS : (s.flags x).SENDING with
    | true =>
      have hnext : r.sendingTo x = some (s.view.sendto x) := h.sendingTo_eq_some.mpr ⟨hS,rfl⟩
      have hends' : ∃ n < fuel, climb r.sendingTo n (s.view.sendto x) = none := by
        obtain ⟨n,hn,hnone⟩ := hends
        cases n with
        | zero => cases hnone
        | succ n =>
          rw [climb, hnext] at hnone
          exact ⟨n,by omega,hnone⟩
      obtain ⟨b,hb,hiff⟩ := ih hends'
      refine ⟨b,by rw [if_pos rfl]; exact hb,hiff.trans ⟨?_,?_⟩⟩
      · rintro ⟨n,hn⟩
        exact ⟨n + 1,by rw [climb, hnext]; exact hn⟩
      · rintro ⟨n,hn⟩
        cases n with
        | zero => exact absurd (Option.some_injective _ hn) hx
        | succ n =>
          rw [climb, hnext] at hn
          exact ⟨n,hn⟩
    | false =>
      have hnext : r.sendingTo x = none := h.sendingTo_eq_none.mpr hS
      refine ⟨false,by rw [if_neg (by simp)],iff_of_false (by simp) ?_⟩
      rintro ⟨n,hn⟩
      cases n with
      | zero => exact hx (Option.some_injective _ hn)
      | succ n =>
        rw [climb, hnext] at hn
        cases hn

/-- The whole check, for a caller that does not send to itself. -/
theorem deadlock_spec (h : Mail c s.view r) (hne : d ≠ a) :
    ∃ b, (if (s.flags d).SENDING then s.locked a c.fuel (s.post d).p_sendto else some false) = some b ∧
      (b = true ↔ ∃ n, climb r.sendingTo n d = some a) := by
  have hends : ∃ n < c.fuel + 1, climb r.sendingTo n d = none :=
    ⟨Fintype.card ρ,Nat.lt_succ_of_le (card_le_fuel c),climb_card_eq_none h.sound.ends d⟩
  obtain ⟨b,hb,hiff⟩ := locked_spec (a := a) h hends
  rw [System.locked, if_neg hne] at hb
  exact ⟨b,hb,hiff⟩

omit [Fintype ρ] in
theorem mini_send_direct {dest : Source ρ} (hdest : c.proc_addr dest = some d)
    (hperm : (isuserp s.table a && !c.issysentn dest) = false) (hempty : isemptyp s.table d = false)
    (hmap : c.outside (s.post a).p_map m_ptr = false) (hawaits : s.awaits c d a = true) :
    mini_send c s a dest m_ptr =
      (System.deliver c { s with log := s.log ++ [.accepted a d (s.letter c a m_ptr)] } a d m_ptr).map fun s => (.OK,s) := by
  have hfree : (s.flags d).SENDING = false := (awaits_eq_true.mp hawaits).2.1
  have hawaits' : System.awaits c { s with log := s.log ++ [.accepted a d (s.letter c a m_ptr)] } d a = true := hawaits
  rw [mini_send, hperm, hdest, Option.bind_some, hempty, hmap, hfree]
  simp only [Bool.false_eq_true, if_false, Option.bind_some, hawaits', if_true]

/-- What `mini_send` makes of a caller that is not blocked and sends to another process. -/
theorem mini_send_cases (h : Mail c s.view r) {dest : Source ρ} (hdest : c.proc_addr dest = some d) (hne : d ≠ a) :
    (∃ e, e ≠ .OK ∧ mini_send c s a dest m_ptr = some (e,s)) ∨
      s.view.priority d ≠ .PPRI_NONE ∧ (∀ n, climb r.sendingTo n d ≠ some a) ∧
        mini_send c s a dest m_ptr =
          ((if s.awaits c d a then
              System.deliver c { s with log := s.log ++ [.accepted a d (s.letter c a m_ptr)] } a d m_ptr
            else System.block c { s with log := s.log ++ [.accepted a d (s.letter c a m_ptr)] } a d m_ptr).map
          fun s => (.OK,s)) := by
  obtain ⟨b,hlocked,hiff⟩ := deadlock_spec (a := a) h hne
  rw [mini_send, hdest]
  by_cases hperm : (isuserp s.table a && !c.issysentn dest) = true
  · exact Or.inl ⟨.E_BAD_DEST,by simp,by rw [if_pos hperm]⟩
  rw [if_neg hperm, Option.bind_some]
  by_cases hempty : isemptyp s.table d = true
  · exact Or.inl ⟨.E_BAD_DEST,by simp,by rw [if_pos hempty]⟩
  rw [if_neg hempty]
  by_cases hfault : c.outside (s.post a).p_map m_ptr = true
  · exact Or.inl ⟨.EFAULT,by simp,by rw [if_pos hfault]⟩
  rw [if_neg hfault, hlocked, Option.bind_some]
  cases b with
  | true => exact Or.inl ⟨.ELOCKED,by simp,by rw [if_pos rfl]⟩
  | false =>
    refine Or.inr ⟨?_,fun n hn => ?_,rfl⟩
    · rw [isemptyp, decide_eq_true_eq] at hempty
      exact hempty
    · cases hiff.mpr ⟨n,hn⟩

end SOI.Scheduling

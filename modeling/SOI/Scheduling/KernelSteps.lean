import SOI.Scheduling.Receiving

/-! # Entries to the kernel

Every entry of the kernel is carried out and keeps what holds between the entries:
a system call of the running process, an interrupt, and what the system task does
with the process table.
-/
namespace SOI.Scheduling
open Linked Parents Rendezvous
variable {ρ : Type} [DecidableEq ρ] [Fintype ρ] {c : Config ρ} {s s₁ s' : System ρ} {t t' t₁ : Table ρ} {r r' : Mailbox ρ}
  {v v' : View ρ} {a d p rp : ρ} {m_ptr : ℕ} {src : Source ρ}

/-- What holds of the kernel between its entries. -/
structure Steady (c : Config ρ) (s : System ρ) (r : Mailbox ρ) : Prop extends Inv c s r where
  told : Told c s.view
  switching : s.table.switching = false
  picked : Picked c.slots s.table

omit [Fintype ρ] in
theorem Told.of (h : Told c v) (hR : v'.RECEIVING c.MM_PROC_NR = true → v.RECEIVING c.MM_PROC_NR = true)
    (hfrom : v'.getfrom = v.getfrom) (hP : v'.PENDING = v.PENDING) : Told c v' := by
  intro hmm hany p
  rw [hP]
  rw [hfrom] at hany
  exact h (hR hmm) hany p

omit [Fintype ρ] in
theorem accepts_proc {x : ρ} (h : c.accepts (.proc d) x) : x = d := by
  rcases h with h | h
  · cases h
  · rw [Config.proc_number] at h
    split at h
    · cases h
    · exact (Source.proc.inj h).symm

theorem Steady.running (h : Steady c s r) (hne : s.table.proc_ptr ≠ c.slots.IDLE) :
    s.table.rdy_head (queueOf s.table s.table.proc_ptr) = some s.table.proc_ptr ∧
      s.view.flagless s.table.proc_ptr = true ∧ s.view.alive c s.table.proc_ptr := by
  obtain ⟨q,hq⟩ := h.picked.cases.resolve_right hne
  obtain ⟨hqueue,hmem⟩ := Lined.mem_of_head h.ready hq
  rw [hqueue]
  exact ⟨hq,mem_runnable.mp hmem⟩

theorem Steady.busy (h : Steady c s r) (hne : s.table.proc_ptr ≠ c.slots.IDLE)
    (huser : isuserp s.table s.table.proc_ptr = false) : Busy s.table := by
  obtain ⟨hhead,-,halive⟩ := h.running hne
  have hnotuser : s.view.priority s.table.proc_ptr ≠ .PPRI_USER := by
    rw [isuserp, decide_eq_false_iff_not] at huser
    exact huser
  cases hclass : s.view.priority s.table.proc_ptr with
  | PPRI_NONE => exact absurd hclass halive.1
  | PPRI_USER => exact absurd hclass hnotuser
  | PPRI_TASK =>
    have htask : istaskp s.table s.table.proc_ptr = true := decide_eq_true hclass
    rw [queueOf, if_pos htask] at hhead
    exact Or.inl (by simp [hhead])
  | PPRI_SERVER =>
    have htask : istaskp s.table s.table.proc_ptr = false := by
      rw [istaskp, show (s.table.proc s.table.proc_ptr).p_priority = .PPRI_SERVER from hclass]
      rfl
    have hserv : isservp s.table s.table.proc_ptr = true := decide_eq_true hclass
    rw [queueOf, htask, if_neg (by simp), if_pos hserv] at hhead
    exact Or.inr (by simp [hhead])
  | PPRI_IDLE =>
    by_cases hserver : s.table.proc_ptr ∈ c.servers
    · exact absurd hclass (h.roles.servers _ hserver).2
    · have htask := h.roles.tasks _ hserver hne
      rw [hclass] at htask
      cases htask

/-- The message was handed over and the caller goes on to receive, or not. -/
theorem Steady.after_deliver (h : Steady c s r) (hflag : s.view.flagless a = true)
    (hawaits : s.awaits c d a = true) (m_ptr : ℕ) :
    ∃ s₁ r₁, System.deliver c { s with log := s.log ++ [.accepted a d (s.letter c a m_ptr)] } a d m_ptr = some s₁ ∧
      Inv c s₁ r₁ ∧ Told c s₁.view ∧ s₁.table.switching = false ∧
      (Busy s.table → Picked c.slots s₁.table) ∧ (Busy s.table → Busy s₁.table) ∧
      (∀ q, q ≠ queueOf s.table d → s₁.table.rdy_head q = s.table.rdy_head q) ∧
      s₁.view.flagless a = true ∧ s₁.view.priority = s.view.priority ∧ names r₁ a = names r a := by
  obtain ⟨hR,hS,-⟩ := awaits_eq_true.mp hawaits
  obtain ⟨s₁,hdeliver,hcore,hview,hwoken⟩ := deliver_spec h.toCore hawaits m_ptr
  have hne : a ≠ d := by
    rintro rfl
    rw [flagless_iff] at hflag
    rw [hflag.2.2.1] at hR
    cases hR
  refine ⟨s₁,_,hdeliver,⟨hcore,?_⟩,h.told.of (fun hmm => ?_) ?_ ?_,hwoken.switching h.switching,
    fun hbusy => hwoken.picked (Or.inr hbusy) h.picked,hwoken.busy,hwoken.heads,?_,?_,rfl⟩
  · rw [hview]
    exact { h.signals with }
  · rw [hview] at hmm
    dsimp only at hmm
    by_cases hd : c.MM_PROC_NR = d
    · rw [hd, Function.update_self] at hmm
      cases hmm
    · rwa [Function.update_of_ne hd] at hmm
  · rw [hview]
  · rw [hview]
  · rw [hview]
    rw [← hflag]
    simp only [View.flagless, Function.update_of_ne hne]
  · rw [hview]

theorem Steady.after_block (h : Steady c s r) (halive : s.view.alive c a) (hflag : s.view.flagless a = true)
    (hd : s.view.priority d ≠ .PPRI_NONE) (hopen : ∀ n, climb r.sendingTo n d ≠ some a)
    (hbusy : s.awaits c d a = false) (m_ptr : ℕ) :
    ∃ s₁ r₁, System.block c { s with log := s.log ++ [.accepted a d (s.letter c a m_ptr)] } a d m_ptr = some s₁ ∧
      Steady c s₁ r₁ ∧ s₁.view.SENDING a = true ∧ s₁.view.RECEIVING a = false ∧ s₁.view.messbuf a = m_ptr ∧
      s₁.view.sendto a = d ∧ s₁.view.alive c a := by
  obtain ⟨-,hS,hR,-⟩ := (flagless_iff _ _).mp hflag
  obtain ⟨s₁,r₁,callerq,sendlink,hblock,hcore,hview,hslept⟩ := block_spec h.toCore halive hS hR hd hopen hbusy m_ptr
  refine ⟨s₁,r₁,hblock,⟨⟨hcore,?_⟩,h.told.of ?_ ?_ ?_,hslept.switching h.switching,hslept.picked h.picked⟩,?_,?_,?_,?_,?_⟩
  · rw [hview]
    exact { h.signals with }
  · rw [hview]
    exact id
  · rw [hview]
  · rw [hview]
  · rw [hview]
    exact Function.update_self ..
  · rw [hview]
    exact hR
  · rw [hview]
    exact Function.update_self ..
  · rw [hview]
    exact Function.update_self ..
  · rw [hview]
    exact halive

theorem Steady.destination (h : Steady c s r) {function : FunctionCode} {dest : Source ρ}
    (hlegal : Legal c s (.sys_call function (some dest) m_ptr)) (hreceive : function ≠ .RECEIVE)
    (hperm : (isuserp s.table s.table.proc_ptr && !c.issysentn dest) = false) :
    ∃ d, dest = .proc d ∧ d ≠ c.slots.HARDWARE ∧ d ≠ s.table.proc_ptr ∧
      (isuserp s.table s.table.proc_ptr = true → s.view.priority d = .PPRI_SERVER) := by
  obtain ⟨-,hwho⟩ := hlegal
  cases huser : isuserp s.table s.table.proc_ptr with
  | true =>
    have hclass : s.view.priority s.table.proc_ptr = .PPRI_USER := of_decide_eq_true huser
    rw [huser, Bool.true_and, Bool.not_eq_false', Config.issysentn, Bool.or_eq_true, decide_eq_true_eq,
      decide_eq_true_eq] at hperm
    have hserver : ∀ d, s.view.priority d = .PPRI_SERVER → d ≠ c.slots.HARDWARE ∧ d ≠ s.table.proc_ptr := by
      intro d hd
      constructor
      · rintro rfl
        rw [h.roles.hardware_task] at hd
        cases hd
      · rintro rfl
        rw [hclass] at hd
        cases hd
    rcases hperm with rfl | rfl
    · exact ⟨_,rfl,(hserver _ h.roles.fs).1,(hserver _ h.roles.fs).2,fun _ => h.roles.fs⟩
    · exact ⟨_,rfl,(hserver _ h.roles.mm).1,(hserver _ h.roles.mm).2,fun _ => h.roles.mm⟩
  | false =>
    rw [huser] at hwho
    obtain ⟨hany,hhardware,hproc,hself⟩ := (hwho.resolve_left (by simp)).resolve_left hreceive
    cases dest with
    | ANY => exact absurd rfl hany
    | HARDWARE => exact absurd rfl hhardware
    | proc d =>
      refine ⟨d,rfl,?_,?_,fun hno => Bool.noConfusion hno⟩
      · rintro rfl
        exact hproc rfl
      · rintro rfl
        exact hself rfl

theorem Steady.sys_call (h : Steady c s r) {function : FunctionCode} {src_dest : Option (Source ρ)}
    (hlegal : Legal c s (.sys_call function src_dest m_ptr)) :
    ∃ res s' r', sys_call c s function src_dest m_ptr = some (res,s') ∧ Steady c s' r' := by
  cases src_dest with
  | none => exact ⟨.E_BAD_SRC,s,r,rfl,h⟩
  | some dest =>
  rw [Scheduling.sys_call]
  obtain ⟨hhead,hflag,halive⟩ := h.running hlegal.1
  obtain ⟨-,hS,hR,-⟩ := (flagless_iff _ _).mp hflag
  have hnosend : s.view.SENDING s.table.proc_ptr = true → False := fun hyes => Bool.noConfusion (hS.symm.trans hyes)
  by_cases huseronly : (isuserp s.table s.table.proc_ptr && function ≠ .BOTH) = true
  · exact ⟨_,s,r,if_pos huseronly,h⟩
  rw [if_neg huseronly]
  by_cases hreceive : function = .RECEIVE
  · rw [if_pos hreceive]
    have huser : isuserp s.table s.table.proc_ptr = false := by simpa [hreceive] using huseronly
    obtain ⟨s',r',hrec,hinv,htold,hsw,hpick,-⟩ := mini_rec_spec dest m_ptr h.toInv h.told halive hR
      fun hyes => (hnosend hyes).elim
    exact ⟨_,s',r',by rw [hrec]; rfl,hinv,htold,hsw h.switching,hpick (fun _ => h.busy hlegal.1 huser) h.picked⟩
  rw [if_neg hreceive]
  by_cases hperm : (isuserp s.table s.table.proc_ptr && !c.issysentn dest) = true
  · have hbad : mini_send c s s.table.proc_ptr dest m_ptr = some (.E_BAD_DEST,s) := by rw [mini_send, if_pos hperm]
    exact ⟨_,s,r,by rw [hbad, Option.bind_some, if_pos (Or.inr (by simp))],h⟩
  obtain ⟨d,rfl,hhw,hne,hserver⟩ := h.destination hlegal hreceive (by simpa using hperm)
  rcases mini_send_cases h.mail (show c.proc_addr (.proc d) = some d from rfl) hne with
    ⟨e,he,hsend⟩ | ⟨hd,hopen,hsend⟩
  · exact ⟨e,s,r,by rw [hsend, Option.bind_some, if_pos (Or.inr he)],h⟩
  by_cases hawaits : s.awaits c d s.table.proc_ptr = true
  · -- the receiver runs again; what the caller receives next is no message of the receiver
    rw [if_pos hawaits] at hsend
    obtain ⟨s₁,r₁,hdeliver,hinv,htold,hsw,hpick,hbusy,hheads,hflag₁,hclass,hnames⟩ := h.after_deliver hflag hawaits m_ptr
    rw [hdeliver] at hsend
    have hclass₁ : (s₁.table.proc s.table.proc_ptr).p_priority = (s.table.proc s.table.proc_ptr).p_priority :=
      congrFun hclass _
    have halive₁ : s₁.view.alive c s.table.proc_ptr := by rw [View.alive, hclass]; exact halive
    rw [hsend, Option.map_some, Option.bind_some]
    by_cases hfunction : function = .SEND
    · have huser : isuserp s.table s.table.proc_ptr = false := by simpa [hfunction] using huseronly
      exact ⟨.OK,s₁,r₁,if_pos (Or.inl hfunction),hinv,htold,hsw,hpick (h.busy hlegal.1 huser)⟩
    · obtain ⟨-,hS₁,hR₁,-⟩ := (flagless_iff _ _).mp hflag₁
      obtain ⟨s',r',hrec,hinv',htold',hsw',hpick',hanew⟩ := mini_rec_spec (.proc d) m_ptr hinv htold halive₁
        hR₁ fun hyes => Bool.noConfusion (hS₁.symm.trans hyes)
      refine ⟨.OK,s',r',?_,hinv',htold',hsw' hsw,?_⟩
      · rw [if_neg (by simp [hfunction]), hrec]
        rfl
      · cases huser : isuserp s.table s.table.proc_ptr with
        | false =>
          have hb := h.busy hlegal.1 huser
          exact hpick' (fun _ => hbusy hb) (hpick hb)
        | true =>
          have huser' : s.view.priority s.table.proc_ptr = .PPRI_USER := of_decide_eq_true huser
          have hqueue : queueOf s.table s.table.proc_ptr = .USER_Q := by
            rw [queueOf, istaskp, isservp, show (s.table.proc s.table.proc_ptr).p_priority = .PPRI_USER from huser']
            rfl
          have hqueued : queueOf s.table d = .SERVER_Q := by
            rw [queueOf, istaskp, isservp, show (s.table.proc d).p_priority = .PPRI_SERVER from hserver huser]
            rfl
          refine hanew ?_ ((flags_eq_iff _ _).mpr hflag₁) ?_ ?_ rfl ?_
          · intro hmm
            rw [hmm, h.roles.mm] at huser'
            cases huser'
          · rw [istaskp, hclass₁, show (s.table.proc s.table.proc_ptr).p_priority = .PPRI_USER from huser']
            simp
          · rw [queueOf_congr hclass₁, hheads _ (by rw [hqueue, hqueued]; simp)]
            exact hhead
          · intro p hp haccepts
            obtain rfl := accepts_proc haccepts
            rw [hnames] at hp
            have hfree := (awaits_eq_true.mp hawaits).2.1
            rw [(h.mail.mem_names.mp hp).1] at hfree
            cases hfree
  · -- the caller is blocked twice over
    rw [if_neg hawaits] at hsend
    obtain ⟨s₁,r₁,hblock,hsteady,hS₁,hR₁,hbuf,hto,halive₁⟩ := h.after_block halive hflag hd hopen (by simpa using hawaits) m_ptr
    rw [hblock] at hsend
    rw [hsend, Option.map_some, Option.bind_some]
    by_cases hfunction : function = .SEND
    · exact ⟨.OK,s₁,r₁,if_pos (Or.inl hfunction),hsteady⟩
    · obtain ⟨s',r',hrec,hinv',htold',hsw',hpick',-⟩ := mini_rec_spec (.proc d) m_ptr hsteady.toInv
        hsteady.told halive₁ hR₁ fun _ => ⟨hbuf,rfl,fun x hx => by rw [hto]; exact accepts_proc hx⟩
      refine ⟨.OK,s',r',?_,hinv',htold',hsw' hsteady.switching,hpick' (fun hno => ?_) hsteady.picked⟩
      · rw [if_neg (by simp [hfunction]), hrec]
        rfl
      · exact Bool.noConfusion (hS₁.symm.trans hno)

end SOI.Scheduling

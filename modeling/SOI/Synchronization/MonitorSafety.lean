import SOI.Synchronization.MonitorBuffer

/-! # Safety of the monitor buffer

`wait` is guarded by an `if`, so a woken thread relies on what its signaller
tested. The signaller hands its unit of the monitor to the condition semaphore:
until the woken thread takes it, nobody is active and the buffer stays as tested.
-/
namespace SOI.MonitorBuffer
open Synchronization Runs Tally
variable {τ : Type} [Fintype τ] {role : τ → Role}

def units (m : State τ) : ℕ :=
  m.s + (m.w .A + m.w .B + m.w .C) + tally (fun _ => PC.active) m.pc

/-- What an active thread knows of the buffer. -/
def At (r : Role) (values : List Char) (front : Option Char) : PC → Prop
  | .test todo => Guard.PartWay values.length (can r.procedure.own) todo
  | .countWaiter => (can r.procedure.own).passes values.length = false
  | .push => (can r.procedure.own).passes values.length = true ∧ r ≠ .get
  | .front => 0 < values.length ∧ r = .get
  | .erase => 0 < values.length ∧ r = .get ∧ front = values.head?
  | .testSignal c todo _ => Guard.PartWay values.length (can c) todo
  | .testCount c _ | .uncount c _ | .post c _ => (can c).passes values.length = true
  | _ => True

structure Inv (role : τ → Role) (m : State τ) : Prop where
  units_eq : units m = 1
  token : ∀ c, 0 < m.w c → (can c).passes m.values.length = true
  at_pc : ∀ t, At (role t) m.values (m.front t) (m.pc t)
  fifo : m.pushed = m.removed ++ m.values

/-- One thread is active, what a guard has let through meets it, and the values leave in the
order in which they came. -/
structure Safe (role : τ → Role) (m : State τ) : Prop where
  one_active : m.s + (m.w .A + m.w .B + m.w .C) + tally (fun _ => PC.active) m.pc = 1
  putA_room : ∀ t, role t = .putA → m.pc t = .push → m.values.length < 5
  putB_room : ∀ t, role t = .putB → m.pc t = .push →
    3 < m.values.length ∧ m.values.length < BUFFER_SIZE
  get_nonempty : ∀ t, m.pc t = .front ∨ m.pc t = .erase → m.values ≠ []
  fifo : m.removed <+: m.pushed

omit [Fintype τ] in
theorem at_of_inactive {r : Role} {values : List Char} {front : Option Char} {pc : PC}
    (h : pc.active = false) : At r values front pc := by
  cases pc <;> simp_all [PC.active, At]

omit [Fintype τ] in
theorem at_after (r : Role) (values : List Char) (front : Option Char) (cs : List Cond) :
    At r values front (after cs) := by
  cases cs with
  | nil => trivial
  | cons c rest => exact Guard.PartWay.start _ _

omit [Fintype τ] in
theorem at_action {r : Role} {values : List Char} (front : Option Char)
    (h : (can r.procedure.own).passes values.length = true) :
    At r values front r.procedure.action := by
  cases r with
  | putA => exact ⟨h,by decide⟩
  | putB => exact ⟨h,by decide⟩
  | get => exact ⟨(passes_canCons _).mp h,rfl⟩

omit [Fintype τ] in
theorem inv_initial [Fintype τ] : Inv role (initial : State τ) := by
  refine ⟨?_,by simp [initial],by simp [initial, At],rfl⟩
  have h : tally (fun _ => PC.active) (initial : State τ).pc = 0 := tally_eq_zero.mpr fun _ => rfl
  simp only [units, h]
  rfl

/-- With a thread active, the unit of the monitor is with that thread. -/
theorem Inv.alone {m : State τ} (h : Inv role m) {t : τ} (ht : (m.pc t).active = true) :
    m.s = 0 ∧ (∀ c, m.w c = 0) ∧ ∀ u, u ≠ t → (m.pc u).active = false := by
  have hu := h.units_eq
  unfold units at hu
  have hpos : 0 < tally (fun _ => PC.active) m.pc := tally_pos.mpr ⟨t,ht⟩
  refine ⟨by omega,?_,?_⟩
  · intro c; cases c <;> omega
  · intro u hne
    exact unmarked_of_ne (show tally (fun _ => PC.active) m.pc ≤ 1 by omega) ht hne

theorem Inv.quiet {m : State τ} (h : Inv role m) {c : Cond} (hc : 0 < m.w c) (t : τ) :
    (m.pc t).active = false := by
  cases ht : (m.pc t).active with
  | false => rfl
  | true => have hw := (h.alone ht).2.1 c; omega

variable [DecidableEq τ]

/-- A step keeps the invariant when it keeps the number of units and changes the
buffer only as the active thread. -/
theorem Inv.move {m m' : State τ} {pc : PC} (h : Inv role m) (t : τ)
    (hpc : m'.pc = Function.update m.pc t pc)
    (hframe : m'.values = m.values ∨ (m.pc t).active = true)
    (hfront : ∀ u, u ≠ t → m'.front u = m.front u)
    (hunits : m'.s + (m'.w .A + m'.w .B + m'.w .C) + pc.active.toNat =
      m.s + (m.w .A + m.w .B + m.w .C) + (m.pc t).active.toNat)
    (htoken : ∀ c, 0 < m'.w c → (can c).passes m'.values.length = true)
    (hfifo : m'.pushed = m'.removed ++ m'.values)
    (hat : At (role t) m'.values (m'.front t) pc) : Inv role m' := by
  refine ⟨?_,htoken,?_,hfifo⟩
  · have hu := h.units_eq
    have ht := tally_update (fun _ => PC.active) m.pc t pc
    unfold units at hu ⊢
    rw [hpc]
    omega
  · intro u
    rw [hpc]
    by_cases hut : u = t
    · subst u; rw [Function.update_self]; exact hat
    · rw [Function.update_of_ne hut, hfront u hut]
      rcases hframe with hv | hact
      · rw [hv]; exact h.at_pc u
      · exact at_of_inactive ((h.alone hact).2.2 u hut)

theorem Inv.internal {m : State τ} {pc : PC} (h : Inv role m) (t : τ) (counts : Cond → ℤ)
    (hact : (m.pc t).active = true) (hpc : pc.active = true)
    (hat : At (role t) m.values (m.front t) pc) :
    Inv role { m.go t pc with waitingCount := counts } := by
  refine h.move t rfl (Or.inl rfl) (fun _ _ => rfl) ?_ h.token h.fifo hat
  rw [hact, hpc]; rfl

/-- A thread that takes the unit from the monitor semaphore. -/
theorem Inv.enter {m : State τ} {pc : PC} {n : ℕ} (h : Inv role m) (t : τ)
    (hout : (m.pc t).active = false) (hpc : pc.active = true) (hn : m.s = n + 1)
    (hat : At (role t) m.values (m.front t) pc) : Inv role { m.go t pc with s := n } := by
  refine h.move t rfl (Or.inl rfl) (fun _ _ => rfl) ?_ h.token h.fifo hat
  rw [hout, hpc, hn]
  simp only [State.go, Bool.toNat_true, Bool.toNat_false]
  omega

/-- A thread that gives the unit back to the monitor semaphore. -/
theorem Inv.leave {m : State τ} {pc : PC} (h : Inv role m) (t : τ)
    (hact : (m.pc t).active = true) (hpc : pc.active = false) :
    Inv role { m.go t pc with s := v m.s } := by
  refine h.move t rfl (Or.inl rfl) (fun _ _ => rfl) ?_ h.token h.fifo (at_of_inactive hpc)
  rw [hact, hpc]
  simp only [State.go, v, Bool.toNat_true, Bool.toNat_false]
  omega

theorem Inv.access {m m' : State τ} {pc : PC} (h : Inv role m) (t : τ)
    (hact : (m.pc t).active = true) (hpc : m'.pc = Function.update m.pc t pc) (hs : m'.s = m.s)
    (hw : m'.w = m.w) (hfront : m'.front = m.front) (hpc' : pc.active = true)
    (hfifo : m'.pushed = m'.removed ++ m'.values) (hat : At (role t) m'.values (m'.front t) pc) :
    Inv role m' := by
  refine h.move t hpc (Or.inr hact) (fun _ _ => by rw [hfront]) ?_ ?_ hfifo hat
  · rw [hs, hw, hact, hpc']
  · intro c hc
    rw [hw, (h.alone hact).2.1 c] at hc
    exact absurd hc (lt_irrefl 0)

/-- The signaller's unit becomes the token of the condition it has tested. -/
theorem Inv.post {m : State τ} {pc : PC} {c : Cond} (h : Inv role m) (t : τ)
    (hact : (m.pc t).active = true) (hpc : pc.active = false)
    (hpass : (can c).passes m.values.length = true) :
    Inv role { m.go t pc with w := Function.update m.w c (v (m.w c)) } := by
  have hw := (h.alone hact).2.1
  refine h.move t rfl (Or.inl rfl) (fun _ _ => rfl) ?_ ?_ h.fifo (at_of_inactive hpc)
  · rw [hact, hpc]
    cases c <;> simp [Function.update, State.go, hw, v]
  · intro d hd
    by_cases hdc : d = c
    · rw [hdc]
      exact hpass
    · simp [Function.update_of_ne hdc, hw] at hd

/-- The woken thread takes the unit over; the buffer is still as it was when its
signaller tested the guard. -/
theorem Inv.awake {m : State τ} {n : ℕ} (h : Inv role m) (t : τ) (hout : (m.pc t).active = false)
    (hn : m.w (role t).procedure.own = n + 1) :
    Inv role { m.go t (role t).procedure.action with w := Function.update m.w (role t).procedure.own n } := by
  have hpass := h.token (role t).procedure.own (by omega)
  refine h.move t rfl (Or.inl rfl) (fun _ _ => rfl) ?_ ?_ h.fifo (at_action _ hpass)
  · rw [active_action, hout]
    cases hc : (role t).procedure.own <;> rw [hc] at hn <;> simp [Function.update, State.go, hn] <;> omega
  · intro c hc
    refine h.token c ?_
    by_cases hco : c = (role t).procedure.own
    · rw [hco]
      omega
    · simpa [Function.update_of_ne hco] using hc

theorem step_inv {m m' : State τ} {k : τ × Char} (h : Inv role m)
    (he : step role m k = some m') : Inv role m' := by
  obtain ⟨t,arg⟩ := k
  have hat := h.at_pc t
  have hactive : ∀ {pc : PC} {b : Bool}, m.pc t = pc → pc.active = b → (m.pc t).active = b :=
    fun hp ha => hp ▸ ha
  cases step_moves he with
  | idle hp => exact h.move t rfl (Or.inl rfl) (fun _ _ => rfl) (by simp [hp, PC.active, State.go]) h.token h.fifo trivial
  | enter hp hn => exact h.enter t (hactive hp rfl) rfl hn (Guard.PartWay.start _ _)
  | passes hp =>
    rw [hp] at hat
    exact h.internal t m.waitingCount (hactive hp rfl) (active_action _) (at_action _ hat.done)
  | testHolds hp hc =>
    rw [hp] at hat
    exact h.internal t m.waitingCount (hactive hp rfl) rfl (hat.next hc)
  | testFails hp hc =>
    rw [hp] at hat
    exact h.internal t m.waitingCount (hactive hp rfl) rfl (hat.fails hc)
  | countWaiter hp => exact h.internal t _ (hactive hp rfl) rfl trivial
  | leaveToWait hp | leave hp => exact h.leave t (hactive hp rfl) rfl
  | wait hp hn => exact h.awake t (hactive hp rfl) hn
  | push hp =>
    refine h.access t (hactive hp rfl) rfl rfl rfl rfl rfl ?_ trivial
    simp [h.fifo, State.go]
  | front hp =>
    rw [hp] at hat
    refine h.move t rfl (Or.inl rfl) ?_ ?_ h.token h.fifo ⟨hat.1,hat.2,?_⟩
    · intro u hu
      exact Function.update_of_ne hu _ _
    · simp [hp, PC.active, State.go]
    · simp [State.go]
  | erase hp =>
    rw [hp] at hat
    obtain ⟨hne,-,hfr⟩ := hat
    refine h.access t (hactive hp rfl) rfl rfl rfl rfl rfl ?_ trivial
    cases hv : m.values with
    | nil => simp [hv] at hne
    | cons x xs => simp [h.fifo, hv, hfr, State.go]
  | display hp => exact h.internal t m.waitingCount (hactive hp rfl) (active_after _) (at_after _ _ _ _)
  | signals hp =>
    rw [hp] at hat
    exact h.internal t m.waitingCount (hactive hp rfl) rfl hat.done
  | signalHolds hp hx =>
    rw [hp] at hat
    exact h.internal t m.waitingCount (hactive hp rfl) rfl (hat.next hx)
  | signalFails hp hx => exact h.internal t m.waitingCount (hactive hp rfl) (active_after _) (at_after _ _ _ _)
  | anyWaiter hp hc =>
    rw [hp] at hat
    exact h.internal t m.waitingCount (hactive hp rfl) rfl hat
  | noWaiter hp hc => exact h.internal t m.waitingCount (hactive hp rfl) (active_after _) (at_after _ _ _ _)
  | uncount hp =>
    rw [hp] at hat
    exact h.internal t _ (hactive hp rfl) rfl hat
  | post hp =>
    rw [hp] at hat
    exact h.post t (hactive hp rfl) rfl hat
  | reenter hp hn => exact h.enter t (hactive hp rfl) (active_after _) hn (at_after _ _ _ _)

omit [DecidableEq τ] in
theorem Inv.safe {m : State τ} (h : Inv role m) : Safe role m := by
  refine ⟨h.units_eq,?_,?_,?_,⟨m.values,h.fifo.symm⟩⟩
  · intro t hr hp
    have hat := h.at_pc t
    rw [hp, hr] at hat
    exact (passes_canA _).mp hat.1
  · intro t hr hp
    have hat := h.at_pc t
    rw [hp, hr] at hat
    exact (passes_canB _).mp hat.1
  · intro t hp
    have hat := h.at_pc t
    rcases hp with hp | hp <;> rw [hp] at hat
    · exact List.ne_nil_of_length_pos hat.1
    · exact List.ne_nil_of_length_pos hat.1

/-- Every interleaving of any threads keeps the monitor exclusive, the guarded
accesses within their bounds and the buffer first-in first-out. -/
theorem monitor_safe (ks : List (τ × Char)) (m : State τ)
    (hr : run (step role) initial ks = some m) : Safe role m :=
  (run_invariant (fun _ _ _ h he => step_inv h he) inv_initial hr).safe

def oneEach : Bool → Role := fun b => if b then .putA else .get

theorem handed_over_safe :
    ∃ m, run (step oneEach) initial (List.replicate 5 (false,'A') ++ List.replicate 12 (true,'A')) =
      some m ∧ m.w .C = 1 ∧ Safe oneEach m := by
  have hrun : (run (step oneEach) initial
      (List.replicate 5 (false,'A') ++ List.replicate 12 (true,'A'))).any (fun m => m.w .C == 1) = true := by
    decide
  obtain ⟨m,hm,hw⟩ := (Option.any_eq_true _ _).mp hrun
  exact ⟨m,hm,by simpa using hw,monitor_safe _ m hm⟩

end SOI.MonitorBuffer

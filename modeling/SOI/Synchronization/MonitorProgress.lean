import SOI.Synchronization.MonitorWakeup

/-! # How the program of the monitor buffer ends

Each thread makes its calls one after the other and returns. A call takes a bounded
number of steps, so every run of the program comes to an end. It is the end of all
calls, or B is left waiting for elements that nobody will put.
-/
namespace SOI.MonitorBuffer
open Synchronization Runs Tally

/-- The buffer and the calls that each thread still has to start. -/
structure Program (τ : Type) where
  monitor : State τ
  left : τ → ℕ

def Role.value : Role → Char
  | .putA => 'A'
  | .putB => 'B'
  | .get => ' '

section Threads
variable {τ : Type}

def start (calls : τ → ℕ) : Program τ := ⟨initial,calls⟩

/-- The steps that are left of a procedure with these conditions still to be signalled. -/
def stepsAfter : List Cond → ℕ
  | [] => 1
  | c :: rest => (can c).length + 5 + stepsAfter rest

def PC.steps (r : Role) : PC → ℕ
  | .idle => 0
  | .enter => (can r.procedure.own).length + 8 + stepsAfter r.procedure.signals
  | .test todo => todo.length + 7 + stepsAfter r.procedure.signals
  | .countWaiter => 6 + stepsAfter r.procedure.signals
  | .leaveToWait => 5 + stepsAfter r.procedure.signals
  | .wait => 4 + stepsAfter r.procedure.signals
  | .front => 3 + stepsAfter r.procedure.signals
  | .push | .erase => 2 + stepsAfter r.procedure.signals
  | .display => 1 + stepsAfter r.procedure.signals
  | .testSignal _ todo rest => todo.length + 5 + stepsAfter rest
  | .testCount _ rest => 4 + stepsAfter rest
  | .uncount _ rest => 3 + stepsAfter rest
  | .post _ rest => 2 + stepsAfter rest
  | .reenter rest => 1 + stepsAfter rest
  | .leave => 1

/-- A thread at this point has yet to put or take the element of its call. -/
def PC.owes : PC → Bool
  | .enter | .test _ | .countWaiter | .leaveToWait | .wait | .push | .front | .erase => true
  | _ => false

theorem owes_after (cs : List Cond) : (after cs).owes = false := by
  cases cs <;> rfl

theorem owes_action (r : Role) : r.procedure.action.owes = true := by
  cases r <;> rfl

variable [DecidableEq τ] {role : τ → Role}

/-- `for (int i = 0; i < THREADS_ITERS; ++i)` around the call of a thread, which is
done when no call is left. -/
def threadStep (role : τ → Role) (p : Program τ) (t : τ) : Option (Program τ) :=
  if p.monitor.pc t = .idle then
    if p.left t = 0 then none
    else (step role p.monitor (t,(role t).value)).map fun m => ⟨m,Function.update p.left t (p.left t - 1)⟩
  else (step role p.monitor (t,(role t).value)).map fun m => ⟨m,p.left⟩

theorem threadStep_cases {p p' : Program τ} {t : τ} (h : threadStep role p t = some p') :
    step role p.monitor (t,(role t).value) = some p'.monitor ∧ (∀ u, u ≠ t → p'.left u = p.left u) ∧
      (p.monitor.pc t = .idle → p.left t = p'.left t + 1) ∧ (p.monitor.pc t ≠ .idle → p'.left t = p.left t) := by
  rw [threadStep] at h
  split at h
  · next hidle =>
    split at h
    · cases h
    · next hleft =>
      obtain ⟨m,hm,rfl⟩ := Option.map_eq_some_iff.mp h
      refine ⟨hm,fun u hu => Function.update_of_ne hu _ _,fun _ => ?_,fun hno => absurd hidle hno⟩
      have hleft' : Function.update p.left t (p.left t - 1) t = p.left t - 1 := Function.update_self ..
      dsimp only
      omega
  · next hidle =>
    obtain ⟨m,hm,rfl⟩ := Option.map_eq_some_iff.mp h
    exact ⟨hm,fun _ _ => rfl,fun hyes => absurd hyes hidle,fun _ => rfl⟩

theorem Moves.others {m m' : State τ} {t : τ} {arg : Char} (h : Moves role m t arg m') {u : τ} (hu : u ≠ t) :
    m'.pc u = m.pc u := by
  cases h <;> exact Function.update_of_ne hu _ _

theorem Moves.starts {m m' : State τ} {t : τ} {arg : Char} (h : Moves role m t arg m') (hidle : m.pc t = .idle) :
    m'.pc t = .enter ∧ m'.pushed = m.pushed ∧ m'.removed = m.removed := by
  cases h with
  | idle => exact ⟨Function.update_self ..,rfl,rfl⟩
  | _ => simp_all

variable [Fintype τ]

def State.made (m : State τ) (puts : Bool) : ℕ := if puts then m.pushed.length else m.removed.length

def Program.owed (role : τ → Role) (p : Program τ) (puts : Bool) : ℕ :=
  ∑ t, if decide (role t ≠ .get) = puts then p.left t + (p.monitor.pc t).owes.toNat else 0

omit [Fintype τ] in
/-- Within a call an element is put or taken just where the thread stops owing it. -/
theorem Moves.owes {m m' : State τ} {t : τ} {arg : Char} (h : Moves role m t arg m')
    (hat : At (role t) m.values (m.front t) (m.pc t)) (hcall : m.pc t ≠ .idle) (puts : Bool) :
    m'.made puts + (if decide (role t ≠ .get) = puts then (m'.pc t).owes.toNat else 0) =
      m.made puts + if decide (role t ≠ .get) = puts then (m.pc t).owes.toNat else 0 := by
  cases h with
  | idle hp => exact absurd hp hcall
  | push hp =>
    rw [hp] at hat ⊢
    have hput : decide (role t ≠ .get) = true := decide_eq_true hat.2
    rw [hput]
    cases puts <;> simp [State.made, State.go, PC.owes]
  | erase hp =>
    rw [hp] at hat ⊢
    obtain ⟨hpos,hget,hfront⟩ := hat
    obtain ⟨x,xs,hvalues⟩ := List.exists_cons_of_length_pos hpos
    have htake : decide (role t ≠ .get) = false := by simp [hget]
    rw [htake]
    cases puts <;> simp [State.made, State.go, PC.owes, hfront, hvalues]
  | passes hp | wait hp =>
    simp only [State.go, Function.update_self, hp, owes_action]
    rfl
  | display hp | signalFails hp | noWaiter hp | reenter hp =>
    simp only [State.go, Function.update_self, hp, owes_after]
    rfl
  | enter hp | testHolds hp | testFails hp | countWaiter hp | leaveToWait hp | front hp | signals hp | signalHolds hp
  | anyWaiter hp | uncount hp | post hp | leave hp =>
    simp only [State.go, Function.update_self, hp]
    rfl

theorem step_accounts {p p' : Program τ} {t : τ} (hinv : Inv role p.monitor) (h : threadStep role p t = some p')
    (puts : Bool) : p'.monitor.made puts + p'.owed role puts = p.monitor.made puts + p.owed role puts := by
  obtain ⟨hstep,hleft,hstarts,hgoes⟩ := threadStep_cases h
  have hmoves := step_moves hstep
  have hsum := sum_move
    (f := fun u => if decide (role u ≠ .get) = puts then p'.left u + (p'.monitor.pc u).owes.toNat else 0)
    (g := fun u => if decide (role u ≠ .get) = puts then p.left u + (p.monitor.pc u).owes.toNat else 0) t fun u hu => by
      rw [hleft u hu, hmoves.others hu]
  rw [Program.owed, Program.owed]
  by_cases hidle : p.monitor.pc t = .idle
  · obtain ⟨henter,hpushed,hremoved⟩ := hmoves.starts hidle
    have hmade : p'.monitor.made puts = p.monitor.made puts := by rw [State.made, State.made, hpushed, hremoved]
    have hnew : p'.left t + (p'.monitor.pc t).owes.toNat = p.left t + (p.monitor.pc t).owes.toNat := by
      rw [hstarts hidle, henter, hidle]
      rfl
    rw [hnew] at hsum
    omega
  · have howes := hmoves.owes (hinv.at_pc t) hidle puts
    rw [hgoes hidle] at hsum
    split_ifs at howes hsum <;> omega

end Threads

section Ending
variable {ι : Type} [Fintype ι] [DecidableEq ι]

omit [DecidableEq ι] in
theorem blocked_cases {τ : Type} [DecidableEq τ] {role : τ → Role} {m : State τ} {t : τ} {arg : Char}
    (h : step role m (t,arg) = none) :
    m.s = 0 ∧ (m.pc t = .enter ∨ ∃ rest, m.pc t = .reenter rest) ∨ m.w (role t).procedure.own = 0 ∧ m.pc t = .wait := by
  cases hp : m.pc t with
  | enter =>
    simp only [step, hp, Option.map_eq_none_iff, p_eq_none] at h
    exact Or.inl ⟨h,Or.inl rfl⟩
  | reenter rest =>
    simp only [step, hp, Option.map_eq_none_iff, p_eq_none] at h
    exact Or.inl ⟨h,Or.inr ⟨rest,rfl⟩⟩
  | wait =>
    simp only [step, hp, Option.map_eq_none_iff, p_eq_none] at h
    exact Or.inr ⟨h,rfl⟩
  | test todo | testSignal c todo rest =>
    cases todo with
    | nil => simp [step, hp] at h
    | cons x todo =>
      simp only [step, hp] at h
      split at h <;> cases h
  | testCount c rest =>
    simp only [step, hp] at h
    split at h <;> cases h
  | _ => simp [step, hp] at h

/-- While all calls are blocked the monitor is free, and every call sleeps. -/
theorem Wake.settled {m : State (Caller ι)} (h : Wake m)
    (hblocked : ∀ t, m.pc t ≠ .idle → step Caller.role m (t,t.role.value) = none) :
    m.s = 1 ∧ ∀ t, m.pc t = .idle ∨ m.pc t = .wait := by
  have hcases : ∀ t, m.pc t = .idle ∨ m.s = 0 ∧ (m.pc t = .enter ∨ ∃ rest, m.pc t = .reenter rest) ∨
      m.w t.role.procedure.own = 0 ∧ m.pc t = .wait := fun t => by
    by_cases hidle : m.pc t = .idle
    · exact Or.inl hidle
    · exact Or.inr (blocked_cases (hblocked t hidle))
  have hactive : tally (fun _ => PC.active) m.pc = 0 := by
    refine tally_eq_zero.mpr fun t => ?_
    rcases hcases t with hp | ⟨-,hp | ⟨rest,hp⟩⟩ | ⟨-,hp⟩ <;> rw [hp] <;> rfl
  -- a pending token has a sleeper that can take it
  have htokens : ∀ c, m.w c = 0 := fun c => by
    by_contra hpos
    have hbalance := h.balanced c
    have hnonneg := h.nonneg c
    obtain ⟨t,ht⟩ := tally_pos.mp (show 0 < sleepers Caller.role m c by omega)
    rw [Bool.and_eq_true, decide_eq_true_eq] at ht
    rcases hcases t with hp | ⟨-,hp | ⟨rest,hp⟩⟩ | ⟨hnone,hp⟩
    · rw [hp] at ht
      cases ht.2
    · rw [hp] at ht
      cases ht.2
    · rw [hp] at ht
      cases ht.2
    · rw [ht.1] at hnone
      exact hpos hnone
  have hunits := h.inv.units_eq
  rw [units, hactive, htokens .A, htokens .B, htokens .C] at hunits
  have hfree : m.s = 1 := by omega
  refine ⟨hfree,fun t => ?_⟩
  rcases hcases t with hp | ⟨hno,-⟩ | ⟨-,hp⟩
  · exact Or.inl hp
  · omega
  · exact Or.inr hp

/-- All calls have been made, and the buffer is empty. -/
structure Finished (p : Program (Caller ι)) : Prop where
  returned : ∀ t, p.monitor.pc t = .idle ∧ p.left t = 0
  empty : p.monitor.values = []

/-- B is left waiting for elements: A has returned and a consumer waits as well. -/
structure Hung (p : Program (Caller ι)) : Prop where
  returnedA : p.monitor.pc .producerA = .idle ∧ p.left .producerA = 0
  waitsB : p.monitor.pc .producerB = .wait
  waitsC : ∃ i, p.monitor.pc (.consumer i) = .wait
  others : ∀ t, p.monitor.pc t = .idle ∧ p.left t = 0 ∨ p.monitor.pc t = .wait
  empty : p.monitor.values = []

/-- What the threads have put and taken, with what they owe, is what they were to put and take. -/
structure Accounts (calls : Caller ι → ℕ) (p : Program (Caller ι)) : Prop where
  wake : Wake p.monitor
  puts : p.monitor.pushed.length + p.owed Caller.role true = calls .producerA + calls .producerB
  gets : p.monitor.removed.length + p.owed Caller.role false = ∑ i, calls (.consumer i)

def Caller.equiv : Caller ι ≃ Option (Option ι) where
  toFun
    | .producerA => none
    | .producerB => some none
    | .consumer i => some (some i)
  invFun
    | none => .producerA
    | some none => .producerB
    | some (some i) => .consumer i
  left_inv t := by cases t <;> rfl
  right_inv
    | none | some none | some (some _) => rfl

omit [DecidableEq ι] in
theorem sum_caller (f : Caller ι → ℕ) : ∑ t, f t = f .producerA + f .producerB + ∑ i, f (.consumer i) := by
  have hsum : ∑ t, f t = ∑ x, f (Caller.equiv.symm x) := Fintype.sum_equiv Caller.equiv _ _ fun t => by
    rw [Equiv.symm_apply_apply]
  rw [hsum, Fintype.sum_option, Fintype.sum_option, ← Nat.add_assoc]
  rfl

omit [DecidableEq ι] in
theorem owed_puts (p : Program (Caller ι)) : p.owed Caller.role true =
    p.left .producerA + (p.monitor.pc .producerA).owes.toNat + (p.left .producerB + (p.monitor.pc .producerB).owes.toNat) := by
  rw [Program.owed, sum_caller]
  simp [Caller.role]

omit [DecidableEq ι] in
theorem owed_gets (p : Program (Caller ι)) : p.owed Caller.role false =
    ∑ i, (p.left (.consumer i) + (p.monitor.pc (.consumer i)).owes.toNat) := by
  rw [Program.owed, sum_caller]
  simp [Caller.role]

theorem Accounts.kept {calls : Caller ι → ℕ} {p p' : Program (Caller ι)} {t : Caller ι} (h : Accounts calls p)
    (hstep : threadStep Caller.role p t = some p') : Accounts calls p' :=
  ⟨step_wake h.wake (threadStep_cases hstep).1,(step_accounts h.wake.inv hstep true).trans h.puts,
    (step_accounts h.wake.inv hstep false).trans h.gets⟩

/-- Where the consumers are to take just what the producers are to put, no more than
B's waiting for more elements can keep the program from its end. -/
theorem Accounts.ends {calls : Caller ι → ℕ} {p : Program (Caller ι)} (h : Accounts calls p)
    (hcalls : ∑ i, calls (.consumer i) = calls .producerA + calls .producerB)
    (hstuck : ∀ t, threadStep Caller.role p t = none) : Finished p ∨ Hung p := by
  have hblocked : ∀ t, p.monitor.pc t ≠ .idle → step Caller.role p.monitor (t,t.role.value) = none := fun t hne => by
    have hnone := hstuck t
    rwa [threadStep, if_neg hne, Option.map_eq_none_iff] at hnone
  obtain ⟨hfree,hsettled⟩ := h.wake.settled hblocked
  have hothers : ∀ t, p.monitor.pc t = .idle ∧ p.left t = 0 ∨ p.monitor.pc t = .wait := fun t => by
    refine (hsettled t).imp_left fun hidle => ⟨hidle,?_⟩
    by_contra hleft
    have hnone := hstuck t
    rw [threadStep, if_pos hidle, if_neg hleft, Option.map_eq_none_iff, step, hidle] at hnone
    cases hnone
  have hrightly := h.wake.waitsRightly hfree
  have hputs := h.puts
  have hgets := h.gets
  rw [owed_puts] at hputs
  rw [owed_gets] at hgets
  have hfifo : p.monitor.pushed.length = p.monitor.removed.length + p.monitor.values.length := by
    rw [h.wake.inv.fifo, List.length_append]
  by_cases hwaits : ∃ i, p.monitor.pc (.consumer i) = .wait
  · obtain ⟨i,hi⟩ := hwaits
    have hempty := hrightly.onC i hi
    have hone : 1 ≤ ∑ i, (p.left (.consumer i) + (p.monitor.pc (.consumer i)).owes.toNat) :=
      le_trans (by rw [hi]; exact Nat.le_add_left ..) (Finset.single_le_sum (fun _ _ => Nat.zero_le _) (Finset.mem_univ i))
    rw [hempty, List.length_nil] at hfifo
    have hA : p.monitor.pc .producerA = .idle ∧ p.left .producerA = 0 := by
      rcases hothers .producerA with hidle | hwait
      · exact hidle
      · have hfull := hrightly.onA hwait
        rw [hempty] at hfull
        cases hfull
    rcases hothers .producerB with ⟨hB,hleft⟩ | hB
    · have hidle : PC.idle.owes.toNat = 0 := rfl
      rw [hA.1, hA.2, hB, hleft, hidle] at hputs
      omega
    · exact Or.inr ⟨hA,hB,⟨i,hi⟩,hothers,hempty⟩
  · have hC : ∀ i, p.monitor.pc (.consumer i) = .idle ∧ p.left (.consumer i) = 0 := fun i =>
      (hothers (.consumer i)).resolve_right fun hwait => hwaits ⟨i,hwait⟩
    have hnone : ∑ i, (p.left (.consumer i) + (p.monitor.pc (.consumer i)).owes.toNat) = 0 :=
      Finset.sum_eq_zero fun i _ => by rw [(hC i).1, (hC i).2]; rfl
    have hempty : p.monitor.values = [] := List.eq_nil_of_length_eq_zero (by omega)
    have howes : ∀ t, t = .producerA ∨ t = .producerB → p.monitor.pc t ≠ .wait := by
      have hone : PC.wait.owes.toNat = 1 := rfl
      rintro t (rfl | rfl) hwait <;> rw [hwait, hone] at hputs <;> omega
    refine Or.inl ⟨fun t => ?_,hempty⟩
    cases t with
    | producerA => exact (hothers _).resolve_right (howes _ (Or.inl rfl))
    | producerB => exact (hothers _).resolve_right (howes _ (Or.inr rfl))
    | consumer i => exact hC i

end Ending
end SOI.MonitorBuffer

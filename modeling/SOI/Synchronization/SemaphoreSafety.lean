import SOI.Synchronization.SemaphoreBuffer

/-! # Safety of the semaphore buffer

The unit of the critical section is in the mutex, in `stopA`, in `stopB`, or
with exactly one thread. A put that resumes the other producer and then also
releases the mutex makes a second unit, so the invariant is one of the runs in
which no put takes that branch.
-/
namespace SOI.SemaphoreBuffer
open Synchronization Runs Tally
variable {ι : Type} [Fintype ι]

/-- Where the unit of the critical section may be, added up. -/
def units (s : State ι) : ℕ :=
  s.mutex + s.stop .A + s.stop .B + (s.put .A).inside.toNat + (s.put .B).inside.toNat +
    tally (fun _ => GetPC.inside) s.get

def PutAt (size : ℕ) (guard : Guard) : PutPC → Prop
  | .test todo => Guard.PartWay size guard todo
  | .clearWait | .push => guard.passes size = true
  | .resumeOther => False
  | _ => True

def GetAt (size : ℕ) (wait : Side → Bool) : GetPC → Prop
  | .testA todo => Guard.PartWay size canA todo
  | .testWaitA => canA.passes size = true
  | .resumeA => canA.passes size = true ∧ wait .A = true
  | .testB todo => Guard.PartWay size canB todo
  | .testWaitB => canB.passes size = true
  | .resumeB => canB.passes size = true ∧ wait .B = true
  | _ => True

/-- A flag is up only from the time its producer sets it until it has been
resumed and clears it. -/
def Waiting : PutPC → Prop
  | .release | .suspend | .clearWait => True
  | _ => False

structure Inv (s : State ι) : Prop where
  units_eq : units s = 1
  handed : ∀ side, 0 < s.stop side → s.put side = .suspend ∧ (can side).passes s.values.length = true
  flag : ∀ side, s.wait side = true → Waiting (s.put side)
  putAt : ∀ side, PutAt s.values.length (can side) (s.put side)
  getAt : ∀ i, GetAt s.values.length s.wait (s.get i)

theorem inv_initial : Inv (initial : State ι) := by
  refine ⟨?_,by simp [initial],by simp [initial],by simp [initial, PutAt],by simp [initial, GetAt]⟩
  have h : tally (fun _ => GetPC.inside) (initial : State ι).get = 0 := tally_eq_zero.mpr fun _ => rfl
  simp [units, initial, PutPC.inside] at h ⊢
  exact h

theorem putAt_of_outside {size : ℕ} {guard : Guard} {pc : PutPC} (h : pc.inside = false) :
    PutAt size guard pc := by
  cases pc <;> simp_all [PutPC.inside, PutAt]

omit [Fintype ι] in
theorem getAt_of_outside {size : ℕ} {wait : Side → Bool} {pc : GetPC} (h : pc.inside = false) :
    GetAt size wait pc := by
  cases pc <;> simp_all [GetPC.inside, GetAt]

/-- With a producer inside, the unit is with that producer. -/
theorem Inv.alone_put {s : State ι} (h : Inv s) {side : Side} (hin : (s.put side).inside = true) :
    s.mutex = 0 ∧ (∀ x, s.stop x = 0) ∧ (s.put side.other).inside = false ∧
      ∀ i, (s.get i).inside = false := by
  have hu := h.units_eq
  unfold units at hu
  have ht : tally (fun _ => GetPC.inside) s.get = 0 := by
    cases side <;> simp only [hin, Bool.toNat_true] at hu <;> omega
  refine ⟨?_,?_,?_,tally_eq_zero.mp ht⟩
  · cases side <;> simp only [hin, Bool.toNat_true] at hu <;> omega
  · intro x
    cases side <;> simp only [hin, Bool.toNat_true] at hu <;> cases x <;> omega
  · cases side <;> simp only [hin, Bool.toNat_true] at hu <;> simp only [Side.other]
    · cases hb : (s.put .B).inside with
      | false => rfl
      | true => simp only [hb, Bool.toNat_true] at hu; omega
    · cases ha : (s.put .A).inside with
      | false => rfl
      | true => simp only [ha, Bool.toNat_true] at hu; omega

theorem Inv.alone_get {s : State ι} (h : Inv s) {i : ι} (hin : (s.get i).inside = true) :
    s.mutex = 0 ∧ (∀ x, s.stop x = 0) ∧ (∀ x, (s.put x).inside = false) ∧
      ∀ j, j ≠ i → (s.get j).inside = false := by
  have hu := h.units_eq
  unfold units at hu
  have hpos : 0 < tally (fun _ => GetPC.inside) s.get := tally_pos.mpr ⟨i,hin⟩
  refine ⟨by omega,?_,?_,?_⟩
  · intro x; cases x <;> omega
  · intro x
    cases hx : (s.put x).inside with
    | false => rfl
    | true => cases x <;> simp only [hx, Bool.toNat_true] at hu <;> omega
  · intro j hj
    exact unmarked_of_ne (show tally (fun _ => GetPC.inside) s.get ≤ 1 by omega) hin hj

/-- The branch of a put that the guarded runs never take. -/
def HandsOver (s : State ι) : Thread ι → Prop
  | .put side _ => s.put side = .testWait ∧ s.wait side.other = true
  | .get _ => False

instance (s : State ι) (k : Thread ι) : Decidable (HandsOver s k) := by
  cases k <;> unfold HandsOver <;> infer_instance

theorem Inv.suspended {s : State ι} (h : Inv s) {side : Side} (hw : s.wait side = true)
    (hout : (s.put side).inside = false) : s.put side = .suspend := by
  have hf := h.flag side hw
  cases hp : s.put side <;> simp_all [Waiting, PutPC.inside]

/-- A producer's step keeps the invariant when it keeps the number of units and
changes the buffer and the flags only from inside the section. -/
theorem Inv.movePut {s t : State ι} {pc : PutPC} (h : Inv s) (side : Side)
    (hput : t.put = Function.update s.put side pc) (hget : t.get = s.get)
    (hframe : (t.values = s.values ∧ t.wait = s.wait) ∨ (s.put side).inside = true)
    (hother : t.wait side.other = s.wait side.other ∧ t.stop side.other = s.stop side.other)
    (hstop : t.stop side = 0)
    (hunit : t.mutex + t.stop side + pc.inside.toNat =
      s.mutex + s.stop side + (s.put side).inside.toNat)
    (hflag : t.wait side = true → Waiting pc)
    (hat : PutAt t.values.length (can side) pc) : Inv t := by
  have hself : t.put side = pc := by rw [hput, Function.update_self]
  have hne : side.other ≠ side := by cases side <;> decide
  have hoth : t.put side.other = s.put side.other := by rw [hput, Function.update_of_ne hne]
  have hsides : ∀ {P : Side → Prop}, P side → P side.other → ∀ x, P x := by
    intro P h1 h2 x
    cases side <;> cases x <;> assumption
  refine ⟨?_,hsides ?_ ?_,hsides ?_ ?_,hsides ?_ ?_,?_⟩
  · have hu := h.units_eq
    unfold units at hu ⊢
    rw [hget]
    cases side <;> simp only [Side.other] at hother hoth <;> rw [hself, hoth] <;> omega
  · intro hpos; omega
  · rw [hother.2, hoth]
    intro hpos
    rcases hframe with ⟨hv,-⟩ | hin
    · rw [hv]; exact h.handed _ hpos
    · have hz := (h.alone_put hin).2.1 side.other
      omega
  · rw [hself]; exact hflag
  · rw [hother.1, hoth]; exact h.flag _
  · rw [hself]; exact hat
  · rw [hoth]
    rcases hframe with ⟨hv,-⟩ | hin
    · rw [hv]; exact h.putAt _
    · exact putAt_of_outside (h.alone_put hin).2.2.1
  · intro i
    rw [hget]
    rcases hframe with ⟨hv,hw⟩ | hin
    · rw [hv, hw]; exact h.getAt i
    · exact getAt_of_outside ((h.alone_put hin).2.2.2 i)

theorem Inv.moveGet [DecidableEq ι] {s t : State ι} {pc : GetPC} (h : Inv s) (i : ι)
    (hget : t.get = Function.update s.get i pc) (hput : t.put = s.put) (hwait : t.wait = s.wait)
    (hframe : t.values = s.values ∨ (s.get i).inside = true)
    (hunit : t.mutex + t.stop .A + t.stop .B + pc.inside.toNat =
      s.mutex + s.stop .A + s.stop .B + (s.get i).inside.toNat)
    (hhanded : ∀ x, 0 < t.stop x →
      t.put x = .suspend ∧ (can x).passes t.values.length = true)
    (hat : GetAt t.values.length t.wait pc) : Inv t := by
  refine ⟨?_,hhanded,?_,?_,?_⟩
  · have hu := h.units_eq
    have ht := tally_update (fun _ => GetPC.inside) s.get i pc
    unfold units at hu ⊢
    rw [hget, hput]
    omega
  · intro x
    rw [hwait, hput]
    exact h.flag x
  · intro x
    rw [hput]
    rcases hframe with hv | hin
    · rw [hv]; exact h.putAt x
    · exact putAt_of_outside ((h.alone_get hin).2.2.1 x)
  · intro j
    rw [hget]
    by_cases hj : j = i
    · subst j; rw [Function.update_self]; exact hat
    · rw [Function.update_of_ne hj]
      rcases hframe with hv | hin
      · rw [hv, hwait]; exact h.getAt j
      · exact getAt_of_outside ((h.alone_get hin).2.2.2 j hj)

theorem Inv.stop_eq_zero {s : State ι} (h : Inv s) {side : Side} (hp : s.put side ≠ .suspend) :
    s.stop side = 0 := by
  by_contra hne
  exact hp (h.handed side (Nat.pos_of_ne_zero hne)).1

theorem Inv.wait_eq_false {s : State ι} (h : Inv s) (side : Side) (hp : ¬ Waiting (s.put side)) :
    s.wait side = false := by
  cases hw : s.wait side with
  | false => rfl
  | true => exact absurd (h.flag side hw) hp

/-- A producer's step away from its waiting points leaves the flags and the
semaphores of the suspended ones alone. -/
theorem Inv.runPut {s t : State ι} {pc : PutPC} (h : Inv s) {side : Side} (hw : ¬ Waiting (s.put side))
    (hput : t.put = Function.update s.put side pc) (hget : t.get = s.get) (hwait : t.wait = s.wait)
    (hstop : t.stop = s.stop) (hframe : t.values = s.values ∨ (s.put side).inside = true)
    (hunit : t.mutex + pc.inside.toNat = s.mutex + (s.put side).inside.toNat)
    (hat : PutAt t.values.length (can side) pc) : Inv t := by
  have hawake : s.put side ≠ .suspend := by
    intro hp
    rw [hp] at hw
    exact hw trivial
  refine h.movePut side hput hget (hframe.imp_left fun hv => ⟨hv,hwait⟩) ⟨by rw [hwait],by rw [hstop]⟩ ?_ ?_ ?_ hat
  · rw [hstop]
    exact h.stop_eq_zero hawake
  · rw [hstop]
    omega
  · rw [hwait, h.wait_eq_false side hw]
    exact fun hup => absurd hup Bool.false_ne_true

theorem Inv.internalPut {s : State ι} (h : Inv s) {side : Side} {pc : PutPC} (empty : ℕ)
    (hin : (s.put side).inside = true) (hw : ¬ Waiting (s.put side)) (hpc : pc.inside = true)
    (hat : PutAt s.values.length (can side) pc) : Inv { s.goPut side pc with empty := empty } := by
  refine h.runPut hw rfl rfl rfl rfl (Or.inl rfl) ?_ hat
  rw [hin, hpc]; rfl

theorem put_inv {s t : State ι} {side : Side} {arg : Char} (h : Inv s)
    (hok : ¬ HandsOver s (.put side arg))
    (he : putStep side side.other (can side) (can side.other) s arg = some t) : Inv t := by
  have hat := h.putAt side
  have hst : s.put side ≠ .suspend → s.stop side = 0 := h.stop_eq_zero
  have hne : side.other ≠ side := by cases side <;> decide
  -- a step inside the section that changes the program point only
  have hmove : (s.put side).inside = true → ¬ Waiting (s.put side) → ∀ pc : PutPC, pc.inside = true →
      PutAt s.values.length (can side) pc → Inv (s.goPut side pc) :=
    fun hin hw pc => h.internalPut s.empty hin hw
  cases putStep_puts he with
  | idle hp =>
    refine h.runPut (by simp [hp, Waiting]) rfl rfl rfl rfl (Or.inl rfl) ?_ trivial
    simp [hp, PutPC.inside, State.goPut]
  | acquire hp hm =>
    refine h.runPut (by simp [hp, Waiting]) rfl rfl rfl rfl (Or.inl rfl) ?_ (Guard.PartWay.start _ _)
    simp [hp, hm, PutPC.inside]
  | passes hp =>
    rw [hp] at hat hmove
    exact hmove rfl (by simp [Waiting]) _ rfl hat.done
  | testHolds hp hc =>
    rw [hp] at hat hmove
    exact hmove rfl (by simp [Waiting]) _ rfl (hat.next hc)
  | testFails hp hc =>
    rw [hp] at hmove
    exact hmove rfl (by simp [Waiting]) _ rfl trivial
  | setWait hp =>
    refine h.movePut side rfl rfl (Or.inr (by simp [hp, PutPC.inside])) ⟨?_,rfl⟩
      (hst (by simp [hp])) ?_ (fun _ => trivial) trivial
    · exact Function.update_of_ne hne _ _
    · simp [hp, PutPC.inside, State.goPut]
  | release hp =>
    refine h.movePut side rfl rfl (Or.inl ⟨rfl,rfl⟩) ⟨rfl,rfl⟩ (hst (by simp [hp])) ?_
      (fun _ => trivial) trivial
    simp [hp, PutPC.inside, State.goPut, v]
    omega
  | @suspend m hp hm =>
    have hpass := (h.handed side (by omega)).2
    have hm0 : m = 0 := by
      have hu := h.units_eq
      unfold units at hu
      cases side <;> omega
    subst hm0
    refine h.movePut side rfl rfl (Or.inl ⟨rfl,rfl⟩) ⟨rfl,?_⟩ (Function.update_self ..) ?_
      (fun _ => trivial) hpass
    · exact Function.update_of_ne hne _ _
    · simp [hp, hm, PutPC.inside, State.goPut]
  | clearWait hp =>
    rw [hp] at hat
    refine h.movePut side rfl rfl (Or.inr (by simp [hp, PutPC.inside])) ⟨?_,rfl⟩
      (hst (by simp [hp])) ?_ ?_ hat
    · exact Function.update_of_ne hne _ _
    · simp [hp, PutPC.inside, State.goPut]
    · simp
  | push hp =>
    refine h.runPut (by simp [hp, Waiting]) rfl rfl rfl rfl (Or.inr (by simp [hp, PutPC.inside])) ?_ trivial
    simp [hp, PutPC.inside, State.goPut]
  | postEmpty hp => exact h.internalPut _ (by simp [hp, PutPC.inside]) (by simp [hp, Waiting]) rfl trivial
  | display hp | otherPasses hp | otherHolds hp | otherFails hp | noneWaits hp =>
    rw [hp] at hmove
    exact hmove rfl (by simp [Waiting]) _ rfl trivial
  | otherWaits hp hw => exact absurd ⟨hp,hw⟩ hok
  | resumeOther hp =>
    rw [hp] at hat
    exact hat.elim
  | leave hp =>
    refine h.runPut (by simp [hp, Waiting]) rfl rfl rfl rfl (Or.inl rfl) ?_ trivial
    simp [hp, PutPC.inside, v]

theorem Inv.internalGet [DecidableEq ι] {s : State ι} (h : Inv s) {i : ι} {pc : GetPC}
    (hin : (s.get i).inside = true) (hpc : pc.inside = true)
    (hat : GetAt s.values.length s.wait pc) : Inv (s.goGet i pc) := by
  refine h.moveGet i rfl rfl rfl (Or.inl rfl) ?_ h.handed hat
  rw [hin, hpc]; rfl

/-- `get` gives the section to a producer that waits and can proceed. -/
theorem Inv.resume [DecidableEq ι] {s : State ι} (h : Inv s) {i : ι} (hin : (s.get i).inside = true)
    {side : Side} (hpass : (can side).passes s.values.length = true) (hw : s.wait side = true) :
    Inv { s.goGet i .idle with stop := Function.update s.stop side (v (s.stop side)) } := by
  obtain ⟨-,hstop,hout,-⟩ := h.alone_get hin
  refine h.moveGet i rfl rfl rfl (Or.inl rfl) ?_ ?_ trivial
  · rw [hin]
    cases side <;> simp [State.goGet, GetPC.inside, v, hstop]
  · intro x hx
    by_cases hxs : x = side
    · subst x
      exact ⟨h.suspended hw (hout side),hpass⟩
    · simp [Function.update_of_ne hxs, hstop] at hx

theorem get_inv [DecidableEq ι] {s t : State ι} {i : ι} (h : Inv s)
    (he : getStep s i = some t) : Inv t := by
  have hat := h.getAt i
  have hin : ∀ {pc : GetPC}, s.get i = pc → pc.inside = true → (s.get i).inside = true := fun hp hpc => hp ▸ hpc
  cases getStep_gets he with
  | idle hp | takeEmpty hp | front hp =>
    exact h.moveGet i rfl rfl rfl (Or.inl rfl) (by simp [hp, GetPC.inside, State.goGet])
      h.handed trivial
  | acquire hp hm =>
    refine h.moveGet i rfl rfl rfl (Or.inl rfl) ?_ h.handed trivial
    simp [hp, hm, GetPC.inside, State.goGet]
    omega
  | erase hp =>
    have hstop := (h.alone_get (hin hp rfl)).2.1
    refine h.moveGet i rfl rfl rfl (Or.inr (by simp [hp, GetPC.inside])) ?_ ?_ trivial
    · simp [hp, GetPC.inside, State.goGet]
    · intro x hx
      simp [State.goGet, hstop] at hx
  | display hp | failsA hp | freeA hp => exact h.internalGet (hin hp rfl) rfl (Guard.PartWay.start _ _)
  | failsB hp | freeB hp => exact h.internalGet (hin hp rfl) rfl trivial
  | passesA hp | passesB hp =>
    rw [hp] at hat
    exact h.internalGet (hin hp rfl) rfl hat.done
  | holdsA hp hc | holdsB hp hc =>
    rw [hp] at hat
    exact h.internalGet (hin hp rfl) rfl (hat.next hc)
  | waitsA hp hw | waitsB hp hw =>
    rw [hp] at hat
    exact h.internalGet (hin hp rfl) rfl ⟨hat,hw⟩
  | resumeA hp | resumeB hp =>
    rw [hp] at hat
    exact h.resume (hin hp rfl) hat.1 hat.2
  | leave hp =>
    refine h.moveGet i rfl rfl rfl (Or.inl rfl) ?_ h.handed trivial
    simp [hp, GetPC.inside, State.goGet, v]
    omega

theorem step_inv [DecidableEq ι] {s t : State ι} {k : Thread ι} (h : Inv s) (hok : ¬ HandsOver s k)
    (he : step s k = some t) : Inv t := by
  cases k with
  | put side arg => exact put_inv h hok (step_put s side arg ▸ he)
  | get i => exact get_inv h he

/-- The invariant says where the unit is, and so who is inside. -/
theorem Inv.safe {s : State ι} (h : Inv s) : Safe s := by
  have hother : ∀ {a b : Side}, a ≠ b → b = a.other := by
    intro a b hab
    cases a <;> cases b <;> first | rfl | exact absurd rfl hab
  refine ⟨?_,?_,?_,?_⟩
  · rintro (a | i) (b | j) hx hy
    · by_contra hab
      obtain rfl := hother fun e : a = b => hab (congrArg _ e)
      simp [State.inside, (h.alone_put hx).2.2.1] at hy
    · simp [State.inside, (h.alone_put hx).2.2.2 j] at hy
    · simp [State.inside, (h.alone_put hy).2.2.2 i] at hx
    · by_contra hij
      have hne : j ≠ i := fun e => hij (congrArg _ e.symm)
      simp [State.inside, (h.alone_get hx).2.2.2 j hne] at hy
  · have hu := h.units_eq
    unfold units at hu
    omega
  · intro hp
    have hat := h.putAt .A
    rw [hp] at hat
    exact (passes_canA _).mp hat
  · intro hp
    have hat := h.putAt .B
    rw [hp] at hat
    exact (passes_canB _).mp hat

/-- In every interleaving in which no put finds the other producer waiting for
what it has just made possible, the critical section is exclusive, the mutex is
at most one and both pushes respect their bounds. -/
theorem safe_of_no_handover [DecidableEq ι] (ks : List (Thread ι)) (s : State ι)
    (hm : Meets step (fun s k => ¬ HandsOver s k) initial ks)
    (hr : run step initial ks = some s) : Safe s :=
  (hm.invariant (fun _ _ _ h hok he => step_inv h hok he) inv_initial hr).safe

/-- A fills the buffer to four and B to nine; B waits there, the consumer takes a
value and resumes it, and A asks for the mutex while B goes on. -/
def resumeSchedule : List (Thread Unit) :=
  List.replicate 43 (.put .A 'A') ++ List.replicate 61 (.put .B 'B') ++
    List.replicate 12 (.get ()) ++ [.put .A 'A',.put .B 'B',.put .B 'B']

theorem resumed_put_safe :
    ∃ s, run step initial resumeSchedule = some s ∧ s.put .A = .acquire ∧ s.put .B = .push ∧
      s.values.length = 8 ∧ Safe s := by
  have hrun : (run step initial resumeSchedule).any (fun s =>
      s.put .A = .acquire ∧ s.put .B = .push ∧ s.values.length = 8) = true := by decide +kernel
  obtain ⟨s,hs,hat⟩ := (Option.any_eq_true _ _).mp hrun
  obtain ⟨ha,hb,hl⟩ := of_decide_eq_true hat
  exact ⟨s,hs,ha,hb,hl,safe_of_no_handover resumeSchedule s (by decide +kernel) hs⟩

/-- The condition is exact: from the test that finds the other producer waiting,
two threads come to be inside together. -/
theorem handover_unsafe [DecidableEq ι] {s : State ι} {side : Side} {arg : Char} (h : Inv s)
    (hh : HandsOver s (.put side arg)) :
    ∃ ks u, run step s ks = some u ∧ ¬ Safe u := by
  obtain ⟨hp,hw⟩ := hh
  have hin : (s.put side).inside = true := by simp [hp, PutPC.inside]
  have hne : side ≠ side.other := by cases side <;> decide
  have hsusp : s.put side.other = .suspend := h.suspended hw (h.alone_put hin).2.2.1
  have h1 : step s (.put side arg) = some (s.goPut side .resumeOther) := by
    simp only [step_put, putStep, hp, hw, ↓reduceIte]
  have h2 : step (s.goPut side .resumeOther) (.put side arg) = some
      { s.goPut side .leave with stop := Function.update s.stop side.other (v (s.stop side.other)) } := by
    simp [step_put, putStep, State.goPut]
  have h3 : ∃ u, step { s.goPut side .leave with
      stop := Function.update s.stop side.other (v (s.stop side.other)) } (.put side.other arg) = some u ∧
        u.put side = .leave ∧ u.put side.other = .clearWait := by
    simp [step_put, putStep, State.goPut, Function.update_of_ne hne, Function.update_of_ne hne.symm,
      hsusp, v, p]
  obtain ⟨u,h3,hl,hc⟩ := h3
  refine ⟨[.put side arg,.put side arg,.put side.other arg],u,?_,?_⟩
  · simp only [run, h1, h2, h3, Option.bind_some]
  · intro hs
    have he := hs.exclusive (.producer side) (.producer side.other)
    simp [State.inside, PutPC.inside, hl, hc, hne] at he

/-- B finds the buffer empty and waits; the fourth put of A resumes it and frees
the mutex as well, and the consumer enters beside it. -/
def raceSchedule : List (Thread Unit) :=
  List.replicate 5 (.put .B 'B') ++ List.replicate 44 (.put .A 'A') ++
    [.put .B 'B',.get (),.get (),.get ()]

theorem race_two_inside :
    ¬ ∀ (ks : List (Thread Unit)) (s : State Unit), run step initial ks = some s → Safe s := by
  intro h
  have hrun : (run step (initial : State Unit) raceSchedule).any (fun s =>
      s.inside (.producer .B) && s.inside (.consumer ())) = true := by decide
  obtain ⟨s,hs,hin⟩ := (Option.any_eq_true _ _).mp hrun
  rw [Bool.and_eq_true] at hin
  exact absurd ((h raceSchedule s hs).exclusive _ _ hin.1 hin.2) (by simp)

end SOI.SemaphoreBuffer

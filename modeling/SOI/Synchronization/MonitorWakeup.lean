import SOI.Synchronization.MonitorSafety
import Mathlib.Tactic.DeriveFintype

/-! # No lost wake-up in the monitor buffer

One producer of each kind and any number of consumers. A waiter that could
proceed is excused only by a thread that is going to signal it before it does
anything else, or, for consumers, by the one element already being taken.
-/
namespace SOI.MonitorBuffer
open Synchronization Runs Tally

inductive Caller (ι : Type)
  | producerA
  | producerB
  | consumer (i : ι)
  deriving DecidableEq, Fintype

def Caller.role {ι : Type} : Caller ι → Role
  | .producerA => .putA
  | .producerB => .putB
  | .consumer _ => .get

/-- Counted as a waiter of its condition and not yet resumed. -/
def PC.asleep : PC → Bool
  | .leaveToWait | .wait => true
  | _ => false

def PC.posts (c : Cond) : PC → Bool
  | .post d _ => d = c
  | _ => false

section Balance
variable {τ : Type} [Fintype τ] {role : τ → Role}

def sleepers (role : τ → Role) (m : State τ) (c : Cond) : ℕ :=
  tally (fun t pc => decide ((role t).procedure.own = c) && pc.asleep) m.pc

def posters (m : State τ) (c : Cond) : ℕ := tally (fun _ => PC.posts c) m.pc

/-- Every waiter is counted, or its token is pending, or about to be posted. -/
def Balanced (role : τ → Role) (m : State τ) : Prop :=
  ∀ c, (sleepers role m c : ℤ) = m.waitingCount c + m.w c + posters m c

variable [DecidableEq τ]

theorem Balanced.move {m m' : State τ} {pc : PC} (h : Balanced role m) (t : τ)
    (hpc : m'.pc = Function.update m.pc t pc)
    (hc : ∀ c, m'.waitingCount c + m'.w c + (pc.posts c).toNat
        - (decide ((role t).procedure.own = c) && pc.asleep).toNat =
      m.waitingCount c + m.w c + ((m.pc t).posts c).toNat
        - (decide ((role t).procedure.own = c) && (m.pc t).asleep).toNat) : Balanced role m' := by
  intro c
  have hs := tally_update (fun t pc => decide ((role t).procedure.own = c) && PC.asleep pc) m.pc t pc
  have hp := tally_update (fun _ => PC.posts c) m.pc t pc
  have hb := h c
  have he := hc c
  unfold sleepers posters at hb ⊢
  rw [hpc]
  omega

@[simp] theorem asleep_after (cs : List Cond) : (after cs).asleep = false := by
  cases cs <;> rfl

@[simp] theorem posts_after (cs : List Cond) (c : Cond) : (after cs).posts c = false := by
  cases cs <;> rfl

@[simp] theorem asleep_action (r : Role) : r.procedure.action.asleep = false := by
  cases r <;> rfl

@[simp] theorem posts_action (r : Role) (c : Cond) : r.procedure.action.posts c = false := by
  cases r <;> rfl

theorem Balanced.plain {m m' : State τ} {pc : PC} (h : Balanced role m) (t : τ)
    (hpc : m'.pc = Function.update m.pc t pc) (hcount : m'.waitingCount = m.waitingCount)
    (hw : m'.w = m.w) (hasleep : pc.asleep = (m.pc t).asleep)
    (hposts : ∀ c, pc.posts c = (m.pc t).posts c) : Balanced role m' :=
  h.move t hpc fun c => by rw [hcount, hw, hasleep, hposts c]

theorem step_balanced {m m' : State τ} {k : τ × Char} (h : Balanced role m)
    (he : step role m k = some m') : Balanced role m' := by
  obtain ⟨t,arg⟩ := k
  cases step_moves he with
  | idle hp | enter hp | push hp | front hp | erase hp | display hp | leave hp | leaveToWait hp | testHolds hp
  | testFails hp | signals hp | signalHolds hp | signalFails hp | anyWaiter hp | noWaiter hp | reenter hp =>
    refine h.plain t rfl rfl rfl ?_ fun c => ?_
    · simp only [hp, asleep_after]
      rfl
    · simp only [hp, posts_after]
      rfl
  | passes hp =>
    refine h.plain t rfl rfl rfl ?_ fun c => ?_
    · simp only [hp, asleep_action]
      rfl
    · simp only [hp, posts_action]
      rfl
  | countWaiter hp =>
    refine h.move t rfl fun c => ?_
    by_cases hc : (role t).procedure.own = c
    · subst c
      simp [hp, State.go, PC.asleep, PC.posts]
      omega
    · simp [hp, State.go, PC.asleep, PC.posts, hc, Function.update_of_ne (Ne.symm hc)]
  | wait hp hn =>
    refine h.move t rfl fun c => ?_
    rw [hp, asleep_action, posts_action]
    by_cases hc : (role t).procedure.own = c
    · subst c
      simp [State.go, PC.asleep, PC.posts, hn]
      omega
    · simp [State.go, PC.posts, hc, Function.update_of_ne (Ne.symm hc)]
  | @uncount c rest hp =>
    refine h.move t rfl fun d => ?_
    by_cases hd : c = d
    · subst d
      simp [hp, State.go, PC.asleep, PC.posts]
      omega
    · simp [hp, State.go, PC.asleep, PC.posts, hd, Function.update_of_ne (Ne.symm hd)]
  | @post c rest hp =>
    refine h.move t rfl fun d => ?_
    by_cases hd : c = d
    · subst d
      simp [hp, State.go, PC.asleep, PC.posts, v]
      omega
    · simp [hp, State.go, PC.asleep, PC.posts, hd, Function.update_of_ne (Ne.symm hd)]

end Balance

def Next (size : ℕ) (c : Cond) : List Cond → Prop
  | [] => False
  | d :: rest => c = d ∨ ((can d).passes size = false ∧ Next size c rest)

/-- A thread at this point signals `c`, or is taking the element a consumer was
woken for, before any other thread can act. -/
def Excuse (r : Role) (size : ℕ) (c : Cond) : PC → Prop
  | .display => Next size c r.procedure.signals
  | .testSignal d _ rest => Next size c (d :: rest)
  | .testCount d _ | .uncount d _ => c = d
  | .post d _ => c = .C ∧ d = .C
  | .front | .erase => c = .C
  | _ => False

/-- Some waiter of `c` has not been signalled although the guard of `c` is true. -/
def Lost {τ : Type} (m : State τ) (c : Cond) : Prop :=
  0 < m.waitingCount c ∧ (can c).passes m.values.length = true

def Excused {τ : Type} (role : τ → Role) (m : State τ) (c : Cond) : Prop :=
  (c = .C → m.values.length = 1) ∧
    ((∃ t, Excuse (role t) m.values.length c (m.pc t)) ∨ (c = .C ∧ 0 < m.w .C))

theorem Excuse.active {r : Role} {size : ℕ} {c : Cond} {pc : PC} (h : Excuse r size c pc) :
    pc.active = true := by
  cases pc <;> simp_all [Excuse, PC.active]

theorem excuse_after {r : Role} {size : ℕ} {c : Cond} {cs : List Cond} :
    Excuse r size c (after cs) ↔ Next size c cs := by
  cases cs <;> rfl

section Wakeup
variable {ι : Type} [Fintype ι]

structure Wake (m : State (Caller ι)) : Prop where
  inv : Inv Caller.role m
  balanced : Balanced Caller.role m
  nonneg : ∀ c, 0 ≤ m.waitingCount c
  pending : ∀ t c rest, m.pc t = .uncount c rest → 0 < m.waitingCount c
  excused : ∀ c, Lost m c → Excused Caller.role m c

theorem wake_initial : Wake (initial : State (Caller ι)) := by
  refine ⟨inv_initial,?_,fun _ => le_rfl,by simp [initial],?_⟩
  · intro c
    have hs : sleepers Caller.role (initial : State (Caller ι)) c = 0 :=
      tally_eq_zero.mpr fun t => by simp [initial, PC.asleep]
    have hp : posters (initial : State (Caller ι)) c = 0 := tally_eq_zero.mpr fun _ => rfl
    rw [hs, hp]
    rfl
  · intro c hl
    exact absurd hl.1 (lt_irrefl _)

/-- With the monitor free nobody is active and no token is pending, so nothing
excuses a waiter. -/
theorem Wake.not_lost {m : State (Caller ι)} (h : Wake m) (hs : 0 < m.s) (c : Cond) : ¬ Lost m c := by
  intro hl
  have hu := h.inv.units_eq
  unfold units at hu
  rcases (h.excused c hl).2 with ⟨t,ht⟩ | ⟨-,hw⟩
  · have := (h.inv.alone ht.active).1
    omega
  · omega

theorem Wake.excuse_of_active {m : State (Caller ι)} (h : Wake m) {t : Caller ι} {pc : PC}
    (hp : m.pc t = pc) (ha : pc.active = true) {c : Cond} (hl : Lost m c) :
    (c = .C → m.values.length = 1) ∧ Excuse t.role m.values.length c pc := by
  obtain ⟨hsize,hex⟩ := h.excused c hl
  refine ⟨hsize,?_⟩
  subst hp
  obtain ⟨-,hw,hother⟩ := h.inv.alone ha
  rcases hex with ⟨u,hu⟩ | ⟨-,hpos⟩
  · by_cases hut : u = t
    · exact hut ▸ hu
    · exact absurd hu.active (by simp [hother u hut])
  · exact absurd (hw .C) (by omega)

theorem Wake.count_zero {m : State (Caller ι)} (h : Wake m) {t : Caller ι} {c : Cond}
    (hc : c ≠ .C) (ht : t.role.procedure.own = c) (hawake : (m.pc t).asleep = false) :
    m.waitingCount c = 0 := by
  have hzero : sleepers Caller.role m c = 0 := by
    refine tally_eq_zero.mpr fun u => ?_
    by_cases hu : u.role.procedure.own = c
    · have hut : u = t := by
        subst hu
        cases t <;> cases u <;> first | rfl | exact absurd rfl hc | cases ht
      simp [hut, hawake]
    · simp [hu]
  have hb := h.balanced c
  have hn := h.nonneg c
  omega

theorem sleepers_le_one (m : State (Caller ι)) {c : Cond} (hc : c ≠ .C) :
    sleepers Caller.role m c ≤ 1 := by
  refine tally_le_one fun t u ht hu => ?_
  simp only [Bool.and_eq_true, decide_eq_true_eq] at ht hu
  obtain ⟨ht,-⟩ := ht
  obtain ⟨hu,-⟩ := hu
  subst ht
  cases t <;> cases u <;> first | rfl | exact absurd rfl hc | cases hu

variable [DecidableEq ι]

/-- A step of the active thread keeps the invariant when that thread, or a token
it has just posted, excuses every waiter that could now proceed. -/
theorem Wake.move {m m' : State (Caller ι)} {t : Caller ι} {arg : Char} {pc : PC} (h : Wake m)
    (he : step Caller.role m (t,arg) = some m') (ht : (m.pc t).active = true)
    (hpc : m'.pc = Function.update m.pc t pc) (hnonneg : ∀ c, 0 ≤ m'.waitingCount c)
    (hpend : ∀ c rest, pc = .uncount c rest → 0 < m'.waitingCount c)
    (hex : ∀ c, Lost m' c → (c = .C → m'.values.length = 1) ∧
      (Excuse t.role m'.values.length c pc ∨ (c = .C ∧ 0 < m'.w .C))) : Wake m' := by
  refine ⟨step_inv h.inv he,step_balanced h.balanced he,hnonneg,?_,?_⟩
  · intro u c rest hu
    rw [hpc] at hu
    by_cases hut : u = t
    · subst u
      rw [Function.update_self] at hu
      exact hpend c rest hu
    · rw [Function.update_of_ne hut] at hu
      have hout := (h.inv.alone ht).2.2 u hut
      rw [hu] at hout
      cases hout
  · intro c hl
    obtain ⟨hsize,hor⟩ := hex c hl
    refine ⟨hsize,hor.imp_left fun hx => ⟨t,?_⟩⟩
    rw [hpc, Function.update_self]
    exact hx

/-- A step of the active thread that leaves the buffer and the counters alone. -/
theorem Wake.plain {m m' : State (Caller ι)} {t : Caller ι} {arg : Char} {pc pc' : PC} (h : Wake m)
    (he : step Caller.role m (t,arg) = some m') (hp : m.pc t = pc) (ha : pc.active = true)
    (hpc : m'.pc = Function.update m.pc t pc') (hcount : m'.waitingCount = m.waitingCount)
    (hvalues : m'.values = m.values)
    (hpend : ∀ c rest, pc' = .uncount c rest → 0 < m.waitingCount c)
    (hex : ∀ c, Lost m c → Excuse t.role m.values.length c pc →
      Excuse t.role m.values.length c pc' ∨ (c = .C ∧ 0 < m'.w .C)) : Wake m' := by
  refine h.move he (hp ▸ ha) hpc (hcount ▸ h.nonneg) (hcount ▸ hpend) fun c hl => ?_
  have hl' : Lost m c := by rwa [Lost, hcount, hvalues] at hl
  obtain ⟨hsize,hx⟩ := h.excuse_of_active hp ha hl'
  rw [hvalues]
  exact ⟨hsize,hex c hl' hx⟩

/-- A step of an inactive thread changes neither the buffer nor the counters. -/
theorem Wake.arrive {m m' : State (Caller ι)} {t : Caller ι} {arg : Char} {pc : PC} (h : Wake m)
    (he : step Caller.role m (t,arg) = some m') (hpc : m'.pc = Function.update m.pc t pc)
    (hcount : m'.waitingCount = m.waitingCount) (hvalues : m'.values = m.values)
    (hpend : ∀ c rest, pc ≠ .uncount c rest)
    (hex : ∀ c, Lost m c → Excused Caller.role m' c) : Wake m' := by
  refine ⟨step_inv h.inv he,step_balanced h.balanced he,hcount ▸ h.nonneg,?_,?_⟩
  · intro u c rest hu
    rw [hpc] at hu
    by_cases hut : u = t
    · subst u
      rw [Function.update_self] at hu
      exact absurd hu (hpend c rest)
    · rw [Function.update_of_ne hut] at hu
      rw [hcount]
      exact h.pending u c rest hu
  · intro c hl
    exact hex c (by rwa [Lost, hcount, hvalues] at hl)

omit [Fintype ι] in
theorem Excused.keep {m m' : State (Caller ι)} {t : Caller ι} {pc : PC} {c : Cond}
    (h : Excused Caller.role m c) (ht : (m.pc t).active = false)
    (hpc : m'.pc = Function.update m.pc t pc) (hvalues : m'.values = m.values) (hw : m'.w = m.w) :
    Excused Caller.role m' c := by
  refine ⟨hvalues ▸ h.1,?_⟩
  rw [hvalues, hw]
  refine h.2.imp_left fun ⟨u,hu⟩ => ⟨u,?_⟩
  have hut : u ≠ t := by
    rintro rfl
    rw [hu.active] at ht
    cases ht
  rw [hpc, Function.update_of_ne hut]
  exact hu

/-- A push by `putA` can let the other producer on, or the consumers when the
buffer was empty; it tests both, in this order. -/
theorem next_of_push {n : ℕ} {c : Cond} {r : Role} (hr : r ≠ .get)
    (hroom : (can r.procedure.own).passes n = true) (hc : (can c).passes (n + 1) = true)
    (hown : c ≠ r.procedure.own) (hnew : (can c).passes n = false) :
    (c = .C → n + 1 = 1) ∧ Next (n + 1) c r.procedure.signals := by
  cases r with
  | get => exact absurd rfl hr
  | putA =>
    have hn := (passes_canA n).mp hroom
    cases c with
    | A => exact absurd rfl hown
    | B => exact ⟨by simp,Or.inl rfl⟩
    | C =>
      have hzero : n = 0 := by simpa [can, Guard.passes, canCons, Comparison.holds] using hnew
      subst n
      exact ⟨fun _ => rfl,Or.inr ⟨by decide,Or.inl rfl⟩⟩
  | putB =>
    have hn := (passes_canB n).mp hroom
    cases c with
    | A =>
      have hlt := (passes_canA (n + 1)).mp hc
      omega
    | B => exact absurd rfl hown
    | C =>
      have hzero : n = 0 := by simpa [can, Guard.passes, canCons, Comparison.holds] using hnew
      omega

/-- Taking an element makes a producer's guard true only at one size each, and
`get` then reaches the signal of that producer. -/
theorem next_of_erase {n : ℕ} {c : Cond} (hC : c ≠ .C) (hc : (can c).passes n = true)
    (hnew : (can c).passes (n + 1) = false) : Next n c Role.get.procedure.signals := by
  cases c with
  | A => exact Or.inl rfl
  | B =>
    obtain ⟨hlow,hhigh⟩ := (passes_canB n).mp hc
    have hsize : n = 8 := by
      by_contra hne
      have : (can Cond.B).passes (n + 1) = true :=
        (passes_canB (n + 1)).mpr ⟨by omega,by unfold BUFFER_SIZE at *; omega⟩
      rw [this] at hnew
      cases hnew
    subst n
    exact Or.inr ⟨by decide,Or.inl rfl⟩
  | C => exact absurd rfl hC

theorem Wake.wait {m m' : State (Caller ι)} {t : Caller ι} {arg : Char} (h : Wake m)
    (hp : m.pc t = .wait) (he : step Caller.role m (t,arg) = some m') : Wake m' := by
  have he' := he
  simp only [step, hp, Option.map_eq_some_iff, p_eq_some] at he'
  obtain ⟨n,hn,rfl⟩ := he'
  have hact := h.inv.quiet (show 0 < m.w t.role.procedure.own by omega)
  refine h.arrive he rfl rfl rfl (by cases t <;> simp [Caller.role, Role.procedure, putA, putB, get])
    fun c hl => ?_
  obtain ⟨hsize,⟨u,hu⟩ | ⟨rfl,hw⟩⟩ := h.excused c hl
  · exact absurd hu.active (by simp [hact u])
  -- the pending token is the consumer's, and the one element is now being taken
  refine ⟨hsize,Or.inl ⟨t,?_⟩⟩
  have hu := h.inv.units_eq
  unfold units at hu
  cases t with
  | producerA => simp only [Caller.role, Role.procedure, putA] at hn; omega
  | producerB => simp only [Caller.role, Role.procedure, putB] at hn; omega
  | consumer i => simp [State.go, Caller.role, Role.procedure, get, Excuse]

theorem Wake.push {m m' : State (Caller ι)} {t : Caller ι} {arg : Char} (h : Wake m)
    (hp : m.pc t = .push) (he : step Caller.role m (t,arg) = some m') : Wake m' := by
  have hact : (m.pc t).active = true := by rw [hp]; rfl
  have hat := h.inv.at_pc t
  rw [hp] at hat
  have he' := he
  simp only [step, hp] at he'
  cases he'
  refine h.move he hact rfl h.nonneg (by simp) fun c hl => ?_
  obtain ⟨hcount,hpass⟩ := hl
  have hsize : (m.values ++ [m.value t]).length = m.values.length + 1 := by simp
  simp only [hsize] at hpass ⊢
  have hown : c ≠ t.role.procedure.own := by
    rintro rfl
    have hne : t.role.procedure.own ≠ .C := by cases t <;> simp_all [Caller.role, At, Role.procedure, putA, putB]
    have hz := h.count_zero hne rfl (by rw [hp]; rfl)
    exact absurd hcount (by simp [State.go, hz])
  have hnew : (can c).passes m.values.length = false := by
    by_contra hlost
    exact (h.excuse_of_active hp rfl ⟨hcount,by simpa using hlost⟩).2
  obtain ⟨hone,hnext⟩ := next_of_push hat.2 hat.1 hpass hown hnew
  exact ⟨hone,Or.inl hnext⟩

theorem Wake.erase {m m' : State (Caller ι)} {t : Caller ι} {arg : Char} (h : Wake m)
    (hp : m.pc t = .erase) (he : step Caller.role m (t,arg) = some m') : Wake m' := by
  have hact : (m.pc t).active = true := by rw [hp]; rfl
  obtain ⟨hne,hget,-⟩ : At t.role m.values (m.front t) .erase := hp ▸ h.inv.at_pc t
  have he' := he
  simp only [step, hp] at he'
  cases he'
  refine h.move he hact rfl h.nonneg (by simp) fun c hl => ?_
  obtain ⟨hcount,hpass⟩ := hl
  obtain ⟨n,hn⟩ : ∃ n, m.values.length = n + 1 := ⟨m.values.length - 1,by omega⟩
  have hsize : m.values.tail.length = n := by simp [hn]
  simp only [hsize] at hpass ⊢
  have hlost : (can c).passes (n + 1) = true → (c = .C → n + 1 = 1) ∧ c = .C := by
    intro hpass'
    have hx := h.excuse_of_active hp rfl ⟨hcount,by rwa [hn]⟩
    rwa [hn] at hx
  have hC : c ≠ .C := by
    rintro rfl
    have hpos := (passes_canCons n).mp hpass
    have hone := (hlost ((passes_canCons (n + 1)).mpr (by omega))).1 rfl
    omega
  have hnew : (can c).passes (n + 1) = false := by
    by_contra hpass'
    exact hC (hlost (by simpa using hpass')).2
  refine ⟨fun hc => absurd hc hC,Or.inl ?_⟩
  rw [hget]
  exact next_of_erase hC hpass hnew

theorem Wake.uncount {m m' : State (Caller ι)} {t : Caller ι} {arg : Char} {c : Cond}
    {rest : List Cond} (h : Wake m) (hp : m.pc t = .uncount c rest)
    (he : step Caller.role m (t,arg) = some m') : Wake m' := by
  have hact : (m.pc t).active = true := by rw [hp]; rfl
  have hpos := h.pending t c rest hp
  have he' := he
  simp only [step, hp] at he'
  cases he'
  have hother : ∀ d, d ≠ c →
      Function.update m.waitingCount c (m.waitingCount c - 1) d = m.waitingCount d :=
    fun d hd => Function.update_of_ne hd _ _
  refine h.move he hact rfl ?_ (by simp) fun d hl => ?_
  · intro d
    by_cases hd : d = c
    · subst d; simp; omega
    · simpa only [hother d hd] using h.nonneg d
  · obtain ⟨hcount,hpass⟩ := hl
    by_cases hd : d = c
    · subst hd
      -- a second waiter of the same condition: only consumers come in numbers
      simp only [Function.update_self] at hcount
      have hx := (h.excuse_of_active hp rfl ⟨hpos,hpass⟩).1
      have hC : d = .C := by
        by_contra hne
        have hle := sleepers_le_one m hne
        have hb := h.balanced d
        omega
      exact ⟨hx,Or.inl ⟨hC,hC⟩⟩
    · simp only [hother d hd] at hcount
      exact absurd (h.excuse_of_active hp rfl ⟨hcount,hpass⟩).2 hd

theorem step_wake {m m' : State (Caller ι)} {k : Caller ι × Char} (h : Wake m)
    (he : step Caller.role m k = some m') : Wake m' := by
  obtain ⟨t,arg⟩ := k
  have hat := h.inv.at_pc t
  have hactive : ∀ {pc : PC}, m.pc t = pc → pc.active = true → (m.pc t).active = true :=
    fun hp ha => hp ▸ ha
  cases step_moves he with
  | idle hp =>
    exact h.arrive he rfl rfl rfl (by simp)
      fun c hl => (h.excused c hl).keep (by rw [hp]; rfl) rfl rfl rfl
  | enter hp hn => exact h.arrive he rfl rfl rfl (by simp) fun c hl => absurd hl (h.not_lost (by omega) c)
  | @reenter n rest hp hn =>
    exact h.arrive he rfl rfl rfl (by cases rest <;> simp [after])
      fun c hl => absurd hl (h.not_lost (by omega) c)
  | wait hp => exact h.wait hp he
  | push hp => exact h.push hp he
  | erase hp => exact h.erase hp he
  | uncount hp => exact h.uncount hp he
  | passes hp =>
    refine h.plain he hp rfl rfl rfl rfl ?_ fun c _ hx => hx.elim
    cases t <;> simp [Caller.role, Role.procedure, putA, putB, get]
  | testHolds hp | testFails hp | leaveToWait hp | leave hp =>
    exact h.plain he hp rfl rfl rfl rfl (by simp) fun c _ hx => hx.elim
  | countWaiter hp =>
    rw [hp] at hat
    refine h.move he (hactive hp rfl) rfl ?_ (by simp) fun c hl => ?_
    · intro c
      have hn := h.nonneg c
      by_cases hc : c = t.role.procedure.own
      · subst c; simp; omega
      · simpa [Function.update_of_ne hc] using hn
    · obtain ⟨hcount,hpass⟩ := hl
      by_cases hc : c = t.role.procedure.own
      · subst c
        have hfalse : (can t.role.procedure.own).passes m.values.length = false := hat
        rw [State.go] at hpass
        rw [hpass] at hfalse
        cases hfalse
      · simp only [Function.update_of_ne hc] at hcount
        exact (h.excuse_of_active hp rfl ⟨hcount,hpass⟩).2.elim
  | front hp => exact h.plain he hp rfl rfl rfl rfl (by simp) fun c _ hx => Or.inl hx
  | display hp =>
    refine h.plain he hp rfl rfl rfl rfl ?_ fun c _ hx => Or.inl ?_
    · cases t <;> simp [Caller.role, Role.procedure, putA, putB, get, after]
    · exact excuse_after.mpr hx
  | signals hp =>
    rw [hp] at hat
    refine h.plain he hp rfl rfl rfl rfl (by simp) fun d _ hx => Or.inl ?_
    rcases hx with hd | ⟨hfalse,-⟩
    · exact hd
    · rw [hat.done] at hfalse
      cases hfalse
  | signalHolds hp hx => exact h.plain he hp rfl rfl rfl rfl (by simp) fun d _ hx => Or.inl hx
  | @signalFails c x todo rest hp hxf =>
    rw [hp] at hat
    refine h.plain he hp rfl rfl rfl rfl (by cases rest <;> simp [after])
      fun d hl hx => Or.inl (excuse_after.mpr ?_)
    rcases hx with rfl | ⟨-,hnext⟩
    · have hfalse := hat.fails hxf
      rw [hl.2] at hfalse
      cases hfalse
    · exact hnext
  | @anyWaiter c rest hp hne =>
    refine h.plain he hp rfl rfl rfl rfl ?_ fun d _ hx => Or.inl hx
    rintro d ls ⟨rfl,rfl⟩
    have hn := h.nonneg c
    omega
  | @noWaiter c rest hp hzero =>
    refine h.plain he hp rfl rfl rfl rfl (by cases rest <;> simp [after]) fun d hl hx => ?_
    have hd : d = c := hx
    have hcount := hl.1
    rw [hd] at hcount
    omega
  | post hp =>
    refine h.plain he hp rfl rfl rfl rfl (by simp) fun d _ hx => Or.inr ?_
    obtain ⟨rfl,rfl⟩ := hx
    exact ⟨rfl,by simp [v]⟩

omit [DecidableEq ι] in
theorem Wake.counted {m : State (Caller ι)} (h : Wake m) (hs : m.s = 1) {t : Caller ι}
    (ht : m.pc t = .wait) : 0 < m.waitingCount t.role.procedure.own := by
  have hu := h.inv.units_eq
  unfold units at hu
  have hidle : tally (fun _ => PC.active) m.pc = 0 := by omega
  have hpost : posters m t.role.procedure.own = 0 := by
    refine tally_eq_zero.mpr fun u => ?_
    have hinactive := tally_eq_zero.mp hidle u
    cases hp : m.pc u <;> simp_all [PC.active, PC.posts]
  have hsleep : 0 < sleepers Caller.role m t.role.procedure.own :=
    tally_pos.mpr ⟨t,by simp [ht, PC.asleep]⟩
  have hb := h.balanced t.role.procedure.own
  have hw : m.w t.role.procedure.own = 0 := by
    cases t.role.procedure.own <;> omega
  omega

/-- What a waiter may be waiting for while the monitor is free. -/
structure WaitsRightly (m : State (Caller ι)) : Prop where
  onA : m.pc .producerA = .wait → 5 ≤ m.values.length
  onB : m.pc .producerB = .wait → m.values.length ≤ 3 ∨ BUFFER_SIZE ≤ m.values.length
  onC : ∀ i, m.pc (.consumer i) = .wait → m.values = []

omit [DecidableEq ι] in
theorem Wake.waitsRightly {m : State (Caller ι)} (h : Wake m) (hs : m.s = 1) : WaitsRightly m := by
  have hblocked : ∀ t, m.pc t = .wait →
      ¬ (can t.role.procedure.own).passes m.values.length = true := by
    intro t ht hpass
    exact h.not_lost (by omega) _ ⟨h.counted hs ht,hpass⟩
  refine ⟨?_,?_,?_⟩
  · intro ht
    have hb := hblocked _ ht
    rw [show can (Caller.role (.producerA : Caller ι)).procedure.own = canA from rfl, passes_canA] at hb
    omega
  · intro ht
    have hb := hblocked _ ht
    rw [show can (Caller.role (.producerB : Caller ι)).procedure.own = canB from rfl, passes_canB] at hb
    omega
  · intro i ht
    have hb := hblocked _ ht
    rw [show can (Caller.role (.consumer i)).procedure.own = canCons from rfl, passes_canCons] at hb
    exact List.length_eq_zero_iff.mp (by omega)

/-- No wake-up is lost: whenever the monitor is free, a thread sleeps only on a
condition whose guard is false, whether or not others still queue to re-enter. -/
theorem no_lost_wakeup (ks : List (Caller ι × Char)) (m : State (Caller ι))
    (hr : run (step Caller.role) initial ks = some m) (hs : m.s = 1) : WaitsRightly m :=
  (run_invariant (fun _ _ _ h he => step_wake h he) wake_initial hr).waitsRightly hs

theorem consumer_sleeps_rightly :
    ∃ m : State (Caller Unit), run (step Caller.role) initial
      (List.replicate 5 (.consumer (),'A')) = some m ∧ m.pc (.consumer ()) = .wait ∧ WaitsRightly m := by
  have hrun : (run (step Caller.role) (initial : State (Caller Unit))
      (List.replicate 5 (.consumer (),'A'))).any
        (fun m => m.s == 1 && m.pc (.consumer ()) == .wait) = true := by
    decide
  obtain ⟨m,hm,hsw⟩ := (Option.any_eq_true _ _).mp hrun
  simp only [Bool.and_eq_true, beq_iff_eq] at hsw
  exact ⟨m,hm,hsw.2,no_lost_wakeup _ m hm hsw.1⟩

end Wakeup
end SOI.MonitorBuffer

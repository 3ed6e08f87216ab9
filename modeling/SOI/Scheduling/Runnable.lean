import SOI.Scheduling.KernelView

/-! # A process is runnable iff `p_flags == 0`

The ready queues hold the runnable processes. Clearing flags is followed by `ready`
and setting flags comes after `unready`, in both cases if no flag is set.
-/
namespace SOI.Scheduling
variable {ρ : Type} [DecidableEq ρ] {c : Config ρ} {s s₁ : System ρ} {v v' : View ρ} {rp : ρ} {S : Finset ρ}

def View.alive (c : Config ρ) (v : View ρ) (rp : ρ) : Prop :=
  v.priority rp ≠ .PPRI_NONE ∧ c.isidlehardware rp = false

instance (c : Config ρ) (v : View ρ) (rp : ρ) : Decidable (v.alive c rp) :=
  inferInstanceAs (Decidable (_ ∧ _))

def View.runnable [Fintype ρ] (c : Config ρ) (v : View ρ) : Finset ρ :=
  Finset.univ.filter fun rp => v.flagless rp = true ∧ v.alive c rp

/-- The ready queues hold just the processes that may run. -/
def Ready [Fintype ρ] (c : Config ρ) (s : System ρ) : Prop := Lined s.table (s.view.runnable c)

theorem card_le_fuel [Fintype ρ] (c : Config ρ) : Fintype.card ρ ≤ c.fuel := by
  have hcard : Fintype.card ρ ≤ c.order.length := by
    rw [← Finset.card_univ, ← Finset.eq_univ_of_forall fun rp => List.mem_toFinset.mpr (c.complete rp)]
    exact List.toFinset_card_le c.order
  exact hcard.trans (Nat.le_add_right _ _)

variable [Fintype ρ]

theorem mem_runnable : rp ∈ v.runnable c ↔ v.flagless rp = true ∧ v.alive c rp := by
  simp [View.runnable]

def Elsewhere (rp : ρ) (v v' : View ρ) : Prop :=
  ∀ p, p ≠ rp → v'.flagless p = v.flagless p ∧ v'.priority p = v.priority p

theorem runnable_elsewhere (h : Elsewhere rp v v') {p : ρ} (hp : p ≠ rp) : p ∈ v'.runnable c ↔ p ∈ v.runnable c := by
  rw [mem_runnable, mem_runnable, View.alive, View.alive, (h p hp).1, (h p hp).2]

theorem runnable_erase_of_notMem (h : Elsewhere rp v v') (hout : rp ∉ v'.runnable c) :
    v'.runnable c = (v.runnable c).erase rp := by
  ext p
  rw [Finset.mem_erase]
  by_cases hp : p = rp
  · subst hp
    exact iff_of_false hout fun hmem => hmem.1 rfl
  · rw [runnable_elsewhere h hp]
    exact ⟨fun hmem => ⟨hp,hmem⟩,And.right⟩

theorem runnable_erase (h : Elsewhere rp v v') (hflag : v'.flagless rp = false) :
    v'.runnable c = (v.runnable c).erase rp :=
  runnable_erase_of_notMem h fun hmem => Bool.noConfusion (hflag.symm.trans (mem_runnable.mp hmem).1)

theorem runnable_insert (h : Elsewhere rp v v') (halive : v'.alive c rp) (hrp : rp ∉ v.runnable c) :
    v'.runnable c = if v'.flagless rp then insert rp (v.runnable c) else v.runnable c := by
  ext p
  by_cases hp : p = rp
  · subst hp
    rw [mem_runnable]
    by_cases hflag : v'.flagless p = true
    · simp [hflag, halive]
    · simp [hflag, hrp]
  · rw [runnable_elsewhere h hp]
    split
    · rw [Finset.mem_insert, or_iff_right hp]
    · rfl

theorem runnable_congr (hflag : v'.flagless = v.flagless) (hpriority : v'.priority = v.priority) :
    v'.runnable c = v.runnable c := by
  ext p
  rw [mem_runnable, mem_runnable, View.alive, View.alive, hflag, hpriority]

omit [Fintype ρ] in
theorem Lined.setFlags (h : Lined s.table S) (rp : ρ) (f : Flags → Flags) : Lined (s.setFlags rp f).table S :=
  h.setProc (f := fun p => { p with p_flags := f p.p_flags }) (fun _ => rfl) (fun _ => rfl) (h.queues.groups rp) (h.guards rp)

/-- `if (rp->p_flags == 0) ready(rp);` -/
theorem wake {f : Table ρ → Option (Table ρ)} (hlined : Lined s.table S) (hrp : rp ∉ S)
    (hf : ∀ t S, Lined t S → rp ∉ S → ∃ t', f t = some t' ∧ Lined t' (insert rp S) ∧ Readied c.slots rp t t')
    (hS : s.view.runnable c = if s.view.flagless rp then insert rp S else S) :
    ∃ t, s.whenRunnable rp f = some (s.withTable t) ∧ (s.withTable t).view = s.view ∧ Ready c (s.withTable t) ∧
      Readied c.slots rp s.table t := by
  rw [System.whenRunnable]
  by_cases hflag : s.flags rp = {}
  · obtain ⟨t,hready,hlined',hreadied⟩ := hf _ _ hlined hrp
    have hview := view_withTable hreadied.same
    refine ⟨t,by rw [if_pos hflag, System.onTable, hready]; rfl,hview,?_,hreadied⟩
    rw [Ready, hview, hS, if_pos ((flags_eq_iff s rp).mp hflag)]
    exact hlined'
  · refine ⟨s.table,by rw [if_neg hflag]; rfl,rfl,?_,Readied.refl _ _ _⟩
    rw [if_neg fun h => hflag ((flags_eq_iff s rp).mpr h)] at hS
    rw [Ready, show (s.withTable s.table).view = s.view from rfl, hS]
    exact hlined

/-- `if (rp->p_flags == 0) unready(rp);` -/
theorem sleep {f : Table ρ → Option (Table ρ)} (h : Ready c s)
    (hf : ∀ t S, Lined t S → ∃ t', f t = some t' ∧ Lined t' (S.erase rp) ∧ Unreadied c.slots rp t t') :
    ∃ t, s.whenRunnable rp f = some (s.withTable t) ∧ (s.withTable t).view = s.view ∧
      Lined t ((s.view.runnable c).erase rp) ∧ (s.flags rp = {} ∧ Unreadied c.slots rp s.table t ∨
        s.flags rp ≠ {} ∧ t = s.table) := by
  rw [System.whenRunnable]
  by_cases hflag : s.flags rp = {}
  · obtain ⟨t,hunready,hlined,hun⟩ := hf _ _ h
    exact ⟨t,by rw [if_pos hflag, System.onTable, hunready]; rfl,view_withTable hun.same,hlined,Or.inl ⟨hflag,hun⟩⟩
  · refine ⟨s.table,by rw [if_neg hflag]; rfl,rfl,?_,Or.inr ⟨hflag,rfl⟩⟩
    rw [Finset.erase_eq_of_notMem]
    · exact h
    · intro hmem
      exact hflag ((flags_eq_iff s rp).mpr (mem_runnable.mp hmem).1)

end SOI.Scheduling

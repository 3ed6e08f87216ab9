import SOI.Scheduling.Lifecycle

/-! # Starting the kernel

`main` fills in the slots of the boot image one after the other. What holds between
the entries of the kernel holds when it lets the first process run, and so after
every run of legal entries.
-/
namespace SOI.Scheduling
open Linked Parents Rendezvous Runs
variable {ρ : Type} [DecidableEq ρ] [Fintype ρ] {c : Config ρ} {s s₀ : System ρ} {t t' : Table ρ} {r : Mailbox ρ}
  {p rp : ρ} {front xs : List ρ} {ops : List (KernelOp ρ)}

/-- The slots that `main` has come to. -/
structure Booted (c : Config ρ) (front : List ρ) (t : Table ρ) : Prop where
  lined : Lined t (Finset.univ.filter fun p => p ∈ front ∧ c.isidlehardware p = false)
  fields : ∀ p, { t.proc p with p_nextready := none } =
    ({ p_priority := if p ∈ front then c.bootPriority p else .PPRI_NONE } : Proc ρ)
  switching : t.switching = false

omit [DecidableEq ρ] [Fintype ρ] in
theorem cleared_onQueue (t : Table ρ) (q : Queue) (hnone : t.rdy_head q = none) : OnQueue t q [] :=
  ⟨hnone,fun _ hx => nomatch hx⟩

theorem booted_nil (c : Config ρ) :
    Booted c [] { proc := fun _ => {}, proc_ptr := c.slots.IDLE, bill_ptr := c.slots.IDLE } := by
  refine ⟨⟨⟨fun q => ⟨[],cleared_onQueue _ q rfl,fun p => ?_⟩,fun p => ⟨le_refl _,by simp⟩⟩,fun p => rfl⟩,fun p => ?_,rfl⟩
  · simp
  · simp

theorem Booted.step (h : Booted c front t) (hrp : rp ∉ front) :
    ∃ t', c.bootSlot t rp = some t' ∧ Booted c (front ++ [rp]) t' := by
  let S : Finset ρ := Finset.univ.filter fun p => p ∈ front ∧ c.isidlehardware p = false
  have hfresh : rp ∉ S := by
    intro hmem
    exact hrp (Finset.mem_filter.mp hmem).2.1
  let t₁ := t.setProc rp fun p => { p with p_priority := c.bootPriority rp }
  have hlined₁ : Lined t₁ S :=
    h.lined.setProc (f := fun p => { p with p_priority := c.bootPriority rp }) (fun _ => rfl) (fun hmem => absurd hmem hfresh)
      (h.lined.queues.groups rp) (h.lined.guards rp)
  have hfields₁ : ∀ p, { t₁.proc p with p_nextready := none } =
      ({ p_priority := if p ∈ front ++ [rp] then c.bootPriority p else .PPRI_NONE } : Proc ρ) := by
    intro p
    by_cases hp : p = rp
    · have hrow := h.fields rp
      rw [hp, proc_setProc_self]
      rw [if_neg hrp] at hrow
      have hclass := congrArg (fun x : Proc ρ => { x with p_priority := c.bootPriority rp }) hrow
      simpa using hclass
    · rw [proc_setProc_of_ne _ hp, h.fields p]
      simp [hp]
  have hset : (Finset.univ.filter fun p => p ∈ front ++ [rp] ∧ c.isidlehardware p = false) =
      if c.isidlehardware rp = false then insert rp S else S := by
    ext p
    by_cases hp : p = rp
    · subst hp
      cases hih : c.isidlehardware p <;> simp [S, hih]
    · split <;> simp [S, hp]
  obtain ⟨t₂,hrun,hlined₂,hsame,hswitch⟩ : ∃ t₂, (if !c.isidlehardware rp then lock_ready t₁ rp else some t₁) = some t₂ ∧
      Lined t₂ (Finset.univ.filter fun p => p ∈ front ++ [rp] ∧ c.isidlehardware p = false) ∧ SameFields t₁ t₂ ∧
      t₂.switching = false := by
    rw [hset]
    cases hih : c.isidlehardware rp with
    | true => exact ⟨t₁,rfl,hlined₁,SameFields.refl t₁,h.switching⟩
    | false =>
      obtain ⟨t₂,hready,hlined₂,hreadied⟩ := lock_ready_spec c.slots hlined₁ hfresh
      exact ⟨t₂,hready,hlined₂,hreadied.same,hreadied.switching h.switching⟩
  refine ⟨t₂.setProc rp fun p => { p with p_flags := {} },?_,?_,fun p => ?_,hswitch⟩
  · rw [Config.bootSlot]
    rw [show (if (!c.isidlehardware rp) = true then lock_ready _ rp else some _) = some t₂ from hrun]
    rfl
  · exact hlined₂.setField rp (f := fun p => { p with p_flags := {} }) (fun _ => rfl) (fun _ => rfl) (fun _ => rfl) fun _ => rfl
  · rw [← hfields₁ p, ← hsame p]
    by_cases hp : p = rp
    · subst hp
      rw [proc_setProc_self]
      have hflags : (t₂.proc p).p_flags = {} := by
        have hrow := congrArg Proc.p_flags ((hsame p).trans (hfields₁ p))
        exact hrow
      rw [← hflags]
    · rw [proc_setProc_of_ne _ hp]

theorem Booted.fold (h : Booted c front t) (xs : List ρ) (hnd : (front ++ xs).Nodup) :
    ∃ t', xs.foldlM c.bootSlot t = some t' ∧ Booted c (front ++ xs) t' := by
  induction xs generalizing front t with
  | nil => exact ⟨t,rfl,by rwa [List.append_nil]⟩
  | cons x xs ih =>
    rw [List.append_cons] at hnd
    have hx : x ∉ front := by
      intro hmem
      have hfront := (List.nodup_append.mp hnd).1
      exact (List.nodup_append.mp hfront).2.2 x hmem x (by simp) rfl
    obtain ⟨t₁,hstep,hbooted⟩ := h.step hx
    obtain ⟨t',hfold,hbooted'⟩ := ih hbooted hnd
    refine ⟨t',?_,by rw [List.append_cons]; exact hbooted'⟩
    rw [List.foldlM_cons, hstep]
    exact hfold

omit [Fintype ρ] in
theorem p_nr_neg (c : Config ρ) (rp : ρ) : c.p_nr rp < 0 ↔ rp ∉ c.servers := by
  rw [mem_servers, Config.p_nr]
  omega

omit [Fintype ρ] in
theorem mem_image (c : Config ρ) (rp : ρ) :
    rp ∈ c.order.take (c.NR_TASKS + c.LOW_USER + 1) ↔ c.order.idxOf rp < c.NR_TASKS + c.LOW_USER + 1 := by
  have hlt := List.idxOf_lt_length_of_mem (c.complete rp)
  rw [List.mem_take_iff_getElem]
  constructor
  · rintro ⟨i,hi,hget⟩
    have hidx := c.nodup.idxOf_getElem i (by omega)
    rw [hget] at hidx
    omega
  · intro h
    exact ⟨c.order.idxOf rp,by omega,List.getElem_idxOf hlt⟩

theorem main_steady (c : Config ρ) (quants : Fin 3 → ℤ) (e_hdr : ρ → MemMap) (memory : ρ → ℕ → Letter ρ)
    (hmap : c.outside (e_hdr c.slots.HARDWARE) c.m = false) :
    ∃ s₀, main c quants e_hdr memory = some s₀ ∧ Steady c s₀ State.initial := by
  let image := c.order.take (c.NR_TASKS + c.LOW_USER + 1)
  obtain ⟨t,hfold,hbooted⟩ := (booted_nil c).fold image (by
    rw [List.nil_append]
    exact (List.take_sublist _ _).nodup c.nodup)
  rw [List.nil_append] at hbooted
  let t₁ := t.setProc c.INIT_PROC_NR fun p => { p with p_pid := 1 }
  let t₂ := t₁.setProc c.slots.IDLE fun p => { p with p_priority := .PPRI_IDLE }
  let t₃ := lock_pick_proc c.slots t₂
  let s₀ : System ρ := {
    kernel := { table := t₃, quants := quants, sched_ticks := 0 }
    post := fun rp => { p_sendto := c.MM_PROC_NR, p_map := e_hdr rp }
    memory := memory }
  have hproc : t₃.proc = t₂.proc := proc_pick_proc c.slots _
  have hrow : ∀ {α : Type} (field : Proc ρ → α) (_ : ∀ x, field { x with p_nextready := none } = field x)
      (_ : ∀ x, field { x with p_pid := 1 } = field x) (_ : ∀ x, field { x with p_priority := .PPRI_IDLE } = field x) p,
      field (t₃.proc p) = field ({ p_priority := if p ∈ image then c.bootPriority p else .PPRI_NONE } : Proc ρ) := by
    intro α field hnext hpid hidle p
    have h₁ : field (t₁.proc p) = field (t.proc p) := kept_setProc (f := fun p => { p with p_pid := 1 }) field (hpid _)
    have h₂ : field (t₂.proc p) = field (t₁.proc p) :=
      kept_setProc (f := fun p => { p with p_priority := .PPRI_IDLE }) field (hidle _)
    rw [hproc, h₂, h₁, ← hnext, hbooted.fields]
  have hpriority : ∀ p, (t₃.proc p).p_priority =
      if p = c.slots.IDLE then .PPRI_IDLE else if p ∈ image then c.bootPriority p else .PPRI_NONE := by
    intro p
    have h₁ : ∀ p, (t₁.proc p).p_priority = (t.proc p).p_priority := fun p =>
      kept_setProc (f := fun p => { p with p_pid := 1 }) Proc.p_priority rfl
    rw [hproc]
    by_cases hp : p = c.slots.IDLE
    · rw [if_pos hp, hp, proc_setProc_self]
    · rw [if_neg hp, proc_setProc_of_ne _ hp, h₁]
      exact congrArg Proc.p_priority (hbooted.fields p)
  have hflags : ∀ p, (t₃.proc p).p_flags = {} := hrow Proc.p_flags (fun _ => rfl) (fun _ => rfl) fun _ => rfl
  have hheld : ∀ p, (t₃.proc p).p_int_held = false := hrow Proc.p_int_held (fun _ => rfl) (fun _ => rfl) fun _ => rfl
  have hblocked : ∀ p, (t₃.proc p).p_int_blocked = false := hrow Proc.p_int_blocked (fun _ => rfl) (fun _ => rfl) fun _ => rfl
  have hS : ∀ p, s₀.view.SENDING p = false := fun p => congrArg Flags.SENDING (hflags p)
  have hR : ∀ p, s₀.view.RECEIVING p = false := fun p => congrArg Flags.RECEIVING (hflags p)
  have hP : ∀ p, s₀.view.PENDING p = false := fun p => congrArg Flags.PENDING (hflags p)
  have hflagless : ∀ p, s₀.view.flagless p = true := fun p => (flags_eq_iff s₀ p).mp (hflags p)
  have himage : ∀ p, p ∉ c.servers → p ∈ image := by
    intro p hp
    rw [mem_servers] at hp
    exact (mem_image c p).mpr (by omega)
  have hserver : ∀ p, c.NR_TASKS ≤ c.order.idxOf p → c.order.idxOf p < c.NR_TASKS + c.LOW_USER →
      s₀.view.priority p = .PPRI_SERVER := by
    intro p hle hlt
    have hp : p ∈ c.servers := (mem_servers c p).mpr hle
    have hidle : p ≠ c.slots.IDLE := by
      rintro rfl
      exact absurd c.IDLE_lt (by omega)
    refine (hpriority p).trans ?_
    rw [if_neg hidle, if_pos ((mem_image c p).mpr (by omega)), Config.bootPriority,
      if_neg (fun hno => (p_nr_neg c p).mp hno hp), if_pos]
    rw [Config.p_nr]
    omega
  refine ⟨s₀,by rw [main, hfold]; rfl,Facts.steady ⟨?_,?_,?_,?_,?_,?_⟩ ?_ rfl ?_⟩
  · refine ⟨?_,?_,⟨fun d => rfl,fun k l x hx => absurd hx List.not_mem_nil⟩,fun d x hx => absurd hx List.not_mem_nil,.refl _⟩
    · funext p
      rw [hS]
      rfl
    · funext p
      rw [hR]
      rfl
  · refine ⟨?_,fun p hp hpi => ?_,fun p hp => ?_,hserver _ c.MM_le c.MM_lt,hserver _ c.FS_le c.FS_lt,fun p _ => ?_,
      fun p _ => hflagless p,fun p hp => ?_,fun p hp => ?_,hmap⟩
    · exact (hpriority _).trans (if_pos rfl)
    · refine (hpriority p).trans ?_
      rw [if_neg hpi, if_pos (himage p hp), Config.bootPriority, if_pos ((p_nr_neg c p).mpr hp)]
    · have hidle : p ≠ c.slots.IDLE := by
        rintro rfl
        exact absurd c.IDLE_lt (Nat.not_lt.mpr ((mem_servers c _).mp hp))
      have hclass : s₀.view.priority p = _ := hpriority p
      rw [hclass, if_neg hidle, Config.bootPriority, if_neg fun hno => (p_nr_neg c p).mp hno hp]
      split
      · split <;> simp
      · simp
    · have hf := (flagless_iff _ _).mp (hflagless p)
      exact ⟨hf.1,hf.2.2.2.1,hf.2.2.2.2.1,hf.2.2.2.2.2⟩
    · rw [hS] at hp
      cases hp
    · rw [show s₀.view.int_held p = false from hheld p, show s₀.view.int_blocked p = false from hblocked p] at hp
      rcases hp with hp | hp <;> cases hp
  · refine ⟨fun p hp => ?_,fun p _ hp => ?_,fun p hp => ?_,fun p => ?_⟩
    · rw [hS] at hp
      cases hp
    · rw [hR] at hp
      cases hp
    · cases hp
    · rw [show s₀.view.int_held p = false from hheld p, show s₀.view.int_blocked p = false from hblocked p]
      simp [s₀, System.view]
  · refine ⟨[],rfl,⟨by simp,fun p => ?_⟩⟩
    rw [show s₀.view.int_held p = false from hheld p]
    simp
  · refine ⟨fun p => ?_,fun p => ?_,fun p => ?_,?_,fun p hp => ?_⟩
    · rw [hP]
      simp [s₀, System.view]
    · rw [show s₀.view.SIG_PENDING p = false from congrArg Flags.SIG_PENDING (hflags p)]
      simp [s₀, System.view]
    · simp [s₀, System.view, signals_zero]
    · rw [Finset.filter_false_of_mem fun p _ => by rw [hP]; simp]
      rfl
    · rw [hP] at hp
      cases hp
  · intro hmm
    rw [hR] at hmm
    cases hmm
  · have hrunnable : s₀.view.runnable c = Finset.univ.filter fun p => p ∈ image ∧ c.isidlehardware p = false := by
      ext p
      rw [mem_runnable, Finset.mem_filter, hflagless]
      simp only [Finset.mem_univ, true_and, View.alive]
      refine and_congr_left fun hih => ?_
      have hidle : p ≠ c.slots.IDLE := by
        rintro rfl
        simp [Config.isidlehardware] at hih
      have hclass : s₀.view.priority p = _ := hpriority p
      rw [hclass, if_neg hidle]
      by_cases hp : p ∈ image
      · refine iff_of_true ?_ hp
        rw [if_pos hp, Config.bootPriority]
        split
        · simp
        · split <;> simp
      · refine iff_of_false ?_ hp
        rw [if_neg hp]
        simp
    have hidle : c.slots.IDLE ∉ Finset.univ.filter fun p => p ∈ image ∧ c.isidlehardware p = false := by
      simp [Config.isidlehardware]
    have hlined₁ : Lined t₁ (Finset.univ.filter fun p => p ∈ image ∧ c.isidlehardware p = false) :=
      hbooted.lined.setField _ (f := fun p => { p with p_pid := 1 }) (fun _ => rfl) (fun _ => rfl) (fun _ => rfl) fun _ => rfl
    have hlined₂ : Lined t₂ (Finset.univ.filter fun p => p ∈ image ∧ c.isidlehardware p = false) :=
      hlined₁.setProc (f := fun p => { p with p_priority := .PPRI_IDLE }) (fun _ => rfl) (fun hmem => absurd hmem hidle)
        (hlined₁.queues.groups _) (hlined₁.guards _)
    rw [Ready, hrunnable]
    exact hlined₂.pick c.slots
  · exact (picked_pick_proc c.slots _).congr rfl rfl

/-- What holds between the entries of the kernel holds after every run of legal entries. -/
theorem Steady.run (h : Steady c s r) (hlegal : Meets (kernelStep c) (Legal c) s ops) :
    ∃ s' r', run (kernelStep c) s ops = some s' ∧ Steady c s' r' := by
  obtain ⟨s',hrun,r',hsteady⟩ := hlegal.progress (P := fun s => ∃ r, Steady c s r) (fun s op hs hop => by
    obtain ⟨r,hr⟩ := hs
    obtain ⟨s',r',hstep,hr'⟩ := hr.step hop
    exact ⟨s',hstep,r',hr'⟩) ⟨r,h⟩
  exact ⟨s',r',hrun,hsteady⟩

theorem booted_run {quants : Fin 3 → ℤ} {e_hdr : ρ → MemMap} {memory : ρ → ℕ → Letter ρ}
    (hboot : main c quants e_hdr memory = some s₀) (hmap : c.outside (e_hdr c.slots.HARDWARE) c.m = false)
    (hlegal : Meets (kernelStep c) (Legal c) s₀ ops) :
    ∃ s r, Runs.run (kernelStep c) s₀ ops = some s ∧ Steady c s r := by
  obtain ⟨s₁,hmain,hsteady⟩ := main_steady c quants e_hdr memory hmap
  obtain rfl : s₁ = s₀ := Option.some_injective _ (hmain.symm.trans hboot)
  exact hsteady.run hlegal

end SOI.Scheduling

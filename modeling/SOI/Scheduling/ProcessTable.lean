import SOI.Library.Runs
import SOI.Scheduling.QueueRuns

/-! # Pids in the process table

What `do_fork`, `do_xit` and `SYSSIGNON` leave in the slots that the lookup by pid
scans. A process that signs on as a server gives up its pid; one that exits
leaves it in its free slot.
-/
namespace SOI.Scheduling
open Runs
variable {ρ : Type}

structure Rest (ρ : Type) where
  retreg : ℤ := 0
  p_ldt_sel : ℕ := 0
  child_utime : ℕ := 0
  child_stime : ℕ := 0
  p_callerq : Option ρ := none
  p_sendlink : Option ρ := none
  p_pending : ℕ := 0
  p_pendcount : ℕ := 0
  p_name : String := ""
  deriving DecidableEq, Repr

/-- The whole process table, with the number of processes that have signals pending. -/
structure Processes (ρ : Type) where
  table : Table ρ
  rest : ρ → Rest ρ := fun _ => {}
  sig_procs : ℤ := 0

def isemptyp (t : Table ρ) (rp : ρ) : Bool := (t.proc rp).p_priority = .PPRI_NONE
def isuserp (t : Table ρ) (rp : ρ) : Bool := (t.proc rp).p_priority = .PPRI_USER

variable [DecidableEq ρ]

def lock_unready (slots : Slots ρ) (fuel : ℕ) (t : Table ρ) (rp : ρ) : Option (Table ρ) :=
  (unready slots fuel { t with switching := true } rp).map fun t => { t with switching := false }

/-- The child gets a copy of the parent's slot, its own pid and a clean account. -/
def do_fork (k : Processes ρ) (PROC1 PROC2 : ρ) (PID : ℤ) : Option (Processes ρ) :=
  if isuserp k.table PROC1 && isemptyp k.table PROC2 then
    let flags := { (k.table.proc PROC1).p_flags with
      NO_MAP := true, PENDING := false, SIG_PENDING := false, P_STOP := false }
    some { k with
      table := k.table.setProc PROC2 fun _ => { k.table.proc PROC1 with
        p_flags := flags, p_pid := PID, user_time := 0, sys_time := 0, group := 0 }
      rest := Function.update k.rest PROC2 { k.rest PROC1 with
        p_ldt_sel := (k.rest PROC2).p_ldt_sel, p_pending := 0, p_pendcount := 0, retreg := 0,
        child_utime := 0, child_stime := 0 } }
  else none

/-- `while ((xp = np->p_sendlink) != NIL_PROC)`: cut the process out behind `np`. -/
def unlinkSender (rc : ρ) : ℕ → ρ → (ρ → Rest ρ) → Option (ρ → Rest ρ)
  | 0, _, _ => none
  | fuel + 1, np, rest =>
    match (rest np).p_sendlink with
    | none => some rest
    | some xp =>
      if xp = rc then some (Function.update rest np { rest np with p_sendlink := (rest xp).p_sendlink })
      else unlinkSender rc fuel xp rest

def unlinkCaller (rc : ρ) (fuel : ℕ) : List ρ → (ρ → Rest ρ) → Option (ρ → Rest ρ)
  | [], rest => some rest
  | rp :: slots, rest =>
    match (rest rp).p_callerq with
    | none => unlinkCaller rc fuel slots rest
    | some np =>
      if np = rc then some (Function.update rest rp { rest rp with p_callerq := (rest rc).p_sendlink })
      else (unlinkSender rc fuel np rest).bind (unlinkCaller rc fuel slots)

/-- A process has exited. Its pid stays where it is. -/
def do_xit (slots : Slots ρ) (order : List ρ) (fuel : ℕ) (k : Processes ρ) (parent proc_nr : ρ) :
    Option (Processes ρ) :=
  if isuserp k.table parent && isuserp k.table proc_nr then do
    let rc := k.table.proc proc_nr
    let rest := Function.update k.rest parent { k.rest parent with
      child_utime := (k.rest parent).child_utime + (rc.user_time + (k.rest proc_nr).child_utime)
      child_stime := (k.rest parent).child_stime + (rc.sys_time + (k.rest proc_nr).child_stime) }
    let t := k.table.setProc proc_nr fun p => { p with p_alarm := 0 }
    let t ← (if rc.p_flags = {} then lock_unready slots fuel t proc_nr else some t)
    let rest := Function.update rest proc_nr { rest proc_nr with p_name := "<noname>" }
    let rest ← (if rc.p_flags.SENDING then unlinkCaller proc_nr fuel order rest else some rest)
    some {
      table := t.setProc proc_nr fun p => { p with p_flags := {}, p_priority := .PPRI_NONE }
      rest := Function.update rest proc_nr { rest proc_nr with p_pending := 0, p_pendcount := 0 }
      sig_procs := if rc.p_flags.PENDING then k.sig_procs - 1 else k.sig_procs }
  else none

/-- `SYSSIGNON`: make this process a server; `copied` is the outcome of `vir_copy`. -/
def do_sysctl_SYSSIGNON (k : Processes ρ) (proc_nr : ρ) (priv copied : Bool) : Status × Processes ρ :=
  if !priv || !isuserp k.table proc_nr then (.EPERM,k)
  else if !copied then (.EFAULT,k)
  else (.OK,{ k with table := k.table.setProc proc_nr fun p => { p with p_priority := .PPRI_SERVER, p_pid := 0 } })

/-- The requests that the life of a process is made of. -/
inductive TableOp (ρ : Type)
  | do_fork (PROC1 PROC2 : ρ) (PID : ℤ)
  | do_xit (parent proc_nr : ρ)
  | SYSSIGNON (proc_nr : ρ) (priv copied : Bool)
  | do_setGroup (m : Message)
  | do_getGroup (m : Message)

def tableStep (slots : Slots ρ) (order : List ρ) (fuel : ℕ) (k : Processes ρ) : TableOp ρ → Option (Processes ρ)
  | .do_fork PROC1 PROC2 PID => do_fork k PROC1 PROC2 PID
  | .do_xit parent proc_nr => do_xit slots order fuel k parent proc_nr
  | .SYSSIGNON proc_nr priv copied => some (do_sysctl_SYSSIGNON k proc_nr priv copied).2
  | .do_setGroup m => some { k with table := (do_setGroup order k.table m).2 }
  | .do_getGroup _ => some k

/-- MM gives every child a positive pid that no live process has. -/
def NewPid (k : Processes ρ) : TableOp ρ → Prop
  | .do_fork _ _ PID => 0 < PID ∧ ∀ rp, isuserp k.table rp → (k.table.proc rp).p_pid ≠ PID
  | _ => True

instance [Fintype ρ] (k : Processes ρ) : (op : TableOp ρ) → Decidable (NewPid k op)
  | .do_fork _ _ PID =>
    inferInstanceAs (Decidable (0 < PID ∧ ∀ rp, isuserp k.table rp → (k.table.proc rp).p_pid ≠ PID))
  | .do_xit _ _ | .SYSSIGNON _ _ _ | .do_setGroup _ | .do_getGroup _ => isTrue trivial

/-- The lookup by pid finds the live user processes and nothing else, and a
change of group is made for just these. -/
structure PidLookup (order : List ρ) (t : Table ρ) : Prop where
  found : ∀ rp, isuserp t rp → findProcDescriptor order t (t.proc rp).p_pid = some rp
  missing : ∀ pid, (∀ rp, isuserp t rp → (t.proc rp).p_pid ≠ pid) → findProcDescriptor order t pid = none
  changed : ∀ rp m, isuserp t rp → (t.proc rp).p_pid = m.m1_i1 → 0 ≤ m.m1_i2 → m.m1_i2 ≤ 2 →
    do_setGroup order t m = (.OK,t.setProc rp fun p => { p with group := m.m1_i2 })
  refused : ∀ m, (∀ rp, isuserp t rp → (t.proc rp).p_pid ≠ m.m1_i1) → do_setGroup order t m = (.EFAULT,t)

/-- User processes have positive pids of their own, all other slots none. -/
structure Tidy (t : Table ρ) : Prop where
  positive : ∀ rp, isuserp t rp → 0 < (t.proc rp).p_pid
  distinct : ∀ p q, isuserp t p → isuserp t q → (t.proc p).p_pid = (t.proc q).p_pid → p = q
  zero : ∀ rp, ¬ isuserp t rp → (t.proc rp).p_pid = 0

variable {k k' : Processes ρ} {t t' : Table ρ} {slots : Slots ρ} {order : List ρ} {fuel : ℕ}

theorem Tidy.lookup (h : Tidy t) (horder : ∀ rp, rp ∈ order) : PidLookup order t := by
  have hfound : ∀ rp, isuserp t rp → findProcDescriptor order t (t.proc rp).p_pid = some rp := by
    intro rp hrp
    have hpos := h.positive rp hrp
    cases hfind : findProcDescriptor order t (t.proc rp).p_pid with
    | none => exact absurd ⟨rp,horder rp,by omega,rfl⟩ (findProcDescriptor_none.mp hfind)
    | some q =>
      obtain ⟨-,hne,hpid⟩ := findProcDescriptor_some hfind
      have hq : isuserp t q = true := by
        by_contra hq
        exact hne (h.zero q hq)
      rw [h.distinct q rp hq hrp hpid]
  have hmissing : ∀ pid, (∀ rp, isuserp t rp → (t.proc rp).p_pid ≠ pid) → findProcDescriptor order t pid = none := by
    intro pid hnone
    rw [findProcDescriptor_none]
    rintro ⟨rp,-,hne,hpid⟩
    by_cases hrp : isuserp t rp = true
    · exact hnone rp hrp hpid
    · exact hne (h.zero rp hrp)
  refine ⟨hfound,hmissing,fun rp m hrp hpid hlow hhigh => ?_,fun m hnone => ?_⟩
  · have hfind := hfound rp hrp
    rw [hpid] at hfind
    rw [do_setGroup, if_neg (by omega), hfind]
  · rw [do_setGroup, hmissing _ hnone]
    split <;> rfl

omit [DecidableEq ρ] in
theorem Tidy.congr (h : Tidy t) (hpriority : ∀ rp, (t'.proc rp).p_priority = (t.proc rp).p_priority)
    (hpid : ∀ rp, (t'.proc rp).p_pid = (t.proc rp).p_pid) : Tidy t' := by
  have huser : ∀ rp, isuserp t' rp = isuserp t rp := fun rp => by rw [isuserp, hpriority, isuserp]
  constructor
  · simpa only [huser, hpid] using h.positive
  · simpa only [huser, hpid] using h.distinct
  · simpa only [huser, hpid] using h.zero

theorem isuserp_setProc_of_ne (t : Table ρ) {p rp : ρ} (h : p ≠ rp) (f : Proc ρ → Proc ρ) :
    isuserp (t.setProc rp f) p = isuserp t p := by
  rw [isuserp, proc_setProc_of_ne t h, isuserp]

theorem Tidy.setProc (h : Tidy t) {rp : ρ} {f : Proc ρ → Proc ρ}
    (huser : isuserp (t.setProc rp f) rp →
      0 < (f (t.proc rp)).p_pid ∧ ∀ q, isuserp t q → (t.proc q).p_pid ≠ (f (t.proc rp)).p_pid)
    (hzero : ¬ isuserp (t.setProc rp f) rp → (f (t.proc rp)).p_pid = 0) : Tidy (t.setProc rp f) := by
  constructor
  · intro p hp
    by_cases hprp : p = rp
    · subst hprp
      rw [proc_setProc_self]
      exact (huser hp).1
    · rw [isuserp_setProc_of_ne t hprp] at hp
      rw [proc_setProc_of_ne t hprp]
      exact h.positive p hp
  · intro p q hp hq heq
    by_cases hprp : p = rp <;> by_cases hqrp : q = rp
    · rw [hprp, hqrp]
    · subst hprp
      rw [isuserp_setProc_of_ne t hqrp] at hq
      rw [proc_setProc_self, proc_setProc_of_ne t hqrp] at heq
      exact absurd heq.symm ((huser hp).2 q hq)
    · subst hqrp
      rw [isuserp_setProc_of_ne t hprp] at hp
      rw [proc_setProc_self, proc_setProc_of_ne t hprp] at heq
      exact absurd heq ((huser hq).2 p hp)
    · rw [isuserp_setProc_of_ne t hprp] at hp
      rw [isuserp_setProc_of_ne t hqrp] at hq
      rw [proc_setProc_of_ne t hprp, proc_setProc_of_ne t hqrp] at heq
      exact h.distinct p q hp hq heq
  · intro p hp
    by_cases hprp : p = rp
    · subst hprp
      rw [proc_setProc_self]
      exact hzero hp
    · rw [isuserp_setProc_of_ne t hprp] at hp
      rw [proc_setProc_of_ne t hprp]
      exact h.zero p hp

theorem Tidy.fork (h : Tidy k.table) {PROC1 PROC2 : ρ} {PID : ℤ} (hguard : NewPid k (.do_fork PROC1 PROC2 PID))
    (hfork : do_fork k PROC1 PROC2 PID = some k') : Tidy k'.table := by
  unfold do_fork at hfork
  split at hfork
  · next hprocs =>
    obtain ⟨huser,-⟩ := Bool.and_eq_true_iff.mp hprocs
    cases hfork
    dsimp only
    apply h.setProc
    · intro _
      exact hguard
    · intro hchild
      refine absurd ?_ hchild
      rw [isuserp, proc_setProc_self]
      exact huser
  · cases hfork

theorem Tidy.signOn (h : Tidy k.table) (proc_nr : ρ) (priv copied : Bool) :
    Tidy (do_sysctl_SYSSIGNON k proc_nr priv copied).2.table := by
  unfold do_sysctl_SYSSIGNON
  split
  · exact h
  split
  · exact h
  dsimp only
  apply h.setProc
  · intro hserver
    rw [isuserp, proc_setProc_self] at hserver
    cases hserver
  · intro _
    rfl

theorem Tidy.setGroup (h : Tidy t) (order : List ρ) (m : Message) : Tidy (do_setGroup order t m).2 := by
  rcases do_setGroup_cases order t m with ⟨heq,-⟩ | ⟨rp,-,-,heq⟩
  · rw [heq]
    exact h
  · rw [heq]
    dsimp only
    apply h.congr
    · exact fun _ => kept_setProc Proc.p_priority (by rfl)
    · exact fun _ => kept_setProc Proc.p_pid (by rfl)

/-- Whatever the queues look like, `unready` changes nothing but links. -/
theorem unready_fields {rp : ρ} (h : unready slots fuel t rp = some t') (p : ρ) :
    { t'.proc p with p_nextready := none } = { t.proc p with p_nextready := none } := by
  unfold unready at h
  split at h
  · cases h
  dsimp only at h
  split at h
  · cases h
    rfl
  · next xp _ =>
    split at h
    · split at h
      · cases h
        rfl
      · cases h
        rw [proc_pick_proc]
        rfl
    · obtain ⟨found,-,rfl⟩ := Option.map_eq_some_iff.mp h
      cases found with
      | none => rfl
      | some prev => exact (((Relinked.refl (queueOf t rp) [prev] t).setNext (by simp) _).cutTail _ _).fields p

theorem lock_unready_fields {rp : ρ} (h : lock_unready slots fuel t rp = some t') (p : ρ) :
    { t'.proc p with p_nextready := none } = { t.proc p with p_nextready := none } := by
  obtain ⟨t₁,hunready,rfl⟩ := Option.map_eq_some_iff.mp h
  exact unready_fields hunready p

theorem do_xit_slot {parent proc_nr : ρ} (h : do_xit slots order fuel k parent proc_nr = some k') :
    isuserp k.table proc_nr ∧ (∀ rp, (k'.table.proc rp).p_pid = (k.table.proc rp).p_pid) ∧
      isuserp k'.table proc_nr = false ∧ ∀ rp, rp ≠ proc_nr → isuserp k'.table rp = isuserp k.table rp := by
  unfold do_xit at h
  split at h
  · next hprocs =>
    obtain ⟨t,ht,h⟩ := Option.bind_eq_some_iff.mp h
    obtain ⟨rest,-,h⟩ := Option.bind_eq_some_iff.mp h
    cases h
    have hfields : ∀ rp, (t.proc rp).p_pid = (k.table.proc rp).p_pid ∧
        (t.proc rp).p_priority = (k.table.proc rp).p_priority := by
      have halarm : ∀ rp, ((k.table.setProc proc_nr fun p => { p with p_alarm := 0 }).proc rp).p_pid =
          (k.table.proc rp).p_pid ∧ ((k.table.setProc proc_nr fun p => { p with p_alarm := 0 }).proc rp).p_priority =
          (k.table.proc rp).p_priority := fun rp =>
        ⟨kept_setProc Proc.p_pid (by rfl),kept_setProc Proc.p_priority (by rfl)⟩
      intro rp
      split at ht
      · have hsame := lock_unready_fields ht rp
        exact ⟨(congrArg Proc.p_pid hsame).trans (halarm rp).1,(congrArg Proc.p_priority hsame).trans (halarm rp).2⟩
      · cases ht
        exact halarm rp
    refine ⟨(Bool.and_eq_true_iff.mp hprocs).2,fun rp => ?_,?_,fun rp hrp => ?_⟩
    · rw [← (hfields rp).1]
      dsimp only
      exact kept_setProc Proc.p_pid (by rfl)
    · rw [isuserp, proc_setProc_self]
      rfl
    · rw [isuserp_setProc_of_ne t hrp, isuserp, (hfields rp).2, isuserp]
  · cases h

theorem Tidy.exit (h : Tidy k.table) (horder : ∀ rp, rp ∈ order) {parent proc_nr : ρ}
    (hexit : do_xit slots order fuel k parent proc_nr = some k') : ¬ PidLookup order k'.table := by
  obtain ⟨huser,hpid,hgone,hother⟩ := do_xit_slot hexit
  intro hlookup
  have hpos := h.positive proc_nr huser
  have hmissing := hlookup.missing (k.table.proc proc_nr).p_pid fun rp hrp heq => by
    by_cases hrp' : rp = proc_nr
    · subst hrp'
      rw [hgone] at hrp
      cases hrp
    · rw [hother rp hrp'] at hrp
      exact hrp' (h.distinct rp proc_nr hrp huser ((hpid rp).symm.trans heq))
  refine findProcDescriptor_none.mp hmissing ⟨proc_nr,horder proc_nr,?_,hpid proc_nr⟩
  rw [hpid]
  omega

def TableOp.IsExit : TableOp ρ → Prop
  | .do_xit _ _ => True
  | _ => False

/-- Every other step keeps the table tidy. -/
theorem Tidy.step (h : Tidy k.table) {op : TableOp ρ} (hguard : NewPid k op) (hop : ¬ op.IsExit)
    (hstep : tableStep slots order fuel k op = some k') : Tidy k'.table := by
  cases op with
  | do_fork PROC1 PROC2 PID => exact h.fork hguard hstep
  | do_xit parent proc_nr => exact absurd trivial hop
  | SYSSIGNON proc_nr priv copied =>
    cases hstep
    exact h.signOn proc_nr priv copied
  | do_setGroup m =>
    cases hstep
    exact h.setGroup order m
  | do_getGroup m =>
    cases hstep
    exact h

/-- The lookup is right in every state of a run if and only if no process exits in it. -/
theorem lookup_iff_no_exit (slots : Slots ρ) (fuel : ℕ) (h : Tidy k.table) (horder : ∀ rp, rp ∈ order)
    {ops : List (TableOp ρ)} (hguard : Meets (tableStep slots order fuel) NewPid k ops)
    (hrun : run (tableStep slots order fuel) k ops = some k') :
    (∀ n k₁, run (tableStep slots order fuel) k (ops.take n) = some k₁ → PidLookup order k₁.table) ↔
      ∀ op ∈ ops, ¬ op.IsExit := by
  induction ops generalizing k with
  | nil =>
    constructor
    · intro _ op hop
      cases hop
    · intro _ n k₁ hreached
      rw [List.take_nil] at hreached
      cases hreached
      exact h.lookup horder
  | cons op ops ih =>
    obtain ⟨k₁,hstep,hrest⟩ := run_cons_iff.mp hrun
    constructor
    · intro hall op' hop'
      have hop : ¬ op.IsExit := by
        intro hexit
        cases op with
        | do_xit parent proc_nr =>
          refine h.exit horder hstep (hall 1 k₁ ?_)
          exact run_cons_iff.mpr ⟨k₁,hstep,rfl⟩
        | do_fork | SYSSIGNON | do_setGroup | do_getGroup => exact hexit
      rcases List.mem_cons.mp hop' with rfl | hop'
      · exact hop
      · refine (ih (h.step hguard.1 hop hstep) (hguard.2 k₁ hstep) hrest).mp ?_ op' hop'
        intro n k₂ hreached
        exact hall (n + 1) k₂ (run_cons_iff.mpr ⟨k₁,hstep,hreached⟩)
    · intro hall n k₂ hreached
      cases n with
      | zero =>
        cases hreached
        exact h.lookup horder
      | succ n =>
        obtain ⟨k₃,hstep',hreached⟩ := run_cons_iff.mp hreached
        obtain rfl : k₁ = k₃ := Option.some_injective _ (hstep.symm.trans hstep')
        have htidy := h.step hguard.1 (hall op (by simp)) hstep
        exact (ih htidy (hguard.2 k₁ hstep) hrest).mpr (fun op' hop' => hall op' (by simp [hop'])) n k₂ hreached

def booted : Processes Slot where
  table := {
    proc
      | .system => { p_priority := .PPRI_TASK }
      | .a => { p_priority := .PPRI_USER, p_pid := 1 }
      | .b => {}
      | .c => {}
    proc_ptr := .a
    bill_ptr := .a }

theorem booted_tidy : Tidy booted.table := by
  constructor <;> decide

/-- `INIT` has two children, one of which becomes a server. -/
def twoForks : List (TableOp Slot) :=
  [.do_fork .a .b 7,.do_setGroup ⟨7,2⟩,.do_fork .a .c 8,.SYSSIGNON .c true true]

theorem twoForks_lookup : ∃ k',
    run (tableStep ⟨.system,.system,.system⟩ [.system,.a,.b,.c] 5) booted twoForks = some k' ∧
    PidLookup [.system,.a,.b,.c] k'.table := by
  have hsome : (run (tableStep ⟨.system,.system,.system⟩ [.system,.a,.b,.c] 5) booted twoForks).isSome = true := by
    decide +kernel
  obtain ⟨k',hrun⟩ := Option.isSome_iff_exists.mp hsome
  have hguard : Meets (tableStep ⟨.system,.system,.system⟩ [.system,.a,.b,.c] 5) NewPid booted twoForks := by
    decide +kernel
  have hstays : ∀ op ∈ twoForks, ¬ op.IsExit := by simp [twoForks, TableOp.IsExit]
  have hlookup := (@lookup_iff_no_exit Slot _ booted k' [.system,.a,.b,.c] ⟨.system,.system,.system⟩ 5 booted_tidy
    (by decide) twoForks hguard hrun).mpr hstays
  have htake : twoForks.take 4 = twoForks := rfl
  exact ⟨k',hrun,hlookup 4 k' (by rwa [htake])⟩

/-- After the exit of a child its pid is still found. -/
theorem exited_child_found :
    ¬ ∀ (order : List Slot) (k k' : Processes Slot) (ops : List (TableOp Slot)), Tidy k.table →
      (∀ rp, rp ∈ order) → Meets (tableStep ⟨.system,.system,.system⟩ order 5) NewPid k ops →
      run (tableStep ⟨.system,.system,.system⟩ order 5) k ops = some k' → PidLookup order k'.table := by
  intro h
  have hany : (run (tableStep ⟨.system,.system,.system⟩ [.system,.a,.b,.c] 5) booted
      [.do_fork .a .b 7,.do_xit .a .b]).any (fun k' => decide (findProcDescriptor [.system,.a,.b,.c] k'.table 7 = some .b ∧
        ∀ rp, isuserp k'.table rp → (k'.table.proc rp).p_pid ≠ 7)) = true := by decide
  obtain ⟨k',hrun,hfound⟩ := (Option.any_eq_true _ _).mp hany
  obtain ⟨hfind,hnobody⟩ := of_decide_eq_true hfound
  have hguard : Meets (tableStep ⟨.system,.system,.system⟩ [.system,.a,.b,.c] 5) NewPid booted
      [.do_fork .a .b 7,.do_xit .a .b] := by decide +kernel
  have hmissing := (h [.system,.a,.b,.c] booted k' _ booted_tidy (by decide) hguard hrun).missing 7 hnobody
  rw [hfind] at hmissing
  cases hmissing

end SOI.Scheduling

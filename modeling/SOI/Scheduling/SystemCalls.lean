import SOI.Library.Runs
import SOI.Scheduling.SystemTask

/-! # Scheduling parameters through the memory manager

A process sends its request to MM by call number. MM looks the routine up in
`call_vec` by position; the routine forwards the request to the system task under
its own function code. An abstract store says what each call should answer. The
entry at the position of `GETQUANTS` is the routine of `GETGROUP`.
-/
namespace SOI.Scheduling
open Runs
variable {ρ : Type}

/-- The routines of MM that `call_vec` names, and the one that it should name. -/
inductive Routine
  | no_sys
  | do_mm_exit
  | do_fork
  | do_waitpid
  | do_brk
  | do_getset
  | do_trace
  | do_alarm
  | do_pause
  | do_kill
  | do_exec
  | do_ksig
  | do_sigaction
  | do_sigsuspend
  | do_sigpending
  | do_sigprocmask
  | do_sigreturn
  | do_reboot
  | do_svrctl
  | do_getGroup
  | do_setGroup
  | do_setQuants
  | do_getQuants
  deriving DecidableEq, Repr

def call_vec : List Routine :=
  [.no_sys,.do_mm_exit,.do_fork,.no_sys,.no_sys,.no_sys,.no_sys,.do_waitpid,
   .no_sys,.no_sys,.no_sys,.do_waitpid,.no_sys,.no_sys,.no_sys,.no_sys,
   .no_sys,.do_brk,.no_sys,.no_sys,.do_getset,.no_sys,.no_sys,.do_getset,
   .do_getset,.no_sys,.do_trace,.do_alarm,.no_sys,.do_pause,.no_sys,.no_sys,
   .no_sys,.no_sys,.no_sys,.no_sys,.no_sys,.do_kill,.no_sys,.no_sys,
   .no_sys,.no_sys,.no_sys,.no_sys,.no_sys,.no_sys,.do_getset,.do_getset,
   .no_sys,.no_sys,.no_sys,.no_sys,.no_sys,.no_sys,.no_sys,.no_sys,
   .no_sys,.no_sys,.no_sys,.do_exec,.no_sys,.no_sys,.do_getset,.do_getset,
   .do_ksig,.no_sys,.no_sys,.no_sys,.no_sys,.no_sys,.no_sys,.do_sigaction,
   .do_sigsuspend,.do_sigpending,.do_sigprocmask,.do_sigreturn,.do_reboot,.do_svrctl,.do_getGroup,.do_setGroup,
   .do_getGroup,.do_setQuants]

def NCALLS : ℕ := 82

example : call_vec.length = NCALLS := rfl

inductive CallNr
  | GETGROUP
  | SETGROUP
  | GETQUANTS
  | SETQUANTS
  deriving DecidableEq, Repr

def CallNr.toNat : CallNr → ℕ
  | .GETGROUP => 78
  | .SETGROUP => 79
  | .GETQUANTS => 80
  | .SETQUANTS => 81

/-- The request MM works on and the reply it has ready for the caller. -/
structure Buffers where
  mm_in : Message
  mp_reply : Message
  deriving DecidableEq, Repr

/-- A call with its message; the caller's slot still holds an earlier reply. -/
structure Request where
  call : CallNr
  m : Message
  mp_reply : Message := {}
  deriving DecidableEq, Repr

inductive Answer
  | value (v : ℤ)
  | done
  | rejected
  deriving DecidableEq, Repr

def CallNr.answer (call : CallNr) (r : Status) (reply : Message) : Answer :=
  if r ≠ .OK then .rejected
  else
    match call with
    | .GETGROUP | .GETQUANTS => .value reply.m1_i1
    | .SETGROUP | .SETQUANTS => .done

/-- What the calls are for: the groups of some processes and the quanta of the groups. -/
structure Store where
  pids : List ℤ
  group : ℤ → ℤ
  quantum : Fin 3 → ℤ

def Store.serveOne (s : Store) (q : Request) : Answer × Store :=
  match q.call with
  | .GETGROUP => (if q.m.m1_i1 ∈ s.pids then .value (s.group q.m.m1_i1) else .rejected,s)
  | .SETGROUP =>
    if q.m.m1_i1 ∈ s.pids ∧ 0 ≤ q.m.m1_i2 ∧ q.m.m1_i2 ≤ 2 then
      (.done,{ s with group := Function.update s.group q.m.m1_i1 q.m.m1_i2 })
    else (.rejected,s)
  | .GETQUANTS =>
    (if h : 0 ≤ q.m.m1_i1 ∧ q.m.m1_i1 ≤ 2 then .value (s.quantum ⟨q.m.m1_i1.toNat,by omega⟩) else .rejected,s)
  | .SETQUANTS =>
    if h : (0 ≤ q.m.m1_i1 ∧ q.m.m1_i1 ≤ 2) ∧ 1 ≤ q.m.m1_i2 ∧ q.m.m1_i2 ≤ 100 then
      (.done,{ s with quantum := Function.update s.quantum ⟨q.m.m1_i1.toNat,by omega⟩ q.m.m1_i2 })
    else (.rejected,s)

def Store.serve : Store → List Request → List Answer × Store
  | s, [] => ([],s)
  | s, q :: qs =>
    let (a,s) := s.serveOne q
    let (as,s) := s.serve qs
    (a :: as,s)

/-- The processes of the table, all in group 0, and the first quanta. -/
def Store.start (order : List ρ) (k : Kernel ρ) : Store where
  pids := (order.map fun rp => (k.table.proc rp).p_pid).filter (· ≠ 0)
  group := fun _ => 0
  quantum := ![1,3,2]

def DistinctPids (order : List ρ) (t : Table ρ) : Prop :=
  ∀ p ∈ order, ∀ q ∈ order, (t.proc p).p_pid ≠ 0 → (t.proc p).p_pid = (t.proc q).p_pid → p = q

variable [DecidableEq ρ]

/-- `_taskcall(SYSTASK, fcn, &mm_in)`: the reply comes back in the same buffer. -/
def taskcall (order : List ρ) (fcn : ℕ) (k : Kernel ρ) (b : Buffers) : Option (Status × Buffers × Kernel ρ) :=
  (sys_task order fcn k b.mm_in).map fun (r,m,k) => (r,{ b with mm_in := m },k)

def Buffers.reply (b : Buffers) : Buffers := { b with mp_reply := b.mm_in }

def MM.do_getGroup (order : List ρ) (k : Kernel ρ) (b : Buffers) : Option (Status × Buffers × Kernel ρ) :=
  (taskcall order SYS_GETGROUP k b).map fun (r,b,k) => (r,b.reply,k)

def MM.do_setGroup (order : List ρ) (k : Kernel ρ) (b : Buffers) : Option (Status × Buffers × Kernel ρ) :=
  taskcall order SYS_SETGROUP k b

def MM.do_getQuants (order : List ρ) (k : Kernel ρ) (b : Buffers) : Option (Status × Buffers × Kernel ρ) :=
  (taskcall order SYS_GETQUANTS k b).map fun (r,b,k) => (r,b.reply,k)

def MM.do_setQuants (order : List ρ) (k : Kernel ρ) (b : Buffers) : Option (Status × Buffers × Kernel ρ) :=
  taskcall order SYS_SETQUANTS k b

/-- `(*call_vec[mm_call])()`, as far as the routines above go. -/
def mm_call (order : List ρ) (mm_call : ℕ) (k : Kernel ρ) (b : Buffers) : Option (Status × Buffers × Kernel ρ) :=
  match call_vec[mm_call]? with
  | some .do_getGroup => MM.do_getGroup order k b
  | some .do_setGroup => MM.do_setGroup order k b
  | some .do_getQuants => MM.do_getQuants order k b
  | some .do_setQuants => MM.do_setQuants order k b
  | _ => none

def serveOne (order : List ρ) (k : Kernel ρ) (q : Request) : Option (Answer × Kernel ρ) :=
  (mm_call order q.call.toNat k ⟨q.m,q.mp_reply⟩).map fun (r,b,k) => (q.call.answer r b.mp_reply,k)

def serve (order : List ρ) : Kernel ρ → List Request → Option (List Answer × Kernel ρ)
  | k, [] => some ([],k)
  | k, q :: qs => do
    let (a,k) ← serveOne order k q
    let (as,k) ← serve order k qs
    some (a :: as,k)

/-- The kernel's tables agree with the store. -/
structure Represents (order : List ρ) (k : Kernel ρ) (s : Store) : Prop where
  distinct : DistinctPids order k.table
  pids : ∀ pid, pid ∈ s.pids ↔ ∃ rp ∈ order, (k.table.proc rp).p_pid ≠ 0 ∧ (k.table.proc rp).p_pid = pid
  group : ∀ rp ∈ order, (k.table.proc rp).p_pid ≠ 0 → (k.table.proc rp).group = s.group (k.table.proc rp).p_pid
  quantum : k.quants = s.quantum

/-- The step is not a `GETQUANTS`, or the process whose pid is the number of the
group happens to be in the group that the quantum has as its number; or neither
the group nor the process exists. -/
def Harmless (order : List ρ) (k : Kernel ρ) (q : Request) : Prop :=
  q.call = .GETQUANTS →
    (∃ rp ∈ order, ((k.table.proc rp).p_pid ≠ 0 ∧ (k.table.proc rp).p_pid = q.m.m1_i1) ∧
      k.quantsAt q.m.m1_i1 = some (k.table.proc rp).group) ∨
    k.quantsAt q.m.m1_i1 = none ∧
      ∀ rp ∈ order, ¬ ((k.table.proc rp).p_pid ≠ 0 ∧ (k.table.proc rp).p_pid = q.m.m1_i1)

instance (order : List ρ) (k : Kernel ρ) (q : Request) : Decidable (Harmless order k q) := by
  unfold Harmless
  infer_instance

variable {order : List ρ} {k : Kernel ρ} {s : Store}

omit [DecidableEq ρ] in
theorem Represents.find (h : Represents order k s) (pid : ℤ) :
    findProcDescriptor order k.table pid = none ∧ pid ∉ s.pids ∨
      ∃ rp ∈ order, findProcDescriptor order k.table pid = some rp ∧ pid ∈ s.pids ∧
        (k.table.proc rp).p_pid ≠ 0 ∧ (k.table.proc rp).p_pid = pid := by
  cases hfind : findProcDescriptor order k.table pid with
  | none => exact Or.inl ⟨rfl,fun hpid => findProcDescriptor_none.mp hfind ((h.pids pid).mp hpid)⟩
  | some rp =>
    obtain ⟨hrp,hne,hpid⟩ := findProcDescriptor_some hfind
    exact Or.inr ⟨rp,hrp,rfl,(h.pids pid).mpr ⟨rp,hrp,hne,hpid⟩,hne,hpid⟩

theorem Represents.getGroup (h : Represents order k s) (m r : Message) :
    serveOne order k ⟨.GETGROUP,m,r⟩ = some ((s.serveOne ⟨.GETGROUP,m,r⟩).1,k) := by
  have hrun : serveOne order k ⟨.GETGROUP,m,r⟩ = some (CallNr.GETGROUP.answer
      (do_getGroup order k.table m).1 (do_getGroup order k.table m).2,k) := rfl
  rw [hrun, Store.serveOne]
  rcases h.find m.m1_i1 with ⟨hfind,hpid⟩ | ⟨rp,hrp,hfind,hpid,hne,heq⟩
  · simp [do_getGroup, hfind, hpid, CallNr.answer]
  · have hgroup := h.group rp hrp hne
    rw [heq] at hgroup
    simp [do_getGroup, hfind, hpid, CallNr.answer, hgroup]

theorem Represents.setGroup (h : Represents order k s) (m r : Message) :
    ∃ k', serveOne order k ⟨.SETGROUP,m,r⟩ = some ((s.serveOne ⟨.SETGROUP,m,r⟩).1,k') ∧
      Represents order k' (s.serveOne ⟨.SETGROUP,m,r⟩).2 := by
  have hrun : serveOne order k ⟨.SETGROUP,m,r⟩ = some (CallNr.SETGROUP.answer (do_setGroup order k.table m).1 r,
      { k with table := (do_setGroup order k.table m).2 }) := rfl
  rcases do_setGroup_cases order k.table m with ⟨heq,hwhy⟩ | ⟨rp,hfind,hrange,heq⟩
  · -- no such process or no such group: nothing changes
    have hno : ¬ (m.m1_i1 ∈ s.pids ∧ 0 ≤ m.m1_i2 ∧ m.m1_i2 ≤ 2) := by
      rintro ⟨hpid,hlow,hhigh⟩
      rcases hwhy with hrange | hfind
      · omega
      · exact findProcDescriptor_none.mp hfind ((h.pids _).mp hpid)
    have hstore : s.serveOne ⟨.SETGROUP,m,r⟩ = (.rejected,s) := if_neg hno
    rw [hstore, hrun, heq]
    exact ⟨k,rfl,h⟩
  · obtain ⟨hrp,hne,hpid⟩ := findProcDescriptor_some hfind
    have hyes : m.m1_i1 ∈ s.pids ∧ 0 ≤ m.m1_i2 ∧ m.m1_i2 ≤ 2 := ⟨(h.pids _).mpr ⟨rp,hrp,hne,hpid⟩,hrange⟩
    have hstore : s.serveOne ⟨.SETGROUP,m,r⟩ =
      (.done,{ s with group := Function.update s.group m.m1_i1 m.m1_i2 }) := if_pos hyes
    rw [hstore, hrun, heq]
    refine ⟨_,rfl,?_⟩
    have hpids : ∀ p, ((k.table.setProc rp fun p => { p with group := m.m1_i2 }).proc p).p_pid =
        (k.table.proc p).p_pid := fun _ => kept_setProc Proc.p_pid (by rfl)
    constructor
    · simpa only [DistinctPids, hpids] using h.distinct
    · simpa only [hpids] using h.pids
    · intro p hp hpne
      simp only [hpids] at hpne ⊢
      by_cases hprp : p = rp
      · subst hprp
        rw [hpid, Function.update_self]
        simp [Table.setProc]
      · have hother : (k.table.proc p).p_pid ≠ m.m1_i1 := fun heq' =>
          hprp (h.distinct p hp rp hrp hpne (heq'.trans hpid.symm))
        rw [Function.update_of_ne hother, ← h.group p hp hpne]
        simp [Table.setProc, Function.update_of_ne hprp]
    · exact h.quantum

theorem Represents.setQuants (h : Represents order k s) (m r : Message) :
    ∃ k', serveOne order k ⟨.SETQUANTS,m,r⟩ = some ((s.serveOne ⟨.SETQUANTS,m,r⟩).1,k') ∧
      Represents order k' (s.serveOne ⟨.SETQUANTS,m,r⟩).2 := by
  have hrun : serveOne order k ⟨.SETQUANTS,m,r⟩ = some (CallNr.SETQUANTS.answer (do_setQuants k.quants m).1 r,
      { k with quants := (do_setQuants k.quants m).2 }) := rfl
  by_cases hok : (0 ≤ m.m1_i1 ∧ m.m1_i1 ≤ 2) ∧ 1 ≤ m.m1_i2 ∧ m.m1_i2 ≤ 100
  · have hstore : s.serveOne ⟨.SETQUANTS,m,r⟩ = (.done,{ s with
        quantum := Function.update s.quantum ⟨m.m1_i1.toNat,by omega⟩ m.m1_i2 }) := dif_pos hok
    have hset : do_setQuants k.quants m = (.OK,Function.update k.quants ⟨m.m1_i1.toNat,by omega⟩ m.m1_i2) := by
      rw [do_setQuants, dif_neg (by omega), if_neg (by omega)]
    rw [hstore, hrun, hset]
    exact ⟨_,rfl,h.distinct,h.pids,h.group,by rw [h.quantum]⟩
  · have hstore : s.serveOne ⟨.SETQUANTS,m,r⟩ = (.rejected,s) := dif_neg hok
    have hset : do_setQuants k.quants m = (.EFAULT,k.quants) := by
      unfold do_setQuants
      split
      · rfl
      · rw [if_pos (by omega)]
    rw [hstore, hrun, hset]
    exact ⟨k,rfl,h⟩

theorem Represents.getQuants (h : Represents order k s) (m r : Message) :
    ∃ a, serveOne order k ⟨.GETQUANTS,m,r⟩ = some (a,k) ∧ (s.serveOne ⟨.GETQUANTS,m,r⟩).2 = s ∧
      (a = (s.serveOne ⟨.GETQUANTS,m,r⟩).1 ↔ Harmless order k ⟨.GETQUANTS,m,r⟩) := by
  have hrun : serveOne order k ⟨.GETQUANTS,m,r⟩ = some (CallNr.GETQUANTS.answer
      (do_getGroup order k.table m).1 (do_getGroup order k.table m).2,k) := rfl
  have hstore : (s.serveOne ⟨.GETQUANTS,m,r⟩).1 = (k.quantsAt m.m1_i1).elim .rejected .value := by
    simp only [Store.serveOne, Kernel.quantsAt, h.quantum]
    by_cases hrange : 0 ≤ m.m1_i1 ∧ m.m1_i1 ≤ 2
    · rw [dif_pos hrange, dif_pos (by omega)]
      rfl
    · rw [dif_neg hrange, dif_neg (by omega)]
      rfl
  refine ⟨_,hrun,rfl,?_⟩
  rw [hstore]
  simp only [Harmless, forall_const]
  rcases h.find m.m1_i1 with ⟨hfind,hpid⟩ | ⟨rp,hrp,hfind,hpid,hne,heq⟩
  · have hnone : ∀ rp ∈ order, ¬ ((k.table.proc rp).p_pid ≠ 0 ∧ (k.table.proc rp).p_pid = m.m1_i1) :=
      fun rp hrp hin => findProcDescriptor_none.mp hfind ⟨rp,hrp,hin⟩
    have hanswer : do_getGroup order k.table m = (.EFAULT,m) := by rw [do_getGroup, hfind]
    rw [hanswer]
    cases hq : k.quantsAt m.m1_i1 with
    | none => simpa [CallNr.answer] using hnone
    | some v =>
      simp only [CallNr.answer, Option.elim, ne_eq, reduceCtorEq, not_false_eq_true, if_true, false_and, or_false,
        false_iff]
      rintro ⟨rp,hrp,hin,-⟩
      exact hnone rp hrp hin
  · have hanswer : do_getGroup order k.table m = (.OK,{ m with m1_i1 := (k.table.proc rp).group }) := by
      rw [do_getGroup, hfind]
    rw [hanswer]
    cases hq : k.quantsAt m.m1_i1 with
    | none =>
      simp only [CallNr.answer, Option.elim, ne_eq, not_true_eq_false, if_false, reduceCtorEq, and_false,
        exists_false, true_and, false_or, false_iff]
      exact fun hall => hall rp hrp ⟨hne,heq⟩
    | some v =>
      simp only [CallNr.answer, Option.elim, ne_eq, not_true_eq_false, if_false, reduceCtorEq, false_and,
        or_false, Answer.value.injEq, Option.some.injEq]
      constructor
      · rintro hv
        exact ⟨rp,hrp,⟨hne,heq⟩,hv.symm⟩
      · rintro ⟨rp',hrp',⟨hne',heq'⟩,hv⟩
        rw [h.distinct rp hrp rp' hrp' hne (heq.trans heq'.symm), hv]

/-- One call answers as the store does, but for `GETQUANTS`. -/
theorem Represents.serveOne (h : Represents order k s) (q : Request) :
    ∃ a k', Scheduling.serveOne order k q = some (a,k') ∧ Represents order k' (s.serveOne q).2 ∧
      (a = (s.serveOne q).1 ↔ Harmless order k q) := by
  have hother : q.call ≠ .GETQUANTS → Harmless order k q := fun hne hcall => absurd hcall hne
  obtain ⟨call,m,r⟩ := q
  cases call with
  | GETGROUP => exact ⟨_,k,h.getGroup m r,h,iff_of_true rfl (hother (by simp))⟩
  | SETGROUP =>
    obtain ⟨k',hrun,hrep⟩ := h.setGroup m r
    exact ⟨_,k',hrun,hrep,iff_of_true rfl (hother (by simp))⟩
  | GETQUANTS =>
    obtain ⟨a,hrun,hsame,hiff⟩ := h.getQuants m r
    exact ⟨a,k,hrun,hsame ▸ h,hiff⟩
  | SETQUANTS =>
    obtain ⟨k',hrun,hrep⟩ := h.setQuants m r
    exact ⟨_,k',hrun,hrep,iff_of_true rfl (hother (by simp))⟩

def served (order : List ρ) (k : Kernel ρ) (q : Request) : Option (Kernel ρ) :=
  (serveOne order k q).map Prod.snd

theorem Represents.serve (h : Represents order k s) (qs : List Request) :
    ∃ as k', Scheduling.serve order k qs = some (as,k') ∧ Represents order k' (s.serve qs).2 ∧
      (as = (s.serve qs).1 ↔ Meets (served order) (Harmless order) k qs) := by
  induction qs generalizing k s with
  | nil => exact ⟨[],k,rfl,h,iff_of_true rfl trivial⟩
  | cons q qs ih =>
    obtain ⟨a,k₁,hone,hrep₁,hiff₁⟩ := h.serveOne q
    obtain ⟨as,k₂,hrest,hrep₂,hiff₂⟩ := ih hrep₁
    have hserved : served order k q = some k₁ := by rw [served, hone]; rfl
    refine ⟨a :: as,k₂,?_,hrep₂,?_⟩
    · simp [Scheduling.serve, hone, hrest]
    · rw [meets_cons_of_some hserved, ← hiff₁, ← hiff₂]
      exact List.cons.injEq .. ▸ Iff.rfl

/-- Exactly the runs whose steps are all harmless answer as the store does; what is
set and what is rejected is right in every run. -/
theorem serve_agrees_iff (order : List ρ) (hdistinct : DistinctPids order k.table)
    (hgroup : ∀ rp ∈ order, (k.table.proc rp).group = 0) (hquants : k.quants = ![1,3,2]) (qs : List Request) :
    ∃ as k', serve order k qs = some (as,k') ∧ Represents order k' ((Store.start order k).serve qs).2 ∧
      (as = ((Store.start order k).serve qs).1 ↔ Meets (served order) (Harmless order) k qs) := by
  have hstart : Represents order k (Store.start order k) := by
    refine ⟨hdistinct,fun pid => ?_,fun rp hrp _ => hgroup rp hrp,hquants⟩
    simp only [Store.start, List.mem_filter, List.mem_map, decide_eq_true_eq]
    constructor
    · rintro ⟨⟨rp,hrp,rfl⟩,hne⟩
      exact ⟨rp,hrp,hne,rfl⟩
    · rintro ⟨rp,hrp,hne,rfl⟩
      exact ⟨⟨rp,hrp,rfl⟩,hne⟩
  exact hstart.serve qs

def oneProcess : Kernel (Fin 2) where
  table := { proc := ![{},{ p_priority := .PPRI_USER, p_pid := 5 }], proc_ptr := 1, bill_ptr := 1 }
  quants := ![1,3,2]
  sched_ticks := 1

theorem oneProcess_distinct : DistinctPids [0,1] oneProcess.table := by
  unfold DistinctPids
  decide

theorem oneProcess_agrees : ∃ as k', serve [0,1] oneProcess
      [⟨.SETGROUP,⟨5,2⟩,{}⟩,⟨.SETQUANTS,⟨2,7⟩,{}⟩,⟨.GETGROUP,⟨5,0⟩,{}⟩,⟨.SETGROUP,⟨6,1⟩,{}⟩] = some (as,k') ∧
    as = [.done,.done,.value 2,.rejected] := by
  obtain ⟨as,k',hserve,-,hiff⟩ := serve_agrees_iff [0,1] oneProcess_distinct (by decide) rfl
    [⟨.SETGROUP,⟨5,2⟩,{}⟩,⟨.SETQUANTS,⟨2,7⟩,{}⟩,⟨.GETGROUP,⟨5,0⟩,{}⟩,⟨.SETGROUP,⟨6,1⟩,{}⟩]
  exact ⟨as,k',hserve,hiff.mpr (by decide)⟩

/-- `GETQUANTS` of a group is rejected when no process has its number as pid. -/
theorem getQuants_rejected :
    ¬ ∀ (order : List (Fin 2)) (k : Kernel (Fin 2)) (qs : List Request), DistinctPids order k.table →
      (∀ rp ∈ order, (k.table.proc rp).group = 0) → k.quants = ![1,3,2] →
      ∃ k', serve order k qs = some (((Store.start order k).serve qs).1,k') := by
  intro h
  obtain ⟨k',hserve⟩ := h [0,1] oneProcess [⟨.GETQUANTS,⟨1,0⟩,{}⟩] oneProcess_distinct (by decide) rfl
  have hanswers : (serve [0,1] oneProcess [⟨.GETQUANTS,⟨1,0⟩,{}⟩]).map Prod.fst =
      some ((Store.start [0,1] oneProcess).serve [⟨.GETQUANTS,⟨1,0⟩,{}⟩]).1 := by
    rw [hserve]
    rfl
  exact absurd hanswers (by decide)

end SOI.Scheduling

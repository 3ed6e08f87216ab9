import SOI.Scheduling.Clock

/-! # Scheduling parameters in the system task

The requests that read and set the group of a process and the quantum of a group.
A handler may write its result into the request message, which is then sent back
with the status as its type.
-/
namespace SOI.Scheduling
variable {ρ : Type}

structure Message where
  m1_i1 : ℤ := 0
  m1_i2 : ℤ := 0
  deriving DecidableEq, Repr

inductive Status
  | OK
  | EFAULT
  | EPERM
  deriving DecidableEq, Repr

def SYS_GETGROUP : ℕ := 22
def SYS_SETGROUP : ℕ := 23
def SYS_GETQUANTS : ℕ := 24
def SYS_SETQUANTS : ℕ := 25

/-- The first slot with this pid; `order` lists the slots from `BEG_PROC_ADDR` on. -/
def findProcDescriptor (order : List ρ) (t : Table ρ) (pid : ℤ) : Option ρ :=
  order.find? fun rp => (t.proc rp).p_pid ≠ 0 ∧ (t.proc rp).p_pid = pid

def do_getGroup (order : List ρ) (t : Table ρ) (m : Message) : Status × Message :=
  match findProcDescriptor order t m.m1_i1 with
  | none => (.EFAULT,m)
  | some rp => (.OK,{ m with m1_i1 := (t.proc rp).group })

def do_getQuants (quants : Fin 3 → ℤ) (m : Message) : Status × Message :=
  if h : m.m1_i1 < 0 ∨ m.m1_i1 > 2 then (.EFAULT,m)
  else (.OK,{ m with m1_i1 := quants ⟨m.m1_i1.toNat,by omega⟩ })

def do_setQuants (quants : Fin 3 → ℤ) (m : Message) : Status × (Fin 3 → ℤ) :=
  if h : m.m1_i1 < 0 ∨ m.m1_i1 > 2 then (.EFAULT,quants)
  else if m.m1_i2 < 1 ∨ m.m1_i2 > 100 then (.EFAULT,quants)
  else (.OK,Function.update quants ⟨m.m1_i1.toNat,by omega⟩ m.m1_i2)

theorem findProcDescriptor_some {order : List ρ} {t : Table ρ} {pid : ℤ} {rp : ρ}
    (h : findProcDescriptor order t pid = some rp) :
    rp ∈ order ∧ (t.proc rp).p_pid ≠ 0 ∧ (t.proc rp).p_pid = pid :=
  ⟨List.mem_of_find?_eq_some h,by simpa using List.find?_some h⟩

theorem findProcDescriptor_none {order : List ρ} {t : Table ρ} {pid : ℤ} :
    findProcDescriptor order t pid = none ↔ ¬ ∃ rp ∈ order, (t.proc rp).p_pid ≠ 0 ∧ (t.proc rp).p_pid = pid := by
  simp [findProcDescriptor]

variable [DecidableEq ρ]

def do_setGroup (order : List ρ) (t : Table ρ) (m : Message) : Status × Table ρ :=
  if m.m1_i2 < 0 ∨ m.m1_i2 > 2 then (.EFAULT,t)
  else
    match findProcDescriptor order t m.m1_i1 with
    | none => (.EFAULT,t)
    | some rp => (.OK,t.setProc rp fun p => { p with group := m.m1_i2 })

/-- One request: `switch (m.m_type)`, for the four function codes above. -/
def sys_task (order : List ρ) (m_type : ℕ) (k : Kernel ρ) (m : Message) : Option (Status × Message × Kernel ρ) :=
  if m_type = SYS_GETGROUP then
    let (r,m) := do_getGroup order k.table m
    some (r,m,k)
  else if m_type = SYS_SETGROUP then
    let (r,table) := do_setGroup order k.table m
    some (r,m,{ k with table := table })
  else if m_type = SYS_GETQUANTS then
    let (r,m) := do_getQuants k.quants m
    some (r,m,k)
  else if m_type = SYS_SETQUANTS then
    let (r,quants) := do_setQuants k.quants m
    some (r,m,{ k with quants := quants })
  else none

theorem do_setGroup_cases (order : List ρ) (t : Table ρ) (m : Message) :
    do_setGroup order t m = (.EFAULT,t) ∧
        ((m.m1_i2 < 0 ∨ m.m1_i2 > 2) ∨ findProcDescriptor order t m.m1_i1 = none) ∨
      ∃ rp, findProcDescriptor order t m.m1_i1 = some rp ∧ (0 ≤ m.m1_i2 ∧ m.m1_i2 ≤ 2) ∧
        do_setGroup order t m = (.OK,t.setProc rp fun p => { p with group := m.m1_i2 }) := by
  unfold do_setGroup
  split
  · next hrange => exact Or.inl ⟨rfl,Or.inl hrange⟩
  · next hrange =>
    cases hfind : findProcDescriptor order t m.m1_i1 with
    | none => exact Or.inl ⟨rfl,Or.inr rfl⟩
    | some rp => exact Or.inr ⟨rp,rfl,by omega,rfl⟩

end SOI.Scheduling

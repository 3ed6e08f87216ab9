import SOI.Library.Parents

/-! # The process table of the memory manager

The parent of a process is stored as an index, which need not be one of the table, and
means something for processes in use only.
-/
namespace SOI.Syscalls
open Parents

abbrev IN_USE : UInt32 := 0x001

/-- The fields of an entry that the system calls look at. -/
structure MProc where
  mp_pid : ℤ := 0
  mp_parent : ℤ := 0
  mp_flags : UInt32 := 0

def MProc.inUse (p : MProc) : Bool := p.mp_flags &&& IN_USE ≠ 0

variable {NR_PROCS : ℕ}

def parentOf (mproc : Fin NR_PROCS → MProc) (i : Fin NR_PROCS) : Option (Fin NR_PROCS) :=
  if (mproc i).inUse then (List.finRange NR_PROCS).find? fun p => (mproc i).mp_parent = (p : ℕ) else none

theorem parentOf_eq_some {mproc : Fin NR_PROCS → MProc} {i p : Fin NR_PROCS} :
    parentOf mproc i = some p ↔ (mproc i).inUse = true ∧ (mproc i).mp_parent = (p : ℕ) := by
  unfold parentOf
  split
  · next huse =>
    refine ⟨fun h => ⟨huse,by simpa using List.find?_some h⟩,fun h => ?_⟩
    cases hfind : (List.finRange NR_PROCS).find? fun p : Fin NR_PROCS => decide ((mproc i).mp_parent = (p : ℕ)) with
    | none =>
      have hnone := List.find?_eq_none.mp hfind p (List.mem_finRange p)
      exact absurd (decide_eq_true h.2) hnone
    | some q =>
      have hq : (mproc i).mp_parent = (q : ℕ) := by simpa using List.find?_some hfind
      have hpq := h.2.symm.trans hq
      rw [Fin.ext (by omega : (p : ℕ) = q)]
  · next huse =>
    refine ⟨fun h => ?_,fun h => absurd h.1 huse⟩
    cases h

end SOI.Syscalls

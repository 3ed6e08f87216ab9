import Mathlib.Tactic

/-! # Semaphores and the guards of the bounded buffer

Both buffers test the number of stored elements with the same predicates. Each
comparison reads `values.size()` once, so a guard is the list of its comparisons
in source order and `&&` is evaluated one comparison at a time.
-/
namespace SOI.Synchronization

def p : ℕ → Option ℕ
  | 0 => none
  | n + 1 => some n

def v (n : ℕ) : ℕ := n + 1

@[simp] theorem p_eq_some {n m : ℕ} : p n = some m ↔ n = m + 1 := by
  cases n <;> simp [p]

@[simp] theorem p_eq_none {n : ℕ} : p n = none ↔ n = 0 := by
  cases n <;> simp [p]

def BUFFER_SIZE : ℕ := 9

/-- One comparison of `values.size()` with a constant. -/
inductive Comparison
  | below (bound : ℕ)
  | above (bound : ℕ)
  deriving DecidableEq, Repr

def Comparison.holds (size : ℕ) : Comparison → Bool
  | .below bound => size < bound
  | .above bound => bound < size

abbrev Guard := List Comparison

def Guard.passes (size : ℕ) (g : Guard) : Bool := g.all (Comparison.holds size)

def canA : Guard := [.below 5]
def canB : Guard := [.above 3, .below BUFFER_SIZE]
def canCons : Guard := [.above 0]

@[simp] theorem passes_canA (size : ℕ) : Guard.passes size canA = true ↔ size < 5 := by
  simp [Guard.passes, canA, Comparison.holds]

@[simp] theorem passes_canB (size : ℕ) :
    Guard.passes size canB = true ↔ 3 < size ∧ size < BUFFER_SIZE := by
  simp [Guard.passes, canB, Comparison.holds]

@[simp] theorem passes_canCons (size : ℕ) : Guard.passes size canCons = true ↔ 0 < size := by
  simp [Guard.passes, canCons, Comparison.holds]

/-- The comparisons still to be made are the end of the guard, and those made
before them have all been true of the present size. -/
def Guard.PartWay (size : ℕ) (g todo : Guard) : Prop :=
  ∃ made : Guard, g = made ++ todo ∧ Guard.passes size made = true

theorem Guard.PartWay.start (size : ℕ) (g : Guard) : Guard.PartWay size g g :=
  ⟨[],rfl,rfl⟩

theorem Guard.PartWay.next {size : ℕ} {g todo : Guard} {c : Comparison}
    (h : Guard.PartWay size g (c :: todo)) (hc : c.holds size = true) : Guard.PartWay size g todo := by
  obtain ⟨made,rfl,hm⟩ := h
  refine ⟨made ++ [c],by simp,?_⟩
  simpa [Guard.passes, hc] using hm

theorem Guard.PartWay.done {size : ℕ} {g : Guard} (h : Guard.PartWay size g []) :
    Guard.passes size g = true := by
  obtain ⟨made,rfl,hm⟩ := h
  simpa using hm

theorem Guard.PartWay.fails {size : ℕ} {g todo : Guard} {c : Comparison}
    (h : Guard.PartWay size g (c :: todo)) (hc : c.holds size = false) :
    Guard.passes size g = false := by
  obtain ⟨made,rfl,-⟩ := h
  simp [Guard.passes, hc]

end SOI.Synchronization

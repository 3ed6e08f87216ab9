import SOI.Library.FirstMax
import SOI.Syscalls.Descendants

/-! # The largest number of descendants within bounds

The test for the bounds is a chain of two comparisons. The first one gives 0 or 1, and it is
this number that the second one compares with the upper bound: with a positive upper bound
every process passes, with a negative one none does, and with zero those below the lower
bound do.
-/
namespace SOI.Syscalls
open Parents FirstMax
variable {NR_PROCS : ℕ} (mproc : Fin NR_PROCS → MProc)

def chainedTest (A descendants B : ℤ) : Bool := (if A ≤ descendants then (1 : ℤ) else 0) ≤ B

def boundsTurn (A B : ℤ) (best : ℤ × ℤ) (proc_nr : Fin NR_PROCS) : Except Stop (ℤ × ℤ) :=
  if (mproc proc_nr).inUse then
    (countAllDescendants mproc proc_nr A B).map fun (descendants : ℕ) =>
      if best.1 < descendants && chainedTest A descendants B then ((descendants : ℤ),(mproc proc_nr).mp_pid) else best
  else .ok best

def maxDescendantsInBounds (A B : ℤ) : Except Stop (ℤ × ℤ) :=
  (List.finRange NR_PROCS).foldlM (boundsTurn mproc A B) (-1,-1)

/-- How many processes in use, other than `p`, have it among their ancestors. -/
noncomputable def numberOfDescendants (p : Fin NR_PROCS) : ℕ :=
  {i | (mproc i).inUse = true ∧ i ≠ p ∧ ∃ k, 1 ≤ k ∧ climb (parentOf mproc) k i = some p}.ncard

def InBounds (A B : ℤ) (p : Fin NR_PROCS) : Prop :=
  (mproc p).inUse = true ∧ A ≤ numberOfDescendants mproc p ∧ numberOfDescendants mproc p ≤ B

/-- The largest of the numbers in the interval with the first process that has it, or
nothing if there is none. -/
def LargestInBounds (A B : ℤ) (r : ℤ × ℤ) : Prop :=
  (r = (-1,-1) ∧ ∀ p, ¬ InBounds mproc A B p) ∨
    ∃ p, InBounds mproc A B p ∧ r = ((numberOfDescendants mproc p : ℤ),(mproc p).mp_pid) ∧
      (∀ q, InBounds mproc A B q → numberOfDescendants mproc q ≤ numberOfDescendants mproc p) ∧
      ∀ q < p, InBounds mproc A B q → numberOfDescendants mproc q < numberOfDescendants mproc p

/-- What the test is meant to be. -/
def intervalTest (A descendants B : ℤ) : Bool := A ≤ descendants && descendants ≤ B

noncomputable def passing (test : ℤ → Bool) (p : Fin NR_PROCS) : Option ℤ :=
  if (mproc p).inUse && test (numberOfDescendants mproc p) then some (numberOfDescendants mproc p : ℤ) else none

variable {mproc} {A B v : ℤ} {p : Fin NR_PROCS} {test : ℤ → Bool} {r : ℤ × ℤ}

theorem numberOfDescendants_eq : numberOfDescendants mproc p =
    (within (parentOf mproc) p (Fintype.card (Fin NR_PROCS))).card := by
  rw [numberOfDescendants, ← Set.ncard_coe_finset]
  congr 1
  ext i
  rw [Finset.mem_coe, mem_within_card]
  constructor
  · rintro ⟨-,hne,k,-,hclimb⟩
    exact ⟨hne,k,hclimb⟩
  · rintro ⟨hne,k,hclimb⟩
    cases k with
    | zero => exact absurd (Option.some_injective _ hclimb) hne
    | succ k =>
      obtain ⟨q,hq,-⟩ := climb_succ_iff.mp hclimb
      exact ⟨(parentOf_eq_some.mp hq).1,hne,k + 1,by omega,hclimb⟩

theorem countAllDescendants_eq (mproc : Fin NR_PROCS → MProc) (p : Fin NR_PROCS) (A B : ℤ) :
    countAllDescendants mproc p A B = .ok (numberOfDescendants mproc p) := by
  obtain ⟨s,hs,-,hcount⟩ := allDescendantsRun_spec mproc p
  rw [countAllDescendants, hs, Except.map, hcount, numberOfDescendants_eq]

theorem intervalTest_iff : intervalTest A v B = true ↔ A ≤ v ∧ v ≤ B := by
  rw [intervalTest, Bool.and_eq_true, decide_eq_true_eq, decide_eq_true_eq]

theorem passing_eq_some : passing mproc test p = some v ↔
    (mproc p).inUse = true ∧ test v = true ∧ (numberOfDescendants mproc p : ℤ) = v := by
  unfold passing
  split
  · next h =>
    rw [Bool.and_eq_true] at h
    rw [Option.some_inj]
    refine ⟨?_,fun h' => h'.2.2⟩
    rintro rfl
    exact ⟨h.1,h.2,rfl⟩
  · next h =>
    constructor
    · intro hnone
      cases hnone
    · rintro ⟨huse,htest,rfl⟩
      rw [huse, htest] at h
      exact absurd rfl h

theorem boundsTurn_eq (mproc : Fin NR_PROCS → MProc) (A B : ℤ) (best : ℤ × ℤ) (p : Fin NR_PROCS) :
    boundsTurn mproc A B best p =
      .ok (keep (passing mproc (chainedTest A · B)) (fun p => (mproc p).mp_pid) best p) := by
  rw [boundsTurn, countAllDescendants_eq, Except.map, keep, passing]
  cases (mproc p).inUse with
  | false => rfl
  | true =>
    cases chainedTest A (numberOfDescendants mproc p) B with
    | false => simp
    | true => simp

/-- The loop keeps the first of the largest among those that pass the chained test. -/
theorem maxDescendantsInBounds_spec (mproc : Fin NR_PROCS → MProc) (A B : ℤ) :
    ∃ r, maxDescendantsInBounds mproc A B = .ok r ∧
      IsFirstMax (passing mproc (chainedTest A · B)) (fun p => (mproc p).mp_pid) (-1,-1) (List.finRange NR_PROCS) r := by
  refine ⟨_,?_,foldl_keep _ _ _ _⟩
  have hturn : boundsTurn mproc A B = fun best p =>
      .ok (keep (passing mproc (chainedTest A · B)) (fun p => (mproc p).mp_pid) best p) := by
    funext best p
    exact boundsTurn_eq mproc A B best p
  rw [maxDescendantsInBounds, hturn]
  exact List.foldlM_pure

/-- What is asked for is the first of the largest among those that are in the interval. -/
theorem largestInBounds_iff : LargestInBounds mproc A B r ↔ IsFirstMax (passing mproc (intervalTest A · B))
    (fun p => (mproc p).mp_pid) (-1,-1) (List.finRange NR_PROCS) r := by
  have hvalue : ∀ p v, passing mproc (intervalTest A · B) p = some v ↔
      InBounds mproc A B p ∧ (numberOfDescendants mproc p : ℤ) = v := by
    intro p v
    rw [passing_eq_some, intervalTest_iff]
    constructor
    · rintro ⟨huse,hbounds,rfl⟩
      exact ⟨⟨huse,hbounds⟩,rfl⟩
    · rintro ⟨⟨huse,hbounds⟩,rfl⟩
      exact ⟨huse,hbounds,rfl⟩
  rw [isFirstMax_finRange]
  refine or_congr (and_congr_right fun _ => ?_) ?_
  · constructor
    · intro hnone p v hv
      exact absurd ((hvalue p v).mp hv).1 (hnone p)
    · intro hall p hp
      have hle := hall p _ ((hvalue p _).mpr ⟨hp,rfl⟩)
      dsimp only at hle
      omega
  · refine exists_congr fun p => ?_
    constructor
    · rintro ⟨hp,rfl,hlargest,hfirst⟩
      refine ⟨(hvalue p _).mpr ⟨hp,rfl⟩,rfl,by dsimp only; omega,fun q hq v hv => ?_,fun q v hv => ?_⟩
      · obtain ⟨hq',rfl⟩ := (hvalue q v).mp hv
        exact Nat.cast_lt.mpr (hfirst q hq hq')
      · obtain ⟨hq',rfl⟩ := (hvalue q v).mp hv
        exact Nat.cast_le.mpr (hlargest q hq')
    · rintro ⟨hp,hname,-,hfirst,hlargest⟩
      obtain ⟨hp,hnumber⟩ := (hvalue p _).mp hp
      refine ⟨hp,Prod.ext hnumber.symm hname.symm,fun q hq => ?_,fun q hlt hq => ?_⟩
      · have hle := hlargest q _ ((hvalue q _).mpr ⟨hq,rfl⟩)
        omega
      · have hlt := hfirst q hlt _ ((hvalue q _).mpr ⟨hq,rfl⟩)
        omega

theorem chainedTest_of_pos (hB : 1 ≤ B) : chainedTest A v B = true := by
  rw [chainedTest, decide_eq_true_eq]
  split <;> omega

theorem chainedTest_of_neg (hB : B < 0) : chainedTest A v B = false := by
  rw [chainedTest, decide_eq_false_iff_not]
  split <;> omega

theorem chainedTest_zero : chainedTest A v 0 = true ↔ v < A := by
  rw [chainedTest, decide_eq_true_eq]
  split <;> omega

section Loop
variable {name : Fin NR_PROCS → ℤ} (h : IsFirstMax (passing mproc test) name (-1,-1) (List.finRange NR_PROCS) r)
include h

theorem passing_le (huse : (mproc p).inUse = true) (htest : test (numberOfDescendants mproc p) = true) :
    numberOfDescendants mproc p ≤ r.1 :=
  h.le (List.mem_finRange p) (passing_eq_some.mpr ⟨huse,htest,rfl⟩)

theorem exists_passing (hr : 0 ≤ r.1) :
    ∃ p, (mproc p).inUse = true ∧ test r.1 = true ∧ (numberOfDescendants mproc p : ℤ) = r.1 := by
  have hne : r ≠ (-1,-1) := by
    rintro rfl
    exact absurd hr (by decide)
  obtain ⟨p,-,hp,-⟩ := h.attained hne
  exact ⟨p,passing_eq_some.mp hp⟩

theorem retest {test' : ℤ → Bool}
    (hsub : ∀ p, (mproc p).inUse = true → test' (numberOfDescendants mproc p) = true →
      test (numberOfDescendants mproc p) = true)
    (hlargest : ∀ p, (mproc p).inUse = true → test r.1 = true → test' r.1 = true) :
    IsFirstMax (passing mproc test') name (-1,-1) (List.finRange NR_PROCS) r := by
  refine h.restrict (fun p v hv => ?_) fun p hp => ?_
  · obtain ⟨huse,htest,rfl⟩ := passing_eq_some.mp hv
    exact passing_eq_some.mpr ⟨huse,hsub p huse htest,rfl⟩
  · obtain ⟨huse,htest,hnumber⟩ := passing_eq_some.mp hp
    exact passing_eq_some.mpr ⟨huse,hlargest p huse htest,hnumber⟩

end Loop

/-- With an upper bound of zero the code passes over the processes that are in the interval,
and takes others. -/
theorem fails_at_zero (hforest : Acyclic (parentOf mproc)) (huse : (mproc p).inUse = true)
    (hcode : IsFirstMax (passing mproc (chainedTest A · 0)) (fun p => (mproc p).mp_pid) (-1,-1)
      (List.finRange NR_PROCS) r) :
    ¬ IsFirstMax (passing mproc (intervalTest A · 0)) (fun p => (mproc p).mp_pid) (-1,-1)
      (List.finRange NR_PROCS) r := by
  intro hasked
  obtain ⟨q,hq,hchildless⟩ := hforest.exists_childless (S := {i | (mproc i).inUse = true})
    (fun i q hi => (parentOf_eq_some.mp hi).1) huse
  have hzero : numberOfDescendants mproc q = 0 := by
    rw [numberOfDescendants_eq, hchildless, Finset.card_empty]
  by_cases hA : A ≤ 0
  · have hle := passing_le hasked hq (intervalTest_iff.mpr (by omega))
    obtain ⟨-,-,htest,-⟩ := exists_passing hcode (by omega)
    have hlt := chainedTest_zero.mp htest
    omega
  · have hle := passing_le hcode hq (chainedTest_zero.mpr (by omega))
    obtain ⟨-,-,htest,-⟩ := exists_passing hasked (by omega)
    have hbounds := intervalTest_iff.mp htest
    omega

/-- The result is what is asked for exactly if no process is in use, or the upper bound is
negative, or it is positive with no number above it and some number not below the lower
bound. -/
theorem bounds_met_iff (mproc : Fin NR_PROCS → MProc) (hforest : Acyclic (parentOf mproc)) (A B : ℤ) :
    (∃ r, maxDescendantsInBounds mproc A B = .ok r ∧ LargestInBounds mproc A B r) ↔
      (∀ p, (mproc p).inUse = false) ∨ B < 0 ∨
        (1 ≤ B ∧ (∀ p, (mproc p).inUse = true → numberOfDescendants mproc p ≤ B) ∧
          ∃ p, (mproc p).inUse = true ∧ A ≤ numberOfDescendants mproc p) := by
  obtain ⟨r,hr,hcode⟩ := maxDescendantsInBounds_spec mproc A B
  have hresult : (∃ r, maxDescendantsInBounds mproc A B = .ok r ∧ LargestInBounds mproc A B r) ↔
      LargestInBounds mproc A B r := by
    constructor
    · rintro ⟨r',hr',hlargest⟩
      rw [hr] at hr'
      cases hr'
      exact hlargest
    · exact fun hlargest => ⟨r,hr,hlargest⟩
  rw [hresult, largestInBounds_iff]
  constructor
  · intro hasked
    by_cases hnone : ∀ p, (mproc p).inUse = false
    · exact Or.inl hnone
    obtain ⟨p,hp⟩ := not_forall.mp hnone
    rw [Bool.not_eq_false] at hp
    rcases lt_trichotomy B 0 with hB | rfl | hB
    · exact Or.inr (Or.inl hB)
    · exact absurd hasked (fails_at_zero hforest hp hcode)
    · have hle : ∀ q, (mproc q).inUse = true → (numberOfDescendants mproc q : ℤ) ≤ r.1 :=
        fun q hq => passing_le hcode hq (chainedTest_of_pos hB)
      obtain ⟨q,hq,htest,hnumber⟩ := exists_passing hasked ((Nat.cast_nonneg _).trans (hle p hp))
      obtain ⟨hlow,hhigh⟩ := intervalTest_iff.mp htest
      exact Or.inr (Or.inr ⟨hB,fun q hq => (hle q hq).trans hhigh,q,hq,hlow.trans_eq hnumber.symm⟩)
  · rintro (hnone | hB | ⟨hB,hle,p,hp,hA⟩)
    · refine retest hcode (fun p huse => ?_) fun p huse => ?_
      · rw [hnone p] at huse
        cases huse
      · rw [hnone p] at huse
        cases huse
    · refine retest hcode (fun p _ htest => ?_) fun p _ htest => ?_
      · have hbounds := intervalTest_iff.mp htest
        omega
      · rw [chainedTest_of_neg hB] at htest
        cases htest
    · refine retest hcode (fun p _ _ => chainedTest_of_pos hB) fun q hq _ => ?_
      have hlow := passing_le hcode hp (chainedTest_of_pos hB)
      obtain ⟨q',hq',-,hnumber⟩ := exists_passing hcode ((Nat.cast_nonneg _).trans hlow)
      have hhigh := hle q' hq'
      exact intervalTest_iff.mpr (by omega)

theorem family_bounds_met : ∃ r, maxDescendantsInBounds family 0 3 = .ok r ∧ LargestInBounds family 0 3 r := by
  have hcount : ∀ p, numberOfDescendants family p ≤ 3 := by
    intro p
    rw [numberOfDescendants_eq]
    revert p
    decide
  exact (bounds_met_iff family acyclic_family 0 3).mpr
    (Or.inr (Or.inr ⟨by decide,fun p _ => by exact_mod_cast hcount p,0,rfl,Nat.cast_nonneg _⟩))

def twoChildren (i : Fin 64) : MProc :=
  if i.val < 3 then { mp_pid := i.val, mp_parent := 0, mp_flags := IN_USE } else {}

/-- The process with two descendants is chosen though the upper bound is one. -/
theorem twoChildren_exceeds : Acyclic (parentOf twoChildren) ∧
    maxDescendantsInBounds twoChildren 0 1 = .ok (2,0) ∧
    ¬ ∃ r, maxDescendantsInBounds twoChildren 0 1 = .ok r ∧ LargestInBounds twoChildren 0 1 r := by
  have hrun : maxDescendantsInBounds twoChildren 0 1 = .ok (2,0) := by rfl
  refine ⟨acyclic_of_rank Fin.val fun i j hj => ?_,hrun,?_⟩
  · have hparent := (parentOf_eq_some.mp hj).2
    have hzero : (twoChildren i).mp_parent = 0 := by
      unfold twoChildren
      split <;> rfl
    rw [hzero] at hparent
    by_cases hij : j = i
    · exact Or.inl hij
    · have hne : j.val ≠ i.val := fun heq => hij (Fin.ext heq)
      omega
  · rintro ⟨r,hr,hlargest⟩
    rw [hrun] at hr
    cases hr
    rcases hlargest with ⟨heq,-⟩ | ⟨p,⟨-,-,hhigh⟩,heq,-⟩
    · cases heq
    · have hnumber := congrArg Prod.fst heq
      dsimp only at hnumber
      omega

end SOI.Syscalls

import SOI.Syscalls.Mproc

/-! # The search for the longest chain to a childless process

The search keeps its own stack of processes with their depths. A process is marked when it
is popped, not when it is pushed, so that the stack is large enough follows from what has
been pushed altogether: every process has one parent, and none is expanded twice.
-/
namespace SOI.Syscalls
variable {NR_PROCS : ℕ}

/-- The entries with their depths, the top first, and what has been printed. -/
structure Stack (NR_PROCS : ℕ) where
  entries : List (Fin NR_PROCS × ℤ) := []
  printed : List String := []

def pushToStack (s : Stack NR_PROCS) (procNr : Fin NR_PROCS) (procDepth : ℤ) : Stack NR_PROCS :=
  if NR_PROCS ≤ s.entries.length then { s with printed := s.printed ++ ["Error: Stack overflow\n"] }
  else { s with entries := (procNr,procDepth) :: s.entries }

/-- The variables keep their `old` values when there is nothing to pop. -/
def popFromStack (s : Stack NR_PROCS) (old : Fin NR_PROCS × ℤ) : Stack NR_PROCS × (Fin NR_PROCS × ℤ) :=
  match s.entries with
  | [] => ({ s with printed := s.printed ++ ["Error: Stack underflow\n"] },old)
  | e :: rest => ({ s with entries := rest },e)

variable (mproc : Fin NR_PROCS → MProc)

def isChild (parentProc candidate : Fin NR_PROCS) : Bool :=
  (mproc candidate).inUse && (mproc candidate).mp_parent = (parentProc : ℕ)

def procHasChildren (currentProc : Fin NR_PROCS) : Bool :=
  (List.finRange NR_PROCS).any fun procNr => isChild mproc currentProc procNr

def pushChildrenToStack (s : Stack NR_PROCS) (currentProc : Fin NR_PROCS) (procDepth excluded : ℤ) : Stack NR_PROCS :=
  (List.finRange NR_PROCS).foldl (fun s i =>
    if isChild mproc currentProc i && (mproc i).mp_pid ≠ excluded then pushToStack s i (procDepth + 1) else s) s

/-- The variables of `determinePathToChildless`. -/
structure Search (NR_PROCS : ℕ) where
  stack : Stack NR_PROCS
  visitedProcs : Fin NR_PROCS → Bool := fun _ => false
  maxDepth : ℤ := -1
  current : Fin NR_PROCS × ℤ

def turn (excluded : ℤ) (s : Search NR_PROCS) : Search NR_PROCS :=
  let (stack,current) := popFromStack s.stack s.current
  let s := { s with stack := stack, current := current }
  if (mproc current.1).mp_pid = excluded || !(mproc current.1).inUse then s
  else if s.visitedProcs current.1 then s
  else
    let s := { s with visitedProcs := Function.update s.visitedProcs current.1 true }
    if !procHasChildren mproc current.1 then
      if s.maxDepth < current.2 then { s with maxDepth := current.2 } else s
    else { s with stack := pushChildrenToStack mproc s.stack current.1 current.2 excluded }

/-- The loop, for so many turns at most. -/
def search (excluded : ℤ) : ℕ → Search NR_PROCS → Option (Search NR_PROCS)
  | 0, s => if s.stack.entries.isEmpty then some s else none
  | fuel + 1, s => if s.stack.entries.isEmpty then some s else search excluded fuel (turn mproc excluded s)

def startSearch (start_proc : Fin NR_PROCS) : Search NR_PROCS :=
  { stack := pushToStack {} start_proc 1, current := (start_proc,0) }

def determinePathToChildless (start_proc : Fin NR_PROCS) (excluded : ℤ) : Option (ℤ × List String) :=
  (search mproc excluded (NR_PROCS + 1) (startSearch start_proc)).map fun s =>
    let maxDepth := s.maxDepth
    (maxDepth,s.stack.printed ++ [s!"Returning max depth {maxDepth}\n"])

def longestChildlessChain (excluded : ℤ) : Option ((ℤ × ℤ) × List String) :=
  (List.finRange NR_PROCS).foldlM (fun best procNr =>
    if !(mproc procNr).inUse || (mproc procNr).mp_pid = excluded then some best
    else (determinePathToChildless mproc procNr excluded).map fun r =>
      (if best.1.1 < r.1 then (r.1,(mproc procNr).mp_pid) else best.1,best.2 ++ r.2)) ((-1,-1),[])

def afterTurns (excluded : ℤ) (start_proc : Fin NR_PROCS) : ℕ → Option (Search NR_PROCS)
  | 0 => some (startSearch start_proc)
  | k + 1 => (afterTurns excluded start_proc k).bind fun s =>
    if s.stack.entries.isEmpty then none else some (turn mproc excluded s)

def pushable (excluded : ℤ) (p i : Fin NR_PROCS) : Bool := isChild mproc p i && (mproc i).mp_pid ≠ excluded

def childrenToPush (excluded : ℤ) (p : Fin NR_PROCS) : List (Fin NR_PROCS) :=
  (List.finRange NR_PROCS).filter (pushable mproc excluded p)

def pushed (excluded : ℤ) (visitedProcs : Fin NR_PROCS → Bool) : Finset (Fin NR_PROCS) :=
  Finset.univ.filter fun i => ∃ v, visitedProcs v = true ∧ pushable mproc excluded v i = true

/-- In use and not excluded: only such processes are visited. -/
def usable (excluded : ℤ) (p : Fin NR_PROCS) : Bool := (mproc p).inUse && (mproc p).mp_pid ≠ excluded

/-- The search when the popped process `e` has been visited. -/
def afterVisit (excluded : ℤ) (s : Search NR_PROCS) (e : Fin NR_PROCS × ℤ) (rest : List (Fin NR_PROCS × ℤ)) :
    Search NR_PROCS where
  stack := { s.stack with entries := ((childrenToPush mproc excluded e.1).map (·,e.2 + 1)).reverse ++ rest }
  visitedProcs := Function.update s.visitedProcs e.1 true
  maxDepth := if procHasChildren mproc e.1 then s.maxDepth else max s.maxDepth e.2
  current := e

variable {mproc} {excluded d : ℤ} {p q i start_proc : Fin NR_PROCS} {k : ℕ} {s s' : Search NR_PROCS}
  {e : Fin NR_PROCS × ℤ} {rest : List (Fin NR_PROCS × ℤ)} {visitedProcs : Fin NR_PROCS → Bool}

theorem isChild_iff : isChild mproc p i = true ↔ parentOf mproc i = some p := by
  rw [parentOf_eq_some, isChild, Bool.and_eq_true, decide_eq_true_eq]

theorem procHasChildren_iff : procHasChildren mproc p = true ↔ ∃ i, isChild mproc p i = true := by
  simp [procHasChildren]

theorem pushable_iff : pushable mproc excluded p i = true ↔ isChild mproc p i = true ∧ (mproc i).mp_pid ≠ excluded := by
  simp [pushable]

theorem usable_iff : usable mproc excluded p = true ↔ (mproc p).inUse = true ∧ (mproc p).mp_pid ≠ excluded := by
  simp [usable]

theorem usable_of_pushable (h : pushable mproc excluded p i = true) : usable mproc excluded i = true := by
  obtain ⟨hchild,hpid⟩ := pushable_iff.mp h
  exact usable_iff.mpr ⟨(parentOf_eq_some.mp (isChild_iff.mp hchild)).1,hpid⟩

theorem parent_unique (h : pushable mproc excluded p i = true) (h' : pushable mproc excluded q i = true) : p = q := by
  have hp := isChild_iff.mp (pushable_iff.mp h).1
  have hq := isChild_iff.mp (pushable_iff.mp h').1
  exact Option.some_injective _ (hp.symm.trans hq)

theorem mem_childrenToPush : i ∈ childrenToPush mproc excluded p ↔ pushable mproc excluded p i = true := by
  simp [childrenToPush]

theorem mem_pushed : i ∈ pushed mproc excluded visitedProcs ↔
    ∃ v, visitedProcs v = true ∧ pushable mproc excluded v i = true := by
  simp [pushed]

theorem pushAll_eq {s : Stack NR_PROCS} {xs : List (Fin NR_PROCS)} (hroom : s.entries.length + xs.length ≤ NR_PROCS) :
    xs.foldl (fun s i => pushToStack s i d) s = { s with entries := (xs.map (·,d)).reverse ++ s.entries } := by
  induction xs generalizing s with
  | nil => rfl
  | cons x xs ih =>
    rw [List.length_cons] at hroom
    have hpush : pushToStack s x d = { s with entries := (x,d) :: s.entries } := if_neg (by omega)
    rw [List.foldl_cons, hpush, ih (by rw [List.length_cons]; omega)]
    simp

theorem pushChildrenToStack_eq {s : Stack NR_PROCS}
    (hroom : s.entries.length + (childrenToPush mproc excluded p).length ≤ NR_PROCS) :
    pushChildrenToStack mproc s p d excluded =
      { s with entries := ((childrenToPush mproc excluded p).map (·,d + 1)).reverse ++ s.entries } := by
  rw [← pushAll_eq hroom, childrenToPush, List.foldl_filter]
  rfl

theorem turn_skip (hentries : s.stack.entries = e :: rest)
    (hskip : usable mproc excluded e.1 = false ∨ s.visitedProcs e.1 = true) :
    turn mproc excluded s = { s with stack := { s.stack with entries := rest }, current := e } := by
  unfold turn popFromStack
  rw [hentries]
  dsimp only
  split
  · rfl
  next htest =>
  rw [if_pos]
  refine hskip.resolve_left fun huse => htest ?_
  simpa [usable, imp_iff_not_or, or_comm] using huse

theorem turn_visit (hentries : s.stack.entries = e :: rest) (huse : usable mproc excluded e.1 = true)
    (hnew : s.visitedProcs e.1 = false) (hroom : rest.length + (childrenToPush mproc excluded e.1).length ≤ NR_PROCS) :
    turn mproc excluded s = afterVisit mproc excluded s e rest := by
  obtain ⟨hin,hpid⟩ := usable_iff.mp huse
  unfold turn popFromStack afterVisit
  rw [hentries]
  simp only [hin, hpid, hnew, Bool.not_true, Bool.or_false, decide_false, Bool.false_eq_true, if_false]
  cases hchildren : procHasChildren mproc e.1 with
  | true =>
    simp only [Bool.not_true, Bool.false_eq_true, if_false, if_true]
    rw [pushChildrenToStack_eq hroom]
  | false =>
    have hnone : childrenToPush mproc excluded e.1 = [] := by
      refine List.eq_nil_iff_forall_not_mem.mpr fun i hi => ?_
      have hchild := (pushable_iff.mp (mem_childrenToPush.mp hi)).1
      rw [procHasChildren_iff.mpr ⟨i,hchild⟩] at hchildren
      cases hchildren
    simp only [Bool.not_false, if_true, Bool.false_eq_true, if_false, hnone, List.map_nil, List.reverse_nil,
      List.nil_append]
    split
    · next hlt => rw [max_eq_right hlt.le]
    · next hge => rw [max_eq_left (not_lt.mp hge)]

/-- What holds at the start and is kept by every turn holds after any number of them. -/
theorem afterTurns_induction {P : ℕ → Search NR_PROCS → Prop} (hstart : P 0 (startSearch start_proc))
    (hturn : ∀ k s e rest, afterTurns mproc excluded start_proc k = some s → P k s → s.stack.entries = e :: rest →
      P (k + 1) (turn mproc excluded s)) (h : afterTurns mproc excluded start_proc k = some s) : P k s := by
  induction k generalizing s with
  | zero =>
    cases h
    exact hstart
  | succ k ih =>
    obtain ⟨s₀,hs₀,hnext⟩ := Option.bind_eq_some_iff.mp h
    cases hentries : s₀.stack.entries with
    | nil =>
      rw [hentries] at hnext
      cases hnext
    | cons e rest =>
      rw [hentries] at hnext
      cases hnext
      exact hturn k s₀ e rest hs₀ (ih hs₀) hentries

theorem pushed_card_le : (pushed mproc excluded visitedProcs).card ≤ NR_PROCS := by
  have hle := Finset.card_le_univ (pushed mproc excluded visitedProcs)
  rwa [Fintype.card_fin] at hle

theorem pushed_update (hnew : visitedProcs p = false) :
    (pushed mproc excluded (Function.update visitedProcs p true)).card =
      (pushed mproc excluded visitedProcs).card + (childrenToPush mproc excluded p).length := by
  have hnodup : (childrenToPush mproc excluded p).Nodup := (List.nodup_finRange NR_PROCS).filter _
  rw [← List.toFinset_card_of_nodup hnodup, ← Finset.card_union_of_disjoint]
  · congr 1
    ext i
    rw [Finset.mem_union, mem_pushed, mem_pushed, List.mem_toFinset, mem_childrenToPush]
    constructor
    · rintro ⟨v,hv,hi⟩
      by_cases hvp : v = p
      · exact Or.inr (hvp ▸ hi)
      · rw [Function.update_of_ne hvp] at hv
        exact Or.inl ⟨v,hv,hi⟩
    · rintro (⟨v,hv,hi⟩ | hi)
      · have hvp : v ≠ p := by
          rintro rfl
          rw [hnew] at hv
          cases hv
        exact ⟨v,by rwa [Function.update_of_ne hvp],hi⟩
      · exact ⟨p,Function.update_self ..,hi⟩
  · refine Finset.disjoint_left.mpr fun i hi hi' => ?_
    obtain ⟨v,hv,hvi⟩ := mem_pushed.mp hi
    rw [List.mem_toFinset, mem_childrenToPush] at hi'
    rw [parent_unique hvi hi', hnew] at hv
    cases hv

/-- After `k` turns: what has been popped or is on the stack has been pushed once. -/
structure Counted (mproc : Fin NR_PROCS → MProc) (excluded : ℤ) (k : ℕ) (s : Search NR_PROCS) : Prop where
  count : k + s.stack.entries.length = 1 + (pushed mproc excluded s.visitedProcs).card
  quiet : s.stack.printed = []

theorem startSearch_stack (start_proc : Fin NR_PROCS) :
    (startSearch start_proc).stack = { entries := [(start_proc,1)] } :=
  if_neg (Nat.not_le.mpr start_proc.pos)

theorem counted_start (mproc : Fin NR_PROCS → MProc) (excluded : ℤ) (start_proc : Fin NR_PROCS) :
    Counted mproc excluded 0 (startSearch start_proc) := by
  have hnone : pushed mproc excluded (startSearch start_proc).visitedProcs = ∅ := by
    refine Finset.eq_empty_of_forall_notMem fun i hi => ?_
    obtain ⟨v,hv,-⟩ := mem_pushed.mp hi
    cases hv
  refine ⟨?_,?_⟩
  · rw [startSearch_stack, hnone]
    rfl
  · rw [startSearch_stack]

/-- There is room for the children of a process that has not been visited. -/
theorem Counted.room (h : Counted mproc excluded k s) (hentries : s.stack.entries = e :: rest)
    (hnew : s.visitedProcs e.1 = false) : rest.length + (childrenToPush mproc excluded e.1).length ≤ NR_PROCS := by
  have hcount := h.count
  have hle := @pushed_card_le _ mproc excluded (Function.update s.visitedProcs e.1 true)
  rw [pushed_update hnew] at hle
  rw [hentries, List.length_cons] at hcount
  omega

theorem Counted.turn (h : Counted mproc excluded k s) (hentries : s.stack.entries = e :: rest) :
    Counted mproc excluded (k + 1) (turn mproc excluded s) := by
  have hcount := h.count
  rw [hentries, List.length_cons] at hcount
  by_cases hskip : usable mproc excluded e.1 = false ∨ s.visitedProcs e.1 = true
  · rw [turn_skip hentries hskip]
    refine ⟨?_,h.quiet⟩
    rw [← hcount]
    dsimp only
    omega
  · rw [not_or, Bool.not_eq_false, Bool.not_eq_true] at hskip
    rw [turn_visit hentries hskip.1 hskip.2 (h.room hentries hskip.2)]
    refine ⟨?_,h.quiet⟩
    simp only [afterVisit]
    rw [pushed_update hskip.2, ← add_assoc, ← hcount]
    simp only [List.length_append, List.length_reverse, List.length_map]
    omega

theorem counted_afterTurns (h : afterTurns mproc excluded start_proc k = some s) : Counted mproc excluded k s :=
  afterTurns_induction (counted_start mproc excluded start_proc) (fun _ _ _ _ _ hcounted => hcounted.turn) h

/-- The loop ends by itself. -/
theorem search_ends {fuel : ℕ} (h : afterTurns mproc excluded start_proc k = some s) (hfuel : NR_PROCS + 1 ≤ k + fuel) :
    ∃ l s', k ≤ l ∧ afterTurns mproc excluded start_proc l = some s' ∧ s'.stack.entries = [] ∧
      search mproc excluded fuel s = some s' := by
  induction fuel generalizing k s with
  | zero =>
    have hcount := (counted_afterTurns h).count
    have hle := @pushed_card_le _ mproc excluded s.visitedProcs
    have hnil : s.stack.entries = [] := List.eq_nil_of_length_eq_zero (by omega)
    exact ⟨k,s,le_rfl,h,hnil,by rw [search, hnil]; rfl⟩
  | succ fuel ih =>
    cases hentries : s.stack.entries with
    | nil => exact ⟨k,s,le_rfl,h,hentries,by rw [search, hentries]; rfl⟩
    | cons e rest =>
      have hnext : afterTurns mproc excluded start_proc (k + 1) = some (turn mproc excluded s) := by
        rw [afterTurns, h, Option.bind_some, hentries]
        rfl
      obtain ⟨l,s',hl,hs',hnil,hsearch⟩ := ih hnext (by omega)
      refine ⟨l,s',by omega,hs',hnil,?_⟩
      rw [search, hentries]
      exact hsearch

/-- The search ends after at most one turn more than there are processes. Up to then the
stack holds at most as many entries as there are processes, nothing is printed by its
operations, and a turn that visits a process leaves all of its children on the stack that
are not excluded. -/
theorem stack_never_full (mproc : Fin NR_PROCS → MProc) (excluded : ℤ) (start_proc : Fin NR_PROCS) :
    (∀ k s, afterTurns mproc excluded start_proc k = some s →
      k ≤ NR_PROCS + 1 ∧ s.stack.entries.length ≤ NR_PROCS ∧ s.stack.printed = [] ∧
      ∀ e rest, s.stack.entries = e :: rest → usable mproc excluded e.1 = true → s.visitedProcs e.1 = false →
        (turn mproc excluded s).stack.entries =
          ((childrenToPush mproc excluded e.1).map (·,e.2 + 1)).reverse ++ rest) ∧
    ∃ k s, afterTurns mproc excluded start_proc k = some s ∧ s.stack.entries = [] ∧
      search mproc excluded (NR_PROCS + 1) (startSearch start_proc) = some s := by
  refine ⟨fun k s hs => ?_,?_⟩
  · have hcounted := counted_afterTurns hs
    have hcount := hcounted.count
    have hle := @pushed_card_le _ mproc excluded s.visitedProcs
    refine ⟨by omega,?_,hcounted.quiet,fun e rest hentries huse hnew => ?_⟩
    · cases k with
      | zero =>
        cases hs
        rw [startSearch_stack]
        exact start_proc.pos
      | succ k => omega
    · rw [turn_visit hentries huse hnew (hcounted.room hentries hnew), afterVisit]
  · obtain ⟨k,s,-,hs,hnil,hsearch⟩ := @search_ends _ mproc excluded start_proc 0 _ (NR_PROCS + 1) rfl (by omega)
    exact ⟨k,s,hs,hnil,hsearch⟩

end SOI.Syscalls

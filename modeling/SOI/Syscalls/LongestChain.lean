import SOI.Library.FirstMax
import SOI.Syscalls.ChildlessChain

/-! # What the longest chain is

A process other than the start is pushed at most once, by its parent, with the length of
the simple path from the start. In the end every process on a path of usable processes
has been visited, and the depth of the deepest childless one is the longest path.
-/
namespace SOI.Syscalls
open FirstMax Parents
variable {NR_PROCS : ℕ} {mproc : Fin NR_PROCS → MProc} {excluded d : ℤ} {p q i start_proc v : Fin NR_PROCS} {k : ℕ}
  {s s' : Search NR_PROCS} {e : Fin NR_PROCS × ℤ} {rest : List (Fin NR_PROCS × ℤ)} {path : List (Fin NR_PROCS)}

/-- A simple path downwards from `start_proc` over processes in use that are not excluded,
to one that has no child in use at all. -/
structure ChildlessPath (mproc : Fin NR_PROCS → MProc) (excluded : ℤ) (start_proc : Fin NR_PROCS)
    (path : List (Fin NR_PROCS)) : Prop where
  head : path.head? = some start_proc
  nodup : path.Nodup
  usable : ∀ p ∈ path, (mproc p).inUse = true ∧ (mproc p).mp_pid ≠ excluded
  linked : path.IsChain fun p q => (mproc q).mp_parent = (p : ℕ)
  childless : ∀ p, path.getLast? = some p → ∀ i, (mproc i).inUse = true → (mproc i).mp_parent ≠ (p : ℕ)

/-- The largest length of such a path, -1 if there is none. -/
def LongestPath (mproc : Fin NR_PROCS → MProc) (excluded : ℤ) (start_proc : Fin NR_PROCS) (d : ℤ) : Prop :=
  (d = -1 ∧ ∀ path, ¬ ChildlessPath mproc excluded start_proc path) ∨
    (∃ path, ChildlessPath mproc excluded start_proc path ∧ path.length = d) ∧
      ∀ path, ChildlessPath mproc excluded start_proc path → path.length ≤ d

theorem ChildlessPath.simplePath (h : ChildlessPath mproc excluded start_proc path) (hlast : path.getLast? = some p) :
    SimplePath (parentOf mproc) start_proc p path := by
  refine ⟨h.head,hlast,?_,h.nodup⟩
  refine h.linked.imp_of_mem_imp fun a b _ hb hab => ?_
  exact parentOf_eq_some.mpr ⟨(h.usable b hb).1,hab⟩

theorem childlessPath_of_simplePath (h : SimplePath (parentOf mproc) start_proc p path)
    (husable : ∀ q ∈ path, usable mproc excluded q = true) (hchildless : procHasChildren mproc p = false) :
    ChildlessPath mproc excluded start_proc path := by
  refine ⟨h.head,h.nodup,fun q hq => usable_iff.mp (husable q hq),?_,fun q hq i huse hi => ?_⟩
  · exact h.linked.imp fun a b hab => (parentOf_eq_some.mp hab).2
  · rw [h.last] at hq
    cases hq
    rw [procHasChildren_iff.mpr ⟨i,isChild_iff.mpr (parentOf_eq_some.mpr ⟨huse,hi⟩)⟩] at hchildless
    cases hchildless

def Waiting (s : Search NR_PROCS) (i : Fin NR_PROCS) : Prop := ∃ e ∈ s.stack.entries, e.1 = i

/-- What is visited, what waits, and what has been found. -/
structure Explored (mproc : Fin NR_PROCS → MProc) (excluded : ℤ) (start_proc : Fin NR_PROCS)
    (s : Search NR_PROCS) : Prop where
  start : usable mproc excluded start_proc = true → s.visitedProcs start_proc = true ∨ Waiting s start_proc
  children : ∀ v i, s.visitedProcs v = true → pushable mproc excluded v i = true →
    s.visitedProcs i = true ∨ Waiting s i
  waiting : ∀ e ∈ s.stack.entries, (e.1 = start_proc ∧ s.visitedProcs start_proc = true) ∨
    ∃ path, SimplePath (parentOf mproc) start_proc e.1 path ∧ path.length = e.2 ∧
      ∀ p ∈ path, p = e.1 ∨ s.visitedProcs p = true
  visited : ∀ v, s.visitedProcs v = true → usable mproc excluded v = true ∧
    ∃ path, SimplePath (parentOf mproc) start_proc v path ∧
      (procHasChildren mproc v = false → path.length ≤ s.maxDepth)
  found : s.maxDepth = -1 ∨ ∃ path, ChildlessPath mproc excluded start_proc path ∧ path.length = s.maxDepth

theorem explored_start (mproc : Fin NR_PROCS → MProc) (excluded : ℤ) (start_proc : Fin NR_PROCS) :
    Explored mproc excluded start_proc (startSearch start_proc) := by
  have hentries : (startSearch start_proc).stack.entries = [(start_proc,1)] := by rw [startSearch_stack]
  refine ⟨fun _ => Or.inr ⟨(start_proc,1),?_,rfl⟩,?_,fun e he => Or.inr ?_,?_,Or.inl rfl⟩
  · rw [hentries]
    exact List.mem_singleton_self _
  · rintro v i ⟨⟩
  · rw [hentries] at he
    obtain rfl := List.mem_singleton.mp he
    exact ⟨[start_proc],SimplePath.single _ _,rfl,fun p hp => Or.inl (List.mem_singleton.mp hp)⟩
  · rintro v ⟨⟩

theorem Explored.skip (h : Explored mproc excluded start_proc s) (hentries : s.stack.entries = e :: rest)
    (hskip : usable mproc excluded e.1 = false ∨ s.visitedProcs e.1 = true) :
    Explored mproc excluded start_proc
      { s with stack := { s.stack with entries := rest }, current := e } := by
  have hwaits : ∀ i, usable mproc excluded i = true → (s.visitedProcs i = true ∨ Waiting s i) →
      s.visitedProcs i = true ∨ ∃ e ∈ rest, e.1 = i := by
    rintro i huse (hi | ⟨e',he',rfl⟩)
    · exact Or.inl hi
    · rw [hentries] at he'
      rcases List.mem_cons.mp he' with rfl | he'
      · left
        refine hskip.resolve_left ?_
        rw [huse]
        decide
      · exact Or.inr ⟨e',he',rfl⟩
  refine ⟨fun huse => hwaits _ huse (h.start huse),fun v i hv hi => ?_,fun e' he' => ?_,h.visited,h.found⟩
  · exact hwaits i (usable_of_pushable hi) (h.children v i hv hi)
  · refine h.waiting e' ?_
    rw [hentries]
    exact List.mem_cons_of_mem _ he'

theorem afterVisit_self : (afterVisit mproc excluded s e rest).visitedProcs e.1 = true := Function.update_self ..

theorem afterVisit_visited_iff : (afterVisit mproc excluded s e rest).visitedProcs p = true ↔
    p = e.1 ∨ s.visitedProcs p = true := by
  by_cases hpe : p = e.1
  · rw [hpe]
    exact iff_of_true afterVisit_self (Or.inl rfl)
  · have hother : (afterVisit mproc excluded s e rest).visitedProcs p = s.visitedProcs p := Function.update_of_ne hpe ..
    rw [hother]
    exact (or_iff_right hpe).symm

theorem le_afterVisit_maxDepth : s.maxDepth ≤ (afterVisit mproc excluded s e rest).maxDepth := by
  unfold afterVisit
  dsimp only
  split
  · exact le_rfl
  · exact le_max_left _ _

theorem afterVisit_maxDepth_childless (h : procHasChildren mproc e.1 = false) :
    (afterVisit mproc excluded s e rest).maxDepth = max s.maxDepth e.2 := by
  rw [afterVisit, h]
  rfl

theorem mem_afterVisit_entries {e' : Fin NR_PROCS × ℤ} : e' ∈ (afterVisit mproc excluded s e rest).stack.entries ↔
    (∃ i, pushable mproc excluded e.1 i = true ∧ e' = (i,e.2 + 1)) ∨ e' ∈ rest := by
  rw [afterVisit, List.mem_append, List.mem_reverse, List.mem_map]
  refine or_congr_left (exists_congr fun i => ?_)
  rw [mem_childrenToPush, @eq_comm _ e']

/-- A popped process that has not been visited is not the start for a second time. -/
theorem Explored.path_to (h : Explored mproc excluded start_proc s) (hentries : s.stack.entries = e :: rest)
    (hnew : s.visitedProcs e.1 = false) : ∃ path, SimplePath (parentOf mproc) start_proc e.1 path ∧
      path.length = e.2 ∧ ∀ p ∈ path, p = e.1 ∨ s.visitedProcs p = true := by
  refine (h.waiting e (by rw [hentries]; exact List.mem_cons_self)).resolve_left ?_
  rintro ⟨heq,hv⟩
  rw [heq, hv] at hnew
  cases hnew

theorem Explored.visit_waiting (h : Explored mproc excluded start_proc s) (hentries : s.stack.entries = e :: rest)
    (hpath : SimplePath (parentOf mproc) start_proc e.1 path) (hlen : path.length = e.2)
    (hmem : ∀ p ∈ path, p = e.1 ∨ s.visitedProcs p = true) :
    ∀ e' ∈ (afterVisit mproc excluded s e rest).stack.entries,
      (e'.1 = start_proc ∧ (afterVisit mproc excluded s e rest).visitedProcs start_proc = true) ∨
      ∃ path, SimplePath (parentOf mproc) start_proc e'.1 path ∧ path.length = e'.2 ∧
        ∀ p ∈ path, p = e'.1 ∨ (afterVisit mproc excluded s e rest).visitedProcs p = true := by
  have hon : ∀ p ∈ path, (afterVisit mproc excluded s e rest).visitedProcs p = true :=
    fun p hp => afterVisit_visited_iff.mpr (hmem p hp)
  have hstart := hon start_proc (List.mem_of_mem_head? hpath.head)
  intro e' he'
  rcases mem_afterVisit_entries.mp he' with ⟨i,hi,rfl⟩ | he'
  · have hup := isChild_iff.mp (pushable_iff.mp hi).1
    by_cases hin : i ∈ path
    · exact Or.inl ⟨hpath.child_mem hup hin,hstart⟩
    · refine Or.inr ⟨path ++ [i],hpath.extend hup hin,?_,fun p hp => ?_⟩
      · rw [List.length_append, List.length_singleton, Nat.cast_add, hlen]
        rfl
      · rcases List.mem_append.mp hp with hp | hp
        · exact Or.inr (hon p hp)
        · exact Or.inl (List.mem_singleton.mp hp)
  · rcases h.waiting e' (by rw [hentries]; exact List.mem_cons_of_mem _ he') with ⟨heq,-⟩ | ⟨path',hpath',hlen',hmem'⟩
    · exact Or.inl ⟨heq,hstart⟩
    · exact Or.inr ⟨path',hpath',hlen',fun p hp => (hmem' p hp).imp_right fun hp => afterVisit_visited_iff.mpr (Or.inr hp)⟩

theorem Explored.visit_found (h : Explored mproc excluded start_proc s) (huse : usable mproc excluded e.1 = true)
    (hpath : SimplePath (parentOf mproc) start_proc e.1 path) (hlen : path.length = e.2)
    (hmem : ∀ p ∈ path, p = e.1 ∨ s.visitedProcs p = true) :
    (afterVisit mproc excluded s e rest).maxDepth = -1 ∨
      ∃ path, ChildlessPath mproc excluded start_proc path ∧
        path.length = (afterVisit mproc excluded s e rest).maxDepth := by
  cases hchildren : procHasChildren mproc e.1 with
  | true =>
    rw [afterVisit, hchildren]
    exact h.found
  | false =>
    rw [afterVisit_maxDepth_childless hchildren]
    rcases max_choice s.maxDepth e.2 with hmax | hmax
    · rw [hmax]
      exact h.found
    · refine Or.inr ⟨path,childlessPath_of_simplePath hpath (fun q hq => ?_) hchildren,by rw [hmax, hlen]⟩
      rcases hmem q hq with rfl | hq
      · exact huse
      · exact (h.visited q hq).1

/-- Visiting a process: its path is known, and its children wait for theirs. -/
theorem Explored.visit (h : Explored mproc excluded start_proc s) (hentries : s.stack.entries = e :: rest)
    (huse : usable mproc excluded e.1 = true) (hnew : s.visitedProcs e.1 = false) :
    Explored mproc excluded start_proc (afterVisit mproc excluded s e rest) := by
  obtain ⟨path,hpath,hlen,hmem⟩ := h.path_to hentries hnew
  have hstart := hmem start_proc (List.mem_of_mem_head? hpath.head)
  refine ⟨fun _ => Or.inl (afterVisit_visited_iff.mpr hstart),fun v i hv hi => ?_,
    h.visit_waiting hentries hpath hlen hmem,fun v hv => ?_,h.visit_found huse hpath hlen hmem⟩
  · rcases afterVisit_visited_iff.mp hv with rfl | hv
    · exact Or.inr ⟨(i,e.2 + 1),mem_afterVisit_entries.mpr (Or.inl ⟨i,hi,rfl⟩),rfl⟩
    · rcases h.children v i hv hi with hi | ⟨e',he',rfl⟩
      · exact Or.inl (afterVisit_visited_iff.mpr (Or.inr hi))
      · rw [hentries] at he'
        rcases List.mem_cons.mp he' with rfl | he'
        · exact Or.inl afterVisit_self
        · exact Or.inr ⟨e',mem_afterVisit_entries.mpr (Or.inr he'),rfl⟩
  · rcases afterVisit_visited_iff.mp hv with rfl | hv
    · refine ⟨huse,path,hpath,fun hchildless => ?_⟩
      rw [afterVisit_maxDepth_childless hchildless, hlen]
      exact le_max_right _ _
    · obtain ⟨husable,path',hpath',hbound⟩ := h.visited v hv
      exact ⟨husable,path',hpath',fun hchildless => (hbound hchildless).trans le_afterVisit_maxDepth⟩

theorem Explored.turn (h : Explored mproc excluded start_proc s) (hcounted : Counted mproc excluded k s)
    (hentries : s.stack.entries = e :: rest) : Explored mproc excluded start_proc (turn mproc excluded s) := by
  by_cases hskip : usable mproc excluded e.1 = false ∨ s.visitedProcs e.1 = true
  · rw [turn_skip hentries hskip]
    exact h.skip hentries hskip
  · rw [not_or, Bool.not_eq_false, Bool.not_eq_true] at hskip
    rw [turn_visit hentries hskip.1 hskip.2 (hcounted.room hentries hskip.2)]
    exact h.visit hentries hskip.1 hskip.2

theorem explored_afterTurns (h : afterTurns mproc excluded start_proc k = some s) :
    Explored mproc excluded start_proc s :=
  afterTurns_induction (P := fun _ s => Explored mproc excluded start_proc s)
    (explored_start mproc excluded start_proc) (fun _ _ _ _ hs hexplored => hexplored.turn (counted_afterTurns hs)) h

theorem Explored.visited_path (h : Explored mproc excluded start_proc s) (hnil : s.stack.entries = [])
    (hlinked : path.IsChain fun p q => (mproc q).mp_parent = (p : ℕ)) (husable : ∀ p ∈ path, usable mproc excluded p = true)
    (hhead : ∀ p ∈ path.head?, s.visitedProcs p = true) : ∀ p ∈ path, s.visitedProcs p = true := by
  have hnone : ∀ i, ¬ Waiting s i := by
    rintro i ⟨e,he,-⟩
    rw [hnil] at he
    cases he
  induction path with
  | nil => exact fun p hp => absurd hp List.not_mem_nil
  | cons a path ih =>
    have ha : s.visitedProcs a = true := hhead a rfl
    refine List.forall_mem_cons.mpr ⟨ha,?_⟩
    refine ih (List.IsChain.tail hlinked) (fun p hp => husable p (List.mem_cons_of_mem _ hp)) fun b hb => ?_
    cases path with
    | nil => cases hb
    | cons c path =>
      cases hb
      have huse := usable_iff.mp (husable b (by simp))
      have hparent := (List.isChain_cons_cons.mp hlinked).1
      have hpush : pushable mproc excluded a b = true :=
        pushable_iff.mpr ⟨isChild_iff.mpr (parentOf_eq_some.mpr ⟨huse.1,hparent⟩),huse.2⟩
      exact (h.children a b ha hpush).resolve_right (hnone b)

theorem Explored.longest (h : Explored mproc excluded start_proc s) (hnil : s.stack.entries = []) :
    LongestPath mproc excluded start_proc s.maxDepth := by
  have hbound : ∀ path, ChildlessPath mproc excluded start_proc path → path.length ≤ s.maxDepth := by
    intro path hpath
    have husable : ∀ p ∈ path, usable mproc excluded p = true := fun p hp => usable_iff.mpr (hpath.usable p hp)
    have hhead : ∀ p ∈ path.head?, s.visitedProcs p = true := by
      rw [hpath.head]
      rintro p ⟨⟩
      refine (h.start (husable start_proc (List.mem_of_mem_head? hpath.head))).resolve_right ?_
      rintro ⟨e,he,-⟩
      rw [hnil] at he
      cases he
    cases hlast : path.getLast? with
    | none =>
      rw [List.getLast?_eq_none_iff] at hlast
      have hstart := hpath.head
      rw [hlast] at hstart
      cases hstart
    | some p =>
      have hvisited := h.visited_path hnil hpath.linked husable hhead p (List.mem_of_getLast? hlast)
      obtain ⟨-,path',hpath',hdeep⟩ := h.visited p hvisited
      rw [(hpath.simplePath hlast).unique hpath']
      refine hdeep (Bool.eq_false_of_not_eq_true fun hchildren => ?_)
      obtain ⟨i,hi⟩ := procHasChildren_iff.mp hchildren
      obtain ⟨huse,hparent⟩ := parentOf_eq_some.mp (isChild_iff.mp hi)
      exact hpath.childless p hlast i huse hparent
  rcases h.found with hnone | hfound
  · refine Or.inl ⟨hnone,fun path hpath => ?_⟩
    have hle := hbound path hpath
    omega
  · exact Or.inr ⟨hfound,hbound⟩

theorem determinePathToChildless_longest (mproc : Fin NR_PROCS → MProc) (excluded : ℤ) (start_proc : Fin NR_PROCS) :
    ∃ d printed, determinePathToChildless mproc start_proc excluded = some (d,printed) ∧
      LongestPath mproc excluded start_proc d := by
  obtain ⟨k,s,-,hs,hnil,hsearch⟩ := @search_ends _ mproc excluded start_proc 0 _ (NR_PROCS + 1) rfl (by omega)
  exact ⟨_,_,by rw [determinePathToChildless, hsearch]; rfl,(explored_afterTurns hs).longest hnil⟩

/-- The loop over the starting points keeps the first of the largest. -/
theorem longestChildlessChain_eq {d : Fin NR_PROCS → ℤ} {printed : Fin NR_PROCS → List String}
    (h : ∀ s, determinePathToChildless mproc s excluded = some (d s,printed s)) : ∃ texts,
    longestChildlessChain mproc excluded = some ((List.finRange NR_PROCS).foldl
      (keep (fun s => if usable mproc excluded s then some (d s) else none) fun s => (mproc s).mp_pid) (-1,-1),texts) := by
  unfold longestChildlessChain
  generalize (-1,-1) = best
  generalize ([] : List String) = before
  induction List.finRange NR_PROCS generalizing best before with
  | nil => exact ⟨before,rfl⟩
  | cons a as ih =>
    rw [List.foldlM_cons, List.foldl_cons]
    cases huse : usable mproc excluded a with
    | false =>
      have htest : (!(mproc a).inUse || decide ((mproc a).mp_pid = excluded)) = true := by
        simpa [usable, imp_iff_not_or] using huse
      rw [if_pos htest, keep, huse]
      exact ih best before
    | true =>
      have htest : ¬ (!(mproc a).inUse || decide ((mproc a).mp_pid = excluded)) = true := by
        simpa [usable] using huse
      rw [if_neg htest, h a, keep, huse]
      exact ih _ _

/-- From every start, `determinePathToChildless` finds the length of the longest simple path
to a childless process, and `longestChildlessChain` the largest of these lengths with the
first process that attains it, or nothing if there is no such path from any process. -/
theorem longest_chain (mproc : Fin NR_PROCS → MProc) (excluded : ℤ) : ∃ d : Fin NR_PROCS → ℤ,
    (∀ s, (∃ printed, determinePathToChildless mproc s excluded = some (d s,printed)) ∧
      LongestPath mproc excluded s (d s)) ∧
    ∃ r printed, longestChildlessChain mproc excluded = some (r,printed) ∧
      ((r = (-1,-1) ∧ ∀ s, usable mproc excluded s = true → d s = -1) ∨
        ∃ s, usable mproc excluded s = true ∧ r = (d s,(mproc s).mp_pid) ∧ d s ≠ -1 ∧
          (∀ s', usable mproc excluded s' = true → d s' ≤ d s) ∧
          ∀ s' < s, usable mproc excluded s' = true → d s' < d s) := by
  choose d printed hd hlongest using determinePathToChildless_longest mproc excluded
  obtain ⟨texts,hchain⟩ := longestChildlessChain_eq hd
  have hge : ∀ s, -1 ≤ d s := by
    intro s
    rcases hlongest s with ⟨heq,-⟩ | ⟨⟨path,-,heq⟩,-⟩ <;> omega
  refine ⟨d,fun s => ⟨⟨printed s,hd s⟩,hlongest s⟩,_,texts,hchain,?_⟩
  have hvalue : ∀ s v, v ∈ (if usable mproc excluded s then some (d s) else none) ↔ usable mproc excluded s = true ∧ d s = v := by
    intro s v
    split
    · next huse => simp [huse]
    · next huse => simp [huse]
  rcases isFirstMax_finRange.mp (foldl_keep (fun s => if usable mproc excluded s then some (d s) else none)
    (fun s => (mproc s).mp_pid) (-1,-1) (List.finRange NR_PROCS)) with ⟨hr,hall⟩ | ⟨s,hs,hname,hlt,hbefore,hle⟩
  · refine Or.inl ⟨hr,fun s huse => le_antisymm ?_ (hge s)⟩
    exact hall s (d s) ((hvalue s _).mpr ⟨huse,rfl⟩)
  · obtain ⟨huse,hds⟩ := (hvalue s _).mp hs
    refine Or.inr ⟨s,huse,Prod.ext hds.symm hname.symm,?_,fun s' huse' => ?_,fun s' hs' huse' => ?_⟩
    · rw [hds]
      exact ne_of_gt hlt
    · rw [hds]
      exact hle s' (d s') ((hvalue s' _).mpr ⟨huse',rfl⟩)
    · rw [hds]
      exact hbefore s' hs' (d s') ((hvalue s' _).mpr ⟨huse',rfl⟩)

/-- MM alone is in use, and its own parent. -/
def lonelyMM : Fin 3 → MProc := fun p => if p = 0 then { mp_flags := IN_USE } else {}

/-- No path leads from there to a childless process: the value -1 is the largest one, but it is
reported for nobody, although there is a first process that attains it. -/
theorem lonely_mm_not_named : ¬ ∃ (d : Fin 3 → ℤ) (r : ℤ × ℤ) (printed : List String),
    (∀ s, (∃ printed, determinePathToChildless lonelyMM s 5 = some (d s,printed)) ∧ LongestPath lonelyMM 5 s (d s)) ∧
    longestChildlessChain lonelyMM 5 = some (r,printed) ∧
      ((r = (-1,-1) ∧ ∀ s, usable lonelyMM 5 s = false) ∨
        ∃ s, usable lonelyMM 5 s = true ∧ r = (d s,(lonelyMM s).mp_pid) ∧
          (∀ s', usable lonelyMM 5 s' = true → d s' ≤ d s) ∧
          ∀ s' < s, usable lonelyMM 5 s' = true → d s' < d s) := by
  have hchain : (longestChildlessChain lonelyMM 5).map Prod.fst = some (-1,-1) := by decide
  rintro ⟨d,r,printed,-,hrun,hanswer⟩
  obtain rfl : r = (-1,-1) := by
    rw [hrun] at hchain
    exact Option.some.inj hchain
  rcases hanswer with ⟨-,hnobody⟩ | ⟨s,huse,hr,-⟩
  · exact Bool.noConfusion ((hnobody 0).symm.trans (by decide : usable lonelyMM 5 0 = true))
  · have hnamed : ∀ s, usable lonelyMM 5 s = true → (lonelyMM s).mp_pid ≠ -1 := by decide
    exact hnamed s huse (congrArg Prod.snd hr).symm

end SOI.Syscalls

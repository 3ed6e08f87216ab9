import SOI.Syscalls.Mproc

/-! # Counting the descendants of a process

Two of the three functions search breadth first, with or without the depths beside the
processes; both leave out the process that the search starts from. The third one calls
itself for every child and leaves out the process that it has been called for. A search
meets no process twice, because each has one parent and the start is never met again, so
that its queue is long enough whatever the table looks like.
-/
namespace SOI.Syscalls
open Parents
variable {NR_PROCS : ℕ}

/-- A write behind the end of the queue, or a loop that has not come to its end. -/
inductive Stop
  | outOfRange
  | diverges

structure Bfs (ε : Type) where
  queue : List ε
  queue_start : ℕ := 0
  descendants : ℕ := 0

variable (mproc : Fin NR_PROCS → MProc)

def isDescendant (proc_nr current_proc i : Fin NR_PROCS) : Bool :=
  (mproc i).inUse && proc_nr ≠ i && (mproc i).mp_parent = (current_proc : ℕ)

section Search
variable {ε : Type} (proc : ε → Fin NR_PROCS) (next : ε → Fin NR_PROCS → Option ε) (proc_nr : Fin NR_PROCS)

/-- A child is counted before it is decided whether it is queued. -/
def countChild (current : ε) (s : Bfs ε) (i : Fin NR_PROCS) : Except Stop (Bfs ε) :=
  if isDescendant mproc proc_nr (proc current) i then
    match next current i with
    | none => .ok { s with descendants := s.descendants + 1 }
    | some e =>
      if s.queue.length < NR_PROCS then .ok { s with descendants := s.descendants + 1, queue := s.queue ++ [e] }
      else .error .outOfRange
  else .ok s

def breadthFirst : ℕ → Bfs ε → Except Stop (Bfs ε)
  | 0, _ => .error .diverges
  | fuel + 1, s =>
    match s.queue[s.queue_start]? with
    | none => .ok s
    | some current => do
      let s ← (List.finRange NR_PROCS).foldlM (countChild mproc proc next proc_nr current)
        { s with queue_start := s.queue_start + 1 }
      breadthFirst fuel s

end Search

def allDescendantsRun (proc_nr : Fin NR_PROCS) : Except Stop (Bfs (Fin NR_PROCS)) :=
  breadthFirst mproc id (fun _ i => some i) proc_nr (NR_PROCS + 1) { queue := [proc_nr] }

/-- The bounds are passed, but not looked at. -/
def countAllDescendants (proc_nr : Fin NR_PROCS) (_A_bound _B_bound : ℤ) : Except Stop ℕ :=
  (allDescendantsRun mproc proc_nr).map Bfs.descendants

/-- An entry is a process with its depth. Only those above the last level are queued. -/
def childEntry (N : ℤ) (current : Fin NR_PROCS × ℤ) (i : Fin NR_PROCS) : Option (Fin NR_PROCS × ℤ) :=
  if current.2 < N then some (i,current.2 + 1) else none

def descendantsRun (proc_nr : Fin NR_PROCS) (N : ℤ) : Except Stop (Bfs (Fin NR_PROCS × ℤ)) :=
  breadthFirst mproc Prod.fst (childEntry N) proc_nr (NR_PROCS + 1) { queue := [(proc_nr,1)] }

def countDescendants (proc_nr : Fin NR_PROCS) (N : ℤ) : Except Stop ℕ :=
  (descendantsRun mproc proc_nr N).map Bfs.descendants

def countDescendantsRecursive (proc_nr : Fin NR_PROCS) (curr_depth N : ℤ) : ℕ :=
  (List.finRange NR_PROCS).foldl (fun descendants i =>
    if isDescendant mproc proc_nr proc_nr i then
      (if curr_depth < N then descendants + countDescendantsRecursive i (curr_depth + 1) N else descendants) + 1
    else descendants) 0
termination_by (N - curr_depth).toNat
decreasing_by omega

def found (proc_nr current_proc : Fin NR_PROCS) : List (Fin NR_PROCS) :=
  (List.finRange NR_PROCS).filter (isDescendant mproc proc_nr current_proc)

variable {mproc} {p q i : Fin NR_PROCS} {N : ℤ} {k : ℕ}

theorem isDescendant_iff : isDescendant mproc p q i = true ↔ i ≠ p ∧ parentOf mproc i = some q := by
  rw [parentOf_eq_some, isDescendant, Bool.and_eq_true, Bool.and_eq_true, decide_eq_true_eq, decide_eq_true_eq,
    ne_comm, and_assoc, and_left_comm]

theorem mem_found : i ∈ found mproc p q ↔ i ≠ p ∧ parentOf mproc i = some q := by
  rw [found, List.mem_filter, isDescendant_iff]
  exact and_iff_right (List.mem_finRange i)

theorem nodup_found (mproc : Fin NR_PROCS → MProc) (p q : Fin NR_PROCS) : (found mproc p q).Nodup :=
  (List.nodup_finRange NR_PROCS).filter _

section Search
variable {ε : Type} {proc : ε → Fin NR_PROCS} {next : ε → Fin NR_PROCS → Option ε} {start e : ε}
  {done todo all : List ε} {s : Bfs ε}

theorem countChildren_eq {xs : List (Fin NR_PROCS)} (hroom : s.queue.length +
      ((xs.filter (isDescendant mproc p (proc e))).filterMap (next e)).length ≤ NR_PROCS) :
    xs.foldlM (countChild mproc proc next p e) s = .ok
      { s with
        queue := s.queue ++ (xs.filter (isDescendant mproc p (proc e))).filterMap (next e)
        descendants := s.descendants + (xs.filter (isDescendant mproc p (proc e))).length } := by
  induction xs generalizing s with
  | nil => simp [pure, Except.pure]
  | cons x xs ih =>
    rw [List.foldlM_cons]
    cases hx : isDescendant mproc p (proc e) x with
    | false =>
      rw [List.filter_cons_of_neg (by rw [hx]; decide)] at hroom ⊢
      have hskip : countChild mproc proc next p e s x = .ok s := if_neg (by rw [hx]; decide)
      rw [hskip]
      exact ih hroom
    | true =>
      rw [List.filter_cons_of_pos hx] at hroom ⊢
      cases hnext : next e x with
      | none =>
        rw [List.filterMap_cons_none hnext] at hroom ⊢
        have hcount : countChild mproc proc next p e s x = .ok { s with descendants := s.descendants + 1 } := by
          rw [countChild, if_pos hx, hnext]
        rw [hcount, List.length_cons, ← Nat.add_assoc, Nat.add_right_comm]
        exact ih (s := { s with descendants := s.descendants + 1 }) hroom
      | some e' =>
        rw [List.filterMap_cons_some hnext, List.length_cons] at hroom
        have hcount : countChild mproc proc next p e s x =
            .ok { s with descendants := s.descendants + 1, queue := s.queue ++ [e'] } := by
          rw [countChild, if_pos hx, hnext]
          exact if_pos (by omega)
        rw [hcount, List.filterMap_cons_some hnext, List.length_cons, ← Nat.add_assoc, Nat.add_right_comm,
          List.append_cons _ _ (List.filterMap _ _)]
        refine ih (s := { s with descendants := s.descendants + 1, queue := s.queue ++ [e'] }) ?_
        rw [List.length_append, List.length_singleton]
        omega

/-- What a search from `start` may have in its queue. -/
inductive Reached (mproc : Fin NR_PROCS → MProc) (proc : ε → Fin NR_PROCS) (next : ε → Fin NR_PROCS → Option ε)
    (start : ε) : ε → Prop
  | start : Reached mproc proc next start start
  | child {e e' : ε} {i : Fin NR_PROCS} : Reached mproc proc next start e → i ∈ found mproc (proc start) (proc e) →
      next e i = some e' → Reached mproc proc next start e'

/-- Between two turns, with the entries taken so far and those that wait. -/
structure Spread (mproc : Fin NR_PROCS → MProc) (proc : ε → Fin NR_PROCS) (next : ε → Fin NR_PROCS → Option ε)
    (start : ε) (done todo : List ε) (s : Bfs ε) : Prop where
  queue : s.queue = done ++ todo
  queue_start : s.queue_start = done.length
  descendants : s.descendants = (done.map fun e => (found mproc (proc start) (proc e)).length).sum
  nodup : ((done ++ todo).map proc).Nodup
  start_mem : start ∈ done ++ todo
  reached : ∀ e ∈ done ++ todo, Reached mproc proc next start e
  entered : ∀ e ∈ done ++ todo, proc e = proc start ∨ ∃ e' ∈ done, parentOf mproc (proc e) = some (proc e')
  expanded : ∀ e ∈ done, ∀ i ∈ found mproc (proc start) (proc e), ∀ e' ∈ next e i, e' ∈ done ++ todo

theorem spread_start (mproc : Fin NR_PROCS → MProc) (proc : ε → Fin NR_PROCS) (next : ε → Fin NR_PROCS → Option ε)
    (start : ε) : Spread mproc proc next start [] [start] { queue := [start] } := by
  refine ⟨rfl,rfl,rfl,List.nodup_singleton _,List.mem_singleton_self start,fun e he => ?_,fun e he => ?_,
    fun e he => absurd he List.not_mem_nil⟩
  · rw [List.mem_singleton.mp he]
    exact .start
  · rw [List.mem_singleton.mp he]
    exact Or.inl rfl

theorem Spread.length_le (h : Spread mproc proc next start done todo s) : (done ++ todo).length ≤ NR_PROCS := by
  have hle := h.nodup.length_le_card
  rwa [List.length_map, Fintype.card_fin] at hle

theorem Spread.new (h : Spread mproc proc next start done (e :: todo) s) {i : Fin NR_PROCS}
    (hi : i ∈ found mproc (proc start) (proc e)) : i ∉ (done ++ e :: todo).map proc := by
  intro hmem
  obtain ⟨hne,hparent⟩ := mem_found.mp hi
  obtain ⟨e₁,he₁,rfl⟩ := List.mem_map.mp hmem
  rcases h.entered e₁ he₁ with heq | ⟨e',he',hparent'⟩
  · exact hne heq
  · -- the parent would have been taken from the queue and still be waiting
    have hsame : proc e = proc e' := Option.some_injective _ (hparent.symm.trans hparent')
    have hnodup := h.nodup
    rw [List.map_append, List.map_cons, List.nodup_append] at hnodup
    exact hnodup.2.2 (proc e') (List.mem_map_of_mem he') (proc e) List.mem_cons_self hsame.symm

theorem map_filterMap_sublist (hnext : ∀ e i, ∀ e' ∈ next e i, proc e' = i) (e : ε) (xs : List (Fin NR_PROCS)) :
    ((xs.filterMap (next e)).map proc).Sublist xs := by
  induction xs with
  | nil => exact List.Sublist.slnil
  | cons x xs ih =>
    cases hx : next e x with
    | none =>
      rw [List.filterMap_cons_none hx]
      exact ih.cons x
    | some e' =>
      rw [List.filterMap_cons_some hx, List.map_cons, hnext e x e' hx]
      exact ih.cons_cons x

theorem Spread.turn (h : Spread mproc proc next start done (e :: todo) s)
    (hnext : ∀ e i, ∀ e' ∈ next e i, proc e' = i) {s' : Bfs ε}
    (hs' : s' = { queue := s.queue ++ (found mproc (proc start) (proc e)).filterMap (next e)
                  queue_start := s.queue_start + 1
                  descendants := s.descendants + (found mproc (proc start) (proc e)).length }) :
    Spread mproc proc next start (done ++ [e]) (todo ++ (found mproc (proc start) (proc e)).filterMap (next e)) s' := by
  have hlist : done ++ [e] ++ (todo ++ (found mproc (proc start) (proc e)).filterMap (next e)) =
      done ++ e :: todo ++ (found mproc (proc start) (proc e)).filterMap (next e) := by
    simp
  have hsub := map_filterMap_sublist hnext e (found mproc (proc start) (proc e))
  have he : e ∈ done ++ e :: todo := by simp
  subst hs'
  refine ⟨?_,?_,?_,?_,?_,?_,?_,?_⟩
  · rw [hlist, h.queue]
  · rw [List.length_append, List.length_singleton, h.queue_start]
  · rw [List.map_append, List.sum_append, List.map_singleton, List.sum_singleton, h.descendants]
  · rw [hlist, List.map_append, List.nodup_append]
    refine ⟨h.nodup,hsub.nodup (nodup_found mproc _ _),?_⟩
    rintro i hi j hj rfl
    exact h.new (hsub.subset hj) hi
  · rw [hlist]
    exact List.mem_append_left _ h.start_mem
  · rw [hlist]
    intro e' he'
    rcases List.mem_append.mp he' with he' | he'
    · exact h.reached e' he'
    · obtain ⟨i,hi,hei⟩ := List.mem_filterMap.mp he'
      exact (h.reached e he).child hi hei
  · rw [hlist]
    intro e' he'
    rcases List.mem_append.mp he' with he' | he'
    · refine (h.entered e' he').imp_right ?_
      rintro ⟨e₁,he₁,hparent⟩
      exact ⟨e₁,List.mem_append_left _ he₁,hparent⟩
    · obtain ⟨i,hi,hei⟩ := List.mem_filterMap.mp he'
      rw [hnext e i e' hei]
      exact Or.inr ⟨e,by simp,(mem_found.mp hi).2⟩
  · rw [hlist]
    intro e₁ he₁ i hi e' he'
    rcases List.mem_append.mp he₁ with he₁ | he₁
    · exact List.mem_append_left _ (h.expanded e₁ he₁ i hi e' he')
    · rw [List.mem_singleton.mp he₁] at hi he'
      exact List.mem_append_right _ (List.mem_filterMap.mpr ⟨i,hi,he'⟩)

/-- The search ends in time, and no write goes behind the end of its queue. -/
theorem Spread.ends (h : Spread mproc proc next start done todo s) (hnext : ∀ e i, ∀ e' ∈ next e i, proc e' = i)
    {fuel : ℕ} (hfuel : NR_PROCS + 1 ≤ done.length + fuel) :
    ∃ all s', breadthFirst mproc proc next (proc start) fuel s = .ok s' ∧ Spread mproc proc next start all [] s' := by
  induction fuel generalizing done todo s with
  | zero =>
    have hle := h.length_le
    rw [List.length_append] at hle
    omega
  | succ fuel ih =>
    cases todo with
    | nil =>
      refine ⟨done,s,?_,h⟩
      rw [breadthFirst, h.queue, h.queue_start, List.append_nil, List.getElem?_length]
    | cons e todo =>
      have hturn := h.turn hnext rfl
      have hroom := hturn.length_le
      rw [← hturn.queue, List.length_append] at hroom
      obtain ⟨all,s',hs',hall⟩ := ih hturn (by rw [List.length_append, List.length_singleton]; omega)
      refine ⟨all,s',?_,hall⟩
      have htaken : s.queue[s.queue_start]? = some e := by
        rw [h.queue, h.queue_start, List.getElem?_append_right le_rfl, Nat.sub_self, List.getElem?_cons_zero]
      rw [breadthFirst, htaken]
      dsimp only
      rw [countChildren_eq (s := { s with queue_start := s.queue_start + 1 }) hroom]
      exact hs'

/-- What has been counted at the end: the children of the processes that have been met. -/
theorem Spread.count (h : Spread mproc proc next start all [] s) {counted : Finset (Fin NR_PROCS)}
    (hcounted : ∀ i, i ∈ counted ↔ i ≠ proc start ∧ ∃ e ∈ all, parentOf mproc i = some (proc e)) :
    s.descendants = counted.card := by
  have hnodup := h.nodup
  rw [List.append_nil] at hnodup
  have hsum : s.descendants = ∑ q ∈ (all.map proc).toFinset, (found mproc (proc start) q).toFinset.card := by
    rw [h.descendants, List.sum_toFinset _ hnodup, List.map_map]
    refine congrArg List.sum (List.map_congr_left fun e _ => ?_)
    exact (List.toFinset_card_of_nodup (nodup_found mproc _ _)).symm
  rw [hsum, ← Finset.card_biUnion]
  · congr 1
    ext i
    rw [hcounted]
    simp only [Finset.mem_biUnion, List.mem_toFinset, List.mem_map, mem_found]
    constructor
    · rintro ⟨_,⟨e,he,rfl⟩,hne,hparent⟩
      exact ⟨hne,e,he,hparent⟩
    · rintro ⟨hne,e,he,hparent⟩
      exact ⟨proc e,⟨e,he,rfl⟩,hne,hparent⟩
  · intro q _ q' _ hqq
    refine Finset.disjoint_left.mpr fun i hi hi' => hqq ?_
    have hq := (mem_found.mp (List.mem_toFinset.mp hi)).2
    have hq' := (mem_found.mp (List.mem_toFinset.mp hi')).2
    exact Option.some_injective _ (hq.symm.trans hq')

end Search

/-- From the start of a search to its end. -/
theorem search_spreads {ε : Type} (mproc : Fin NR_PROCS → MProc) (proc : ε → Fin NR_PROCS)
    (next : ε → Fin NR_PROCS → Option ε) (hnext : ∀ e i, ∀ e' ∈ next e i, proc e' = i) (start : ε) : ∃ all s,
    breadthFirst mproc proc next (proc start) (NR_PROCS + 1) { queue := [start] } = .ok s ∧
      Spread mproc proc next start all [] s :=
  (spread_start mproc proc next start).ends hnext (by omega)

theorem Reached.climbs {e : Fin NR_PROCS} (h : Reached mproc id (fun _ i => some i) p e) :
    ∃ k, climb (parentOf mproc) k e = some p := by
  induction h with
  | start => exact ⟨0,rfl⟩
  | child _ hi heq ih =>
    cases heq
    obtain ⟨k,hk⟩ := ih
    exact ⟨k + 1,climb_succ_iff.mpr ⟨_,(mem_found.mp hi).2,hk⟩⟩

/-- Everything below the start has been in the queue. -/
theorem Spread.met {all : List (Fin NR_PROCS)} {s : Bfs (Fin NR_PROCS)}
    (h : Spread mproc id (fun _ i => some i) p all [] s) {j : Fin NR_PROCS} (hj : climb (parentOf mproc) k j = some p) :
    j ∈ all := by
  have hstart : p ∈ all := by simpa using h.start_mem
  induction k generalizing j with
  | zero =>
    cases hj
    exact hstart
  | succ k ih =>
    obtain ⟨q,hq,hrest⟩ := climb_succ_iff.mp hj
    by_cases hjp : j = p
    · rw [hjp]
      exact hstart
    · simpa using h.expanded q (ih hrest) j (mem_found.mpr ⟨hjp,hq⟩) j rfl

theorem allDescendantsRun_spec (mproc : Fin NR_PROCS → MProc) (p : Fin NR_PROCS) :
    ∃ s, allDescendantsRun mproc p = .ok s ∧ s.queue.length ≤ NR_PROCS ∧
      s.descendants = (within (parentOf mproc) p (Fintype.card (Fin NR_PROCS))).card := by
  obtain ⟨all,s,hs,hall⟩ := search_spreads mproc id (fun _ i => some i) (by simp) p
  have hlength := hall.length_le
  rw [← hall.queue] at hlength
  refine ⟨s,hs,hlength,hall.count fun i => mem_within_card.trans (and_congr_right fun hne => ?_)⟩
  constructor
  · rintro ⟨k,hk⟩
    cases k with
    | zero => exact absurd (Option.some_injective _ hk) hne
    | succ k =>
      obtain ⟨q,hq,hrest⟩ := climb_succ_iff.mp hk
      exact ⟨q,hall.met hrest,hq⟩
  · rintro ⟨e,he,hparent⟩
    obtain ⟨k,hk⟩ := (hall.reached e (by simpa using he)).climbs
    exact ⟨k + 1,climb_succ_iff.mpr ⟨e,hparent,hk⟩⟩

theorem childEntry_eq_some {e e' : Fin NR_PROCS × ℤ} : childEntry N e i = some e' ↔ e.2 < N ∧ (i,e.2 + 1) = e' := by
  simp [childEntry]

/-- The depth of an entry is one more than the number of links up to the start. -/
theorem Reached.depth {e : Fin NR_PROCS × ℤ} (h : Reached mproc Prod.fst (childEntry N) (p,1) e) (hN : 1 ≤ N) :
    ∃ k : ℕ, e.2 = k + 1 ∧ e.2 ≤ N ∧ climb (parentOf mproc) k e.1 = some p := by
  induction h with
  | start => exact ⟨0,rfl,hN,rfl⟩
  | child _ hi heq ih =>
    obtain ⟨hlt,rfl⟩ := childEntry_eq_some.mp heq
    obtain ⟨k,hdepth,-,hk⟩ := ih
    refine ⟨k + 1,?_,by dsimp only; omega,climb_succ_iff.mpr ⟨_,(mem_found.mp hi).2,hk⟩⟩
    dsimp only
    rw [hdepth, Nat.cast_add, Nat.cast_one]

theorem Spread.met_above {all : List (Fin NR_PROCS × ℤ)} {s : Bfs (Fin NR_PROCS × ℤ)}
    (h : Spread mproc Prod.fst (childEntry N) (p,1) all [] s) {j : Fin NR_PROCS}
    (hj : climb (parentOf mproc) k j = some p) (hk : (k : ℤ) + 1 ≤ N) : ∃ e ∈ all, e.1 = j ∧ e.2 ≤ k + 1 := by
  have hstart : (p,1) ∈ all := by simpa using h.start_mem
  induction k generalizing j with
  | zero =>
    cases hj
    exact ⟨(p,1),hstart,rfl,by omega⟩
  | succ k ih =>
    obtain ⟨q,hq,hrest⟩ := climb_succ_iff.mp hj
    by_cases hjp : j = p
    · exact ⟨(p,1),hstart,hjp.symm,by dsimp only; omega⟩
    · obtain ⟨e,he,rfl,hdepth⟩ := ih hrest (by omega)
      have hi : j ∈ found mproc p e.1 := mem_found.mpr ⟨hjp,hq⟩
      have hqueued := h.expanded e he j hi (j,e.2 + 1) (childEntry_eq_some.mpr ⟨by omega,rfl⟩)
      exact ⟨(j,e.2 + 1),by simpa using hqueued,rfl,by dsimp only; omega⟩

/-- With depths: those of the first `N` levels. -/
theorem descendantsRun_spec (mproc : Fin NR_PROCS → MProc) (p : Fin NR_PROCS) (hN : 1 ≤ N) :
    ∃ s, descendantsRun mproc p N = .ok s ∧ s.queue.length ≤ NR_PROCS ∧
      s.descendants = (within (parentOf mproc) p N.toNat).card := by
  obtain ⟨all,s,hs,hall⟩ := search_spreads mproc Prod.fst (childEntry N)
    (fun e i e' he' => by rw [← (childEntry_eq_some.mp he').2]) (p,1)
  have hlength := hall.length_le
  rw [← hall.queue] at hlength
  refine ⟨s,hs,hlength,hall.count fun i => mem_within.trans (and_congr_right fun hne => ?_)⟩
  constructor
  · rintro ⟨l,hl,hle,hclimb⟩
    obtain ⟨k,rfl⟩ := Nat.exists_eq_add_of_le' hl
    obtain ⟨q,hq,hrest⟩ := climb_succ_iff.mp hclimb
    obtain ⟨e,he,rfl,-⟩ := hall.met_above hrest (by omega)
    exact ⟨e,he,hq⟩
  · rintro ⟨e,he,hparent⟩
    obtain ⟨k,hdepth,hle,hk⟩ := (hall.reached e (by simpa using he)).depth hN
    exact ⟨k + 1,by omega,by omega,climb_succ_iff.mpr ⟨e.1,hparent,hk⟩⟩

theorem toFinset_found (mproc : Fin NR_PROCS → MProc) (p : Fin NR_PROCS) :
    (found mproc p p).toFinset = children (parentOf mproc) p := by
  ext i
  rw [List.mem_toFinset, mem_found, mem_children]

theorem foldl_children (mproc : Fin NR_PROCS → MProc) (p : Fin NR_PROCS) (below : Fin NR_PROCS → ℕ) :
    (List.finRange NR_PROCS).foldl (fun descendants i =>
      if isDescendant mproc p p i then descendants + below i + 1 else descendants) 0 =
      ∑ i ∈ children (parentOf mproc) p, (below i + 1) := by
  have hloop : ∀ (xs : List (Fin NR_PROCS)) (descendants : ℕ), xs.foldl (fun descendants i =>
      if isDescendant mproc p p i then descendants + below i + 1 else descendants) descendants =
        descendants + ((xs.filter (isDescendant mproc p p)).map fun i => below i + 1).sum := by
    intro xs
    induction xs with
    | nil => exact fun descendants => rfl
    | cons x xs ih =>
      intro descendants
      rw [List.foldl_cons, ih]
      cases hx : isDescendant mproc p p x with
      | false => rw [if_neg Bool.false_ne_true, List.filter_cons_of_neg (by rw [hx]; decide)]
      | true => rw [if_pos rfl, List.filter_cons_of_pos hx, List.map_cons, List.sum_cons, ← add_assoc, ← add_assoc]
  rw [hloop, Nat.zero_add, ← toFinset_found, List.sum_toFinset _ (nodup_found mproc p p), found]

theorem countDescendantsRecursive_eq (hforest : Acyclic (parentOf mproc)) {curr_depth : ℤ} {levels : ℕ}
    (hlevels : (N - curr_depth).toNat = levels) (p : Fin NR_PROCS) :
    countDescendantsRecursive mproc p curr_depth N = (within (parentOf mproc) p (levels + 1)).card := by
  induction levels generalizing curr_depth p with
  | zero =>
    rw [countDescendantsRecursive, hforest.card_within_succ, ← foldl_children]
    simp only [within_zero, Finset.card_empty, Nat.add_zero]
    have hdeep : ¬ curr_depth < N := by omega
    simp only [if_neg hdeep]
  | succ levels ih =>
    have hdeep : curr_depth < N := by omega
    have hrec : ∀ i, countDescendantsRecursive mproc i (curr_depth + 1) N =
        (within (parentOf mproc) i (levels + 1)).card := ih (by omega)
    rw [countDescendantsRecursive, hforest.card_within_succ, ← foldl_children]
    simp only [if_pos hdeep, hrec]

/-- The processes in use, other than `p`, from which it is reached by at least one and at
most `N` links. -/
def descendantsWithin (mproc : Fin NR_PROCS → MProc) (p : Fin NR_PROCS) (N : ℤ) : Set (Fin NR_PROCS) :=
  {i | (mproc i).inUse = true ∧ i ≠ p ∧ ∃ k : ℕ, 1 ≤ k ∧ (k : ℤ) ≤ N ∧ climb (parentOf mproc) k i = some p}

theorem descendantsWithin_eq (mproc : Fin NR_PROCS → MProc) (p : Fin NR_PROCS) (N : ℤ) :
    descendantsWithin mproc p N = within (parentOf mproc) p N.toNat := by
  ext i
  rw [Finset.mem_coe, mem_within]
  constructor
  · rintro ⟨-,hne,k,hk,hkN,hclimb⟩
    exact ⟨hne,k,hk,by omega,hclimb⟩
  · rintro ⟨hne,k,hk,hkN,hclimb⟩
    refine ⟨?_,hne,k,hk,by omega,hclimb⟩
    obtain ⟨l,rfl⟩ := Nat.exists_eq_add_of_le' hk
    obtain ⟨q,hq,-⟩ := climb_succ_iff.mp hclimb
    exact (parentOf_eq_some.mp hq).1

theorem ncard_descendantsWithin (mproc : Fin NR_PROCS → MProc) (p : Fin NR_PROCS) (N : ℤ) :
    (descendantsWithin mproc p N).ncard = (within (parentOf mproc) p N.toNat).card := by
  rw [descendantsWithin_eq, Set.ncard_coe_finset]

/-- The two functions with a number of levels count the same processes, and so does the one
without if the number is as large as the table. The searches end, and no write goes behind
the end of their queues. -/
theorem counters_agree (mproc : Fin NR_PROCS → MProc) (hforest : Acyclic (parentOf mproc)) (p : Fin NR_PROCS) {N : ℤ}
    (hN : 1 ≤ N) :
    countDescendants mproc p N = .ok (descendantsWithin mproc p N).ncard ∧
    countDescendantsRecursive mproc p 1 N = (descendantsWithin mproc p N).ncard ∧
    (NR_PROCS ≤ N → ∀ A B, countAllDescendants mproc p A B = .ok (descendantsWithin mproc p N).ncard) ∧
    (∃ s, descendantsRun mproc p N = .ok s ∧ s.queue.length ≤ NR_PROCS) ∧
    ∃ s, allDescendantsRun mproc p = .ok s ∧ s.queue.length ≤ NR_PROCS := by
  obtain ⟨s,hs,hroom,hcount⟩ := descendantsRun_spec mproc p hN
  obtain ⟨t,ht,hroom',hcount'⟩ := allDescendantsRun_spec mproc p
  rw [ncard_descendantsWithin]
  refine ⟨?_,?_,fun hlarge A B => ?_,⟨s,hs,hroom⟩,t,ht,hroom'⟩
  · rw [countDescendants, hs, Except.map, hcount]
  · rw [countDescendantsRecursive_eq hforest rfl]
    congr 2
    omega
  · have hlevels : Fintype.card (Fin NR_PROCS) ≤ N.toNat := by
      rw [Fintype.card_fin]
      omega
    rw [countAllDescendants, ht, Except.map, hcount', within_of_card_le hlevels]

def family : Fin 5 → MProc
  | 0 => { mp_pid := 1, mp_parent := 0, mp_flags := IN_USE }
  | 1 => { mp_pid := 12, mp_parent := 0, mp_flags := IN_USE }
  | 2 => { mp_pid := 13, mp_parent := 0, mp_flags := IN_USE }
  | 3 => { mp_pid := 25, mp_parent := 1, mp_flags := IN_USE }
  | 4 => {}

theorem acyclic_family : Acyclic (parentOf family) :=
  acyclic_of_rank (fun i => i.val) (by decide)

theorem family_counters_agree :
    countDescendants family 0 1 = .ok (descendantsWithin family 0 1).ncard ∧
    countDescendantsRecursive family 0 1 1 = (descendantsWithin family 0 1).ncard ∧
    countAllDescendants family 0 0 0 = .ok (descendantsWithin family 0 5).ncard ∧
    (∃ s, descendantsRun family 0 1 = .ok s ∧ s.queue.length ≤ 5) ∧
    ∃ s, allDescendantsRun family 0 = .ok s ∧ s.queue.length ≤ 5 :=
  have hone := counters_agree family acyclic_family 0 (N := 1) (by decide)
  have hfive := counters_agree family acyclic_family 0 (N := 5) (by decide)
  ⟨hone.1,hone.2.1,hfive.2.2.1 (by decide) 0 0,hone.2.2.2⟩

end SOI.Syscalls

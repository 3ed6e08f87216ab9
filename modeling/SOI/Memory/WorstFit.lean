import SOI.Memory.SwapOut

/-! # Worst fit

With the holes in ascending order, those below the swap area are the ones that
`findBiggestHole` looks at. It reports the first of the longest of them with the true
predecessor, and the rest of that hole takes its place in the list.
-/
namespace SOI.Memory
variable {N NR_PROCS clicks swap_base : ℕ} {t : Table N} {xs ys : List (Fin N)} {hp : Fin N} {p : Option (Fin N)}

/-- The list of holes is sorted by address. -/
def Ascending (t : Table N) (xs : List (Fin N)) : Prop :=
  xs.Pairwise fun r s => (t.block r).base ≤ (t.block s).base

theorem Ascending.low_eq (h : Ascending t xs) (swap_base : ℕ) :
    t.low swap_base xs = xs.filter fun s => (t.block s).base < swap_base := by
  induction xs with
  | nil => rfl
  | cons x xs ih =>
    obtain ⟨hx,hxs⟩ := List.pairwise_cons.mp h
    by_cases hbelow : (t.block x).base < swap_base
    · rw [low_cons_of_lt hbelow, ih hxs, List.filter_cons_of_pos (by simpa using hbelow)]
    · have hnone : ∀ s ∈ x :: xs, ¬ (t.block s).base < swap_base := by
        intro s hs
        rcases List.mem_cons.mp hs with rfl | hs
        · exact hbelow
        · exact fun hlt => hbelow ((hx s hs).trans_lt hlt)
      rw [low_cons_of_not_lt hbelow, eq_comm, List.filter_eq_nil_iff]
      exact fun s hs hlt => hnone s hs (of_decide_eq_true hlt)

theorem Ascending.mem_low (h : Ascending t xs) {s : Fin N} (hs : s ∈ xs) (hbelow : (t.block s).base < swap_base) :
    s ∈ t.low swap_base xs := by
  rw [h.low_eq, List.mem_filter]
  exact ⟨hs,decide_eq_true hbelow⟩

structure Largest (t : Table N) (swap_base : ℕ) (xs : List (Fin N)) (hp : Fin N) : Prop where
  mem : hp ∈ xs
  below : (t.block hp).base < swap_base
  longest : ∀ s ∈ xs, (t.block s).base < swap_base → (t.block s).len ≤ (t.block hp).len
  lowest : ∀ s ∈ xs, (t.block s).base < swap_base → (t.block s).len = (t.block hp).len →
    (t.block hp).base ≤ (t.block s).base

theorem Biggest.largest (h : Biggest t clicks (t.low swap_base xs) (some (p,hp))) (hasc : Ascending t xs) :
    Largest t swap_base xs hp := by
  obtain ⟨pre,post,hlow,-,-,hpre,hpost⟩ := h
  have hmem : hp ∈ t.low swap_base xs := by
    rw [hlow]
    exact List.mem_append_right _ List.mem_cons_self
  have hsplit : ∀ s ∈ xs, (t.block s).base < swap_base → s ∈ pre ∨ s ∈ hp :: post := by
    intro s hs hbelow
    rw [← List.mem_append, ← hlow]
    exact hasc.mem_low hs hbelow
  have hasc' : (pre ++ hp :: post).Pairwise fun r s => (t.block r).base ≤ (t.block s).base := by
    rw [← hlow]
    exact hasc.sublist (low_begins t swap_base xs).sublist
  have hup := (List.pairwise_cons.mp (List.pairwise_append.mp hasc').2.1).1
  refine ⟨(low_begins t swap_base xs).subset hmem,base_lt_of_mem_low hmem,fun s hs hbelow => ?_,fun s hs hbelow heq => ?_⟩
  · rcases hsplit s hs hbelow with hs | hs
    · exact (hpre s hs).le
    rcases List.mem_cons.mp hs with rfl | hs
    · exact le_rfl
    · exact hpost s hs
  · rcases hsplit s hs hbelow with hs | hs
    · exact absurd heq (hpre s hs).ne
    rcases List.mem_cons.mp hs with rfl | hs
    · exact le_rfl
    · exact hup s hs

structure FindsBiggest (t : Table N) (swap_base clicks : ℕ) (xs : List (Fin N)) : Prop where
  nil : findBiggestHole t swap_base clicks = .ok none ↔ ∀ s ∈ xs, (t.block s).base < swap_base → (t.block s).len < clicks
  hole : (∃ s ∈ xs, (t.block s).base < swap_base ∧ clicks ≤ (t.block s).len) → ∃ pre hp post, xs = pre ++ hp :: post ∧
    findBiggestHole t swap_base clicks = .ok (some (pre.getLast?,hp)) ∧ clicks ≤ (t.block hp).len ∧
    Largest t swap_base xs hp

theorem findBiggestHole_finds (hslots : Slots t xs ys) (hasc : Ascending t xs) (swap_base clicks : ℕ) :
    FindsBiggest t swap_base clicks xs := by
  obtain ⟨r,hfind,hr⟩ := findBiggestHole_biggest hslots swap_base clicks
  rcases r with _ | ⟨p,hp⟩
  · have hnone : ∀ s ∈ xs, (t.block s).base < swap_base → (t.block s).len < clicks :=
      fun s hs hbelow => hr s (hasc.mem_low hs hbelow)
    refine ⟨iff_of_true hfind hnone,?_⟩
    rintro ⟨s,hs,hbelow,hlen⟩
    exact absurd (hnone s hs hbelow) (Nat.not_lt.mpr hlen)
  · have hlargest := hr.largest hasc
    obtain ⟨pre,post,hxs,rfl⟩ := hr.split
    obtain ⟨-,-,-,-,hfits,-⟩ := hr
    refine ⟨iff_of_false ?_ ?_,fun _ => ⟨pre,hp,post,hxs,hfind,hfits,hlargest⟩⟩
    · rw [hfind]
      intro h
      cases h
    · intro hall
      exact absurd (hall hp hlargest.mem hlargest.below) (Nat.not_lt.mpr hfits)

/-- With worst fit a request that fits somewhere below the swap area gets the start of the
largest hole there, at once; the rest of that hole keeps its place, and the other holes
keep theirs. -/
theorem worst_fit_takes_largest {m : Manager NR_PROCS} {xs ys : List (Fin (2 * NR_PROCS))}
    (hslots : Slots m.table xs ys) (hasc : Ascending m.table xs) (NO_MEM LOW_USER clicks : ℕ) :
    FindsBiggest m.table m.swap_base clicks xs ∧
    (m.isWorstFit ≠ 0 → (∃ s ∈ xs, (m.table.block s).base < m.swap_base ∧ clicks ≤ (m.table.block s).len) →
      ∃ pre hp post t', xs = pre ++ hp :: post ∧ Largest m.table m.swap_base xs hp ∧
        alloc_mem NO_MEM LOW_USER clicks m = .ok ((m.table.block hp).base,
          { m with table := t', live := owned (m.table.block hp).base clicks ++ m.live }) ∧
        Bitten m.table clicks pre hp post ys t') := by
  have hfinds := findBiggestHole_finds hslots hasc m.swap_base clicks
  refine ⟨hfinds,fun hworst hsome => ?_⟩
  obtain ⟨pre,hp,post,rfl,hfind,hfits,hlargest⟩ := hfinds.hole hsome
  obtain ⟨t',hbite,hbitten⟩ := biteOff_bitten hslots hfits
  have hchoose : chooseHole m clicks = .ok (some (pre.getLast?,hp)) := by
    rw [chooseHole, if_neg hworst, hfind]
  refine ⟨pre,hp,post,t',rfl,hlargest,?_,hbitten⟩
  rw [alloc_mem, allocLoop_take hchoose, hbite]
  rfl

def fourHoles : Manager 2 where
  table := (freeAll (emptyTable 4) [⟨0,2⟩,⟨3,4⟩,⟨8,4⟩,⟨13,9⟩]).toOption.getD (emptyTable 4)
  swap_base := 13
  mproc _ := {}
  outswap := 1
  isWorstFit := 1

theorem fourHoles_slots : Slots fourHoles.table [0,1,2,3] [] :=
  ⟨⟨rfl,rfl,rfl,rfl,rfl⟩,rfl,by decide,by decide⟩

theorem fourHoles_ascending : Ascending fourHoles.table [0,1,2,3] := by
  unfold Ascending
  decide

theorem second_hole_taken : (alloc_mem 0 1 4 fourHoles).toOption.map Prod.fst = some 3 ∧
    ∃ pre hp post t', [0,1,2,3] = pre ++ hp :: post ∧ Largest fourHoles.table 13 [0,1,2,3] hp ∧
      alloc_mem 0 1 4 fourHoles = .ok ((fourHoles.table.block hp).base,
        { fourHoles with table := t', live := owned (fourHoles.table.block hp).base 4 ++ fourHoles.live }) ∧
      Bitten fourHoles.table 4 pre hp post [] t' :=
  ⟨by decide,(worst_fit_takes_largest fourHoles_slots fourHoles_ascending 0 1 4).2 (by decide) ⟨1,by decide⟩⟩

end SOI.Memory

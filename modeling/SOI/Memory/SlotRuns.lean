import SOI.Library.Logged
import SOI.Memory.Conservation

/-! # The slots of the hole table in every run

The functions of the allocator once more, making a note of the table between two
operations on its lists and of every call of `del_slot`. In every run from the state that
`mem_init` sets up, each slot is on one of the two lists, whatever blocks are freed, and
`del_slot` gets the true predecessor of a hole that is not the head. The pointer with
which a pass of first fit starts, uninitialised or left over, is arbitrary.
-/
namespace SOI.Memory
open Linked Logs Runs
variable {N NR_PROCS LOW_USER clicks : ℕ} {t : Table N} {xs ys pre post : List (Fin N)} {hp : Fin N}
  {prev_ptr : Option (Fin N)} {m m' : Manager NR_PROCS} {xs' ys' pre' post' : List (Fin (2 * NR_PROCS))}
  {hp' : Fin (2 * NR_PROCS)}

/-- Every slot is on exactly one of the two lists, exactly once. -/
def OneList (t : Table N) : Prop := ∃ xs ys, Slots t xs ys

inductive Moment (N : ℕ)
  | between (t : Table N)
  | del_slot (t : Table N) (prev_ptr : Option (Fin N)) (hp : Fin N)

/-- The lists are in order; `del_slot` takes a hole, and its predecessor if it has one. -/
def Moment.Sound : Moment N → Prop
  | .between t => OneList t
  | .del_slot t prev_ptr hp => ∃ xs ys, Slots t xs ys ∧ hp ∈ xs ∧
      (t.hole_head ≠ some hp → ∃ prev ∈ xs, prev_ptr = some prev ∧ t.next prev = some hp)

def del_slotLogged (t : Table N) (prev_ptr : Option (Fin N)) (hp : Fin N) : Logged (Moment N) Stop (Table N) :=
  note (.del_slot t prev_ptr hp) (quietly (del_slot t prev_ptr hp))

def absorbLogged (t : Table N) (hp : Fin N) : Logged (Moment N) Stop (Table N × Option (Fin N)) :=
  match t.next hp with
  | none => quietly (.ok (t,none))
  | some next_ptr =>
    let h := t.hole hp
    let next := t.hole next_ptr
    if wrap (h.h_base + h.h_len) = next.h_base then
      (del_slotLogged (t.setBlock hp h.h_base (wrap (h.h_len + next.h_len))) (some hp) next_ptr).bind fun t =>
        quietly (.ok (t,some hp))
    else quietly (.ok (t,some next_ptr))

def mergeLogged (t : Table N) (hp : Fin N) : Logged (Moment N) Stop (Table N) :=
  (absorbLogged t hp).bind fun r => note (.between r.1) <| r.2.elim (quietly (.ok r.1)) fun hp =>
    (absorbLogged r.1 hp).bind fun r => quietly (.ok r.1)

def free_memLogged (t : Table N) (base clicks : ℕ) : Logged (Moment N) Stop (Table N) :=
  if clicks = 0 then quietly (.ok t)
  else (quietly (insertHole t base clicks)).bind fun r => note (.between r.1) (mergeLogged r.1 r.2)

def biteOffLogged (t : Table N) (prev_ptr : Option (Fin N)) (hp : Fin N) (clicks : ℕ) :
    Logged (Moment N) Stop (ℕ × Table N) :=
  let h := t.hole hp
  let t := t.setBlock hp (wrap (h.h_base + clicks)) (h.h_len - clicks)
  if h.h_len - clicks = 0 then (del_slotLogged t prev_ptr hp).bind fun t => quietly (.ok (h.h_base,t))
  else quietly (.ok (h.h_base,t))

def swapToLogged (m : Manager NR_PROCS) (rmp : ℕ) (prev_ptr : Option (Fin (2 * NR_PROCS)))
    (hp : Fin (2 * NR_PROCS)) : Logged (Moment (2 * NR_PROCS)) Stop (Manager NR_PROCS) :=
  let p := m.mproc rmp
  (biteOffLogged m.table prev_ptr hp p.size).bind fun r => note (.between r.2) <|
    (free_memLogged r.2 p.D.mem_phys p.size).bind fun t => quietly (.ok (moved m rmp r.1 t))

def swapFromLogged (LOW_USER : ℕ) (m : Manager NR_PROCS) :
    ℕ → ℕ → Logged (Moment (2 * NR_PROCS)) Stop (Bool × Manager NR_PROCS)
  | 0, _ => quietly (.error .loop)
  | fuel + 1, rmp =>
    let rmp := if rmp + 1 = NR_PROCS then LOW_USER else rmp + 1
    let found := if (m.mproc rmp).candidate then swapHole m.table m.swap_base (m.mproc rmp).size else .ok none
    (quietly found).bind fun hole => hole.elim
      (if rmp ≠ m.outswap then swapFromLogged LOW_USER m fuel rmp else quietly (.ok (false,m))) fun hole =>
        (swapToLogged m rmp hole.1 hole.2).bind fun m => quietly (.ok (true,m))

def chooseHoleFrom (leftover : Option (Fin (2 * NR_PROCS))) (m : Manager NR_PROCS) (clicks : ℕ) :
    Except Stop (Option (Option (Fin (2 * NR_PROCS)) × Fin (2 * NR_PROCS))) :=
  if m.isWorstFit = 0 then
    search m.table (fun h => m.swap_base ≤ h.h_base) (fun h => clicks ≤ h.h_len) (2 * NR_PROCS + 1) leftover
      m.table.hole_head
  else findBiggestHole m.table m.swap_base clicks

def allocLoopLogged (leftover : ℕ → Option (Fin (2 * NR_PROCS))) (LOW_USER clicks : ℕ) :
    ℕ → Manager NR_PROCS → Logged (Moment (2 * NR_PROCS)) Stop (Option ℕ × Manager NR_PROCS)
  | 0, _ => quietly (.error .loop)
  | fuel + 1, m => note (.between m.table) <|
    (quietly (chooseHoleFrom (leftover fuel) m clicks)).bind fun hole => hole.elim
      ((swapFromLogged LOW_USER m NR_PROCS m.outswap).bind fun r =>
        if r.1 then allocLoopLogged leftover LOW_USER clicks fuel r.2 else quietly (.ok (none,r.2)))
      fun hole => (biteOffLogged m.table hole.1 hole.2 clicks).bind fun r =>
        quietly (.ok (some r.1,{ m with table := r.2, live := owned r.1 clicks ++ m.live }))

def alloc_memLogged (leftover : ℕ → Option (Fin (2 * NR_PROCS))) (NO_MEM LOW_USER clicks : ℕ)
    (m : Manager NR_PROCS) : Logged (Moment (2 * NR_PROCS)) Stop (ℕ × Manager NR_PROCS) :=
  (allocLoopLogged leftover LOW_USER clicks (NR_PROCS + 1) m).bind fun r => quietly (.ok (r.1.getD NO_MEM,r.2))

theorem absorbLogged_result (t : Table N) (hp : Fin N) : (absorbLogged t hp).result = absorb t hp := by
  unfold absorbLogged absorb
  cases t.next hp with
  | none => rfl
  | some next_ptr =>
    dsimp only
    split_ifs
    · rw [result_bind]
      rfl
    · rfl

theorem mergeLogged_result (t : Table N) (hp : Fin N) : (mergeLogged t hp).result = merge t hp := by
  rw [mergeLogged, result_bind, absorbLogged_result, merge]
  cases absorb t hp with
  | error e => rfl
  | ok r =>
    obtain ⟨t',o⟩ := r
    cases o with
    | none => rfl
    | some s =>
      show ((absorbLogged t' s).bind fun r => quietly (.ok r.1)).result = _
      rw [result_bind, absorbLogged_result]
      rfl

theorem free_memLogged_result (t : Table N) (base clicks : ℕ) :
    (free_memLogged t base clicks).result = free_mem t base clicks := by
  rw [free_mem_eq, free_memLogged]
  split_ifs
  · rfl
  · simp only [result_bind, result_quietly, result_note, mergeLogged_result]

theorem biteOffLogged_result (t : Table N) (prev_ptr : Option (Fin N)) (hp : Fin N) (clicks : ℕ) :
    (biteOffLogged t prev_ptr hp clicks).result = biteOff t prev_ptr hp clicks := by
  unfold biteOffLogged biteOff
  dsimp only
  split_ifs
  · rw [result_bind]
    rfl
  · rfl

theorem swapToLogged_result (m : Manager NR_PROCS) (rmp : ℕ) (prev_ptr : Option (Fin (2 * NR_PROCS)))
    (hp : Fin (2 * NR_PROCS)) : (swapToLogged m rmp prev_ptr hp).result = swapTo m rmp prev_ptr hp := by
  rw [swapTo_eq, swapToLogged, result_bind, biteOffLogged_result]
  apply congrArg (Except.bind _)
  funext r
  rw [result_note, result_bind, free_memLogged_result]
  rfl

theorem swapFromLogged_result (m : Manager NR_PROCS) (fuel rmp : ℕ) :
    (swapFromLogged LOW_USER m fuel rmp).result = swapFrom LOW_USER m fuel rmp := by
  induction fuel generalizing rmp with
  | zero => rfl
  | succ fuel ih =>
    generalize hs : (if rmp + 1 = NR_PROCS then LOW_USER else rmp + 1) = s
    simp only [swapFromLogged, hs]
    rw [swapFrom_turn m hs, result_bind, result_quietly]
    apply congrArg (Except.bind _)
    funext hole
    cases hole with
    | none =>
      show Logged.result (if s ≠ m.outswap then _ else _) = if s ≠ m.outswap then _ else _
      split_ifs
      · exact ih s
      · rfl
    | some hole =>
      show ((swapToLogged m s hole.1 hole.2).bind fun m => quietly (.ok (true,m))).result = _
      rw [result_bind, swapToLogged_result]
      rfl

/-- Where the walk starts from shows only when it ends at its first hole. -/
theorem search_or (stop fits : Hole N → Bool) (fuel : ℕ) (p leftover : Option (Fin N)) (b : Option (Fin N)) :
    search t stop fits fuel (p.or leftover) b =
      (search t stop fits fuel p b).map (Option.map fun r => (r.1.or leftover,r.2)) := by
  induction fuel generalizing p b with
  | zero => rfl
  | succ fuel ih =>
    cases b with
    | none => rfl
    | some hp =>
      unfold search
      split_ifs
      · rfl
      · rfl
      · exact ih (some hp) (t.next hp)

def Reported (xs : List (Fin N)) (hole : Option (Option (Fin N) × Fin N)) : Prop :=
  ∀ r ∈ hole, ∃ pre post, xs = pre ++ r.2 :: post ∧ (pre = [] ∨ r.1 = pre.getLast?)

theorem reported_none : Reported xs none := by
  rintro r ⟨⟩

theorem reported_some (hxs : xs = pre ++ hp :: post) (hprev : pre = [] ∨ prev_ptr = pre.getLast?) :
    Reported xs (some (prev_ptr,hp)) := by
  rintro r ⟨⟩
  exact ⟨pre,post,hxs,hprev⟩

theorem chooseHoleFrom_eq (leftover : Option (Fin (2 * NR_PROCS))) (m : Manager NR_PROCS) (clicks : ℕ) :
    ∃ leftover', chooseHoleFrom leftover m clicks =
      (chooseHole m clicks).map (Option.map fun r => (r.1.or leftover',r.2)) := by
  unfold chooseHoleFrom chooseHole
  split_ifs
  · exact ⟨leftover,search_or _ _ _ none leftover _⟩
  · refine ⟨none,?_⟩
    cases findBiggestHole m.table m.swap_base clicks with
    | error e => rfl
    | ok r =>
      cases r with
      | none => rfl
      | some r =>
        obtain ⟨p,hp⟩ := r
        simp only [Except.map, Option.map_some, Option.or_none]

theorem chooseHoleFrom_cases (hslots : Slots m.table xs' ys') (leftover : Option (Fin (2 * NR_PROCS))) (clicks : ℕ) :
    (chooseHole m clicks = .ok none ∧ chooseHoleFrom leftover m clicks = .ok none) ∨
    ∃ pre hp post p, xs' = pre ++ hp :: post ∧ (pre = [] ∨ p = pre.getLast?) ∧
      chooseHole m clicks = .ok (some (pre.getLast?,hp)) ∧ chooseHoleFrom leftover m clicks = .ok (some (p,hp)) := by
  obtain ⟨leftover',hfrom⟩ := chooseHoleFrom_eq leftover m clicks
  rcases chooseHole_split hslots clicks with ⟨hnone,-⟩ | ⟨pre,hp,post,rfl,hsome,-,-⟩
  · rw [hnone] at hfrom
    exact Or.inl ⟨hnone,hfrom⟩
  · rw [hsome] at hfrom
    refine Or.inr ⟨pre,hp,post,_,rfl,?_,hsome,hfrom⟩
    cases hlast : pre.getLast? with
    | none => exact Or.inl (List.getLast?_eq_none_iff.mp hlast)
    | some prev => exact Or.inr rfl

theorem biteOff_head (hhead : t.hole_head = some hp) (p q : Option (Fin N)) (clicks : ℕ) :
    biteOff t p hp clicks = biteOff t q hp clicks := by
  simp only [biteOff, del_slot, unlink, hole_head_setBlock, hhead, if_true]

theorem del_slotLogged_holds (h : Slots t (pre ++ hp :: post) ys) (hprev : pre = [] ∨ prev_ptr = pre.getLast?) :
    Holds Moment.Sound (fun t' => Slots t' (pre ++ post) (hp :: ys)) (del_slotLogged t prev_ptr hp) := by
  refine Holds.note ⟨_,_,h,by simp,fun hhead => ?_⟩ (Holds.quietly fun t' ht' => ?_)
  · rcases List.eq_nil_or_concat' pre with rfl | ⟨front,prev,rfl⟩
    · exact absurd h.holes.1 hhead
    · rw [List.getLast?_concat] at hprev
      have hholes := h.holes
      rw [List.append_assoc, List.singleton_append] at hholes
      obtain ⟨b,-,-,hnext,-⟩ := seg_append.mp hholes
      exact ⟨prev,by simp,hprev.resolve_left (by simp),hnext⟩
  · obtain ⟨t'',hdel,hslots,-⟩ := del_slot_slots h
    rcases hprev with rfl | rfl
    · have hhead : t.hole_head = some hp := h.holes.1
      simp only [del_slot, unlink, hhead, if_true] at hdel ht'
      rw [hdel] at ht'
      cases ht'
      exact hslots
    · rw [hdel] at ht'
      cases ht'
      exact hslots

theorem absorbLogged_holds (h : Slots t xs ys) (hmem : hp ∈ xs) :
    Holds Moment.Sound (fun r => ∃ xs ys, Slots r.1 xs ys ∧ ∀ s ∈ r.2, s ∈ xs) (absorbLogged t hp) := by
  obtain ⟨pre,post,rfl⟩ := List.append_of_mem hmem
  unfold absorbLogged
  cases post with
  | nil =>
    have hnext : t.next hp = none := (seg_concat.mp h.holes).2
    rw [hnext]
    exact Holds.value ⟨_,_,h,by simp⟩
  | cons nx post =>
    rw [h.next_eq]
    dsimp only
    split_ifs
    · have h₁ := h.setBlock hp (t.hole hp).h_base (wrap ((t.hole hp).h_len + (t.hole nx).h_len))
      rw [List.append_cons] at h₁
      refine (del_slotLogged_holds h₁ (Or.inr (List.getLast?_concat ..).symm)).bind fun t' ht' => ?_
      exact Holds.value ⟨_,_,ht',by simp⟩
    · exact Holds.value ⟨_,_,h,by simp⟩

theorem mergeLogged_holds (h : Slots t xs ys) (hmem : hp ∈ xs) : Holds Moment.Sound OneList (mergeLogged t hp) := by
  refine (absorbLogged_holds h hmem).bind ?_
  rintro ⟨t',o⟩ ⟨xs',ys',h',ho⟩
  refine Holds.note ⟨_,_,h'⟩ ?_
  cases o with
  | none => exact Holds.value ⟨_,_,h'⟩
  | some s =>
    refine (absorbLogged_holds h' (ho s rfl)).bind fun r hr => Holds.value ?_
    obtain ⟨xs'',ys'',h'',-⟩ := hr
    exact ⟨_,_,h''⟩

theorem insertHole_holds (h : Slots t xs ys) {base : ℕ} {r : Table N × Fin N} (hr : insertHole t base clicks = .ok r) :
    ∃ xs ys, Slots r.1 xs ys ∧ r.2 ∈ xs := by
  cases ys with
  | nil =>
    have hfree : t.free_slots = none := h.free
    simp only [insertHole, hfree] at hr
    cases hr
  | cons f ys =>
    obtain ⟨t₂,pre,post,-,-,-,h₂,-,hinsert⟩ := insertHole_slots base clicks h
    rw [hinsert] at hr
    cases hr
    refine ⟨_,_,h₂,?_⟩
    cases hlast : pre.getLast? with
    | none => simp
    | some s => exact List.mem_append_left _ (List.mem_of_getLast? hlast)

theorem free_memLogged_holds (h : OneList t) (base clicks : ℕ) :
    Holds Moment.Sound OneList (free_memLogged t base clicks) := by
  obtain ⟨xs,ys,hslots⟩ := h
  unfold free_memLogged
  split_ifs
  · exact Holds.value ⟨_,_,hslots⟩
  refine Holds.quietly_bind fun r hr => ?_
  obtain ⟨xs',ys',h',hmem⟩ := insertHole_holds hslots hr
  exact Holds.note ⟨_,_,h'⟩ (mergeLogged_holds h' hmem)

theorem biteOffLogged_holds (h : Slots t (pre ++ hp :: post) ys) (hprev : pre = [] ∨ prev_ptr = pre.getLast?)
    (clicks : ℕ) : Holds Moment.Sound (fun r => OneList r.2) (biteOffLogged t prev_ptr hp clicks) := by
  unfold biteOffLogged
  dsimp only
  have h₁ := h.setBlock hp (wrap ((t.hole hp).h_base + clicks)) ((t.hole hp).h_len - clicks)
  split_ifs
  · exact (del_slotLogged_holds h₁ hprev).bind fun t' ht' => Holds.value ⟨_,_,ht'⟩
  · exact Holds.value ⟨_,_,h₁⟩

theorem swapToLogged_holds (h : Slots m.table (pre' ++ hp' :: post') ys') {p : Option (Fin (2 * NR_PROCS))}
    (hprev : pre' = [] ∨ p = pre'.getLast?) (rmp : ℕ) :
    Holds Moment.Sound (fun m' => OneList m'.table) (swapToLogged m rmp p hp') := by
  refine (biteOffLogged_holds h hprev _).bind fun r hr => Holds.note hr ?_
  exact (free_memLogged_holds hr _ _).bind fun t ht => Holds.value ht

theorem swapFromLogged_holds (h : Slots m.table xs' ys') (fuel rmp : ℕ) :
    Holds Moment.Sound (fun r => OneList r.2.table) (swapFromLogged LOW_USER m fuel rmp) := by
  induction fuel generalizing rmp with
  | zero => exact Holds.quietly fun r hr => nomatch hr
  | succ fuel ih =>
    generalize hs : (if rmp + 1 = NR_PROCS then LOW_USER else rmp + 1) = s
    simp only [swapFromLogged, hs]
    refine Holds.quietly_bind fun hole hhole => ?_
    have hreported : Reported xs' hole := by
      split_ifs at hhole
      · rcases swapHole_split h m.swap_base (m.mproc s).size with hnone | ⟨pre,hp,post,hxs,hsome,-⟩
        · rw [hnone] at hhole
          cases hhole
          exact reported_none
        · rw [hsome] at hhole
          cases hhole
          exact reported_some hxs (Or.inr rfl)
      · cases hhole
        exact reported_none
    cases hole with
    | none =>
      show Holds _ _ (if s ≠ m.outswap then _ else _)
      split_ifs
      · exact ih s
      · exact Holds.value ⟨_,_,h⟩
    | some hole =>
      obtain ⟨pre,post,rfl,hprev⟩ := hreported hole rfl
      exact (swapToLogged_holds h hprev s).bind fun m' hm' => Holds.value hm'

theorem allocLoopLogged_holds (leftover : ℕ → Option (Fin (2 * NR_PROCS))) (h : OneList m.table) (fuel : ℕ) :
    Holds Moment.Sound (fun r => OneList r.2.table) (allocLoopLogged leftover LOW_USER clicks fuel m) := by
  induction fuel generalizing m with
  | zero => exact Holds.quietly fun r hr => nomatch hr
  | succ fuel ih =>
    obtain ⟨xs,ys,hslots⟩ := h
    refine Holds.note ⟨_,_,hslots⟩ ?_
    refine Holds.quietly_bind fun hole hhole => ?_
    have hreported : Reported xs hole := by
      rcases chooseHoleFrom_cases hslots (leftover fuel) clicks with ⟨-,hnone⟩ | ⟨pre,hp,post,p,hxs,hprev,-,hsome⟩
      · rw [hnone] at hhole
        cases hhole
        exact reported_none
      · rw [hsome] at hhole
        cases hhole
        exact reported_some hxs hprev
    cases hole with
    | none =>
      refine (swapFromLogged_holds hslots _ _).bind fun r hr => ?_
      split_ifs
      · exact ih hr
      · exact Holds.value hr
    | some hole =>
      obtain ⟨pre,post,rfl,hprev⟩ := hreported hole rfl
      exact (biteOffLogged_holds hslots hprev clicks).bind fun r hr => Holds.value hr

/-- Whatever the passes start with, the notes change nothing here either. -/
theorem allocLoopLogged_result (leftover : ℕ → Option (Fin (2 * NR_PROCS))) (h : OneList m.table) (fuel : ℕ) :
    (allocLoopLogged leftover LOW_USER clicks fuel m).result = allocLoop LOW_USER clicks fuel m := by
  induction fuel generalizing m with
  | zero => rfl
  | succ fuel ih =>
    obtain ⟨xs,ys,hslots⟩ := h
    rcases chooseHoleFrom_cases hslots (leftover fuel) clicks with
      ⟨hnone,hnone'⟩ | ⟨pre,hp,post,p,rfl,hprev,hsome,hsome'⟩
    · rw [allocLoop_swap hnone, allocLoopLogged, hnone', result_note, result_bind, result_quietly]
      show ((swapFromLogged LOW_USER m NR_PROCS m.outswap).bind _).result = _
      have hswapped := (@swapFromLogged_holds _ LOW_USER _ _ _ hslots NR_PROCS m.outswap).result
      rw [result_bind, swapFromLogged_result] at *
      show (swap_out LOW_USER m).bind _ = _
      cases hout : swap_out LOW_USER m with
      | error e => rfl
      | ok r =>
        show Logged.result (if r.1 then _ else _) = if r.1 then _ else _
        split_ifs
        · exact ih (hswapped r hout)
        · rfl
    · rw [allocLoop_take hsome, allocLoopLogged, hsome', result_note, result_bind, result_quietly]
      show ((biteOffLogged m.table p hp clicks).bind _).result = _
      rw [result_bind, biteOffLogged_result]
      have hbite : biteOff m.table p hp clicks = biteOff m.table pre.getLast? hp clicks := by
        rcases hprev with rfl | rfl
        · exact biteOff_head hslots.holes.1 _ _ clicks
        · rfl
      rw [hbite]
      rfl

theorem alloc_memLogged_result (leftover : ℕ → Option (Fin (2 * NR_PROCS))) (h : OneList m.table)
    (NO_MEM clicks : ℕ) :
    (alloc_memLogged leftover NO_MEM LOW_USER clicks m).result = alloc_mem NO_MEM LOW_USER clicks m := by
  rw [alloc_memLogged, result_bind, allocLoopLogged_result leftover h, alloc_mem]
  cases allocLoop LOW_USER clicks (NR_PROCS + 1) m <;> rfl

theorem alloc_memLogged_holds (leftover : ℕ → Option (Fin (2 * NR_PROCS))) (h : OneList m.table)
    (NO_MEM clicks : ℕ) :
    Holds Moment.Sound (fun r => OneList r.2.table) (alloc_memLogged leftover NO_MEM LOW_USER clicks m) :=
  (allocLoopLogged_holds leftover h _).bind fun _ hr => Holds.value hr

theorem freeAll_oneList {bs : List Intervals.Block} {t' : Table N} (h : OneList t) (hfree : freeAll t bs = .ok t') :
    OneList t' := by
  induction bs generalizing t with
  | nil =>
    cases hfree
    exact h
  | cons b bs ih =>
    have hholds := free_memLogged_holds h b.base b.len
    rw [freeAll] at hfree
    cases hfreed : free_mem t b.base b.len with
    | error e =>
      rw [hfreed] at hfree
      cases hfree
    | ok t₁ =>
      rw [hfreed] at hfree
      exact ih (hholds.result t₁ (by rw [free_memLogged_result, hfreed])) hfree

theorem mem_init_oneList {replies : List Intervals.Block} {mproc : ℕ → MProc}
    (hinit : mem_init replies mproc LOW_USER = .ok m) : OneList m.table := by
  unfold mem_init at hinit
  dsimp only at hinit
  cases hfree : freeAll (emptyTable (2 * NR_PROCS)) (replies.takeWhile fun b => b.len ≠ 0) with
  | error e =>
    rw [hfree] at hinit
    cases hinit
  | ok t =>
    rw [hfree] at hinit
    cases hinit
    exact freeAll_oneList ⟨_,_,emptyTable_slots _⟩ hfree

theorem OneList.step {call : Call} (h : OneList m.table) {NO_MEM : ℕ} (hstep : step NO_MEM LOW_USER m call = some m') :
    OneList m'.table := by
  cases call with
  | worstFit w =>
    cases hstep
    unfold do_worst_fit
    split_ifs <;> exact h
  | procs mproc =>
    cases hstep
    exact h
  | alloc clicks =>
    have hholds := @alloc_memLogged_holds _ LOW_USER m (fun _ => none) h NO_MEM clicks
    rw [SOI.Memory.step, ← alloc_memLogged_result (fun _ => none) h] at hstep
    cases halloc : (alloc_memLogged (fun _ => none) NO_MEM LOW_USER clicks m).result with
    | error e =>
      rw [halloc] at hstep
      cases hstep
    | ok r =>
      rw [halloc] at hstep
      cases hstep
      exact hholds.result r halloc
  | free b =>
    have hholds := free_memLogged_holds h b.base b.len
    rw [SOI.Memory.step, ← free_memLogged_result] at hstep
    cases hfree : (free_memLogged m.table b.base b.len).result with
    | error e =>
      rw [hfree] at hstep
      cases hstep
    | ok t =>
      rw [hfree] at hstep
      cases hstep
      exact hholds.result t hfree

/-- In every run from the state set up by `mem_init`, whatever is allocated and freed, every
slot is on exactly one of the two lists. The next call keeps it so at every moment, also
if it panics later, and passes the true predecessor to `del_slot`. -/
theorem slots_in_order {replies : List Intervals.Block} {mproc : ℕ → MProc} {calls : List Call} {NO_MEM : ℕ}
    (hinit : mem_init replies mproc LOW_USER = .ok m) (hrun : run (step NO_MEM LOW_USER) m calls = some m') :
    OneList m'.table ∧
    (∀ leftover clicks, (alloc_memLogged leftover NO_MEM LOW_USER clicks m').result =
        alloc_mem NO_MEM LOW_USER clicks m' ∧
      ∀ moment ∈ (alloc_memLogged leftover NO_MEM LOW_USER clicks m').log, moment.Sound) ∧
    ∀ base clicks, (free_memLogged m'.table base clicks).result = free_mem m'.table base clicks ∧
      ∀ moment ∈ (free_memLogged m'.table base clicks).log, moment.Sound := by
  have hone : OneList m'.table :=
    run_invariant (P := fun m : Manager NR_PROCS => OneList m.table) (fun _ _ _ h hstep => h.step hstep)
      (mem_init_oneList hinit) hrun
  refine ⟨hone,fun leftover clicks => ⟨?_,?_⟩,fun base clicks => ⟨?_,?_⟩⟩
  · exact alloc_memLogged_result leftover hone NO_MEM clicks
  · exact (alloc_memLogged_holds leftover hone NO_MEM clicks).log
  · exact free_memLogged_result _ base clicks
  · exact (free_memLogged_holds hone base clicks).log

theorem freed_twice_in_order : ∃ m m' : Manager 2, mem_init [⟨0,4⟩,⟨9,3⟩] (fun _ => {}) 1 = .ok m ∧
    run (step 0 1) m [.free ⟨13,4⟩,.alloc 4,.procs fun r => if r = 1 then pausedAt 0 else {},.worstFit 1,.alloc 4,
      .free ⟨0,4⟩] = some m' ∧
    OneList m'.table ∧
    (∀ leftover clicks, (alloc_memLogged leftover 0 1 clicks m').result = alloc_mem 0 1 clicks m' ∧
      ∀ moment ∈ (alloc_memLogged leftover 0 1 clicks m').log, moment.Sound) ∧
    ∀ base clicks, (free_memLogged m'.table base clicks).result = free_mem m'.table base clicks ∧
      ∀ moment ∈ (free_memLogged m'.table base clicks).log, moment.Sound := by
  have hruns : ((mem_init [⟨0,4⟩,⟨9,3⟩] (fun _ => {}) 1 : Except Stop (Manager 2)).toOption.any fun m =>
      (run (step 0 1) m [.free ⟨13,4⟩,.alloc 4,.procs fun r => if r = 1 then pausedAt 0 else {},.worstFit 1,.alloc 4,
        .free ⟨0,4⟩]).any fun _ => true) = true := by decide
  cases hinit : (mem_init [⟨0,4⟩,⟨9,3⟩] (fun _ => {}) 1 : Except Stop (Manager 2)) with
  | error e =>
    rw [hinit] at hruns
    cases hruns
  | ok m =>
    rw [hinit, Except.toOption, Option.any_some] at hruns
    obtain ⟨m',hrun,-⟩ := (Option.any_eq_true _ _).mp hruns
    exact ⟨m,m',rfl,hrun,slots_in_order hinit hrun⟩

end SOI.Memory

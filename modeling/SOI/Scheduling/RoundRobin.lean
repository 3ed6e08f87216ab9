import SOI.Library.RoundRobin
import SOI.Scheduling.ReadyQueue

/-! # Which process `sched` puts in front

Called again and again, `sched` leaves the order within every group alone but
for the group of the old head, which it rotates by one. So the groups that have
members are served in cyclic order, and the members of each group take turns.
-/
namespace SOI.Scheduling
open RoundRobin
variable {ρ : Type} {k k' : Table ρ} {xs ys : List ρ} {x : ρ} {slots : Slots ρ} {fuel : ℕ}

def nonemptyGroups (k : Table ρ) (xs : List ρ) : List ℤ := [0,1,2].filter fun g => xs.any (inGroup k g)

/-- The processes of one group, in the order of the queue. -/
def members (k : Table ρ) (xs : List ρ) (g : ℤ) : List ρ := xs.filter (inGroup k g)

theorem OnQueue.pick_proc {q : Queue} (h : OnQueue k q xs) (slots : Slots ρ) :
    OnQueue (pick_proc slots k) q xs := by
  apply h.frame
  · simp
  · rw [rdy_head_pick_proc]
  · rw [rdy_tail_pick_proc]

theorem nextServed_perm (h : xs.Perm ys) (k : Table ρ) (g : ℤ) : nextServed k g xs = nextServed k g ys := by
  simp only [nextServed, h.any_eq]

variable [DecidableEq ρ]

def scheds (slots : Slots ρ) (fuel : ℕ) : ℕ → Table ρ → Option (Table ρ)
  | 0, k => some k
  | t + 1, k => (scheds slots fuel t k).bind (sched slots fuel)

def afterScheds (k : Table ρ) (xs : List ρ) : ℕ → List ρ
  | 0 => xs
  | t + 1 => afterSched k (afterScheds k xs t)

theorem afterScheds_perm (k : Table ρ) (xs : List ρ) (t : ℕ) : (afterScheds k xs t).Perm xs := by
  induction t with
  | zero => exact List.Perm.refl xs
  | succ t ih => exact (afterSched_perm k _).trans ih

omit [DecidableEq ρ] in
theorem inGroup_congr (h : ∀ rp, (k'.proc rp).group = (k.proc rp).group) (g : ℤ) : inGroup k' g = inGroup k g := by
  funext rp
  simp only [inGroup, h]

theorem afterSched_congr (h : ∀ rp, (k'.proc rp).group = (k.proc rp).group) (xs : List ρ) :
    afterSched k' xs = afterSched k xs := by
  cases xs with
  | nil => rfl
  | cons x xs => simp only [afterSched, nextServed, inGroup_congr h, h]

theorem scheds_onQueue (slots : Slots ρ) (h : OnQueue k .USER_Q xs)
    (hgroups : ∀ p ∈ xs, 0 ≤ (k.proc p).group ∧ (k.proc p).group < 3) (hfuel : xs.length + 2 ≤ fuel) (t : ℕ) :
    ∃ k', scheds slots fuel t k = some k' ∧ OnQueue k' .USER_Q (afterScheds k xs t) ∧
      ∀ rp, (k'.proc rp).group = (k.proc rp).group := by
  induction t with
  | zero => exact ⟨k,rfl,h,fun _ => rfl⟩
  | succ t ih =>
    obtain ⟨k₁,hrun,hqueue,hsame⟩ := ih
    have hperm := afterScheds_perm k xs t
    cases hlist : afterScheds k xs t with
    | nil =>
      rw [hlist] at hqueue
      have hhead : k₁.rdy_head .USER_Q = none := hqueue.head
      refine ⟨k₁,by simp [scheds, hrun, sched, hhead],?_,hsame⟩
      rwa [afterScheds, hlist]
    | cons y ys =>
      rw [hlist] at hqueue hperm
      have hy := hgroups y (hperm.subset (by simp))
      rw [← hsame] at hy
      have hlen : (y :: ys).length + 2 ≤ fuel := by rwa [hperm.length_eq]
      obtain ⟨k₂,hsched,hqueue₂,hreordered⟩ := sched_onQueue slots hqueue hy hlen
      refine ⟨pick_proc slots k₂,by simp [scheds, hrun, hsched],?_,fun rp => ?_⟩
      · rw [afterScheds, hlist, ← afterSched_congr hsame]
        exact hqueue₂.pick_proc slots
      · rw [proc_pick_proc, hreordered.group, hsame]

/-- Bringing the first member of a group to the front changes the order in no group. -/
theorem filter_toFront {p q : ρ → Bool} (h : q = p ∨ ∀ x, p x = true → q x = false) (xs : List ρ) :
    (toFront p xs).filter q = xs.filter q := by
  cases hfind : xs.find? p with
  | none =>
    rw [toFront_eq_self]
    intro x hx
    simpa using List.find?_eq_none.mp hfind x hx
  | some x =>
    obtain ⟨hx,front,rest,rfl,hfront⟩ := List.find?_eq_some_iff_append.mp hfind
    have hbefore : ∀ z ∈ front, p z = false := fun z hz => by simpa using hfront z hz
    rw [toFront_split hbefore hx]
    rcases h with rfl | hdisj
    · have hnone : front.filter q = [] := List.filter_eq_nil_iff.mpr fun z hz => by simp [hbefore z hz]
      simp [hx, hnone]
    · simp [hdisj x hx]

/-- `sched` rotates the group of the old head by one and keeps the order in the others. -/
theorem members_afterSched (k : Table ρ) (x : ρ) (xs : List ρ) (g : ℤ) :
    members k (afterSched k (x :: xs)) g =
      (members k (x :: xs) g).rotate (if (k.proc x).group = g then 1 else 0) := by
  have hdisj : ∀ h : ℤ, inGroup k g = inGroup k h ∨ ∀ z, inGroup k h z = true → inGroup k g z = false := by
    intro h
    by_cases hgh : g = h
    · exact Or.inl (by rw [hgh])
    · right
      intro z hz
      simp only [inGroup, decide_eq_true_eq, decide_eq_false_iff_not] at hz ⊢
      omega
  rw [members, afterSched, filter_toFront (hdisj _), List.filter_append]
  split
  · next hx =>
    have hin : inGroup k g x = true := by simp [inGroup, hx]
    simp [members, hin]
  · next hx =>
    have hout : inGroup k g x = false := by simp [inGroup, hx]
    simp [members, hout]

omit [DecidableEq ρ] in
theorem nextServed_any {g : ℤ} (h : xs.any (inGroup k g) = true) :
    xs.any (inGroup k (nextServed k g xs)) = true := by
  unfold nextServed
  split
  · assumption
  · split <;> assumption

/-- The new head is of the next group in cyclic order that has a member. -/
theorem afterSched_group (k : Table ρ) (x : ρ) (xs : List ρ) :
    ∃ y ys, afterSched k (x :: xs) = y :: ys ∧
      (k.proc y).group = nextServed k (k.proc x).group (x :: xs) := by
  have hperm : (xs ++ [x]).Perm (x :: xs) := List.perm_append_singleton x xs
  have hself : (x :: xs).any (inGroup k (k.proc x).group) = true := by simp [inGroup]
  have hany := nextServed_any hself
  simp only [afterSched, nextServed_perm hperm]
  obtain ⟨y,hy⟩ : ∃ y, (xs ++ [x]).find? (inGroup k (nextServed k (k.proc x).group (x :: xs))) = some y := by
    rw [← Option.isSome_iff_exists, List.find?_isSome]
    rw [← hperm.any_eq] at hany
    simpa using hany
  refine ⟨y,_,by rw [toFront, hy],?_⟩
  simpa [inGroup] using List.find?_some hy

omit [DecidableEq ρ] in
/-- Of the groups in cyclic order after `g`, the first with a process in the queue is served. -/
theorem find_nextServed {g : ℤ} (hg : 0 ≤ g ∧ g < 3) (hself : xs.any (inGroup k g) = true) :
    [(g + 1) % 3,(g + 2) % 3,g % 3].find? (fun g => xs.any (inGroup k g)) = some (nextServed k g xs) := by
  have hmod : g % 3 = g := Int.emod_eq_of_lt hg.1 hg.2
  unfold nextServed
  cases hone : xs.any (inGroup k ((g + 1) % 3)) with
  | true => simp [hone]
  | false =>
    cases htwo : xs.any (inGroup k ((g + 2) % 3)) with
    | true => simp [hone, htwo]
    | false => simp [hone, htwo, hmod, hself]

theorem toFront_of_any {p : ρ → Bool} (h : xs.any p = true) :
    ∃ front y back, xs = front ++ y :: back ∧ p y = true ∧ (∀ z ∈ front, p z = false) ∧
      toFront p xs = y :: (front ++ back) := by
  obtain ⟨y,hfind⟩ : ∃ y, xs.find? p = some y := by
    rw [← Option.isSome_iff_exists, List.find?_isSome]
    simpa using h
  obtain ⟨hy,front,back,rfl,hfront⟩ := List.find?_eq_some_iff_append.mp hfind
  have hbefore : ∀ z ∈ front, p z = false := fun z hz => by simpa using hfront z hz
  exact ⟨front,y,back,rfl,hy,hbefore,toFront_split hbefore hy⟩

/-- What one call of `sched` does: the old head goes to the end, and then the first
process of the next group in cyclic order comes to the front. -/
theorem sched_serves (slots : Slots ρ) (h : OnQueue k .USER_Q (x :: xs))
    (hgroups : ∀ p ∈ x :: xs, 0 ≤ (k.proc p).group ∧ (k.proc p).group < 3) (hfuel : (x :: xs).length + 2 ≤ fuel) :
    ∃ k' g front y back, sched slots fuel k = some k' ∧
      [((k.proc x).group + 1) % 3,((k.proc x).group + 2) % 3,(k.proc x).group % 3].find?
        (fun g => (x :: xs).any (inGroup k g)) = some g ∧
      xs ++ [x] = front ++ y :: back ∧ (k.proc y).group = g ∧ (∀ z ∈ front, (k.proc z).group ≠ g) ∧
      OnQueue k' .USER_Q (y :: (front ++ back)) ∧ k'.rdy_head .USER_Q = some y ∧
      k'.rdy_tail .USER_Q = (y :: (front ++ back)).getLast? ∧
      ∀ last, (y :: (front ++ back)).getLast? = some last → k'.next last = none := by
  have hx := hgroups x (by simp)
  have hperm : (xs ++ [x]).Perm (x :: xs) := List.perm_append_singleton x xs
  have hself : (x :: xs).any (inGroup k (k.proc x).group) = true := by simp [inGroup]
  obtain ⟨k',hsched,hqueue,-⟩ := sched_onQueue slots h hx hfuel
  have hany : (xs ++ [x]).any (inGroup k (nextServed k (k.proc x).group (x :: xs))) = true := by
    rw [hperm.any_eq]
    exact nextServed_any hself
  obtain ⟨front,y,back,hlist,hy,hfront,hmoved⟩ := toFront_of_any hany
  rw [afterSched, nextServed_perm hperm, hmoved] at hqueue
  have hqueue' := hqueue.pick_proc slots
  refine ⟨pick_proc slots k',_,front,y,back,hsched,find_nextServed hx hself,hlist,?_,?_,hqueue',hqueue'.head,?_,?_⟩
  · simpa [inGroup] using hy
  · intro z hz
    simpa [inGroup] using hfront z hz
  · have hlast := List.getLast?_eq_some_getLast (List.cons_ne_nil y (front ++ back))
    rw [hlast]
    exact hqueue'.tail _ hlast
  · intro last hlast
    exact hqueue'.linked.next_last hlast

def groupAt (k : Table ρ) (g : ℤ) (xs : List ρ) : ℕ → ℤ
  | 0 => g
  | t + 1 => nextServed k (groupAt k g xs t) xs

theorem afterScheds_head (k : Table ρ) (x : ρ) (xs : List ρ) (t : ℕ) :
    ∃ y ys, afterScheds k (x :: xs) t = y :: ys ∧ (k.proc y).group = groupAt k (k.proc x).group (x :: xs) t := by
  induction t with
  | zero => exact ⟨x,xs,rfl,rfl⟩
  | succ t ih =>
    obtain ⟨y,ys,hlist,hy⟩ := ih
    obtain ⟨z,zs,hnext,hz⟩ := afterSched_group k y ys
    have hperm := afterScheds_perm k (x :: xs) t
    refine ⟨z,zs,by rw [afterScheds, hlist, hnext],?_⟩
    rw [hz, groupAt, hy, ← hlist, nextServed_perm hperm]

theorem members_afterScheds (k : Table ρ) (x : ρ) (xs : List ρ) (g : ℤ) (t : ℕ) :
    members k (afterScheds k (x :: xs) t) g =
      (members k (x :: xs) g).rotate (served (groupAt k (k.proc x).group (x :: xs)) g t) := by
  induction t with
  | zero => simp [afterScheds, served]
  | succ t ih =>
    obtain ⟨y,ys,hlist,hy⟩ := afterScheds_head k x xs t
    rw [afterScheds, hlist, members_afterSched, ← hlist, ih, hy, List.rotate_rotate, served_succ]

/-- The head is the member of its group whose turn it is. -/
theorem head_eq_turn (k : Table ρ) (x : ρ) (xs : List ρ) (t : ℕ) :
    (afterScheds k (x :: xs) t).head? =
      turn (groupAt k (k.proc x).group (x :: xs)) (members k (x :: xs)) t := by
  obtain ⟨y,ys,hlist,hy⟩ := afterScheds_head k x xs t
  have hmembers := members_afterScheds k x xs (groupAt k (k.proc x).group (x :: xs) t) t
  have hin : inGroup k (groupAt k (k.proc x).group (x :: xs) t) y = true := by simp [inGroup, hy]
  rw [hlist, members, List.filter_cons_of_pos hin] at hmembers
  have hpos : 0 < (members k (x :: xs) (groupAt k (k.proc x).group (x :: xs) t)).length := by
    rw [← List.length_rotate, ← hmembers]
    simp
  rw [turn, ← List.head?_rotate (Nat.mod_lt _ hpos), List.rotate_mod, ← hmembers, hlist]
  rfl

omit [DecidableEq ρ] in
theorem mem_nonemptyGroups {g : ℤ} :
    g ∈ nonemptyGroups k xs ↔ (0 ≤ g ∧ g < 3) ∧ xs.any (inGroup k g) = true := by
  simp only [nonemptyGroups, List.mem_filter, List.mem_cons, List.not_mem_nil, or_false]
  apply and_congr_left'
  omega

omit [DecidableEq ρ] in
theorem length_nonemptyGroups {a : ℤ} (ha : a ∈ nonemptyGroups k xs) :
    (nonemptyGroups k xs).length = 1 + (xs.any (inGroup k ((a + 1) % 3))).toNat +
      (xs.any (inGroup k ((a + 2) % 3))).toNat := by
  obtain ⟨hrange,hany⟩ := mem_nonemptyGroups.mp ha
  have hcases : a = 0 ∨ a = 1 ∨ a = 2 := by omega
  rcases hcases with rfl | rfl | rfl <;>
    simp only [nonemptyGroups, List.filter_cons, List.filter_nil, hany, if_true, Int.reduceAdd, Int.reduceMod]
  · cases xs.any (inGroup k 1) <;> cases xs.any (inGroup k 2) <;> rfl
  · cases xs.any (inGroup k 0) <;> cases xs.any (inGroup k 2) <;> rfl
  · cases xs.any (inGroup k 0) <;> cases xs.any (inGroup k 1) <;> rfl

omit [DecidableEq ρ] in
/-- Going through the groups in cyclic order passes each that has members once. -/
theorem count_cycle {f : ℕ → ℤ} {g : ℤ} (hf : ∀ i, f (i + 1) = nextServed k (f i) xs)
    (hstart : f 0 ∈ nonemptyGroups k xs) (hg : g ∈ nonemptyGroups k xs) :
    Nat.count (fun i => f i = g) (nonemptyGroups k xs).length = 1 := by
  have hone : f 1 = nextServed k (f 0) xs := hf 0
  have htwo : f 2 = nextServed k (f 1) xs := hf 1
  obtain ⟨ha,hany⟩ := mem_nonemptyGroups.mp hstart
  obtain ⟨hrange,hgany⟩ := mem_nonemptyGroups.mp hg
  have hcases : g = f 0 ∨ g = (f 0 + 1) % 3 ∨ g = (f 0 + 2) % 3 := by omega
  rw [length_nonemptyGroups hstart]
  have hne1 : xs.any (inGroup k ((f 0 + 1) % 3)) = false → g ≠ (f 0 + 1) % 3 := by
    rintro hnone rfl
    rw [hnone] at hgany
    cases hgany
  have hne2 : xs.any (inGroup k ((f 0 + 2) % 3)) = false → g ≠ (f 0 + 2) % 3 := by
    rintro hnone rfl
    rw [hnone] at hgany
    cases hgany
  have hthird : ((f 0 + 1) % 3 + 1) % 3 = (f 0 + 2) % 3 := by omega
  unfold nextServed at hone htwo
  cases h1 : xs.any (inGroup k ((f 0 + 1) % 3)) <;> cases h2 : xs.any (inGroup k ((f 0 + 2) % 3)) <;>
    simp only [h1, h2, if_true, Bool.false_eq_true, if_false] at hone <;>
    simp only [Nat.count_succ, Nat.count_zero, Bool.toNat_false, Bool.toNat_true, Nat.reduceAdd]
  · have := hne1 h1
    have := hne2 h2
    split <;> omega
  · have := hne1 h1
    split <;> split <;> omega
  · have := hne2 h2
    split <;> split <;> omega
  · simp only [hone, hthird, h2, if_true] at htwo
    split <;> split <;> split <;> omega

omit [DecidableEq ρ] in
/-- Every group with a member is served once in as many calls as there are such groups. -/
theorem served_groupAt {g a : ℤ} (ha : a ∈ nonemptyGroups k xs) (hg : g ∈ nonemptyGroups k xs) (t : ℕ) :
    served (groupAt k a xs) g (t + (nonemptyGroups k xs).length) = served (groupAt k a xs) g t + 1 := by
  have hat : groupAt k a xs t ∈ nonemptyGroups k xs := by
    induction t with
    | zero => exact ha
    | succ t ih =>
      simp only [nonemptyGroups, List.mem_filter] at ih ⊢
      refine ⟨?_,nextServed_any ih.2⟩
      have hrange := ih.1
      simp only [groupAt, nextServed, List.mem_cons, List.not_mem_nil, or_false] at hrange ⊢
      split
      · omega
      · split <;> omega
  rw [served, Nat.count_add, count_cycle (fun i => rfl) hat hg]
  rfl

/-- Group round robin: the groups with members have the head in cyclic order, the
members of a group in turn. With `m` such groups a member of a group of `n` is
the head once in every `m * n` calls. -/
theorem group_round_robin (slots : Slots ρ) (h : OnQueue k .USER_Q (x :: xs))
    (hgroups : ∀ p ∈ x :: xs, 0 ≤ (k.proc p).group ∧ (k.proc p).group < 3) (hfuel : (x :: xs).length + 2 ≤ fuel) :
    ∃ head : ℕ → ρ,
      (∀ t, ∃ k', scheds slots fuel t k = some k' ∧ k'.rdy_head .USER_Q = some (head t)) ∧
      (∀ t, (k.proc (head (t + 1))).group = nextServed k (k.proc (head t)).group (x :: xs)) ∧
      (∀ t, some (head t) = turn (fun t => (k.proc (head t)).group) (members k (x :: xs)) t) ∧
      ∀ p ∈ x :: xs, ∀ t, ∃! i, (t < i ∧ i ≤ t + (nonemptyGroups k (x :: xs)).length *
        (members k (x :: xs) (k.proc p).group).length) ∧ head i = p := by
  have hheads := afterScheds_head k x xs
  choose head rest hlist hgroup using hheads
  have hseq : (fun t => (k.proc (head t)).group) = groupAt k (k.proc x).group (x :: xs) := funext hgroup
  have hturn : ∀ t, some (head t) = turn (groupAt k (k.proc x).group (x :: xs)) (members k (x :: xs)) t := by
    intro t
    rw [← head_eq_turn, hlist]
    rfl
  have hmem : ∀ p ∈ x :: xs, (k.proc p).group ∈ nonemptyGroups k (x :: xs) := fun p hp =>
    mem_nonemptyGroups.mpr ⟨hgroups p hp,List.any_eq_true.mpr ⟨p,hp,by simp [inGroup]⟩⟩
  refine ⟨head,fun t => ?_,fun t => ?_,fun t => ?_,fun p hp t => ?_⟩
  · obtain ⟨k',hrun,hqueue,-⟩ := scheds_onQueue slots h hgroups hfuel t
    refine ⟨k',hrun,?_⟩
    rw [hqueue.head, hlist]
    rfl
  · rw [hgroup, hgroup, groupAt]
  · rw [hseq]
    exact hturn t
  · have hin : p ∈ members k (x :: xs) (k.proc p).group := List.mem_filter.mpr ⟨hp,by simp [inGroup]⟩
    have hclass : ∀ i, p ∈ members k (x :: xs) (groupAt k (k.proc x).group (x :: xs) i) →
        groupAt k (k.proc x).group (x :: xs) i = (k.proc p).group := by
      intro i hi
      have hi' : (k.proc p).group = groupAt k (k.proc x).group (x :: xs) i := by
        simpa [inGroup] using (List.mem_filter.mp hi).2
      exact hi'.symm
    obtain ⟨i,⟨⟨hlow,hhigh⟩,hi⟩,huniq⟩ := existsUnique_turn (served_groupAt (hmem x (by simp)) (hmem p hp))
      (h.nodup.filter _) hin hclass (t + 1)
    refine ⟨i,⟨⟨by omega,by omega⟩,Option.some_injective _ ((hturn i).trans hi)⟩,?_⟩
    rintro j ⟨⟨hlow',hhigh'⟩,rfl⟩
    exact huniq j ⟨⟨by omega,by omega⟩,(hturn j).symm⟩

def threeReady : Table Slot where
  proc
    | .system => { p_priority := .PPRI_IDLE }
    | .a => { p_priority := .PPRI_USER, p_nextready := some .b }
    | .b => { p_priority := .PPRI_USER, p_nextready := some .c }
    | .c => { p_priority := .PPRI_USER, group := 2 }
  rdy_head := fun q => if q = .USER_Q then some .a else none
  rdy_tail := fun q => if q = .USER_Q then some .c else none
  proc_ptr := .a
  bill_ptr := .a

/-- The first of them is the head once in every four calls. -/
theorem threeReady_served : ∃ head : ℕ → Slot,
    (∀ t, ∃ k', scheds ⟨.system,.system,.system⟩ 5 t threeReady = some k' ∧ k'.rdy_head .USER_Q = some (head t)) ∧
    ∀ t, ∃! i, (t < i ∧ i ≤ t + 4) ∧ head i = .a := by
  have hqueue : OnQueue threeReady .USER_Q [.a,.b,.c] := ⟨by simp [threeReady, Table.next],by simp [threeReady]⟩
  obtain ⟨head,hrun,-,-,honce⟩ := group_round_robin ⟨.system,.system,.system⟩ hqueue (by decide)
    (show _ ≤ 5 by decide)
  exact ⟨head,hrun,fun t => honce .a (by simp) t⟩

/-- With `.c` alone in group 2 and `.b` in group 0, the call moves `.c` over `.b`. -/
theorem threeReady_serves : ∃ k' g front y back, sched ⟨.system,.system,.system⟩ 5 threeReady = some k' ∧
    [((threeReady.proc .a).group + 1) % 3,((threeReady.proc .a).group + 2) % 3,(threeReady.proc .a).group % 3].find?
      (fun g => [Slot.a,.b,.c].any (inGroup threeReady g)) = some g ∧
    [Slot.b,.c] ++ [.a] = front ++ y :: back ∧ (threeReady.proc y).group = g ∧
    (∀ z ∈ front, (threeReady.proc z).group ≠ g) ∧
    OnQueue k' .USER_Q (y :: (front ++ back)) ∧ k'.rdy_head .USER_Q = some y ∧
    k'.rdy_tail .USER_Q = (y :: (front ++ back)).getLast? ∧
    ∀ last, (y :: (front ++ back)).getLast? = some last → k'.next last = none := by
  have hqueue : OnQueue threeReady .USER_Q [.a,.b,.c] := ⟨by simp [threeReady, Table.next],by simp [threeReady]⟩
  exact sched_serves ⟨.system,.system,.system⟩ hqueue (by decide) (show _ ≤ 5 by decide)

end SOI.Scheduling

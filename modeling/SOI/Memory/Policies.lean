import SOI.Memory.SwapOut

/-! # The two policies

First fit and worst fit look at the same holes, so one of them finds a hole exactly if the
other one does. Swapping out does not depend on the policy. Started in the same state, the
two loops of `alloc_mem` therefore swap out the same processes until both take a hole, both
give up or both panic.
-/
namespace SOI.Memory
open Intervals
variable {NR_PROCS NO_MEM LOW_USER clicks : ℕ} {m : Manager NR_PROCS} {xs ys pre post : List (Fin (2 * NR_PROCS))}
  {hp : Fin (2 * NR_PROCS)}

def Manager.policy (w : ℤ) (m : Manager NR_PROCS) : Manager NR_PROCS := { m with isWorstFit := w }

/-- The loop of `alloc_mem`, keeping a log of the processes it swaps out and the addresses
in the swap area that they get. -/
def allocLogged (LOW_USER clicks : ℕ) :
    ℕ → Manager NR_PROCS → List (ℕ × ℕ) × Except Stop (Option ℕ × Manager NR_PROCS)
  | 0, _ => ([],.error .loop)
  | fuel + 1, m =>
    match chooseHole m clicks with
    | .error e => ([],.error e)
    | .ok (some (prev_ptr,hp)) => ([],(biteOff m.table prev_ptr hp clicks).map fun r =>
        (some r.1,{ m with table := r.2, live := owned r.1 clicks ++ m.live }))
    | .ok none =>
      match swap_out LOW_USER m with
      | .error e => ([],.error e)
      | .ok (false,m) => ([],.ok (none,m))
      | .ok (true,m) =>
        -- `outswap` is left at the process that has been moved
        let rest := allocLogged LOW_USER clicks fuel m
        ((m.outswap,(m.mproc m.outswap).D.mem_phys) :: rest.1,rest.2)

/-- The processes that `alloc_mem` swaps out in turn, with their addresses in the swap area. -/
def swaps (LOW_USER clicks : ℕ) (m : Manager NR_PROCS) : List (ℕ × ℕ) :=
  (allocLogged LOW_USER clicks (NR_PROCS + 1) m).1

theorem allocLogged_snd (LOW_USER clicks fuel : ℕ) (m : Manager NR_PROCS) :
    (allocLogged LOW_USER clicks fuel m).2 = allocLoop LOW_USER clicks fuel m := by
  induction fuel generalizing m with
  | zero => rfl
  | succ fuel ih =>
    unfold allocLogged allocLoop
    cases chooseHole m clicks with
    | error e => rfl
    | ok r =>
      cases r with
      | some r => rfl
      | none =>
        cases swap_out LOW_USER m with
        | error e => rfl
        | ok r =>
          obtain ⟨swapped,m'⟩ := r
          cases swapped with
          | false => rfl
          | true => exact ih m'

@[simp] theorem policy_table (w : ℤ) (m : Manager NR_PROCS) : (m.policy w).table = m.table := rfl

@[simp] theorem policy_mproc (w : ℤ) (m : Manager NR_PROCS) : (m.policy w).mproc = m.mproc := rfl

theorem swapTo_policy (w : ℤ) (m : Manager NR_PROCS) (rmp : ℕ) (prev_ptr : Option (Fin (2 * NR_PROCS)))
    (hp : Fin (2 * NR_PROCS)) :
    swapTo (m.policy w) rmp prev_ptr hp = (swapTo m rmp prev_ptr hp).map (Manager.policy w) := by
  rw [swapTo_eq, swapTo_eq, policy_table, policy_mproc]
  cases biteOff m.table prev_ptr hp (m.mproc rmp).size with
  | error e => rfl
  | ok r =>
    simp only [Except.bind]
    cases free_mem r.2 (m.mproc rmp).D.mem_phys (m.mproc rmp).size <;> rfl

/-- A process is moved, or the hole table is full. Joining holes keeps what holds of its memory
and of all blocks when the piece has been bitten off. -/
theorem swapTo_cases {r : ℕ} (hslots : Slots m.table (pre ++ hp :: post) ys)
    (hsize : (m.mproc r).size ≤ (m.table.block hp).len) :
    swapTo m r pre.getLast? hp = .error (.panic "Hole table full") ∨
      ∃ t xs' ys', swapTo m r pre.getLast? hp = .ok (moved m r (m.table.block hp).base t) ∧ Slots t xs' ys' ∧
        ∃ bs, JoinKeeps ((m.mproc r).range :: bs) (t.blocks xs') ∧
          ∀ b ∈ bs, b ∈ m.table.blocks (pre ++ hp :: post) ∨
            (m.table.block hp).len ≠ (m.mproc r).size ∧ b = upperRest (m.mproc r).size (m.table.block hp) := by
  obtain ⟨t₁,hbite,hbitten⟩ := biteOff_bitten hslots hsize
  obtain ⟨xs₁,ys₁,hslots₁,hold⟩ := hbitten.slots
  rw [swapTo_eq, hbite]
  rcases free_mem_ok hslots₁ (m.mproc r).D.mem_phys (m.mproc r).size with
    hpanic | ⟨t₂,xs₂,ys₂,hfree,hslots₂,hkeeps⟩
  · left
    simp only [Except.bind, hpanic, Except.map]
  · refine Or.inr ⟨t₂,xs₂,ys₂,?_,hslots₂,_,hkeeps,hold⟩
    simp only [Except.bind, hfree, Except.map]

theorem swapFrom_policy (w : ℤ) (m : Manager NR_PROCS) (fuel rmp : ℕ) :
    swapFrom LOW_USER (m.policy w) fuel rmp = (swapFrom LOW_USER m fuel rmp).map fun r => (r.1,r.2.policy w) := by
  induction fuel generalizing rmp with
  | zero => rfl
  | succ fuel ih =>
    generalize hs : (if rmp + 1 = NR_PROCS then LOW_USER else rmp + 1) = s
    rw [swapFrom_turn (m.policy w) hs, swapFrom_turn m hs]
    show (if (m.mproc s).candidate then swapHole m.table m.swap_base (m.mproc s).size else .ok none).bind _ = _
    cases (if (m.mproc s).candidate then swapHole m.table m.swap_base (m.mproc s).size else .ok none) with
    | error e => rfl
    | ok hole =>
      cases hole with
      | none =>
        show (if s ≠ m.outswap then swapFrom LOW_USER (m.policy w) fuel s else .ok (false,m.policy w)) =
          (if s ≠ m.outswap then swapFrom LOW_USER m fuel s else .ok (false,m)).map fun r => (r.1,r.2.policy w)
        split_ifs
        · exact ih s
        · rfl
      | some hole =>
        show (swapTo (m.policy w) s hole.1 hole.2).map _ = ((swapTo m s hole.1 hole.2).map _).map _
        rw [swapTo_policy]
        cases swapTo m s hole.1 hole.2 <;> rfl

theorem swap_out_policy (w : ℤ) (m : Manager NR_PROCS) :
    swap_out LOW_USER (m.policy w) = (swap_out LOW_USER m).map fun r => (r.1,r.2.policy w) :=
  swapFrom_policy w m NR_PROCS m.outswap

/-- Both runs stop for want of a slot, or both give up in the same state, or both take a hole;
`gives_up` and `takes` are what is returned then. -/
inductive Alike {α : Type} (gives_up : α) (takes : ℕ → α) :
    Except Stop (α × Manager NR_PROCS) → Except Stop (α × Manager NR_PROCS) → Prop
  | full : Alike gives_up takes (.error (.panic "Hole table full")) (.error (.panic "Hole table full"))
  | no_mem (m : Manager NR_PROCS) : Alike gives_up takes (.ok (gives_up,m.policy 0)) (.ok (gives_up,m.policy 1))
  | granted (base base' : ℕ) (m m' : Manager NR_PROCS) :
    Alike gives_up takes (.ok (takes base,m)) (.ok (takes base',m'))

theorem Alike.map {α β : Type} {gives_up : α} {takes : ℕ → α} {r r' : Except Stop (α × Manager NR_PROCS)}
    (h : Alike gives_up takes r r') (f : α → β) : Alike (f gives_up) (fun base => f (takes base))
      (r.map fun r => (f r.1,r.2)) (r'.map fun r => (f r.1,r.2)) := by
  cases h with
  | full => exact .full
  | no_mem m => exact .no_mem m
  | granted base base' m m' => exact .granted base base' m m'

theorem Alike.gives_up_iff {r r' : Except Stop (Option ℕ × Manager NR_PROCS)} (h : Alike none some r r') :
    r.map Prod.fst = .ok none ↔ r'.map Prod.fst = .ok none := by
  cases h with
  | full => exact Iff.rfl
  | no_mem m => exact Iff.rfl
  | granted base base' m m' => constructor <;> intro heq <;> cases heq

/-- The two policies find a hole together or not at all. -/
theorem chooseHole_alike (hslots : Slots m.table xs ys) (clicks : ℕ) :
    (chooseHole (m.policy 0) clicks = .ok none ∧ chooseHole (m.policy 1) clicks = .ok none) ∨
    (∃ pre hp post, xs = pre ++ hp :: post ∧ chooseHole (m.policy 0) clicks = .ok (some (pre.getLast?,hp)) ∧
        clicks ≤ (m.table.block hp).len) ∧
      ∃ pre hp post, xs = pre ++ hp :: post ∧ chooseHole (m.policy 1) clicks = .ok (some (pre.getLast?,hp)) ∧
        clicks ≤ (m.table.block hp).len := by
  rcases chooseHole_split (m := m.policy 0) hslots clicks with
    ⟨hnone₀,hall₀⟩ | ⟨pre₀,hp₀,post₀,hxs₀,hsome₀,hlow₀,hfits₀⟩
  · rcases chooseHole_split (m := m.policy 1) hslots clicks with
      ⟨hnone₁,-⟩ | ⟨pre₁,hp₁,post₁,hxs₁,hsome₁,hlow₁,hfits₁⟩
    · exact Or.inl ⟨hnone₀,hnone₁⟩
    · exact absurd hfits₁ (Nat.not_le.mpr (hall₀ hp₁ hlow₁))
  · rcases chooseHole_split (m := m.policy 1) hslots clicks with
      ⟨hnone₁,hall₁⟩ | ⟨pre₁,hp₁,post₁,hxs₁,hsome₁,hlow₁,hfits₁⟩
    · exact absurd hfits₀ (Nat.not_le.mpr (hall₁ hp₀ hlow₀))
    · exact Or.inr ⟨⟨pre₀,hp₀,post₀,hxs₀,hsome₀,hfits₀⟩,pre₁,hp₁,post₁,hxs₁,hsome₁,hfits₁⟩

theorem allocLogged_granted {fuel : ℕ} (hslots : Slots m.table (pre ++ hp :: post) ys)
    (hchoose : chooseHole m clicks = .ok (some (pre.getLast?,hp))) (hfits : clicks ≤ (m.table.block hp).len) :
    ∃ base m', allocLogged LOW_USER clicks (fuel + 1) m = ([],.ok (some base,m')) := by
  obtain ⟨t,hbite,-⟩ := biteOff_bitten hslots hfits
  refine ⟨(m.table.block hp).base,
    { m with table := t, live := owned (m.table.block hp).base clicks ++ m.live },?_⟩
  simp only [allocLogged, hchoose, hbite, Except.map]

theorem allocLogged_alike {fuel : ℕ} (hslots : Slots m.table xs ys) (hge : LOW_USER ≤ m.outswap)
    (hlt : m.outswap < NR_PROCS) (hfuel : swappables LOW_USER m < fuel) :
    (allocLogged LOW_USER clicks fuel (m.policy 0)).1 = (allocLogged LOW_USER clicks fuel (m.policy 1)).1 ∧
      Alike none some (allocLogged LOW_USER clicks fuel (m.policy 0)).2
        (allocLogged LOW_USER clicks fuel (m.policy 1)).2 := by
  induction fuel generalizing m xs ys with
  | zero => omega
  | succ fuel ih =>
    rcases chooseHole_alike hslots clicks with ⟨hnone₀,hnone₁⟩ | ⟨⟨pre₀,hp₀,post₀,rfl,hsome₀,hfits₀⟩,
      pre₁,hp₁,post₁,hxs₁,hsome₁,hfits₁⟩
    · rcases swap_out_cases hslots hge hlt with hout | ⟨s,pre,hp,post,hswap,rfl,-,hsize,hout⟩
      · simp only [allocLogged, hnone₀, hnone₁, swap_out_policy, hout, Except.map]
        exact ⟨trivial,Alike.no_mem m⟩
      rcases swapTo_cases hslots hsize with hpanic | ⟨t,xs',ys',hto,hslots',-⟩
      · simp only [allocLogged, hnone₀, hnone₁, swap_out_policy, hout, hpanic, Except.map]
        exact ⟨trivial,Alike.full⟩
      · have hfewer : swappables LOW_USER (moved m s (m.table.block hp).base t) < swappables LOW_USER m :=
          swappables_moved hswap
        obtain ⟨hswaps,halike⟩ := @ih (moved m s (m.table.block hp).base t) xs' ys' hslots' hswap.1 hswap.2.1 (by omega)
        simp only [allocLogged, hnone₀, hnone₁, swap_out_policy, hout, hto, Except.map]
        exact ⟨congrArg (List.cons _) hswaps,halike⟩
    · obtain ⟨base₀,m₀,hrun₀⟩ := @allocLogged_granted _ LOW_USER clicks (m.policy 0) _ _ _ _ fuel hslots hsome₀ hfits₀
      rw [hxs₁] at hslots
      obtain ⟨base₁,m₁,hrun₁⟩ := @allocLogged_granted _ LOW_USER clicks (m.policy 1) _ _ _ _ fuel hslots hsome₁ hfits₁
      rw [hrun₀, hrun₁]
      exact ⟨rfl,Alike.granted base₀ base₁ m₀ m₁⟩

/-- A block below the swap area does not start at `NO_MEM`, and one of the area ends before the
last click. -/
def Clear (NO_MEM swap_base : ℕ) (b : Block) : Prop :=
  if b.base < swap_base then b.base ≠ NO_MEM else b.stop < 2 ^ 32

instance (NO_MEM swap_base : ℕ) (b : Block) : Decidable (Clear NO_MEM swap_base b) :=
  inferInstanceAs (Decidable (if b.base < swap_base then b.base ≠ NO_MEM else b.stop < 2 ^ 32))

/-- The holes are clear of `NO_MEM`, and the memory that swapping out may free is. -/
structure Avoids (NO_MEM LOW_USER : ℕ) (m : Manager NR_PROCS) : Prop where
  holes : ∀ b ∈ m.table.holes, Clear NO_MEM m.swap_base b
  processes : ∀ r, Swappable LOW_USER m r → Clear NO_MEM m.swap_base (m.mproc r).range

theorem clear_joins (NO_MEM swap_base : ℕ) : Joins (Clear NO_MEM swap_base) := by
  intro b c hb hc htouch
  unfold Clear at *
  by_cases hlow : b.base < swap_base
  · rwa [if_pos hlow] at hb ⊢
  · rw [if_neg hlow] at hb ⊢
    have hstop : b.base + b.len = c.base := by
      rwa [wrap, Nat.mod_eq_of_lt (show b.base + b.len < 2 ^ 32 from hb)] at htouch
    rw [if_neg (by omega)] at hc
    unfold Block.stop wrap at *
    dsimp only
    omega

theorem Clear.upperRest {swap_base : ℕ} {b : Block} (h : Clear NO_MEM swap_base b) (harea : swap_base ≤ b.base)
    (hclicks : clicks < b.len) : Clear NO_MEM swap_base (upperRest clicks b) := by
  rw [Clear, if_neg (Nat.not_lt.mpr harea)] at h
  rw [upperRest_eq hclicks h.le, Clear, if_neg (by dsimp only; omega)]
  unfold Block.stop at *
  dsimp only
  omega

/-- Swapping a process out keeps clear of `NO_MEM`. -/
theorem Avoids.moved (h : Avoids NO_MEM LOW_USER m) {r new_base : ℕ} {t : Table (2 * NR_PROCS)} {bs : List Block}
    (hr : Swappable LOW_USER m r) (hslots : Slots m.table (pre ++ hp :: post) ys)
    (harea : m.swap_base ≤ (m.table.block hp).base) (hsize : (m.mproc r).size ≤ (m.table.block hp).len)
    (hslots' : Slots t xs ys') (hkeeps : JoinKeeps ((m.mproc r).range :: bs) (t.blocks xs))
    (hbs : ∀ b ∈ bs, b ∈ m.table.blocks (pre ++ hp :: post) ∨
      (m.table.block hp).len ≠ (m.mproc r).size ∧ b = SOI.Memory.upperRest (m.mproc r).size (m.table.block hp)) :
    Avoids NO_MEM LOW_USER (moved m r new_base t) := by
  have hclear : ∀ b ∈ m.table.blocks (pre ++ hp :: post), Clear NO_MEM m.swap_base b := by
    have hholes := h.holes
    rwa [hslots.holes_eq] at hholes
  refine ⟨?_,fun s hs => ?_⟩
  · show ∀ b ∈ t.holes, Clear NO_MEM m.swap_base b
    rw [hslots'.holes_eq]
    refine hkeeps _ (clear_joins NO_MEM m.swap_base) (List.forall_mem_cons.mpr ⟨h.processes r hr,fun b hb => ?_⟩)
    rcases hbs b hb with hb | ⟨hne,rfl⟩
    · exact hclear b hb
    · exact (hclear _ (List.mem_map_of_mem (by simp))).upperRest harea (by omega)
  · obtain ⟨hsr,hs⟩ := swappable_moved.mp hs
    have hsame : (SOI.Memory.moved m r new_base t).mproc s = m.mproc s := Function.update_of_ne hsr _ _
    rw [hsame]
    exact h.processes s hs

/-- Every block that the loop takes starts somewhere else. -/
theorem Avoids.base_ne {fuel base : ℕ} {m' : Manager NR_PROCS} (h : Avoids NO_MEM LOW_USER m)
    (hslots : Slots m.table xs ys) (hge : LOW_USER ≤ m.outswap) (hlt : m.outswap < NR_PROCS)
    (hloop : allocLoop LOW_USER clicks fuel m = .ok (some base,m')) : base ≠ NO_MEM := by
  induction fuel generalizing m xs ys with
  | zero => cases hloop
  | succ fuel ih =>
    rcases chooseHole_split hslots clicks with ⟨hnone,-⟩ | ⟨pre,hp,post,rfl,hsome,hlow,hfits⟩
    · rw [allocLoop_swap hnone] at hloop
      rcases swap_out_cases hslots hge hlt with hout | ⟨s,pre,hp,post,hswap,rfl,harea,hsize,hout⟩
      · rw [hout] at hloop
        cases hloop
      rw [hout] at hloop
      rcases swapTo_cases hslots hsize with hpanic | ⟨t,xs',ys',hto,hslots',bs,hkeeps,hbs⟩
      · rw [hpanic] at hloop
        cases hloop
      · rw [hto] at hloop
        exact ih (h.moved hswap hslots harea hsize hslots' hkeeps hbs) hslots' hswap.1 hswap.2.1 hloop
    · obtain ⟨t,hbite,-⟩ := biteOff_bitten hslots hfits
      rw [allocLoop_take hsome, hbite] at hloop
      cases hloop
      have hclear := h.holes (m.table.block hp) (by rw [hslots.holes_eq]; exact List.mem_map_of_mem (by simp))
      rwa [Clear, if_pos (base_lt_of_mem_low hlow)] at hclear

/-- `alloc_mem` then returns `NO_MEM` only if it gives up. -/
theorem Avoids.no_mem_iff (h : Avoids NO_MEM LOW_USER m) (hslots : Slots m.table xs ys) (hge : LOW_USER ≤ m.outswap)
    (hlt : m.outswap < NR_PROCS) (clicks : ℕ) :
    (alloc_mem NO_MEM LOW_USER clicks m).map Prod.fst = .ok NO_MEM ↔
      (allocLoop LOW_USER clicks (NR_PROCS + 1) m).map Prod.fst = .ok none := by
  rw [alloc_mem]
  cases hloop : allocLoop LOW_USER clicks (NR_PROCS + 1) m with
  | error e => constructor <;> intro heq <;> cases heq
  | ok r =>
    obtain ⟨base | base,m'⟩ := r
    · exact iff_of_true rfl rfl
    · constructor
      · intro heq
        exact absurd (Except.ok.inj heq) (h.base_ne hslots hge hlt hloop)
      · intro heq
        cases heq

/-- From any state whose hole list is in order, `alloc_mem` returns, or panics for want of a
slot, under either policy, and it does the same under both: the same processes are swapped
out to the same addresses, and both runs give up or neither does. With no block at `NO_MEM`
they return that number together. -/
theorem policies_alike (hslots : Slots m.table xs ys) (hge : LOW_USER ≤ m.outswap) (hlt : m.outswap < NR_PROCS)
    (NO_MEM clicks : ℕ) :
    swaps LOW_USER clicks (m.policy 0) = swaps LOW_USER clicks (m.policy 1) ∧
    Alike NO_MEM id (alloc_mem NO_MEM LOW_USER clicks (m.policy 0)) (alloc_mem NO_MEM LOW_USER clicks (m.policy 1)) ∧
    (Avoids NO_MEM LOW_USER m →
      ((alloc_mem NO_MEM LOW_USER clicks (m.policy 0)).map Prod.fst = .ok NO_MEM ↔
        (alloc_mem NO_MEM LOW_USER clicks (m.policy 1)).map Prod.fst = .ok NO_MEM)) := by
  have hfuel : swappables LOW_USER m < NR_PROCS + 1 := Nat.lt_succ_of_le (swappables_le LOW_USER m)
  obtain ⟨hswaps,halike⟩ := @allocLogged_alike _ LOW_USER clicks _ _ _ _ hslots hge hlt hfuel
  rw [allocLogged_snd, allocLogged_snd] at halike
  refine ⟨hswaps,halike.map fun base => base.getD NO_MEM,fun havoids => ?_⟩
  have havoids' : ∀ w, Avoids NO_MEM LOW_USER (m.policy w) := fun w => ⟨havoids.holes,havoids.processes⟩
  rw [(havoids' 0).no_mem_iff hslots hge hlt, (havoids' 1).no_mem_iff hslots hge hlt]
  exact halike.gives_up_iff

def twoHoles (w : ℤ) : Manager 2 where
  table := (freeAll (emptyTable 4) [⟨0,4⟩,⟨10,9⟩]).toOption.getD (emptyTable 4)
  swap_base := 20
  mproc _ := {}
  outswap := 1
  isWorstFit := w

-- the base of the first hole is taken for a failure
example : (alloc_mem 0 1 4 (twoHoles 0)).map Prod.fst = .ok 0 ∧ (alloc_mem 0 1 4 (twoHoles 1)).map Prod.fst = .ok 10 :=
  ⟨rfl,rfl⟩

/-- One click is free and four clicks of swap area, and a process of three clicks is paused. -/
def onePaused : Manager 2 where
  table := (freeAll (emptyTable 4) [⟨4,1⟩,⟨6,4⟩]).toOption.getD (emptyTable 4)
  swap_base := 6
  mproc r := if r = 1 then
    { PAUSED := true, D := { mem_phys := 1 }, S := { mem_vir := 2, mem_len := 1 } } else {}
  outswap := 1

theorem onePaused_slots : Slots onePaused.table [0,1] [2,3] :=
  ⟨⟨rfl,rfl,rfl⟩,⟨rfl,rfl,rfl⟩,by decide,by decide⟩

theorem onePaused_avoids : Avoids 0 1 onePaused := by
  refine ⟨by decide,?_⟩
  rintro r ⟨hge,hlt,-⟩
  obtain rfl : r = 1 := by omega
  decide

theorem onePaused_alike : swaps 1 4 (onePaused.policy 0) = [(1,6)] ∧
    swaps 1 4 (onePaused.policy 0) = swaps 1 4 (onePaused.policy 1) ∧
    Alike 0 id (alloc_mem 0 1 4 (onePaused.policy 0)) (alloc_mem 0 1 4 (onePaused.policy 1)) ∧
    ((alloc_mem 0 1 4 (onePaused.policy 0)).map Prod.fst = .ok 0 ↔
      (alloc_mem 0 1 4 (onePaused.policy 1)).map Prod.fst = .ok 0) := by
  have hge : 1 ≤ onePaused.outswap := by decide
  have hlt : onePaused.outswap < 2 := by decide
  obtain ⟨hswaps,halike,hno_mem⟩ := policies_alike onePaused_slots hge hlt 0 4
  exact ⟨by decide,hswaps,halike,hno_mem onePaused_avoids⟩

end SOI.Memory

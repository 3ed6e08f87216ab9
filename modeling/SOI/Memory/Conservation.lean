import SOI.Memory.SwapOut
import SOI.Library.Runs

/-! # Runs of the memory manager

From chunks of memory freed one after the other, any calls of the allocator keep
every click either free or in one live block, and the list of holes sorted and
coalesced.
-/
namespace SOI.Memory
open Linked Intervals Runs
variable {N NR_PROCS NO_MEM LOW_USER : ℕ} {all : Finset ℕ} {m m' : Manager NR_PROCS} {t t' : Table N}
  {chunks swap bs : List Block} {swap_base : ℕ}

theorem emptyTable_seg (N k : ℕ) (hk : k ≤ N) :
    Seg some (emptyTable N).next (if h : k < N then some ⟨k,h⟩ else none) ((List.finRange N).drop k) none := by
  induction hn : N - k generalizing k with
  | zero =>
    have hdrop : (List.finRange N).drop k = [] := List.drop_of_length_le (by rw [List.length_finRange]; omega)
    rw [hdrop, dif_neg (by omega)]
    exact rfl
  | succ n ih =>
    have hlt : k < N := by omega
    rw [List.drop_eq_getElem_cons (by rw [List.length_finRange]; exact hlt), dif_pos hlt]
    refine ⟨by simp,?_⟩
    have hrest := ih (k + 1) hlt (by omega)
    simpa [Table.next, emptyTable] using hrest

theorem emptyTable_slots (N : ℕ) : Slots (emptyTable N) [] (List.finRange N) := by
  refine ⟨rfl,?_,List.nodup_finRange N,List.mem_finRange⟩
  simpa [emptyTable] using emptyTable_seg N 0 (Nat.zero_le N)

theorem emptyTable_holes (N : ℕ) : (emptyTable N).holes = [] := (emptyTable_slots N).holes_eq

theorem emptyTable_tidy (N : ℕ) : Tidy (emptyTable N) :=
  ⟨⟨_,_,emptyTable_slots N⟩,by rw [emptyTable_holes]; exact maximal_nil⟩

theorem Tidy.freeAll (h : Tidy t) (hf : Frame all swap_base) (hpos : ∀ b ∈ bs, 0 < b.len)
    (hd : bs.Pairwise fun x y => Disjoint x.points y.points) (hsub : cover t.holes ∪ cover bs ⊆ all)
    (hnew : Disjoint (cover t.holes) (cover bs)) (hfree : freeAll t bs = .ok t') :
    Tidy t' ∧ cover t'.holes = cover t.holes ∪ cover bs := by
  induction bs generalizing t with
  | nil =>
    cases hfree
    exact ⟨h,by simp [cover]⟩
  | cons b bs ih =>
    rw [cover] at hsub hnew
    obtain ⟨hholes,hbsub⟩ := Finset.union_subset_iff.mp hsub
    obtain ⟨hb,hbs⟩ := Finset.union_subset_iff.mp hbsub
    obtain ⟨hbt,hbst⟩ := Finset.disjoint_union_right.mp hnew
    obtain ⟨hbd,hbsd⟩ := List.pairwise_cons.mp hd
    have hbpos := hpos b (by simp)
    have hstops : ∀ c ∈ t.holes, c.stop ≤ 2 ^ 32 := fun c hc =>
      hf.stop_le (h.maximal.pos c hc) ((points_subset hc).trans hholes)
    rcases h.free_mem hbpos (hf.stop_le hbpos hb) hstops hbt.symm (hf.outside hholes hb) with
      hpanic | ⟨t₁,hone,hcover,htidy⟩
    · rw [SOI.Memory.freeAll, hpanic] at hfree
      cases hfree
    · have hrest : SOI.Memory.freeAll t₁ bs = .ok t' := by
        rw [SOI.Memory.freeAll, hone] at hfree
        exact hfree
      obtain ⟨htidy',hcover'⟩ := ih htidy (fun x hx => hpos x (by simp [hx])) hbsd
        (by rw [hcover]; exact Finset.union_subset (Finset.union_subset hb hholes) hbs)
        (by rw [hcover, Finset.disjoint_union_left]; exact ⟨disjoint_cover.mpr hbd,hbst⟩) hrest
      refine ⟨htidy',?_⟩
      rw [hcover', hcover, cover, Finset.union_comm b.points, Finset.union_assoc]

/-- The state after chunks of memory and, if there is one, the swap area have been
freed, swapping being possible from the first click above a gap. -/
structure Start (LOW_USER : ℕ) (chunks swap : List Block) (m : Manager NR_PROCS) : Prop where
  built : freeAll (emptyTable (2 * NR_PROCS)) (chunks ++ swap) = .ok m.table
  apart : chunks.Pairwise fun x y => Disjoint x.points y.points
  pos : ∀ b ∈ chunks ++ swap, 0 < b.len
  below : ∀ b ∈ chunks, b.stop < m.swap_base
  swap_area : swap = [] ∨ ∃ size, swap = [⟨m.swap_base,size⟩] ∧ m.swap_base + size ≤ 2 ^ 32
  swap_pos : 0 < m.swap_base
  swap_lt : m.swap_base < 2 ^ 32
  outswap : LOW_USER ≤ m.outswap ∧ m.outswap < NR_PROCS
  live : m.live = []

theorem Start.apart_all (h : Start LOW_USER chunks swap m) :
    (chunks ++ swap).Pairwise fun x y => Disjoint x.points y.points := by
  rcases h.swap_area with rfl | ⟨size,rfl,-⟩
  · rw [List.append_nil]
    exact h.apart
  · refine List.pairwise_append.mpr ⟨h.apart,List.pairwise_singleton _ _,fun x hx y hy => ?_⟩
    obtain rfl := List.mem_singleton.mp hy
    refine Finset.disjoint_left.mpr fun n hn hn' => ?_
    have hbelow := h.below x hx
    have hbase : m.swap_base ≤ n := (mem_points.mp hn').1
    have hstop := (mem_points.mp hn).2
    omega

theorem Start.frame (h : Start LOW_USER chunks swap m) : Frame (cover (chunks ++ swap)) m.swap_base := by
  have hlt := h.swap_lt
  have hplace : ∀ b ∈ chunks ++ swap, b.stop < m.swap_base ∨ m.swap_base ≤ b.base ∧ b.stop ≤ 2 ^ 32 := by
    intro b hb
    rcases List.mem_append.mp hb with hb | hb
    · exact Or.inl (h.below b hb)
    · rcases h.swap_area with rfl | ⟨size,rfl,hsize⟩
      · cases hb
      · obtain rfl := List.mem_singleton.mp hb
        exact Or.inr ⟨le_rfl,hsize⟩
  refine ⟨fun n hn => ?_,h.swap_pos,hlt.le,fun hn => ?_⟩
  · obtain ⟨b,hb,hbn⟩ := mem_cover.mp hn
    have := hplace b hb
    omega
  · obtain ⟨b,hb,hbn⟩ := mem_cover.mp hn
    have := hplace b hb
    have := h.swap_pos
    omega

theorem Start.good (h : Start LOW_USER chunks swap m) : Good LOW_USER (cover (chunks ++ swap)) m := by
  have hempty := emptyTable_holes (2 * NR_PROCS)
  obtain ⟨htidy,hcover⟩ := (emptyTable_tidy (2 * NR_PROCS)).freeAll h.frame h.pos h.apart_all
    (by simp [hempty, cover]) (by simp [hempty, cover]) h.built
  refine ⟨h.frame,⟨htidy,?_⟩,h.outswap.1,h.outswap.2⟩
  rw [h.live, hcover, hempty]
  refine ⟨?_,?_,List.Pairwise.nil,by simp⟩ <;> simp [cover]

theorem freeAll_append (t : Table N) (bs cs : List Block) :
    freeAll t (bs ++ cs) = (freeAll t bs).bind fun t => freeAll t cs := by
  induction bs generalizing t with
  | nil => rfl
  | cons b bs ih =>
    rw [List.cons_append, freeAll, freeAll]
    cases free_mem t b.base b.len with
    | error e => rfl
    | ok t₁ => exact ih t₁

theorem le_foldl_max {α : Type} (f : α → ℕ) (xs : List α) (n : ℕ) :
    n ≤ xs.foldl (fun top x => max top (f x)) n ∧ ∀ x ∈ xs, f x ≤ xs.foldl (fun top x => max top (f x)) n := by
  induction xs generalizing n with
  | nil => simp
  | cons x xs ih =>
    obtain ⟨hn,hxs⟩ := ih (max n (f x))
    refine ⟨(le_max_left _ _).trans hn,fun y hy => ?_⟩
    rcases List.mem_cons.mp hy with rfl | hy
    · exact (le_max_right _ _).trans hn
    · exact hxs y hy

theorem foldl_max_lt {α : Type} {f : α → ℕ} {xs : List α} {n k : ℕ} (hn : n < k) (hxs : ∀ x ∈ xs, f x < k) :
    xs.foldl (fun top x => max top (f x)) n < k := by
  induction xs generalizing n with
  | nil => exact hn
  | cons x xs ih => exact ih (max_lt hn (hxs x (by simp))) fun y hy => hxs y (by simp [hy])

/-- `mem_init` sets up such a state if memory ends before the last two clicks. -/
theorem start_of_mem_init {replies : List Block} {mproc : ℕ → MProc} (hlow : LOW_USER < NR_PROCS)
    (hd : (replies.takeWhile fun b => b.len ≠ 0).Pairwise fun x y => Disjoint x.points y.points)
    (htop : ∀ b ∈ replies, b.stop + 1 < 2 ^ 32) (hinit : mem_init replies mproc LOW_USER = .ok m) :
    Start LOW_USER (replies.takeWhile fun b => b.len ≠ 0) [] m := by
  have htaken : ∀ b ∈ replies.takeWhile fun b => b.len ≠ 0, 0 < b.len ∧ b.stop + 1 < 2 ^ 32 := by
    intro b hb
    have hlen := List.all_eq_true.mp List.all_takeWhile b hb
    exact ⟨Nat.pos_of_ne_zero (by simpa using hlen),htop b ((List.takeWhile_prefix _).subset hb)⟩
  simp only [mem_init] at hinit
  generalize replies.takeWhile (fun b => decide (b.len ≠ 0)) = chunks at *
  have hle := le_foldl_max (fun b : Block => wrap b.stop) chunks 0
  have hlt : chunks.foldl (fun top b => max top (wrap b.stop)) 0 < 2 ^ 32 - 1 := by
    refine foldl_max_lt (by decide) fun b hb => ?_
    have hstop := (htaken b hb).2
    rw [wrap, Nat.mod_eq_of_lt (by omega)]
    omega
  have hbase : wrap (chunks.foldl (fun top b => max top (wrap b.stop)) 0 + 1) =
      chunks.foldl (fun top b => max top (wrap b.stop)) 0 + 1 := Nat.mod_eq_of_lt (by omega)
  cases hfree : freeAll (emptyTable (2 * NR_PROCS)) chunks with
  | error e =>
    rw [hfree] at hinit
    cases hinit
  | ok t =>
    rw [hfree] at hinit
    cases hinit
    refine ⟨by rw [List.append_nil, hfree],hd,fun b hb => ?_,fun b hb => ?_,Or.inl rfl,?_,?_,⟨le_rfl,hlow⟩,rfl⟩
    · rw [List.append_nil] at hb
      exact (htaken b hb).1
    · have hb' := hle.2 b hb
      have hstop := (htaken b hb).2
      simp only at hb' ⊢
      rw [hbase]
      rw [wrap, Nat.mod_eq_of_lt (by omega)] at hb'
      omega
    · simp only
      rw [hbase]
      omega
    · simp only
      rw [hbase]
      omega

theorem Start.swap_on (h : Start LOW_USER chunks [] m) (hmax : m.swap_maxsize = wrapSub 0 m.swap_base)
    {size : ℕ} (hsize : 0 < size) (hon : swap_on size m = .ok m') :
    Start LOW_USER chunks [⟨m.swap_base,min size m.swap_maxsize⟩] m' := by
  have hpos := h.swap_pos
  have hlt := h.swap_lt
  have hroom : m.swap_maxsize = 2 ^ 32 - m.swap_base := by
    rw [hmax, wrapSub, wrap, wrap]
    omega
  have hbuilt := h.built
  rw [List.append_nil] at hbuilt
  cases hfree : free_mem m.table m.swap_base (min size m.swap_maxsize) with
  | error e =>
    rw [SOI.Memory.swap_on, hfree] at hon
    cases hon
  | ok t =>
    rw [SOI.Memory.swap_on, hfree] at hon
    cases hon
    refine ⟨?_,h.apart,fun b hb => ?_,h.below,Or.inr ⟨_,rfl,?_⟩,hpos,hlt,h.outswap,h.live⟩
    · rw [freeAll_append, hbuilt]
      simp [Except.bind, freeAll, hfree]
    · rcases List.mem_append.mp hb with hb | hb
      · exact h.pos b (List.mem_append_left _ hb)
      · obtain rfl := List.mem_singleton.mp hb
        simp only
        omega
    · simp only
      omega

/-- The calls of the memory manager; `procs` is anything that it does to its table
of processes in between. -/
inductive Call
  | worstFit (w : ℤ)
  | alloc (clicks : ℕ)
  | free (b : Block)
  | procs (mproc : ℕ → MProc)

def step (NO_MEM LOW_USER : ℕ) (m : Manager NR_PROCS) : Call → Option (Manager NR_PROCS)
  | .worstFit w => some (do_worst_fit w m)
  | .alloc clicks => (alloc_mem NO_MEM LOW_USER clicks m).toOption.map Prod.snd
  | .free b => (free_mem m.table b.base b.len).toOption.map fun t =>
      { m with table := t, live := m.live.erase b }
  | .procs mproc => some { m with mproc := mproc }

/-- Processes own their memory when something is allocated, and only live blocks are freed. -/
def Allowed (LOW_USER : ℕ) (m : Manager NR_PROCS) : Call → Prop
  | .alloc _ => Owns LOW_USER m
  | .free b => b ∈ m.live ∨ b.len = 0
  | _ => True

instance (m : Manager NR_PROCS) : Decidable (Owns LOW_USER m) :=
  decidable_of_iff
    ((∀ r < NR_PROCS, Swappable LOW_USER m r → (m.mproc r).size ≠ 0 → (m.mproc r).range ∈ m.live) ∧
      ∀ r < NR_PROCS, ∀ s < NR_PROCS, Swappable LOW_USER m r ∧ Swappable LOW_USER m s ∧
        (m.mproc r).size ≠ 0 ∧ (m.mproc r).range = (m.mproc s).range → r = s)
    ⟨fun h => ⟨fun r hr => h.1 r hr.2.1 hr,fun r s hr hs hsize heq => h.2 r hr.2.1 s hs.2.1 ⟨hr,hs,hsize,heq⟩⟩,
      fun h => ⟨fun r _ => h.live r,fun r _ s _ hrs => h.apart r s hrs.1 hrs.2.1 hrs.2.2.1 hrs.2.2.2⟩⟩

instance (m : Manager NR_PROCS) : (call : Call) → Decidable (Allowed LOW_USER m call)
  | .worstFit _ => isTrue trivial
  | .alloc _ => inferInstanceAs (Decidable (Owns LOW_USER m))
  | .free _ => inferInstanceAs (Decidable (_ ∨ _))
  | .procs _ => isTrue trivial

theorem Good.do_worst_fit (h : Good LOW_USER all m) (w : ℤ) : Good LOW_USER all (do_worst_fit w m) := by
  have hsame : (SOI.Memory.do_worst_fit w m).table = m.table ∧ (SOI.Memory.do_worst_fit w m).live = m.live ∧
      (SOI.Memory.do_worst_fit w m).swap_base = m.swap_base ∧
      (SOI.Memory.do_worst_fit w m).outswap = m.outswap := by
    unfold SOI.Memory.do_worst_fit
    split_ifs <;> exact ⟨rfl,rfl,rfl,rfl⟩
  obtain ⟨htable,hlive,hbase,hout⟩ := hsame
  refine ⟨?_,?_,?_,?_⟩
  · rw [hbase]
    exact h.frame
  · rw [htable, hlive]
    exact h.healthy
  · rw [hout]
    exact h.outswap_ge
  · rw [hout]
    exact h.outswap_lt

/-- `free_mem` adds exactly its block. -/
theorem Good.free_mem (h : Good LOW_USER all m) {b : Block} {t : Table (2 * NR_PROCS)}
    (hb : b ∈ m.live ∨ b.len = 0)
    (hfree : free_mem m.table b.base b.len = .ok t) :
    cover t.holes = b.points ∪ cover m.table.holes ∧ Healthy all t (m.live.erase b) := by
  rcases hb with hb | hzero
  · rcases h.healthy.free_mem h.frame hb with hpanic | ⟨t',hok,hcover,hhealthy⟩
    · rw [hpanic] at hfree
      cases hfree
    · rw [hok] at hfree
      cases hfree
      exact ⟨hcover,hhealthy⟩
  · rw [SOI.Memory.free_mem, if_pos hzero] at hfree
    cases hfree
    have hout : b ∉ m.live := fun hmem => (h.healthy.shared.pos b hmem).ne' hzero
    rw [List.erase_of_not_mem hout]
    refine ⟨?_,h.healthy⟩
    have hpoints : b.points = ∅ := by simp [Block.points, Block.stop, hzero]
    rw [hpoints, Finset.empty_union]

theorem Good.step (h : Good LOW_USER all m) {call : Call} (hallowed : Allowed LOW_USER m call)
    (hstep : step NO_MEM LOW_USER m call = some m') : Good LOW_USER all m' := by
  cases call with
  | worstFit w =>
    cases hstep
    exact h.do_worst_fit w
  | procs mproc =>
    cases hstep
    exact ⟨h.frame,h.healthy,h.outswap_ge,h.outswap_lt⟩
  | alloc clicks =>
    rcases h.alloc_mem hallowed NO_MEM clicks with hpanic | ⟨m₁,hswapped,hnone | ⟨base,m₂,hsome,hgood,-⟩⟩
    · rw [SOI.Memory.step, hpanic] at hstep
      cases hstep
    · rw [SOI.Memory.step, hnone] at hstep
      cases hstep
      exact (hswapped.good h hallowed).1
    · rw [SOI.Memory.step, hsome] at hstep
      cases hstep
      exact hgood
  | free b =>
    cases hfree : SOI.Memory.free_mem m.table b.base b.len with
    | error e =>
      rw [SOI.Memory.step, hfree] at hstep
      cases hstep
    | ok t =>
      rw [SOI.Memory.step, hfree] at hstep
      cases hstep
      exact ⟨h.frame,(h.free_mem hallowed hfree).2,h.outswap_ge,h.outswap_lt⟩

/-- The list from `hole_head` ends, its holes are the maximal free intervals in
ascending order, no free click is in a live block, and no click has got lost. -/
structure Conserved (total : ℕ) (m : Manager NR_PROCS) : Prop where
  listed : ∃ xs, Seg some m.table.next m.table.hole_head xs none ∧ m.table.holes = m.table.blocks xs
  maximal : AreMaximal m.table.holes
  unshared : Disjoint (cover m.table.holes) (cover m.live)
  total : (cover m.table.holes).card + (m.live.map Block.len).sum = total

theorem Good.conserved (h : Good LOW_USER all m) : Conserved all.card m := by
  obtain ⟨xs,ys,hslots⟩ := h.healthy.slots
  exact ⟨⟨xs,hslots.holes,hslots.holes_eq⟩,h.healthy.maximal,h.healthy.shared.disjoint,h.healthy.shared.card⟩

/-- After every run, and after every process swapped out on the way to an allocation,
the hole list is the sorted list of maximal free intervals and clicks are conserved;
`alloc_mem` takes exactly its result away from the free clicks and `free_mem` gives
exactly its block back, unless they panic. -/
theorem holes_conserved {calls : List Call} (hstart : Start LOW_USER chunks swap m)
    (hallowed : Meets (step NO_MEM LOW_USER) (Allowed LOW_USER) m calls)
    (hrun : run (step NO_MEM LOW_USER) m calls = some m') :
    Conserved ((chunks ++ swap).map Block.len).sum m' ∧
    (Owns LOW_USER m' →
      (∀ m₁, SwappedOut LOW_USER m' m₁ → Conserved ((chunks ++ swap).map Block.len).sum m₁) ∧
      ∀ clicks, alloc_mem NO_MEM LOW_USER clicks m' = .error (.panic "Hole table full") ∨
        ∃ m₁, SwappedOut LOW_USER m' m₁ ∧ (alloc_mem NO_MEM LOW_USER clicks m' = .ok (NO_MEM,m₁) ∨
          ∃ base m₂, alloc_mem NO_MEM LOW_USER clicks m' = .ok (base,m₂) ∧ Takes m₁ base clicks m₂)) ∧
    ∀ b ∈ m'.live, free_mem m'.table b.base b.len = .error (.panic "Hole table full") ∨
      ∃ t, free_mem m'.table b.base b.len = .ok t ∧ cover t.holes = b.points ∪ cover m'.table.holes := by
  have hsteps : ∀ (s : Manager NR_PROCS) k u, Good LOW_USER (cover (chunks ++ swap)) s →
      Allowed LOW_USER s k → step NO_MEM LOW_USER s k = some u → Good LOW_USER (cover (chunks ++ swap)) u :=
    fun s k u hs hk hsu => hs.step hk hsu
  have hgood := hallowed.invariant hsteps hstart.good hrun
  have htotal : (cover (chunks ++ swap)).card = ((chunks ++ swap).map Block.len).sum :=
    card_cover hstart.apart_all
  rw [← htotal]
  refine ⟨hgood.conserved,fun hown => ⟨fun m₁ hm₁ => (hm₁.good hgood hown).1.conserved,fun clicks => ?_⟩,?_⟩
  · rcases hgood.alloc_mem hown NO_MEM clicks with hpanic | ⟨m₁,hm₁,hnone | ⟨base,m₂,hsome,-,htakes⟩⟩
    · exact Or.inl hpanic
    · exact Or.inr ⟨m₁,hm₁,Or.inl hnone⟩
    · exact Or.inr ⟨m₁,hm₁,Or.inr ⟨base,m₂,hsome,htakes⟩⟩
  · intro b hb
    rcases hgood.healthy.free_mem hgood.frame hb with hpanic | ⟨t,hfree,hcover,-⟩
    · exact Or.inl hpanic
    · exact Or.inr ⟨t,hfree,hcover⟩

/-- Four clicks of memory and four of swap area, with one process to come. -/
def fourClicks : Manager 2 where
  table := (freeAll (emptyTable 4) [⟨0,4⟩,⟨5,4⟩]).toOption.getD (emptyTable 4)
  swap_base := 5
  mproc _ := {}
  outswap := 1

def pausedAt (mem_phys : ℕ) : MProc :=
  { PAUSED := true, D := { mem_phys := mem_phys }, S := { mem_vir := 2, mem_len := 1 } }

/-- Making room for the second block swaps the first one out. -/
theorem swapped_out_conserved : ∃ m', run (step 0 1) fourClicks
    [.alloc 3,.procs fun r => if r = 1 then pausedAt 0 else {},.worstFit 1,.alloc 4] = some m' ∧
      m'.live = [⟨0,4⟩,⟨5,3⟩] ∧ Conserved 8 m' := by
  have hstart : Start 1 [⟨0,4⟩] [⟨5,4⟩] fourClicks :=
    ⟨rfl,by decide,by decide,by decide,Or.inr ⟨4,rfl,by decide⟩,by decide,by decide,by decide,rfl⟩
  have hruns : ((run (step 0 1) fourClicks [.alloc 3,.procs fun r => if r = 1 then pausedAt 0 else {},
    .worstFit 1,.alloc 4]).any fun m' => m'.live = [⟨0,4⟩,⟨5,3⟩]) = true := by decide
  obtain ⟨m',hrun,hlive⟩ := (Option.any_eq_true _ _).mp hruns
  exact ⟨m',hrun,of_decide_eq_true hlive,(holes_conserved hstart (by decide) hrun).1⟩

end SOI.Memory

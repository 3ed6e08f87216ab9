import SOI.Memory.SwapImages

/-! # Turning swapping on and off

`swap_on` adds the swap area to the clicks that exist. When nobody is swapped out the area
is one hole, and `swap_off` takes it away; but it follows a null pointer where that
leaves no hole at all.
-/
namespace SOI.Memory
open Linked Intervals Copies
variable {α : Type} {N NR_PROCS LOW_USER size n swap_base : ℕ} {all : Finset ℕ} {w w' : Swapper NR_PROCS α}
  {t : Table N} {xs ys : List (Fin N)} {low : List Block}

theorem Core.below_area (h : Core LOW_USER all 0 w) (hn : n ∈ all) : n < w.manager.swap_base := by
  by_contra hle
  have hlt := (h.area n (not_lt.mp hle)).mp hn
  omega

theorem Core.extend (h : Core LOW_USER all 0 w) {k : ℕ} {t : Table (2 * NR_PROCS)} (hk : 0 < k)
    (hroom : w.manager.swap_base + k ≤ 2 ^ 32) (hfree : SOI.Memory.free_mem w.manager.table w.manager.swap_base k = .ok t) :
    Core LOW_USER ((⟨w.manager.swap_base,k⟩ : Block).points ∪ all) k
      { w with manager := { w.manager with table := t }, swap_fd := true } := by
  have hshared := h.good.healthy.shared
  have hpos := h.good.frame.swap_pos
  have hholes : cover w.manager.table.holes ⊆ all := by
    rw [← hshared.union]
    exact Finset.subset_union_left
  have hlive : cover w.manager.live ⊆ all := by
    rw [← hshared.union]
    exact Finset.subset_union_right
  have hnew : Disjoint (⟨w.manager.swap_base,k⟩ : Block).points all :=
    Finset.disjoint_left.mpr fun i hi hin => (h.below_area hin).not_ge (mem_points.mp hi).1
  have hgap : w.manager.swap_base - 1 ∉ (⟨w.manager.swap_base,k⟩ : Block).points := fun hin => by
    have hbase : w.manager.swap_base ≤ w.manager.swap_base - 1 := (mem_points.mp hin).1
    omega
  rcases @Tidy.free_mem _ _ h.good.healthy.toTidy ⟨_,k⟩ hk hroom (fun c hc => h.good.healthy.stop_le h.good.frame hc)
    (hnew.mono_right hholes) ⟨w.manager.swap_base - 1,by omega,fun hin => h.good.frame.gap (hholes hin),hgap⟩ with
    hpanic | ⟨t',hfree',hcover,htidy⟩
  · rw [hpanic] at hfree
    cases hfree
  · obtain rfl : t' = t := Except.ok.inj (hfree'.symm.trans hfree)
    have hshared' : Shared ((⟨w.manager.swap_base,k⟩ : Block).points ∪ all) (cover t'.holes) w.manager.live := by
      refine ⟨?_,?_,hshared.apart,hshared.pos⟩
      · rw [hcover, Finset.disjoint_union_left]
        exact ⟨hnew.mono_right hlive,hshared.disjoint⟩
      · rw [hcover, Finset.union_assoc, hshared.union]
    refine ⟨⟨⟨fun i hi => ?_,hpos,h.good.frame.swap_lt,fun hin => ?_⟩,⟨htidy,hshared'⟩,h.good.outswap_ge,h.good.outswap_lt⟩,
      fun i hi => ?_,fun hoff => Bool.noConfusion hoff,h.maxsize,{ h.housed with },h.queued.list,h.queued.onswap⟩
    · rcases Finset.mem_union.mp hi with hi | hi
      · exact (mem_points.mp hi).2.trans_le hroom
      · exact h.good.frame.addressable i hi
    · exact (Finset.mem_union.mp hin).elim hgap h.good.frame.gap
    · rw [Finset.mem_union, mem_points]
      exact ⟨fun hor => hor.elim And.right fun hin => absurd hi (h.below_area hin).not_ge,fun hlt => Or.inl ⟨hi,hlt⟩⟩

theorem Core.swap_on (h : Core LOW_USER all size w) (hrun : w.swap_on n = .ok w') :
    ∃ all' size', Core LOW_USER all' size' w' ∧ SameImages w w' := by
  rw [Swapper.swap_on] at hrun
  split at hrun
  · cases hrun
    exact ⟨all,size,h,rfl,fun _ _ => rfl⟩
  · next hfd =>
    obtain rfl := h.off (by simpa using hfd)
    generalize hm : min n w.manager.swap_maxsize = k at hrun
    have hroom : w.manager.swap_base + k ≤ 2 ^ 32 := by
      have hmax := h.maxsize
      have hlt := h.good.frame.swap_lt
      omega
    rw [SOI.Memory.swap_on, hm] at hrun
    rcases Nat.eq_zero_or_pos k with hk | hk
    · rw [SOI.Memory.free_mem, if_pos hk] at hrun
      cases hrun
      exact ⟨all,0,⟨h.good,h.area,fun hoff => Bool.noConfusion hoff,h.maxsize,h.housed,h.queued.list,h.queued.onswap⟩,
        rfl,fun _ _ => rfl⟩
    · cases hfree : SOI.Memory.free_mem w.manager.table w.manager.swap_base k with
      | error e =>
        rw [hfree] at hrun
        cases hrun
      | ok t =>
        rw [hfree] at hrun
        cases hrun
        exact ⟨_,k,h.extend hk hroom hfree,rfl,fun _ _ => rfl⟩

theorem dropHoles_low {b e prev : Option (Fin N)} (h : Seg some t.next b xs e) (hlow : ∀ s ∈ xs, (t.block s).base < swap_base)
    (fuel : ℕ) : dropHoles swap_base (xs.length + fuel) t prev b = dropHoles swap_base fuel t (xs.getLast?.or prev) e := by
  induction xs generalizing b prev with
  | nil =>
    obtain rfl : b = e := h
    rw [List.length_nil, Nat.zero_add]
    rfl
  | cons s xs ih =>
    obtain ⟨rfl,hrest⟩ := h
    have hlt : ¬ swap_base ≤ (t.hole s).h_base := not_le.mpr (hlow s (by simp))
    rw [List.length_cons, Nat.add_right_comm, dropHoles, if_neg hlt, ih hrest fun z hz => hlow z (by simp [hz]),
      getLast?_cons_or]

/-- With one hole at most in the area: that hole goes, if there is another one. -/
theorem dropHoles_spec {fuel : ℕ} (h : Slots t xs ys) (hlow : ∀ b ∈ low, b.base < swap_base)
    (hblocks : t.blocks xs = low ++ if size = 0 then [] else [⟨swap_base,size⟩]) (hfuel : 2 * (N + 1) ≤ fuel) :
    if size = 0 ∨ low ≠ [] then
      ∃ t' xs' ys', dropHoles swap_base fuel t none t.hole_head = .ok t' ∧ Slots t' xs' ys' ∧ t'.blocks xs' = low
    else dropHoles swap_base fuel t none t.hole_head = .error .nil := by
  have hlen := h.length_le
  by_cases hsize : size = 0
  · rw [if_pos hsize, List.append_nil] at hblocks
    rw [if_pos (Or.inl hsize)]
    obtain ⟨k,rfl⟩ : ∃ k, fuel = xs.length + (k + 1) := ⟨fuel - xs.length - 1,by omega⟩
    refine ⟨t,xs,ys,?_,h,hblocks⟩
    rw [dropHoles_low h.holes fun s hs => hlow _ (by rw [← hblocks]; exact List.mem_map_of_mem hs)]
    rfl
  · rw [if_neg hsize] at hblocks
    obtain ⟨pre,post,rfl,hpre,hpost⟩ := List.map_eq_append_iff.mp hblocks
    obtain ⟨hp,rfl,hhp⟩ := List.map_eq_singleton_iff.mp hpost
    have hbelow : ∀ s ∈ pre, (t.block s).base < swap_base := fun s hs =>
      hlow _ (by rw [← hpre]; exact List.mem_map_of_mem hs)
    have hhigh : swap_base ≤ (t.hole hp).h_base := (congrArg Block.base hhp).ge
    obtain ⟨t',hdel,hslots',hblock⟩ := del_slot_slots h
    rw [List.append_nil] at hslots'
    have hbelow' : ∀ s ∈ pre, (t'.block s).base < swap_base := fun s hs => by
      rw [hblock]
      exact hbelow s hs
    obtain ⟨m,hseg,rfl,-⟩ := seg_append.mp h.holes
    obtain ⟨k,rfl⟩ : ∃ k, fuel = pre.length + (pre.length + 1 + k + 1) := by
      rw [List.length_append, List.length_singleton] at hlen
      exact ⟨fuel - 2 * pre.length - 2,by omega⟩
    rw [dropHoles_low hseg hbelow, dropHoles, if_pos hhigh, Option.or_none, hdel, Except.bind]
    cases pre with
    | nil =>
      have hnone : low = [] := hpre.symm
      have hhead : t'.hole_head = none := hslots'.holes
      rw [if_neg (by simp [hsize, hnone]), hhead]
    | cons s pre =>
      have hsome : low ≠ [] := by
        rintro rfl
        cases hpre
      obtain ⟨hhead,hrest⟩ := hslots'.holes
      rw [if_pos (Or.inr hsome), hhead]
      refine ⟨t',_,_,?_,hslots',by rw [← hpre]; exact blocks_congr fun _ _ => by rw [hblock]⟩
      dsimp only
      rw [show (s :: pre).length + 1 + k = pre.length + (k + 1 + 1) by rw [List.length_cons]; omega,
        dropHoles_low hrest fun z hz => hbelow' z (by simp [hz])]
      rfl

def Swapper.Resident (LOW_USER : ℕ) (w : Swapper NR_PROCS α) : Prop :=
  ∀ r ∈ users LOW_USER NR_PROCS, (w.manager.mproc r).ONSWAP = false

instance (w : Swapper NR_PROCS α) : Decidable (w.Resident LOW_USER) :=
  inferInstanceAs (Decidable (∀ r ∈ users LOW_USER NR_PROCS, (w.manager.mproc r).ONSWAP = false))

theorem Core.live_below (h : Core LOW_USER all size w) (hres : w.Resident LOW_USER) :
    ∀ i ∈ cover w.manager.live, i < w.manager.swap_base := by
  intro i hi
  obtain ⟨b,hb,hbi⟩ := mem_cover.mp hi
  by_cases hbelow : b.base < w.manager.swap_base
  · exact hbi.2.trans (h.good.live_stop_lt hb hbelow)
  · obtain ⟨r,hr,rfl⟩ := h.housed.swapped b hb (not_lt.mp hbelow)
    have hon := (h.housed.onswap r hr).mpr (not_lt.mp hbelow)
    obtain ⟨hle,hlt⟩ := h.housed.user r hr
    have hoff := hres r (List.mem_filter.mpr ⟨List.mem_range.mpr hlt,decide_eq_true hle⟩)
    exact Bool.noConfusion (hoff.symm.trans hon)

/-- When nobody is swapped out, the swap area is the last hole. -/
theorem Core.holes_above (h : Core LOW_USER all size w) (hres : w.Resident LOW_USER) :
    ∃ low, (∀ b ∈ low, b.base < w.manager.swap_base) ∧
      w.manager.table.holes = low ++ if size = 0 then [] else [⟨w.manager.swap_base,size⟩] := by
  refine h.good.healthy.maximal.above (fun i hi => ?_) fun b hb hbelow =>
    (h.good.healthy.stop_lt h.good.frame hb hbelow).le
  rw [← h.area i hi, ← h.good.healthy.shared.union, Finset.mem_union]
  exact ⟨Or.inl,fun hor => hor.resolve_right fun hin => (h.live_below hres i hin).not_ge hi⟩

theorem Core.shrink (h : Core LOW_USER all size w) (hres : w.Resident LOW_USER) {t : Table (2 * NR_PROCS)}
    {xs ys : List (Fin (2 * NR_PROCS))} (hslots : Slots t xs ys) (hlow : ∀ b ∈ low, b.base < w.manager.swap_base)
    (hholes : w.manager.table.holes = low ++ if size = 0 then [] else [⟨w.manager.swap_base,size⟩])
    (hblocks : t.blocks xs = low) : Core LOW_USER (all.filter fun i => i < w.manager.swap_base) 0
      { w with manager := { w.manager with table := t }, swap_fd := false } := by
  have hshared := h.good.healthy.shared
  have hmax := h.good.healthy.maximal
  have hsub : ∀ b ∈ low, b ∈ w.manager.table.holes := fun b hb => by
    rw [hholes]
    exact List.mem_append_left _ hb
  have hcover : ∀ i, i ∈ cover low ↔ i ∈ cover w.manager.table.holes ∧ i < w.manager.swap_base := by
    intro i
    constructor
    · intro hi
      obtain ⟨b,hb,hbi⟩ := mem_cover.mp hi
      exact ⟨mem_cover.mpr ⟨b,hsub b hb,hbi⟩,hbi.2.trans (h.good.healthy.stop_lt h.good.frame (hsub b hb) (hlow b hb))⟩
    · rintro ⟨hi,hbelow⟩
      rw [hholes, cover_append, Finset.mem_union] at hi
      refine hi.resolve_right fun hin => ?_
      obtain ⟨b,hb,hbi⟩ := mem_cover.mp hin
      split at hb
      · cases hb
      · rw [List.mem_singleton.mp hb] at hbi
        exact hbelow.not_ge hbi.1
  have htable : t.holes = low := hslots.holes_eq.trans hblocks
  have hshared' : Shared (all.filter fun i => i < w.manager.swap_base) (cover t.holes) w.manager.live := by
    rw [htable]
    refine ⟨Finset.disjoint_left.mpr fun i hi => ?_,?_,hshared.apart,hshared.pos⟩
    · exact Finset.disjoint_left.mp hshared.disjoint ((hcover i).mp hi).1
    · ext i
      rw [Finset.mem_union, hcover, Finset.mem_filter, ← hshared.union, Finset.mem_union]
      constructor
      · rintro (⟨hi,hbelow⟩ | hi)
        · exact ⟨Or.inl hi,hbelow⟩
        · exact ⟨Or.inr hi,h.live_below hres i hi⟩
      · rintro ⟨hi | hi,hbelow⟩
        · exact Or.inl ⟨hi,hbelow⟩
        · exact Or.inr hi
  refine ⟨⟨⟨fun i hi => h.good.frame.addressable i (Finset.mem_filter.mp hi).1,h.good.frame.swap_pos,h.good.frame.swap_lt,
    fun hin => h.good.frame.gap (Finset.mem_filter.mp hin).1⟩,⟨⟨⟨xs,ys,hslots⟩,?_⟩,hshared'⟩,h.good.outswap_ge,
    h.good.outswap_lt⟩,fun i hi => ?_,fun _ => rfl,h.maxsize,{ h.housed with },h.queued.list,h.queued.onswap⟩
  · rw [htable]
    rw [hholes] at hmax
    exact ⟨(List.pairwise_append.mp hmax.gaps).1,fun b hb => hmax.pos b (List.mem_append_left _ hb)⟩
  · rw [Finset.mem_filter]
    exact iff_of_false (fun hin => hin.2.not_ge hi) (Nat.not_lt.mpr hi)

/-- `swap_off` when nobody is swapped out: it needs a hole below the area, unless there
are no holes at all. -/
theorem Core.swap_off_spec (h : Core LOW_USER all size w) (hfd : w.swap_fd = true) (hres : w.Resident LOW_USER) :
    if w.manager.table.holes = [] ∨ ∃ b ∈ w.manager.table.holes, b.base < w.manager.swap_base then
      ∃ t, w.swap_off LOW_USER = .ok { w with manager := { w.manager with table := t }, swap_fd := false } ∧
        t.holes = w.manager.table.holes.filter (fun b => b.base < w.manager.swap_base) ∧
        Core LOW_USER (all.filter fun i => i < w.manager.swap_base) 0
          { w with manager := { w.manager with table := t }, swap_fd := false }
    else w.swap_off LOW_USER = .error .nil := by
  obtain ⟨low,hlow,hholes⟩ := h.holes_above hres
  obtain ⟨xs,ys,hslots⟩ := h.good.healthy.slots
  have hany : ((users LOW_USER NR_PROCS).any fun rmp => (w.manager.mproc rmp).ONSWAP) = false :=
    List.any_eq_false.mpr fun r hr => by rw [hres r hr]; exact Bool.false_ne_true
  have hfilter : w.manager.table.holes.filter (fun b => decide (b.base < w.manager.swap_base)) = low := by
    rw [hholes, List.filter_append, List.filter_eq_self.mpr fun b hb => decide_eq_true (hlow b hb)]
    split <;> simp
  have hcond : (w.manager.table.holes = [] ∨ ∃ b ∈ w.manager.table.holes, b.base < w.manager.swap_base) ↔
      size = 0 ∨ low ≠ [] := by
    rw [hholes]
    cases low with
    | nil =>
      by_cases hsize : size = 0 <;> simp [hsize]
    | cons b low =>
      refine iff_of_true (Or.inr ⟨b,by simp,hlow b (by simp)⟩) (Or.inr (List.cons_ne_nil b low))
  have hspec := dropHoles_spec hslots hlow (by rw [← hslots.holes_eq]; exact hholes)
    (show 2 * (2 * NR_PROCS + 1) ≤ (2 * NR_PROCS + 1) * (2 * NR_PROCS + 1) by
      have hpos := h.good.outswap_lt
      exact Nat.mul_le_mul_right _ (by omega))
  have hoff : w.swap_off LOW_USER = (dropHoles w.manager.swap_base ((2 * NR_PROCS + 1) * (2 * NR_PROCS + 1)) w.manager.table none
      w.manager.table.hole_head).map fun t => { w with manager := { w.manager with table := t }, swap_fd := false } := by
    rw [Swapper.swap_off, hfd, hany]
    rfl
  by_cases hok : size = 0 ∨ low ≠ []
  · rw [if_pos hok] at hspec
    rw [if_pos (hcond.mpr hok), hoff, hfilter]
    obtain ⟨t,xs',ys',hdrop,hslots',hblocks⟩ := hspec
    rw [hdrop]
    exact ⟨t,rfl,hslots'.holes_eq.trans hblocks,h.shrink hres hslots' hlow hholes hblocks⟩
  · rw [if_neg hok] at hspec
    rw [if_neg fun hyes => hok (hcond.mp hyes), hoff, hspec]
    rfl

theorem Core.swap_off (h : Core LOW_USER all size w) (hrun : w.swap_off LOW_USER = .ok w') :
    ∃ all' size', Core LOW_USER all' size' w' ∧ SameImages w w' := by
  by_cases hfd : w.swap_fd = true
  · by_cases hres : w.Resident LOW_USER
    · have hspec := h.swap_off_spec hfd hres
      split at hspec
      · obtain ⟨t,hoff,-,hcore⟩ := hspec
        rw [hoff] at hrun
        cases hrun
        exact ⟨_,_,hcore,rfl,fun _ _ => rfl⟩
      · rw [hspec] at hrun
        cases hrun
    · have hany : ((users LOW_USER NR_PROCS).any fun rmp => (w.manager.mproc rmp).ONSWAP) = true := by
        by_contra hno
        exact hres fun r hr => by simpa using List.any_eq_false.mp (by simpa using hno) r hr
      rw [Swapper.swap_off, hfd, hany] at hrun
      cases hrun
      exact ⟨all,size,h,rfl,fun _ _ => rfl⟩
  · rw [Bool.not_eq_true] at hfd
    rw [Swapper.swap_off, hfd] at hrun
    cases hrun
    exact ⟨all,size,h,rfl,fun _ _ => rfl⟩

end SOI.Memory

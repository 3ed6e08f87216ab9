import SOI.Memory.HoleTable

/-! # Every click is free or belongs to one live block

The clicks of memory and of the swap area are shared out between the holes and
the blocks handed out. Allocating, freeing and swapping move clicks from one side
to the other; the holes remain the maximal free intervals.
-/
namespace SOI.Memory
open Linked Intervals
variable {N : ℕ} {t t' : Table N} {xs ys : List (Fin N)}

/-- The set is shared out between a free part and live blocks apart from each other. -/
structure Shared (all free : Finset ℕ) (live : List Block) : Prop where
  disjoint : Disjoint free (cover live)
  union : free ∪ cover live = all
  apart : live.Pairwise fun x y => Disjoint x.points y.points
  pos : ∀ b ∈ live, 0 < b.len

section Shared
variable {all free : Finset ℕ} {live : List Block} {b : Block} {base clicks : ℕ}

theorem cover_owned (base clicks : ℕ) : cover (owned base clicks) = Finset.Ico base (base + clicks) := by
  rw [owned]
  split
  · next h => simp [cover, h]
  · simp [cover, Block.points, Block.stop]

theorem Shared.take (h : Shared all free live) (hsub : Finset.Ico base (base + clicks) ⊆ free) :
    Shared all (free \ Finset.Ico base (base + clicks)) (owned base clicks ++ live) := by
  have hout : Disjoint (Finset.Ico base (base + clicks)) (cover live) := h.disjoint.mono_left hsub
  refine ⟨?_,?_,?_,?_⟩
  · rw [cover_append, cover_owned, Finset.disjoint_union_right]
    exact ⟨Finset.sdiff_disjoint,h.disjoint.mono_left Finset.sdiff_subset⟩
  · rw [cover_append, cover_owned, ← Finset.union_assoc, Finset.sdiff_union_of_subset hsub, h.union]
  · refine List.pairwise_append.mpr ⟨?_,h.apart,fun x hx y hy => ?_⟩
    · rw [owned]
      split <;> simp
    · have hxs := points_subset hx
      rw [cover_owned] at hxs
      exact hout.mono hxs (points_subset hy)
  · intro x hx
    rcases List.mem_append.mp hx with hx | hx
    · rw [owned] at hx
      split at hx
      · cases hx
      · rw [List.mem_singleton.mp hx]
        exact Nat.pos_of_ne_zero ‹_›
    · exact h.pos x hx

theorem Shared.give (h : Shared all free live) (hb : b ∈ live) :
    Shared all (b.points ∪ free) (live.erase b) := by
  have hperm := List.perm_cons_erase hb
  have hcover : cover live = b.points ∪ cover (live.erase b) := cover_perm hperm
  have hapart := (List.pairwise_cons.mp ((hperm.pairwise_iff fun h => h.symm).mp h.apart))
  refine ⟨?_,?_,hapart.2,fun x hx => h.pos x (List.mem_of_mem_erase hx)⟩
  · rw [Finset.disjoint_union_left]
    refine ⟨disjoint_cover.mpr hapart.1,h.disjoint.mono_right ?_⟩
    rw [hcover]
    exact Finset.subset_union_right
  · rw [Finset.union_right_comm, ← hcover, Finset.union_comm, h.union]

/-- The free clicks and the clicks of the live blocks add up to the same number. -/
theorem Shared.card (h : Shared all free live) : free.card + (live.map Block.len).sum = all.card := by
  rw [← card_cover h.apart, ← Finset.card_union_of_disjoint h.disjoint, h.union]

theorem Shared.notMem (h : Shared all free live) (hsub : b.points ⊆ free) : b ∉ live := by
  intro hb
  have hpos := h.pos b hb
  have hmem : b.base ∈ b.points := by
    rw [mem_points]
    exact ⟨le_rfl,by unfold Block.stop; omega⟩
  exact Finset.disjoint_left.mp h.disjoint (hsub hmem) (points_subset hb hmem)

end Shared

def Table.walk (t : Table N) : ℕ → Option (Fin N) → List (Fin N)
  | 0, _ => []
  | _ + 1, none => []
  | n + 1, some s => s :: t.walk n (t.next s)

def Table.holes (t : Table N) : List Block := t.blocks (t.walk N t.hole_head)

theorem walk_eq {n : ℕ} {b : Option (Fin N)} (h : Seg some t.next b xs none) (hn : xs.length ≤ n) :
    t.walk n b = xs := by
  induction n generalizing b xs with
  | zero =>
    cases xs with
    | nil => rfl
    | cons x xs => simp at hn
  | succ n ih =>
    cases xs with
    | nil =>
      obtain rfl : b = none := h
      rfl
    | cons x xs =>
      obtain ⟨rfl,hrest⟩ := h
      rw [Table.walk, ih hrest (by simpa using hn)]

theorem Slots.holes_eq (h : Slots t xs ys) : t.holes = t.blocks xs := by
  rw [Table.holes, walk_eq h.holes (Nat.le_of_lt_succ h.length_le)]

/-- Every slot is on one of the two lists, and the holes are maximal intervals. -/
structure Tidy (t : Table N) : Prop where
  slots : ∃ xs ys, Slots t xs ys
  maximal : AreMaximal t.holes

/-- What holds of the hole table while `all` is shared out. -/
structure Healthy (all : Finset ℕ) (t : Table N) (live : List Block) : Prop extends Tidy t where
  shared : Shared all (cover t.holes) live

/-- Freeing a missing block adds it to the holes, unless the hole table is full. -/
theorem Tidy.free_mem (h : Tidy t) {b : Block} (hpos : 0 < b.len) (hb : b.stop ≤ 2 ^ 32)
    (hstops : ∀ c ∈ t.holes, c.stop ≤ 2 ^ 32) (hd : Disjoint b.points (cover t.holes))
    (hgap : ∃ n < 2 ^ 32, n ∉ cover t.holes ∧ n ∉ b.points) :
    free_mem t b.base b.len = .error (.panic "Hole table full") ∨
      ∃ t', free_mem t b.base b.len = .ok t' ∧ cover t'.holes = b.points ∪ cover t.holes ∧ Tidy t' := by
  obtain ⟨xs,ys,hslots⟩ := h.slots
  cases ys with
  | nil => exact Or.inl (free_mem_full hslots hpos)
  | cons f ys =>
    right
    have hmax := h.maximal
    have hd' := hd
    rw [hslots.holes_eq] at hd hgap hmax hstops
    obtain ⟨t',xs',ys',hfree,hslots',hblocks⟩ := free_mem_slots hslots hmax hstops hpos hb hd hgap
    have hholes : t'.holes = add b t.holes := by rw [hslots'.holes_eq, hblocks, hslots.holes_eq]
    refine ⟨t',hfree,by rw [hholes, cover_add],⟨xs',ys',hslots'⟩,?_⟩
    rw [hholes]
    exact h.maximal.add hpos hd'

/-- The clicks that exist: they are addressable, and the one below the swap area
is not among them. -/
structure Frame (all : Finset ℕ) (swap_base : ℕ) : Prop where
  addressable : ∀ n ∈ all, n < 2 ^ 32
  swap_pos : 0 < swap_base
  swap_lt : swap_base ≤ 2 ^ 32
  gap : swap_base - 1 ∉ all

variable {all : Finset ℕ} {live : List Block} {swap_base base clicks : ℕ}

theorem Frame.stop_le (hf : Frame all swap_base) {b : Block} (hpos : 0 < b.len) (hb : b.points ⊆ all) :
    b.stop ≤ 2 ^ 32 := by
  have hlast : b.stop - 1 ∈ b.points := by
    rw [mem_points]
    unfold Block.stop
    omega
  have hlt := hf.addressable _ (hb hlast)
  unfold Block.stop at *
  omega

theorem Frame.outside (hf : Frame all swap_base) {s u : Finset ℕ} (hs : s ⊆ all) (hu : u ⊆ all) :
    ∃ n < 2 ^ 32, n ∉ s ∧ n ∉ u := by
  have hpos := hf.swap_pos
  have hlt := hf.swap_lt
  exact ⟨swap_base - 1,by omega,fun hin => hf.gap (hs hin),fun hin => hf.gap (hu hin)⟩

theorem Healthy.stop_le (h : Healthy all t live) (hf : Frame all swap_base) {b : Block} (hb : b ∈ t.holes) :
    b.stop ≤ 2 ^ 32 := by
  refine hf.stop_le (h.maximal.pos b hb) ?_
  rw [← h.shared.union]
  exact (points_subset hb).trans Finset.subset_union_left

theorem Healthy.stop_lt (h : Healthy all t live) (hf : Frame all swap_base) {b : Block} (hb : b ∈ t.holes)
    (hbelow : b.base < swap_base) : b.stop < swap_base := by
  by_contra hlt
  refine hf.gap ?_
  rw [← h.shared.union, Finset.mem_union]
  refine Or.inl (points_subset hb (mem_points.mpr ?_))
  have hpos := h.maximal.pos b hb
  unfold Block.stop at *
  omega

/-- Biting clicks off a hole hands them out. -/
theorem Healthy.biteOff (h : Healthy all t live) (hf : Frame all swap_base) {pre post : List (Fin N)}
    {hp : Fin N} (hslots : Slots t (pre ++ hp :: post) ys) (hclicks : clicks ≤ (t.block hp).len) :
    ∃ t', biteOff t pre.getLast? hp clicks = .ok ((t.block hp).base,t') ∧
      Finset.Ico (t.block hp).base ((t.block hp).base + clicks) ⊆ cover t.holes ∧
      cover t'.holes = cover t.holes \ Finset.Ico (t.block hp).base ((t.block hp).base + clicks) ∧
      Healthy all t' (owned (t.block hp).base clicks ++ live) := by
  have hholes : t.holes = t.blocks pre ++ t.block hp :: t.blocks post := by
    rw [hslots.holes_eq]
    simp [Table.blocks]
  have hmem : t.block hp ∈ t.holes := by simp [hholes]
  obtain ⟨t',xs',ys',hbite,hslots',hblocks⟩ := biteOff_slots hslots hclicks (h.stop_le hf hmem)
  have hmax := h.maximal
  rw [hholes] at hmax
  have hsub : Finset.Ico (t.block hp).base ((t.block hp).base + clicks) ⊆ cover t.holes := by
    refine Finset.Subset.trans ?_ (points_subset hmem)
    exact Finset.Ico_subset_Ico_right (by unfold Block.stop; omega)
  have hcover : cover t'.holes = cover t.holes \ Finset.Ico (t.block hp).base ((t.block hp).base + clicks) := by
    rw [hslots'.holes_eq, hblocks, hholes]
    exact cover_bite_middle hmax hclicks
  refine ⟨t',hbite,hsub,hcover,⟨⟨xs',ys',hslots'⟩,?_⟩,?_⟩
  · rw [hslots'.holes_eq, hblocks]
    exact hmax.bite hclicks
  · rw [hcover]
    exact h.shared.take hsub

/-- Freeing a live block takes it back, unless the hole table is full. -/
theorem Healthy.free_mem (h : Healthy all t live) (hf : Frame all swap_base) {b : Block} (hb : b ∈ live) :
    free_mem t b.base b.len = .error (.panic "Hole table full") ∨
      ∃ t', free_mem t b.base b.len = .ok t' ∧ cover t'.holes = b.points ∪ cover t.holes ∧
        Healthy all t' (live.erase b) := by
  have hpos := h.shared.pos b hb
  have hsub : b.points ⊆ all := by
    rw [← h.shared.union]
    exact (points_subset hb).trans Finset.subset_union_right
  have hholes : cover t.holes ⊆ all := by
    rw [← h.shared.union]
    exact Finset.subset_union_left
  have hd : Disjoint b.points (cover t.holes) := (h.shared.disjoint.mono_right (points_subset hb)).symm
  rcases h.toTidy.free_mem hpos (hf.stop_le hpos hsub) (fun c hc => h.stop_le hf hc) hd
    (hf.outside hholes hsub) with hpanic | ⟨t',hfree,hcover,htidy⟩
  · exact Or.inl hpanic
  · refine Or.inr ⟨t',hfree,hcover,htidy,?_⟩
    rw [hcover]
    exact h.shared.give hb

end SOI.Memory

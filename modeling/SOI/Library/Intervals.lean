import Mathlib.Tactic
import Mathlib.Order.Interval.Finset.Nat
import Mathlib.Data.Finset.Card
import Mathlib.Data.List.Pairwise

/-! # Sorted lists of maximal intervals

A finite set of numbers is kept as a sorted list of blocks between which there is
always a gap. Blocks are bitten off from below and added with coalescing.
-/
namespace SOI.Intervals

structure Block where
  base : ℕ
  len : ℕ
  deriving DecidableEq, Repr

def Block.stop (b : Block) : ℕ := b.base + b.len

def Block.points (b : Block) : Finset ℕ := Finset.Ico b.base b.stop

@[simp] theorem mem_points {b : Block} {n : ℕ} : n ∈ b.points ↔ b.base ≤ n ∧ n < b.stop := by
  simp [Block.points]

def cover : List Block → Finset ℕ
  | [] => ∅
  | b :: bs => b.points ∪ cover bs

/-- The blocks are the maximal intervals of the set they cover, in ascending order. -/
structure AreMaximal (bs : List Block) : Prop where
  gaps : bs.Pairwise fun x y => x.stop < y.base
  pos : ∀ b ∈ bs, 0 < b.len

variable {b x : Block} {bs xs ys : List Block} {n : ℕ}

theorem mem_cover : n ∈ cover bs ↔ ∃ b ∈ bs, b.base ≤ n ∧ n < b.stop := by
  induction bs with
  | nil => simp [cover]
  | cons b bs ih => simp [cover, ih]

@[simp] theorem cover_append : cover (xs ++ ys) = cover xs ∪ cover ys := by
  ext n
  simp [mem_cover, or_and_right, exists_or]

theorem cover_perm (h : xs.Perm ys) : cover xs = cover ys := by
  ext n
  simp [mem_cover, h.mem_iff]

theorem points_subset (h : b ∈ bs) : b.points ⊆ cover bs :=
  fun _ hn => mem_cover.mpr ⟨b,h,mem_points.mp hn⟩

theorem disjoint_cover {s : Finset ℕ} : Disjoint s (cover bs) ↔ ∀ x ∈ bs, Disjoint s x.points := by
  induction bs with
  | nil => simp [cover]
  | cons b bs ih => simp [cover, Finset.disjoint_union_right, ih]

theorem stop_le_base (hx : 0 < x.len) (hd : Disjoint b.points x.points)
    (hle : b.base ≤ x.base) : b.stop ≤ x.base := by
  by_contra hlt
  have hb' : x.base ∈ b.points := mem_points.mpr ⟨hle,by omega⟩
  have hx' : x.base ∈ x.points := mem_points.mpr ⟨le_rfl,by unfold Block.stop; omega⟩
  exact Finset.disjoint_left.mp hd hb' hx'

theorem maximal_nil : AreMaximal [] := ⟨List.Pairwise.nil,by simp⟩

theorem maximal_cons : AreMaximal (b :: bs) ↔ 0 < b.len ∧ (∀ x ∈ bs, b.stop < x.base) ∧ AreMaximal bs := by
  constructor
  · rintro ⟨hgaps,hpos⟩
    obtain ⟨hb,hbs⟩ := List.pairwise_cons.mp hgaps
    exact ⟨hpos b (by simp),hb,hbs,fun x hx => hpos x (by simp [hx])⟩
  · rintro ⟨hlen,hb,hgaps,hpos⟩
    refine ⟨List.pairwise_cons.mpr ⟨hb,hgaps⟩,fun x hx => ?_⟩
    rcases List.mem_cons.mp hx with rfl | hx
    · exact hlen
    · exact hpos x hx

theorem card_cover (h : bs.Pairwise fun x y => Disjoint x.points y.points) :
    (cover bs).card = (bs.map Block.len).sum := by
  induction bs with
  | nil => rfl
  | cons b bs ih =>
    obtain ⟨hb,hbs⟩ := List.pairwise_cons.mp h
    rw [cover, Finset.card_union_of_disjoint (disjoint_cover.mpr hb), ih hbs]
    simp [Block.points, Block.stop]

/-- Put a block in front and merge it with its successor where they touch. -/
def settle (b : Block) : List Block → List Block
  | [] => [b]
  | x :: xs => if b.stop = x.base then ⟨b.base,b.len + x.len⟩ :: xs else b :: x :: xs

/-- Insert a block at its place and merge it with its neighbours. -/
def add (b : Block) : List Block → List Block
  | [] => [b]
  | x :: xs =>
    if b.base ≤ x.base then settle b (x :: xs)
    else if x.stop = b.base then settle ⟨x.base,x.len + b.len⟩ xs
    else x :: add b xs

theorem points_join (h : b.stop = x.base) :
    (⟨b.base,b.len + x.len⟩ : Block).points = b.points ∪ x.points := by
  ext n
  simp only [Finset.mem_union, mem_points, Block.stop] at h ⊢
  omega

theorem cover_settle (b : Block) (xs : List Block) : cover (settle b xs) = b.points ∪ cover xs := by
  cases xs with
  | nil => rfl
  | cons x xs =>
    rw [settle]
    split
    · next h => rw [cover, cover, points_join h, Finset.union_assoc]
    · rfl

theorem cover_add (b : Block) (xs : List Block) : cover (add b xs) = b.points ∪ cover xs := by
  induction xs with
  | nil => rfl
  | cons x xs ih =>
    rw [add]
    split
    · exact cover_settle b (x :: xs)
    split
    · next h =>
      rw [cover_settle, points_join h, cover, ← Finset.union_assoc, Finset.union_comm b.points]
    · rw [cover, ih, cover, Finset.union_left_comm]

theorem base_mem_settle (h : x ∈ settle b xs) : x.base = b.base ∨ ∃ y ∈ xs, y.base = x.base := by
  cases xs with
  | nil => simp_all [settle]
  | cons y ys =>
    rw [settle] at h
    split at h
    · rcases List.mem_cons.mp h with rfl | h
      · exact Or.inl rfl
      · exact Or.inr ⟨x,by simp [h],rfl⟩
    · rcases List.mem_cons.mp h with rfl | h
      · exact Or.inl rfl
      · exact Or.inr ⟨x,h,rfl⟩

theorem base_mem_add (h : x ∈ add b xs) : x.base = b.base ∨ ∃ y ∈ xs, y.base = x.base := by
  induction xs with
  | nil => simp_all [add]
  | cons y ys ih =>
    rw [add] at h
    split at h
    · exact base_mem_settle h
    split at h
    · rcases base_mem_settle h with h | ⟨z,hz,hzx⟩
      · exact Or.inr ⟨y,by simp,h.symm⟩
      · exact Or.inr ⟨z,by simp [hz],hzx⟩
    · rcases List.mem_cons.mp h with rfl | h
      · exact Or.inr ⟨x,by simp,rfl⟩
      · rcases ih h with h | ⟨z,hz,hzx⟩
        · exact Or.inl h
        · exact Or.inr ⟨z,by simp [hz],hzx⟩

theorem AreMaximal.settle (h : AreMaximal xs) (hb : 0 < b.len) (hbefore : ∀ x ∈ xs, b.stop ≤ x.base) :
    AreMaximal (settle b xs) := by
  cases xs with
  | nil => exact maximal_cons.mpr ⟨hb,by simp,maximal_nil⟩
  | cons x xs =>
    obtain ⟨hx,hgap,hxs⟩ := maximal_cons.mp h
    have hbx := hbefore x (by simp)
    rw [Intervals.settle]
    split
    · next htouch =>
      refine maximal_cons.mpr ⟨by simp only; omega,fun y hy => ?_,hxs⟩
      have hy' := hgap y hy
      simp only [Block.stop] at htouch hy' ⊢
      omega
    · next htouch =>
      refine maximal_cons.mpr ⟨hb,fun y hy => ?_,h⟩
      rcases List.mem_cons.mp hy with rfl | hy
      · omega
      · have hy' := hgap y hy
        simp only [Block.stop] at *
        omega

/-- Adding a block that is still missing keeps the intervals maximal. -/
theorem AreMaximal.add (h : AreMaximal xs) (hb : 0 < b.len) (hd : Disjoint b.points (cover xs)) :
    AreMaximal (add b xs) := by
  induction xs with
  | nil => exact maximal_cons.mpr ⟨hb,by simp,maximal_nil⟩
  | cons x xs ih =>
    obtain ⟨hx,hgap,hxs⟩ := maximal_cons.mp h
    have hd' : Disjoint b.points x.points ∧ Disjoint b.points (cover xs) := by
      rwa [cover, Finset.disjoint_union_right] at hd
    have hafter : ∀ y ∈ xs, b.base ≤ y.base → b.stop ≤ y.base := fun y hy =>
      stop_le_base (hxs.pos y hy) (hd'.2.mono_right (points_subset hy))
    rw [Intervals.add]
    split
    · next hle =>
      have hbx := stop_le_base hx hd'.1 hle
      refine h.settle hb fun y hy => ?_
      rcases List.mem_cons.mp hy with rfl | hy
      · exact hbx
      · have hy' := hgap y hy
        simp only [Block.stop] at *
        omega
    · next hlt =>
      have hxb := stop_le_base hb hd'.1.symm (by omega)
      split
      · next htouch =>
        refine hxs.settle (by simp only; omega) fun y hy => ?_
        have hy' := hgap y hy
        have hby := hafter y hy (by omega)
        simp only [Block.stop] at *
        omega
      · next htouch =>
        refine maximal_cons.mpr ⟨hx,fun y hy => ?_,ih hxs hd'.2⟩
        rcases base_mem_add hy with hbase | ⟨z,hz,hzy⟩
        · omega
        · have hz' := hgap z hz
          omega

/-- What is left of a block without its first `n` numbers. -/
def bite (n : ℕ) (b : Block) : List Block := if b.len = n then [] else [⟨b.base + n,b.len - n⟩]

theorem cover_bite (h : n ≤ b.len) : cover (bite n b) = b.points \ Finset.Ico b.base (b.base + n) := by
  ext m
  rw [bite]
  split
  · simp only [cover, Finset.notMem_empty, Finset.mem_sdiff, mem_points, Finset.mem_Ico, Block.stop, false_iff]
    omega
  · simp only [cover, Finset.union_empty, Finset.mem_sdiff, mem_points, Finset.mem_Ico, Block.stop]
    omega

theorem AreMaximal.bite (h : AreMaximal (xs ++ b :: ys)) (hn : n ≤ b.len) : AreMaximal (xs ++ (bite n b ++ ys)) := by
  obtain ⟨hgaps,hpos⟩ := h
  rw [List.pairwise_append] at hgaps
  obtain ⟨hxs,hbys,hcross⟩ := hgaps
  obtain ⟨hb,hys⟩ := List.pairwise_cons.mp hbys
  rw [Intervals.bite]
  split
  · rw [List.nil_append]
    refine ⟨List.pairwise_append.mpr ⟨hxs,hys,fun x hx y hy => hcross x hx y (by simp [hy])⟩,fun y hy => ?_⟩
    refine hpos y ?_
    simp only [List.mem_append, List.mem_cons] at hy ⊢
    tauto
  · next hlen =>
    rw [List.singleton_append]
    refine ⟨List.pairwise_append.mpr ⟨hxs,List.pairwise_cons.mpr ⟨fun y hy => ?_,hys⟩,fun x hx y hy => ?_⟩,
      fun y hy => ?_⟩
    · have hy' := hb y hy
      simp only [Block.stop] at *
      omega
    · rcases List.mem_cons.mp hy with rfl | hy
      · have hx' := hcross x hx b (by simp)
        simp only
        omega
      · exact hcross x hx y (by simp [hy])
    · simp only [List.mem_append, List.mem_cons] at hy
      rcases hy with hy | rfl | hy
      · exact hpos y (by simp [hy])
      · simp only
        omega
      · exact hpos y (by simp [hy])

theorem cover_bite_middle (h : AreMaximal (xs ++ b :: ys)) (hn : n ≤ b.len) :
    cover (xs ++ (bite n b ++ ys)) = cover (xs ++ b :: ys) \ Finset.Ico b.base (b.base + n) := by
  rw [cover_append, cover_append, cover_append, cover_bite hn, cover]
  ext m
  obtain ⟨hgaps,-⟩ := h
  rw [List.pairwise_append] at hgaps
  obtain ⟨-,hbys,hcross⟩ := hgaps
  simp only [Finset.mem_union, Finset.mem_sdiff, mem_points, mem_cover, Finset.mem_Ico]
  constructor
  · rintro (⟨x,hx,hmx⟩ | hm | ⟨y,hy,hmy⟩)
    · have hxb := hcross x hx b (by simp)
      exact ⟨Or.inl ⟨x,hx,hmx⟩,by omega⟩
    · exact ⟨Or.inr (Or.inl hm.1),hm.2⟩
    · have hby := (List.pairwise_cons.mp hbys).1 y hy
      simp only [Block.stop] at *
      exact ⟨Or.inr (Or.inr ⟨y,hy,hmy⟩),by omega⟩
  · rintro ⟨hx | hb | hy,hm⟩
    · exact Or.inl hx
    · exact Or.inr (Or.inl ⟨hb,hm⟩)
    · exact Or.inr (Or.inr hy)

/-- Where the numbers covered from a bound on are the `size` next ones and no block crosses
the bound, they are the last block. -/
theorem AreMaximal.above (h : AreMaximal bs) {bound size : ℕ} (hcover : ∀ n, bound ≤ n → (n ∈ cover bs ↔ n < bound + size))
    (hstop : ∀ b ∈ bs, b.base < bound → b.stop ≤ bound) :
    ∃ low, (∀ b ∈ low, b.base < bound) ∧ bs = low ++ if size = 0 then [] else [⟨bound,size⟩] := by
  induction bs with
  | nil =>
    have hsize : size = 0 := by
      by_contra hne
      have hmem := (hcover bound le_rfl).mpr (by omega)
      simp [cover] at hmem
    exact ⟨[],by simp,by rw [if_pos hsize]; rfl⟩
  | cons b bs ih =>
    obtain ⟨hpos,hgap,hrest⟩ := maximal_cons.mp h
    by_cases hb : b.base < bound
    · have hle := hstop b (by simp) hb
      obtain ⟨low,hlow,rfl⟩ := ih hrest (fun n hn => by
        rw [← hcover n hn, cover, Finset.mem_union, mem_points]
        exact ⟨Or.inr,fun hor => hor.resolve_left fun hin => by omega⟩) fun c hc => hstop c (by simp [hc])
      refine ⟨b :: low,fun c hc => ?_,rfl⟩
      rcases List.mem_cons.mp hc with rfl | hc
      · exact hb
      · exact hlow c hc
    · have hbase := (hcover b.base (not_lt.mp hb)).mp (mem_cover.mpr ⟨b,by simp,le_rfl,by unfold Block.stop; omega⟩)
      -- the first block starts at the bound, since the bound is covered
      obtain ⟨c,hc,hcle,hclt⟩ := mem_cover.mp ((hcover bound le_rfl).mpr (by omega))
      have hfirst : b.base ≤ c.base := by
        rcases List.mem_cons.mp hc with rfl | hc
        · exact le_rfl
        · have hlt := hgap c hc
          unfold Block.stop at hlt
          omega
      have hstart : b.base = bound := by omega
      have hend : b.stop = bound + size := by
        have hlast := (hcover (b.stop - 1) (by unfold Block.stop; omega)).mp
          (mem_cover.mpr ⟨b,by simp,by unfold Block.stop; omega,by unfold Block.stop; omega⟩)
        by_contra hne
        obtain ⟨d,hd,hdle,hdlt⟩ := mem_cover.mp ((hcover b.stop (by unfold Block.stop; omega)).mpr (by omega))
        rcases List.mem_cons.mp hd with rfl | hd
        · omega
        · have hlt := hgap d hd
          omega
      have hnone : bs = [] := by
        refine List.eq_nil_iff_forall_not_mem.mpr fun d hd => ?_
        have hlt := hgap d hd
        have hdpos := hrest.pos d hd
        have hdin := (hcover d.base (by omega)).mp (mem_cover.mpr ⟨d,by simp [hd],le_rfl,by unfold Block.stop; omega⟩)
        omega
      refine ⟨[],by simp,?_⟩
      rw [if_neg (by omega), hnone, List.nil_append]
      refine congrArg (fun c => [c]) ?_
      have hlen : b.len = size := by
        unfold Block.stop at hend
        omega
      rw [← hstart, ← hlen]

end SOI.Intervals

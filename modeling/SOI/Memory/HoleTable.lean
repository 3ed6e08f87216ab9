import SOI.Memory.Alloc

/-! # The hole table as a list of blocks

Every slot is on exactly one of the two lists. Under that invariant the pointer
operations do to the list of holes what the operations on sorted lists of maximal
blocks do, and they meet no null pointer and no endless loop.
-/
namespace SOI.Memory
open Linked Intervals
variable {N : ℕ} {t t' : Table N} {s hp : Fin N} {xs ys pre post rest : List (Fin N)}

@[simp] theorem next_setNext (t : Table N) (s : Fin N) (p : Option (Fin N)) :
    (t.setNext s p).next = Function.update t.next s p := by
  funext z
  by_cases hz : z = s
  · subst z; simp [Table.next, Table.setNext]
  · simp [Table.next, Table.setNext, Function.update_of_ne hz]

@[simp] theorem next_setBlock (t : Table N) (s : Fin N) (base len : ℕ) :
    (t.setBlock s base len).next = t.next := by
  funext z
  by_cases hz : z = s
  · subst z; simp [Table.next, Table.setBlock]
  · simp [Table.next, Table.setBlock, Function.update_of_ne hz]

@[simp] theorem block_setNext (t : Table N) (s : Fin N) (p : Option (Fin N)) :
    (t.setNext s p).block = t.block := by
  funext z
  by_cases hz : z = s
  · subst z; simp [Table.block, Table.setNext]
  · simp [Table.block, Table.setNext, Function.update_of_ne hz]

@[simp] theorem block_setBlock (t : Table N) (s : Fin N) (base len : ℕ) :
    (t.setBlock s base len).block = Function.update t.block s ⟨base,len⟩ := by
  funext z
  by_cases hz : z = s
  · subst z; simp [Table.block, Table.setBlock]
  · simp [Table.block, Table.setBlock, Function.update_of_ne hz]

@[simp] theorem hole_head_setNext (t : Table N) (s : Fin N) (p : Option (Fin N)) :
    (t.setNext s p).hole_head = t.hole_head := rfl

@[simp] theorem free_slots_setNext (t : Table N) (s : Fin N) (p : Option (Fin N)) :
    (t.setNext s p).free_slots = t.free_slots := rfl

@[simp] theorem hole_head_setBlock (t : Table N) (s : Fin N) (base len : ℕ) :
    (t.setBlock s base len).hole_head = t.hole_head := rfl

@[simp] theorem free_slots_setBlock (t : Table N) (s : Fin N) (base len : ℕ) :
    (t.setBlock s base len).free_slots = t.free_slots := rfl

@[simp] theorem next_heads (t : Table N) (head free : Option (Fin N)) :
    (Table.mk t.hole head free).next = t.next := rfl

@[simp] theorem block_heads (t : Table N) (head free : Option (Fin N)) :
    (Table.mk t.hole head free).block = t.block := rfl

def Table.blocks (t : Table N) (xs : List (Fin N)) : List Block := xs.map t.block

/-- The slots `xs` are the holes, in list order, and `ys` are the unused slots. -/
structure Slots (t : Table N) (xs ys : List (Fin N)) : Prop where
  holes : Seg some t.next t.hole_head xs none
  free : Seg some t.next t.free_slots ys none
  nodup : (xs ++ ys).Nodup
  all : ∀ s, s ∈ xs ++ ys

theorem Slots.nodup_holes (h : Slots t xs ys) : xs.Nodup := (List.nodup_append.mp h.nodup).1

theorem Slots.notMem_free (h : Slots t xs ys) (hs : s ∈ xs) : s ∉ ys :=
  fun hs' => (List.nodup_append.mp h.nodup).2.2 s hs s hs' rfl

theorem Slots.length_le (h : Slots t xs ys) : xs.length < N + 1 := by
  have hlen := h.nodup_holes.length_le_card
  rw [Fintype.card_fin] at hlen
  omega

theorem Slots.setBlock (h : Slots t xs ys) (s : Fin N) (base len : ℕ) :
    Slots (t.setBlock s base len) xs ys :=
  ⟨by rw [next_setBlock]; exact h.holes,by rw [next_setBlock]; exact h.free,h.nodup,h.all⟩

theorem del_slot_slots (h : Slots t (pre ++ hp :: post) ys) :
    ∃ t', del_slot t pre.getLast? hp = .ok t' ∧ Slots t' (pre ++ post) (hp :: ys) ∧ t'.block = t.block := by
  have hperm : (pre ++ hp :: post ++ ys).Perm (pre ++ post ++ hp :: ys) := by
    simp only [List.append_assoc, List.cons_append]
    exact List.Perm.append_left pre (List.perm_middle.symm)
  have hnd := hperm.nodup_iff.mp h.nodup
  have hall : ∀ s, s ∈ pre ++ post ++ hp :: ys := fun s => hperm.mem_iff.mp (h.all s)
  have hfree : hp ∉ ys := h.notMem_free (by simp)
  have hrest : hp ∉ pre ++ post := fun hmem =>
    (List.nodup_append.mp hnd).2.2 hp hmem hp (by simp) rfl
  rcases List.eq_nil_or_concat' pre with rfl | ⟨front,prev,rfl⟩
  · have hhead : t.hole_head = some hp := h.holes.1
    let t₁ : Table N := { t with hole_head := t.next hp }
    refine ⟨{ t₁.setNext hp t.free_slots with free_slots := some hp },?_,⟨?_,?_,hnd,hall⟩,by simp [t₁]⟩
    · simp [del_slot, unlink, hhead, Except.map, t₁]
    · simpa [t₁] using h.holes.2.update (fun hm => hrest (by simp [hm])) t.free_slots
    · refine ⟨rfl,?_⟩
      simpa [t₁] using h.free.update hfree t.free_slots
  · have hhead : some hp ≠ t.hole_head := by
      intro heq
      have hh := h.holes
      rw [← heq] at hh
      cases front with
      | nil =>
        have hpp : hp = prev := Option.some_injective _ hh.1
        exact hrest (by simp [hpp])
      | cons z front =>
        have hpz : hp = z := Option.some_injective _ hh.1
        exact hrest (by simp [hpz])
    have hprev : prev ∉ ys := h.notMem_free (by simp)
    have hholes := h.holes
    have hxs := h.nodup_holes
    rw [List.append_assoc, List.singleton_append] at hholes hxs
    let t₁ := t.setNext prev (t.next hp)
    refine ⟨{ t₁.setNext hp t.free_slots with free_slots := some hp },?_,⟨?_,?_,hnd,hall⟩,by simp [t₁]⟩
    · simp [del_slot, unlink, hhead, Except.map, t₁]
    · have hcut := (hholes.unlink hxs).update (by simpa using hrest) t.free_slots
      simpa [t₁] using hcut
    · refine ⟨rfl,?_⟩
      simpa [t₁] using (h.free.update hprev (t.next hp)).update hfree t.free_slots

/-- A list of blocks on which the arithmetic of clicks does not overflow. -/
structure Fits (bs : List Block) : Prop where
  sorted : bs.Pairwise fun x y => x.stop ≤ y.base
  pos : ∀ b ∈ bs, 0 < b.len
  stop_le : ∀ b ∈ bs, b.stop ≤ 2 ^ 32
  proper : ∃ n < 2 ^ 32, n ∉ cover bs

theorem Fits.len_lt {bs : List Block} (h : Fits bs) {b : Block} (hb : b ∈ bs) : b.len < 2 ^ 32 := by
  obtain ⟨n,hn,hout⟩ := h.proper
  have hstop := h.stop_le b hb
  have hmiss : n ∉ b.points := fun hmem => hout (points_subset hb hmem)
  rw [mem_points] at hmiss
  unfold Block.stop at *
  omega

theorem Fits.join {as bs : List Block} {b c : Block} (h : Fits (as ++ b :: c :: bs))
    (htouch : b.stop = c.base) : Fits (as ++ ⟨b.base,b.len + c.len⟩ :: bs) := by
  have hstop : (⟨b.base,b.len + c.len⟩ : Block).stop = c.stop := by
    simp only [Block.stop] at htouch ⊢
    omega
  obtain ⟨has,hbcs,hcross⟩ := List.pairwise_append.mp h.sorted
  obtain ⟨hb,hcs⟩ := List.pairwise_cons.mp hbcs
  obtain ⟨hc,hbs⟩ := List.pairwise_cons.mp hcs
  have hmem : ∀ x ∈ as ++ ⟨b.base,b.len + c.len⟩ :: bs,
      x = ⟨b.base,b.len + c.len⟩ ∨ x ∈ as ++ b :: c :: bs := by
    intro x hx
    simp only [List.mem_append, List.mem_cons] at hx ⊢
    tauto
  refine ⟨List.pairwise_append.mpr ⟨has,List.pairwise_cons.mpr ⟨?_,hbs⟩,?_⟩,?_,?_,?_⟩
  · intro x hx
    rw [hstop]
    exact hc x hx
  · intro x hx y hy
    rcases List.mem_cons.mp hy with rfl | hy
    · exact hcross x hx b (by simp)
    · exact hcross x hx y (by simp [hy])
  · intro x hx
    rcases hmem x hx with rfl | hx
    · exact Nat.add_pos_left (h.pos b (by simp)) _
    · exact h.pos x hx
  · intro x hx
    rcases hmem x hx with rfl | hx
    · rw [hstop]
      exact h.stop_le c (by simp)
    · exact h.stop_le x hx
  · obtain ⟨n,hn,hout⟩ := h.proper
    refine ⟨n,hn,fun hin => hout ?_⟩
    simp only [cover_append, cover, points_join htouch, Finset.mem_union] at hin ⊢
    tauto

theorem absorb_last (h : Slots t (pre ++ [hp]) ys) : absorb t hp = .ok (t,none) := by
  have hnext : t.next hp = none := (seg_concat.mp h.holes).2
  simp [absorb, hnext]

theorem Slots.next_eq {nx : Fin N} (h : Slots t (pre ++ hp :: nx :: post) ys) : t.next hp = some nx := by
  obtain ⟨_,-,-,hnext,-⟩ := seg_append.mp h.holes
  exact hnext

theorem Fits.touches {as bs : List Block} {b c : Block} (h : Fits (as ++ b :: c :: bs)) :
    wrap (b.base + b.len) = c.base ↔ b.stop = c.base := by
  have hpos := h.pos c (by simp)
  have hstop := h.stop_le c (by simp)
  have hbc : b.stop ≤ c.base :=
    (List.pairwise_cons.mp (List.pairwise_append.mp h.sorted).2.1).1 c (by simp)
  unfold wrap Block.stop at *
  omega

theorem absorb_apart {nx : Fin N} (h : Slots t (pre ++ hp :: nx :: post) ys)
    (hfit : Fits (t.blocks (pre ++ hp :: nx :: post))) (hapart : (t.block hp).stop ≠ (t.block nx).base) :
    absorb t hp = .ok (t,some nx) := by
  simp only [Table.blocks, List.map_append, List.map_cons] at hfit
  have htest : wrap ((t.hole hp).h_base + (t.hole hp).h_len) ≠ (t.hole nx).h_base :=
    fun heq => hapart (hfit.touches.mp heq)
  simp [absorb, h.next_eq, htest]

theorem blocks_congr (h : ∀ s ∈ xs, t'.block s = t.block s) : t'.blocks xs = t.blocks xs :=
  List.map_congr_left h

theorem absorb_touch {nx : Fin N} (h : Slots t (pre ++ hp :: nx :: post) ys)
    (hfit : Fits (t.blocks (pre ++ hp :: nx :: post))) (htouch : (t.block hp).stop = (t.block nx).base) :
    ∃ t', absorb t hp = .ok (t',some hp) ∧ Slots t' (pre ++ hp :: post) (nx :: ys) ∧
      t'.block hp = ⟨(t.block hp).base,(t.block hp).len + (t.block nx).len⟩ ∧
      t'.blocks pre = t.blocks pre ∧ t'.blocks post = t.blocks post := by
  simp only [Table.blocks, List.map_append, List.map_cons] at hfit
  have htest : wrap ((t.hole hp).h_base + (t.hole hp).h_len) = (t.hole nx).h_base := hfit.touches.mpr htouch
  have hlen : wrap ((t.hole hp).h_len + (t.hole nx).h_len) = (t.hole hp).h_len + (t.hole nx).h_len :=
    Nat.mod_eq_of_lt ((hfit.join htouch).len_lt (List.mem_append_right _ List.mem_cons_self))
  let t₁ := t.setBlock hp (t.hole hp).h_base ((t.hole hp).h_len + (t.hole nx).h_len)
  have h₁ : Slots t₁ ((pre ++ [hp]) ++ nx :: post) ys := by
    rw [List.append_assoc]
    exact h.setBlock _ _ _
  obtain ⟨t',hdel,hslots,hblock⟩ := del_slot_slots h₁
  rw [List.getLast?_concat] at hdel
  have hslots' : Slots t' (pre ++ hp :: post) (nx :: ys) := by simpa using hslots
  have hnd := List.nodup_append.mp hslots'.nodup_holes
  have hother : ∀ s, s ≠ hp → t'.block s = t.block s := fun s hs => by
    rw [hblock, block_setBlock, Function.update_of_ne hs]
  refine ⟨t',?_,hslots',?_,?_,?_⟩
  · simp only [absorb, h.next_eq, htest, if_true, hlen]
    rw [hdel]
    rfl
  · rw [hblock, block_setBlock, Function.update_self]
    rfl
  · exact blocks_congr fun s hs => hother s fun heq => hnd.2.2 s hs hp (by simp) heq
  · refine blocks_congr fun s hs => hother s ?_
    rintro rfl
    exact (List.nodup_cons.mp hnd.2.1).1 hs

/-- Absorbing the successor settles the block among the following ones. -/
theorem absorb_settle (h : Slots t (pre ++ hp :: rest) ys) (hfit : Fits (t.blocks (pre ++ hp :: rest))) :
    ∃ t' o xs' ys', absorb t hp = .ok (t',o) ∧ Slots t' xs' ys' ∧
      t'.blocks xs' = t.blocks pre ++ settle (t.block hp) (t.blocks rest) := by
  cases rest with
  | nil => exact ⟨t,none,_,ys,absorb_last h,h,by simp [Table.blocks, settle]⟩
  | cons nx post =>
    by_cases htouch : (t.block hp).stop = (t.block nx).base
    · obtain ⟨t',habsorb,hslots,hhp,hpre,hpost⟩ := absorb_touch h hfit htouch
      refine ⟨t',some hp,_,_,habsorb,hslots,?_⟩
      simp only [Table.blocks, List.map_append, List.map_cons] at hpre hpost ⊢
      rw [hpre, hhp, hpost, settle, if_pos htouch]
    · refine ⟨t,some nx,_,ys,absorb_apart h hfit htouch,h,?_⟩
      simp [Table.blocks, settle, htouch]

/-- What `merge` does to the blocks from the first of the three on. -/
def mergeBlocks (b : Block) : List Block → List Block
  | [] => [b]
  | c :: cs => if b.stop = c.base then settle ⟨b.base,b.len + c.len⟩ cs else b :: settle c cs

theorem merge_slots (h : Slots t (pre ++ hp :: rest) ys) (hfit : Fits (t.blocks (pre ++ hp :: rest))) :
    ∃ t' xs' ys', merge t hp = .ok t' ∧ Slots t' xs' ys' ∧
      t'.blocks xs' = t.blocks pre ++ mergeBlocks (t.block hp) (t.blocks rest) := by
  cases rest with
  | nil =>
    refine ⟨t,_,ys,?_,h,by simp [Table.blocks, mergeBlocks]⟩
    simp [merge, absorb_last h, Bind.bind, Except.bind]
  | cons nx post =>
    by_cases htouch : (t.block hp).stop = (t.block nx).base
    · obtain ⟨t₁,habsorb,h₁,hhp,hpre,hpost⟩ := absorb_touch h hfit htouch
      have hfit₁ : Fits (t₁.blocks (pre ++ hp :: post)) := by
        simp only [Table.blocks, List.map_append, List.map_cons] at hfit hpre hpost ⊢
        rw [hpre, hhp, hpost]
        exact hfit.join htouch
      obtain ⟨t',o,xs',ys',habsorb',hslots,hblocks⟩ := absorb_settle h₁ hfit₁
      refine ⟨t',xs',ys',?_,hslots,?_⟩
      · simp [merge, habsorb, habsorb', Bind.bind, Except.bind, Except.map]
      · rw [hblocks, hpre, hhp, hpost]
        simp [Table.blocks, mergeBlocks, htouch]
    · have h₁ : Slots t ((pre ++ [hp]) ++ nx :: post) ys := by simpa using h
      have hfit₁ : Fits (t.blocks ((pre ++ [hp]) ++ nx :: post)) := by simpa using hfit
      obtain ⟨t',o,xs',ys',habsorb',hslots,hblocks⟩ := absorb_settle h₁ hfit₁
      refine ⟨t',xs',ys',?_,hslots,?_⟩
      · simp [merge, absorb_apart h hfit htouch, habsorb', Bind.bind, Except.bind, Except.map]
      · rw [hblocks]
        simp [Table.blocks, mergeBlocks, htouch]

section Insert
variable {as cs : List Block} {b p : Block}

/-- In front of maximal blocks, merging is adding. -/
theorem mergeBlocks_front (h : AreMaximal cs) (hle : ∀ c, cs.head? = some c → b.base ≤ c.base) :
    mergeBlocks b cs = add b cs := by
  cases cs with
  | nil => rfl
  | cons c cs =>
    obtain ⟨hc,hgap,hcs⟩ := maximal_cons.mp h
    have hsettle : ∀ d : Block, d.stop = c.stop → settle d cs = d :: cs := by
      intro d hd
      cases cs with
      | nil => rfl
      | cons e es =>
        have he := hgap e (by simp)
        rw [settle, if_neg (by omega)]
    rw [mergeBlocks, add, if_pos (hle c rfl), settle]
    split
    · next htouch =>
      refine hsettle _ ?_
      simp only [Block.stop] at htouch ⊢
      omega
    · rw [hsettle c rfl]

/-- Behind the last block with a smaller base, too. -/
theorem mergeBlocks_middle (h : AreMaximal (as ++ p :: cs)) (hbelow : ∀ a ∈ as ++ [p], a.base < b.base)
    (hle : ∀ c, cs.head? = some c → b.base ≤ c.base) :
    as ++ mergeBlocks p (b :: cs) = add b (as ++ p :: cs) := by
  induction as with
  | nil =>
    have hp := hbelow p (by simp)
    have hadd : add b (p :: cs) =
        if p.stop = b.base then settle ⟨p.base,p.len + b.len⟩ cs else p :: add b cs := by
      rw [add, if_neg (by omega)]
    have hsettle : settle b cs = add b cs := by
      cases cs with
      | nil => rfl
      | cons c cs => rw [add, if_pos (hle c rfl)]
    rw [List.nil_append, List.nil_append, mergeBlocks, hadd, hsettle]
  | cons a as ih =>
    obtain ⟨-,hgap,hrest⟩ := maximal_cons.mp h
    have ha := hbelow a (by simp)
    have hap := hgap p (by simp)
    have hp := hbelow p (by simp)
    rw [List.cons_append, List.cons_append, add, if_neg (by omega), if_neg (by omega),
      ih hrest fun x hx => hbelow x (by simp only [List.cons_append, List.mem_cons]; exact Or.inr hx)]

theorem Fits.insert (h : AreMaximal (as ++ cs)) (hstop : ∀ x ∈ as ++ cs, x.stop ≤ 2 ^ 32) (hb : 0 < b.len)
    (hbstop : b.stop ≤ 2 ^ 32) (hd : Disjoint b.points (cover (as ++ cs)))
    (hproper : ∃ n < 2 ^ 32, n ∉ cover (as ++ cs) ∧ n ∉ b.points) (hbelow : ∀ a ∈ as, a.base < b.base)
    (habove : ∀ c ∈ cs, b.base ≤ c.base) : Fits (as ++ b :: cs) := by
  obtain ⟨has,hcs,hcross⟩ := List.pairwise_append.mp h.gaps
  have hlt : ∀ {x y : Block}, x.stop < y.base → x.stop ≤ y.base := fun hxy => hxy.le
  have hmem : ∀ x ∈ as ++ b :: cs, x = b ∨ x ∈ as ++ cs := by
    intro x hx
    simp only [List.mem_append, List.mem_cons] at hx ⊢
    tauto
  have hdb : ∀ x ∈ as ++ cs, Disjoint b.points x.points := fun x hx => hd.mono_right (points_subset hx)
  refine ⟨List.pairwise_append.mpr ⟨has.imp hlt,List.pairwise_cons.mpr ⟨?_,hcs.imp hlt⟩,?_⟩,?_,?_,?_⟩
  · intro c hc
    exact stop_le_base (h.pos c (by simp [hc])) (hdb c (by simp [hc])) (habove c hc)
  · intro a ha y hy
    rcases List.mem_cons.mp hy with rfl | hy
    · exact stop_le_base hb (hdb a (by simp [ha])).symm (hbelow a ha).le
    · exact (hcross a ha y hy).le
  · intro x hx
    rcases hmem x hx with rfl | hx
    · exact hb
    · exact h.pos x hx
  · intro x hx
    rcases hmem x hx with rfl | hx
    · exact hbstop
    · exact hstop x hx
  · obtain ⟨n,hn,hout,hnb⟩ := hproper
    refine ⟨n,hn,fun hin => ?_⟩
    simp only [cover_append, cover, Finset.mem_union] at hin hout
    tauto

end Insert

theorem getLast?_cons_or {α : Type} (x : α) (xs : List α) (p : Option α) :
    (x :: xs).getLast?.or p = xs.getLast?.or (some x) := by
  cases xs with
  | nil => rfl
  | cons y ys =>
    rw [List.getLast?_cons_cons]
    cases hlast : (y :: ys).getLast? with
    | none => simp at hlast
    | some z => rfl

theorem seekBelow_split (base : ℕ) {fuel : ℕ} {b : Option (Fin N)} (prev : Option (Fin N))
    (h : Seg some t.next b xs none) (hfuel : xs.length < fuel) :
    ∃ pre post, xs = pre ++ post ∧ seekBelow t base fuel prev b = .ok (pre.getLast?.or prev) ∧
      (∀ s ∈ pre, (t.block s).base < base) ∧ ∀ s, post.head? = some s → base ≤ (t.block s).base := by
  induction xs generalizing b fuel prev with
  | nil =>
    obtain ⟨fuel,rfl⟩ : ∃ n, fuel = n + 1 := ⟨fuel - 1,by omega⟩
    obtain rfl : b = none := h
    exact ⟨[],[],rfl,rfl,by simp,by simp⟩
  | cons x xs ih =>
    obtain ⟨fuel,rfl⟩ : ∃ n, fuel = n + 1 := ⟨fuel - 1,by omega⟩
    obtain ⟨rfl,hrest⟩ := h
    by_cases hlt : (t.hole x).h_base < base
    · obtain ⟨pre,post,rfl,hseek,hpre,hpost⟩ := @ih fuel _ (some x) hrest (by simp at hfuel; omega)
      refine ⟨x :: pre,post,rfl,?_,?_,hpost⟩
      · rw [seekBelow, if_pos hlt, hseek, getLast?_cons_or]
      · intro s hs
        rcases List.mem_cons.mp hs with rfl | hs
        · exact hlt
        · exact hpre s hs
    · refine ⟨[],x :: xs,rfl,by rw [seekBelow, if_neg hlt]; rfl,by simp,?_⟩
      rintro s ⟨rfl⟩
      exact Nat.le_of_not_lt hlt

def upperRest (clicks : ℕ) (b : Block) : Block := ⟨wrap (b.base + clicks),b.len - clicks⟩

theorem upperRest_eq {clicks : ℕ} {b : Block} (hclicks : clicks < b.len) (hstop : b.stop ≤ 2 ^ 32) :
    upperRest clicks b = ⟨b.base + clicks,b.len - clicks⟩ := by
  unfold Block.stop at hstop
  rw [upperRest, wrap, Nat.mod_eq_of_lt (by omega)]

/-- In `t'` clicks have been bitten off the hole `hp` between `pre` and `post`, which is
gone if it has been used up. -/
structure Bitten (t : Table N) (clicks : ℕ) (pre : List (Fin N)) (hp : Fin N) (post ys : List (Fin N))
    (t' : Table N) : Prop where
  others : ∀ s, s ≠ hp → t'.block s = t.block s
  used_up : (t.block hp).len = clicks → Slots t' (pre ++ post) (hp :: ys)
  rest : (t.block hp).len ≠ clicks → Slots t' (pre ++ hp :: post) ys ∧ t'.block hp = upperRest clicks (t.block hp)

theorem biteOff_bitten {clicks : ℕ} (h : Slots t (pre ++ hp :: post) ys) (hclicks : clicks ≤ (t.block hp).len) :
    ∃ t', biteOff t pre.getLast? hp clicks = .ok ((t.block hp).base,t') ∧ Bitten t clicks pre hp post ys t' := by
  let t₁ := t.setBlock hp (wrap ((t.hole hp).h_base + clicks)) ((t.hole hp).h_len - clicks)
  have h₁ : Slots t₁ (pre ++ hp :: post) ys := h.setBlock _ _ _
  have hblock₁ : t₁.block = Function.update t.block hp (upperRest clicks (t.block hp)) := block_setBlock _ _ _ _
  have hother : ∀ s, s ≠ hp → t₁.block s = t.block s := fun s hs => by
    rw [hblock₁, Function.update_of_ne hs]
  have hlen : (t.block hp).len = (t.hole hp).h_len := rfl
  by_cases hall : (t.block hp).len = clicks
  · obtain ⟨t',hdel,hslots,hblock⟩ := del_slot_slots h₁
    have hzero : (t.hole hp).h_len - clicks = 0 := by omega
    refine ⟨t',?_,fun s hs => by rw [hblock, hother s hs],fun _ => hslots,fun hne => absurd hall hne⟩
    simp only [biteOff, if_pos hzero]
    rw [hdel]
    rfl
  · have hzero : (t.hole hp).h_len - clicks ≠ 0 := by omega
    refine ⟨t₁,?_,hother,fun heq => absurd heq hall,fun _ => ⟨h₁,by rw [hblock₁, Function.update_self]⟩⟩
    simp only [biteOff, if_neg hzero]
    rfl

theorem biteOff_slots {clicks : ℕ} (h : Slots t (pre ++ hp :: post) ys) (hclicks : clicks ≤ (t.block hp).len)
    (hstop : (t.block hp).stop ≤ 2 ^ 32) :
    ∃ t' xs' ys', biteOff t pre.getLast? hp clicks = .ok ((t.block hp).base,t') ∧ Slots t' xs' ys' ∧
      t'.blocks xs' = t.blocks pre ++ (bite clicks (t.block hp) ++ t.blocks post) := by
  have hnd := List.nodup_append.mp h.nodup_holes
  obtain ⟨t',hbite,hbitten⟩ := biteOff_bitten h hclicks
  have hpre : t'.blocks pre = t.blocks pre :=
    blocks_congr fun s hs => hbitten.others s fun heq => hnd.2.2 s hs hp (by simp) heq
  have hpost : t'.blocks post = t.blocks post := by
    refine blocks_congr fun s hs => hbitten.others s ?_
    rintro rfl
    exact (List.nodup_cons.mp hnd.2.1).1 hs
  simp only [Table.blocks] at hpre hpost ⊢
  by_cases hall : (t.block hp).len = clicks
  · refine ⟨t',_,_,hbite,hbitten.used_up hall,?_⟩
    rw [List.map_append, hpre, hpost, bite, if_pos hall]
    rfl
  · obtain ⟨hslots,hrest⟩ := hbitten.rest hall
    refine ⟨t',_,_,hbite,hslots,?_⟩
    rw [List.map_append, List.map_cons, hpre, hpost, hrest, upperRest_eq (by omega) hstop, bite, if_neg hall]
    rfl

theorem free_mem_full {base clicks : ℕ} (h : Slots t xs []) (hclicks : 0 < clicks) :
    free_mem t base clicks = .error (.panic "Hole table full") := by
  have hfree : t.free_slots = none := h.free
  simp [free_mem, hfree, hclicks.ne']

theorem insertFront_slots {f : Fin N} (h : Slots t xs (f :: ys)) {t₁ : Table N} (hnext : t₁.next = t.next)
    (hhead : t₁.hole_head = t.hole_head) (hfree : t₁.free_slots = t.next f) :
    Slots { t₁.setNext f t₁.hole_head with hole_head := some f } (f :: xs) ys := by
  have hperm : (xs ++ f :: ys).Perm (f :: xs ++ ys) := by
    rw [List.cons_append]
    exact List.perm_middle
  have hnd := hperm.nodup_iff.mp h.nodup
  have hf : f ∉ xs ++ ys := (List.nodup_cons.mp hnd).1
  simp only [List.mem_append, not_or] at hf
  refine ⟨⟨rfl,?_⟩,?_,hnd,fun s => hperm.mem_iff.mp (h.all s)⟩
  · simp only [next_heads, next_setNext, Function.update_self, hnext, hhead]
    exact h.holes.update hf.1 _
  · simp only [next_heads, next_setNext, free_slots_setNext, hnext, hfree]
    exact h.free.2.update hf.2 _

theorem insertBehind_slots {f prev : Fin N} (h : Slots t (pre ++ prev :: post) (f :: ys)) {t₁ : Table N}
    (hnext : t₁.next = t.next) (hhead : t₁.hole_head = t.hole_head) (hfree : t₁.free_slots = t.next f) :
    Slots ((t₁.setNext f (t₁.next prev)).setNext prev (some f)) (pre ++ prev :: f :: post) ys := by
  have hperm : (pre ++ prev :: post ++ f :: ys).Perm (pre ++ prev :: f :: post ++ ys) := by
    simp only [List.append_assoc, List.cons_append]
    exact List.Perm.append_left pre ((List.perm_middle).cons prev)
  have hnd := hperm.nodup_iff.mp h.nodup
  have hf : f ∉ pre ++ prev :: post := fun hm =>
    (List.nodup_append.mp h.nodup).2.2 f hm f (by simp) rfl
  have hprev : prev ∉ ys := fun hm => h.notMem_free (show prev ∈ pre ++ prev :: post by simp) (by simp [hm])
  have hfys : f ∉ ys := (List.nodup_cons.mp (List.nodup_append.mp h.nodup).2.1).1
  refine ⟨?_,?_,hnd,fun s => hperm.mem_iff.mp (h.all s)⟩
  · simp only [next_setNext, hole_head_setNext, hnext, hhead]
    exact h.holes.insert h.nodup_holes hf
  · simp only [next_setNext, free_slots_setNext, hnext, hfree]
    exact (h.free.2.update hfys _).update hprev _

/-- What `free_mem` does before merging: the table with the new hole, and the hole to merge from. -/
def insertHole (t : Table N) (base clicks : ℕ) : Except Stop (Table N × Fin N) :=
  match t.free_slots with
  | none => .error (.panic "Hole table full")
  | some new_ptr =>
    let t := { t.setBlock new_ptr base clicks with free_slots := t.next new_ptr }
    if t.hole_head.all fun hp => base ≤ (t.hole hp).h_base then
      .ok ({ t.setNext new_ptr t.hole_head with hole_head := some new_ptr },new_ptr)
    else (seekBelow t base (N + 1) none t.hole_head).bind fun prev_ptr => prev_ptr.elim (.error .nil) fun prev_ptr =>
      .ok ((t.setNext new_ptr (t.next prev_ptr)).setNext prev_ptr (some new_ptr),prev_ptr)

theorem free_mem_eq (t : Table N) (base clicks : ℕ) : free_mem t base clicks =
    if clicks = 0 then .ok t else (insertHole t base clicks).bind fun r => merge r.1 r.2 := by
  unfold free_mem insertHole
  split
  · rfl
  cases t.free_slots with
  | none => rfl
  | some f =>
    dsimp only
    split
    · rfl
    · generalize seekBelow _ base (N + 1) none _ = found
      cases found with
      | error e => rfl
      | ok prev_ptr => cases prev_ptr <;> rfl

/-- The new hole goes behind the last one below the block. -/
theorem insertHole_slots (base clicks : ℕ) {f : Fin N} (h : Slots t xs (f :: ys)) :
    ∃ t₂ pre post, xs = pre ++ post ∧ (∀ s ∈ pre, (t.block s).base < base) ∧
      (∀ s, post.head? = some s → base ≤ (t.block s).base) ∧ Slots t₂ (pre ++ f :: post) ys ∧
      t₂.block = Function.update t.block f ⟨base,clicks⟩ ∧
      insertHole t base clicks = .ok (t₂,pre.getLast?.getD f) := by
  have hfree : t.free_slots = some f := h.free.1
  let t₁ : Table N := { t.setBlock f base clicks with free_slots := t.next f }
  have hnext₁ : t₁.next = t.next := next_setBlock _ _ _ _
  have hblock₁ : t₁.block = Function.update t.block f ⟨base,clicks⟩ := block_setBlock _ _ _ _
  obtain ⟨pre,post,rfl,hseek,hpre,hpost⟩ :=
    seekBelow_split base none (show Seg some t₁.next t₁.hole_head xs none by rw [hnext₁]; exact h.holes)
      h.length_le
  have hsame : ∀ s ∈ pre ++ post, t₁.block s = t.block s := fun s hs => by
    rw [hblock₁, Function.update_of_ne]
    rintro rfl
    exact h.notMem_free hs List.mem_cons_self
  have hpre' : ∀ s ∈ pre, (t.block s).base < base := fun s hs => by
    rw [← hsame s (List.mem_append_left _ hs)]
    exact hpre s hs
  have hpost' : ∀ s, post.head? = some s → base ≤ (t.block s).base := fun s hs => by
    rw [← hsame s (List.mem_append_right _ (List.mem_of_mem_head? hs))]
    exact hpost s hs
  have hstart : insertHole t base clicks =
      if t₁.hole_head.all fun hp => base ≤ (t₁.hole hp).h_base then
        .ok ({ t₁.setNext f t₁.hole_head with hole_head := some f },f)
      else (seekBelow t₁ base (N + 1) none t₁.hole_head).bind fun prev_ptr => prev_ptr.elim (.error .nil)
        fun prev_ptr => .ok ((t₁.setNext f (t₁.next prev_ptr)).setNext prev_ptr (some f),prev_ptr) := by
    simp only [insertHole, hfree]
    rfl
  rcases List.eq_nil_or_concat' pre with rfl | ⟨front,prev,rfl⟩
  · refine ⟨{ t₁.setNext f t₁.hole_head with hole_head := some f },[],post,rfl,hpre',hpost',
      insertFront_slots h hnext₁ rfl rfl,?_,?_⟩
    · rw [← hblock₁]
      exact block_setNext _ _ _
    · have hhead : t₁.hole_head = post.head? := by
        cases post with
        | nil => exact h.holes
        | cons s post => exact h.holes.1
      rw [hstart, if_pos]
      · rfl
      · rw [hhead, Option.all_eq_true]
        intro s hs
        exact decide_eq_true (hpost s hs)
  · have hh : Slots t (front ++ prev :: post) (f :: ys) := by simpa using h
    refine ⟨(t₁.setNext f (t₁.next prev)).setNext prev (some f),front ++ [prev],post,rfl,hpre',hpost',?_,?_,?_⟩
    · rw [List.append_assoc, List.singleton_append]
      exact insertBehind_slots hh hnext₁ rfl rfl
    · rw [← hblock₁, block_setNext, block_setNext]
    · rw [hstart, if_neg, hseek, List.getLast?_concat]
      · rfl
      · intro hall
        obtain ⟨s,hs,hhead⟩ : ∃ s, s ∈ front ++ [prev] ∧ t₁.hole_head = some s := by
          have hholes := hh.holes
          cases front with
          | nil => exact ⟨prev,by simp,hholes.1⟩
          | cons s front => exact ⟨s,by simp,hholes.1⟩
        have hlow := hpre s hs
        rw [hhead, Option.all_some, decide_eq_true_eq] at hall
        exact absurd hlow (Nat.not_lt.mpr hall)

/-- With an unused slot `free_mem` puts a new hole behind the last one below the block, and merges from there on. -/
theorem free_mem_inserts {base clicks : ℕ} {f : Fin N} (h : Slots t xs (f :: ys)) (hclicks : 0 < clicks) :
    ∃ t₂ pre post, xs = pre ++ post ∧ (∀ s ∈ pre, (t.block s).base < base) ∧
      (∀ s, post.head? = some s → base ≤ (t.block s).base) ∧ Slots t₂ (pre ++ f :: post) ys ∧
      t₂.block = Function.update t.block f ⟨base,clicks⟩ ∧
      free_mem t base clicks = merge t₂ (pre.getLast?.getD f) := by
  obtain ⟨t₂,pre,post,hxs,hpre,hpost,hslots,hblock,hinsert⟩ := insertHole_slots base clicks h
  refine ⟨t₂,pre,post,hxs,hpre,hpost,hslots,hblock,?_⟩
  rw [free_mem_eq, if_neg hclicks.ne', hinsert]
  rfl

/-- A missing block is added to the blocks of the holes. -/
theorem free_mem_slots {base clicks : ℕ} {f : Fin N} (h : Slots t xs (f :: ys)) (hmax : AreMaximal (t.blocks xs))
    (hstops : ∀ b ∈ t.blocks xs, b.stop ≤ 2 ^ 32) (hclicks : 0 < clicks) (hstop : base + clicks ≤ 2 ^ 32)
    (hd : Disjoint (Block.mk base clicks).points (cover (t.blocks xs)))
    (hproper : ∃ n < 2 ^ 32, n ∉ cover (t.blocks xs) ∧ n ∉ (Block.mk base clicks).points) :
    ∃ t' xs' ys', free_mem t base clicks = .ok t' ∧ Slots t' xs' ys' ∧
      t'.blocks xs' = add ⟨base,clicks⟩ (t.blocks xs) := by
  obtain ⟨t₂,pre,post,rfl,hpre,hpost,h₂,hblock₂,hmerges⟩ := @free_mem_inserts _ _ _ _ base clicks _ h hclicks
  have hsame : ∀ zs, (∀ s ∈ zs, s ∈ pre ++ post) → t₂.blocks zs = t.blocks zs := fun zs hzs =>
    blocks_congr fun s hs => by
      rw [hblock₂, Function.update_of_ne]
      rintro rfl
      exact h.notMem_free (hzs s hs) List.mem_cons_self
  have hf : t₂.block f = ⟨base,clicks⟩ := by rw [hblock₂, Function.update_self]
  have hpost₂ : t₂.blocks post = t.blocks post := hsame post fun s hs => List.mem_append_right _ hs
  have hlist : t.blocks (pre ++ post) = t.blocks pre ++ t.blocks post := by simp [Table.blocks]
  rw [hlist] at hmax hstops hd hproper ⊢
  have habove : ∀ c, (t.blocks post).head? = some c → base ≤ c.base := by
    intro c hc
    cases post with
    | nil => simp [Table.blocks] at hc
    | cons s post =>
      obtain rfl : t.block s = c := by simpa [Table.blocks] using hc
      exact hpost s rfl
  have habove' : ∀ c ∈ t.blocks post, base ≤ c.base := by
    intro c hc
    cases hp : t.blocks post with
    | nil => simp [hp] at hc
    | cons d ds =>
      rw [hp] at hmax hc
      have hd' := habove d (by rw [hp]; rfl)
      rcases List.mem_cons.mp hc with rfl | hc
      · exact hd'
      · have hgap := (List.pairwise_cons.mp (List.pairwise_append.mp hmax.gaps).2.1).1 c hc
        unfold Block.stop at hgap
        omega
  have hbelow : ∀ a ∈ t.blocks pre, a.base < base := by
    intro a ha
    obtain ⟨s,hs,rfl⟩ := List.mem_map.mp ha
    exact hpre s hs
  have hfit : Fits (t.blocks pre ++ ⟨base,clicks⟩ :: t.blocks post) :=
    Fits.insert hmax hstops hclicks hstop hd hproper hbelow habove'
  rw [hmerges]
  rcases List.eq_nil_or_concat' pre with rfl | ⟨front,prev,rfl⟩
  · have hfit₂ : Fits (t₂.blocks ([] ++ f :: post)) := by
      simp only [Table.blocks, List.map_append, List.map_cons] at hfit hpost₂ ⊢
      rwa [hf, hpost₂]
    obtain ⟨t',xs',ys',hmerge,hslots,hblocks⟩ := merge_slots h₂ hfit₂
    refine ⟨t',xs',ys',hmerge,hslots,?_⟩
    rw [hblocks, hf, hpost₂]
    exact mergeBlocks_front (by simpa [Table.blocks] using hmax) habove
  · rw [List.append_assoc, List.singleton_append] at h₂
    have hmid : t.blocks (front ++ [prev]) = t.blocks front ++ [t.block prev] := by simp [Table.blocks]
    have hcons : t₂.blocks (f :: post) = ⟨base,clicks⟩ :: t.blocks post := by
      simp only [Table.blocks, List.map_cons] at hpost₂ ⊢
      rw [hf, hpost₂]
    have hfront : t₂.blocks front = t.blocks front := hsame front fun s hs => by simp [hs]
    have hprev : t₂.block prev = t.block prev := by
      have hone := hsame [prev] (by simp)
      simpa [Table.blocks] using hone
    rw [hmid, List.append_assoc, List.singleton_append] at hmax hfit
    rw [hmid] at hbelow
    have hfit₂ : Fits (t₂.blocks (front ++ prev :: f :: post)) := by
      simp only [Table.blocks, List.map_append, List.map_cons] at hfit hcons hfront ⊢
      rwa [hfront, hprev, hcons]
    obtain ⟨t',xs',ys',hmerge,hslots,hblocks⟩ := merge_slots h₂ hfit₂
    refine ⟨t',xs',ys',?_,hslots,?_⟩
    · rw [List.getLast?_concat]
      exact hmerge
    · rw [hblocks, hfront, hprev, hcons, hmid, List.append_assoc, List.singleton_append]
      exact mergeBlocks_middle hmax hbelow habove

/-- Joining holes that touch keeps the property, in the arithmetic of clicks. -/
def Joins (P : Block → Prop) : Prop :=
  ∀ b c : Block, P b → P c → wrap (b.base + b.len) = c.base → P ⟨b.base,wrap (b.len + c.len)⟩

/-- What joining keeps and the blocks `bs` all have, the blocks `bs'` have. -/
def JoinKeeps (bs bs' : List Block) : Prop := ∀ P, Joins P → (∀ b ∈ bs, P b) → ∀ b ∈ bs', P b

theorem JoinKeeps.of_subset {bs bs' : List Block} (h : bs' ⊆ bs) : JoinKeeps bs bs' :=
  fun _ _ hall b hb => hall b (h hb)

theorem JoinKeeps.trans {as bs cs : List Block} (h : JoinKeeps as bs) (h' : JoinKeeps bs cs) : JoinKeeps as cs :=
  fun P hP hall => h' P hP (h P hP hall)

/-- Absorbing keeps the two lists, and goes on with a hole or has come to the end. -/
theorem absorb_ok (h : Slots t (pre ++ hp :: post) ys) :
    ∃ t' o xs' ys', absorb t hp = .ok (t',o) ∧ Slots t' xs' ys' ∧ (∀ s, o = some s → s ∈ xs') ∧
      JoinKeeps (t.blocks (pre ++ hp :: post)) (t'.blocks xs') := by
  cases post with
  | nil => exact ⟨t,none,_,ys,absorb_last h,h,by simp,.of_subset (List.Subset.refl _)⟩
  | cons nx post =>
    by_cases htest : wrap ((t.hole hp).h_base + (t.hole hp).h_len) = (t.hole nx).h_base
    · let t₁ := t.setBlock hp (t.hole hp).h_base (wrap ((t.hole hp).h_len + (t.hole nx).h_len))
      have h₁ : Slots t₁ ((pre ++ [hp]) ++ nx :: post) ys := by
        rw [List.append_assoc]
        exact h.setBlock _ _ _
      obtain ⟨t',hdel,hslots,hblock⟩ := del_slot_slots h₁
      rw [List.getLast?_concat] at hdel
      refine ⟨t',some hp,_,_,?_,hslots,by simp,fun P hP hall => ?_⟩
      · simp only [absorb, h.next_eq, htest, if_true]
        rw [hdel]
        rfl
      have hold : ∀ s ∈ pre ++ hp :: nx :: post, P (t.block s) := fun s hs => hall _ (List.mem_map_of_mem hs)
      refine List.forall_mem_map.mpr fun s hs => ?_
      by_cases heq : s = hp
      · rw [heq, hblock, block_setBlock, Function.update_self]
        exact hP _ _ (hold hp (by simp)) (hold nx (by simp)) htest
      · rw [hblock, block_setBlock, Function.update_of_ne heq]
        refine hold s ?_
        simp only [List.append_assoc, List.mem_append, List.mem_cons] at hs ⊢
        tauto
    · exact ⟨t,some nx,_,ys,by simp [absorb, h.next_eq, htest],h,by simp,.of_subset (List.Subset.refl _)⟩

theorem merge_ok (h : Slots t xs ys) (hmem : hp ∈ xs) :
    ∃ t' xs' ys', merge t hp = .ok t' ∧ Slots t' xs' ys' ∧ JoinKeeps (t.blocks xs) (t'.blocks xs') := by
  obtain ⟨pre,post,rfl⟩ := List.append_of_mem hmem
  obtain ⟨t₁,o,xs₁,ys₁,habsorb,h₁,ho,hkeeps⟩ := absorb_ok h
  cases o with
  | none => exact ⟨t₁,xs₁,ys₁,by rw [merge, habsorb]; rfl,h₁,hkeeps⟩
  | some s =>
    obtain ⟨pre₁,post₁,rfl⟩ := List.append_of_mem (ho s rfl)
    obtain ⟨t₂,o₂,xs₂,ys₂,habsorb₂,h₂,-,hkeeps₂⟩ := absorb_ok h₁
    refine ⟨t₂,xs₂,ys₂,?_,h₂,hkeeps.trans hkeeps₂⟩
    rw [merge, habsorb]
    exact congrArg (Except.map Prod.fst) habsorb₂

theorem free_mem_ok (h : Slots t xs ys) (base clicks : ℕ) :
    free_mem t base clicks = .error (.panic "Hole table full") ∨
      ∃ t' xs' ys', free_mem t base clicks = .ok t' ∧ Slots t' xs' ys' ∧
        JoinKeeps (⟨base,clicks⟩ :: t.blocks xs) (t'.blocks xs') := by
  by_cases hclicks : clicks = 0
  · exact Or.inr ⟨t,xs,ys,by rw [free_mem, if_pos hclicks],h,.of_subset (List.subset_cons_self _ _)⟩
  cases ys with
  | nil => exact Or.inl (free_mem_full h (Nat.pos_of_ne_zero hclicks))
  | cons f ys =>
    obtain ⟨t₂,pre,post,rfl,-,-,h₂,hblock₂,hmerges⟩ :=
      @free_mem_inserts _ _ _ _ base clicks _ h (Nat.pos_of_ne_zero hclicks)
    have hfrom : pre.getLast?.getD f ∈ pre ++ f :: post := by
      cases hlast : pre.getLast? with
      | none => simp
      | some s => exact List.mem_append_left _ (List.mem_of_getLast? hlast)
    have hnew : t₂.blocks (pre ++ f :: post) ⊆ ⟨base,clicks⟩ :: t.blocks (pre ++ post) := by
      refine List.forall_mem_map.mpr fun s hs => ?_
      by_cases heq : s = f
      · rw [heq, hblock₂, Function.update_self]
        exact List.mem_cons_self
      · rw [hblock₂, Function.update_of_ne heq]
        refine List.mem_cons_of_mem _ (List.mem_map_of_mem ?_)
        simp only [List.mem_append, List.mem_cons] at hs ⊢
        tauto
    rw [hmerges]
    obtain ⟨t',xs',ys',hmerge,hslots,hkeeps⟩ := merge_ok h₂ hfrom
    exact Or.inr ⟨t',xs',ys',hmerge,hslots,(JoinKeeps.of_subset hnew).trans hkeeps⟩

theorem Bitten.slots {clicks : ℕ} (h : Bitten t clicks pre hp post ys t') : ∃ xs' ys', Slots t' xs' ys' ∧
    ∀ b ∈ t'.blocks xs', b ∈ t.blocks (pre ++ hp :: post) ∨
      (t.block hp).len ≠ clicks ∧ b = upperRest clicks (t.block hp) := by
  by_cases hall : (t.block hp).len = clicks
  · have hslots := h.used_up hall
    refine ⟨_,_,hslots,List.forall_mem_map.mpr fun s hs => Or.inl ?_⟩
    have hne : s ≠ hp := fun heq => hslots.notMem_free hs (by rw [heq]; exact List.mem_cons_self)
    rw [h.others s hne]
    refine List.mem_map_of_mem ?_
    simp only [List.mem_append, List.mem_cons] at hs ⊢
    tauto
  · obtain ⟨hslots,hrest⟩ := h.rest hall
    refine ⟨_,_,hslots,List.forall_mem_map.mpr fun s hs => ?_⟩
    by_cases heq : s = hp
    · exact Or.inr ⟨hall,by rw [heq, hrest]⟩
    · rw [h.others s heq]
      exact Or.inl (List.mem_map_of_mem hs)

/-- A walk along the holes ends at the first that fits, or there is none up to the one at
which it gives up. -/
theorem search_split (stop fits : Hole N → Bool) {fuel : ℕ} {b : Option (Fin N)} (prev : Option (Fin N))
    (h : Seg some t.next b xs none) (hfuel : xs.length < fuel) :
    (search t stop fits fuel prev b = .ok none ∧
      ∀ s ∈ xs.takeWhile (fun s => !stop (t.hole s)), fits (t.hole s) = false) ∨
    ∃ pre hp post, xs = pre ++ hp :: post ∧ search t stop fits fuel prev b = .ok (some (pre.getLast?.or prev,hp)) ∧
      hp ∈ xs.takeWhile (fun s => !stop (t.hole s)) ∧ fits (t.hole hp) = true := by
  induction xs generalizing b fuel prev with
  | nil =>
    obtain ⟨fuel,rfl⟩ : ∃ n, fuel = n + 1 := ⟨fuel - 1,by omega⟩
    obtain rfl : b = none := h
    exact Or.inl ⟨rfl,by simp⟩
  | cons x xs ih =>
    obtain ⟨fuel,rfl⟩ : ∃ n, fuel = n + 1 := ⟨fuel - 1,by omega⟩
    obtain ⟨rfl,hrest⟩ := h
    by_cases hstop : stop (t.hole x) = true
    · left
      rw [search, if_pos hstop, List.takeWhile_cons_of_neg (by simp [hstop])]
      exact ⟨rfl,by simp⟩
    have hgoes : (x :: xs).takeWhile (fun s => !stop (t.hole s)) = x :: xs.takeWhile (fun s => !stop (t.hole s)) :=
      List.takeWhile_cons_of_pos (by simpa using hstop)
    rw [search, if_neg hstop, hgoes]
    by_cases hfits : fits (t.hole x) = true
    · right
      refine ⟨[],x,xs,rfl,?_,List.mem_cons_self,hfits⟩
      rw [if_pos hfits]
      rfl
    rw [if_neg hfits]
    rcases ih (some x) hrest (show xs.length < fuel by simp at hfuel; omega) with
      ⟨hnone,hall⟩ | ⟨pre,hp,post,hxs,hsome,hmem,hfit⟩
    · left
      refine ⟨hnone,fun s hs => ?_⟩
      rcases List.mem_cons.mp hs with rfl | hs
      · exact Bool.eq_false_of_not_eq_true hfits
      · exact hall s hs
    · right
      refine ⟨x :: pre,hp,post,by rw [hxs]; rfl,?_,List.mem_cons_of_mem _ hmem,hfit⟩
      rw [hsome, getLast?_cons_or]

/-- The holes in front of the first one of the swap area. -/
def Table.low (t : Table N) (swap_base : ℕ) (xs : List (Fin N)) : List (Fin N) :=
  xs.takeWhile fun s => (t.block s).base < swap_base

theorem low_cons_of_lt {swap_base : ℕ} (h : (t.block s).base < swap_base) :
    t.low swap_base (s :: xs) = s :: t.low swap_base xs :=
  List.takeWhile_cons_of_pos (decide_eq_true h)

theorem low_cons_of_not_lt {swap_base : ℕ} (h : ¬ (t.block s).base < swap_base) : t.low swap_base (s :: xs) = [] :=
  List.takeWhile_cons_of_neg fun hs => h (of_decide_eq_true hs)

/-- The first of the longest of these holes that are long enough, with the one ahead of it. -/
def Biggest (t : Table N) (clicks : ℕ) (low : List (Fin N)) : Option (Option (Fin N) × Fin N) → Prop
  | none => ∀ s ∈ low, (t.block s).len < clicks
  | some r => ∃ pre post, low = pre ++ r.2 :: post ∧ r.1 = pre.getLast? ∧ clicks ≤ (t.block r.2).len ∧
      (∀ s ∈ pre, (t.block s).len < (t.block r.2).len) ∧ ∀ s ∈ post, (t.block s).len ≤ (t.block r.2).len

def better (t : Table N) (clicks : ℕ) (best : Option (Option (Fin N) × Fin N)) (s : Fin N) : Bool :=
  clicks ≤ (t.hole s).h_len && best.all fun b => (t.hole b.2).h_len < (t.hole s).h_len

theorem Biggest.next {clicks : ℕ} {low : List (Fin N)} {best : Option (Option (Fin N) × Fin N)}
    (h : Biggest t clicks low best) (s : Fin N) :
    Biggest t clicks (low ++ [s]) (if better t clicks best s then some (low.getLast?,s) else best) := by
  cases best with
  | none =>
    by_cases hfits : clicks ≤ (t.block s).len
    · have hbetter : better t clicks none s = true := by
        rw [better, Option.all_none, Bool.and_true]
        exact decide_eq_true hfits
      rw [if_pos hbetter]
      exact ⟨low,[],rfl,rfl,hfits,fun r hr => (h r hr).trans_le hfits,by simp⟩
    · have hbetter : ¬ better t clicks none s = true := by
        rw [better, Bool.and_eq_true]
        exact fun hb => hfits (of_decide_eq_true hb.1)
      rw [if_neg hbetter]
      intro r hr
      rcases List.mem_append.mp hr with hr | hr
      · exact h r hr
      · rw [List.mem_singleton.mp hr]
        exact Nat.lt_of_not_le hfits
  | some best =>
    obtain ⟨pre,post,rfl,hprev,hfits,hpre,hpost⟩ := h
    by_cases hlonger : (t.block best.2).len < (t.block s).len
    · have hbetter : better t clicks (some best) s = true := by
        rw [better, Bool.and_eq_true]
        exact ⟨decide_eq_true (hfits.trans hlonger.le),decide_eq_true hlonger⟩
      rw [if_pos hbetter]
      refine ⟨_,[],rfl,rfl,hfits.trans hlonger.le,fun r hr => ?_,by simp⟩
      rcases List.mem_append.mp hr with hr | hr
      · exact (hpre r hr).trans hlonger
      rcases List.mem_cons.mp hr with rfl | hr
      · exact hlonger
      · exact (hpost r hr).trans_lt hlonger
    · have hbetter : ¬ better t clicks (some best) s = true := by
        rw [better, Bool.and_eq_true]
        exact fun hb => hlonger (of_decide_eq_true hb.2)
      rw [if_neg hbetter]
      refine ⟨pre,post ++ [s],by simp,hprev,hfits,hpre,fun r hr => ?_⟩
      rcases List.mem_append.mp hr with hr | hr
      · exact hpost r hr
      · rw [List.mem_singleton.mp hr]
        exact Nat.le_of_not_lt hlonger

theorem biggestFrom_biggest (swap_base : ℕ) {clicks fuel : ℕ} {b : Option (Fin N)} {front : List (Fin N)}
    {best : Option (Option (Fin N) × Fin N)} (hbest : Biggest t clicks front best) (h : Seg some t.next b xs none)
    (hfuel : xs.length < fuel) :
    ∃ r, biggestFrom t swap_base clicks fuel best front.getLast? b = .ok r ∧
      Biggest t clicks (front ++ t.low swap_base xs) r := by
  induction xs generalizing b fuel front best with
  | nil =>
    obtain ⟨fuel,rfl⟩ : ∃ n, fuel = n + 1 := ⟨fuel - 1,by omega⟩
    obtain rfl : b = none := h
    refine ⟨best,rfl,?_⟩
    rwa [Table.low, List.takeWhile_nil, List.append_nil]
  | cons x xs ih =>
    obtain ⟨fuel,rfl⟩ : ∃ n, fuel = n + 1 := ⟨fuel - 1,by omega⟩
    obtain ⟨rfl,hrest⟩ := h
    by_cases hbelow : (t.hole x).h_base < swap_base
    · obtain ⟨r,hloop,hr⟩ := ih (hbest.next x) hrest (show xs.length < fuel by simp at hfuel; omega)
      refine ⟨r,?_,?_⟩
      · rw [List.getLast?_concat] at hloop
        rw [biggestFrom, if_pos hbelow]
        exact hloop
      · rw [List.append_assoc] at hr
        rwa [low_cons_of_lt hbelow]
    · refine ⟨best,by rw [biggestFrom, if_neg hbelow],?_⟩
      rwa [low_cons_of_not_lt hbelow, List.append_nil]

theorem low_begins (t : Table N) (swap_base : ℕ) (xs : List (Fin N)) : t.low swap_base xs <+: xs :=
  List.takeWhile_prefix _

theorem base_lt_of_mem_low {swap_base : ℕ} (h : s ∈ t.low swap_base xs) : (t.block s).base < swap_base :=
  of_decide_eq_true (List.all_eq_true.mp List.all_takeWhile s h)

theorem firstFit_split (h : Slots t xs ys) (swap_base clicks : ℕ) :
    (firstFit t swap_base clicks = .ok none ∧ ∀ s ∈ t.low swap_base xs, (t.block s).len < clicks) ∨
    ∃ pre hp post, xs = pre ++ hp :: post ∧ firstFit t swap_base clicks = .ok (some (pre.getLast?,hp)) ∧
      hp ∈ t.low swap_base xs ∧ clicks ≤ (t.block hp).len := by
  have hlow : xs.takeWhile (fun s => !decide (swap_base ≤ (t.hole s).h_base)) = t.low swap_base xs := by
    apply congrArg (fun p => xs.takeWhile p)
    funext s
    rw [← decide_not]
    exact decide_eq_decide.mpr Nat.not_le
  have hsplit := search_split (fun h => swap_base ≤ h.h_base) (fun h => clicks ≤ h.h_len) none h.holes h.length_le
  rw [hlow] at hsplit
  rcases hsplit with ⟨hnone,hall⟩ | ⟨pre,hp,post,hxs,hsome,hmem,hfits⟩
  · exact Or.inl ⟨hnone,fun s hs => Nat.lt_of_not_le (of_decide_eq_false (hall s hs))⟩
  · rw [Option.or_none] at hsome
    exact Or.inr ⟨pre,hp,post,hxs,hsome,hmem,of_decide_eq_true hfits⟩

theorem findBiggestHole_biggest (h : Slots t xs ys) (swap_base clicks : ℕ) :
    ∃ r, findBiggestHole t swap_base clicks = .ok r ∧ Biggest t clicks (t.low swap_base xs) r := by
  have hempty : Biggest t clicks [] none := by
    intro s hs
    cases hs
  exact biggestFrom_biggest swap_base hempty h.holes h.length_le

theorem Biggest.split {swap_base clicks : ℕ} {p : Option (Fin N)} (h : Biggest t clicks (t.low swap_base xs) (some (p,hp))) :
    ∃ pre post, xs = pre ++ hp :: post ∧ p = pre.getLast? := by
  obtain ⟨pre,post,hlow,hprev,-⟩ := h
  obtain ⟨rest,hrest⟩ := low_begins t swap_base xs
  refine ⟨pre,post ++ rest,?_,hprev⟩
  rw [← hrest, hlow, List.append_assoc, List.cons_append]

end SOI.Memory

import SOI.Memory.FreeClicks
import Mathlib.Logic.Relation

/-! # Allocating with swapping out

A process is swapped out by allocating in the swap area and freeing its memory.
Each of these moves keeps the clicks shared out, and there are at most as many of
them during one allocation as there are processes that can be moved.
-/
namespace SOI.Memory
open Linked Intervals
variable {NR_PROCS LOW_USER clicks : ℕ} {all : Finset ℕ} {m m' : Manager NR_PROCS}

def MProc.range (p : MProc) : Block := ⟨p.D.mem_phys,p.size⟩

/-- The processes whose memory `swap_out` may move. -/
def Swappable (LOW_USER : ℕ) (m : Manager NR_PROCS) (r : ℕ) : Prop :=
  LOW_USER ≤ r ∧ r < NR_PROCS ∧ (m.mproc r).candidate = true

instance (m : Manager NR_PROCS) : DecidablePred (Swappable LOW_USER m) :=
  fun _ => inferInstanceAs (Decidable (_ ∧ _ ∧ _))

/-- Each of them owns a live block of its own, unless its memory is empty. -/
structure Owns (LOW_USER : ℕ) (m : Manager NR_PROCS) : Prop where
  live : ∀ r, Swappable LOW_USER m r → (m.mproc r).size ≠ 0 → (m.mproc r).range ∈ m.live
  apart : ∀ r s, Swappable LOW_USER m r → Swappable LOW_USER m s → (m.mproc r).size ≠ 0 →
    (m.mproc r).range = (m.mproc s).range → r = s

/-- The invariant of the memory manager, `all` being the clicks that exist. -/
structure Good (LOW_USER : ℕ) (all : Finset ℕ) (m : Manager NR_PROCS) : Prop where
  frame : Frame all m.swap_base
  healthy : Healthy all m.table m.live
  outswap_ge : LOW_USER ≤ m.outswap
  outswap_lt : m.outswap < NR_PROCS

theorem swappable_moved {r s new_base : ℕ} {t : Table (2 * NR_PROCS)} :
    Swappable LOW_USER (moved m r new_base t) s ↔ s ≠ r ∧ Swappable LOW_USER m s := by
  by_cases hs : s = r
  · subst hs
    simp [Swappable, moved, MProc.candidate]
  · simp [Swappable, moved, hs]

theorem Owns.moved (h : Owns LOW_USER m) {r new_base : ℕ} {t : Table (2 * NR_PROCS)}
    (hr : Swappable LOW_USER m r) : Owns LOW_USER (moved m r new_base t) := by
  have hother : ∀ s, s ≠ r → (SOI.Memory.moved m r new_base t).mproc s = m.mproc s :=
    fun s hs => Function.update_of_ne hs _ _
  refine ⟨fun s hs hsize => ?_,fun s u hs hu hsize heq => ?_⟩
  · obtain ⟨hsr,hs⟩ := swappable_moved.mp hs
    rw [hother s hsr] at hsize ⊢
    have hlive := h.live s hs hsize
    refine List.mem_append_right _ ((List.mem_erase_of_ne fun heq => hsr ?_).mpr hlive)
    exact h.apart s r hs hr hsize heq
  · obtain ⟨hsr,hs⟩ := swappable_moved.mp hs
    obtain ⟨hur,hu⟩ := swappable_moved.mp hu
    rw [hother s hsr] at hsize heq
    rw [hother u hur] at heq
    exact h.apart s u hs hu hsize heq

theorem swapTo_eq (m : Manager NR_PROCS) (rmp : ℕ) (prev_ptr : Option (Fin (2 * NR_PROCS)))
    (hp : Fin (2 * NR_PROCS)) : swapTo m rmp prev_ptr hp =
      (biteOff m.table prev_ptr hp (m.mproc rmp).size).bind fun r =>
        (free_mem r.2 (m.mproc rmp).D.mem_phys (m.mproc rmp).size).map fun t => moved m rmp r.1 t := by
  unfold swapTo
  show (biteOff m.table prev_ptr hp (m.mproc rmp).size).bind _ = _
  apply congrArg (Except.bind _)
  funext r
  show (free_mem r.2 (m.mproc rmp).D.mem_phys (m.mproc rmp).size).bind _ = _
  cases free_mem r.2 (m.mproc rmp).D.mem_phys (m.mproc rmp).size <;> rfl

theorem Good.swapTo (h : Good LOW_USER all m) (hown : Owns LOW_USER m) {r : ℕ} (hr : Swappable LOW_USER m r)
    {ys pre post : List (Fin (2 * NR_PROCS))} {hp : Fin (2 * NR_PROCS)}
    (hslots : Slots m.table (pre ++ hp :: post) ys) (hsize : (m.mproc r).size ≤ (m.table.block hp).len) :
    swapTo m r pre.getLast? hp = .error (.panic "Hole table full") ∨
      ∃ t, swapTo m r pre.getLast? hp = .ok (moved m r (m.table.block hp).base t) ∧
        Good LOW_USER all (moved m r (m.table.block hp).base t) := by
  obtain ⟨t₁,hbite,hsub,-,hhealthy⟩ := h.healthy.biteOff h.frame hslots hsize
  have hfreed : free_mem t₁ (m.mproc r).D.mem_phys (m.mproc r).size = .error (.panic "Hole table full") ∨
      ∃ t₂, free_mem t₁ (m.mproc r).D.mem_phys (m.mproc r).size = .ok t₂ ∧
        Healthy all t₂ (owned (m.table.block hp).base (m.mproc r).size ++ m.live.erase (m.mproc r).range) := by
    by_cases hzero : (m.mproc r).size = 0
    · refine Or.inr ⟨t₁,by rw [free_mem, if_pos hzero],?_⟩
      rwa [List.erase_of_not_mem]
      intro hmem
      exact (h.healthy.shared.pos _ hmem).ne' hzero
    · have hlive := hown.live r hr hzero
      have hnew : (m.mproc r).range ∉ owned (m.table.block hp).base (m.mproc r).size := by
        rw [owned, if_neg hzero, List.mem_singleton]
        intro heq
        refine h.healthy.shared.notMem ?_ hlive
        rw [heq]
        exact hsub
      rcases hhealthy.free_mem h.frame (List.mem_append_right _ hlive) with hpanic | ⟨t₂,hfree,-,ht₂⟩
      · exact Or.inl hpanic
      · rw [List.erase_append_right _ hnew] at ht₂
        exact Or.inr ⟨t₂,hfree,ht₂⟩
  rw [swapTo_eq, hbite]
  rcases hfreed with hpanic | ⟨t₂,hfree,ht₂⟩
  · left
    simp only [Except.bind, hpanic, Except.map]
  · refine Or.inr ⟨t₂,?_,h.frame,ht₂,hr.1,hr.2.1⟩
    simp only [Except.bind, hfree, Except.map]

theorem swapHole_split {t : Table (2 * NR_PROCS)} {xs ys : List (Fin (2 * NR_PROCS))} (h : Slots t xs ys)
    (swap_base size : ℕ) : swapHole t swap_base size = .ok none ∨ ∃ pre hp post, xs = pre ++ hp :: post ∧
      swapHole t swap_base size = .ok (some (pre.getLast?,hp)) ∧ swap_base ≤ (t.block hp).base ∧
        size ≤ (t.block hp).len := by
  rcases search_split (fun _ => false) (fun h => swap_base ≤ h.h_base && size ≤ h.h_len) none h.holes h.length_le with
    ⟨hnone,-⟩ | ⟨pre,hp,post,hxs,hsome,-,hfits⟩
  · exact Or.inl hnone
  · rw [Bool.and_eq_true, decide_eq_true_eq, decide_eq_true_eq] at hfits
    rw [Option.or_none] at hsome
    exact Or.inr ⟨pre,hp,post,hxs,hsome,hfits.1,hfits.2⟩

def turns (LOW_USER outswap NR_PROCS r : ℕ) : ℕ :=
  if r < outswap then outswap - r else NR_PROCS - r + (outswap - LOW_USER)

theorem swapFrom_turn (m : Manager NR_PROCS) {fuel r s : ℕ} (hs : (if r + 1 = NR_PROCS then LOW_USER else r + 1) = s) :
    swapFrom LOW_USER m (fuel + 1) r =
      (if (m.mproc s).candidate then swapHole m.table m.swap_base (m.mproc s).size else .ok none).bind fun hole =>
        hole.elim (if s ≠ m.outswap then swapFrom LOW_USER m fuel s else .ok (false,m)) fun hole =>
          (swapTo m s hole.1 hole.2).map (true,·) := by
  simp only [swapFrom, hs]
  by_cases hcand : (m.mproc s).candidate = true
  · rw [if_pos hcand, if_pos hcand]
    cases swapHole m.table m.swap_base (m.mproc s).size with
    | error e => rfl
    | ok hole => cases hole <;> rfl
  · rw [if_neg hcand, if_neg hcand]
    rfl

/-- The loop finds nobody, or moves a process into a hole that is big enough. -/
theorem swapFrom_cases {xs ys : List (Fin (2 * NR_PROCS))} (hslots : Slots m.table xs ys)
    (hout' : LOW_USER ≤ m.outswap) (hout : m.outswap < NR_PROCS) {fuel r : ℕ} (hge : LOW_USER ≤ r) (hlt : r < NR_PROCS)
    (hfuel : turns LOW_USER m.outswap NR_PROCS r ≤ fuel) :
    swapFrom LOW_USER m fuel r = .ok (false,m) ∨ ∃ s pre hp post, Swappable LOW_USER m s ∧ xs = pre ++ hp :: post ∧
      m.swap_base ≤ (m.table.block hp).base ∧ (m.mproc s).size ≤ (m.table.block hp).len ∧
      swapFrom LOW_USER m fuel r = (swapTo m s pre.getLast? hp).map (true,·) := by
  induction fuel generalizing r with
  | zero =>
    unfold turns at hfuel
    split at hfuel <;> omega
  | succ fuel ih =>
    generalize hs : (if r + 1 = NR_PROCS then LOW_USER else r + 1) = s
    have hs' : LOW_USER ≤ s ∧ s < NR_PROCS ∧ (s ≠ m.outswap → turns LOW_USER m.outswap NR_PROCS s ≤ fuel) := by
      unfold turns at hfuel ⊢
      subst hs
      split at hfuel <;> split <;> refine ⟨by omega,by omega,fun _ => ?_⟩ <;> split <;> omega
    obtain ⟨hsge,hslt,hturns⟩ := hs'
    let next := if s ≠ m.outswap then swapFrom LOW_USER m fuel s else .ok (false,m)
    have hnext : next = .ok (false,m) ∨ ∃ s pre hp post, Swappable LOW_USER m s ∧ xs = pre ++ hp :: post ∧
        m.swap_base ≤ (m.table.block hp).base ∧ (m.mproc s).size ≤ (m.table.block hp).len ∧
          next = (swapTo m s pre.getLast? hp).map (true,·) := by
      by_cases hends : s ≠ m.outswap
      · simp only [next, if_pos hends]
        exact ih hsge hslt (hturns hends)
      · exact Or.inl (if_neg hends)
    rw [swapFrom_turn m hs]
    by_cases hcand : (m.mproc s).candidate = true
    · rw [if_pos hcand]
      rcases swapHole_split hslots m.swap_base (m.mproc s).size with hnone | ⟨pre,hp,post,hxs,hsome,harea,hsize⟩
      · rw [hnone]
        exact hnext
      · rw [hsome]
        exact Or.inr ⟨s,pre,hp,post,⟨hsge,hslt,hcand⟩,hxs,harea,hsize,rfl⟩
    · rw [if_neg hcand]
      exact hnext

theorem swap_out_cases {xs ys : List (Fin (2 * NR_PROCS))} (hslots : Slots m.table xs ys)
    (hge : LOW_USER ≤ m.outswap) (hlt : m.outswap < NR_PROCS) :
    swap_out LOW_USER m = .ok (false,m) ∨ ∃ s pre hp post, Swappable LOW_USER m s ∧ xs = pre ++ hp :: post ∧
      m.swap_base ≤ (m.table.block hp).base ∧ (m.mproc s).size ≤ (m.table.block hp).len ∧
      swap_out LOW_USER m = (swapTo m s pre.getLast? hp).map (true,·) := by
  refine swapFrom_cases hslots hge hlt hge hlt ?_
  rw [turns, if_neg (lt_irrefl _)]
  omega

/-- Swapping out finds nobody, or moves one process. -/
theorem Good.swap_out (h : Good LOW_USER all m) (hown : Owns LOW_USER m) :
    swap_out LOW_USER m = .ok (false,m) ∨ swap_out LOW_USER m = .error (.panic "Hole table full") ∨
      ∃ s new_base t, Swappable LOW_USER m s ∧ swap_out LOW_USER m = .ok (true,moved m s new_base t) ∧
        Good LOW_USER all (moved m s new_base t) := by
  obtain ⟨xs,ys,hslots⟩ := h.healthy.slots
  rcases swap_out_cases hslots h.outswap_ge h.outswap_lt with hnone | ⟨s,pre,hp,post,hswap,rfl,-,hsize,hout⟩
  · exact Or.inl hnone
  · right
    rw [hout]
    rcases h.swapTo hown hswap hslots hsize with hpanic | ⟨t,hto,hgood⟩
    · exact Or.inl (by rw [hpanic]; rfl)
    · exact Or.inr ⟨s,_,t,hswap,by rw [hto]; rfl,hgood⟩

def SwappedOut (LOW_USER : ℕ) : Manager NR_PROCS → Manager NR_PROCS → Prop :=
  Relation.ReflTransGen fun m m' => swap_out LOW_USER m = .ok (true,m')

theorem SwappedOut.good (hs : SwappedOut LOW_USER m m') (h : Good LOW_USER all m) (hown : Owns LOW_USER m) :
    Good LOW_USER all m' ∧ Owns LOW_USER m' := by
  induction hs with
  | refl => exact ⟨h,hown⟩
  | tail hprev hstep ih =>
    obtain ⟨hgood,howns⟩ := ih
    rcases hgood.swap_out howns with hout | hout | ⟨s,new_base,t,hs,hout,hmoved⟩
    · rw [hout] at hstep
      cases hstep
    · rw [hout] at hstep
      cases hstep
    · rw [hout] at hstep
      cases hstep
      exact ⟨hmoved,howns.moved hs⟩

theorem allocLoop_take {fuel : ℕ} {prev_ptr : Option (Fin (2 * NR_PROCS))} {hp : Fin (2 * NR_PROCS)}
    (h : chooseHole m clicks = .ok (some (prev_ptr,hp))) :
    allocLoop LOW_USER clicks (fuel + 1) m = (biteOff m.table prev_ptr hp clicks).map fun r =>
      (some r.1,{ m with table := r.2, live := owned r.1 clicks ++ m.live }) := by
  rw [allocLoop, h]
  rfl

theorem allocLoop_swap {fuel : ℕ} (h : chooseHole m clicks = .ok none) :
    allocLoop LOW_USER clicks (fuel + 1) m = (swap_out LOW_USER m).bind fun r =>
      if r.1 then allocLoop LOW_USER clicks fuel r.2 else .ok (none,r.2) := by
  rw [allocLoop, h]
  cases swap_out LOW_USER m with
  | error e => rfl
  | ok r =>
    obtain ⟨swapped,m'⟩ := r
    cases swapped <;> rfl

/-- Either policy finds a hole below the swap area that is big enough, if there is one. -/
theorem chooseHole_split {xs ys : List (Fin (2 * NR_PROCS))} (h : Slots m.table xs ys) (clicks : ℕ) :
    (chooseHole m clicks = .ok none ∧ ∀ s ∈ m.table.low m.swap_base xs, (m.table.block s).len < clicks) ∨
    ∃ pre hp post, xs = pre ++ hp :: post ∧ chooseHole m clicks = .ok (some (pre.getLast?,hp)) ∧
      hp ∈ m.table.low m.swap_base xs ∧ clicks ≤ (m.table.block hp).len := by
  rw [chooseHole]
  split
  · exact firstFit_split h m.swap_base clicks
  · obtain ⟨r,hbiggest,hr⟩ := findBiggestHole_biggest h m.swap_base clicks
    rcases r with _ | ⟨p,hp⟩
    · exact Or.inl ⟨hbiggest,hr⟩
    · obtain ⟨pre,post,hxs,rfl⟩ := hr.split
      obtain ⟨pre',post',hlow,-,hfits,-⟩ := hr
      exact Or.inr ⟨pre,hp,post,hxs,hbiggest,by rw [hlow]; simp,hfits⟩

/-- A successful allocation of `clicks` at `base`: the clicks were free, they are
removed from the holes and make up a new live block. -/
structure Takes (m : Manager NR_PROCS) (base clicks : ℕ) (m' : Manager NR_PROCS) : Prop where
  was_free : Finset.Ico base (base + clicks) ⊆ cover m.table.holes
  unowned : Disjoint (Finset.Ico base (base + clicks)) (cover m.live)
  below : base + clicks < m.swap_base
  removed : cover m'.table.holes = cover m.table.holes \ Finset.Ico base (base + clicks)
  handed_out : m'.live = owned base clicks ++ m.live
  frame : m'.mproc = m.mproc ∧ m'.swap_base = m.swap_base ∧ m'.outswap = m.outswap

theorem Good.take (h : Good LOW_USER all m) {ys pre post : List (Fin (2 * NR_PROCS))} {hp : Fin (2 * NR_PROCS)}
    (hslots : Slots m.table (pre ++ hp :: post) ys) (hbelow : (m.table.block hp).base < m.swap_base)
    (hclicks : clicks ≤ (m.table.block hp).len) :
    ∃ t, biteOff m.table pre.getLast? hp clicks = .ok ((m.table.block hp).base,t) ∧
      let m' := { m with table := t, live := owned (m.table.block hp).base clicks ++ m.live }
      Good LOW_USER all m' ∧ Takes m (m.table.block hp).base clicks m' := by
  obtain ⟨t,hbite,hsub,hcover,hhealthy⟩ := h.healthy.biteOff h.frame hslots hclicks
  refine ⟨t,hbite,⟨h.frame,hhealthy,h.outswap_ge,h.outswap_lt⟩,hsub,?_,?_,hcover,rfl,rfl,rfl,rfl⟩
  · exact h.healthy.shared.disjoint.mono_left hsub
  · have hmem : m.table.block hp ∈ m.table.holes := by
      rw [hslots.holes_eq]
      exact List.mem_map_of_mem (by simp)
    have hstop := h.healthy.stop_lt h.frame hmem hbelow
    unfold Block.stop at hstop
    omega

/-- The number of processes that can still be swapped out. -/
def swappables (LOW_USER : ℕ) (m : Manager NR_PROCS) : ℕ :=
  ((Finset.range NR_PROCS).filter (Swappable LOW_USER m)).card

theorem swappables_moved {s new_base : ℕ} {t : Table (2 * NR_PROCS)} (hs : Swappable LOW_USER m s) :
    swappables LOW_USER (moved m s new_base t) < swappables LOW_USER m := by
  refine Finset.card_lt_card (Finset.ssubset_iff_subset_ne.mpr ⟨fun r hr => ?_,fun heq => ?_⟩)
  · rw [Finset.mem_filter] at hr ⊢
    exact ⟨hr.1,(swappable_moved.mp hr.2).2⟩
  · have hmem : s ∈ (Finset.range NR_PROCS).filter (Swappable LOW_USER m) :=
      Finset.mem_filter.mpr ⟨Finset.mem_range.mpr hs.2.1,hs⟩
    rw [← heq, Finset.mem_filter] at hmem
    exact (swappable_moved.mp hmem.2).1 rfl

/-- Every turn of the loop of `alloc_mem` but the last swaps a process out. -/
theorem Good.allocLoop (h : Good LOW_USER all m) (hown : Owns LOW_USER m) (clicks : ℕ) {fuel : ℕ}
    (hfuel : swappables LOW_USER m < fuel) :
    allocLoop LOW_USER clicks fuel m = .error (.panic "Hole table full") ∨
      ∃ m₁, SwappedOut LOW_USER m m₁ ∧ (allocLoop LOW_USER clicks fuel m = .ok (none,m₁) ∨
        ∃ base m₂, allocLoop LOW_USER clicks fuel m = .ok (some base,m₂) ∧
          Good LOW_USER all m₂ ∧ Takes m₁ base clicks m₂) := by
  induction fuel generalizing m with
  | zero => omega
  | succ fuel ih =>
    obtain ⟨xs,ys,hslots⟩ := h.healthy.slots
    rcases chooseHole_split hslots clicks with ⟨hnone,-⟩ | ⟨pre,hp,post,rfl,hsome,hlow,hclicks⟩
    · rw [allocLoop_swap hnone]
      rcases h.swap_out hown with hout | hout | ⟨s,new_base,t,hs,hout,hgood⟩
      · rw [hout]
        exact Or.inr ⟨m,.refl,Or.inl rfl⟩
      · rw [hout]
        exact Or.inl rfl
      · have hfewer : swappables LOW_USER (moved m s new_base t) < swappables LOW_USER m := swappables_moved hs
        rw [hout]
        rcases ih hgood (hown.moved hs) (by omega) with hpanic | ⟨m₁,hswapped,hres⟩
        · exact Or.inl hpanic
        · exact Or.inr ⟨m₁,Relation.ReflTransGen.head hout hswapped,hres⟩
    · obtain ⟨t,hbite,hgood,htakes⟩ := h.take hslots (base_lt_of_mem_low hlow) hclicks
      refine Or.inr ⟨m,.refl,Or.inr ⟨_,_,?_,hgood,htakes⟩⟩
      rw [allocLoop_take hsome, hbite]
      rfl

theorem swappables_le (LOW_USER : ℕ) (m : Manager NR_PROCS) : swappables LOW_USER m ≤ NR_PROCS :=
  (Finset.card_filter_le _ _).trans_eq (Finset.card_range NR_PROCS)

/-- `alloc_mem` ends, and stops only for want of a slot. -/
theorem Good.alloc_mem (h : Good LOW_USER all m) (hown : Owns LOW_USER m) (NO_MEM clicks : ℕ) :
    alloc_mem NO_MEM LOW_USER clicks m = .error (.panic "Hole table full") ∨
      ∃ m₁, SwappedOut LOW_USER m m₁ ∧ (alloc_mem NO_MEM LOW_USER clicks m = .ok (NO_MEM,m₁) ∨
        ∃ base m₂, alloc_mem NO_MEM LOW_USER clicks m = .ok (base,m₂) ∧
          Good LOW_USER all m₂ ∧ Takes m₁ base clicks m₂) := by
  rw [SOI.Memory.alloc_mem]
  rcases h.allocLoop hown clicks (Nat.lt_succ_of_le (swappables_le LOW_USER m)) with
    hpanic | ⟨m₁,hswapped,hnone | ⟨base,m₂,hsome,htaken⟩⟩
  · exact Or.inl (by rw [hpanic]; rfl)
  · exact Or.inr ⟨m₁,hswapped,Or.inl (by rw [hnone]; rfl)⟩
  · exact Or.inr ⟨m₁,hswapped,Or.inr ⟨base,m₂,by rw [hsome]; rfl,htaken⟩⟩

end SOI.Memory

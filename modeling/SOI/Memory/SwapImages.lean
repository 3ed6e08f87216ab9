import SOI.Memory.SwapQueue
import SOI.Memory.Conservation

/-! # Swapping keeps what the processes hold

A process is moved by copying its block to one that was free and freeing its own. Its
image is read through its map, so it stays the same wherever the process lies.
-/
namespace SOI.Memory
open Linked Intervals Copies Runs
variable {α : Type} {NR_PROCS LOW_USER size : ℕ} {all : Finset ℕ} {m m' : Manager NR_PROCS} {used : ℕ → Bool}
  {w w' w₁ : Swapper NR_PROCS α} {rw_seg : RwSeg α} {b : Block} {r s rmp new_base clicks : ℕ}
  {t : Table (2 * NR_PROCS)}

/-- A click by its address: those from `swap_base` on are in the file. -/
def Swapper.click (w : Swapper NR_PROCS α) (n : ℕ) : α :=
  if w.manager.swap_base ≤ n then w.clicks.file (n - w.manager.swap_base) else w.clicks.memory n

def Swapper.image (w : Swapper NR_PROCS α) (r : ℕ) : List α := contents w.click (w.manager.mproc r).range

/-- The processes in use have live blocks of their own, in the swap area just while they
are swapped out, and nothing else lies in the swap area. -/
structure Housed (LOW_USER : ℕ) (used : ℕ → Bool) (m : Manager NR_PROCS) : Prop where
  user : ∀ r, used r = true → LOW_USER ≤ r ∧ r < NR_PROCS
  live : ∀ r, used r = true → (m.mproc r).range ∈ m.live
  apart : ∀ r s, used r = true → used s = true → (m.mproc r).range = (m.mproc s).range → r = s
  unused : ∀ r, used r = false → (m.mproc r).candidate = false ∧ (m.mproc r).ONSWAP = false
  onswap : ∀ r, used r = true → ((m.mproc r).ONSWAP = true ↔ m.swap_base ≤ (m.mproc r).D.mem_phys)
  swapped : ∀ b ∈ m.live, m.swap_base ≤ b.base → ∃ r, used r = true ∧ (m.mproc r).range = b

theorem Housed.used_of_swappable (h : Housed LOW_USER used m) (hr : Swappable LOW_USER m r) : used r = true := by
  by_contra hno
  exact Bool.noConfusion ((h.unused r (by simpa using hno)).1.symm.trans hr.2.2)

theorem Housed.owns (h : Housed LOW_USER used m) : Owns LOW_USER m :=
  ⟨fun r hr _ => h.live r (h.used_of_swappable hr),
    fun r s hr hs _ heq => h.apart r s (h.used_of_swappable hr) (h.used_of_swappable hs) heq⟩

theorem Housed.below (h : Housed LOW_USER used m) (hr : Swappable LOW_USER m r) : (m.mproc r).D.mem_phys < m.swap_base := by
  have hcand := hr.2.2
  rw [MProc.candidate, Bool.and_eq_true, Bool.not_eq_true', Bool.or_eq_false_iff] at hcand
  by_contra hle
  exact Bool.noConfusion (hcand.2.2.symm.trans ((h.onswap r (h.used_of_swappable hr)).mpr (not_lt.mp hle)))

theorem Good.live_points (h : Good LOW_USER all m) (hb : b ∈ m.live) : b.points ⊆ all := by
  rw [← h.healthy.shared.union]
  exact (points_subset hb).trans Finset.subset_union_right

theorem Good.live_stop_le (h : Good LOW_USER all m) (hb : b ∈ m.live) : b.stop ≤ 2 ^ 32 :=
  h.frame.stop_le (h.healthy.shared.pos b hb) (h.live_points hb)

theorem Good.live_stop_lt (h : Good LOW_USER all m) (hb : b ∈ m.live) (hbelow : b.base < m.swap_base) :
    b.stop < m.swap_base := by
  by_contra hlt
  refine h.frame.gap (h.live_points hb (mem_points.mpr ?_))
  have hpos := h.healthy.shared.pos b hb
  unfold Block.stop at *
  omega

theorem Good.live_apart (h : Good LOW_USER all m) {c : Block} (hb : b ∈ m.live) (hc : c ∈ m.live) (hne : b ≠ c) :
    Disjoint b.points c.points :=
  @List.Pairwise.forall _ (fun x y : Block => Disjoint x.points y.points) _ ⟨fun _ _ hxy => hxy.symm⟩
    h.healthy.shared.apart _ hb _ hc hne

theorem not_disjoint_self (hpos : 0 < b.len) : ¬ Disjoint b.points b.points := by
  rw [disjoint_self, Finset.bot_eq_empty]
  intro hempty
  have hmem : b.base ∈ b.points := mem_points.mpr ⟨le_rfl,by unfold Block.stop; omega⟩
  rw [hempty] at hmem
  cases hmem

theorem search_fits {t : Table r} {stop fits : Hole r → Bool} {fuel : ℕ} {prev b : Option (Fin r)}
    {found : Option (Fin r) × Fin r} (h : search t stop fits fuel prev b = .ok (some found)) : fits (t.hole found.2) = true := by
  induction fuel generalizing prev b with
  | zero => cases h
  | succ fuel ih =>
    cases b with
    | none => cases h
    | some hp =>
      rw [search] at h
      split at h
      · cases h
      · split at h
        · next hfits =>
          cases h
          exact hfits
        · exact ih h

theorem biteOff_base {N : ℕ} {t : Table N} {prev_ptr : Option (Fin N)} {hp : Fin N} {n : ℕ} {res : ℕ × Table N}
    (h : biteOff t prev_ptr hp n = .ok res) : res.1 = (t.hole hp).h_base := by
  rw [biteOff] at h
  split at h
  · cases hdel : del_slot (t.setBlock hp (wrap ((t.hole hp).h_base + n)) ((t.hole hp).h_len - n)) prev_ptr hp with
    | error e =>
      rw [hdel] at h
      cases h
    | ok t' =>
      rw [hdel] at h
      cases h
      rfl
  · cases h
    rfl

theorem swapTo_base {prev_ptr : Option (Fin (2 * NR_PROCS))} {hp : Fin (2 * NR_PROCS)}
    (h : swapTo m s prev_ptr hp = .ok m') : (m'.mproc m'.outswap).D.mem_phys = (m.table.hole hp).h_base := by
  rw [swapTo_eq] at h
  cases hbite : biteOff m.table prev_ptr hp (m.mproc s).size with
  | error e =>
    rw [hbite] at h
    cases h
  | ok res =>
    rw [hbite] at h
    cases hfree : free_mem res.2 (m.mproc s).D.mem_phys (m.mproc s).size with
    | error e =>
      rw [Except.bind, hfree] at h
      cases h
    | ok t =>
      rw [Except.bind, hfree] at h
      cases h
      rw [← biteOff_base hbite]
      simp [moved]

theorem swapFrom_above {fuel : ℕ} (h : swapFrom LOW_USER m fuel r = .ok (true,m')) :
    m.swap_base ≤ (m'.mproc m'.outswap).D.mem_phys := by
  induction fuel generalizing r with
  | zero => cases h
  | succ fuel ih =>
    rw [swapFrom_turn m rfl] at h
    generalize (if r + 1 = NR_PROCS then LOW_USER else r + 1) = s at h
    have hnext : (if s ≠ m.outswap then swapFrom LOW_USER m fuel s else .ok (false,m)) = .ok (true,m') →
        m.swap_base ≤ (m'.mproc m'.outswap).D.mem_phys := fun heq => by
      split at heq
      · exact ih heq
      · cases heq
    split at h
    · cases hhole : swapHole m.table m.swap_base (m.mproc s).size with
      | error e =>
        rw [hhole] at h
        cases h
      | ok found =>
        rw [hhole] at h
        cases found with
        | none => exact hnext h
        | some found =>
          have hfits := search_fits hhole
          rw [Bool.and_eq_true, decide_eq_true_eq] at hfits
          obtain ⟨m₁,hto,heq⟩ : ∃ m₁, swapTo m s found.1 found.2 = .ok m₁ ∧ (true,m₁) = (true,m') := by
            cases hto : swapTo m s found.1 found.2 with
            | error e =>
              rw [Except.bind, Option.elim, hto] at h
              cases h
            | ok m₁ =>
              rw [Except.bind, Option.elim, hto] at h
              exact ⟨m₁,rfl,Except.ok.inj h⟩
          cases heq
          rw [swapTo_base hto]
          exact hfits.1
    · exact hnext h

theorem range_moved_self : ((moved m s new_base t).mproc s).range = ⟨new_base,(m.mproc s).size⟩ := by
  simp [moved, MProc.range, MProc.size]

theorem mproc_moved_other (hr : r ≠ s) : (moved m s new_base t).mproc r = m.mproc r := Function.update_of_ne hr _ _

theorem live_moved (hpos : (m.mproc s).size ≠ 0) :
    (moved m s new_base t).live = ⟨new_base,(m.mproc s).size⟩ :: m.live.erase (m.mproc s).range := by
  simp only [moved, owned, if_neg hpos, List.singleton_append]
  rfl

/-- The memory of one process is another block now. -/
theorem Housed.relocate (h : Housed LOW_USER used m) {p : MProc} {c : Block} (hs : used s = true)
    (hmproc : m'.mproc = Function.update m.mproc s p) (hbase : m'.swap_base = m.swap_base) (hrange : p.range = c)
    (hon : p.ONSWAP = true ↔ m.swap_base ≤ p.D.mem_phys)
    (hlive : ∀ b, b ∈ m'.live ↔ b = c ∨ b ∈ m.live ∧ b ≠ (m.mproc s).range)
    (hapart : ∀ r, used r = true → r ≠ s → (m.mproc r).range ≠ c) : Housed LOW_USER used m' := by
  have hself : m'.mproc s = p := by rw [hmproc, Function.update_self]
  have hother : ∀ r, r ≠ s → m'.mproc r = m.mproc r := fun r hr => by rw [hmproc, Function.update_of_ne hr]
  refine ⟨h.user,fun r hr => ?_,fun r u hr hu heq => ?_,fun r hr => ?_,fun r hr => ?_,fun b hb hle => ?_⟩
  · by_cases hrs : r = s
    · rw [hrs, hself, hlive]
      exact Or.inl hrange
    · rw [hother r hrs, hlive]
      exact Or.inr ⟨h.live r hr,fun heq => hrs (h.apart r s hr hs heq)⟩
  · by_cases hrs : r = s
    · by_cases hus : u = s
      · rw [hrs, hus]
      · rw [hrs, hself, hother u hus, hrange] at heq
        exact absurd heq.symm (hapart u hu hus)
    · by_cases hus : u = s
      · rw [hus, hself, hother r hrs, hrange] at heq
        exact absurd heq (hapart r hr hrs)
      · rw [hother r hrs, hother u hus] at heq
        exact h.apart r u hr hu heq
  · have hrs : r ≠ s := by
      rintro rfl
      exact Bool.noConfusion (hr.symm.trans hs)
    rw [hother r hrs]
    exact h.unused r hr
  · rw [hbase]
    by_cases hrs : r = s
    · rw [hrs, hself]
      exact hon
    · rw [hother r hrs]
      exact h.onswap r hr
  · rw [hbase] at hle
    rcases (hlive b).mp hb with rfl | ⟨hold,hne⟩
    · exact ⟨s,hs,by rw [hself, hrange]⟩
    · obtain ⟨r,hr,hrb⟩ := h.swapped b hold hle
      have hrs : r ≠ s := by
        rintro rfl
        exact hne hrb.symm
      exact ⟨r,hr,by rw [hother r hrs, hrb]⟩

theorem Good.live_nodup (h : Good LOW_USER all m) : m.live.Nodup :=
  h.healthy.shared.apart.imp_of_mem fun hx _ hdisjoint heq => by
    rw [← heq] at hdisjoint
    exact not_disjoint_self (h.healthy.shared.pos _ hx) hdisjoint

theorem Housed.moved (h : Housed LOW_USER used m) (hs : Swappable LOW_USER m s) (hnew : m.swap_base ≤ new_base)
    (hold : Good LOW_USER all m) (hgood : Good LOW_USER all (moved m s new_base t)) :
    Housed LOW_USER used (SOI.Memory.moved m s new_base t) := by
  have hused := h.used_of_swappable hs
  have hsize : (m.mproc s).size ≠ 0 := (hold.healthy.shared.pos _ (h.live s hused)).ne'
  have hmem := @live_moved _ m s new_base t hsize
  refine h.relocate hused rfl rfl rfl (iff_of_true rfl hnew) (fun b => ?_) fun r hr hrs heq => ?_
  · rw [hmem, List.mem_cons, hold.live_nodup.mem_erase_iff, and_comm]
    rfl
  · -- the old blocks of the others are apart from the new one
    have hkept : (m.mproc r).range ∈ m.live.erase (m.mproc s).range :=
      (List.mem_erase_of_ne fun heq => hrs (h.apart r s hr hused heq)).mpr (h.live r hr)
    have hpair := hgood.healthy.shared.apart
    rw [hmem] at hpair
    have hdisjoint := (List.pairwise_cons.mp hpair).1 _ hkept
    rw [heq] at hdisjoint
    exact not_disjoint_self (Nat.pos_of_ne_zero hsize) hdisjoint

theorem wrapSub_eq {a b : ℕ} (hle : b ≤ a) (hlt : a < 2 ^ 32) : wrapSub a b = a - b := by
  unfold wrapSub wrap
  omega

/-- Swapping out copies from the memory to the swap area. -/
theorem click_out (hcopies : CopiesSegments rw_seg) {old n : ℕ} (hold : old + n ≤ w.manager.swap_base)
    (hnew : w.manager.swap_base ≤ new_base) (hlt : new_base < 2 ^ 32) (hbase : m.swap_base = w.manager.swap_base) :
    ({ w with manager := m, clicks := rw_seg true old (wrapSub new_base w.manager.swap_base) n w.clicks } :
      Swapper NR_PROCS α).click = copy w.click old new_base n := by
  funext k
  simp only [Swapper.click, copy, hbase, hcopies.out, wrapSub_eq hnew hlt]
  by_cases hk : w.manager.swap_base ≤ k
  · rw [if_pos hk]
    by_cases hin : new_base ≤ k ∧ k < new_base + n
    · rw [if_pos (by omega), if_pos hin, if_neg (by omega)]
      congr 1
      omega
    · rw [if_neg (by omega), if_neg hin, if_pos hk]
  · rw [if_neg hk, if_neg (by omega), if_neg hk]

/-- Swapping in copies from the swap area to the memory. -/
theorem click_back (hcopies : CopiesSegments rw_seg) {old n : ℕ} (hold : w.manager.swap_base ≤ old) (hlt : old < 2 ^ 32)
    (hnew : new_base + n ≤ w.manager.swap_base) (hbase : m.swap_base = w.manager.swap_base) :
    ({ w with manager := m, clicks := rw_seg false new_base (wrapSub old w.manager.swap_base) n w.clicks } :
      Swapper NR_PROCS α).click = copy w.click old new_base n := by
  funext k
  simp only [Swapper.click, copy, hbase, hcopies.back, wrapSub_eq hold hlt]
  by_cases hk : w.manager.swap_base ≤ k
  · rw [if_pos hk, if_neg (by omega), if_pos hk]
  · rw [if_neg hk]
    by_cases hin : new_base ≤ k ∧ k < new_base + n
    · rw [if_pos hin, if_pos hin, if_pos (by omega)]
      congr 1
      omega
    · rw [if_neg hin, if_neg hin, if_neg hk]

/-- The queue ends; whoever wants to be swapped in is on it, and on the swap file. -/
structure Queued (w : Swapper NR_PROCS α) : Prop where
  list : ∃ q, w.Queue q ∧ (∀ r ∈ q, r < NR_PROCS) ∧ (∀ r, w.SWAPIN r = true → r ∈ q) ∧ ∀ p, w.pmp = some (some p) → p ∈ q
  onswap : ∀ r, w.SWAPIN r = true → w.IN_USE r = true ∧ (w.manager.mproc r).ONSWAP = true

/-- The state of the swapping: `all` are the clicks that exist, `size` of them swap area. -/
structure Core (LOW_USER : ℕ) (all : Finset ℕ) (size : ℕ) (w : Swapper NR_PROCS α) : Prop where
  good : Good LOW_USER all w.manager
  area : ∀ n, w.manager.swap_base ≤ n → (n ∈ all ↔ n < w.manager.swap_base + size)
  off : w.swap_fd = false → size = 0
  maxsize : w.manager.swap_maxsize = 2 ^ 32 - w.manager.swap_base
  housed : Housed LOW_USER w.IN_USE w.manager
  queued : Queued w

/-- What swapping processes out keeps. -/
structure Keeps (w w' : Swapper NR_PROCS α) : Prop where
  images : ∀ r, w.IN_USE r = true → w'.image r = w.image r
  swapped : ∀ r, (w.manager.mproc r).ONSWAP = true → w'.manager.mproc r = w.manager.mproc r
  rest : w' = { w with manager := w'.manager, clicks := w'.clicks }
  base : w'.manager.swap_base = w.manager.swap_base

theorem Keeps.refl (w : Swapper NR_PROCS α) : Keeps w w := ⟨fun _ _ => rfl,fun _ _ => rfl,rfl,rfl⟩

theorem Keeps.IN_USE (h : Keeps w w') : w'.IN_USE = w.IN_USE := by rw [h.rest]

theorem Keeps.trans (h : Keeps w w₁) (h' : Keeps w₁ w') : Keeps w w' := by
  refine ⟨fun r hr => ?_,fun r hr => ?_,?_,h'.base.trans h.base⟩
  · exact (h'.images r (by rw [h.IN_USE]; exact hr)).trans (h.images r hr)
  · exact (h'.swapped r (by rw [h.swapped r hr]; exact hr)).trans (h.swapped r hr)
  · rw [h'.rest, h.rest]

theorem Queued.keeps (h : Queued w) (hkeeps : Keeps w w') : Queued w' := by
  obtain ⟨q,hq⟩ := h.list
  have hrest := hkeeps.rest
  refine ⟨⟨q,?_⟩,fun r hr => ?_⟩
  · rw [hrest]
    exact hq
  · have hr' : w.SWAPIN r = true := by
      rw [hrest] at hr
      exact hr
    obtain ⟨huse,hon⟩ := h.onswap r hr'
    rw [hkeeps.IN_USE, hkeeps.swapped r hon]
    exact ⟨huse,hon⟩

theorem Core.swap_out (hcopies : CopiesSegments rw_seg) (h : Core LOW_USER all size w) :
    w.swap_out rw_seg LOW_USER = .ok (false,w) ∨ w.swap_out rw_seg LOW_USER = .error (.panic "Hole table full") ∨
      ∃ w', w.swap_out rw_seg LOW_USER = .ok (true,w') ∧ Core LOW_USER all size w' ∧ Keeps w w' ∧
        swappables LOW_USER w'.manager < swappables LOW_USER w.manager := by
  rcases h.good.swap_out h.housed.owns with hout | hout | ⟨s,new_base,t,hs,hout,hgood⟩
  · left
    rw [Swapper.swap_out, hout]
    rfl
  · right
    left
    rw [Swapper.swap_out, hout]
    rfl
  · right
    right
    have hused := h.housed.used_of_swappable hs
    have hlive := h.housed.live s hused
    have hpos := h.good.healthy.shared.pos
    have hsize : (w.manager.mproc s).size ≠ 0 := (hpos _ hlive).ne'
    have hnew : w.manager.swap_base ≤ new_base := by
      have habove := swapFrom_above hout
      simpa [moved] using habove
    have hstop : (w.manager.mproc s).D.mem_phys + (w.manager.mproc s).size < w.manager.swap_base :=
      h.good.live_stop_lt hlive (h.housed.below hs)
    have hnewlive : (⟨new_base,(w.manager.mproc s).size⟩ : Block) ∈ (moved w.manager s new_base t).live := by
      rw [live_moved hsize]
      exact List.mem_cons_self
    have hlt : new_base < 2 ^ 32 := by
      have hle := hgood.live_stop_le hnewlive
      unfold Block.stop at hle
      dsimp only at hle
      omega
    have hhoused := h.housed.moved hs hnew h.good hgood
    let w' : Swapper NR_PROCS α := { w with
      manager := moved w.manager s new_base t
      clicks := rw_seg true (w.manager.mproc s).D.mem_phys (wrapSub new_base w.manager.swap_base) (w.manager.mproc s).size
        w.clicks }
    have hclick : w'.click = copy w.click (w.manager.mproc s).D.mem_phys new_base (w.manager.mproc s).size :=
      click_out hcopies hstop.le hnew hlt rfl
    have hkeeps : Keeps w w' := by
      refine ⟨fun r hr => ?_,fun r hr => ?_,rfl,rfl⟩
      · rw [Swapper.image, hclick, Swapper.image]
        by_cases hrs : r = s
        · rw [hrs, range_moved_self]
          exact contents_copy ..
        · have hne : (w'.manager.mproc r).range ≠ ⟨new_base,(w.manager.mproc s).size⟩ := fun heq =>
            hrs (hhoused.apart r s hr hused (heq.trans range_moved_self.symm))
          have hdisjoint := hgood.live_apart (hhoused.live r hr) hnewlive hne
          rw [show (w'.manager.mproc r).range = (w.manager.mproc r).range by rw [mproc_moved_other hrs]] at hdisjoint ⊢
          exact contents_copy_other hdisjoint
      · refine mproc_moved_other ?_
        rintro rfl
        have hcand := hs.2.2
        rw [MProc.candidate, hr, Bool.or_true, Bool.not_true, Bool.and_false] at hcand
        cases hcand
    refine ⟨w',?_,⟨hgood,h.area,h.off,h.maxsize,hhoused,h.queued.keeps hkeeps⟩,hkeeps,swappables_moved hs⟩
    rw [Swapper.swap_out, hout]
    simp [w', Except.map, moved]

def Swapper.handOut (w : Swapper NR_PROCS α) (base clicks : ℕ) (t : Table (2 * NR_PROCS)) : Swapper NR_PROCS α :=
  { w with manager := { w.manager with table := t, live := owned base clicks ++ w.manager.live } }

theorem Core.handOut (h : Core LOW_USER all size w) {base : ℕ} (hgood : Good LOW_USER all (w.handOut base clicks t).manager)
    (hbelow : base + clicks < w.manager.swap_base) : Core LOW_USER all size (w.handOut base clicks t) := by
  refine ⟨hgood,h.area,h.off,h.maxsize,⟨h.housed.user,fun r hr => List.mem_append_right _ (h.housed.live r hr),
    h.housed.apart,h.housed.unused,h.housed.onswap,fun b hb hbase => ?_⟩,h.queued.list,h.queued.onswap⟩
  rcases List.mem_append.mp hb with hb | hb
  · rw [owned] at hb
    split at hb
    · cases hb
    · rw [List.mem_singleton.mp hb] at hbase
      have hle : w.manager.swap_base ≤ base := hbase
      omega
  · exact h.housed.swapped b hb hbase

theorem Core.allocLoop (hcopies : CopiesSegments rw_seg) (h : Core LOW_USER all size w) (clicks : ℕ) {fuel : ℕ}
    (hfuel : swappables LOW_USER w.manager < fuel) :
    Swapper.allocLoop rw_seg LOW_USER clicks fuel w = .error (.panic "Hole table full") ∨
      ∃ w₁, Core LOW_USER all size w₁ ∧ Keeps w w₁ ∧ (Swapper.allocLoop rw_seg LOW_USER clicks fuel w = .ok (none,w₁) ∨
        ∃ base t, Swapper.allocLoop rw_seg LOW_USER clicks fuel w = .ok (some base,w₁.handOut base clicks t) ∧
          Core LOW_USER all size (w₁.handOut base clicks t) ∧ base + clicks < w₁.manager.swap_base ∧
          Disjoint (Finset.Ico base (base + clicks)) (cover w₁.manager.live)) := by
  induction fuel generalizing w with
  | zero => omega
  | succ fuel ih =>
    obtain ⟨xs,ys,hslots⟩ := h.good.healthy.slots
    rw [Swapper.allocLoop]
    rcases chooseHole_split hslots clicks with ⟨hnone,-⟩ | ⟨pre,hp,post,rfl,hsome,hlow,hclicks⟩
    · rw [hnone]
      rcases h.swap_out hcopies with hout | hout | ⟨w₁,hout,hcore,hkeeps,hfewer⟩
      · refine Or.inr ⟨w,h,.refl w,Or.inl ?_⟩
        rw [Except.bind, hout]
        rfl
      · left
        rw [Except.bind, hout]
        rfl
      · rw [Except.bind, hout]
        rcases ih hcore (by omega) with hpanic | ⟨w₂,hcore₂,hkeeps₂,hres⟩
        · exact Or.inl hpanic
        · refine Or.inr ⟨w₂,hcore₂,hkeeps.trans hkeeps₂,?_⟩
          exact hres
    · obtain ⟨t,hbite,hgood,htakes⟩ := h.good.take hslots (base_lt_of_mem_low hlow) hclicks
      refine Or.inr ⟨w,h,.refl w,Or.inr ⟨_,t,?_,h.handOut hgood htakes.below,htakes.below,htakes.unowned⟩⟩
      rw [hsome, Except.bind]
      dsimp only
      rw [hbite]
      rfl

theorem Core.alloc_mem (hcopies : CopiesSegments rw_seg) (h : Core LOW_USER all size w) (NO_MEM clicks : ℕ) :
    w.alloc_mem rw_seg NO_MEM LOW_USER clicks = .error (.panic "Hole table full") ∨
      ∃ w₁, Core LOW_USER all size w₁ ∧ Keeps w w₁ ∧ (w.alloc_mem rw_seg NO_MEM LOW_USER clicks = .ok (NO_MEM,w₁) ∨
        ∃ base t, w.alloc_mem rw_seg NO_MEM LOW_USER clicks = .ok (base,w₁.handOut base clicks t) ∧
          Core LOW_USER all size (w₁.handOut base clicks t) ∧ base + clicks < w₁.manager.swap_base ∧
          Disjoint (Finset.Ico base (base + clicks)) (cover w₁.manager.live)) := by
  rw [Swapper.alloc_mem]
  rcases h.allocLoop hcopies clicks (Nat.lt_succ_of_le (swappables_le LOW_USER w.manager)) with
    hpanic | ⟨w₁,hcore,hkeeps,hnone | ⟨base,t,hsome,htaken⟩⟩
  · exact Or.inl (by rw [hpanic]; rfl)
  · exact Or.inr ⟨w₁,hcore,hkeeps,Or.inl (by rw [hnone]; rfl)⟩
  · exact Or.inr ⟨w₁,hcore,hkeeps,Or.inr ⟨base,t,by rw [hsome]; rfl,htaken⟩⟩

theorem Core.free_mem (h : Core LOW_USER all size w) (hb : b ∈ w.manager.live)
    (hfree : w.free_mem b = .ok w') : ∃ t, Healthy all t (w.manager.live.erase b) ∧
      w' = { w with manager := { w.manager with table := t, live := w.manager.live.erase b } } := by
  cases hres : SOI.Memory.free_mem w.manager.table b.base b.len with
  | error e =>
    rw [Swapper.free_mem, hres] at hfree
    cases hfree
  | ok t =>
    rw [Swapper.free_mem, hres] at hfree
    cases hfree
    exact ⟨t,(h.good.free_mem (Or.inl hb) hres).2,rfl⟩

structure SameImages (w w' : Swapper NR_PROCS α) : Prop where
  IN_USE : w'.IN_USE = w.IN_USE
  images : ∀ r, w.IN_USE r = true → w'.image r = w.image r

theorem Keeps.same (h : Keeps w w') : SameImages w w' := ⟨h.IN_USE,h.images⟩

theorem SameImages.trans (h : SameImages w w₁) (h' : SameImages w₁ w') : SameImages w w' :=
  ⟨h'.IN_USE.trans h.IN_USE,fun r hr => (h'.images r (by rw [h.IN_USE]; exact hr)).trans (h.images r hr)⟩

theorem flag_kept {flag : ℕ → Bool} (h : Function.update flag rmp false r = true) : r ≠ rmp ∧ flag r = true := by
  by_cases hr : r = rmp
  · rw [hr, Function.update_self] at h
    cases h
  · rw [Function.update_of_ne hr] at h
    exact ⟨hr,h⟩

theorem Core.moveIn (hcopies : CopiesSegments rw_seg) (h : Core LOW_USER all size w) {front back : List ℕ} {n : ℕ}
    (hq : w.Queue (front ++ rmp :: back)) (hlt : ∀ r ∈ front ++ rmp :: back, r < NR_PROCS)
    (hmem : ∀ r, w.SWAPIN r = true → r ∈ front ++ rmp :: back) (hpmp : w.pmp = some front.getLast?)
    (hflag : w.SWAPIN rmp = true) (hn : (w.manager.mproc rmp).size = n) (hnew : (⟨new_base,n⟩ : Block) ∈ w.manager.live)
    (hfree : ∀ r, w.IN_USE r = true → (w.manager.mproc r).range ≠ ⟨new_base,n⟩) (hbelow : new_base + n < w.manager.swap_base)
    (hrun : w.moveIn rw_seg front.getLast? rmp new_base n = .ok w') : Core LOW_USER all size w' ∧ SameImages w w' := by
  obtain ⟨hused,hon⟩ := h.queued.onswap rmp hflag
  have hlive := h.housed.live rmp hused
  have hrange : (w.manager.mproc rmp).range = ⟨(w.manager.mproc rmp).D.mem_phys,n⟩ := by rw [MProc.range, hn]
  have habove := (h.housed.onswap rmp hused).mp hon
  have haddress := h.good.live_stop_le hlive
  have hpos := h.good.healthy.shared.pos _ hlive
  rw [hrange] at hlive haddress hpos
  unfold Block.stop at haddress
  dsimp only at haddress hpos
  cases hgive : w.free_mem ⟨(w.manager.mproc rmp).D.mem_phys,n⟩ with
  | error e =>
    rw [Swapper.moveIn, hgive] at hrun
    cases hrun
  | ok w₁ =>
    obtain ⟨t,hhealthy,rfl⟩ := h.free_mem hlive hgive
    rw [Swapper.moveIn, hgive] at hrun
    cases hrun
    let p : MProc := { w.manager.mproc rmp with
      ONSWAP := false
      D := { (w.manager.mproc rmp).D with mem_phys := new_base }
      S := { (w.manager.mproc rmp).S with
        mem_phys := wrap (new_base + wrapSub (w.manager.mproc rmp).S.mem_vir (w.manager.mproc rmp).D.mem_vir) } }
    let m₁ : Manager NR_PROCS := { w.manager with
      table := t
      live := w.manager.live.erase ⟨(w.manager.mproc rmp).D.mem_phys,n⟩
      mproc := Function.update w.manager.mproc rmp p }
    have hp : p.range = ⟨new_base,n⟩ := congrArg (Block.mk new_base) hn
    have hhoused : Housed LOW_USER w.IN_USE m₁ := by
      refine h.housed.relocate hused rfl rfl hp (iff_of_false Bool.false_ne_true ?_) (fun b => ?_) fun r hr _ => hfree r hr
      · exact not_le.mpr (lt_of_le_of_lt (Nat.le_add_right _ _) hbelow)
      · rw [h.good.live_nodup.mem_erase_iff, hrange]
        constructor
        · exact fun hb => Or.inr hb.symm
        · rintro (rfl | hb)
          · refine ⟨fun heq => ?_,hnew⟩
            have hbase := congrArg Block.base heq
            dsimp only at hbase
            omega
          · exact hb.symm
    have hclick : ({ w with
        manager := m₁
        clicks := rw_seg false new_base (wrapSub (w.manager.mproc rmp).D.mem_phys w.manager.swap_base) n w.clicks } :
          Swapper NR_PROCS α).click = copy w.click (w.manager.mproc rmp).D.mem_phys new_base n :=
      click_back hcopies habove (by omega) hbelow.le rfl
    refine ⟨⟨⟨h.good.frame,hhealthy,h.good.outswap_ge,h.good.outswap_lt⟩,h.area,?_,h.maxsize,?_,?_⟩,?_,fun r hr => ?_⟩
    · simpa using h.off
    · simpa using hhoused
    · refine ⟨⟨front ++ back,Swapper.Queue.remove (w := { w with manager := _ }) hq,fun r hr => hlt r ?_,fun r hr => ?_,?_⟩,
        fun r hr => ?_⟩
      · exact (List.sublist_cons_self ..).append_left front |>.subset hr
      · obtain ⟨hne,hr⟩ := flag_kept hr
        have hin := hmem r hr
        simp only [List.mem_append, List.mem_cons] at hin ⊢
        tauto
      · intro q hlast
        rw [setLink_pmp] at hlast
        exact List.mem_append_left _ (List.mem_of_getLast? (Option.some.inj (hpmp.symm.trans hlast)))
      · obtain ⟨hne,hr⟩ := flag_kept hr
        obtain ⟨hu,ho⟩ := h.queued.onswap r hr
        rw [setLink_IN_USE]
        exact ⟨hu,by dsimp only; rw [Function.update_of_ne hne]; exact ho⟩
    · simp
    · refine (congrArg (fun c => contents c _) hclick).trans ?_
      by_cases hrs : r = rmp
      · subst hrs
        dsimp only
        rw [Function.update_self, Swapper.image, hrange]
        refine Eq.trans ?_ (contents_copy w.click (w.manager.mproc r).D.mem_phys new_base n)
        exact congrArg (contents _) hp
      · dsimp only
        rw [Function.update_of_ne hrs, Swapper.image]
        exact contents_copy_other (h.good.live_apart (h.housed.live r hr) hnew (hfree r hr))

theorem Keeps.Queue {q : List ℕ} (h : Keeps w w') : w'.Queue q ↔ w.Queue q := by rw [h.rest]; rfl

theorem Keeps.SWAPIN (h : Keeps w w') : w'.SWAPIN = w.SWAPIN := by rw [h.rest]

theorem Keeps.pmp (h : Keeps w w') : w'.pmp = w.pmp := by rw [h.rest]

theorem Core.passed (h : Core LOW_USER all size w) {q : List ℕ} (hq : w.Queue q) (hlt : ∀ r ∈ q, r < NR_PROCS)
    (hmem : ∀ r, w.SWAPIN r = true → r ∈ q) (hrmp : rmp ∈ q) : Core LOW_USER all size { w with pmp := some (some rmp) } := by
  refine ⟨h.good,h.area,h.off,h.maxsize,h.housed,⟨⟨q,hq,hlt,hmem,fun p hp => ?_⟩,h.queued.onswap⟩⟩
  cases hp
  exact hrmp

theorem Keeps.handOut (h : Keeps w w₁) {base : ℕ} : Keeps w (w₁.handOut base clicks t) :=
  h.trans ⟨fun _ _ => rfl,fun _ _ => rfl,rfl,rfl⟩

/-- What a turn of `swap_in` comes to, the processes of `front` being behind it and the
others on the queue still before it. -/
inductive Turned (rw_seg : RwSeg α) (LOW_USER : ℕ) (all : Finset ℕ) (size : ℕ) (w : Swapper NR_PROCS α) (front : List ℕ) :
    List ℕ → Except Stop (Swapper NR_PROCS α) → Prop
  | ended : Turned rw_seg LOW_USER all size w front [] (.ok { w with pmp := none })
  | cleaned {rmp : ℕ} {back : List ℕ} (hflag : w.SWAPIN rmp = false) :
      Turned rw_seg LOW_USER all size w front (rmp :: back) (.ok (w.setLink front.getLast? (w.mp_swapq rmp)))
  | full {rmp : ℕ} {back : List ℕ} :
      Turned rw_seg LOW_USER all size w front (rmp :: back) (.error (.panic "Hole table full"))
  -- there is no room for `rmp`
  | passed {rmp : ℕ} {back : List ℕ} {w₁ : Swapper NR_PROCS α} (hflag : w.SWAPIN rmp = true)
      (hcore : Core LOW_USER all size w₁) (hkeeps : Keeps w w₁) :
      Turned rw_seg LOW_USER all size w front (rmp :: back) (.ok { w₁ with pmp := some (some rmp) })
  | moved {rmp new_base : ℕ} {back : List ℕ} {w₁ : Swapper NR_PROCS α} (hflag : w.SWAPIN rmp = true)
      (hcore : Core LOW_USER all size w₁) (hkeeps : Keeps w w₁)
      (hnew : (⟨new_base,(w.manager.mproc rmp).size⟩ : Block) ∈ w₁.manager.live)
      (hapart : ∀ r, w₁.IN_USE r = true → (w₁.manager.mproc r).range ≠ ⟨new_base,(w.manager.mproc rmp).size⟩)
      (hbelow : new_base + (w.manager.mproc rmp).size < w₁.manager.swap_base) :
      Turned rw_seg LOW_USER all size w front (rmp :: back)
        (w₁.moveIn rw_seg front.getLast? rmp new_base (w.manager.mproc rmp).size)

theorem Core.turn_cases (hcopies : CopiesSegments rw_seg) (h : Core LOW_USER all size w) (NO_MEM : ℕ) {front back : List ℕ}
    (hq : w.Queue (front ++ back)) :
    Turned rw_seg LOW_USER all size w front back (w.turn rw_seg NO_MEM LOW_USER front.getLast?) := by
  rw [Swapper.turn, hq.link]
  cases back with
  | nil => exact .ended
  | cons rmp back =>
    rw [List.head?_cons]
    dsimp only
    cases hflag : w.SWAPIN rmp with
    | false =>
      rw [Bool.not_false, if_pos rfl]
      exact .cleaned hflag
    | true =>
      rw [Bool.not_true, if_neg Bool.false_ne_true]
      rcases h.alloc_mem hcopies NO_MEM (w.manager.mproc rmp).size with
        hpanic | ⟨w₁,hcore,hkeeps,hnone | ⟨base,t,hsome,hcore₂,hbelow,hfree⟩⟩
      · rw [hpanic]
        exact .full
      · rw [hnone, Except.bind, if_pos rfl]
        exact .passed hflag hcore hkeeps
      · rw [hsome, Except.bind]
        dsimp only
        by_cases hlost : base = NO_MEM
        · rw [if_pos hlost]
          exact .passed hflag hcore₂ hkeeps.handOut
        · rw [if_neg hlost]
          have hpos : 0 < (w.manager.mproc rmp).size :=
            h.good.healthy.shared.pos _ (h.housed.live rmp (h.queued.onswap rmp hflag).1)
          refine .moved hflag hcore₂ hkeeps.handOut ?_ (fun r hr heq => ?_) hbelow
          · refine List.mem_append_left _ ?_
            rw [owned, if_neg hpos.ne']
            exact List.mem_singleton_self _
          · have hdisjoint := hfree.mono_right (points_subset (hcore.housed.live r hr))
            rw [show (w₁.manager.mproc r).range = ⟨base,(w.manager.mproc rmp).size⟩ from heq] at hdisjoint
            exact not_disjoint_self (b := ⟨base,(w.manager.mproc rmp).size⟩) hpos hdisjoint

/-- A turn of `swap_in`. -/
theorem Core.turn {NO_MEM : ℕ} (hcopies : CopiesSegments rw_seg) (h : Core LOW_USER all size w) {pmp : Option ℕ}
    (hpmp : w.pmp = some pmp) (hrun : w.turn rw_seg NO_MEM LOW_USER pmp = .ok w') :
    Core LOW_USER all size w' ∧ SameImages w w' := by
  obtain ⟨q,hq,hlt,hmem,hcursor⟩ := h.queued.list
  obtain ⟨front,back,rfl,rfl⟩ := @split_at_link q pmp fun p hp => hcursor p (by rw [hpmp, hp])
  have hturned := h.turn_cases hcopies NO_MEM hq
  rw [hrun] at hturned
  generalize hres : Except.ok w' = res at hturned
  cases hturned with
  | ended =>
    cases hres
    refine ⟨⟨h.good,h.area,h.off,h.maxsize,h.housed,⟨⟨_,hq,hlt,hmem,fun p hp => ?_⟩,h.queued.onswap⟩⟩,rfl,fun _ _ => rfl⟩
    cases hp
  | full => cases hres
  | passed hflag hcore hkeeps =>
    cases hres
    refine ⟨hcore.passed (hkeeps.Queue.mpr hq) hlt ?_ (by simp),hkeeps.IN_USE,hkeeps.images⟩
    rw [hkeeps.SWAPIN]
    exact hmem
  | @moved rmp new_base _ w₁ hflag hcore hkeeps hnew hapart hbelow =>
    have hflags := hkeeps.SWAPIN
    have hsize : (w₁.manager.mproc rmp).size = (w.manager.mproc rmp).size := by
      rw [hkeeps.swapped rmp (h.queued.onswap rmp hflag).2]
    obtain ⟨hcore',hsame⟩ := hcore.moveIn hcopies (hkeeps.Queue.mpr hq) hlt (by rw [hflags]; exact hmem)
      (hkeeps.pmp.trans hpmp) (by rw [hflags]; exact hflag) hsize hnew hapart hbelow hres.symm
    exact ⟨hcore',hkeeps.same.trans hsame⟩
  | @cleaned rmp back hflag =>
    cases hres
    refine ⟨⟨by simpa using h.good,by simpa using h.area,by simpa using h.off,by simpa using h.maxsize,
      by simpa using h.housed,⟨front ++ back,hq.remove,fun r hr => hlt r ?_,fun r hr => ?_,fun p hp => ?_⟩,?_⟩,by simp,?_⟩
    · exact (List.sublist_cons_self ..).append_left front |>.subset hr
    · rw [setLink_SWAPIN] at hr
      have hne : r ≠ rmp := by
        rintro rfl
        exact Bool.noConfusion (hflag.symm.trans hr)
      have hin := hmem r hr
      simp only [List.mem_append, List.mem_cons] at hin ⊢
      tauto
    · rw [setLink_pmp, hpmp] at hp
      exact List.mem_append_left _ (List.mem_of_getLast? (Option.some.inj hp))
    · simpa using h.queued.onswap
    · intro r _
      rw [Swapper.image, Swapper.image, setLink_manager]
      refine congrArg (fun c => contents c _) (funext fun n => ?_)
      rw [Swapper.click, Swapper.click, setLink_manager, setLink_clicks]

theorem Core.swap_inqueue (h : Core LOW_USER all size w) (hused : w.IN_USE rmp = true)
    (hon : (w.manager.mproc rmp).ONSWAP = true) (hnew : w.SWAPIN rmp = true ∨ rmp ∉ w.queue)
    (hrun : w.swap_inqueue rmp = .ok w') : Core LOW_USER all size w' ∧ SameImages w w' ∧ w'.manager = w.manager ∧
      ∀ r, w.SWAPIN r = true ∨ r ∉ w.queue → w'.SWAPIN r = true ∨ r ∉ w'.queue := by
  cases hflag : w.SWAPIN rmp with
  | true =>
    rw [Swapper.swap_inqueue, hflag, if_pos rfl] at hrun
    cases hrun
    exact ⟨h,⟨rfl,fun _ _ => rfl⟩,rfl,fun _ hr => hr⟩
  | false =>
    obtain ⟨q,hq,hlt,hmem,hcursor⟩ := h.queued.list
    have hrmp : rmp ∉ q := by
      rw [hq.queue_eq hlt] at hnew
      exact hnew.resolve_left (by rw [hflag]; exact Bool.false_ne_true)
    obtain ⟨w₁,hrun₁,hq₁,hflags,hmanager,hclicks,hfd,huse,hpmp⟩ := swap_inqueue_spec hq hlt hrmp hflag
    obtain rfl : w₁ = w' := Except.ok.inj (hrun₁.symm.trans hrun)
    have hlt₁ : ∀ r ∈ q ++ [rmp], r < NR_PROCS := fun r hr => by
      rcases List.mem_append.mp hr with hr | hr
      · exact hlt r hr
      · rw [List.mem_singleton.mp hr]
        exact (h.housed.user rmp hused).2
    have hwants : ∀ r, w₁.SWAPIN r = true → r = rmp ∨ w.SWAPIN r = true := fun r hr => by
      rw [hflags] at hr
      by_cases heq : r = rmp
      · exact Or.inl heq
      · rw [Function.update_of_ne heq] at hr
        exact Or.inr hr
    refine ⟨⟨hmanager ▸ h.good,hmanager ▸ h.area,by rw [hfd]; exact h.off,hmanager ▸ h.maxsize,
      by rw [hmanager, huse]; exact h.housed,
      ⟨q ++ [rmp],hq₁,hlt₁,fun r hr => ?_,fun p hp => ?_⟩,fun r hr => ?_⟩,⟨huse,fun r _ => ?_⟩,hmanager,fun r hr => ?_⟩
    · rcases hwants r hr with rfl | hr
      · simp
      · exact List.mem_append_left _ (hmem r hr)
    · rw [hpmp] at hp
      exact List.mem_append_left _ (hcursor p hp)
    · rw [huse, hmanager]
      rcases hwants r hr with rfl | hr
      · exact ⟨hused,hon⟩
      · exact h.queued.onswap r hr
    · rw [Swapper.image, Swapper.image, hmanager]
      refine congrArg (fun c => contents c _) (funext fun n => ?_)
      rw [Swapper.click, Swapper.click, hmanager, hclicks]
    · rw [hq.queue_eq hlt] at hr
      rw [hq₁.queue_eq hlt₁, hflags]
      by_cases heq : r = rmp
      · rw [heq, Function.update_self]
        exact Or.inl rfl
      · rw [Function.update_of_ne heq]
        exact hr.imp_right fun hno hin => (List.mem_append.mp hin).elim hno fun hin => heq (List.mem_singleton.mp hin)

theorem Core.queueAll (h : Core LOW_USER all size w) (rs : List ℕ)
    (hnew : ∀ r, (w.manager.mproc r).ONSWAP = true → w.SWAPIN r = true ∨ r ∉ w.queue)
    (hrun : rs.foldlM (fun (w : Swapper NR_PROCS α) rmp =>
      if (w.manager.mproc rmp).ONSWAP then w.swap_inqueue rmp else .ok w) w = .ok w') :
    Core LOW_USER all size w' ∧ SameImages w w' := by
  induction rs generalizing w with
  | nil =>
    cases hrun
    exact ⟨h,rfl,fun _ _ => rfl⟩
  | cons rmp rs ih =>
    rw [List.foldlM_cons] at hrun
    by_cases hon : (w.manager.mproc rmp).ONSWAP = true
    · rw [if_pos hon] at hrun
      have hused : w.IN_USE rmp = true := by
        by_contra hno
        exact Bool.noConfusion ((h.housed.unused rmp (by simpa using hno)).2.symm.trans hon)
      cases hstep : w.swap_inqueue rmp with
      | error e =>
        rw [hstep] at hrun
        cases hrun
      | ok w₁ =>
        rw [hstep] at hrun
        obtain ⟨hcore,hsame,hmanager,hkept⟩ := h.swap_inqueue hused hon (hnew rmp hon) hstep
        obtain ⟨hcore',hsame'⟩ := ih hcore (fun r hr => hkept r (hnew r (by rw [← hmanager]; exact hr))) hrun
        exact ⟨hcore',hsame.trans hsame'⟩
    · rw [if_neg hon] at hrun
      exact ih h hnew hrun

theorem Core.do_worst_fit (h : Core LOW_USER all size w) (n : ℤ) :
    Core LOW_USER all size { w with manager := SOI.Memory.do_worst_fit n w.manager } := by
  have hgood := h.good.do_worst_fit n
  unfold SOI.Memory.do_worst_fit at hgood ⊢
  split_ifs at hgood ⊢
  all_goals exact ⟨hgood,h.area,h.off,h.maxsize,{ h.housed with },h.queued.list,h.queued.onswap⟩

theorem click_worst_fit (n : ℤ) :
    ({ w with manager := SOI.Memory.do_worst_fit n w.manager } : Swapper NR_PROCS α).image = w.image := by
  funext r
  unfold SOI.Memory.do_worst_fit
  split_ifs <;> rfl

theorem Core.give (h : Core LOW_USER all size w) (hb : b ∈ w.manager.live)
    (hno : ∀ r, w.IN_USE r = true → (w.manager.mproc r).range ≠ b) (hrun : w.free_mem b = .ok w') :
    Core LOW_USER all size w' ∧ SameImages w w' := by
  obtain ⟨t,hhealthy,rfl⟩ := h.free_mem hb hrun
  have hhoused : Housed LOW_USER w.IN_USE { w.manager with table := t, live := w.manager.live.erase b } :=
    { h.housed with
      live := fun r hr => (List.mem_erase_of_ne (hno r hr)).mpr (h.housed.live r hr)
      swapped := fun c hc => h.housed.swapped c (List.mem_of_mem_erase hc) }
  exact ⟨⟨⟨h.good.frame,hhealthy,h.good.outswap_ge,h.good.outswap_lt⟩,h.area,h.off,h.maxsize,hhoused,h.queued.list,
    h.queued.onswap⟩,rfl,fun _ _ => rfl⟩

/-- A process takes over a block that nobody has. -/
theorem Core.start (h : Core LOW_USER all size w) {p : MProc} (hused : w.IN_USE rmp = false)
    (hrmp : LOW_USER ≤ rmp ∧ rmp < NR_PROCS) (hlive : p.range ∈ w.manager.live) (hbelow : p.D.mem_phys < w.manager.swap_base)
    (hno : ∀ r, w.IN_USE r = true → (w.manager.mproc r).range ≠ p.range) (hon : p.ONSWAP = false) {memory : ℕ → α}
    (hmemory : ∀ n, n ∉ p.range.points → memory n = w.clicks.memory n) :
    let w' := { (w.setProc rmp p).setMemory memory with IN_USE := Function.update w.IN_USE rmp true }
    Core LOW_USER all size w' ∧ ∀ r, r ≠ rmp → w.IN_USE r = true → w'.image r = w.image r := by
  intro w'
  have hself : w'.manager.mproc rmp = p := Function.update_self ..
  have hother : ∀ r, r ≠ rmp → w'.manager.mproc r = w.manager.mproc r := fun r hr => Function.update_of_ne hr _ _
  have huse : ∀ r, w'.IN_USE r = true → r ≠ rmp → w.IN_USE r = true := fun r hr hne => by
    rwa [show w'.IN_USE r = w.IN_USE r from Function.update_of_ne hne _ _] at hr
  have hstop := h.good.live_stop_lt hlive hbelow
  have hhoused : Housed LOW_USER w'.IN_USE w'.manager := by
    refine ⟨fun r hr => ?_,fun r hr => ?_,fun r s hr hs heq => ?_,fun r hr => ?_,fun r hr => ?_,fun b hb hle => ?_⟩
    · by_cases hne : r = rmp
      · rw [hne]
        exact hrmp
      · exact h.housed.user r (huse r hr hne)
    · by_cases hne : r = rmp
      · rw [hne, hself]
        exact hlive
      · rw [hother r hne]
        exact h.housed.live r (huse r hr hne)
    · by_cases hne : r = rmp
      · by_cases hne' : s = rmp
        · rw [hne, hne']
        · rw [hne, hself, hother s hne'] at heq
          exact absurd heq.symm (hno s (huse s hs hne'))
      · by_cases hne' : s = rmp
        · rw [hne', hself, hother r hne] at heq
          exact absurd heq (hno r (huse r hr hne))
        · rw [hother r hne, hother s hne'] at heq
          exact h.housed.apart r s (huse r hr hne) (huse s hs hne') heq
    · have hne : r ≠ rmp := by
        rintro rfl
        rw [show w'.IN_USE r = true from Function.update_self ..] at hr
        cases hr
      rw [show w'.IN_USE r = w.IN_USE r from Function.update_of_ne hne _ _] at hr
      rw [hother r hne]
      exact h.housed.unused r hr
    · by_cases hne : r = rmp
      · rw [hne, hself, hon]
        exact iff_of_false Bool.false_ne_true (not_le.mpr hbelow)
      · rw [hother r hne]
        exact h.housed.onswap r (huse r hr hne)
    · obtain ⟨r,hr,hrange⟩ := h.housed.swapped b hb hle
      have hne : r ≠ rmp := by
        rintro rfl
        exact Bool.noConfusion (hused.symm.trans hr)
      exact ⟨r,(Function.update_of_ne hne _ _).trans hr,by rw [hother r hne]; exact hrange⟩
  refine ⟨⟨⟨h.good.frame,h.good.healthy,h.good.outswap_ge,h.good.outswap_lt⟩,h.area,h.off,h.maxsize,hhoused,h.queued.list,
    fun r hr => ?_⟩,fun r hne hr => ?_⟩
  · obtain ⟨hu,ho⟩ := h.queued.onswap r hr
    have hne : r ≠ rmp := by
      rintro rfl
      exact Bool.noConfusion (hused.symm.trans hu)
    exact ⟨(Function.update_of_ne hne _ _).trans hu,by rw [hother r hne]; exact ho⟩
  · rw [Swapper.image, hother r hne, Swapper.image]
    refine contents_congr fun n hn => ?_
    have hdisjoint := h.good.live_apart (h.housed.live r hr) hlive (hno r hr)
    have hout : n ∉ p.range.points := Finset.disjoint_left.mp hdisjoint hn
    have hsame : w'.clicks.memory n = w.clicks.memory n := hmemory n hout
    rw [Swapper.click, Swapper.click, hsame]
    rfl

theorem Core.exit (h : Core LOW_USER all size w) (hused : w.IN_USE rmp = true)
    (hrun : w.free_mem (w.manager.mproc rmp).range = .ok w₁) :
    let w' := { w₁.setProc rmp {} with
      IN_USE := Function.update w₁.IN_USE rmp false, SWAPIN := Function.update w₁.SWAPIN rmp false }
    Core LOW_USER all size w' ∧ ∀ r, w'.IN_USE r = true → w.IN_USE r = true ∧ w'.image r = w.image r := by
  intro w'
  obtain ⟨t,hhealthy,rfl⟩ := h.free_mem (h.housed.live rmp hused) hrun
  have hother : ∀ r, r ≠ rmp → w'.manager.mproc r = w.manager.mproc r := fun r hr => Function.update_of_ne hr _ _
  have huse : ∀ r, w'.IN_USE r = true → r ≠ rmp ∧ w.IN_USE r = true := fun r hr => flag_kept hr
  have hhoused : Housed LOW_USER w'.IN_USE w'.manager := by
    refine ⟨fun r hr => h.housed.user r (huse r hr).2,fun r hr => ?_,fun r s hr hs heq => ?_,fun r hr => ?_,fun r hr => ?_,
      fun b hb hle => ?_⟩
    · obtain ⟨hne,hr⟩ := huse r hr
      rw [hother r hne]
      exact (List.mem_erase_of_ne fun heq => hne (h.housed.apart r rmp hr hused heq)).mpr (h.housed.live r hr)
    · obtain ⟨hne,hr⟩ := huse r hr
      obtain ⟨hne',hs⟩ := huse s hs
      rw [hother r hne, hother s hne'] at heq
      exact h.housed.apart r s hr hs heq
    · by_cases hne : r = rmp
      · rw [hne, show w'.manager.mproc rmp = {} from Function.update_self ..]
        exact ⟨rfl,rfl⟩
      · rw [hother r hne]
        rw [show w'.IN_USE r = w.IN_USE r from Function.update_of_ne hne _ _] at hr
        exact h.housed.unused r hr
    · obtain ⟨hne,hr⟩ := huse r hr
      rw [hother r hne]
      exact h.housed.onswap r hr
    · obtain ⟨hne,hlive⟩ := h.good.live_nodup.mem_erase_iff.mp hb
      obtain ⟨r,hr,hrange⟩ := h.housed.swapped b hlive hle
      have hrne : r ≠ rmp := by
        rintro rfl
        exact hne hrange.symm
      exact ⟨r,(Function.update_of_ne hrne _ _).trans hr,by rw [hother r hrne]; exact hrange⟩
  refine ⟨⟨⟨h.good.frame,hhealthy,h.good.outswap_ge,h.good.outswap_lt⟩,h.area,h.off,h.maxsize,hhoused,?_,fun r hr => ?_⟩,
    fun r hr => ?_⟩
  · obtain ⟨q,hq,hlt,hmem,hcursor⟩ := h.queued.list
    exact ⟨q,hq,hlt,fun r hr => hmem r (flag_kept hr).2,hcursor⟩
  · obtain ⟨hne,hr⟩ := flag_kept hr
    obtain ⟨hu,ho⟩ := h.queued.onswap r hr
    exact ⟨(Function.update_of_ne hne _ _).trans hu,by rw [hother r hne]; exact ho⟩
  · obtain ⟨hne,hr⟩ := huse r hr
    refine ⟨hr,?_⟩
    rw [Swapper.image, hother r hne]
    rfl

end SOI.Memory

import SOI.Memory.SwapArea

/-! # Swapping is not seen by the processes

Over any run of calls a process holds what it was started with, changed by its own writes
and by nothing else, wherever it has been moved to in between.
-/
namespace SOI.Memory
open Linked Intervals Copies Runs
variable {α : Type} {NR_PROCS NO_MEM LOW_USER size rmp i : ℕ} {all : Finset ℕ} {m : Manager NR_PROCS} {w w' : Swapper NR_PROCS α}
  {rw_seg : RwSeg α} {chunks : List Block} {resident : List ℕ} {c : Clicks α}

theorem setProc_mproc (w : Swapper NR_PROCS α) (rmp : ℕ) (p : MProc) :
    (w.setProc rmp p).manager.mproc = Function.update w.manager.mproc rmp p := rfl

theorem Core.flags (h : Core LOW_USER all size w) (hused : w.IN_USE rmp = true) {p : MProc}
    (hrange : p.range = (w.manager.mproc rmp).range) (hon : p.ONSWAP = (w.manager.mproc rmp).ONSWAP) :
    Core LOW_USER all size (w.setProc rmp p) ∧ SameImages w (w.setProc rmp p) := by
  have hsame : ∀ r, ((w.setProc rmp p).manager.mproc r).range = (w.manager.mproc r).range ∧
      ((w.setProc rmp p).manager.mproc r).ONSWAP = (w.manager.mproc r).ONSWAP := fun r => by
    rw [setProc_mproc]
    by_cases hr : r = rmp
    · rw [hr, Function.update_self]
      exact ⟨hrange,hon⟩
    · rw [Function.update_of_ne hr]
      exact ⟨rfl,rfl⟩
  refine ⟨⟨⟨h.good.frame,h.good.healthy,h.good.outswap_ge,h.good.outswap_lt⟩,h.area,h.off,h.maxsize,
    ⟨h.housed.user,fun r hr => ?_,fun r s hr hs heq => ?_,fun r hr => ?_,fun r hr => ?_,fun b hb hle => ?_⟩,h.queued.list,
    fun r hr => ?_⟩,rfl,fun r _ => ?_⟩
  · rw [(hsame r).1]
    exact h.housed.live r hr
  · rw [(hsame r).1, (hsame s).1] at heq
    exact h.housed.apart r s hr hs heq
  · have hne : r ≠ rmp := by
      rintro rfl
      exact Bool.noConfusion (hr.symm.trans hused)
    rw [setProc_mproc, Function.update_of_ne hne]
    exact h.housed.unused r hr
  · have hbase : ((w.setProc rmp p).manager.mproc r).D.mem_phys = (w.manager.mproc r).D.mem_phys :=
      congrArg Block.base (hsame r).1
    rw [(hsame r).2, hbase]
    exact h.housed.onswap r hr
  · obtain ⟨r,hr,hrb⟩ := h.housed.swapped b hb hle
    exact ⟨r,hr,by rw [(hsame r).1, hrb]⟩
  · rw [(hsame r).2]
    exact h.queued.onswap r hr
  · rw [Swapper.image, (hsame r).1]
    rfl

theorem Core.write (h : Core LOW_USER all size w) (hused : w.IN_USE rmp = true)
    (hon : (w.manager.mproc rmp).ONSWAP = false) (hi : i < (w.manager.mproc rmp).size) (x : α) :
    let w' := w.setMemory (Function.update w.clicks.memory ((w.manager.mproc rmp).range.base + i) x)
    Core LOW_USER all size w' ∧ w'.image rmp = (w.image rmp).set i x ∧
      ∀ r, r ≠ rmp → w.IN_USE r = true → w'.image r = w.image r := by
  intro w'
  have hlive := h.housed.live rmp hused
  have hbelow : (w.manager.mproc rmp).range.base < w.manager.swap_base := by
    by_contra hle
    exact Bool.noConfusion (hon.symm.trans ((h.housed.onswap rmp hused).mpr (not_lt.mp hle)))
  have hstop := h.good.live_stop_lt hlive hbelow
  have hin : (w.manager.mproc rmp).range.base + i < (w.manager.mproc rmp).range.stop := Nat.add_lt_add_left hi _
  have hclick : w'.click = Function.update w.click ((w.manager.mproc rmp).range.base + i) x := by
    funext n
    by_cases hn : n = (w.manager.mproc rmp).range.base + i
    · rw [hn, Function.update_self, Swapper.click, if_neg (by exact not_le.mpr (hin.trans hstop))]
      exact Function.update_self ..
    · rw [Function.update_of_ne hn, Swapper.click, Swapper.click]
      exact if_congr Iff.rfl rfl (Function.update_of_ne hn _ _)
  refine ⟨⟨h.good,h.area,h.off,h.maxsize,h.housed,h.queued.list,h.queued.onswap⟩,?_,fun r hne hr => ?_⟩
  · rw [Swapper.image, hclick]
    exact contents_set hi
  · rw [Swapper.image, hclick]
    refine contents_update_other fun hn => ?_
    have hdisjoint := h.good.live_apart (h.housed.live r hr) hlive fun heq => hne (h.housed.apart r rmp hr hused heq)
    exact Finset.disjoint_left.mp hdisjoint hn (mem_points.mpr ⟨Nat.le_add_right _ _,hin⟩)

def Swapper.images (w : Swapper NR_PROCS α) (r : ℕ) : Option (List α) := if w.IN_USE r then some (w.image r) else none

/-- What a call does to memories that are private and never moved. -/
def imageStep (images : ℕ → Option (List α)) : SwapCall α → ℕ → Option (List α)
  | .start rmp D S image => Function.update images rmp (some ((List.range ({ D := D, S := S } : MProc).size).map image))
  | .write rmp i x => Function.update images rmp ((images rmp).map fun cells => cells.set i x)
  | .exit rmp => Function.update images rmp none
  | _ => images

/-- What the callers see to: a block is freed or taken over while nobody else has it, only
processes on the swap file are put on the queue, and none of them is still there from
an earlier life, and a process writes to its own memory while it has one. -/
def SwapAllowed (LOW_USER : ℕ) (w : Swapper NR_PROCS α) : SwapCall α → Prop
  | .free_mem b => b ∈ w.manager.live ∧ ∀ r ∈ users LOW_USER NR_PROCS, w.IN_USE r = true → (w.manager.mproc r).range ≠ b
  | .swap_inqueue rmp => w.IN_USE rmp = true ∧ (w.manager.mproc rmp).ONSWAP = true ∧ (w.SWAPIN rmp = true ∨ rmp ∉ w.queue)
  | .swap_offQueue => ∀ r ∈ users LOW_USER NR_PROCS, (w.manager.mproc r).ONSWAP = true → w.SWAPIN r = true ∨ r ∉ w.queue
  | .start rmp D S _ =>
    w.IN_USE rmp = false ∧ rmp ∈ users LOW_USER NR_PROCS ∧ ({ D := D, S := S } : MProc).range ∈ w.manager.live ∧
      D.mem_phys < w.manager.swap_base ∧
      ∀ r ∈ users LOW_USER NR_PROCS, w.IN_USE r = true → (w.manager.mproc r).range ≠ ({ D := D, S := S } : MProc).range
  | .flags rmp _ _ _ _ _ => w.IN_USE rmp = true
  | .write rmp i _ => w.IN_USE rmp = true ∧ (w.manager.mproc rmp).ONSWAP = false ∧ i < (w.manager.mproc rmp).size
  | .exit rmp => w.IN_USE rmp = true
  | _ => True

instance (w : Swapper NR_PROCS α) : (call : SwapCall α) → Decidable (SwapAllowed LOW_USER w call)
  | .do_worst_fit _ => isTrue trivial
  | .alloc_mem _ => isTrue trivial
  | .free_mem _ => inferInstanceAs (Decidable (_ ∧ _))
  | .swap_inqueue _ => inferInstanceAs (Decidable (_ ∧ _))
  | .swap_in => isTrue trivial
  | .turn => isTrue trivial
  | .swap_on _ => isTrue trivial
  | .swap_offQueue => inferInstanceAs (Decidable (∀ r ∈ users LOW_USER NR_PROCS, _ → _))
  | .swap_off => isTrue trivial
  | .start _ _ _ _ => inferInstanceAs (Decidable (_ ∧ _))
  | .flags _ _ _ _ _ _ => inferInstanceAs (Decidable (_ = _))
  | .write _ _ _ => inferInstanceAs (Decidable (_ ∧ _))
  | .exit _ => inferInstanceAs (Decidable (_ = _))

def swapRun (rw_seg : RwSeg α) (NO_MEM LOW_USER : ℕ) (w : Swapper NR_PROCS α) (call : SwapCall α) :
    Option (Swapper NR_PROCS α) :=
  (swapStep rw_seg NO_MEM LOW_USER w call).toOption

theorem swapRun_eq {call : SwapCall α} (h : swapRun rw_seg NO_MEM LOW_USER w call = some w') :
    swapStep rw_seg NO_MEM LOW_USER w call = .ok w' := by
  rw [swapRun] at h
  cases hstep : swapStep rw_seg NO_MEM LOW_USER w call with
  | error e =>
    rw [hstep] at h
    cases h
  | ok w₁ =>
    rw [hstep] at h
    cases h
    rfl

def Sound (LOW_USER : ℕ) (w : Swapper NR_PROCS α) : Prop := ∃ all size, Core LOW_USER all size w

theorem SameImages.images_eq (h : SameImages w w') : w'.images = w.images := by
  funext r
  rw [Swapper.images, Swapper.images, h.IN_USE]
  by_cases hr : w.IN_USE r = true
  · rw [if_pos hr, if_pos hr, h.images r hr]
  · rw [if_neg hr, if_neg hr]

theorem images_used {r : ℕ} (h : w.IN_USE r = true) : w.images r = some (w.image r) := if_pos h

theorem images_unused {r : ℕ} (h : w.IN_USE r = false) : w.images r = none := if_neg (by rw [h]; exact Bool.false_ne_true)

theorem contents_filled {b : Block} {f : ℕ → α} (hbelow : b.stop ≤ w.manager.swap_base) :
    contents (w.setMemory fun n => if b.base ≤ n ∧ n < b.stop then f (n - b.base) else w.clicks.memory n).click b =
      (List.range b.len).map f := by
  rw [← @contents_fill α w.clicks.memory b f]
  refine contents_congr fun n hn => ?_
  have hlt := (mem_points.mp hn).2
  rw [Swapper.click, if_neg (by exact not_le.mpr (hlt.trans_le hbelow))]
  rfl

theorem images_update {cells : Option (List α)} (hself : w'.images rmp = cells)
    (hother : ∀ r, r ≠ rmp → w'.IN_USE r = w.IN_USE r ∧ (w.IN_USE r = true → w'.image r = w.image r)) :
    w'.images = Function.update w.images rmp cells := by
  funext r
  by_cases hr : r = rmp
  · rw [hr, hself, Function.update_self]
  · obtain ⟨hflag,himage⟩ := hother r hr
    rw [Function.update_of_ne hr, Swapper.images, Swapper.images, hflag]
    by_cases hused : w.IN_USE r = true
    · rw [if_pos hused, if_pos hused, himage hused]
    · rw [if_neg hused, if_neg hused]

theorem Core.mem_users (h : Core LOW_USER all size w) {r : ℕ} (hr : w.IN_USE r = true) : r ∈ users LOW_USER NR_PROCS :=
  List.mem_filter.mpr ⟨List.mem_range.mpr (h.housed.user r hr).2,decide_eq_true (h.housed.user r hr).1⟩

/-- A call of MM does to the images what it does to private memories. -/
theorem Sound.step (hcopies : CopiesSegments rw_seg) (h : Sound LOW_USER w) {call : SwapCall α}
    (hallowed : SwapAllowed LOW_USER w call) (hrun : swapRun rw_seg NO_MEM LOW_USER w call = some w') :
    Sound LOW_USER w' ∧ w'.images = imageStep w.images call := by
  obtain ⟨all,size,h⟩ := h
  have hstep := swapRun_eq hrun
  have same : ∀ {w₁ : Swapper NR_PROCS α}, Core LOW_USER all size w₁ ∧ SameImages w w₁ →
      Sound LOW_USER w₁ ∧ w₁.images = w.images := fun hres => ⟨⟨all,size,hres.1⟩,hres.2.images_eq⟩
  cases call with
  | do_worst_fit n =>
    cases hstep
    exact same ⟨h.do_worst_fit n,rfl,fun r _ => congrFun (click_worst_fit n) r⟩
  | alloc_mem clicks =>
    rcases h.alloc_mem hcopies NO_MEM clicks with hpanic | ⟨w₁,hcore,hkeeps,hnone | ⟨base,t,hsome,hcore₂,-⟩⟩
    · rw [swapStep, hpanic] at hstep
      cases hstep
    · rw [swapStep, hnone] at hstep
      cases hstep
      exact same ⟨hcore,hkeeps.same⟩
    · rw [swapStep, hsome] at hstep
      cases hstep
      exact same ⟨hcore₂,hkeeps.IN_USE,hkeeps.images⟩
  | free_mem b => exact same (h.give hallowed.1 (fun r hr => hallowed.2 r (h.mem_users hr) hr) hstep)
  | swap_inqueue rmp =>
    obtain ⟨hcore,hsame,-⟩ := h.swap_inqueue hallowed.1 hallowed.2.1 hallowed.2.2 hstep
    exact same ⟨hcore,hsame⟩
  | swap_in =>
    cases hstep
    obtain ⟨q,hq,hlt,hmem,-⟩ := h.queued.list
    exact same ⟨⟨h.good,h.area,h.off,h.maxsize,h.housed,⟨q,hq,hlt,hmem,fun p hp => by cases hp⟩,h.queued.onswap⟩,rfl,
      fun _ _ => rfl⟩
  | turn =>
    cases hpmp : w.pmp with
    | none =>
      rw [swapStep, hpmp] at hstep
      cases hstep
      exact same ⟨h,rfl,fun _ _ => rfl⟩
    | some pmp =>
      rw [swapStep, hpmp] at hstep
      exact same (h.turn hcopies hpmp hstep)
  | swap_on n =>
    obtain ⟨all',size',hcore,hsame⟩ := h.swap_on hstep
    exact ⟨⟨all',size',hcore⟩,hsame.images_eq⟩
  | swap_offQueue =>
    rw [swapStep, Swapper.swap_offQueue] at hstep
    split at hstep
    · cases hstep
      exact same ⟨h,rfl,fun _ _ => rfl⟩
    · refine same (h.queueAll _ (fun r hr => ?_) hstep)
      have hused : w.IN_USE r = true := by
        by_contra hno
        exact Bool.noConfusion ((h.housed.unused r (by simpa using hno)).2.symm.trans hr)
      exact hallowed r (h.mem_users hused) hr
  | swap_off =>
    obtain ⟨all',size',hcore,hsame⟩ := h.swap_off hstep
    exact ⟨⟨all',size',hcore⟩,hsame.images_eq⟩
  | start rmp D S image =>
    obtain ⟨hfree,huser,hlive,hbelow,hno⟩ := hallowed
    obtain ⟨hmem,hle⟩ := List.mem_filter.mp huser
    have hout : ∀ n, n ∉ ({ D := D, S := S } : MProc).range.points → (if ({ D := D, S := S } : MProc).range.base ≤ n ∧
        n < ({ D := D, S := S } : MProc).range.stop then image (n - ({ D := D, S := S } : MProc).range.base)
          else w.clicks.memory n) = w.clicks.memory n := fun n hn => if_neg fun hin => hn (mem_points.mpr hin)
    obtain ⟨hcore,hothers⟩ := h.start hfree ⟨of_decide_eq_true hle,List.mem_range.mp hmem⟩ hlive hbelow
      (fun r hr => hno r (h.mem_users hr) hr) rfl hout
    cases hstep
    refine ⟨⟨all,size,hcore⟩,images_update ?_ fun r hr => ⟨Function.update_of_ne hr _ _,hothers r hr⟩⟩
    refine (images_used (Function.update_self ..)).trans (congrArg some ?_)
    refine (congrArg (contents _) (congrArg MProc.range (Function.update_self ..))).trans ?_
    exact contents_filled (h.good.live_stop_lt hlive hbelow).le
  | flags rmp PAUSED WAITING SIGSUSPENDED TRACED REPLY =>
    cases hstep
    exact same (h.flags hallowed rfl rfl)
  | write rmp i x =>
    cases hstep
    obtain ⟨hcore,hself,hothers⟩ := h.write hallowed.1 hallowed.2.1 hallowed.2.2 x
    refine ⟨⟨all,size,hcore⟩,images_update ?_ fun r hr => ⟨rfl,hothers r hr⟩⟩
    rw [images_used hallowed.1, Option.map_some, ← hself]
    exact images_used hallowed.1
  | exit rmp =>
    cases hgive : w.free_mem (w.manager.mproc rmp).range with
    | error e =>
      rw [swapStep, hgive] at hstep
      cases hstep
    | ok w₁ =>
      obtain ⟨hcore,hkept⟩ := h.exit hallowed hgive
      rw [swapStep, hgive] at hstep
      cases hstep
      obtain ⟨t,-,rfl⟩ := h.free_mem (h.housed.live rmp hallowed) hgive
      have hflag : ∀ r, r ≠ rmp → Function.update w.IN_USE rmp false r = w.IN_USE r := fun r hr =>
        Function.update_of_ne hr _ _
      refine ⟨⟨all,size,hcore⟩,images_update ?_ fun r hr => ⟨hflag r hr,fun hused => ?_⟩⟩
      · exact images_unused (Function.update_self ..)
      · exact (hkept r ((hflag r hr).trans hused)).2

/-- MM after `mem_init`, with the processes that are in memory from the start. -/
def Swapper.boot (m : Manager NR_PROCS) (resident : List ℕ) (c : Clicks α) : Swapper NR_PROCS α where
  manager := { m with live := resident.map fun r => (m.mproc r).range }
  clicks := c
  IN_USE r := decide (r ∈ resident)

/-- The kernel reports chunks of memory apart from each other and from the processes that
are in memory from the start. -/
structure Booted (LOW_USER : ℕ) (replies : List Block) (resident : List ℕ) (m : Manager NR_PROCS) : Prop where
  low : LOW_USER < NR_PROCS
  init : mem_init replies m.mproc LOW_USER = .ok m
  chunks : (replies.takeWhile fun b => b.len ≠ 0).Pairwise fun x y => Disjoint x.points y.points
  top : ∀ b ∈ replies, b.stop + 1 < 2 ^ 32
  user : ∀ r ∈ resident, LOW_USER ≤ r ∧ r < NR_PROCS
  pos : ∀ r ∈ resident, 0 < (m.mproc r).size
  below : ∀ r ∈ resident, (m.mproc r).range.stop < m.swap_base
  apart : resident.Pairwise fun r s => Disjoint (m.mproc r).range.points (m.mproc s).range.points
  outside : ∀ r ∈ resident, Disjoint (cover (replies.takeWhile fun b => b.len ≠ 0)) (m.mproc r).range.points
  onswap : ∀ r ∈ resident, (m.mproc r).ONSWAP = false
  unused : ∀ r, r ∉ resident → m.mproc r = {}

theorem Booted.start {replies : List Block} (h : Booted LOW_USER replies resident m) :
    Start LOW_USER (replies.takeWhile fun b => b.len ≠ 0) [] m := start_of_mem_init h.low h.chunks h.top h.init

theorem Booted.maxsize {replies : List Block} (h : Booted LOW_USER replies resident m) :
    m.swap_maxsize = 2 ^ 32 - m.swap_base := by
  have hpos := h.start.swap_pos
  have hlt := h.start.swap_lt
  have hmax : m.swap_maxsize = wrapSub 0 m.swap_base := by
    have hinit := h.init
    rw [mem_init] at hinit
    cases hfree : freeAll (emptyTable (2 * NR_PROCS)) (replies.takeWhile fun b => b.len ≠ 0) with
    | error e =>
      rw [hfree] at hinit
      cases hinit
    | ok t =>
      rw [hfree] at hinit
      exact congrArg Manager.swap_maxsize (Except.ok.inj hinit).symm |>.trans (by rw [← Except.ok.inj hinit])
  rw [hmax, wrapSub, wrap, wrap]
  omega

theorem Booted.sound {replies : List Block} (h : Booted LOW_USER replies resident m) (c : Clicks α) :
    Sound LOW_USER (Swapper.boot m resident c) := by
  have hgood := h.start.good
  have hshared := hgood.healthy.shared
  rw [List.append_nil] at hgood hshared
  have hlive : m.live = [] := h.start.live
  have hcover : cover m.table.holes = cover (replies.takeWhile fun b => b.len ≠ 0) := by
    rw [← hshared.union, hlive]
    simp [cover]
  have hmem : ∀ r, (Swapper.boot m resident c).IN_USE r = true → r ∈ resident := fun r hr => of_decide_eq_true hr
  have hne : ∀ r ∈ resident, ¬ Disjoint (m.mproc r).range.points (m.mproc r).range.points := fun r hr =>
    not_disjoint_self (h.pos r hr)
  have hapart : ∀ r ∈ resident, ∀ s ∈ resident, (m.mproc r).range = (m.mproc s).range → r = s := by
    intro r hr s hs heq
    by_contra hrs
    have hdisjoint := @List.Pairwise.forall _ (fun r s => Disjoint (m.mproc r).range.points (m.mproc s).range.points) _
      ⟨fun _ _ hxy => hxy.symm⟩ h.apart r hr s hs hrs
    rw [← heq] at hdisjoint
    exact hne r hr hdisjoint
  have hblocks : ∀ b ∈ (replies.takeWhile fun b => b.len ≠ 0) ++ resident.map fun r => (m.mproc r).range,
      b.stop < m.swap_base := fun b hb => by
    rcases List.mem_append.mp hb with hb | hb
    · exact h.start.below b hb
    · obtain ⟨r,hr,rfl⟩ := List.mem_map.mp hb
      exact h.below r hr
  have hall : ∀ i ∈ cover ((replies.takeWhile fun b => b.len ≠ 0) ++ resident.map fun r => (m.mproc r).range),
      i + 1 < m.swap_base := fun i hi => by
    obtain ⟨b,hb,hbi⟩ := mem_cover.mp hi
    have hstop := hblocks b hb
    omega
  have hshared' : Shared (cover ((replies.takeWhile fun b => b.len ≠ 0) ++ resident.map fun r => (m.mproc r).range))
      (cover m.table.holes) (resident.map fun r => (m.mproc r).range) := by
    refine ⟨?_,by rw [hcover, cover_append],List.pairwise_map.mpr h.apart,fun b hb => ?_⟩
    · rw [hcover, disjoint_cover]
      intro b hb
      obtain ⟨r,hr,rfl⟩ := List.mem_map.mp hb
      exact h.outside r hr
    · obtain ⟨r,hr,rfl⟩ := List.mem_map.mp hb
      exact h.pos r hr
  have hframe := hgood.frame
  have hbelow : ∀ r ∈ resident, (m.mproc r).D.mem_phys < m.swap_base := fun r hr => by
    have hstop : (m.mproc r).D.mem_phys + (m.mproc r).size < m.swap_base := h.below r hr
    omega
  refine ⟨_,0,⟨⟨fun i hi => ?_,hframe.swap_pos,hframe.swap_lt,fun hin => ?_⟩,⟨hgood.healthy.toTidy,hshared'⟩,
    hgood.outswap_ge,hgood.outswap_lt⟩,fun i hi => ?_,fun _ => rfl,h.maxsize,⟨fun r hr => h.user r (hmem r hr),
      fun r hr => List.mem_map_of_mem (hmem r hr),fun r s hr hs => hapart r (hmem r hr) s (hmem s hs),fun r hr => ?_,
      fun r hr => ?_,fun b hb hle => ?_⟩,⟨[],rfl,by simp,fun r hr => Bool.noConfusion hr,fun p hp => by cases hp⟩,
    fun r hr => Bool.noConfusion hr⟩
  · have hlt := hall i hi
    have hle := hframe.swap_lt
    omega
  · have hlt := hall _ hin
    have hpos := hframe.swap_pos
    dsimp only [Swapper.boot] at hlt
    omega
  · refine iff_of_false (fun hin => ?_) (Nat.not_lt.mpr hi)
    have hlt := hall i hin
    dsimp only [Swapper.boot] at hi
    omega
  · rw [show (Swapper.boot m resident c).manager.mproc r = {} from h.unused r (of_decide_eq_false hr)]
    exact ⟨rfl,rfl⟩
  · refine iff_of_false ?_ (not_le.mpr (hbelow r (hmem r hr)))
    rw [Bool.not_eq_true]
    exact h.onswap r (hmem r hr)
  · obtain ⟨r,hr,rfl⟩ := List.mem_map.mp hb
    exact absurd hle (not_le.mpr (hbelow r hr))

/-- The state of every run. -/
theorem Booted.run {replies : List Block} (hcopies : CopiesSegments rw_seg) (h : Booted LOW_USER replies resident m)
    {calls : List (SwapCall α)}
    (hallowed : Meets (swapRun rw_seg NO_MEM LOW_USER) (SwapAllowed LOW_USER) (Swapper.boot m resident c) calls)
    (hrun : run (swapRun rw_seg NO_MEM LOW_USER) (Swapper.boot m resident c) calls = some w') :
    Sound LOW_USER w' ∧ w'.images = calls.foldl imageStep (Swapper.boot m resident c).images :=
  hallowed.refines (fun _ _ _ hs hk hstep => Sound.step hcopies hs hk hstep) (h.sound c) hrun

/-- Over every run of calls the processes hold what they would in private memories that
are never moved. -/
theorem swapping_transparent {replies : List Block} (hcopies : CopiesSegments rw_seg)
    (hboot : Booted LOW_USER replies resident m) {calls : List (SwapCall α)}
    (hallowed : Meets (swapRun rw_seg NO_MEM LOW_USER) (SwapAllowed LOW_USER) (Swapper.boot m resident c) calls)
    (hrun : run (swapRun rw_seg NO_MEM LOW_USER) (Swapper.boot m resident c) calls = some w') :
    w'.images = calls.foldl imageStep (Swapper.boot m resident c).images := (hboot.run hcopies hallowed hrun).2

def copySegment : RwSeg α
  | true, base, off, clicks, c =>
    { c with file := fun k => if off ≤ k ∧ k < off + clicks then c.memory (base + (k - off)) else c.file k }
  | false, base, off, clicks, c =>
    { c with memory := fun k => if base ≤ k ∧ k < base + clicks then c.file (off + (k - base)) else c.memory k }

theorem copySegment_copies : CopiesSegments (@copySegment α) := ⟨fun _ _ _ _ => rfl,fun _ _ _ _ => rfl⟩

def residentProc : MProc := { D := { mem_phys := 1 }, S := { mem_vir := 1, mem_len := 1 } }

def oneResident : Manager 3 where
  table := (freeAll (emptyTable 6) [⟨4,4⟩]).toOption.getD (emptyTable 6)
  swap_base := 9
  swap_maxsize := 2 ^ 32 - 9
  mproc r := if r = 1 then residentProc else {}
  outswap := 1

theorem oneResident_booted : Booted 1 [⟨4,4⟩] [1] oneResident where
  low := by decide
  init := rfl
  chunks := by decide
  top := by decide
  user := by decide
  pos := by decide
  below := by decide
  apart := by decide
  outside := by decide
  onswap := by decide
  unused r hr := if_neg (by simpa using hr)

def swappedOut : List (SwapCall ℕ) :=
  [.swap_on 4,.alloc_mem 3,.start 2 { mem_phys := 4 } { mem_vir := 2, mem_len := 1 } (· + 10),
    .flags 2 true false false false false,.alloc_mem 3,.swap_inqueue 2]

def broughtBack : List (SwapCall ℕ) := swappedOut ++ [.swap_in,.turn,.turn,.free_mem ⟨4,3⟩,.swap_in,.turn,.write 2 1 50]

theorem brought_back_intact : ∃ w', run (swapRun copySegment 0 1) (Swapper.boot oneResident [1] ⟨id,id⟩) broughtBack = some w' ∧
    w'.images 2 = some [10,50,12] ∧
      w'.images = broughtBack.foldl imageStep (Swapper.boot oneResident [1] ⟨id,id⟩).images := by
  have hruns : (run (swapRun copySegment 0 1) (Swapper.boot oneResident [1] ⟨id,id⟩) broughtBack).isSome = true := by decide
  obtain ⟨w',hrun⟩ := Option.isSome_iff_exists.mp hruns
  have himages := swapping_transparent copySegment_copies oneResident_booted (by decide) hrun
  exact ⟨w',hrun,by rw [himages]; decide,himages⟩

/-- `swap_off`, when nobody is swapped out: it removes the swap area if some hole lies below
it or there are no holes at all, and follows a null pointer otherwise. -/
theorem swap_off_returns {replies : List Block} (hcopies : CopiesSegments rw_seg)
    (hboot : Booted LOW_USER replies resident m) {calls : List (SwapCall α)}
    (hallowed : Meets (swapRun rw_seg NO_MEM LOW_USER) (SwapAllowed LOW_USER) (Swapper.boot m resident c) calls)
    (hrun : run (swapRun rw_seg NO_MEM LOW_USER) (Swapper.boot m resident c) calls = some w') (hfd : w'.swap_fd = true)
    (hresident : w'.Resident LOW_USER) :
    if w'.manager.table.holes = [] ∨ ∃ b ∈ w'.manager.table.holes, b.base < w'.manager.swap_base then
      ∃ t, w'.swap_off LOW_USER = .ok { w' with manager := { w'.manager with table := t }, swap_fd := false } ∧
        t.holes = w'.manager.table.holes.filter fun b => b.base < w'.manager.swap_base
    else w'.swap_off LOW_USER = .error .nil := by
  obtain ⟨all,size,hcore⟩ := (hboot.run hcopies hallowed hrun).1
  have hspec := hcore.swap_off_spec hfd hresident
  split at hspec
  · next hholes =>
    rw [if_pos hholes]
    obtain ⟨t,hoff,hfilter,-⟩ := hspec
    exact ⟨t,hoff,hfilter⟩
  · next hholes =>
    rw [if_neg hholes]
    exact hspec

/-- With all memory handed out there is no hole but the swap area. -/
theorem swap_off_crashes : ∃ w', run (swapRun copySegment 0 1) (Swapper.boot oneResident [1] ⟨id,id⟩)
      [.swap_on 4,.alloc_mem 4] = some w' ∧ w'.swap_off 1 = .error .nil := by
  have hruns : ((run (swapRun copySegment 0 1) (Swapper.boot oneResident [1] (⟨id,id⟩ : Clicks ℕ))
    [.swap_on 4,.alloc_mem 4]).any fun w => w.swap_fd = true ∧ w.Resident 1 ∧ w.manager.table.holes = [⟨9,4⟩] ∧
      w.manager.swap_base = 9) = true := by decide
  obtain ⟨w',hrun,hstate⟩ := (Option.any_eq_true _ _).mp hruns
  obtain ⟨hfd,hresident,hholes,hbase⟩ := of_decide_eq_true hstate
  have hoff := swap_off_returns copySegment_copies oneResident_booted (by decide) hrun hfd hresident
  rw [hholes, hbase, if_neg (by decide)] at hoff
  exact ⟨w',hrun,hoff⟩

end SOI.Memory

import SOI.Memory.SwapRuns

/-! # A pass of `swap_in`

Every turn goes one process further on the queue, or takes one off it. A pass ends, and
leaves those on the queue that still are to be swapped in.
-/
namespace SOI.Memory
open Linked Intervals Copies Runs
variable {α : Type} {NR_PROCS NO_MEM LOW_USER size rmp : ℕ} {all : Finset ℕ} {m : Manager NR_PROCS} {w w' : Swapper NR_PROCS α}
  {rw_seg : RwSeg α} {b : Block} {resident : List ℕ} {c : Clicks α} {front back : List ℕ}

theorem Core.free_or_full (h : Core LOW_USER all size w) (hb : b ∈ w.manager.live) :
    w.free_mem b = .error (.panic "Hole table full") ∨
      ∃ t, w.free_mem b = .ok { w with manager := { w.manager with table := t, live := w.manager.live.erase b } } := by
  rcases h.good.healthy.free_mem h.good.frame hb with hpanic | ⟨t,hfree,-⟩
  · left
    rw [Swapper.free_mem, hpanic]
    rfl
  · refine Or.inr ⟨t,?_⟩
    rw [Swapper.free_mem, hfree]
    rfl

/-- Where a turn leaves the queue, the processes of `front` being behind it. -/
def Advanced (w' : Swapper NR_PROCS α) (front : List ℕ) : List ℕ → Prop
  | [] => w'.pmp = none ∧ w'.Queue front ∧ ∀ r ∈ front, w'.SWAPIN r = true
  | rmp :: back => ∃ front', front'.Sublist (front ++ [rmp]) ∧ w'.pmp = some front'.getLast? ∧ w'.Queue (front' ++ back) ∧
      ∀ r ∈ front', w'.SWAPIN r = true

theorem Advanced.passed (hq : w.Queue (front ++ rmp :: back)) (hwait : ∀ r ∈ front ++ [rmp], w.SWAPIN r = true) :
    Advanced { w with pmp := some (some rmp) } front (rmp :: back) :=
  ⟨front ++ [rmp],List.Sublist.refl _,by simp,by rw [List.append_assoc]; exact hq,hwait⟩

theorem Core.turn_advances (hcopies : CopiesSegments rw_seg) (h : Core LOW_USER all size w) (hq : w.Queue (front ++ back))
    (hpmp : w.pmp = some front.getLast?) (hwait : ∀ r ∈ front, w.SWAPIN r = true) :
    w.turn rw_seg NO_MEM LOW_USER front.getLast? = .error (.panic "Hole table full") ∨
      ∃ w', w.turn rw_seg NO_MEM LOW_USER front.getLast? = .ok w' ∧ Advanced w' front back := by
  have hturned := h.turn_cases hcopies NO_MEM hq
  generalize w.turn rw_seg NO_MEM LOW_USER front.getLast? = res at hturned ⊢
  cases hturned with
  | ended =>
    rw [List.append_nil] at hq
    exact Or.inr ⟨_,rfl,rfl,hq,hwait⟩
  | full => exact Or.inl rfl
  | @cleaned rmp back hflag =>
    exact Or.inr ⟨_,rfl,front,List.sublist_append_left front [rmp],by simpa using hpmp,hq.remove,by simpa using hwait⟩
  | @passed rmp back w₁ hflag hcore hkeeps =>
    refine Or.inr ⟨_,rfl,Advanced.passed (hkeeps.Queue.mpr hq) fun r hr => ?_⟩
    rw [hkeeps.SWAPIN]
    rcases List.mem_append.mp hr with hr | hr
    · exact hwait r hr
    · rw [List.mem_singleton.mp hr]
      exact hflag
  | @moved rmp new_base back w₁ hflag hcore hkeeps hnew hapart hbelow =>
    obtain ⟨hused,hon⟩ := h.queued.onswap rmp hflag
    have hrmp : rmp ∉ front := fun hin => (List.nodup_append.mp hq.nodup).2.2 rmp hin rmp (by simp) rfl
    have hsame := hkeeps.swapped rmp hon
    have hlive : (⟨(w.manager.mproc rmp).D.mem_phys,(w.manager.mproc rmp).size⟩ : Block) ∈ w₁.manager.live := by
      rw [← hsame]
      exact hcore.housed.live rmp (by rw [hkeeps.IN_USE]; exact hused)
    rw [Swapper.moveIn, hsame]
    dsimp only
    rcases hcore.free_or_full hlive with hfull | ⟨t,hfree⟩
    · rw [hfull]
      exact Or.inl rfl
    · rw [hfree]
      refine Or.inr ⟨_,rfl,front,List.sublist_append_left front [rmp],?_,?_,fun r hr => ?_⟩
      · exact (setLink_pmp ..).trans (hkeeps.pmp.trans hpmp)
      · exact Swapper.Queue.remove (w := { w₁ with manager := _ }) (hkeeps.Queue.mpr hq)
      · have hne : r ≠ rmp := by
          rintro rfl
          exact hrmp hr
        exact (Function.update_of_ne hne _ _).trans ((congrFun hkeeps.SWAPIN r).trans (hwait r hr))

/-- A pass from the process behind `front` on. -/
theorem Core.swap_in (hcopies : CopiesSegments rw_seg) (h : Core LOW_USER all size w) {fuel : ℕ}
    (hq : w.Queue (front ++ back)) (hpmp : w.pmp = some front.getLast?) (hwait : ∀ r ∈ front, w.SWAPIN r = true)
    (hfuel : back.length + 1 < fuel) :
    w.swap_in rw_seg NO_MEM LOW_USER fuel = .error (.panic "Hole table full") ∨
      ∃ w' q, w.swap_in rw_seg NO_MEM LOW_USER fuel = .ok w' ∧ w'.pmp = none ∧ w'.Queue q ∧ q.Sublist (front ++ back) ∧
        (∀ r ∈ q, w'.SWAPIN r = true) ∧ Core LOW_USER all size w' ∧ SameImages w w' := by
  induction back generalizing w front fuel with
  | nil =>
    obtain ⟨fuel,rfl⟩ : ∃ n, fuel = n + 2 := ⟨fuel - 2,by omega⟩
    rw [Swapper.swap_in, hpmp]
    dsimp only
    rcases h.turn_advances hcopies hq hpmp hwait with hpanic | ⟨w₁,hturn,hnone,hqueue,hwait₁⟩
    · rw [hpanic]
      exact Or.inl rfl
    · obtain ⟨hcore,hsame⟩ := h.turn hcopies hpmp hturn
      refine Or.inr ⟨w₁,front,?_,hnone,hqueue,by simp,hwait₁,hcore,hsame⟩
      rw [hturn, Except.bind, Swapper.swap_in, hnone]
  | cons rmp back ih =>
    obtain ⟨fuel,rfl⟩ : ∃ n, fuel = n + 1 := ⟨fuel - 1,by omega⟩
    rw [Swapper.swap_in, hpmp]
    dsimp only
    rcases h.turn_advances hcopies hq hpmp hwait with hpanic | ⟨w₁,hturn,front',hsub,hpmp₁,hqueue,hwait₁⟩
    · rw [hpanic]
      exact Or.inl rfl
    · obtain ⟨hcore,hsame⟩ := h.turn hcopies hpmp hturn
      rw [hturn, Except.bind]
      rcases ih hcore hqueue hpmp₁ hwait₁ (by simpa using hfuel) with
        hpanic | ⟨w',q,hrun,hnone,hq',hsub',hwait',hcore',hsame'⟩
      · exact Or.inl hpanic
      · refine Or.inr ⟨w',q,hrun,hnone,hq',hsub'.trans ?_,hwait',hcore',hsame.trans hsame'⟩
        have hlonger := hsub.append_right back
        rwa [List.append_assoc] at hlonger

/-- A pass that nothing interrupts ends, unless the hole table is full: the queue then
consists of just those that are to be swapped in, in the order as before, and no process
holds anything else. -/
theorem swap_in_ends {replies : List Block} (hcopies : CopiesSegments rw_seg) (hboot : Booted LOW_USER replies resident m)
    {calls : List (SwapCall α)}
    (hallowed : Meets (swapRun rw_seg NO_MEM LOW_USER) (SwapAllowed LOW_USER) (Swapper.boot m resident c) calls)
    (hrun : run (swapRun rw_seg NO_MEM LOW_USER) (Swapper.boot m resident c) calls = some w) :
    ({ w with pmp := some none } : Swapper NR_PROCS α).swap_in rw_seg NO_MEM LOW_USER (NR_PROCS + 2) =
        .error (.panic "Hole table full") ∨
      ∃ w', ({ w with pmp := some none } : Swapper NR_PROCS α).swap_in rw_seg NO_MEM LOW_USER (NR_PROCS + 2) = .ok w' ∧
        w'.pmp = none ∧ w'.queue.Sublist w.queue ∧ (∀ r, r ∈ w'.queue ↔ w'.SWAPIN r = true) ∧ w'.images = w.images := by
  obtain ⟨all,size,h⟩ := (hboot.run hcopies hallowed hrun).1
  obtain ⟨q,hq,hlt,hmem,-⟩ := h.queued.list
  have hcore : Core LOW_USER all size { w with pmp := some none } :=
    ⟨h.good,h.area,h.off,h.maxsize,h.housed,⟨q,hq,hlt,hmem,fun p hp => by cases hp⟩,h.queued.onswap⟩
  have hnil : ∀ r ∈ ([] : List ℕ), ({ w with pmp := some none } : Swapper NR_PROCS α).SWAPIN r = true := by simp
  have hfuel : q.length + 1 < NR_PROCS + 2 := Nat.succ_lt_succ (Nat.lt_succ_of_le (length_le_procs hq.nodup hlt))
  rcases Core.swap_in hcopies hcore (show Swapper.Queue _ ([] ++ q) from hq) rfl hnil hfuel with
    hpanic | ⟨w',q',hpass,hnone,hq',hsub,hwait,hcore',hsame⟩
  · exact Or.inl hpanic
  · have hlt' : ∀ r ∈ q', r < NR_PROCS := fun r hr => hlt r (hsub.subset hr)
    have hqueue := hq'.queue_eq hlt'
    refine Or.inr ⟨w',hpass,hnone,?_,fun r => ?_,?_⟩
    · rw [hqueue, hq.queue_eq hlt]
      exact hsub
    · rw [hqueue]
      refine ⟨hwait r,fun hr => ?_⟩
      obtain ⟨q₂,hq₂,-,hmem₂,-⟩ := hcore'.queued.list
      rw [Seg.unique (Option.some_injective _) (by simp) hq' hq₂]
      exact hmem₂ r hr
    · have himages := hsame.images_eq
      exact himages

theorem waiting_pass_ends : ∃ w, run (swapRun copySegment 0 1) (Swapper.boot oneResident [1] ⟨id,id⟩) swappedOut = some w ∧
    w.queue = [2] ∧ ∃ w', ({ w with pmp := some none } : Swapper 3 ℕ).swap_in copySegment 0 1 5 = .ok w' ∧
      (∀ r, r ∈ w'.queue ↔ w'.SWAPIN r = true) ∧ w'.images = w.images := by
  have hruns : ((run (swapRun copySegment 0 1) (Swapper.boot oneResident [1] ⟨id,id⟩) swappedOut).any fun w =>
    w.queue = [2] ∧ (({ w with pmp := some none } : Swapper 3 ℕ).swap_in copySegment 0 1 5).isOk = true) = true := by decide
  obtain ⟨w,hrun,hstate⟩ := (Option.any_eq_true _ _).mp hruns
  obtain ⟨hqueue,hok⟩ := of_decide_eq_true hstate
  rcases swap_in_ends copySegment_copies oneResident_booted (by decide) hrun with hpanic | ⟨w',hpass,-,-,hflags,himages⟩
  · rw [hpanic] at hok
    cases hok
  · exact ⟨w,hrun,hqueue,w',hpass,hflags,himages⟩

end SOI.Memory

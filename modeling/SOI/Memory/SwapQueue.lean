import SOI.Memory.Swapping

/-! # The queue of the processes to be swapped in

A singly linked list that is changed through pointers to its links: `swap_inqueue`
appends to it, and `swap_in` takes processes out of it where its `pmp` points.
-/
namespace SOI.Memory
open Linked
variable {α : Type} {NR_PROCS : ℕ} {w w' : Swapper NR_PROCS α} {q front back xs : List ℕ} {p rmp : ℕ} {pmp next : Option ℕ}

def Swapper.Queue (w : Swapper NR_PROCS α) (q : List ℕ) : Prop := Seg some w.mp_swapq w.in_queue q none

def Swapper.walk (w : Swapper NR_PROCS α) : ℕ → Option ℕ → List ℕ
  | 0, _ => []
  | _ + 1, none => []
  | n + 1, some rmp => rmp :: w.walk n (w.mp_swapq rmp)

def Swapper.queue (w : Swapper NR_PROCS α) : List ℕ := w.walk NR_PROCS w.in_queue

section
variable (w : Swapper NR_PROCS α) (pmp next : Option ℕ)

@[simp] theorem setLink_manager : (w.setLink pmp next).manager = w.manager := by cases pmp <;> rfl

@[simp] theorem setLink_clicks : (w.setLink pmp next).clicks = w.clicks := by cases pmp <;> rfl

@[simp] theorem setLink_swap_fd : (w.setLink pmp next).swap_fd = w.swap_fd := by cases pmp <;> rfl

@[simp] theorem setLink_IN_USE : (w.setLink pmp next).IN_USE = w.IN_USE := by cases pmp <;> rfl

@[simp] theorem setLink_SWAPIN : (w.setLink pmp next).SWAPIN = w.SWAPIN := by cases pmp <;> rfl

@[simp] theorem setLink_pmp : (w.setLink pmp next).pmp = w.pmp := by cases pmp <;> rfl

end

theorem Swapper.Queue.nodup (h : w.Queue q) : q.Nodup := Seg.nodup (Option.some_injective _) (by simp) h

theorem walk_queue {n : ℕ} (h : Seg some w.mp_swapq next q none) (hn : q.length ≤ n) : w.walk n next = q := by
  induction n generalizing next q with
  | zero =>
    cases q with
    | nil => rfl
    | cons x q => simp at hn
  | succ n ih =>
    cases q with
    | nil =>
      obtain rfl : next = none := h
      rfl
    | cons x q =>
      obtain ⟨rfl,hrest⟩ := h
      rw [Swapper.walk, ih hrest (by simpa using hn)]

theorem length_le_procs (hnodup : q.Nodup) (hlt : ∀ r ∈ q, r < NR_PROCS) : q.length ≤ NR_PROCS := by
  have hsub : q.toFinset ⊆ Finset.range NR_PROCS := fun r hr =>
    Finset.mem_range.mpr (hlt r (List.mem_toFinset.mp hr))
  have hcard := Finset.card_le_card hsub
  rwa [Finset.card_range, List.toFinset_card_of_nodup hnodup] at hcard

theorem Swapper.Queue.queue_eq (h : w.Queue q) (hlt : ∀ r ∈ q, r < NR_PROCS) : w.queue = q :=
  walk_queue h (length_le_procs h.nodup hlt)

theorem Swapper.Queue.link (h : w.Queue (front ++ back)) : w.link front.getLast? = back.head? := by
  obtain ⟨next,hfront,hback⟩ := seg_append.mp h
  have hnext : next = back.head? := by
    cases back with
    | nil => exact hback
    | cons x back => exact hback.1
  rw [← hnext]
  rcases List.eq_nil_or_concat' front with rfl | ⟨front,p,rfl⟩
  · exact hfront
  · rw [List.getLast?_concat]
    exact (seg_concat.mp hfront).2

theorem Swapper.Queue.setLink (h : w.Queue (front ++ back)) (hback : Seg some w.mp_swapq next xs none)
    (hapart : ∀ x ∈ xs, x ∉ front) : (w.setLink front.getLast? next).Queue (front ++ xs) := by
  have hnodup := h.nodup
  obtain ⟨m,hfront,-⟩ := seg_append.mp h
  rcases List.eq_nil_or_concat' front with rfl | ⟨front,p,rfl⟩
  · exact hback
  · have hp : p ∉ front := fun hin => by
      rw [List.append_assoc] at hnodup
      exact (List.nodup_append.mp hnodup).2.2 p hin p (by simp) rfl
    rw [List.getLast?_concat]
    refine seg_append.mpr ⟨next,hfront.relink hp next,hback.update (fun hin => ?_) next⟩
    exact hapart p hin (by simp)

theorem Swapper.Queue.remove (h : w.Queue (front ++ rmp :: back)) :
    (w.setLink front.getLast? (w.mp_swapq rmp)).Queue (front ++ back) := by
  have hnodup := h.nodup
  refine h.setLink ?_ fun x hx hin => ?_
  · obtain ⟨m,-,hrest⟩ := seg_append.mp h
    exact hrest.2
  · exact (List.nodup_append.mp hnodup).2.2 x hin x (List.mem_cons_of_mem _ hx) rfl

/-- A link of the queue: that of its head, or that of a process on it. -/
theorem split_at_link (h : ∀ p, pmp = some p → p ∈ q) : ∃ front back, q = front ++ back ∧ pmp = front.getLast? := by
  cases pmp with
  | none => exact ⟨[],q,rfl,rfl⟩
  | some p =>
    obtain ⟨front,back,rfl⟩ := List.append_of_mem (h p rfl)
    exact ⟨front ++ [p],back,by simp,by simp⟩

theorem queueEnd_eq {fuel : ℕ} (h : w.Queue (front ++ back)) (hfuel : back.length < fuel) :
    w.queueEnd fuel front.getLast? = .ok (front ++ back).getLast? := by
  induction fuel generalizing front back with
  | zero => omega
  | succ fuel ih =>
    rw [Swapper.queueEnd, h.link]
    cases back with
    | nil => rw [List.append_nil]; rfl
    | cons x back =>
      have hmoved : front ++ x :: back = (front ++ [x]) ++ back := by simp
      rw [hmoved] at h ⊢
      have hrest := ih h (by simpa using hfuel)
      rw [List.getLast?_concat] at hrest
      exact hrest

theorem setLink_comm (h : pmp ≠ some rmp) (next next' : Option ℕ) :
    (w.setLink pmp next).setLink (some rmp) next' = (w.setLink (some rmp) next').setLink pmp next := by
  cases pmp with
  | none => rfl
  | some p =>
    have hne : p ≠ rmp := fun heq => h (congrArg some heq)
    simp only [Swapper.setLink]
    rw [Function.update_comm hne]

/-- A process that is not on the queue is put at its end. -/
theorem swap_inqueue_spec (h : w.Queue q) (hlt : ∀ r ∈ q, r < NR_PROCS) (hrmp : rmp ∉ q) (hflag : w.SWAPIN rmp = false) :
    ∃ w', w.swap_inqueue rmp = .ok w' ∧ w'.Queue (q ++ [rmp]) ∧ w'.SWAPIN = Function.update w.SWAPIN rmp true ∧
      w'.manager = w.manager ∧ w'.clicks = w.clicks ∧ w'.swap_fd = w.swap_fd ∧ w'.IN_USE = w.IN_USE ∧ w'.pmp = w.pmp := by
  have hend : w.queueEnd (NR_PROCS + 1) none = .ok q.getLast? :=
    @queueEnd_eq _ _ w [] q _ h (Nat.lt_succ_of_le (length_le_procs h.nodup hlt))
  have hne : q.getLast? ≠ some rmp := fun hlast => hrmp (List.mem_of_getLast? hlast)
  let w₁ := w.setLink (some rmp) none
  have hkept : w₁.Queue (q ++ []) := by
    rw [List.append_nil]
    exact Seg.update h hrmp none
  have hqueue : (w₁.setLink q.getLast? (some rmp)).Queue (q ++ [rmp]) :=
    hkept.setLink ⟨rfl,Function.update_self ..⟩ fun x hx => by
      rw [List.mem_singleton.mp hx]
      exact hrmp
  rw [← setLink_comm hne] at hqueue
  refine ⟨{ (w.setLink q.getLast? (some rmp)).setLink (some rmp) none with SWAPIN := Function.update w.SWAPIN rmp true },
    ?_,hqueue,rfl,?_⟩
  · rw [Swapper.swap_inqueue, hflag, if_neg Bool.false_ne_true, hend]
    rfl
  · simp

end SOI.Memory

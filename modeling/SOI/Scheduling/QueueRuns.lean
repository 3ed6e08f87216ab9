import SOI.Library.Runs
import SOI.Scheduling.RoundRobin
import SOI.Scheduling.SystemTask

/-! # The three ready queues over whole runs

Every operation changes one queue and the links of processes of its class. From
the empty queues on each queue therefore holds just the processes of its class
that were made ready and not unready since, although `unready` may leave a tail
behind that no longer belongs to its queue.
-/
namespace SOI.Scheduling
open Linked Runs
variable {ρ : Type} {k k' k'' : Table ρ} {xs ys zs : List ρ} {x rp : ρ} {q q' : Queue} {slots : Slots ρ}
  {order : List ρ} {fuel : ℕ}

structure Relinked (q : Queue) (xs : List ρ) (k k' : Table ρ) : Prop where
  fields : ∀ rp, { k'.proc rp with p_nextready := none } = { k.proc rp with p_nextready := none }
  links : ∀ rp, rp ∉ xs → k'.next rp = k.next rp
  heads : ∀ q', q' ≠ q → k'.rdy_head q' = k.rdy_head q'
  tails : ∀ q', q' ≠ q → k'.rdy_tail q' = k.rdy_tail q'

theorem Relinked.refl (q : Queue) (xs : List ρ) (k : Table ρ) : Relinked q xs k k :=
  ⟨fun _ => rfl,fun _ _ => rfl,fun _ _ => rfl,fun _ _ => rfl⟩

theorem Reordered.relinked (h : Reordered xs k k') : Relinked .USER_Q xs k k' :=
  ⟨h.fields,h.links,h.heads,h.tails⟩

theorem Relinked.pick_proc (h : Relinked q xs k k') (slots : Slots ρ) : Relinked q xs k (pick_proc slots k') := by
  constructor
  · simpa using h.fields
  · simpa using h.links
  · simpa using h.heads
  · simpa using h.tails

theorem Relinked.setHead (h : Relinked q xs k k') (p : Option ρ) : Relinked q xs k (k'.setHead q p) :=
  { h with heads := fun q' hq => (Function.update_of_ne hq _ _).trans (h.heads q' hq) }

theorem Relinked.setTail (h : Relinked q xs k k') (p : Option ρ) : Relinked q xs k (k'.setTail q p) :=
  { h with tails := fun q' hq => (Function.update_of_ne hq _ _).trans (h.tails q' hq) }

theorem Relinked.priority (h : Relinked q xs k k') (rp : ρ) :
    (k'.proc rp).p_priority = (k.proc rp).p_priority := by
  simpa using congrArg Proc.p_priority (h.fields rp)

theorem Relinked.group (h : Relinked q xs k k') (rp : ρ) : (k'.proc rp).group = (k.proc rp).group := by
  simpa using congrArg Proc.group (h.fields rp)

theorem queueOf_congr (h : (k'.proc rp).p_priority = (k.proc rp).p_priority) : queueOf k' rp = queueOf k rp := by
  have htask : istaskp k' rp = istaskp k rp := by rw [istaskp, h, istaskp]
  have hserv : isservp k' rp = isservp k rp := by rw [isservp, h, isservp]
  rw [queueOf, htask, hserv, queueOf]

theorem Relinked.frame (h : Relinked q xs k k') (hq : q' ≠ q) (hys : OnQueue k q' ys) (hdisj : ∀ p ∈ ys, p ∉ xs) :
    OnQueue k' q' ys :=
  hys.frame (fun p hp => h.links p (hdisj p hp)) (h.heads q' hq) (h.tails q' hq)

variable [DecidableEq ρ]

theorem Relinked.setNext (h : Relinked q xs k k') (hx : x ∈ xs) (p : Option ρ) :
    Relinked q xs k (k'.setNext x p) := by
  refine ⟨fun rp => ?_,fun rp hrp => ?_,h.heads,h.tails⟩
  · rw [← h.fields rp]
    exact fields_setNext k' x p rp
  · rw [next_setNext, Function.update_of_ne (ne_of_mem_of_not_mem hx hrp).symm]
    exact h.links rp hrp

theorem Relinked.cutTail (h : Relinked q xs k k') (x y : ρ) : Relinked q xs k (k'.cutTail q x y) := by
  unfold Table.cutTail
  split
  · exact h.setTail _
  · exact h

theorem append_onQueue (h : OnQueue k q xs) (hx : x ∉ xs) :
    ∃ k', append k q x = some k' ∧ OnQueue k' q (xs ++ [x]) ∧ Relinked q (x :: xs) k k' := by
  rcases List.eq_nil_or_concat' xs with rfl | ⟨front,last,rfl⟩
  · have hhead : k.rdy_head q = none := h.head
    refine ⟨_,by rw [append, hhead]; rfl,⟨?_,?_⟩,?_⟩
    · simp
    · simp
    · exact (((Relinked.refl _ _ _).setHead _).setTail _).setNext (by simp) _
  · obtain ⟨y,hhead⟩ : ∃ y, k.rdy_head q = some y := by
      rw [← Option.isSome_iff_exists, h.head]
      simp
    have htail : k.rdy_tail q = some last := h.tail last (by simp)
    have hlast : last ∉ front := by
      intro hm
      exact (List.nodup_append.mp h.nodup).2.2 last hm last (by simp) rfl
    refine ⟨_,by rw [append, hhead, htail]; rfl,⟨?_,?_⟩,?_⟩
    · have hlinked := (h.linked.relink hlast (some x)).update hx none
      simp only [next_setNext, next_setTail, rdy_head_setNext, rdy_head_setTail]
      exact seg_concat.mpr ⟨hlinked,Function.update_self ..⟩
    · simp
    · exact (((Relinked.refl _ _ _).setNext (by simp) _).setTail _).setNext (by simp) _

/-- The search for the predecessor ends at the end of the queue or in front of the process. -/
theorem predecessor_split (h : Seg some k.next (some x) (x :: xs) none) (hfuel : xs.length < fuel) :
    (rp ∉ xs ∧ predecessor k rp fuel x = some none) ∨
      ∃ front prev rest, x :: xs = front ++ prev :: rp :: rest ∧ predecessor k rp fuel x = some (some prev) := by
  induction xs generalizing x fuel with
  | nil =>
    obtain ⟨fuel,rfl⟩ : ∃ n, fuel = n + 1 := ⟨fuel - 1,by simp at hfuel; omega⟩
    have hnext : k.next x = none := h.2
    exact Or.inl ⟨by simp,by simp [predecessor, hnext]⟩
  | cons y ys ih =>
    obtain ⟨fuel,rfl⟩ : ∃ n, fuel = n + 1 := ⟨fuel - 1,by simp at hfuel; omega⟩
    have hnext : k.next x = some y := h.2.1
    by_cases hy : y = rp
    · subst hy
      exact Or.inr ⟨[],x,ys,rfl,by simp [predecessor, hnext]⟩
    · rcases ih ⟨rfl,h.2.2⟩ (show ys.length < fuel by simp at hfuel; omega) with
        ⟨hnot,hpred⟩ | ⟨front,prev,rest,hsplit,hpred⟩
      · refine Or.inl ⟨?_,by simpa [predecessor, hnext, hy] using hpred⟩
        simp only [List.mem_cons, not_or]
        exact ⟨fun heq => hy heq.symm,hnot⟩
      · exact Or.inr ⟨x :: front,prev,rest,by rw [hsplit]; rfl,by simpa [predecessor, hnext, hy] using hpred⟩

/-- What `unready` does to its queue, unless the stack of a task was overrun. -/
theorem unready_onQueue (slots : Slots ρ) (h : OnQueue k (queueOf k rp) xs) (hfuel : xs.length ≤ fuel)
    (hguard : ¬ (istaskp k rp && (k.proc rp).p_stguard != STACK_GUARD) = true) :
    ∃ k', unready slots fuel k rp = some k' ∧ OnQueue k' (queueOf k rp) (xs.erase rp) ∧
      Relinked (queueOf k rp) xs k k' := by
  rw [unready, if_neg hguard]
  cases xs with
  | nil =>
    have hhead : k.rdy_head (queueOf k rp) = none := h.head
    simp only [hhead]
    exact ⟨k,rfl,h,Relinked.refl _ _ _⟩
  | cons x xs =>
    have hhead : k.rdy_head (queueOf k rp) = some x := h.head
    simp only [hhead]
    by_cases hx : x = rp
    · subst hx
      -- the tail is left as it was, also when the queue is now empty
      have hrest : OnQueue (k.setHead (queueOf k x) (k.next x)) (queueOf k x) xs := by
        refine ⟨by simpa using h.linked.2,fun z hz => ?_⟩
        cases xs with
        | nil => cases hz
        | cons y ys => exact h.tail z (by simpa using hz)
      have hrel := (Relinked.refl (queueOf k x) (x :: xs) k).setHead (k.next x)
      rw [if_pos rfl, List.erase_cons_head]
      split
      · exact ⟨_,rfl,hrest,hrel⟩
      · exact ⟨_,rfl,hrest.pick_proc slots,hrel.pick_proc slots⟩
    · have hsearch : rp ∉ xs ∧ predecessor k rp fuel x = some none ∨ ∃ front prev rest,
          x :: xs = front ++ prev :: rp :: rest ∧ predecessor k rp fuel x = some (some prev) :=
        predecessor_split ⟨rfl,h.linked.2⟩ hfuel
      rw [if_neg hx, removeBehind]
      rcases hsearch with ⟨hnot,hpred⟩ | ⟨front,prev,rest,hsplit,hpred⟩
      · refine ⟨k,by rw [hpred]; rfl,?_,Relinked.refl _ _ _⟩
        rw [List.erase_of_not_mem (by simp [hnot, Ne.symm hx])]
        exact h
      · rw [hpred]
        have hnd := h.nodup
        rw [hsplit] at h hnd ⊢
        refine ⟨_,rfl,?_,?_⟩
        · have hfront : rp ∉ front ++ [prev] := by
            rw [List.append_cons] at hnd
            intro hm
            exact (List.nodup_append.mp hnd).2.2 rp hm rp (by simp) rfl
          rw [List.append_cons, List.erase_append_right _ hfront, List.erase_cons_head, ← List.append_cons]
          exact cut_onQueue h
        · exact ((Relinked.refl _ _ _).setNext (by simp) _).cutTail _ _

/-- The processes found by following the links from a queue's head. -/
def walk (k : Table ρ) : ℕ → Option ρ → List ρ
  | 0, _ => []
  | _ + 1, none => []
  | fuel + 1, some rp => rp :: walk k fuel (k.next rp)

omit [DecidableEq ρ] in
theorem walk_eq {b : Option ρ} (h : Seg some k.next b xs none) (hfuel : xs.length ≤ fuel) : walk k fuel b = xs := by
  induction xs generalizing b fuel with
  | nil =>
    obtain rfl : b = none := h
    cases fuel <;> rfl
  | cons x xs ih =>
    obtain ⟨fuel,rfl⟩ : ∃ n, fuel = n + 1 := ⟨fuel - 1,by simp at hfuel; omega⟩
    obtain ⟨rfl,hrest⟩ := h
    rw [walk, ih hrest (by simpa using hfuel)]

inductive QueueOp (ρ : Type)
  | ready (rp : ρ)
  | unready (rp : ρ)
  | sched
  | pick_proc
  | do_setGroup (m : Message)

def queueStep (slots : Slots ρ) (order : List ρ) (fuel : ℕ) (k : Table ρ) : QueueOp ρ → Option (Table ρ)
  | .ready rp => ready k rp
  | .unready rp => unready slots fuel k rp
  | .sched => sched slots fuel k
  | .pick_proc => some (pick_proc slots k)
  | .do_setGroup m => some (do_setGroup order k m).2

instance : Fintype Queue := ⟨{.TASK_Q,.SERVER_Q,.USER_Q},fun q => by cases q <;> decide⟩

/-- A process is made ready only when it is on no queue. -/
def Allowed (fuel : ℕ) (k : Table ρ) : QueueOp ρ → Prop
  | .ready rp => ∀ q, rp ∉ walk k fuel (k.rdy_head q)
  | _ => True

instance (fuel : ℕ) (k : Table ρ) : (op : QueueOp ρ) → Decidable (Allowed fuel k op)
  | .ready rp => inferInstanceAs (Decidable (∀ q, rp ∉ walk k fuel (k.rdy_head q)))
  | .unready _ | .sched | .pick_proc | .do_setGroup _ => isTrue trivial

/-- A task has written past the end of its stack, on which `unready` panics. -/
def Overrun (k : Table ρ) : QueueOp ρ → Prop
  | .unready rp => (istaskp k rp && (k.proc rp).p_stguard != STACK_GUARD) = true
  | _ => False

def readied (s : Finset ρ) : QueueOp ρ → Finset ρ
  | .ready rp => insert rp s
  | .unready rp => s.erase rp
  | _ => s

/-- The queue of every class holds its ready processes, and no group is out of range. -/
structure Queues (k : Table ρ) (s : Finset ρ) : Prop where
  queue : ∀ q, ∃ xs, OnQueue k q xs ∧ ∀ rp, rp ∈ xs ↔ queueOf k rp = q ∧ rp ∈ s
  groups : ∀ rp, 0 ≤ (k.proc rp).group ∧ (k.proc rp).group < 3

omit [DecidableEq ρ] in
/-- An operation on one queue keeps the others. -/
theorem Queues.relink {s s' : Finset ρ} (h : Queues k s) (hrel : Relinked q zs k k')
    (hzs : ∀ z ∈ zs, queueOf k z = q) (hq : OnQueue k' q xs) (hmem : ∀ p, p ∈ xs ↔ queueOf k p = q ∧ p ∈ s')
    (hs : ∀ p, queueOf k p ≠ q → (p ∈ s' ↔ p ∈ s)) : Queues k' s' := by
  have hclass : ∀ p, queueOf k' p = queueOf k p := fun p => queueOf_congr (hrel.priority p)
  refine ⟨fun q' => ?_,fun rp => ?_⟩
  · by_cases hq' : q' = q
    · subst hq'
      exact ⟨xs,hq,fun p => by rw [hclass, hmem]⟩
    · obtain ⟨ys,hys,hmem'⟩ := h.queue q'
      refine ⟨ys,hrel.frame hq' hys fun p hp hz => hq' ?_,fun p => ?_⟩
      · exact ((hmem' p).mp hp).1.symm.trans (hzs p hz)
      · rw [hclass, hmem']
        exact and_congr_right fun hp => (hs p (by rw [hp]; exact hq')).symm
  · rw [hrel.group]
    exact h.groups rp

theorem ready_onQueue (h : OnQueue k (queueOf k rp) xs) (hx : rp ∉ xs) :
    ∃ k' ys, ready k rp = some k' ∧ OnQueue k' (queueOf k rp) ys ∧ ys.Perm (rp :: xs) ∧
      Relinked (queueOf k rp) (rp :: xs) k k' := by
  unfold queueOf at *
  rw [ready]
  by_cases htask : istaskp k rp = true
  · simp only [htask, if_true] at h ⊢
    -- which process runs next does not matter to the queue
    let k₁ : Table ρ := if k.rdy_head .TASK_Q = none then { k with proc_ptr := rp } else k
    have hsame : k₁.proc = k.proc ∧ k₁.rdy_head = k.rdy_head ∧ k₁.rdy_tail = k.rdy_tail := by
      simp only [k₁]
      split <;> exact ⟨rfl,rfl,rfl⟩
    have hnext : k₁.next = k.next := by
      funext p
      rw [Table.next, hsame.1, Table.next]
    have h₁ : OnQueue k₁ .TASK_Q xs :=
      h.frame (fun p _ => congrFun hnext p) (congrFun hsame.2.1 _) (congrFun hsame.2.2 _)
    obtain ⟨k',happend,hq,hrel⟩ := append_onQueue h₁ hx
    refine ⟨k',_,happend,hq,List.perm_append_singleton _ _,?_⟩
    constructor
    · simpa only [hsame.1] using hrel.fields
    · simpa only [hnext] using hrel.links
    · simpa only [hsame.2.1] using hrel.heads
    · simpa only [hsame.2.2] using hrel.tails
  by_cases hserv : isservp k rp = true
  · simp only [htask, hserv, if_true, Bool.false_eq_true, if_false] at h ⊢
    obtain ⟨k',happend,hq,hrel⟩ := append_onQueue h hx
    exact ⟨k',_,happend,hq,List.perm_append_singleton _ _,hrel⟩
  · simp only [htask, hserv, Bool.false_eq_true, if_false] at h ⊢
    have hhead := h.head
    split
    · next hnone =>
      have hnil : xs = [] := by simpa [hnone] using hhead.symm
      subst hnil
      refine ⟨_,[rp],rfl,@push_onQueue _ _ [] _ _ _ ⟨by simpa using hnone,by simp⟩ (by simp) (by simp),List.Perm.refl _,?_⟩
      exact (((Relinked.refl _ _ _).setTail _).setNext (by simp) _).setHead _
    · next hsome =>
      refine ⟨_,rp :: xs,rfl,push_onQueue h hx ?_,List.Perm.refl _,?_⟩
      · rintro rfl
        exact absurd hhead hsome
      · exact ((Relinked.refl _ _ _).setNext (by simp) _).setHead _

omit [DecidableEq ρ] in
theorem OnQueue.unique (h : OnQueue k q xs) (h' : OnQueue k q ys) : xs = ys :=
  Seg.unique (Option.some_injective _) (by simp) h.linked h'.linked

omit [DecidableEq ρ] in
theorem OnQueue.length_le [Fintype ρ] (h : OnQueue k q xs) : xs.length ≤ Fintype.card ρ :=
  h.nodup.length_le_card

structure Permuted (k k' : Table ρ) : Prop where
  fields : ∀ rp, { k'.proc rp with p_nextready := none } = { k.proc rp with p_nextready := none }
  user : ∀ xs, OnQueue k .USER_Q xs → ∃ ys, OnQueue k' .USER_Q ys ∧ ys.Perm xs
  other : ∀ q xs, q ≠ .USER_Q → OnQueue k q xs → OnQueue k' q xs

theorem Queues.sched [Fintype ρ] {s : Finset ρ} (h : Queues k s) (slots : Slots ρ) (hfuel : Fintype.card ρ + 2 ≤ fuel) :
    ∃ k', Scheduling.sched slots fuel k = some k' ∧ Queues k' s ∧ Permuted k k' := by
  obtain ⟨xs,hq,hmem⟩ := h.queue .USER_Q
  cases xs with
  | nil =>
    have hhead : k.rdy_head .USER_Q = none := hq.head
    refine ⟨k,by rw [Scheduling.sched, hhead],h,fun _ => rfl,fun ys hys => ?_,fun _ _ _ hys => hys⟩
    exact ⟨ys,hys,List.Perm.refl _⟩
  | cons x xs =>
    have hlen : (x :: xs).length + 2 ≤ fuel := (Nat.add_le_add_right hq.length_le 2).trans hfuel
    obtain ⟨k',hsched,hq',hsame⟩ := sched_onQueue slots hq (h.groups x) hlen
    have hrel := hsame.relinked.pick_proc slots
    have hperm := afterSched_perm k (x :: xs)
    refine ⟨_,hsched,?_,hrel.fields,fun ys hys => ?_,fun q ys hne hys => ?_⟩
    · apply h.relink hrel (fun z hz => ((hmem z).mp hz).1) (hq'.pick_proc slots)
      · intro p
        rw [hperm.mem_iff, hmem]
      · exact fun _ _ => Iff.rfl
    · obtain rfl := hys.unique hq
      exact ⟨_,hq'.pick_proc slots,hperm⟩
    · obtain ⟨zs,hzs,hclass⟩ := h.queue q
      obtain rfl := hys.unique hzs
      refine hrel.frame hne hys fun p hp hu => hne ?_
      exact ((hclass p).mp hp).1.symm.trans ((hmem p).mp hu).1

theorem Queues.step_ready [Fintype ρ] {s : Finset ρ} (h : Queues k s) (slots : Slots ρ) (order : List ρ)
    (hfuel : Fintype.card ρ + 2 ≤ fuel) {rp : ρ} (hallowed : Allowed fuel k (.ready rp)) :
    ∃ k', queueStep slots order fuel k (.ready rp) = some k' ∧ Queues k' (readied s (.ready rp)) := by
  obtain ⟨xs,hq,hmem⟩ := h.queue (queueOf k rp)
  have hlen := hq.length_le
  have hx : rp ∉ xs := by
    have hwalk := hallowed (queueOf k rp)
    rwa [walk_eq hq.linked (by omega)] at hwalk
  obtain ⟨k',ys,hready,hq',hperm,hrel⟩ := ready_onQueue hq hx
  refine ⟨k',hready,?_⟩
  apply h.relink hrel _ hq'
  · intro p
    rw [hperm.mem_iff, List.mem_cons, hmem, readied, Finset.mem_insert]
    constructor
    · rintro (rfl | ⟨hp,hs⟩)
      · exact ⟨rfl,Or.inl rfl⟩
      · exact ⟨hp,Or.inr hs⟩
    · rintro ⟨hp,rfl | hs⟩
      · exact Or.inl rfl
      · exact Or.inr ⟨hp,hs⟩
  · intro p hp
    rw [readied, Finset.mem_insert]
    refine ⟨fun hs => hs.resolve_left ?_,Or.inr⟩
    rintro rfl
    exact hp rfl
  · intro z hz
    rcases List.mem_cons.mp hz with rfl | hz
    · rfl
    · exact ((hmem z).mp hz).1

/-- `unready` takes a process out of its queue, if it is there. -/
theorem Queues.step_unready [Fintype ρ] {s : Finset ρ} (h : Queues k s) (slots : Slots ρ) (order : List ρ)
    (hfuel : Fintype.card ρ + 2 ≤ fuel) {rp : ρ} (hover : ¬ Overrun k (.unready rp)) :
    ∃ k', queueStep slots order fuel k (.unready rp) = some k' ∧ Queues k' (readied s (.unready rp)) := by
  obtain ⟨xs,hq,hmem⟩ := h.queue (queueOf k rp)
  have hlen := hq.length_le
  obtain ⟨k',hunready,hq',hrel⟩ := unready_onQueue slots hq (show xs.length ≤ fuel by omega) hover
  refine ⟨k',hunready,?_⟩
  apply h.relink hrel (fun z hz => ((hmem z).mp hz).1) hq'
  · intro p
    rw [hq.nodup.mem_erase_iff, hmem, readied, Finset.mem_erase]
    tauto
  · intro p hp
    rw [readied, Finset.mem_erase]
    refine ⟨And.right,fun hs => ⟨?_,hs⟩⟩
    rintro rfl
    exact hp rfl

theorem Queues.step_setGroup {s : Finset ρ} (h : Queues k s) (slots : Slots ρ) (order : List ρ) (m : Message) :
    ∃ k', queueStep slots order fuel k (.do_setGroup m) = some k' ∧ Queues k' (readied s (.do_setGroup m)) := by
  refine ⟨_,rfl,?_⟩
  rcases do_setGroup_cases order k m with ⟨heq,-⟩ | ⟨rp,-,hrange,heq⟩
  · rw [heq]
    exact h
  · rw [heq]
    have hnext : (k.setProc rp fun p => { p with group := m.m1_i2 }).next = k.next := next_setProc fun _ => rfl
    have hpriority : ∀ p, ((k.setProc rp fun p => { p with group := m.m1_i2 }).proc p).p_priority =
        (k.proc p).p_priority := fun _ => kept_setProc Proc.p_priority (by rfl)
    refine ⟨fun q => ?_,fun p => ?_⟩
    · obtain ⟨xs,hq,hmem⟩ := h.queue q
      refine ⟨xs,hq.frame (fun p _ => congrFun hnext p) rfl rfl,fun p => ?_⟩
      rw [hmem, queueOf_congr (hpriority p)]
      rfl
    · by_cases hp : p = rp
      · subst hp
        rw [proc_setProc_self]
        dsimp only
        omega
      · rw [proc_setProc_of_ne _ hp]
        exact h.groups p

/-- Every operation that does not panic succeeds and keeps the queues. -/
theorem Queues.step [Fintype ρ] {s : Finset ρ} (h : Queues k s) (slots : Slots ρ) (order : List ρ)
    (hfuel : Fintype.card ρ + 2 ≤ fuel) {op : QueueOp ρ} (hallowed : Allowed fuel k op) (hover : ¬ Overrun k op) :
    ∃ k', queueStep slots order fuel k op = some k' ∧ Queues k' (readied s op) := by
  cases op with
  | ready rp => exact h.step_ready slots order hfuel hallowed
  | unready rp => exact h.step_unready slots order hfuel hover
  | sched =>
    obtain ⟨k',hsched,hqueues,-⟩ := h.sched slots hfuel
    exact ⟨k',hsched,hqueues⟩
  | pick_proc =>
    refine ⟨_,rfl,fun q => ?_,fun rp => by simpa using h.groups rp⟩
    obtain ⟨xs,hq,hmem⟩ := h.queue q
    refine ⟨xs,hq.pick_proc slots,fun rp => ?_⟩
    have hclass : queueOf (pick_proc slots k) rp = queueOf k rp := queueOf_congr (by rw [proc_pick_proc])
    rw [hmem, hclass]
    rfl
  | do_setGroup m => exact h.step_setGroup slots order m

theorem Queues.run [Fintype ρ] {s : Finset ρ} (h : Queues k s) (slots : Slots ρ) (order : List ρ)
    (hfuel : Fintype.card ρ + 2 ≤ fuel) {ops : List (QueueOp ρ)}
    (hallowed : Meets (queueStep slots order fuel) (Allowed fuel) k ops)
    (hrun : Runs.run (queueStep slots order fuel) k ops = some k') : Queues k' (ops.foldl readied s) := by
  induction ops generalizing k s with
  | nil =>
    cases hrun
    exact h
  | cons op ops ih =>
    obtain ⟨k₁,hstep,hrun⟩ := run_cons_iff.mp hrun
    have hover : ¬ Overrun k op := by
      intro hover
      cases op with
      | unready rp =>
        have hpanic : (istaskp k rp && (k.proc rp).p_stguard != STACK_GUARD) = true := hover
        rw [queueStep, unready, if_pos hpanic] at hstep
        cases hstep
      | ready | sched | pick_proc | do_setGroup => exact hover
    obtain ⟨k₂,hstep₂,hqueues⟩ := h.step slots order hfuel hallowed.1 hover
    obtain rfl : k₁ = k₂ := Option.some_injective _ (hstep.symm.trans hstep₂)
    exact ih hqueues (hallowed.2 k₁ hstep) hrun

/-- From the empty queues every run keeps the queues intact: each is a list without
repetition that ends in a null pointer and at its tail, and holds the processes of
its class that were made ready and not unready since. Only an overrun stack stops
an operation; `sched` ends and gives the user queue a new order. -/
theorem ready_queues_intact [Fintype ρ] (slots : Slots ρ) (order : List ρ) (hfuel : Fintype.card ρ + 2 ≤ fuel)
    (hempty : ∀ q, k.rdy_head q = none) (hgroups : ∀ rp, 0 ≤ (k.proc rp).group ∧ (k.proc rp).group < 3)
    {ops : List (QueueOp ρ)} (hallowed : Meets (queueStep slots order fuel) (Allowed fuel) k ops)
    (hrun : Runs.run (queueStep slots order fuel) k ops = some k') :
    (∀ q, ∃ xs, OnQueue k' q xs ∧ xs.Nodup ∧ ∀ rp, rp ∈ xs ↔ queueOf k' rp = q ∧ rp ∈ ops.foldl readied ∅) ∧
    (∀ op, Allowed fuel k' op → ¬ Overrun k' op → (queueStep slots order fuel k' op).isSome) ∧
    ∃ k'', sched slots fuel k' = some k'' ∧ Permuted k' k'' := by
  have hstart : Queues k ∅ := by
    refine ⟨fun q => ⟨[],⟨hempty q,by simp⟩,by simp⟩,hgroups⟩
  have hqueues := hstart.run slots order hfuel hallowed hrun
  refine ⟨fun q => ?_,fun op hop hover => ?_,?_⟩
  · obtain ⟨xs,hq,hmem⟩ := hqueues.queue q
    exact ⟨xs,hq,hq.nodup,hmem⟩
  · obtain ⟨k'',hstep,-⟩ := hqueues.step slots order hfuel hop hover
    rw [hstep]
    rfl
  · obtain ⟨k'',hsched,-,hperm⟩ := hqueues.sched slots hfuel
    exact ⟨k'',hsched,hperm⟩

def noneReady : Table Slot where
  proc
    | .system => { p_priority := .PPRI_TASK }
    | .a => { p_priority := .PPRI_USER, p_pid := 1 }
    | .b => { p_priority := .PPRI_USER, p_pid := 2 }
    | .c => { p_priority := .PPRI_USER, p_pid := 3 }
  proc_ptr := .system
  bill_ptr := .system

/-- The only ready process goes and leaves its tail behind; others come and move. -/
def someOps : List (QueueOp Slot) :=
  [.ready .a,.unready .a,.ready .b,.ready .system,.ready .c,.do_setGroup ⟨2,1⟩,.sched,.unready .c,.pick_proc]

theorem someOps_intact : ∃ k',
    Runs.run (queueStep ⟨.system,.system,.system⟩ [.system,.a,.b,.c] 6) noneReady someOps = some k' ∧
    ∀ q, ∃ xs, OnQueue k' q xs ∧ xs.Nodup ∧
      ∀ rp, rp ∈ xs ↔ queueOf k' rp = q ∧ rp ∈ someOps.foldl readied ∅ := by
  have hsome : (Runs.run (queueStep ⟨.system,.system,.system⟩ [.system,.a,.b,.c] 6) noneReady someOps).isSome =
    true := by decide
  obtain ⟨k',hrun⟩ := Option.isSome_iff_exists.mp hsome
  have hallowed : Meets (queueStep ⟨.system,.system,.system⟩ [.system,.a,.b,.c] 6) (Allowed 6) noneReady someOps := by
    decide +kernel
  have hcard : Fintype.card Slot + 2 ≤ 6 := by decide
  have hempty : ∀ q, noneReady.rdy_head q = none := fun _ => rfl
  have hgroups : ∀ rp, 0 ≤ (noneReady.proc rp).group ∧ (noneReady.proc rp).group < 3 := by decide
  obtain ⟨hqueues,-⟩ := ready_queues_intact _ _ hcard hempty hgroups hallowed hrun
  exact ⟨k',hrun,hqueues⟩

end SOI.Scheduling

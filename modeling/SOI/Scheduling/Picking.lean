import SOI.Scheduling.Messages

/-! # Who runs

`proc_ptr` is the head of the first queue that is not empty. `ready` and `unready`
see to it that it stays so, except that making a server ready while a user process
runs leaves the choice to what follows.
-/
namespace SOI.Scheduling
open Linked
variable {ρ : Type} {t t' : Table ρ} {slots : Slots ρ} {q : Queue} {rp : ρ} {fuel : ℕ}

def chosen (slots : Slots ρ) (t : Table ρ) : ρ :=
  ((t.rdy_head .TASK_Q).or ((t.rdy_head .SERVER_Q).or (t.rdy_head .USER_Q))).getD slots.IDLE

def Picked (slots : Slots ρ) (t : Table ρ) : Prop := t.proc_ptr = chosen slots t

/-- A task or a server is ready. -/
def Busy (t : Table ρ) : Prop := t.rdy_head .TASK_Q ≠ none ∨ t.rdy_head .SERVER_Q ≠ none

theorem chosen_congr (h : t'.rdy_head = t.rdy_head) : chosen slots t' = chosen slots t := by
  rw [chosen, h, chosen]

theorem Picked.congr (h : Picked slots t) (hheads : t'.rdy_head = t.rdy_head) (hproc : t'.proc_ptr = t.proc_ptr) :
    Picked slots t' := by
  rw [Picked, hproc, chosen_congr hheads]
  exact h

theorem picked_pick_proc (slots : Slots ρ) (t : Table ρ) : Picked slots (pick_proc slots t) := by
  rw [Picked, chosen, rdy_head_pick_proc, pick_proc]
  cases htask : t.rdy_head .TASK_Q with
  | some x => rfl
  | none =>
    cases hserver : t.rdy_head .SERVER_Q with
    | some x => rfl
    | none => cases t.rdy_head .USER_Q <;> rfl

theorem Picked.of_task {x : ρ} (h : Picked slots t) (hx : t.rdy_head .TASK_Q = some x) : t.proc_ptr = x := by
  rw [h, chosen, hx]
  rfl

theorem Picked.of_server {x : ρ} (h : Picked slots t) (hnone : t.rdy_head .TASK_Q = none)
    (hx : t.rdy_head .SERVER_Q = some x) : t.proc_ptr = x := by
  rw [h, chosen, hnone, hx]
  rfl

theorem Picked.of_user {x : ρ} (h : Picked slots t) (hbusy : ¬ Busy t) (hx : t.rdy_head .USER_Q = some x) :
    t.proc_ptr = x := by
  rw [Busy, not_or, not_not, not_not] at hbusy
  rw [h, chosen, hbusy.1, hbusy.2, hx]
  rfl

/-- IDLE runs only when nobody is ready. -/
theorem Picked.cases (h : Picked slots t) : (∃ q, t.rdy_head q = some t.proc_ptr) ∨ t.proc_ptr = slots.IDLE := by
  cases htask : t.rdy_head .TASK_Q with
  | some x => exact Or.inl ⟨.TASK_Q,by rw [htask, h.of_task htask]⟩
  | none =>
    cases hserver : t.rdy_head .SERVER_Q with
    | some x => exact Or.inl ⟨.SERVER_Q,by rw [hserver, h.of_server htask hserver]⟩
    | none =>
      have hbusy : ¬ Busy t := by simp [Busy, htask, hserver]
      cases huser : t.rdy_head .USER_Q with
      | some x => exact Or.inl ⟨.USER_Q,by rw [huser, h.of_user hbusy huser]⟩
      | none =>
        right
        rw [h, chosen, htask, hserver, huser]
        rfl

variable [DecidableEq ρ]

theorem append_effect (h : append t q rp = some t') :
    t'.rdy_head = Function.update t.rdy_head q (some ((t.rdy_head q).getD rp)) ∧ t'.proc_ptr = t.proc_ptr ∧
      t'.switching = t.switching := by
  unfold append at h
  obtain ⟨k,hk,rfl⟩ := Option.map_eq_some_iff.mp h
  cases hhead : t.rdy_head q with
  | none =>
    simp only [hhead] at hk
    cases hk
    exact ⟨rfl,rfl,rfl⟩
  | some x =>
    simp only [hhead] at hk
    obtain ⟨tail,-,rfl⟩ := Option.map_eq_some_iff.mp hk
    refine ⟨?_,rfl,rfl⟩
    rw [Option.getD_some, ← hhead, Function.update_eq_self]
    rfl

/-- What `ready` does besides linking the process into its queue. -/
theorem ready_effect (h : ready t rp = some t') :
    (∃ x, t'.rdy_head = Function.update t.rdy_head (queueOf t rp) (some x) ∧
      (istaskp t rp ∨ isservp t rp → x = (t.rdy_head (queueOf t rp)).getD rp)) ∧
    t'.switching = t.switching ∧
    t'.proc_ptr = if istaskp t rp ∧ t.rdy_head .TASK_Q = none then rp else t.proc_ptr := by
  unfold ready at h
  unfold queueOf
  by_cases htask : istaskp t rp = true
  · simp only [htask, if_true, readyTask] at h ⊢
    obtain ⟨hheads,hproc,hswitch⟩ := append_effect h
    by_cases hnone : t.rdy_head .TASK_Q = none
    · simp only [hnone, if_true] at hheads hproc hswitch
      exact ⟨⟨_,hheads,fun _ => by rw [hnone]⟩,hswitch,by rw [hproc, if_pos ⟨trivial,hnone⟩]⟩
    · simp only [hnone, if_false] at hheads hproc hswitch
      exact ⟨⟨_,hheads,fun _ => rfl⟩,hswitch,by rw [hproc, if_neg fun hn => hnone hn.2]⟩
  by_cases hserv : isservp t rp = true
  · simp only [htask, hserv, if_true, Bool.false_eq_true, if_false, false_and] at h ⊢
    obtain ⟨hheads,hproc,hswitch⟩ := append_effect h
    exact ⟨⟨_,hheads,fun _ => rfl⟩,hswitch,hproc⟩
  · simp only [htask, hserv, Bool.false_eq_true, if_false, false_and, or_self, false_implies, and_true] at h ⊢
    cases h
    split <;> exact ⟨⟨rp,rfl⟩,rfl,rfl⟩

theorem Busy.ready (h : Busy t) (hready : ready t rp = some t') : Busy t' := by
  obtain ⟨⟨x,hheads,-⟩,-⟩ := ready_effect hready
  have hkept : ∀ q, t.rdy_head q ≠ none → t'.rdy_head q ≠ none := by
    intro q hq
    rw [hheads]
    by_cases hqueue : q = queueOf t rp
    · rw [hqueue, Function.update_self]
      simp
    · rwa [Function.update_of_ne hqueue]
  exact h.imp (hkept _) (hkept _)

theorem rdy_head_ready (hready : Scheduling.ready t rp = some t') (hq : q ≠ queueOf t rp) : t'.rdy_head q = t.rdy_head q := by
  obtain ⟨⟨x,hheads,-⟩,-⟩ := ready_effect hready
  rw [hheads, Function.update_of_ne hq]

/-- A task that becomes ready runs next, or the running task goes on; the others
do not overtake tasks and servers. -/
theorem Picked.ready (h : Picked slots t) (hbusy : istaskp t rp ∨ Busy t) (hready : Scheduling.ready t rp = some t') :
    Picked slots t' := by
  obtain ⟨⟨x,hheads,hx⟩,-,hproc⟩ := ready_effect hready
  have hrun : t.rdy_head .TASK_Q ≠ none → t'.proc_ptr = t.proc_ptr := by
    intro hne
    rw [hproc, if_neg fun hn => hne hn.2]
  rw [Picked]
  cases htask : t.rdy_head .TASK_Q with
  | some y =>
    have hhead : t'.rdy_head .TASK_Q = some y := by
      rw [hheads]
      by_cases hq : queueOf t rp = .TASK_Q
      · have hclass : istaskp t rp = true := by
          by_contra hclass
          rw [queueOf, if_neg hclass] at hq
          split at hq <;> cases hq
        rw [hq, Function.update_self, hx (Or.inl hclass), hq, htask]
        rfl
      · rw [Function.update_of_ne (Ne.symm hq), htask]
    rw [hrun (by simp [htask]), h.of_task htask, chosen, hhead]
    rfl
  | none =>
    by_cases hclass : istaskp t rp = true
    · have hq : queueOf t rp = .TASK_Q := by rw [queueOf, if_pos hclass]
      rw [hproc, if_pos ⟨hclass,htask⟩, chosen, hheads, hq, Function.update_self, hx (Or.inl hclass), hq, htask]
      rfl
    · obtain ⟨y,hserver⟩ := Option.ne_none_iff_exists'.mp ((hbusy.resolve_left hclass).resolve_left fun hne => hne htask)
      have hq : queueOf t rp ≠ .TASK_Q := by
        rw [queueOf, if_neg hclass]
        split <;> simp
      have hheadTask : t'.rdy_head .TASK_Q = none := by rw [hheads, Function.update_of_ne (Ne.symm hq), htask]
      have hhead : t'.rdy_head .SERVER_Q = some y := by
        rw [hheads]
        by_cases hserv : queueOf t rp = .SERVER_Q
        · have hclass' : isservp t rp = true := by
            by_contra hclass'
            rw [queueOf, if_neg hclass, if_neg hclass'] at hserv
            cases hserv
          rw [hserv, Function.update_self, hx (Or.inr hclass'), hserv, hserver]
          rfl
        · rw [Function.update_of_ne (Ne.symm hserv), hserver]
      rw [hproc, if_neg fun hn => hclass hn.1, h.of_server htask hserver, chosen, hheadTask, hhead]
      rfl

/-- When a process is no longer ready, the queues of the other classes have their
heads, and the head of its own queue is picked anew unless it was only waiting. -/
theorem unready_effect (h : unready slots fuel t rp = some t') :
    (∀ q, q ≠ queueOf t rp → t'.rdy_head q = t.rdy_head q) ∧ t'.switching = t.switching ∧
      (Picked slots t → Picked slots t') ∧
      (¬ istaskp t rp → t.rdy_head (queueOf t rp) = some rp → Picked slots t') := by
  unfold unready at h
  split at h
  · cases h
  dsimp only at h
  split at h
  · next hnone =>
    cases h
    refine ⟨fun _ _ => rfl,rfl,id,fun _ hhead => ?_⟩
    rw [hnone] at hhead
    cases hhead
  · next x hhead =>
    split at h
    · next hx =>
      subst hx
      split at h
      · next hwaits =>
        cases h
        obtain ⟨hclass,hne⟩ := Bool.and_eq_true_iff.mp hwaits
        refine ⟨fun q hq => by simp [Function.update_of_ne hq],rfl,fun hpicked => ?_,fun hnot => absurd hclass hnot⟩
        -- a ready task at the head of its queue is the one that runs
        have hq : queueOf t x = .TASK_Q := by rw [queueOf, if_pos hclass]
        rw [hq] at hhead
        rw [hpicked.of_task hhead] at hne
        simp at hne
      · cases h
        refine ⟨fun q hq => ?_,?_,fun _ => picked_pick_proc _ _,fun _ _ => picked_pick_proc _ _⟩
        · simp [Function.update_of_ne hq]
        · obtain ⟨_,_,heq⟩ := pick_proc_eq slots (t.setHead (queueOf t x) (t.next x))
          rw [heq]
          rfl
    · next hx =>
      have hsame : t'.rdy_head = t.rdy_head ∧ t'.proc_ptr = t.proc_ptr ∧ t'.switching = t.switching := by
        obtain ⟨found,-,rfl⟩ := Option.map_eq_some_iff.mp h
        cases found with
        | none => exact ⟨rfl,rfl,rfl⟩
        | some prev =>
          dsimp only [Table.cutTail]
          split <;> exact ⟨rfl,rfl,rfl⟩
      refine ⟨fun q _ => by rw [hsame.1],hsame.2.2,fun hpicked => hpicked.congr hsame.1 hsame.2.1,fun _ hhead' => ?_⟩
      rw [hhead] at hhead'
      exact absurd (Option.some_injective _ hhead') hx

/-- The tables differ in the queues only. -/
def SameFields (t t' : Table ρ) : Prop :=
  ∀ rp, { t'.proc rp with p_nextready := none } = { t.proc rp with p_nextready := none }

/-- The queues hold the processes of `S`, and no stack is overrun. -/
structure Lined (t : Table ρ) (S : Finset ρ) : Prop where
  queues : Queues t S
  guards : ∀ rp, (t.proc rp).p_stguard = STACK_GUARD

variable {S S' : Finset ρ}

omit [DecidableEq ρ] in
theorem SameFields.refl (t : Table ρ) : SameFields t t := fun _ => rfl

omit [DecidableEq ρ] in
theorem SameFields.field {α : Type} (h : SameFields t t') (field : Proc ρ → α)
    (hfield : ∀ p, field { p with p_nextready := none } = field p) (rp : ρ) : field (t'.proc rp) = field (t.proc rp) := by
  rw [← hfield (t'.proc rp), h rp, hfield]

omit [DecidableEq ρ] in
theorem Lined.mem_of_head (h : Lined t S) (hhead : t.rdy_head q = some rp) : queueOf t rp = q ∧ rp ∈ S := by
  obtain ⟨xs,hq,hmem⟩ := h.queues.queue q
  rw [hq.head] at hhead
  exact (hmem rp).mp (List.mem_of_head? hhead)

theorem Lined.ready [Fintype ρ] (h : Lined t S) (hrp : rp ∉ S) :
    ∃ t', Scheduling.ready t rp = some t' ∧ Lined t' (insert rp S) ∧ SameFields t t' := by
  obtain ⟨xs,hq,hmem⟩ := h.queues.queue (queueOf t rp)
  obtain ⟨t',ys,hready,hq',hperm,hrel⟩ := ready_onQueue hq fun hx => hrp ((hmem rp).mp hx).2
  have hsame : SameFields t t' := hrel.fields
  refine ⟨t',hready,⟨?_,fun p => ?_⟩,hsame⟩
  · apply h.queues.relink hrel _ hq'
    · intro p
      rw [hperm.mem_iff, List.mem_cons, hmem, Finset.mem_insert]
      constructor
      · rintro (rfl | ⟨hp,hs⟩)
        · exact ⟨rfl,Or.inl rfl⟩
        · exact ⟨hp,Or.inr hs⟩
      · rintro ⟨hp,rfl | hs⟩
        · exact Or.inl rfl
        · exact Or.inr ⟨hp,hs⟩
    · intro p hp
      rw [Finset.mem_insert]
      refine ⟨fun hs => hs.resolve_left ?_,Or.inr⟩
      rintro rfl
      exact hp rfl
    · intro z hz
      rcases List.mem_cons.mp hz with rfl | hz
      · rfl
      · exact ((hmem z).mp hz).1
  · rw [hsame.field Proc.p_stguard fun _ => rfl]
    exact h.guards p

theorem Lined.unready [Fintype ρ] (h : Lined t S) (slots : Slots ρ) (hfuel : Fintype.card ρ ≤ fuel) (rp : ρ) :
    ∃ t', Scheduling.unready slots fuel t rp = some t' ∧ Lined t' (S.erase rp) ∧ SameFields t t' := by
  obtain ⟨xs,hq,hmem⟩ := h.queues.queue (queueOf t rp)
  have hguard : ¬ (istaskp t rp && (t.proc rp).p_stguard != STACK_GUARD) = true := by simp [h.guards rp]
  obtain ⟨t',hunready,hq',hrel⟩ := unready_onQueue slots hq (hq.length_le.trans hfuel) hguard
  have hsame : SameFields t t' := hrel.fields
  refine ⟨t',hunready,⟨?_,fun p => ?_⟩,hsame⟩
  · apply h.queues.relink hrel (fun z hz => ((hmem z).mp hz).1) hq'
    · intro p
      rw [hq.nodup.mem_erase_iff, hmem, Finset.mem_erase]
      tauto
    · intro p hp
      rw [Finset.mem_erase]
      refine ⟨And.right,fun hs => ⟨?_,hs⟩⟩
      rintro rfl
      exact hp rfl
  · rw [hsame.field Proc.p_stguard fun _ => rfl]
    exact h.guards p

theorem Lined.setProc (h : Lined t S) {f : Proc ρ → Proc ρ} (hf : ∀ p, (f p).p_nextready = p.p_nextready)
    (hclass : rp ∈ S → (f (t.proc rp)).p_priority = (t.proc rp).p_priority)
    (hgroup : 0 ≤ (f (t.proc rp)).group ∧ (f (t.proc rp)).group < 3)
    (hguard : (f (t.proc rp)).p_stguard = STACK_GUARD) : Lined (t.setProc rp f) S := by
  have hnext : (t.setProc rp f).next = t.next := next_setProc hf
  refine ⟨⟨fun q => ?_,fun p => ?_⟩,fun p => ?_⟩
  · obtain ⟨xs,hq,hmem⟩ := h.queues.queue q
    refine ⟨xs,hq.frame (fun p _ => congrFun hnext p) rfl rfl,fun p => ?_⟩
    rw [hmem]
    by_cases hp : p ∈ S
    · have hpriority : ((t.setProc rp f).proc p).p_priority = (t.proc p).p_priority := by
        by_cases hprp : p = rp
        · subst hprp
          rw [proc_setProc_self, hclass hp]
        · rw [proc_setProc_of_ne _ hprp]
      rw [queueOf_congr hpriority]
    · exact iff_of_false (fun hn => hp hn.2) fun hn => hp hn.2
  · by_cases hp : p = rp
    · subst hp
      rw [proc_setProc_self]
      exact hgroup
    · rw [proc_setProc_of_ne _ hp]
      exact h.queues.groups p
  · by_cases hp : p = rp
    · subst hp
      rw [proc_setProc_self]
      exact hguard
    · rw [proc_setProc_of_ne _ hp]
      exact h.guards p

omit [DecidableEq ρ] in
theorem Lined.congr (h : Lined t S) (hproc : t'.proc = t.proc) (hhead : t'.rdy_head = t.rdy_head)
    (htail : t'.rdy_tail = t.rdy_tail) : Lined t' S := by
  have hnext : t'.next = t.next := by
    funext p
    rw [Table.next, hproc, Table.next]
  refine ⟨⟨fun q => ?_,fun p => ?_⟩,fun p => ?_⟩
  · obtain ⟨xs,hq,hmem⟩ := h.queues.queue q
    refine ⟨xs,hq.frame (fun p _ => congrFun hnext p) (congrFun hhead q) (congrFun htail q),fun p => ?_⟩
    rw [hmem, queueOf_congr (by rw [hproc])]
  · rw [hproc]
    exact h.queues.groups p
  · rw [hproc]
    exact h.guards p

omit [DecidableEq ρ] in
theorem Lined.pick (h : Lined t S) (slots : Slots ρ) : Lined (lock_pick_proc slots t) S :=
  h.congr (proc_pick_proc slots _) (rdy_head_pick_proc slots _) (rdy_tail_pick_proc slots _)

structure Readied (slots : Slots ρ) (rp : ρ) (t t' : Table ρ) : Prop where
  same : SameFields t t'
  switching : t.switching = false → t'.switching = false
  picked : istaskp t rp ∨ Busy t → Picked slots t → Picked slots t'
  busy : Busy t → Busy t'
  heads : ∀ q, q ≠ queueOf t rp → t'.rdy_head q = t.rdy_head q

structure Unreadied (slots : Slots ρ) (rp : ρ) (t t' : Table ρ) : Prop where
  same : SameFields t t'
  switching : t.switching = false → t'.switching = false
  picked : Picked slots t → Picked slots t'
  anew : ¬ istaskp t rp → t.rdy_head (queueOf t rp) = some rp → Picked slots t'
  heads : ∀ q, q ≠ queueOf t rp → t'.rdy_head q = t.rdy_head q

omit [DecidableEq ρ] in
theorem Readied.refl (slots : Slots ρ) (rp : ρ) (t : Table ρ) : Readied slots rp t t :=
  ⟨SameFields.refl t,id,fun _ => id,id,fun _ _ => rfl⟩

theorem ready_spec [Fintype ρ] (slots : Slots ρ) (h : Lined t S) (hrp : rp ∉ S) :
    ∃ t', Scheduling.ready t rp = some t' ∧ Lined t' (insert rp S) ∧ Readied slots rp t t' := by
  obtain ⟨t',hready,hlined,hsame⟩ := h.ready hrp
  refine ⟨t',hready,hlined,hsame,fun hswitch => ?_,fun hbusy hpicked => hpicked.ready hbusy hready,
    fun hbusy => hbusy.ready hready,fun q => rdy_head_ready hready⟩
  rw [(ready_effect hready).2.1, hswitch]

theorem lock_ready_spec [Fintype ρ] (slots : Slots ρ) (h : Lined t S) (hrp : rp ∉ S) :
    ∃ t', lock_ready t rp = some t' ∧ Lined t' (insert rp S) ∧ Readied slots rp t t' := by
  have hlocked : Lined { t with switching := true } S := h.congr rfl rfl rfl
  obtain ⟨t',hready,hlined,hreadied⟩ := ready_spec slots hlocked hrp
  exact ⟨{ t' with switching := false },by rw [lock_ready, hready]; rfl,hlined.congr rfl rfl rfl,
    hreadied.same,fun _ => rfl,hreadied.picked,hreadied.busy,hreadied.heads⟩

theorem unready_spec [Fintype ρ] (slots : Slots ρ) (h : Lined t S) (hfuel : Fintype.card ρ ≤ fuel) (rp : ρ) :
    ∃ t', Scheduling.unready slots fuel t rp = some t' ∧ Lined t' (S.erase rp) ∧ Unreadied slots rp t t' := by
  obtain ⟨t',hunready,hlined,hsame⟩ := h.unready slots hfuel rp
  obtain ⟨hheads,hswitch,hpicked,hanew⟩ := unready_effect hunready
  exact ⟨t',hunready,hlined,hsame,fun hfalse => by rw [hswitch, hfalse],hpicked,hanew,hheads⟩

theorem lock_unready_spec [Fintype ρ] (slots : Slots ρ) (h : Lined t S) (hfuel : Fintype.card ρ ≤ fuel) (rp : ρ) :
    ∃ t', lock_unready slots fuel t rp = some t' ∧ Lined t' (S.erase rp) ∧ Unreadied slots rp t t' := by
  have hlocked : Lined { t with switching := true } S := h.congr rfl rfl rfl
  obtain ⟨t',hunready,hlined,hun⟩ := unready_spec slots hlocked hfuel rp
  exact ⟨{ t' with switching := false },by rw [lock_unready, hunready]; rfl,hlined.congr rfl rfl rfl,
    hun.same,fun _ => rfl,hun.picked,hun.anew,hun.heads⟩

end SOI.Scheduling

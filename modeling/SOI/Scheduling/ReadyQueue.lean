import SOI.Scheduling.Proc

/-! # The user queue as a list

What `sched` does to the linked queue is a rotation followed by moving the first
process of one group to the front. Everything but the order of the user queue
stays as it was.
-/
namespace SOI.Scheduling
open Linked
variable {ρ : Type} {k k' k'' : Table ρ} {xs ys : List ρ} {x y : ρ}

@[simp] theorem next_setHead (k : Table ρ) (q : Queue) (p : Option ρ) : (k.setHead q p).next = k.next :=
  rfl

@[simp] theorem next_setTail (k : Table ρ) (q : Queue) (p : Option ρ) : (k.setTail q p).next = k.next :=
  rfl

@[simp] theorem rdy_head_setHead (k : Table ρ) (q : Queue) (p : Option ρ) :
    (k.setHead q p).rdy_head = Function.update k.rdy_head q p := rfl

@[simp] theorem rdy_head_setTail (k : Table ρ) (q : Queue) (p : Option ρ) :
    (k.setTail q p).rdy_head = k.rdy_head := rfl

@[simp] theorem rdy_tail_setHead (k : Table ρ) (q : Queue) (p : Option ρ) :
    (k.setHead q p).rdy_tail = k.rdy_tail := rfl

@[simp] theorem rdy_tail_setTail (k : Table ρ) (q : Queue) (p : Option ρ) :
    (k.setTail q p).rdy_tail = Function.update k.rdy_tail q p := rfl

theorem pick_proc_eq (slots : Slots ρ) (k : Table ρ) :
    ∃ proc_ptr bill_ptr, pick_proc slots k = { k with proc_ptr := proc_ptr, bill_ptr := bill_ptr } := by
  unfold pick_proc
  split
  · exact ⟨_,_,rfl⟩
  · split
    · exact ⟨_,_,rfl⟩
    · split <;> exact ⟨_,_,rfl⟩

@[simp] theorem proc_pick_proc (slots : Slots ρ) (k : Table ρ) : (pick_proc slots k).proc = k.proc := by
  obtain ⟨_,_,h⟩ := pick_proc_eq slots k
  rw [h]

@[simp] theorem next_pick_proc (slots : Slots ρ) (k : Table ρ) : (pick_proc slots k).next = k.next := by
  funext rp
  simp only [Table.next, proc_pick_proc]

@[simp] theorem rdy_head_pick_proc (slots : Slots ρ) (k : Table ρ) :
    (pick_proc slots k).rdy_head = k.rdy_head := by
  obtain ⟨_,_,h⟩ := pick_proc_eq slots k
  rw [h]

@[simp] theorem rdy_tail_pick_proc (slots : Slots ρ) (k : Table ρ) :
    (pick_proc slots k).rdy_tail = k.rdy_tail := by
  obtain ⟨_,_,h⟩ := pick_proc_eq slots k
  rw [h]

/-- The queue holds these processes: they hang between its head and its tail. -/
structure OnQueue (k : Table ρ) (q : Queue) (xs : List ρ) : Prop where
  linked : Seg some k.next (k.rdy_head q) xs none
  tail : ∀ x, xs.getLast? = some x → k.rdy_tail q = some x

theorem OnQueue.nodup {q : Queue} (h : OnQueue k q xs) : xs.Nodup :=
  h.linked.nodup (Option.some_injective _) (by simp)

theorem OnQueue.head {q : Queue} (h : OnQueue k q xs) : k.rdy_head q = xs.head? := by
  cases xs with
  | nil => exact h.linked
  | cons x xs => exact h.linked.1

theorem OnQueue.frame {q : Queue} (h : OnQueue k q xs) (hnext : ∀ p ∈ xs, k'.next p = k.next p)
    (hhead : k'.rdy_head q = k.rdy_head q) (htail : k'.rdy_tail q = k.rdy_tail q) : OnQueue k' q xs := by
  refine ⟨?_,fun x hx => ?_⟩
  · rw [hhead]
    exact h.linked.congr hnext
  · rw [htail]
    exact h.tail x hx

/-- The two tables differ only in the user queue, and there only in the links of
the processes listed. -/
structure Reordered (xs : List ρ) (k k' : Table ρ) : Prop where
  fields : ∀ rp, { k'.proc rp with p_nextready := none } = { k.proc rp with p_nextready := none }
  links : ∀ rp, rp ∉ xs → k'.next rp = k.next rp
  heads : ∀ q, q ≠ .USER_Q → k'.rdy_head q = k.rdy_head q
  tails : ∀ q, q ≠ .USER_Q → k'.rdy_tail q = k.rdy_tail q
  proc_ptr : k'.proc_ptr = k.proc_ptr
  bill_ptr : k'.bill_ptr = k.bill_ptr
  switching : k'.switching = k.switching

theorem Reordered.refl (xs : List ρ) (k : Table ρ) : Reordered xs k k :=
  ⟨fun _ => rfl,fun _ _ => rfl,fun _ _ => rfl,fun _ _ => rfl,rfl,rfl,rfl⟩

theorem Reordered.trans (h : Reordered xs k k') (h' : Reordered xs k' k'') : Reordered xs k k'' where
  fields rp := (h'.fields rp).trans (h.fields rp)
  links rp hrp := (h'.links rp hrp).trans (h.links rp hrp)
  heads q hq := (h'.heads q hq).trans (h.heads q hq)
  tails q hq := (h'.tails q hq).trans (h.tails q hq)
  proc_ptr := h'.proc_ptr.trans h.proc_ptr
  bill_ptr := h'.bill_ptr.trans h.bill_ptr
  switching := h'.switching.trans h.switching

theorem Reordered.mono (h : Reordered xs k k') (hsub : xs ⊆ ys) : Reordered ys k k' :=
  { h with links := fun rp hrp => h.links rp fun hx => hrp (hsub hx) }

theorem Reordered.group (h : Reordered xs k k') (rp : ρ) : (k'.proc rp).group = (k.proc rp).group := by
  simpa using congrArg Proc.group (h.fields rp)

theorem Reordered.setHead (xs : List ρ) (k : Table ρ) (p : Option ρ) :
    Reordered xs k (k.setHead .USER_Q p) :=
  ⟨fun _ => rfl,fun _ _ => rfl,fun _ hq => Function.update_of_ne hq _ _,fun _ _ => rfl,rfl,rfl,rfl⟩

theorem Reordered.setTail (xs : List ρ) (k : Table ρ) (p : Option ρ) :
    Reordered xs k (k.setTail .USER_Q p) :=
  ⟨fun _ => rfl,fun _ _ => rfl,fun _ _ => rfl,fun _ hq => Function.update_of_ne hq _ _,rfl,rfl,rfl⟩

def inGroup (k : Table ρ) (group : ℤ) (rp : ρ) : Bool := (k.proc rp).group = group

theorem Reordered.inGroup (h : Reordered xs k k') (group : ℤ) :
    inGroup k' group = Scheduling.inGroup k group := by
  funext rp
  simp only [Scheduling.inGroup, h.group rp]

variable [DecidableEq ρ]

@[simp] theorem next_setNext (k : Table ρ) (rp : ρ) (p : Option ρ) :
    (k.setNext rp p).next = Function.update k.next rp p := by
  funext z
  by_cases hz : z = rp
  · rw [hz, Table.next, Table.setNext, proc_setProc_self, Function.update_self]
  · rw [Table.next, Table.setNext, proc_setProc_of_ne _ hz, Function.update_of_ne hz, Table.next]

theorem fields_setNext (k : Table ρ) (x : ρ) (p : Option ρ) (rp : ρ) :
    { (k.setNext x p).proc rp with p_nextready := none } = { k.proc rp with p_nextready := none } :=
  @kept_setProc ρ _ _ (fun q => { q with p_nextready := none }) k x (fun q => { q with p_nextready := p }) rp rfl

theorem next_setProc {rp : ρ} {f : Proc ρ → Proc ρ} (hf : ∀ p, (f p).p_nextready = p.p_nextready) :
    (k.setProc rp f).next = k.next :=
  funext fun _ => kept_setProc Proc.p_nextready (hf _)

@[simp] theorem rdy_head_setNext (k : Table ρ) (rp : ρ) (p : Option ρ) :
    (k.setNext rp p).rdy_head = k.rdy_head := rfl

@[simp] theorem rdy_tail_setNext (k : Table ρ) (rp : ρ) (p : Option ρ) :
    (k.setNext rp p).rdy_tail = k.rdy_tail := rfl

@[simp] theorem next_cutTail (k : Table ρ) (q : Queue) (x y : ρ) : (k.cutTail q x y).next = k.next := by
  unfold Table.cutTail
  split <;> rfl

@[simp] theorem rdy_head_cutTail (k : Table ρ) (q : Queue) (x y : ρ) :
    (k.cutTail q x y).rdy_head = k.rdy_head := by
  unfold Table.cutTail
  split <;> rfl

theorem rdy_tail_cutTail (k : Table ρ) (q : Queue) (x y : ρ) :
    (k.cutTail q x y).rdy_tail q = if k.rdy_tail q = some x then some y else k.rdy_tail q := by
  unfold Table.cutTail
  split <;> simp

theorem Reordered.cutTail (xs : List ρ) (k : Table ρ) (x y : ρ) :
    Reordered xs k (k.cutTail .USER_Q x y) := by
  unfold Table.cutTail
  split
  · exact Reordered.setTail xs k _
  · exact Reordered.refl xs k

theorem Reordered.setNext (hx : x ∈ xs) (k : Table ρ) (p : Option ρ) : Reordered xs k (k.setNext x p) := by
  refine ⟨fun rp => ?_,fun rp hrp => ?_,fun _ _ => rfl,fun _ _ => rfl,rfl,rfl,rfl⟩
  · exact fields_setNext k x p rp
  · rw [next_setNext, Function.update_of_ne (ne_of_mem_of_not_mem hx hrp).symm]

/-- The queue with its first member that meets the test in front. -/
def toFront (p : ρ → Bool) (xs : List ρ) : List ρ :=
  match xs.find? p with
  | some x => x :: xs.erase x
  | none => xs

theorem toFront_eq_self {p : ρ → Bool} (h : ∀ x ∈ xs, p x = false) : toFront p xs = xs := by
  have hnone : xs.find? p = none := List.find?_eq_none.mpr fun x hx => by simp [h x hx]
  simp [toFront, hnone]

theorem toFront_split {p : ρ → Bool} (hfront : ∀ z ∈ xs, p z = false) (hx : p x = true) :
    toFront p (xs ++ x :: ys) = x :: (xs ++ ys) := by
  have hnot : x ∉ xs := fun hmem => by simp [hfront x hmem] at hx
  have hfind : (xs ++ x :: ys).find? p = some x := by
    rw [List.find?_append, List.find?_eq_none.mpr fun z hz => by simp [hfront z hz]]
    simp [hx]
  simp [toFront, hfind, List.erase_append_right _ hnot]

theorem toFront_perm (p : ρ → Bool) (xs : List ρ) : (toFront p xs).Perm xs := by
  unfold toFront
  split
  · next x hx => exact (List.perm_cons_erase (List.mem_of_find?_eq_some hx)).symm
  · exact List.Perm.refl xs

/-- Rotating the linked queue moves its head to the end. -/
theorem rotate_onQueue (h : OnQueue k .USER_Q (x :: xs)) :
    ∃ k', rotate k x = some k' ∧ OnQueue k' .USER_Q (xs ++ [x]) ∧ Reordered (x :: xs) k k' := by
  obtain ⟨front,last,hlast⟩ : ∃ front last, x :: xs = front ++ [last] :=
    ⟨_,_,(List.dropLast_append_getLast (List.cons_ne_nil x xs)).symm⟩
  have htail : k.rdy_tail .USER_Q = some last := h.tail last (by simp [hlast])
  have hmem : last ∈ x :: xs := by simp [hlast]
  have hnd := h.nodup
  refine ⟨_,by rw [rotate, htail]; rfl,⟨?_,?_⟩,?_⟩
  · -- close the ring at the old tail, then open it behind the old head
    have hring : Seg some (Function.update k.next last (some x)) (k.rdy_head .USER_Q) (x :: xs) (some x) := by
      have hlinked := h.linked
      rw [hlast] at hnd hlinked ⊢
      refine hlinked.relink ?_ _
      intro hm
      exact (List.nodup_append.mp hnd).2.2 last hm last (by simp) rfl
    simp only [next_setNext, next_setTail, next_setHead, rdy_head_setNext, rdy_head_setHead,
      Function.update_self]
    exact seg_concat.mpr ⟨hring.2.update (List.nodup_cons.mp hnd).1 none,Function.update_self ..⟩
  · intro z hz
    have hxz : x = z := by simpa using hz
    simp [hxz]
  · exact (((Reordered.setNext hmem k _).trans (Reordered.setTail _ _ _)).trans
      (Reordered.setHead _ _ _)).trans (Reordered.setNext (by simp) _ _)

omit [DecidableEq ρ] in
/-- The search stops in front of the first later member of the group, or at the
end of the queue. -/
theorem seek_split (group : ℤ) {fuel : ℕ} (h : Seg some k.next (some x) (x :: xs) none)
    (hx : inGroup k group x = false) (hfuel : xs.length < fuel) :
    ∃ front prev rest, seek k group fuel x = some prev ∧ x :: xs = front ++ prev :: rest ∧
      (∀ z ∈ front ++ [prev], inGroup k group z = false) ∧
      ∀ z, rest.head? = some z → inGroup k group z = true := by
  induction xs generalizing x fuel with
  | nil =>
    obtain ⟨fuel,rfl⟩ : ∃ n, fuel = n + 1 := ⟨fuel - 1,by simp at hfuel; omega⟩
    have hnext : k.next x = none := h.2
    exact ⟨[],x,[],by simp [seek, hnext],rfl,by simpa using hx,by simp⟩
  | cons y ys ih =>
    obtain ⟨fuel,rfl⟩ : ∃ n, fuel = n + 1 := ⟨fuel - 1,by simp at hfuel; omega⟩
    have hnext : k.next x = some y := h.2.1
    cases hg : inGroup k group y with
    | true =>
      have hgroup : (k.proc y).group = group := by simpa [inGroup] using hg
      refine ⟨[],x,y :: ys,by simp [seek, hnext, hgroup],rfl,by simpa using hx,?_⟩
      rintro z ⟨rfl⟩
      exact hg
    | false =>
      obtain ⟨front,prev,rest,hseek,hsplit,hbefore,hat⟩ :=
        ih ⟨rfl,h.2.2⟩ hg (show ys.length < fuel by simp at hfuel; omega)
      refine ⟨x :: front,prev,rest,?_,by rw [hsplit]; rfl,?_,hat⟩
      · have hgroup : (k.proc y).group ≠ group := by simpa [inGroup] using hg
        simpa only [seek, hnext, if_pos hgroup] using hseek
      · intro z hz
        rcases List.mem_cons.mp hz with rfl | hmem
        · exact hx
        · exact hbefore z hmem

theorem cut_onQueue {q : Queue} {prev node : ρ} (h : OnQueue k q (xs ++ prev :: node :: ys)) :
    OnQueue ((k.setNext prev (k.next node)).cutTail q node prev) q (xs ++ prev :: ys) := by
  have hnd := h.nodup
  refine ⟨?_,fun z hz => ?_⟩
  · simpa using h.linked.unlink hnd
  · rw [rdy_tail_cutTail, rdy_tail_setNext]
    rw [List.getLast?_append] at hz
    cases ys with
    | nil =>
      have hlast : k.rdy_tail q = some node := h.tail node (by simp)
      have hz' : prev = z := by simpa using hz
      rw [if_pos hlast, hz']
    | cons y ys =>
      have hz' : (y :: ys).getLast? = some z := by simpa using hz
      have hlast : k.rdy_tail q = some z := h.tail z (by simpa using hz')
      have hne : z ≠ node := by
        rintro rfl
        have hnode := (List.nodup_cons.mp (List.nodup_cons.mp (List.nodup_append.mp hnd).2.1).2).1
        exact hnode (List.mem_of_getLast? hz')
      simp [hlast, hne]

theorem push_onQueue {q : Queue} (h : OnQueue k q xs) (hx : x ∉ xs) (htail : xs = [] → k.rdy_tail q = some x) :
    OnQueue ((k.setNext x (k.rdy_head q)).setHead q (some x)) q (x :: xs) := by
  refine ⟨⟨by simp,?_⟩,fun z hz => ?_⟩
  · simpa using h.linked.update hx (k.rdy_head q)
  · cases xs with
    | nil =>
      have hz' : x = z := by simpa using hz
      exact hz' ▸ htail rfl
    | cons y ys => exact h.tail z (by simpa using hz)

def moveFront (k : Table ρ) (x prev node : ρ) : Table ρ :=
  (((k.setNext prev (k.next node)).cutTail .USER_Q node prev).setNext node (some x)).setHead
    .USER_Q (some node)

theorem moveFront_onQueue {prev node : ρ} (h : OnQueue k .USER_Q (xs ++ prev :: node :: ys))
    (hx : k.rdy_head .USER_Q = some x) : OnQueue (moveFront k x prev node) .USER_Q (node :: (xs ++ prev :: ys)) := by
  have hperm : (xs ++ prev :: node :: ys).Perm (node :: (xs ++ prev :: ys)) := by
    rw [List.append_cons, List.append_cons xs prev ys]
    exact List.perm_middle
  have hnode : node ∉ xs ++ prev :: ys := (List.nodup_cons.mp (hperm.nodup_iff.mp h.nodup)).1
  have hpush := push_onQueue (cut_onQueue h) hnode fun hnil => absurd hnil (by simp)
  rwa [rdy_head_cutTail, rdy_head_setNext, hx] at hpush

theorem moveFront_reordered {prev node : ρ} (hprev : prev ∈ xs) (hnode : node ∈ xs) :
    Reordered xs k (moveFront k x prev node) :=
  (((Reordered.setNext hprev _ _).trans (Reordered.cutTail _ _ _ _)).trans
    (Reordered.setNext hnode _ _)).trans (Reordered.setHead _ _ _)

theorem promote_onQueue (group : ℤ) {fuel : ℕ} (h : OnQueue k .USER_Q (x :: xs))
    (hfuel : xs.length < fuel) :
    ∃ k', promote k fuel x group = some k' ∧
      OnQueue k' .USER_Q (toFront (inGroup k group) (x :: xs)) ∧ Reordered (x :: xs) k k' := by
  cases hx : inGroup k group x with
  | true =>
    have hgroup : (k.proc x).group = group := by simpa [inGroup] using hx
    refine ⟨k,by simp [promote, hgroup],?_,Reordered.refl _ _⟩
    rwa [show x :: xs = [] ++ x :: xs from rfl, toFront_split (by simp) hx]
  | false =>
    have hgroup : (k.proc x).group ≠ group := by simpa [inGroup] using hx
    have hhead : k.rdy_head .USER_Q = some x := h.head
    obtain ⟨front,prev,rest,hseek,hsplit,hbefore,hat⟩ :=
      seek_split group (show Seg some k.next (some x) (x :: xs) none from ⟨rfl,h.linked.2⟩) hx hfuel
    have hq := h
    rw [hsplit] at hq
    obtain ⟨m,-,rfl,hrest⟩ := seg_append.mp hq.linked
    have hlist : x :: xs = (front ++ [prev]) ++ rest := by simp [hsplit]
    cases rest with
    | nil =>
      have hnext : k.next prev = none := hrest
      refine ⟨k,by simp [promote, hgroup, hseek, hnext],?_,Reordered.refl _ _⟩
      rw [toFront_eq_self fun z hz => hbefore z (by simpa [hlist] using hz)]
      exact h
    | cons node rest =>
      have hnext : k.next prev = some node := hrest.1
      refine ⟨moveFront k x prev node,by simp [promote, hgroup, hseek, hnext, moveFront],?_,?_⟩
      · rw [hlist, toFront_split hbefore (hat node rfl), List.append_assoc]
        exact moveFront_onQueue hq hhead
      · exact moveFront_reordered (by simp [hsplit]) (by simp [hsplit])

/-- The group that `sched` serves after `group`: the next one in cyclic order
that has a member in the queue, `group` itself coming last. -/
def nextServed (k : Table ρ) (group : ℤ) (xs : List ρ) : ℤ :=
  if xs.any (inGroup k ((group + 1) % 3)) then (group + 1) % 3
  else if xs.any (inGroup k ((group + 2) % 3)) then (group + 2) % 3
  else group

/-- The user queue after one call of `sched`. -/
def afterSched (k : Table ρ) : List ρ → List ρ
  | [] => []
  | x :: xs => toFront (inGroup k (nextServed k (k.proc x).group (xs ++ [x]))) (xs ++ [x])

theorem tmod_three {g : ℤ} (hg : 0 ≤ g) : (g + 1).tmod 3 = (g + 1) % 3 :=
  Int.tmod_eq_emod_of_nonneg (by omega)

theorem nextGroup_here {group : ℤ} {fuel : ℕ} (turns : ℕ) (h : OnQueue k .USER_Q xs) (hg : 0 ≤ group)
    (hfuel : xs.length ≤ fuel) (hany : xs.any (inGroup k ((group + 1) % 3)) = true) :
    ∃ k', nextGroup fuel (turns + 1) group k = some k' ∧
      OnQueue k' .USER_Q (toFront (inGroup k ((group + 1) % 3)) xs) ∧ Reordered xs k k' := by
  cases xs with
  | nil => simp at hany
  | cons x xs =>
    obtain ⟨k',hpromote,hqueue,hsame⟩ := promote_onQueue ((group + 1) % 3) h (by simpa using hfuel)
    refine ⟨k',?_,hqueue,hsame⟩
    obtain ⟨y,hy⟩ : ∃ y, (x :: xs).find? (inGroup k ((group + 1) % 3)) = some y := by
      rw [← Option.isSome_iff_exists, List.find?_isSome]
      simpa using hany
    have hin : (k'.proc y).group = (group + 1) % 3 := by
      rw [hsame.group]
      simpa [inGroup] using List.find?_some hy
    have hhead : k'.rdy_head .USER_Q = some y := by
      rw [hqueue.head, toFront, hy]
      rfl
    have hhead₀ : k.rdy_head .USER_Q = some x := h.head
    simp only [nextGroup, tmod_three hg, hhead₀, hpromote, hhead, hin, Option.bind_eq_bind,
      Option.bind_some, ne_eq, not_true_eq_false, if_false]

theorem nextGroup_skip {group : ℤ} {fuel : ℕ} (turns : ℕ) (h : OnQueue k .USER_Q (x :: xs))
    (hg : 0 ≤ group) (hfuel : (x :: xs).length ≤ fuel) (hnone : (x :: xs).any (inGroup k ((group + 1) % 3)) = false) :
    ∃ k', nextGroup fuel (turns + 1) group k = nextGroup fuel turns ((group + 1) % 3) k' ∧
      OnQueue k' .USER_Q (x :: xs) ∧ Reordered (x :: xs) k k' := by
  obtain ⟨k',hpromote,hqueue,hsame⟩ := promote_onQueue ((group + 1) % 3) h (by simpa using hfuel)
  have hout : ∀ z ∈ x :: xs, inGroup k ((group + 1) % 3) z = false := by
    simpa only [List.any_eq_false, Bool.not_eq_true] using hnone
  rw [toFront_eq_self hout] at hqueue
  refine ⟨k',?_,hqueue,hsame⟩
  have hin : (k'.proc x).group ≠ (group + 1) % 3 := by
    rw [hsame.group]
    simpa [inGroup] using hout x (by simp)
  have hhead : k'.rdy_head .USER_Q = some x := hqueue.head
  have hhead₀ : k.rdy_head .USER_Q = some x := h.head
  simp only [nextGroup, tmod_three hg, hhead₀, hpromote, hhead, Option.bind_eq_bind,
    Option.bind_some, ne_eq, hin, not_false_eq_true, if_true]

/-- The loop ends within three turns, at the group to be served. -/
theorem nextGroup_onQueue {group : ℤ} (fuel : ℕ) (h : OnQueue k .USER_Q (x :: xs))
    (hg : 0 ≤ group ∧ group < 3) (hself : (x :: xs).any (inGroup k group) = true)
    (hfuel : (x :: xs).length ≤ fuel) (hturns : 3 ≤ fuel) :
    ∃ k', nextGroup fuel fuel group k = some k' ∧
      OnQueue k' .USER_Q (toFront (inGroup k (nextServed k group (x :: xs))) (x :: xs)) ∧
      Reordered (x :: xs) k k' := by
  obtain ⟨turns,hturns⟩ : ∃ n, fuel = n + 3 := ⟨fuel - 3,by omega⟩
  have hnext : ((group + 1) % 3 + 1) % 3 = (group + 2) % 3 := by omega
  have hlast : ((group + 2) % 3 + 1) % 3 = group := by omega
  suffices hloop : ∃ k', nextGroup fuel (turns + 3) group k = some k' ∧
      OnQueue k' .USER_Q (toFront (inGroup k (nextServed k group (x :: xs))) (x :: xs)) ∧
      Reordered (x :: xs) k k' by
    rwa [← hturns] at hloop
  unfold nextServed
  split
  · next hone => exact nextGroup_here _ h hg.1 hfuel hone
  next hone =>
  obtain ⟨k₁,hloop₁,h₁,hsame₁⟩ := nextGroup_skip (turns + 2) h hg.1 hfuel (by simpa using hone)
  rw [hloop₁]
  split
  · next htwo =>
    obtain ⟨k₂,hloop₂,h₂,hsame₂⟩ := nextGroup_here (turns + 1) h₁
      (show 0 ≤ (group + 1) % 3 by omega) hfuel (by rwa [hnext, hsame₁.inGroup])
    rw [hnext, hsame₁.inGroup] at h₂
    exact ⟨k₂,hloop₂,h₂,hsame₁.trans hsame₂⟩
  next htwo =>
  obtain ⟨k₂,hloop₂,h₂,hsame₂⟩ := nextGroup_skip (turns + 1) h₁
    (show 0 ≤ (group + 1) % 3 by omega) hfuel (by rw [hnext, hsame₁.inGroup]; simpa using htwo)
  rw [hloop₂, hnext]
  have hsame := hsame₁.trans hsame₂
  obtain ⟨k₃,hloop₃,h₃,hsame₃⟩ := nextGroup_here turns h₂
    (show 0 ≤ (group + 2) % 3 by omega) hfuel (by rwa [hlast, hsame.inGroup])
  rw [hlast, hsame.inGroup] at h₃
  exact ⟨k₃,hloop₃,h₃,hsame.trans hsame₃⟩

/-- What one call of `sched` does to the user queue. -/
theorem sched_onQueue (slots : Slots ρ) {fuel : ℕ} (h : OnQueue k .USER_Q (x :: xs))
    (hg : 0 ≤ (k.proc x).group ∧ (k.proc x).group < 3) (hfuel : (x :: xs).length + 2 ≤ fuel) :
    ∃ k', sched slots fuel k = some (pick_proc slots k') ∧
      OnQueue k' .USER_Q (afterSched k (x :: xs)) ∧ Reordered (x :: xs) k k' := by
  obtain ⟨k₁,hrotate,h₁,hsame₁⟩ := rotate_onQueue h
  obtain ⟨y,ys,hlist⟩ : ∃ y ys, xs ++ [x] = y :: ys := List.exists_cons_of_ne_nil (by simp)
  have hperm : (xs ++ [x]).Perm (x :: xs) := List.perm_append_singleton x xs
  have hself : (xs ++ [x]).any (inGroup k₁ (k.proc x).group) = true := by
    simp [inGroup, hsame₁.group]
  have hlen : (xs ++ [x]).length + 2 ≤ fuel := by rwa [hperm.length_eq]
  have hserved : nextServed k₁ (k.proc x).group (xs ++ [x]) = nextServed k (k.proc x).group (xs ++ [x]) := by
    simp only [nextServed, hsame₁.inGroup]
  rw [hlist] at h₁ hself hlen hserved
  obtain ⟨k₂,hloop,h₂,hsame₂⟩ := nextGroup_onQueue fuel h₁ hg hself (by omega) (by simp at hlen; omega)
  rw [← hlist] at hsame₂
  refine ⟨k₂,?_,?_,hsame₁.trans (hsame₂.mono hperm.subset)⟩
  · have hhead : k.rdy_head .USER_Q = some x := h.head
    simp only [sched, hhead, hrotate, hloop, Option.bind_eq_bind, Option.bind_some]
  · rw [afterSched, hlist, ← hserved, ← hsame₁.inGroup]
    exact h₂

theorem afterSched_perm (k : Table ρ) (xs : List ρ) : (afterSched k xs).Perm xs := by
  cases xs with
  | nil => exact List.Perm.refl _
  | cons x xs => exact (toFront_perm _ _).trans (List.perm_append_singleton x xs)

/-- With another process in the queue, `sched` puts a different one in front. -/
theorem afterSched_head (hnd : (x :: y :: xs).Nodup)
    (hg : ∀ z ∈ x :: y :: xs, 0 ≤ (k.proc z).group ∧ (k.proc z).group < 3) :
    ∃ z zs, afterSched k (x :: y :: xs) = z :: zs ∧ z ≠ x ∧ z ∈ x :: y :: xs := by
  have hyx : y ≠ x := fun heq => (List.nodup_cons.mp hnd).1 (by simp [heq])
  simp only [afterSched, toFront, List.cons_append]
  cases hf : (y :: (xs ++ [x])).find? (inGroup k (nextServed k (k.proc x).group (y :: (xs ++ [x])))) with
  | none => exact ⟨y,xs ++ [x],rfl,hyx,by simp⟩
  | some z =>
    refine ⟨z,_,rfl,?_,?_⟩
    · rintro rfl
      -- only when every process is of the head's own group is that group served again
      have hserved : (k.proc z).group = nextServed k (k.proc z).group (y :: (xs ++ [z])) := by
        simpa [inGroup] using List.find?_some hf
      have hgz := hg z (by simp)
      have hgy := hg y (by simp)
      have hy : inGroup k (k.proc z).group y = true := by
        unfold nextServed at hserved
        split at hserved
        · omega
        · next hone =>
          split at hserved
          · omega
          · next htwo =>
            simp only [List.any_cons, inGroup, Bool.or_eq_true, decide_eq_true_eq, not_or] at hone htwo ⊢
            omega
      rw [← hserved, List.find?_cons_of_pos hy] at hf
      exact hyx (Option.some_injective _ hf)
    · have hmem := List.mem_of_find?_eq_some hf
      simp only [List.mem_cons, List.mem_append, List.not_mem_nil, or_false] at hmem ⊢
      tauto

end SOI.Scheduling

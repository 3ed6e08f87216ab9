import Mathlib.Tactic
import Mathlib.Logic.Function.Basic
import Mathlib.Data.List.Nodup

/-! # Singly linked lists in a table of links

Nodes of type `ν` are addressed by pointers of type `π`; the table `next` gives
the pointer stored in each node. A segment starts at a pointer, visits a list of
nodes and arrives at a pointer, the null pointer for a complete list.
-/
namespace SOI.Linked
variable {ν π : Type*} {ptr : ν → π} {next next' : ν → π} {b e : π} {x y : ν} {xs ys : List ν}

/-- From `b` the links visit `xs` and arrive at `e`. -/
def Seg (ptr next : ν → π) : π → List ν → π → Prop
  | b, [], e => b = e
  | b, x :: xs, e => b = ptr x ∧ Seg ptr next (next x) xs e

@[simp] theorem seg_nil : Seg ptr next b [] e ↔ b = e := Iff.rfl

@[simp] theorem seg_cons : Seg ptr next b (x :: xs) e ↔ b = ptr x ∧ Seg ptr next (next x) xs e :=
  Iff.rfl

theorem seg_append : Seg ptr next b (xs ++ ys) e ↔
    ∃ m, Seg ptr next b xs m ∧ Seg ptr next m ys e := by
  induction xs generalizing b with
  | nil => simp
  | cons x xs ih => simp only [List.cons_append, seg_cons, ih, exists_and_left, and_assoc]

theorem seg_concat : Seg ptr next b (xs ++ [x]) e ↔ Seg ptr next b xs (ptr x) ∧ next x = e := by
  rw [seg_append]
  constructor
  · rintro ⟨m,h,rfl,he⟩
    exact ⟨h,he⟩
  · rintro ⟨h,he⟩
    exact ⟨_,h,rfl,he⟩

theorem Seg.next_last (h : Seg ptr next b xs e) (hx : xs.getLast? = some x) : next x = e := by
  obtain ⟨front,rfl⟩ := List.getLast?_eq_some_iff.mp hx
  exact (seg_concat.mp h).2

theorem Seg.congr (h : Seg ptr next b xs e) (heq : ∀ z ∈ xs, next' z = next z) :
    Seg ptr next' b xs e := by
  induction xs generalizing b with
  | nil => exact h
  | cons x xs ih =>
    refine ⟨h.1,?_⟩
    rw [heq x (by simp)]
    exact ih h.2 fun z hz => heq z (by simp [hz])

/-- Following the links from one pointer to a null pointer is deterministic. -/
theorem Seg.unique (hinj : Function.Injective ptr) (hnull : ∀ z, e ≠ ptr z)
    (h : Seg ptr next b xs e) (h' : Seg ptr next b ys e) : xs = ys := by
  induction xs generalizing b ys with
  | nil =>
    cases ys with
    | nil => rfl
    | cons y ys => exact absurd (h.symm.trans h'.1) (hnull y)
  | cons x xs ih =>
    cases ys with
    | nil => exact absurd (h'.symm.trans h.1) (hnull x)
    | cons y ys =>
      obtain rfl : x = y := hinj (h.1.symm.trans h'.1)
      rw [ih h.2 h'.2]

/-- A list that ends in a null pointer has no cycle. -/
theorem Seg.nodup (hinj : Function.Injective ptr) (hnull : ∀ z, e ≠ ptr z)
    (h : Seg ptr next b xs e) : xs.Nodup := by
  induction xs generalizing b with
  | nil => exact List.nodup_nil
  | cons x xs ih =>
    refine List.nodup_cons.mpr ⟨fun hx => ?_,ih h.2⟩
    -- from the second visit on the list would repeat itself
    obtain ⟨front,rest,rfl⟩ := List.append_of_mem hx
    obtain ⟨m,-,hm,hrest⟩ := seg_append.mp h.2
    have hsame := Seg.unique hinj hnull hrest h.2
    have hlen := congrArg List.length hsame
    simp at hlen
    omega

section Update
variable [DecidableEq ν]

theorem Seg.update (h : Seg ptr next b xs e) (hx : x ∉ xs) (p : π) :
    Seg ptr (Function.update next x p) b xs e :=
  h.congr fun _ hz => Function.update_of_ne (ne_of_mem_of_not_mem hz hx) _ _

theorem Seg.relink (h : Seg ptr next b (xs ++ [x]) e) (hx : x ∉ xs) (p : π) :
    Seg ptr (Function.update next x p) b (xs ++ [x]) p :=
  seg_concat.mpr ⟨(seg_concat.mp h).1.update hx p,Function.update_self ..⟩

/-- Storing the successor's link in a node takes the successor out. -/
theorem Seg.unlink (h : Seg ptr next b (xs ++ x :: y :: ys) e) (hnd : (xs ++ x :: y :: ys).Nodup) :
    Seg ptr (Function.update next x (next y)) b (xs ++ x :: ys) e := by
  obtain ⟨m,hfront,rfl,-,hrest⟩ := seg_append.mp h
  simp only [List.nodup_append, List.nodup_cons, List.mem_cons, not_or] at hnd
  refine seg_append.mpr ⟨ptr x,hfront.update ?_ _,rfl,?_⟩
  · intro hx
    exact hnd.2.2 x hx x (Or.inl rfl) rfl
  · rw [Function.update_self]
    exact hrest.update hnd.2.1.1.2 _

/-- A new node goes in behind `x` when it takes over the link of `x`. -/
theorem Seg.insert (h : Seg ptr next b (xs ++ x :: ys) e) (hnd : (xs ++ x :: ys).Nodup)
    (hy : y ∉ xs ++ x :: ys) :
    Seg ptr (Function.update (Function.update next y (next x)) x (ptr y)) b (xs ++ x :: y :: ys) e := by
  obtain ⟨m,hfront,rfl,hrest⟩ := seg_append.mp h
  simp only [List.mem_append, List.mem_cons, not_or] at hy
  obtain ⟨hyxs,hyx,hyys⟩ := hy
  obtain ⟨-,hnd',hdisj⟩ := List.nodup_append.mp hnd
  have hxys : x ∉ ys := (List.nodup_cons.mp hnd').1
  refine seg_append.mpr ⟨ptr x,(hfront.update hyxs _).update ?_ _,rfl,?_,?_⟩
  · intro hx
    exact hdisj x hx x (by simp) rfl
  · exact Function.update_self ..
  · rw [Function.update_of_ne hyx, Function.update_self]
    exact (hrest.update hyys _).update hxys _

end Update

section Family
variable {κ : Type*} {next : ν → Option ν} {head : κ → Option ν} {lists : κ → List ν} {k l : κ} {prev : ν}
  {front back : List ν}

/-- Each list hangs from a head of its own, and no node is in two of them. -/
structure Family (next : ν → Option ν) (head : κ → Option ν) (lists : κ → List ν) : Prop where
  linked : ∀ k, Seg some next (head k) (lists k) none
  apart : ∀ k l x, x ∈ lists k → x ∈ lists l → k = l

theorem Family.nodup (h : Family next head lists) (k : κ) : (lists k).Nodup :=
  (h.linked k).nodup (Option.some_injective _) (by simp)

theorem Family.head_eq (h : Family next head lists) (k : κ) : head k = (lists k).head? := by
  have hlinked := h.linked k
  cases hk : lists k with
  | nil =>
    rw [hk] at hlinked
    exact hlinked
  | cons x xs =>
    rw [hk] at hlinked
    exact hlinked.1

variable [DecidableEq κ]

/-- One list changes and the nodes it had keep away from the others. -/
theorem Family.change {next' : ν → Option ν} {head' : κ → Option ν} {xs : List ν} (h : Family next head lists)
    (hlinked : Seg some next' (head' k) xs none) (hnext : ∀ l, l ≠ k → ∀ x ∈ lists l, next' x = next x)
    (hhead : ∀ l, l ≠ k → head' l = head l) (hxs : ∀ x ∈ xs, x ∈ lists k ∨ ∀ l, x ∉ lists l) :
    Family next' head' (Function.update lists k xs) := by
  have hapart : ∀ l x, x ∈ xs → x ∈ Function.update lists k xs l → k = l := by
    intro l x hx hl
    by_contra hne
    rw [Function.update_of_ne (Ne.symm hne)] at hl
    rcases hxs x hx with hk | hnone
    · exact hne (h.apart k l x hk hl)
    · exact hnone l hl
  constructor
  · intro l
    by_cases hl : l = k
    · rw [hl, Function.update_self]
      exact hlinked
    · rw [Function.update_of_ne hl, hhead l hl]
      exact (h.linked l).congr (hnext l hl)
  · intro l m x hlx hmx
    by_cases hl : l = k
    · rw [hl, Function.update_self] at hlx
      rw [hl]
      exact hapart m x hlx hmx
    · by_cases hm : m = k
      · rw [hm, Function.update_self] at hmx
        rw [hm]
        exact (hapart l x hmx hlx).symm
      · rw [Function.update_of_ne hl] at hlx
        rw [Function.update_of_ne hm] at hmx
        exact h.apart l m x hlx hmx

theorem Family.removeHead (h : Family next head lists) (hk : lists k = x :: back) :
    Family next (Function.update head k (next x)) (Function.update lists k back) := by
  refine h.change ?_ (fun _ _ _ _ => rfl) (fun l hl => Function.update_of_ne hl _ _) fun y hy => Or.inl ?_
  · rw [Function.update_self]
    have hlinked := h.linked k
    rw [hk] at hlinked
    exact hlinked.2
  · rw [hk]
    exact List.mem_cons_of_mem _ hy

variable [DecidableEq ν]

theorem Family.removeBehind (h : Family next head lists) (hk : lists k = front ++ prev :: x :: back) :
    Family (Function.update next prev (next x)) head (Function.update lists k (front ++ prev :: back)) := by
  have hprev : prev ∈ lists k := by simp [hk]
  refine h.change ?_ (fun l hl y hy => ?_) (fun _ _ => rfl) fun y hy => Or.inl ?_
  · have hlinked := h.linked k
    have hnd := h.nodup k
    rw [hk] at hlinked hnd
    exact hlinked.unlink hnd
  · refine Function.update_of_ne ?_ _ _
    rintro rfl
    exact hl (h.apart l k y hy hprev)
  · rw [hk]
    simp only [List.mem_append, List.mem_cons] at hy ⊢
    tauto

theorem Family.start (h : Family next head lists) (k : κ) (hx : ∀ l, x ∉ lists l) :
    Family (Function.update next x none) (Function.update head k (some x)) (Function.update lists k [x]) := by
  refine h.change ?_ (fun l _ y hy => ?_) (fun l hl => Function.update_of_ne hl _ _) fun y hy => Or.inr ?_
  · simp
  · exact Function.update_of_ne (ne_of_mem_of_not_mem hy (hx l)) _ _
  · obtain rfl := List.mem_singleton.mp hy
    exact hx

theorem Family.append (h : Family next head lists) (hk : lists k = front ++ [y]) (hx : ∀ l, x ∉ lists l) :
    Family (Function.update (Function.update next y (some x)) x none) head
      (Function.update lists k (front ++ [y] ++ [x])) := by
  have hy : y ∈ lists k := by simp [hk]
  have hxy : y ≠ x := ne_of_mem_of_not_mem hy (hx k)
  have hnd := h.nodup k
  have hlinked := h.linked k
  rw [hk] at hlinked hnd
  refine h.change ?_ (fun l hl z hz => ?_) (fun _ _ => rfl) fun z hz => ?_
  · have hrelink := (hlinked.relink (fun hm => (List.nodup_append.mp hnd).2.2 y hm y (by simp) rfl) (some x)).update
      (x := x) (by rw [← hk]; exact hx k) none
    exact seg_concat.mpr ⟨hrelink,Function.update_self ..⟩
  · rw [Function.update_of_ne (ne_of_mem_of_not_mem hz (hx l)), Function.update_of_ne]
    rintro rfl
    exact hl (h.apart l k z hz hy)
  · rcases List.mem_append.mp hz with hz | hz
    · exact Or.inl (hk ▸ hz)
    · obtain rfl := List.mem_singleton.mp hz
      exact Or.inr hx

end Family
end SOI.Linked

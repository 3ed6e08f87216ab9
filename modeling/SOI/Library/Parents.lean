import Mathlib.Tactic
import Mathlib.Data.Fintype.Card
import Mathlib.Data.List.Chain
import Mathlib.Algebra.BigOperators.Group.Finset.Basic

/-! # Parent links

Every element has at most one parent. Following the links upwards is a partial function
iterated; a downward path in which no element occurs twice is the only one between its
ends. Where a cycle can only be an element that is its own parent, the descendants of an
element are those of its children, counted apart.
-/
namespace SOI.Parents
variable {ι : Type*} {up : ι → Option ι} {i j p q s e : ι} {k l : ℕ}

def climb (up : ι → Option ι) : ℕ → ι → Option ι
  | 0, i => some i
  | k + 1, i => (up i).bind (climb up k)

theorem climb_succ_iff : climb up (k + 1) i = some p ↔ ∃ j, up i = some j ∧ climb up k j = some p :=
  Option.bind_eq_some_iff

theorem climb_one : climb up 1 i = up i := by
  rw [climb]
  cases up i <;> rfl

theorem climb_add (k l : ℕ) (i : ι) : climb up (k + l) i = (climb up k i).bind (climb up l) := by
  induction k generalizing i with
  | zero => rw [Nat.zero_add, climb, Option.bind_some]
  | succ k ih =>
    rw [Nat.add_right_comm, climb, climb]
    cases up i with
    | none => rfl
    | some j => exact ih j

theorem climb_last (h : climb up (k + 1) i = some p) : ∃ j, climb up k i = some j ∧ up j = some p := by
  rw [climb_add, Option.bind_eq_some_iff] at h
  obtain ⟨j,hj,hlast⟩ := h
  rw [climb_one] at hlast
  exact ⟨j,hj,hlast⟩

theorem climb_concat (h : climb up k i = some j) (hj : up j = some p) : climb up (k + 1) i = some p := by
  rw [climb_add, h, Option.bind_some, climb_one, hj]

theorem climb_lt_card [Fintype ι] (h : climb up k i = some p) : ∃ l < Fintype.card ι, climb up l i = some p := by
  classical
  let hex : ∃ l, climb up l i = some p := ⟨k,h⟩
  have hleast := Nat.find_spec hex
  refine ⟨Nat.find hex,?_,hleast⟩
  have hdefined : ∀ a, a < Nat.find hex + 1 → ∃ j, climb up a i = some j := by
    intro a ha
    obtain ⟨b,hb⟩ := Nat.exists_eq_add_of_le (Nat.lt_succ_iff.mp ha)
    rw [hb, climb_add, Option.bind_eq_some_iff] at hleast
    obtain ⟨j,hj,-⟩ := hleast
    exact ⟨j,hj⟩
  choose at_ hat using hdefined
  -- an element met twice would make a shorter climb
  have hinj : Function.Injective fun a : Fin (Nat.find hex + 1) => at_ a a.isLt := by
    have hlt : ∀ a b : Fin (Nat.find hex + 1), a < b → at_ a a.isLt ≠ at_ b b.isLt := by
      intro a b hab heq
      obtain ⟨c,hc⟩ := Nat.exists_eq_add_of_le (Nat.lt_succ_iff.mp b.isLt)
      have hshort : climb up (a + c) i = some p := by
        rw [climb_add, hat a a.isLt, heq, ← hat b b.isLt, ← climb_add, ← hc]
        exact hleast
      have hle := Nat.find_min' hex hshort
      have hab' : (a : ℕ) < b := hab
      omega
    intro a b heq
    rcases lt_trichotomy a b with hab | hab | hab
    · exact absurd heq (hlt a b hab)
    · exact hab
    · exact absurd heq.symm (hlt b a hab)
  have hcard := Fintype.card_le_of_injective _ hinj
  rw [Fintype.card_fin] at hcard
  exact hcard

theorem climb_none_of_le (h : climb up k i = none) (hkl : k ≤ l) : climb up l i = none := by
  obtain ⟨m,rfl⟩ := Nat.exists_eq_add_of_le hkl
  rw [climb_add, h, Option.bind_none]

/-- A chain that ends does not come back to where it began. -/
theorem no_cycle_of_ends (h : ∃ n, climb up n i = none) (k : ℕ) : climb up (k + 1) i ≠ some i := by
  intro hcycle
  obtain ⟨n,hn⟩ := h
  have hagain : ∀ m, climb up (m * (k + 1)) i = some i := by
    intro m
    induction m with
    | zero => rw [Nat.zero_mul, climb]
    | succ m ih => rw [Nat.succ_mul, climb_add, ih, Option.bind_some, hcycle]
  have hnone := @climb_none_of_le _ up i n (n * (k + 1)) hn (Nat.le_mul_of_pos_right n k.succ_pos)
  rw [hagain n] at hnone
  cases hnone

/-- Where all chains end, they end within as many links as there are elements. -/
theorem climb_card_eq_none [Fintype ι] (h : ∀ i, ∃ n, climb up n i = none) (i : ι) :
    climb up (Fintype.card ι) i = none := by
  cases hclimb : climb up (Fintype.card ι) i with
  | none => rfl
  | some p =>
    obtain ⟨l,hl,hshort⟩ := climb_lt_card hclimb
    obtain ⟨m,hm⟩ := Nat.exists_eq_add_of_lt hl
    rw [hm, Nat.add_assoc, climb_add, hshort, Option.bind_some] at hclimb
    exact absurd hclimb (no_cycle_of_ends (h p) m)

section Update
variable [DecidableEq ι]

theorem climb_update_of_ne {a : ι} {v : Option ι} (h : ∀ n, climb up n i ≠ some a) (n : ℕ) :
    climb (Function.update up a v) n i = climb up n i := by
  induction n generalizing i with
  | zero => rfl
  | succ n ih =>
    have hne : i ≠ a := by
      rintro rfl
      exact h 0 rfl
    rw [climb, climb, Function.update_of_ne hne]
    cases hup : up i with
    | none => rfl
    | some j =>
      refine ih fun m hm => h (m + 1) ?_
      rw [climb, hup]
      exact hm

theorem ends_update_some {a d : ι} (h : ∀ i, ∃ n, climb up n i = none) (hopen : ∀ n, climb up n d ≠ some a) (i : ι) :
    ∃ n, climb (Function.update up a (some d)) n i = none := by
  obtain ⟨l,hl⟩ := h d
  obtain ⟨n,hn⟩ := h i
  induction n generalizing i with
  | zero => cases hn
  | succ n ih =>
    by_cases hi : i = a
    · refine ⟨l + 1,?_⟩
      rw [climb, hi, Function.update_self, Option.bind_some, climb_update_of_ne hopen]
      exact hl
    · cases hup : up i with
      | none => exact ⟨1,by rw [climb_one, Function.update_of_ne hi, hup]⟩
      | some j =>
        rw [climb, hup, Option.bind_some] at hn
        obtain ⟨m,hm⟩ := ih j hn
        exact ⟨m + 1,by rw [climb, Function.update_of_ne hi, hup, Option.bind_some, hm]⟩

theorem ends_update_none (h : ∀ i, ∃ n, climb up n i = none) (a i : ι) :
    ∃ n, climb (Function.update up a none) n i = none := by
  obtain ⟨n,hn⟩ := h i
  induction n generalizing i with
  | zero => cases hn
  | succ n ih =>
    by_cases hi : i = a
    · exact ⟨1,by rw [climb_one, hi, Function.update_self]⟩
    · cases hup : up i with
      | none => exact ⟨1,by rw [climb_one, Function.update_of_ne hi, hup]⟩
      | some j =>
        rw [climb, hup, Option.bind_some] at hn
        obtain ⟨m,hm⟩ := ih j hn
        exact ⟨m + 1,by rw [climb, Function.update_of_ne hi, hup, Option.bind_some, hm]⟩

end Update

/-- Downwards from `s` to `e`, without a repetition. -/
structure SimplePath (up : ι → Option ι) (s e : ι) (path : List ι) : Prop where
  head : path.head? = some s
  last : path.getLast? = some e
  linked : path.IsChain fun a b => up b = some a
  nodup : path.Nodup

theorem SimplePath.single (up : ι → Option ι) (s : ι) : SimplePath up s s [s] :=
  ⟨rfl,rfl,List.isChain_singleton s,List.nodup_singleton s⟩

variable {path path' : List ι}

theorem SimplePath.child_mem (h : SimplePath up s e path) (hi : up i = some e) (hmem : i ∈ path) : i = s := by
  obtain ⟨front,back,rfl⟩ := List.append_of_mem hmem
  rcases List.eq_nil_or_concat' front with rfl | ⟨front,a,rfl⟩
  · have hhead := h.head
    rw [List.nil_append, List.head?_cons] at hhead
    exact Option.some_injective _ hhead
  · -- the element ahead of `i` is its parent, which stands at the end as well
    have hlinked := h.linked
    rw [List.append_assoc, List.singleton_append, List.isChain_append_cons_cons] at hlinked
    obtain rfl : e = a := Option.some_injective _ (hi.symm.trans hlinked.2.1)
    have hlast := h.last
    rw [List.getLast?_append_cons] at hlast
    have hdisj := (List.nodup_append.mp h.nodup).2.2
    exact absurd rfl (hdisj e (by simp) e (List.mem_of_getLast? hlast))

theorem SimplePath.extend (h : SimplePath up s e path) (hi : up i = some e) (hmem : i ∉ path) :
    SimplePath up s i (path ++ [i]) := by
  have hlast := h.last
  refine ⟨?_,List.getLast?_concat,?_,?_⟩
  · rw [List.head?_append, h.head]
    rfl
  · refine h.linked.append (List.isChain_singleton i) ?_
    intro a ha b hb
    rw [hlast] at ha
    cases ha
    cases hb
    exact hi
  · rw [List.nodup_append]
    refine ⟨h.nodup,List.nodup_singleton i,fun a ha b hb heq => ?_⟩
    rw [List.mem_singleton.mp hb] at heq
    exact hmem (heq ▸ ha)

/-- Going up from the end, two simple paths meet the same elements. -/
theorem unique_up {xs ys : List ι} (hx : xs.IsChain fun b a => up b = some a) (hy : ys.IsChain fun b a => up b = some a)
    (hndx : xs.Nodup) (hndy : ys.Nodup) (hhead : xs.head? = ys.head?) (hlast : xs.getLast? = ys.getLast?) :
    xs = ys := by
  induction xs generalizing ys with
  | nil => rw [eq_comm, ← List.head?_eq_none_iff, ← hhead, List.head?_nil]
  | cons x xs ih =>
    cases ys with
    | nil => cases hhead
    | cons y ys =>
      obtain rfl : x = y := Option.some_injective _ hhead
      cases xs with
      | nil =>
        cases ys with
        | nil => rfl
        | cons b ys =>
          rw [List.getLast?_singleton, List.getLast?_cons_cons] at hlast
          exact absurd (List.mem_of_getLast? hlast.symm) (List.nodup_cons.mp hndy).1
      | cons a xs =>
        cases ys with
        | nil =>
          rw [List.getLast?_singleton, List.getLast?_cons_cons] at hlast
          exact absurd (List.mem_of_getLast? hlast) (List.nodup_cons.mp hndx).1
        | cons b ys =>
          obtain ⟨ha,hx⟩ := List.isChain_cons_cons.mp hx
          obtain ⟨hb,hy⟩ := List.isChain_cons_cons.mp hy
          have hab : a = b := Option.some_injective _ (ha.symm.trans hb)
          rw [List.getLast?_cons_cons, List.getLast?_cons_cons] at hlast
          rw [ih hx hy (List.nodup_cons.mp hndx).2 (List.nodup_cons.mp hndy).2 (by rw [hab]; rfl) hlast]

theorem SimplePath.unique (h : SimplePath up s e path) (h' : SimplePath up s e path') : path = path' := by
  refine List.reverse_injective (@unique_up _ up _ _ ?_ ?_ ?_ ?_ ?_ ?_)
  · exact List.isChain_reverse.mpr h.linked
  · exact List.isChain_reverse.mpr h'.linked
  · exact List.nodup_reverse.mpr h.nodup
  · exact List.nodup_reverse.mpr h'.nodup
  · rw [List.head?_reverse, List.head?_reverse, h.last, h'.last]
  · rw [List.getLast?_reverse, List.getLast?_reverse, h.head, h'.head]

/-- No cycle, except that an element may be its own parent. -/
def Acyclic (up : ι → Option ι) : Prop := ∀ i k, climb up (k + 1) i = some i → up i = some i

/-- It is enough that every link but those from an element to itself goes to a lower rank. -/
theorem acyclic_of_rank (rank : ι → ℕ) (h : ∀ i j, up i = some j → j = i ∨ rank j < rank i) : Acyclic up := by
  have hle : ∀ k i j, climb up k i = some j → rank j ≤ rank i := by
    intro k
    induction k with
    | zero =>
      rintro i j ⟨⟩
      exact le_rfl
    | succ k ih =>
      intro i j hclimb
      obtain ⟨a,ha,hrest⟩ := climb_succ_iff.mp hclimb
      rcases h i a ha with rfl | hlt
      · exact ih a j hrest
      · exact (ih a j hrest).trans hlt.le
  intro i k hcycle
  obtain ⟨a,ha,hrest⟩ := climb_succ_iff.mp hcycle
  rcases h i a ha with rfl | hlt
  · exact ha
  · exact absurd (hle k a i hrest) (Nat.not_le.mpr hlt)

theorem Acyclic.eq_parent (h : Acyclic up) (hi : up i = some p) (hclimb : climb up k p = some i) : i = p := by
  have hself := h i k (climb_succ_iff.mpr ⟨p,hi,hclimb⟩)
  exact Option.some_injective _ (hself.symm.trans hi)

/-- An element is below one child only. -/
theorem Acyclic.eq_child (h : Acyclic up) (hi : up i = some p) (hj : up j = some p) (hip : i ≠ p) (hjp : j ≠ p)
    (hclimb : climb up k q = some i) (hclimb' : climb up l q = some j) : i = j := by
  wlog hkl : k ≤ l generalizing i j k l
  · exact (this hj hi hjp hip hclimb' hclimb (Nat.le_of_not_le hkl)).symm
  obtain ⟨m,rfl⟩ := Nat.exists_eq_add_of_le hkl
  rw [climb_add, hclimb, Option.bind_some] at hclimb'
  cases m with
  | zero => exact Option.some_injective _ hclimb'
  | succ m =>
    rw [climb, hi, Option.bind_some] at hclimb'
    exact absurd (h.eq_parent hj hclimb') hjp

variable [Fintype ι] [DecidableEq ι]

def children (up : ι → Option ι) (p : ι) : Finset ι := Finset.univ.filter fun i => i ≠ p ∧ up i = some p

/-- The elements other than `p` from which it is reached by at most so many links. -/
def within (up : ι → Option ι) (p : ι) (levels : ℕ) : Finset ι :=
  Finset.univ.filter fun i => i ≠ p ∧ ∃ k < levels, climb up (k + 1) i = some p

theorem mem_children : i ∈ children up p ↔ i ≠ p ∧ up i = some p := by
  simp [children]

theorem mem_within : i ∈ within up p k ↔ i ≠ p ∧ ∃ l, 1 ≤ l ∧ l ≤ k ∧ climb up l i = some p := by
  simp only [within, Finset.mem_filter, Finset.mem_univ, true_and]
  refine and_congr_right fun _ => ⟨?_,?_⟩
  · rintro ⟨m,hm,hclimb⟩
    exact ⟨m + 1,by omega,by omega,hclimb⟩
  · rintro ⟨l,hl,hle,hclimb⟩
    obtain ⟨m,rfl⟩ := Nat.exists_eq_succ_of_ne_zero (show l ≠ 0 by omega)
    exact ⟨m,by omega,hclimb⟩

theorem within_zero (up : ι → Option ι) (p : ι) : within up p 0 = ∅ := by
  simp [within]

theorem within_mono (hkl : k ≤ l) : within up p k ⊆ within up p l := by
  intro i hi
  obtain ⟨hne,m,hm,hmk,hclimb⟩ := mem_within.mp hi
  exact mem_within.mpr ⟨hne,m,hm,hmk.trans hkl,hclimb⟩

theorem exists_child (hne : i ≠ p) (hclimb : climb up l i = some p) :
    ∃ c ∈ children up p, ∃ m < l, climb up m i = some c := by
  induction l with
  | zero => exact absurd (Option.some_injective _ hclimb) hne
  | succ l ih =>
    obtain ⟨c,hc,hlast⟩ := climb_last hclimb
    by_cases hcp : c = p
    · rw [hcp] at hc
      obtain ⟨d,hd,m,hm,hclimb'⟩ := ih hc
      exact ⟨d,hd,m,hm.trans l.lt_succ_self,hclimb'⟩
    · exact ⟨c,mem_children.mpr ⟨hcp,hlast⟩,l,l.lt_succ_self,hc⟩

theorem Acyclic.within_succ (h : Acyclic up) (p : ι) (levels : ℕ) :
    within up p (levels + 1) = (children up p).biUnion fun c => insert c (within up c levels) := by
  ext i
  simp only [Finset.mem_biUnion, Finset.mem_insert]
  constructor
  · intro hi
    obtain ⟨hne,l,-,hl,hclimb⟩ := mem_within.mp hi
    obtain ⟨c,hc,m,hm,hclimb'⟩ := exists_child hne hclimb
    refine ⟨c,hc,?_⟩
    by_cases hic : i = c
    · exact Or.inl hic
    · refine Or.inr (mem_within.mpr ⟨hic,m,?_,by omega,hclimb'⟩)
      by_contra hzero
      obtain rfl : m = 0 := by omega
      exact hic (Option.some_injective _ hclimb')
  · rintro ⟨c,hc,hi⟩
    obtain ⟨hcp,hup⟩ := mem_children.mp hc
    rcases hi with rfl | hi
    · exact mem_within.mpr ⟨hcp,1,le_rfl,by omega,by rw [climb_one, hup]⟩
    · obtain ⟨-,l,hl,hle,hclimb⟩ := mem_within.mp hi
      refine mem_within.mpr ⟨?_,l + 1,by omega,by omega,climb_concat hclimb hup⟩
      rintro rfl
      exact hcp (h.eq_parent hup hclimb)

/-- The descendants of the children are counted apart from each other. -/
theorem Acyclic.card_within_succ (h : Acyclic up) (p : ι) (levels : ℕ) :
    (within up p (levels + 1)).card = ∑ c ∈ children up p, ((within up c levels).card + 1) := by
  rw [h.within_succ, Finset.card_biUnion]
  · refine Finset.sum_congr rfl fun c _ => Finset.card_insert_of_notMem fun hc => ?_
    exact (mem_within.mp hc).1 rfl
  · intro c hc d hd hcd
    obtain ⟨hcp,hupc⟩ := mem_children.mp hc
    obtain ⟨hdp,hupd⟩ := mem_children.mp hd
    have hclimbs : ∀ a x, x ∈ insert a (within up a levels) → ∃ k, climb up k x = some a := by
      intro a x hx
      rcases Finset.mem_insert.mp hx with rfl | hx
      · exact ⟨0,rfl⟩
      · obtain ⟨-,k,-,-,hclimb⟩ := mem_within.mp hx
        exact ⟨k,hclimb⟩
    refine Finset.disjoint_left.mpr fun x hx hx' => hcd ?_
    obtain ⟨k,hk⟩ := hclimbs c x hx
    obtain ⟨l,hl⟩ := hclimbs d x hx'
    exact h.eq_child hupc hupd hcp hdp hk hl

/-- With as many levels as there are elements nothing is left out. -/
theorem mem_within_card : i ∈ within up p (Fintype.card ι) ↔ i ≠ p ∧ ∃ k, climb up k i = some p := by
  refine mem_within.trans (and_congr_right fun hne => ⟨?_,?_⟩)
  · rintro ⟨k,-,-,hclimb⟩
    exact ⟨k,hclimb⟩
  · rintro ⟨k,hclimb⟩
    obtain ⟨l,hl,hshort⟩ := climb_lt_card hclimb
    refine ⟨l,?_,hl.le,hshort⟩
    by_contra hzero
    obtain rfl : l = 0 := by omega
    exact hne (Option.some_injective _ hshort)

theorem within_of_card_le (hcard : Fintype.card ι ≤ k) : within up p k = within up p (Fintype.card ι) := by
  refine Finset.Subset.antisymm (fun i hi => ?_) (within_mono hcard)
  obtain ⟨hne,l,-,-,hclimb⟩ := mem_within.mp hi
  exact mem_within_card.mpr ⟨hne,l,hclimb⟩

theorem Acyclic.exists_childless (h : Acyclic up) {S : Set ι} (hS : ∀ i q, up i = some q → i ∈ S) (hp : p ∈ S) :
    ∃ q ∈ S, within up q (Fintype.card ι) = ∅ := by
  induction hn : (within up p (Fintype.card ι)).card using Nat.strong_induction_on generalizing p with
  | _ n ih =>
    rcases (children up p).eq_empty_or_nonempty with hnone | ⟨c,hc⟩
    · refine ⟨p,hp,Finset.card_eq_zero.mp ?_⟩
      rw [← within_of_card_le (Nat.le_succ _), h.card_within_succ, hnone, Finset.sum_empty]
    · -- a child has fewer
      have hfewer : (within up c (Fintype.card ι)).card < n := by
        have hsum := h.card_within_succ p (Fintype.card ι)
        rw [within_of_card_le (Nat.le_succ _), hn] at hsum
        have hterm := Finset.single_le_sum (fun c _ => Nat.zero_le ((within up c (Fintype.card ι)).card + 1)) hc
        omega
      exact ih _ hfewer (hS c p (mem_children.mp hc).2) rfl

end SOI.Parents

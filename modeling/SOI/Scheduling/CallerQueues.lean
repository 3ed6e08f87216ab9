import SOI.Scheduling.Mail

/-! # The caller queues

The kernel links the processes that wish to send to a process through their slots.
A sender goes to the end of the queue; one is taken out from wherever it stands.
-/
namespace SOI.Scheduling
open Linked
variable {ρ : Type} [DecidableEq ρ] {c : Config ρ} {s : System ρ} {lists : ρ → List ρ} {a d x : ρ}
  {xs front back : List ρ} {fuel : ℕ} {src : Source ρ} {prev b : Option ρ}

theorem length_le_fuel [Fintype ρ] (c : Config ρ) (h : xs.Nodup) : xs.length + 2 ≤ c.fuel := by
  have hcard : Fintype.card ρ ≤ c.order.length := by
    rw [← Finset.card_univ, ← Finset.eq_univ_of_forall fun rp => List.mem_toFinset.mpr (c.complete rp)]
    exact List.toFinset_card_le c.order
  exact Nat.add_le_add_right (h.length_le_card.trans hcard) 2

omit [DecidableEq ρ] in
theorem lastSender_eq (h : Seg some s.view.sendlink (some x) (x :: xs) none) (hfuel : xs.length < fuel) :
    ∃ front last, x :: xs = front ++ [last] ∧ s.lastSender fuel x = some last := by
  induction xs generalizing x fuel with
  | nil =>
    obtain ⟨fuel,rfl⟩ : ∃ n, fuel = n + 1 := ⟨fuel - 1,by simp at hfuel; omega⟩
    have hnext : (s.rest x).p_sendlink = none := h.2
    exact ⟨[],x,rfl,by rw [System.lastSender, hnext]⟩
  | cons y ys ih =>
    obtain ⟨fuel,rfl⟩ : ∃ n, fuel = n + 1 := ⟨fuel - 1,by simp at hfuel; omega⟩
    have hnext : (s.rest x).p_sendlink = some y := h.2.1
    obtain ⟨front,last,hsplit,hlast⟩ := ih ⟨rfl,h.2.2⟩ (show ys.length < fuel by simp at hfuel; omega)
    exact ⟨x :: front,last,by rw [hsplit]; rfl,by rw [System.lastSender, hnext]; exact hlast⟩

/-- The caller goes to the end of the queue. -/
theorem joinQueue_spec [Fintype ρ] (h : Family s.view.sendlink s.view.callerq lists) (ha : ∀ l, a ∉ lists l) :
    ∃ s' callerq sendlink, s.joinQueue c.fuel a d = some s' ∧ s'.kernel = s.kernel ∧
      s'.view = { s.view with callerq := callerq, sendlink := sendlink } ∧
      Family sendlink callerq (Function.update lists d (lists d ++ [a])) := by
  have hhead : (s.rest d).p_callerq = (lists d).head? := h.head_eq d
  cases hd : lists d with
  | nil =>
    rw [hd] at hhead
    let s₁ := s.setRest d fun r => { r with p_callerq := some a }
    refine ⟨s₁.setRest a fun r => { r with p_sendlink := none },Function.update s.view.callerq d (some a),
      Function.update s.view.sendlink a none,?_,rfl,?_,h.start d ha⟩
    · rw [System.joinQueue, hhead]
      rfl
    · rw [view_sendlink, view_callerq]
  | cons x xs =>
    have hlen := length_le_fuel c (h.nodup d)
    have hlinked := h.linked d
    rw [hd] at hhead hlen hlinked
    have hsome : Seg some s.view.sendlink (some x) (x :: xs) none := ⟨rfl,hlinked.2⟩
    obtain ⟨front,last,hsplit,hlast⟩ := lastSender_eq hsome (show xs.length < c.fuel by simp at hlen; omega)
    let s₁ := s.setRest last fun r => { r with p_sendlink := some a }
    refine ⟨s₁.setRest a fun r => { r with p_sendlink := none },s.view.callerq,
      Function.update (Function.update s.view.sendlink last (some a)) a none,?_,rfl,?_,?_⟩
    · rw [System.joinQueue, hhead]
      simp only [List.head?_cons, hlast]
      rfl
    · rw [view_sendlink, view_sendlink]
    · rw [hsplit]
      exact h.append (hd.trans hsplit) ha

theorem findSender_cases (src : Source ρ) (prev : Option ρ) (h : Seg some s.view.sendlink b xs none) (hfuel : xs.length < fuel) :
    (s.findSender c src fuel prev b = some none ∧ ∀ x ∈ xs, ¬ c.accepts src x) ∨
      ∃ front a back, xs = front ++ a :: back ∧ (∀ x ∈ front, ¬ c.accepts src x) ∧ c.accepts src a ∧
        s.findSender c src fuel prev b = some (some (front.getLast?.or prev,a)) := by
  induction xs generalizing b prev fuel with
  | nil =>
    obtain ⟨fuel,rfl⟩ : ∃ n, fuel = n + 1 := ⟨fuel - 1,by simp at hfuel; omega⟩
    obtain rfl : b = none := h
    exact Or.inl ⟨rfl,by simp⟩
  | cons x xs ih =>
    obtain ⟨fuel,rfl⟩ : ∃ n, fuel = n + 1 := ⟨fuel - 1,by simp at hfuel; omega⟩
    obtain ⟨rfl,hrest⟩ := h
    by_cases hx : c.accepts src x
    · exact Or.inr ⟨[],x,xs,rfl,by simp,hx,by rw [System.findSender, if_pos hx]; rfl⟩
    · have hnext : s.findSender c src (fuel + 1) prev (some x) =
          s.findSender c src fuel (some x) (s.view.sendlink x) := by
        rw [System.findSender, if_neg hx]
        rfl
      rw [hnext]
      rcases ih (some x) hrest (show xs.length < fuel by simpa using hfuel) with
        ⟨hnone,hall⟩ | ⟨front,a,back,hsplit,hfirst,ha,hfound⟩
      · exact Or.inl ⟨hnone,by simpa [hx] using hall⟩
      · refine Or.inr ⟨x :: front,a,back,by rw [hsplit]; rfl,by simpa [hx] using hfirst,ha,?_⟩
        rw [hfound]
        cases front with
        | nil => rfl
        | cons y ys =>
          rw [List.getLast?_cons_cons]
          have hlast : (y :: ys).getLast?.isSome := by simp
          obtain ⟨z,hz⟩ := Option.isSome_iff_exists.mp hlast
          rw [hz]
          rfl

/-- A sender is taken out, from the head or from behind the one ahead of it. -/
theorem unlink_spec (h : Family s.view.sendlink s.view.callerq lists) (hd : lists d = front ++ a :: back) :
    ∃ s' callerq sendlink,
      (if (s.rest d).p_callerq = some a then
          some (s.setRest d fun r => { r with p_callerq := (s.rest a).p_sendlink })
        else front.getLast?.map fun p => s.setRest p fun r => { r with p_sendlink := (s.rest a).p_sendlink }) = some s' ∧
      s'.kernel = s.kernel ∧ s'.view = { s.view with callerq := callerq, sendlink := sendlink } ∧
      Family sendlink callerq (Function.update lists d (front ++ back)) := by
  have hhead : (s.rest d).p_callerq = (lists d).head? := h.head_eq d
  rcases List.eq_nil_or_concat' front with rfl | ⟨front,p,rfl⟩
  · rw [hd] at hhead
    have hfirst : (s.rest d).p_callerq = some a := hhead
    refine ⟨s.setRest d fun r => { r with p_callerq := (s.rest a).p_sendlink },
      Function.update s.view.callerq d (s.rest a).p_sendlink,s.view.sendlink,?_,rfl,?_,h.removeHead hd⟩
    · rw [if_pos hfirst]
    · rw [view_callerq]
  · have hne : (s.rest d).p_callerq ≠ some a := by
      rw [hhead, hd]
      intro heq
      have hnd := h.nodup d
      rw [hd] at hnd
      have hfirst : (front ++ [p]).head? = some a := by
        rw [← heq]
        cases front <;> rfl
      exact (List.nodup_append.mp hnd).2.2 a (List.mem_of_head? hfirst) a (by simp) rfl
    have hremoved := h.removeBehind (show lists d = front ++ p :: a :: back by simp [hd])
    refine ⟨s.setRest p fun r => { r with p_sendlink := (s.rest a).p_sendlink },s.view.callerq,
      Function.update s.view.sendlink p (s.rest a).p_sendlink,?_,rfl,?_,?_⟩
    · rw [if_neg hne, List.getLast?_concat]
      rfl
    · rw [view_sendlink]
    · rw [List.append_assoc]
      exact hremoved

section Exit
variable {rest rest' : ρ → Rest ρ} {rc np e : ρ} {slots : List ρ}

def SameRest (rest rest' : ρ → Rest ρ) : Prop :=
  ∀ p, ({ rest' p with p_callerq := none, p_sendlink := none } : Rest ρ) =
    { rest p with p_callerq := none, p_sendlink := none }

def links (rest : ρ → Rest ρ) (p : ρ) : Option ρ := (rest p).p_sendlink
def heads (rest : ρ → Rest ρ) (p : ρ) : Option ρ := (rest p).p_callerq

theorem unlinkSender_of_notMem (h : Seg some (links rest) (links rest np) xs none) (hrc : rc ∉ xs) (hfuel : xs.length < fuel) :
    unlinkSender rc fuel np rest = some rest := by
  induction xs generalizing np fuel with
  | nil =>
    obtain ⟨fuel,rfl⟩ : ∃ n, fuel = n + 1 := ⟨fuel - 1,by simp at hfuel; omega⟩
    have hnext : (rest np).p_sendlink = none := h
    rw [unlinkSender, hnext]
  | cons x xs ih =>
    obtain ⟨fuel,rfl⟩ : ∃ n, fuel = n + 1 := ⟨fuel - 1,by simp at hfuel; omega⟩
    have hnext : (rest np).p_sendlink = some x := h.1
    simp only [List.mem_cons, not_or] at hrc
    rw [unlinkSender, hnext]
    dsimp only
    rw [if_neg (Ne.symm hrc.1)]
    exact ih h.2 hrc.2 (by simpa using hfuel)

theorem unlinkSender_of_mem (h : Seg some (links rest) (links rest np) xs none) (hnd : xs.Nodup)
    (hsplit : np :: xs = front ++ x :: rc :: back) (hfuel : xs.length < fuel) :
    unlinkSender rc fuel np rest = some (Function.update rest x { rest x with p_sendlink := (rest rc).p_sendlink }) := by
  induction front generalizing np xs fuel with
  | nil =>
    obtain ⟨rfl,rfl⟩ := List.cons_eq_cons.mp hsplit
    obtain ⟨fuel,rfl⟩ : ∃ n, fuel = n + 1 := ⟨fuel - 1,by simp at hfuel; omega⟩
    have hnext : (rest np).p_sendlink = some rc := h.1
    rw [unlinkSender, hnext]
    dsimp only
    rw [if_pos rfl]
  | cons y front ih =>
    rw [List.cons_append, List.cons_eq_cons] at hsplit
    obtain ⟨rfl,rfl⟩ := hsplit
    obtain ⟨fuel,rfl⟩ : ∃ n, fuel = n + 1 := ⟨fuel - 1,by simp at hfuel; omega⟩
    obtain ⟨z,zs,hz⟩ : ∃ z zs, front ++ x :: rc :: back = z :: zs := by
      cases front <;> exact ⟨_,_,rfl⟩
    rw [hz] at h hnd hfuel
    have hnext : (rest np).p_sendlink = some z := h.1
    have hne : z ≠ rc := by
      rintro rfl
      cases front with
      | nil =>
        obtain ⟨rfl,rfl⟩ := List.cons_eq_cons.mp hz
        exact (List.nodup_cons.mp hnd).1 (by simp)
      | cons w front =>
        obtain ⟨rfl,rfl⟩ := List.cons_eq_cons.mp hz
        exact (List.nodup_cons.mp hnd).1 (by simp)
    rw [unlinkSender, hnext]
    dsimp only
    rw [if_neg hne]
    exact ih h.2 (List.nodup_cons.mp hnd).2 hz.symm (by simpa using hfuel)

theorem unlinkCaller_of_notMem [Fintype ρ] (h : Family (links rest) (heads rest) lists) (hrc : ∀ e, rc ∉ lists e) :
    unlinkCaller rc c.fuel slots rest = some rest := by
  induction slots with
  | nil => rfl
  | cons e slots ih =>
    have hhead : (rest e).p_callerq = (lists e).head? := h.head_eq e
    have hlinked := h.linked e
    have hlen := length_le_fuel c (h.nodup e)
    have hrc' := hrc e
    rw [unlinkCaller, hhead]
    cases he : lists e with
    | nil => exact ih
    | cons np xs =>
      rw [he] at hlinked hlen hrc'
      simp only [List.mem_cons, not_or] at hrc'
      dsimp only [List.head?_cons]
      rw [if_neg (Ne.symm hrc'.1), unlinkSender_of_notMem hlinked.2 hrc'.2 (by simp at hlen; omega)]
      exact ih

theorem unlinkCaller_spec [Fintype ρ] (h : Family (links rest) (heads rest) lists) (hd : lists d = front ++ rc :: back)
    (hmem : d ∈ slots) :
    ∃ rest', unlinkCaller rc c.fuel slots rest = some rest' ∧ SameRest rest rest' ∧
      Family (links rest') (heads rest') (Function.update lists d (front ++ back)) := by
  have hrc : rc ∈ lists d := by simp [hd]
  induction slots with
  | nil => cases hmem
  | cons e slots ih =>
    have hhead : (rest e).p_callerq = (lists e).head? := h.head_eq e
    have hlinked := h.linked e
    have hnd := h.nodup e
    have hlen := length_le_fuel c hnd
    rw [unlinkCaller, hhead]
    by_cases he : e = d
    · subst he
      rw [hd] at hlinked hnd hlen ⊢
      rcases List.eq_nil_or_concat' front with rfl | ⟨front,p,rfl⟩
      · refine ⟨Function.update rest e { rest e with p_callerq := (rest rc).p_sendlink },?_,fun q => ?_,?_⟩
        · dsimp only [List.nil_append, List.head?_cons]
          rw [if_pos rfl]
        · by_cases hq : q = e
          · rw [hq, Function.update_self]
          · rw [Function.update_of_ne hq]
        · have hlinks : links (Function.update rest e { rest e with p_callerq := (rest rc).p_sendlink }) = links rest := by
            funext q
            by_cases hq : q = e
            · rw [hq, links, Function.update_self, links]
            · rw [links, Function.update_of_ne hq, links]
          have hheads : heads (Function.update rest e { rest e with p_callerq := (rest rc).p_sendlink }) =
              Function.update (heads rest) e (links rest rc) :=
            funext (field_update Rest.p_callerq rest e _)
          rw [hlinks, hheads]
          exact h.removeHead hd
      · obtain ⟨np,xs,hnp⟩ : ∃ np xs, front ++ p :: rc :: back = np :: xs := by
          cases front <;> exact ⟨_,_,rfl⟩
        have hsame : front ++ [p] ++ rc :: back = np :: xs := by rw [← hnp]; simp
        have hd' : lists e = front ++ p :: rc :: back := by simp [hd]
        rw [hsame] at hlinked hnd hlen ⊢
        have hne : np ≠ rc := by
          rintro rfl
          cases front with
          | nil =>
            obtain ⟨rfl,rfl⟩ := List.cons_eq_cons.mp hnp
            exact (List.nodup_cons.mp hnd).1 (by simp)
          | cons w front =>
            obtain ⟨rfl,rfl⟩ := List.cons_eq_cons.mp hnp
            exact (List.nodup_cons.mp hnd).1 (by simp)
        have hfuel : xs.length < c.fuel := by simp at hlen; omega
        have hunlink := unlinkSender_of_mem hlinked.2 (List.nodup_cons.mp hnd).2 hnp.symm hfuel
        let rest' := Function.update rest p { rest p with p_sendlink := (rest rc).p_sendlink }
        have hlinks : links rest' = Function.update (links rest) p (links rest rc) :=
          funext (field_update Rest.p_sendlink rest p _)
        have hheads : heads rest' = heads rest :=
          (funext (field_update Rest.p_callerq rest p _)).trans (Function.update_eq_self _ _)
        have hfamily : Family (links rest') (heads rest') (Function.update lists e (front ++ [p] ++ back)) := by
          rw [hlinks, hheads, List.append_assoc]
          exact h.removeBehind hd'
        -- the search goes on through queues in which the process does not stand
        have hgone : ∀ q, rc ∉ Function.update lists e (front ++ [p] ++ back) q := by
          intro q hq
          by_cases hqe : q = e
          · rw [hqe, Function.update_self, List.append_assoc] at hq
            rw [← hnp, List.append_cons, List.nodup_middle] at hnd
            exact (List.nodup_cons.mp hnd).1 (by simpa using hq)
          · rw [Function.update_of_ne hqe] at hq
            exact hqe (h.apart q e rc hq hrc)
        refine ⟨rest',?_,fun q => ?_,hfamily⟩
        · dsimp only [List.head?_cons]
          rw [if_neg hne, hunlink, Option.bind_some]
          exact unlinkCaller_of_notMem hfamily hgone
        · by_cases hq : q = p
          · simp [rest', hq]
          · simp [rest', Function.update_of_ne hq]
    · have hnot : rc ∉ lists e := fun hm => he (h.apart e d rc hm hrc)
      have hslots : d ∈ slots := (List.mem_cons.mp hmem).resolve_left (Ne.symm he)
      cases hl : lists e with
      | nil => exact ih hslots
      | cons np xs =>
        rw [hl] at hlinked hlen hnot
        simp only [List.mem_cons, not_or] at hnot
        dsimp only [List.head?_cons]
        rw [if_neg (Ne.symm hnot.1), unlinkSender_of_notMem hlinked.2 hnot.2 (by simp at hlen; omega)]
        exact ih hslots

end Exit

end SOI.Scheduling

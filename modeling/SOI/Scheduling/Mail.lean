import SOI.Scheduling.Runnable

/-! # The kernel passes messages by rendezvous

A state of the kernel stands for one of the abstract message passing: who is
blocked sending or receiving is read off the flags, and the mail of a process is
its caller queue with the messages that lie in the buffers of the callers. Every
event so far was a step of the abstract system.
-/
namespace SOI.Scheduling
open Rendezvous Linked Parents
variable {ρ : Type} [DecidableEq ρ]

abbrev Mailbox (ρ : Type) := Rendezvous.State ρ (Source ρ) (Letter ρ)

def names (r : Mailbox ρ) (d : ρ) : List ρ := (r.mail d).map Prod.fst

def View.letter (c : Config ρ) (v : View ρ) (rp : ρ) (m_ptr : ℕ) : Letter ρ :=
  { v.memory rp m_ptr with m_source := c.proc_number rp }

/-- A value that only matters while a flag is set. -/
def given {α : Type} (flag : Bool) (x : α) : Option α := if flag then some x else none

structure Mail (c : Config ρ) (v : View ρ) (r : Mailbox ρ) : Prop where
  sending : r.sendingTo = fun p => given (v.SENDING p) (v.sendto p)
  receiving : r.receiving = fun p => given (v.RECEIVING p) (v.getfrom p)
  queue : Family v.sendlink v.callerq (names r)
  letters : ∀ d, ∀ x ∈ r.mail d, x.2 = v.letter c x.1 (v.messbuf x.1)
  steps : Steps c.accepts State.initial v.log r

variable {c : Config ρ} {v v' : View ρ} {r : Mailbox ρ} {a d p : ρ} {m : Letter ρ} {front back : List (ρ × Letter ρ)}

theorem Mail.sound (h : Mail c v r) : Sound c.accepts r := sound_initial.steps h.steps

omit [DecidableEq ρ] in
theorem given_eq_some {α : Type} {flag : Bool} {x y : α} : given flag x = some y ↔ flag = true ∧ x = y := by
  cases flag <;> simp [given]

omit [DecidableEq ρ] in
theorem given_eq_none {α : Type} {flag : Bool} {x : α} : given flag x = none ↔ flag = false := by
  cases flag <;> simp [given]

theorem Mail.sendingTo_eq_some (h : Mail c v r) : r.sendingTo p = some d ↔ v.SENDING p = true ∧ v.sendto p = d := by
  rw [h.sending]
  exact given_eq_some

theorem Mail.sendingTo_eq_none (h : Mail c v r) : r.sendingTo p = none ↔ v.SENDING p = false := by
  rw [h.sending]
  exact given_eq_none

theorem Mail.receiving_eq_some (h : Mail c v r) {src : Source ρ} :
    r.receiving p = some src ↔ v.RECEIVING p = true ∧ v.getfrom p = src := by
  rw [h.receiving]
  exact given_eq_some

theorem Mail.receiving_eq_none (h : Mail c v r) : r.receiving p = none ↔ v.RECEIVING p = false := by
  rw [h.receiving]
  exact given_eq_none

theorem Mail.sending_of_mem (h : Mail c v r) {x : ρ × Letter ρ} (hx : x ∈ r.mail d) :
    v.SENDING x.1 = true ∧ v.sendto x.1 = d :=
  h.sendingTo_eq_some.mp ((h.sound.mail x.1 d).mpr ⟨x.2,hx⟩)

theorem Mail.mem_names (h : Mail c v r) : p ∈ names r d ↔ v.SENDING p = true ∧ v.sendto p = d := by
  constructor
  · intro hp
    obtain ⟨x,hx,rfl⟩ := List.mem_map.mp hp
    exact h.sending_of_mem hx
  · intro hs
    obtain ⟨m,hm⟩ := (h.sound.mail p d).mp (h.sendingTo_eq_some.mpr hs)
    exact List.mem_map.mpr ⟨_,hm,rfl⟩

theorem Mail.not_mem_names (h : Mail c v r) (hs : v.SENDING p = false) (d : ρ) : p ∉ names r d := by
  intro hp
  rw [(h.mem_names.mp hp).1] at hs
  cases hs

/-- Only what messages are made of matters. -/
theorem Mail.frame (h : Mail c v r) (hS : v'.SENDING = v.SENDING) (hR : v'.RECEIVING = v.RECEIVING)
    (hto : v'.sendto = v.sendto) (hfrom : v'.getfrom = v.getfrom) (hq : v'.callerq = v.callerq)
    (hl : v'.sendlink = v.sendlink) (hbuf : v'.messbuf = v.messbuf) (hmem : v'.memory = v.memory)
    (hlog : v'.log = v.log) : Mail c v' r := by
  refine ⟨?_,?_,?_,fun d x hx => ?_,?_⟩
  · rw [hS, hto]
    exact h.sending
  · rw [hR, hfrom]
    exact h.receiving
  · rw [hl, hq]
    exact h.queue
  · rw [View.letter, hmem, hbuf]
    exact h.letters d x hx
  · rw [hlog]
    exact h.steps

theorem Mail.letters_store (h : Mail c v r) (hs : v.SENDING p = false) (mem : ℕ → Letter ρ) (d : ρ) :
    ∀ x ∈ r.mail d, x.2 = { Function.update v.memory p mem x.1 (v.messbuf x.1) with m_source := c.proc_number x.1 } := by
  intro x hx
  rw [Function.update_of_ne]
  · exact h.letters d x hx
  · rintro rfl
    rw [(h.sending_of_mem hx).1] at hs
    cases hs

theorem Mail.store (h : Mail c v r) (hs : v.SENDING p = false) (mem : ℕ → Letter ρ) :
    Mail c { v with memory := Function.update v.memory p mem } r :=
  { h with letters := h.letters_store hs mem }

theorem given_update (flag : ρ → Bool) (x : ρ → α) (d : ρ) :
    (fun p => given (Function.update flag d false p) (x p)) = Function.update (fun p => given (flag p) (x p)) d none := by
  funext p
  by_cases hp : p = d
  · rw [hp, Function.update_self, Function.update_self]
    rfl
  · rw [Function.update_of_ne hp, Function.update_of_ne hp]

/-- The receiver gets the message at once. -/
theorem Mail.direct (h : Mail c v r) (hR : v.RECEIVING d = true) (hS : v.SENDING d = false)
    (haccepts : c.accepts (v.getfrom d) a) (m : Letter ρ) (mem : ℕ → Letter ρ) :
    Mail c
      { v with
        memory := Function.update v.memory d mem
        RECEIVING := Function.update v.RECEIVING d false
        log := v.log ++ [.accepted a d m,.delivered a d m] }
      { r with receiving := Function.update r.receiving d none } where
  sending := h.sending
  receiving := by
    dsimp only
    rw [given_update, ← h.receiving]
  queue := h.queue
  letters := h.letters_store hS mem
  steps := h.steps.tail (.direct m (h.receiving_eq_some.mpr ⟨hR,rfl⟩) (h.sendingTo_eq_none.mpr hS) haccepts)

/-- The sender is blocked and queued. -/
theorem Mail.post (h : Mail c v r) (hS : v.SENDING a = false) (hR : v.RECEIVING a = false)
    (hopen : ∀ n, climb r.sendingTo n d ≠ some a)
    (hbusy : v.RECEIVING d = true → v.SENDING d = false → ¬ c.accepts (v.getfrom d) a) (m_ptr : ℕ)
    {callerq sendlink : ρ → Option ρ}
    (hqueue : Family sendlink callerq (Function.update (names r) d (names r d ++ [a]))) :
    Mail c
      { v with
        messbuf := Function.update v.messbuf a m_ptr
        SENDING := Function.update v.SENDING a true
        sendto := Function.update v.sendto a d
        callerq := callerq
        sendlink := sendlink
        log := v.log ++ [.accepted a d (v.letter c a m_ptr)] }
      { r with
        sendingTo := Function.update r.sendingTo a (some d)
        mail := Function.update r.mail d (r.mail d ++ [(a,v.letter c a m_ptr)]) } where
  sending := by
    funext p
    dsimp only
    by_cases hp : p = a
    · rw [hp, Function.update_self, Function.update_self, Function.update_self]
      rfl
    · rw [Function.update_of_ne hp, Function.update_of_ne hp, Function.update_of_ne hp, h.sending]
  receiving := h.receiving
  queue := by
    convert hqueue using 1
    funext e
    by_cases he : e = d
    · subst he
      simp [names]
    · simp [names, Function.update_of_ne he]
  letters := by
    intro e x hx
    dsimp only at hx ⊢
    have hold : ∀ e, x ∈ r.mail e → x.2 = v.letter c x.1 (Function.update v.messbuf a m_ptr x.1) := by
      intro e he
      have hne : x.1 ≠ a := by
        rintro rfl
        rw [(h.sending_of_mem he).1] at hS
        cases hS
      rw [Function.update_of_ne hne]
      exact h.letters e x he
    by_cases he : e = d
    · rw [he, Function.update_self] at hx
      rcases List.mem_append.mp hx with hx | hx
      · exact hold d hx
      · obtain rfl := List.mem_singleton.mp hx
        dsimp only
        rw [Function.update_self]
        rfl
    · rw [Function.update_of_ne he] at hx
      exact hold e hx
  steps := by
    refine h.steps.tail (.post _ (h.sendingTo_eq_none.mpr hS) (h.receiving_eq_none.mpr hR) hopen fun k hk hd => ?_)
    obtain ⟨hrec,rfl⟩ := h.receiving_eq_some.mp hk
    exact hbusy hrec (h.sendingTo_eq_none.mp hd)

theorem names_release (r : Mailbox ρ) (a d : ρ) (rest : List (ρ × Letter ρ)) :
    names (r.release a d rest) = Function.update (names r) d (rest.map Prod.fst) := by
  funext e
  by_cases he : e = d
  · subst he
    rw [names, mail_release_self, Function.update_self]
  · rw [names, mail_release_of_ne r a he, Function.update_of_ne he, names]

theorem Mail.letters_release (h : Mail c v r) (hmail : r.mail d = front ++ (a,m) :: back) (e : ρ) :
    ∀ x ∈ (r.release a d (front ++ back)).mail e, x.2 = v.letter c x.1 (v.messbuf x.1) :=
  fun x hx => h.letters e x (mem_mail_of_release hmail hx)

/-- The receiver takes the first message it accepts. -/
theorem Mail.take (h : Mail c v r) {src : Source ρ} (hmail : r.mail d = front ++ (a,m) :: back)
    (hS : v.SENDING d = false) (hR : v.RECEIVING d = false) (hfirst : ∀ x ∈ front, ¬ c.accepts src x.1)
    (haccepts : c.accepts src a) (mem : ℕ → Letter ρ) {callerq sendlink : ρ → Option ρ}
    (hqueue : Family sendlink callerq (Function.update (names r) d ((front ++ back).map Prod.fst))) :
    Mail c
      { v with
        memory := Function.update v.memory d mem
        SENDING := Function.update v.SENDING a false
        callerq := callerq
        sendlink := sendlink
        log := v.log ++ [.delivered a d (v.letter c a (v.messbuf a))] }
      (r.release a d (front ++ back)) where
  sending := by
    dsimp only [State.release]
    rw [given_update, ← h.sending]
  receiving := h.receiving
  queue := by
    rw [names_release]
    exact hqueue
  letters e x hx := h.letters_store hS mem e x (mem_mail_of_release hmail hx)
  steps := by
    have hm : m = v.letter c a (v.messbuf a) := h.letters d (a,m) (by simp [hmail])
    rw [← hm]
    exact h.steps.tail
      (.take src hmail (h.sendingTo_eq_none.mpr hS) (h.receiving_eq_none.mpr hR) hfirst haccepts)

theorem Mail.await (h : Mail c v r) (src : Source ρ) (m_ptr : ℕ)
    (hfree : v.SENDING d = false → ∀ p ∈ names r d, ¬ c.accepts src p)
    (hreply : v.SENDING d = true → v.messbuf d = m_ptr ∧ ∀ x, c.accepts src x → x = v.sendto d) :
    Mail c
      { v with
        getfrom := Function.update v.getfrom d src
        messbuf := Function.update v.messbuf d m_ptr
        RECEIVING := Function.update v.RECEIVING d true }
      { r with receiving := Function.update r.receiving d (some src) } where
  sending := h.sending
  receiving := by
    funext p
    dsimp only
    by_cases hp : p = d
    · rw [hp, Function.update_self, Function.update_self, Function.update_self]
      rfl
    · rw [Function.update_of_ne hp, Function.update_of_ne hp, Function.update_of_ne hp, h.receiving]
  queue := h.queue
  letters := by
    intro e x hx
    dsimp only
    by_cases hxd : x.1 = d
    · have hsame := (hreply (hxd ▸ (h.sending_of_mem hx).1)).1
      rw [hxd, Function.update_self, ← hsame, ← hxd]
      exact h.letters e x hx
    · rw [Function.update_of_ne hxd]
      exact h.letters e x hx
  steps := by
    dsimp only
    rw [← List.append_nil v.log]
    refine h.steps.tail ?_
    cases hS : v.SENDING d with
    | false =>
      refine .await src (h.sendingTo_eq_none.mpr hS) fun x hx => hfree hS x.1 ?_
      exact List.mem_map.mpr ⟨x,hx,rfl⟩
    | true => exact .reply src (h.sendingTo_eq_some.mpr ⟨hS,rfl⟩) (hreply hS).2

theorem Mail.wake (h : Mail c v r) (d : ρ) :
    Mail c { v with RECEIVING := Function.update v.RECEIVING d false }
      { r with receiving := Function.update r.receiving d none } where
  sending := h.sending
  receiving := by
    dsimp only
    rw [given_update, ← h.receiving]
  queue := h.queue
  letters := h.letters
  steps := by
    dsimp only
    rw [← List.append_nil v.log]
    exact h.steps.tail (.wake d)

theorem Mail.drop (h : Mail c v r) (hmail : r.mail d = front ++ (a,m) :: back) {callerq sendlink : ρ → Option ρ}
    (hqueue : Family sendlink callerq (Function.update (names r) d ((front ++ back).map Prod.fst))) :
    Mail c
      { v with
        SENDING := Function.update v.SENDING a false
        RECEIVING := Function.update v.RECEIVING a false
        callerq := callerq
        sendlink := sendlink
        log := v.log ++ [.dropped a d (v.letter c a (v.messbuf a))] }
      { r.release a d (front ++ back) with receiving := Function.update r.receiving a none } where
  sending := by
    dsimp only [State.release]
    rw [given_update, ← h.sending]
  receiving := by
    dsimp only
    rw [given_update, ← h.receiving]
  queue := by
    rw [← names_release r a d] at hqueue
    exact hqueue
  letters := h.letters_release hmail
  steps := by
    have hm : m = v.letter c a (v.messbuf a) := h.letters d (a,m) (by simp [hmail])
    rw [← hm]
    exact h.steps.tail (.drop hmail)

end SOI.Scheduling

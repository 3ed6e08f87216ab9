import SOI.Scheduling.CallerQueues

/-! # What holds of the kernel at all times

The parts of the invariant that do not speak of messages: which slots are what,
interrupts that wait to be reported, signals that MM has to be told about. Each
part comes with what the operations do to it.
-/
namespace SOI.Scheduling
open Linked
variable {ρ : Type} [DecidableEq ρ] {c : Config ρ} {v : View ρ} {a d p rp : ρ}

/-- The roles of the slots. Tasks have no other flags than those of message
passing; IDLE, HARDWARE and the slots of dead processes have no flags at all. -/
structure Roles (c : Config ρ) (v : View ρ) : Prop where
  idle : v.priority c.slots.IDLE = .PPRI_IDLE
  tasks : ∀ p, p ∉ c.servers → p ≠ c.slots.IDLE → v.priority p = .PPRI_TASK
  servers : ∀ p, p ∈ c.servers → v.priority p ≠ .PPRI_TASK ∧ v.priority p ≠ .PPRI_IDLE
  mm : v.priority c.MM_PROC_NR = .PPRI_SERVER
  fs : v.priority c.FS_PROC_NR = .PPRI_SERVER
  plain : ∀ p, v.priority p = .PPRI_TASK →
    v.NO_MAP p = false ∧ v.PENDING p = false ∧ v.SIG_PENDING p = false ∧ v.P_STOP p = false
  quiet : ∀ p, ¬ v.alive c p → v.flagless p = true
  live : ∀ p, v.SENDING p = true → v.priority (v.sendto p) ≠ .PPRI_NONE
  alerts : ∀ p, v.int_held p = true ∨ v.int_blocked p = true → v.priority p = .PPRI_TASK ∧ p ≠ c.slots.HARDWARE
  reachable : c.outside (v.map c.slots.HARDWARE) c.m = false

/-- Was the last thing that happened to the task an interrupt of which it was not told? -/
def unanswered (task : ρ) (log : List (Interrupt ρ)) : Bool :=
  log.foldl (fun b e => e = .raised task || b && e ≠ .taken task) false

/-- Interrupts that were not reported yet are on record, and a task that waits for
one has none on record. No report is made without an interrupt. -/
structure Ints (v : View ρ) : Prop where
  reply : ∀ p, v.SENDING p = true → v.RECEIVING p = true → isrxhardware (v.getfrom p) = false
  ready : ∀ p, v.SENDING p = false → v.RECEIVING p = true → isrxhardware (v.getfrom p) = true → v.int_blocked p = false
  kept : ∀ p, unanswered p v.interrupts = true → v.int_held p = true ∨ v.int_blocked p = true
  counted : ∀ p, v.interrupts.count (.taken p) + (v.int_held p).toNat + (v.int_blocked p).toNat ≤
    v.interrupts.count (.raised p)

/-- The held queue lists the tasks whose interrupts were held up. -/
def Held (v : View ρ) : Prop :=
  ∃ xs, Seg some v.nextheld v.held_head xs none ∧ (∀ x, xs.getLast? = some x → v.held_tail = some x) ∧
    ∀ p, p ∈ xs ↔ v.int_held p = true

/-- The signals that MM was not told about, and those it was and has not finished,
keep a process from running. -/
structure Signals [Fintype ρ] (c : Config ρ) (v : View ρ) : Prop where
  pending : ∀ p, v.PENDING p = true ↔ v.pending p ≠ 0
  unfinished : ∀ p, v.SIG_PENDING p = true ↔ v.pendcount p ≠ 0
  counted : ∀ p, (signals (v.pending p)).card ≤ v.pendcount p
  procs : v.sig_procs = (Finset.univ.filter fun p => v.PENDING p = true).card
  scanned : ∀ p, v.PENDING p = true → p ∈ c.servers

/-- MM does not wait for new input while there is a signal to tell it about. -/
def Told (c : Config ρ) (v : View ρ) : Prop :=
  v.RECEIVING c.MM_PROC_NR = true → v.getfrom c.MM_PROC_NR = .ANY → ∀ p, v.PENDING p = false

theorem mem_servers (c : Config ρ) (rp : ρ) : rp ∈ c.servers ↔ c.NR_TASKS ≤ c.order.idxOf rp := by
  have hlt := List.idxOf_lt_length_of_mem (c.complete rp)
  constructor
  · intro hmem
    obtain ⟨i,hi,hget⟩ := List.mem_iff_getElem.mp hmem
    simp only [Config.servers, List.getElem_drop] at hget
    rw [← hget, c.nodup.idxOf_getElem]
    omega
  · intro hle
    rw [Config.servers, List.mem_iff_getElem]
    refine ⟨c.order.idxOf rp - c.NR_TASKS,by rw [List.length_drop]; omega,?_⟩
    simp only [List.getElem_drop, Nat.add_sub_cancel' hle, List.getElem_idxOf]

theorem hardware_not_server (c : Config ρ) : c.slots.HARDWARE ∉ c.servers := by
  rw [mem_servers]
  exact Nat.not_le.mpr c.HARDWARE_lt

theorem Roles.hardware_task (h : Roles c v) : v.priority c.slots.HARDWARE = .PPRI_TASK :=
  h.tasks _ (hardware_not_server c) c.IDLE_ne.symm

theorem Roles.mem_servers (h : Roles c v) (hne : v.priority p ≠ .PPRI_TASK) (hidle : v.priority p ≠ .PPRI_IDLE) :
    p ∈ c.servers := by
  by_contra hp
  by_cases hpi : p = c.slots.IDLE
  · exact hidle (hpi ▸ h.idle)
  · exact hne (h.tasks p hp hpi)

theorem Roles.alive_of_mem (h : Roles c v) (hp : p ∈ c.servers) (hnone : v.priority p ≠ .PPRI_NONE) : v.alive c p := by
  refine ⟨hnone,?_⟩
  rw [Config.isidlehardware, Bool.or_eq_false_iff, decide_eq_false_iff_not, decide_eq_false_iff_not]
  constructor
  · rintro rfl
    exact (h.servers _ hp).2 h.idle
  · rintro rfl
    exact hardware_not_server c hp

theorem Roles.alive_user (h : Roles c v) (huser : v.priority p = .PPRI_USER ∨ v.priority p = .PPRI_SERVER) :
    v.alive c p := by
  rcases huser with huser | huser
  · exact h.alive_of_mem (h.mem_servers (by simp [huser]) (by simp [huser])) (by simp [huser])
  · exact h.alive_of_mem (h.mem_servers (by simp [huser]) (by simp [huser])) (by simp [huser])

omit [DecidableEq ρ] in
theorem flagless_iff (v : View ρ) (p : ρ) : v.flagless p = true ↔
    v.NO_MAP p = false ∧ v.SENDING p = false ∧ v.RECEIVING p = false ∧ v.PENDING p = false ∧ v.SIG_PENDING p = false ∧
      v.P_STOP p = false := by
  simp [View.flagless, and_assoc]

theorem Roles.alive_of_flag (h : Roles c v) (hp : v.flagless p = false) : v.alive c p := by
  by_contra hnot
  rw [h.quiet p hnot] at hp
  cases hp

theorem Roles.alive_blocked (h : Roles c v) (hp : v.SENDING p = true ∨ v.RECEIVING p = true) : v.alive c p := by
  refine h.alive_of_flag ?_
  rw [Bool.eq_false_iff, Ne, flagless_iff]
  rintro ⟨-,hS,hR,-⟩
  rw [hS, hR] at hp
  rcases hp with hp | hp <;> cases hp

theorem Roles.quiet_kept (h : Roles c v) (halive : v.alive c a) {v' : View ρ}
    (hother : ∀ p, p ≠ a → v'.flagless p = v.flagless p) (p : ρ) (hp : ¬ v.alive c p) : v'.flagless p = true := by
  rw [hother]
  · exact h.quiet p hp
  · rintro rfl
    exact hp halive

theorem Roles.setReceiving (h : Roles c v) (b : Bool) (halive : v.alive c d) :
    Roles c { v with RECEIVING := Function.update v.RECEIVING d b } :=
  { h with quiet := h.quiet_kept halive fun p hp => by simp only [View.flagless, Function.update_of_ne hp] }

theorem Roles.startSending (h : Roles c v) (halive : v.alive c a) (hd : v.priority d ≠ .PPRI_NONE) :
    Roles c { v with SENDING := Function.update v.SENDING a true, sendto := Function.update v.sendto a d } :=
  { h with
    quiet := h.quiet_kept halive fun p hp => by simp only [View.flagless, Function.update_of_ne hp]
    live := fun p hp => by
      dsimp only at hp ⊢
      by_cases hpa : p = a
      · rw [hpa, Function.update_self]
        exact hd
      · rw [Function.update_of_ne hpa] at hp ⊢
        exact h.live p hp }

theorem Roles.stopSending (h : Roles c v) (hS : v.SENDING a = true) :
    Roles c { v with SENDING := Function.update v.SENDING a false } :=
  { h with
    quiet := h.quiet_kept (h.alive_blocked (Or.inl hS)) fun p hp => by
      simp only [View.flagless, Function.update_of_ne hp]
    live := fun p hp => by
      dsimp only at hp
      by_cases hpa : p = a
      · rw [hpa, Function.update_self] at hp
        cases hp
      · rw [Function.update_of_ne hpa] at hp
        exact h.live p hp }

theorem Roles.setOthers (h : Roles c v) (no_map pending sig_pending p_stop : Bool) (halive : v.alive c a)
    (htask : v.priority a ≠ .PPRI_TASK) :
    Roles c { v with
      NO_MAP := Function.update v.NO_MAP a no_map
      PENDING := Function.update v.PENDING a pending
      SIG_PENDING := Function.update v.SIG_PENDING a sig_pending
      P_STOP := Function.update v.P_STOP a p_stop } :=
  { h with
    plain := fun p hp => by
      have hne : p ≠ a := by
        rintro rfl
        exact htask hp
      dsimp only
      simp only [Function.update_of_ne hne]
      exact h.plain p hp
    quiet := h.quiet_kept halive fun p hp => by simp only [View.flagless, Function.update_of_ne hp] }

theorem Roles.setMap (h : Roles c v) (map : MemMap) (hne : a ≠ c.slots.HARDWARE) :
    Roles c { v with map := Function.update v.map a map } :=
  { h with
    reachable := by
      dsimp only
      rw [Function.update_of_ne (Ne.symm hne)]
      exact h.reachable }

theorem Roles.setAlerts (h : Roles c v) (held blocked : Bool)
    (htask : v.priority a = .PPRI_TASK ∧ a ≠ c.slots.HARDWARE) :
    Roles c { v with
      int_held := Function.update v.int_held a held
      int_blocked := Function.update v.int_blocked a blocked } :=
  { h with
    alerts := fun p hp => by
      dsimp only at hp
      by_cases hpa : p = a
      · rw [hpa]
        exact htask
      · simp only [Function.update_of_ne hpa] at hp
        exact h.alerts p hp }

theorem unanswered_append (task : ρ) (log es : List (Interrupt ρ)) :
    unanswered task (log ++ es) = es.foldl (fun b e => e = .raised task || b && e ≠ .taken task) (unanswered task log) :=
  List.foldl_append

theorem unanswered_of_ne {es : List (Interrupt ρ)} (hes : ∀ e ∈ es, e = .raised a ∨ e = .taken a) (hp : p ≠ a)
    (log : List (Interrupt ρ)) : unanswered p (log ++ es) = unanswered p log := by
  induction es generalizing log with
  | nil => rw [List.append_nil]
  | cons e es ih =>
    rw [List.append_cons, ih (fun e he => hes e (List.mem_cons_of_mem _ he)), unanswered_append]
    rcases hes e List.mem_cons_self with rfl | rfl <;> simp [Ne.symm hp]

theorem count_of_ne {es : List (Interrupt ρ)} (hes : ∀ e ∈ es, e = .raised a ∨ e = .taken a) (hp : p ≠ a)
    (log : List (Interrupt ρ)) :
    (log ++ es).count (.raised p) = log.count (.raised p) ∧ (log ++ es).count (.taken p) = log.count (.taken p) := by
  have hnone : ∀ e, e = .raised p ∨ e = .taken p → e ∉ es := by
    intro e he hmem
    rcases he with rfl | rfl <;> rcases hes _ hmem with heq | heq <;> cases heq <;> exact hp rfl
  rw [List.count_append, List.count_append, List.count_eq_zero_of_not_mem (hnone _ (Or.inl rfl)),
    List.count_eq_zero_of_not_mem (hnone _ (Or.inr rfl))]
  exact ⟨rfl,rfl⟩

/-- The interrupts of one task are dealt with. -/
theorem Ints.setTask (h : Ints v) (a : ρ) {held blocked rec : Bool} {es : List (Interrupt ρ)}
    (hes : ∀ e ∈ es, e = .raised a ∨ e = .taken a)
    (hreply : v.SENDING a = true → rec = true → isrxhardware (v.getfrom a) = false)
    (hready : v.SENDING a = false → rec = true → isrxhardware (v.getfrom a) = true → blocked = false)
    (hkept : unanswered a (v.interrupts ++ es) = true → held = true ∨ blocked = true)
    (hcounted : (v.interrupts ++ es).count (.taken a) + held.toNat + blocked.toNat ≤ (v.interrupts ++ es).count (.raised a)) :
    Ints { v with
      RECEIVING := Function.update v.RECEIVING a rec
      int_held := Function.update v.int_held a held
      int_blocked := Function.update v.int_blocked a blocked
      interrupts := v.interrupts ++ es } := by
  constructor
  all_goals
    intro p
    dsimp only
    by_cases hp : p = a
  · rw [hp, Function.update_self]
    exact hreply
  · rw [Function.update_of_ne hp]
    exact h.reply p
  · rw [hp, Function.update_self, Function.update_self]
    exact hready
  · rw [Function.update_of_ne hp, Function.update_of_ne hp]
    exact h.ready p
  · rw [hp, Function.update_self, Function.update_self]
    exact hkept
  · rw [Function.update_of_ne hp, Function.update_of_ne hp, unanswered_of_ne hes hp]
    exact h.kept p
  · rw [hp, Function.update_self, Function.update_self]
    exact hcounted
  · rw [Function.update_of_ne hp, Function.update_of_ne hp, (count_of_ne hes hp _).1, (count_of_ne hes hp _).2]
    exact h.counted p

theorem Ints.wake (h : Ints v) (d : ρ) : Ints { v with RECEIVING := Function.update v.RECEIVING d false } := by
  have hset := @Ints.setTask _ _ _ h d (v.int_held d) (v.int_blocked d) false [] (by simp) (by simp) (by simp)
    (by simpa using h.kept d) (by simpa using h.counted d)
  simpa only [Function.update_eq_self, List.append_nil] using hset

theorem Ints.startSending (h : Ints v) (hR : v.RECEIVING a = false) :
    Ints { v with SENDING := Function.update v.SENDING a true } :=
  { h with
    reply := fun p hS hrec => by
      dsimp only at hS hrec
      by_cases hp : p = a
      · rw [hp, hR] at hrec
        cases hrec
      · rw [Function.update_of_ne hp] at hS
        exact h.reply p hS hrec
    ready := fun p hS => by
      dsimp only at hS
      by_cases hp : p = a
      · rw [hp, Function.update_self] at hS
        cases hS
      · rw [Function.update_of_ne hp] at hS
        exact h.ready p hS }

theorem Ints.stopSending (h : Ints v) (hS : v.SENDING a = true) :
    Ints { v with SENDING := Function.update v.SENDING a false } :=
  { h with
    reply := fun p hp => by
      dsimp only at hp
      by_cases hpa : p = a
      · rw [hpa, Function.update_self] at hp
        cases hp
      · rw [Function.update_of_ne hpa] at hp
        exact h.reply p hp
    ready := fun p hp hrec hhw => by
      dsimp only at hp hrec hhw ⊢
      by_cases hpa : p = a
      · rw [hpa] at hrec hhw
        rw [h.reply a hS hrec] at hhw
        cases hhw
      · rw [Function.update_of_ne hpa] at hp
        exact h.ready p hp hrec hhw }

theorem Ints.await (h : Ints v) {src : Source ρ} (hreply : v.SENDING d = true → isrxhardware src = false)
    (hready : v.SENDING d = false → isrxhardware src = true → v.int_blocked d = false) :
    Ints { v with
      getfrom := Function.update v.getfrom d src
      RECEIVING := Function.update v.RECEIVING d true } :=
  { h with
    reply := fun p hS hrec => by
      dsimp only at hS hrec ⊢
      by_cases hp : p = d
      · rw [hp, Function.update_self]
        exact hreply (hp ▸ hS)
      · rw [Function.update_of_ne hp] at hrec ⊢
        exact h.reply p hS hrec
    ready := fun p hS hrec hhw => by
      dsimp only at hS hrec hhw ⊢
      by_cases hp : p = d
      · rw [hp, Function.update_self] at hhw
        rw [hp] at hS ⊢
        exact hready hS hhw
      · rw [Function.update_of_ne hp] at hrec hhw
        exact h.ready p hS hrec hhw }

theorem mem_signals (set sig : ℕ) : sig ∈ signals set ↔ set.testBit sig = true := by
  rw [signals, Finset.mem_filter, Finset.mem_range]
  refine ⟨And.right,fun hbit => ⟨?_,hbit⟩⟩
  have hle : 2 ^ sig ≤ set := Nat.ge_two_pow_of_testBit hbit
  exact Nat.lt_succ_of_lt (Nat.lt_two_pow_self.trans_le hle)

theorem signals_zero : signals 0 = ∅ := by
  ext sig
  simp [mem_signals]

theorem signals_add (set sig : ℕ) : signals (set ||| 1 <<< sig) = insert sig (signals set) := by
  ext n
  rw [mem_signals, Finset.mem_insert, mem_signals, Nat.testBit_or, Nat.shiftLeft_eq, one_mul, Nat.testBit_two_pow,
    Bool.or_eq_true, decide_eq_true_eq, or_comm, @eq_comm _ sig]

theorem signals_eq_zero {set : ℕ} (h : (signals set).card = 0) : set = 0 := by
  have hempty := Finset.card_eq_zero.mp h
  refine Nat.eq_of_testBit_eq fun sig => ?_
  have hnot : sig ∉ signals set := by simp [hempty]
  rw [mem_signals] at hnot
  simpa using hnot

section Count
variable [Fintype ρ]

theorem card_filter_update (f : ρ → Bool) (p : ρ) (b : Bool) :
    (Finset.univ.filter fun q => Function.update f p b q = true).card + (f p).toNat =
      (Finset.univ.filter fun q => f q = true).card + b.toNat := by
  have hrest : (Finset.univ.filter fun q => Function.update f p b q = true).erase p =
      (Finset.univ.filter fun q => f q = true).erase p := by
    ext q
    by_cases hq : q = p
    · simp [hq]
    · simp [hq]
  have hsplit : ∀ g : ρ → Bool, (Finset.univ.filter fun q => g q = true).card =
      ((Finset.univ.filter fun q => g q = true).erase p).card + (g p).toNat := by
    intro g
    cases hg : g p with
    | true =>
      have hmem : p ∈ Finset.univ.filter fun q => g q = true := by simp [hg]
      exact (Finset.card_erase_add_one hmem).symm
    | false =>
      rw [Finset.erase_eq_of_notMem (by simp [hg])]
      rfl
  rw [hsplit (Function.update f p b), hrest, Function.update_self, hsplit f]
  omega

theorem Signals.setOne (h : Signals c v) (p : ρ) {pending pendcount : ℕ} {PENDING SIG_PENDING : Bool}
    (hpending : PENDING = true ↔ pending ≠ 0) (hunfinished : SIG_PENDING = true ↔ pendcount ≠ 0)
    (hcounted : (signals pending).card ≤ pendcount) (hscanned : PENDING = true → p ∈ c.servers) :
    Signals c { v with
      pending := Function.update v.pending p pending
      pendcount := Function.update v.pendcount p pendcount
      PENDING := Function.update v.PENDING p PENDING
      SIG_PENDING := Function.update v.SIG_PENDING p SIG_PENDING
      sig_procs := v.sig_procs - (v.PENDING p).toNat + PENDING.toNat } := by
  refine ⟨fun q => ?_,fun q => ?_,fun q => ?_,?_,fun q => ?_⟩
  · dsimp only
    by_cases hq : q = p
    · rw [hq, Function.update_self, Function.update_self]
      exact hpending
    · rw [Function.update_of_ne hq, Function.update_of_ne hq]
      exact h.pending q
  · dsimp only
    by_cases hq : q = p
    · rw [hq, Function.update_self, Function.update_self]
      exact hunfinished
    · rw [Function.update_of_ne hq, Function.update_of_ne hq]
      exact h.unfinished q
  · dsimp only
    by_cases hq : q = p
    · rw [hq, Function.update_self, Function.update_self]
      exact hcounted
    · rw [Function.update_of_ne hq, Function.update_of_ne hq]
      exact h.counted q
  · have hcard := card_filter_update v.PENDING p PENDING
    have hprocs := h.procs
    dsimp only
    omega
  · dsimp only
    by_cases hq : q = p
    · rw [hq, Function.update_self]
      exact hscanned
    · rw [Function.update_of_ne hq]
      exact h.scanned q

end Count

/-- The task goes to the end of the held queue. -/
theorem Held.push (h : Held v) (hp : v.int_held p = false) :
    ∃ next, Held { v with
        int_held := Function.update v.int_held p true
        nextheld := Function.update next p none
        held_head := some (v.held_head.getD p)
        held_tail := some p } ∧
      ((v.held_head = none ∧ next = v.nextheld) ∨
        ∃ tail, v.held_head ≠ none ∧ v.held_tail = some tail ∧ next = Function.update v.nextheld tail (some p)) := by
  obtain ⟨xs,hlinked,htail,hmem⟩ := h
  have hnot : p ∉ xs := by
    rw [hmem, hp]
    simp
  have hmem' : ∀ q, q ∈ xs ++ [p] ↔ Function.update v.int_held p true q = true := by
    intro q
    by_cases hq : q = p
    · simp [hq]
    · rw [Function.update_of_ne hq, ← hmem]
      simp [hq]
  rcases List.eq_nil_or_concat' xs with rfl | ⟨front,last,rfl⟩
  · have hhead : v.held_head = none := hlinked
    refine ⟨v.nextheld,⟨[p],?_,by simp,hmem'⟩,Or.inl ⟨hhead,rfl⟩⟩
    rw [hhead]
    exact ⟨rfl,Function.update_self ..⟩
  · have hlast : v.held_tail = some last := htail last (by simp)
    obtain ⟨x,hhead⟩ : ∃ x, v.held_head = some x := by
      cases front with
      | nil => exact ⟨_,hlinked.1⟩
      | cons y front => exact ⟨_,hlinked.1⟩
    have hnd := hlinked.nodup (Option.some_injective _) (by simp)
    refine ⟨Function.update v.nextheld last (some p),⟨front ++ [last] ++ [p],?_,by simp,hmem'⟩,
      Or.inr ⟨last,by simp [hhead],hlast,rfl⟩⟩
    have hrelink := (hlinked.relink (fun hm => (List.nodup_append.mp hnd).2.2 last hm last (by simp) rfl) (some p)).update
      hnot none
    rw [hhead, Option.getD_some, ← hhead]
    exact seg_concat.mpr ⟨hrelink,Function.update_self ..⟩

theorem Held.pop (h : Held v) (hhead : v.held_head = some p) :
    v.int_held p = true ∧ Held { v with
      int_held := Function.update v.int_held p false
      held_head := v.nextheld p
      held_tail := if v.nextheld p = none then none else v.held_tail } := by
  obtain ⟨xs,hlinked,htail,hmem⟩ := h
  cases xs with
  | nil =>
    rw [seg_nil, hhead] at hlinked
    cases hlinked
  | cons x xs =>
    obtain rfl : p = x := by
      have hx := hlinked.1
      rw [hhead] at hx
      exact Option.some_injective _ hx
    have hnd := hlinked.nodup (Option.some_injective _) (by simp)
    refine ⟨(hmem p).mp List.mem_cons_self,xs,hlinked.2,fun x hx => ?_,fun q => ?_⟩
    · dsimp only
      cases xs with
      | nil => cases hx
      | cons y ys =>
        have hne : v.nextheld p ≠ none := by
          rw [hlinked.2.1]
          simp
        rw [if_neg hne]
        exact htail x (by simpa using hx)
    · dsimp only
      by_cases hq : q = p
      · rw [hq, Function.update_self]
        exact iff_of_false (List.nodup_cons.mp hnd).1 (by simp)
      · rw [Function.update_of_ne hq, ← hmem, List.mem_cons, or_iff_right hq]

end SOI.Scheduling

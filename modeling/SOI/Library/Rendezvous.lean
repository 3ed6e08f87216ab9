import SOI.Library.Parents

/-! # Message passing by rendezvous

A message changes hands when its sender and its receiver meet. A party that sends
to one that is not ready to take the message is blocked, and the message waits in
the mail of the receiver; a party that finds no message it wants is blocked as
well. What a blocked receiver wants is a value of `κ`, compared with a sender by
`accepts`.
-/
namespace SOI.Rendezvous
open Parents
variable {ι κ μ : Type}

structure State (ι κ μ : Type) where
  sendingTo : ι → Option ι
  receiving : ι → Option κ
  mail : ι → List (ι × μ)

/-- What happens to a message: it is taken over from its sender, it reaches its
receiver, or it is lost with its sender. -/
inductive Event (ι μ : Type)
  | accepted (sender receiver : ι) (m : μ)
  | delivered (sender receiver : ι) (m : μ)
  | dropped (sender receiver : ι) (m : μ)
  deriving DecidableEq, Repr

def State.initial : State ι κ μ := ⟨fun _ => none,fun _ => none,fun _ => []⟩

variable [DecidableEq ι]

/-- The messages from one party to another that were taken over, in order. -/
def acceptedOf (a d : ι) (log : List (Event ι μ)) : List μ :=
  log.filterMap fun e =>
    match e with
    | .accepted sender receiver m => if sender = a ∧ receiver = d then some m else none
    | .delivered _ _ _ | .dropped _ _ _ => none

def settledOf (a d : ι) (log : List (Event ι μ)) : List μ :=
  log.filterMap fun e =>
    match e with
    | .delivered sender receiver m | .dropped sender receiver m =>
      if sender = a ∧ receiver = d then some m else none
    | .accepted _ _ _ => none

def State.waitingOf (s : State ι κ μ) (a d : ι) : List μ :=
  (s.mail d).filterMap fun x => if x.1 = a then some x.2 else none

/-- A message comes to its end: it leaves the mail and its sender goes on. -/
def State.release (s : State ι κ μ) (a d : ι) (rest : List (ι × μ)) : State ι κ μ :=
  { s with sendingTo := Function.update s.sendingTo a none, mail := Function.update s.mail d rest }

variable (accepts : κ → ι → Prop)

inductive Step : State ι κ μ → List (Event ι μ) → State ι κ μ → Prop
  /-- The receiver is waiting for the message. -/
  | direct {s : State ι κ μ} {a d : ι} {k : κ} (m : μ) (hreceiving : s.receiving d = some k)
      (hfree : s.sendingTo d = none) (haccepts : accepts k a) :
      Step s [.accepted a d m,.delivered a d m] { s with receiving := Function.update s.receiving d none }
  /-- The receiver is not, and the sender may be blocked without closing a cycle. -/
  | post {s : State ι κ μ} {a d : ι} (m : μ) (hsending : s.sendingTo a = none) (hreceiving : s.receiving a = none)
      (hopen : ∀ n, climb s.sendingTo n d ≠ some a)
      (hbusy : ∀ k, s.receiving d = some k → s.sendingTo d = none → ¬ accepts k a) :
      Step s [.accepted a d m]
        { s with
          sendingTo := Function.update s.sendingTo a (some d)
          mail := Function.update s.mail d (s.mail d ++ [(a,m)]) }
  /-- The receiver finds the first message it accepts. -/
  | take {s : State ι κ μ} {a d : ι} {m : μ} {front back : List (ι × μ)} (k : κ)
      (hmail : s.mail d = front ++ (a,m) :: back) (hsending : s.sendingTo d = none)
      (hreceiving : s.receiving d = none) (hfirst : ∀ x ∈ front, ¬ accepts k x.1) (haccepts : accepts k a) :
      Step s [.delivered a d m] (s.release a d (front ++ back))
  /-- There is none, and the receiver is blocked. -/
  | await {s : State ι κ μ} {d : ι} (k : κ) (hsending : s.sendingTo d = none)
      (hnone : ∀ x ∈ s.mail d, ¬ accepts k x.1) :
      Step s [] { s with receiving := Function.update s.receiving d (some k) }
  /-- A sender that is still blocked wants an answer from the party it is sending to. -/
  | reply {s : State ι κ μ} {d e : ι} (k : κ) (hsending : s.sendingTo d = some e)
      (honly : ∀ x, accepts k x → x = e) :
      Step s [] { s with receiving := Function.update s.receiving d (some k) }
  /-- A receiver goes on without a message. -/
  | wake {s : State ι κ μ} (d : ι) : Step s [] { s with receiving := Function.update s.receiving d none }
  /-- A blocked sender disappears. -/
  | drop {s : State ι κ μ} {a d : ι} {m : μ} {front back : List (ι × μ)}
      (hmail : s.mail d = front ++ (a,m) :: back) :
      Step s [.dropped a d m]
        { s.release a d (front ++ back) with receiving := Function.update s.receiving a none }

inductive Steps : State ι κ μ → List (Event ι μ) → State ι κ μ → Prop
  | refl (s : State ι κ μ) : Steps s [] s
  | tail {s t u : State ι κ μ} {es es' : List (Event ι μ)} (hsteps : Steps s es t) (hstep : Step accepts t es' u) :
      Steps s (es ++ es') u

/-- Every blocked sender has its one message in the mail of its receiver, no chain
of senders comes back to where it began, and nobody waits for a message that is there. -/
structure Sound (s : State ι κ μ) : Prop where
  mail : ∀ a d, s.sendingTo a = some d ↔ ∃ m, (a,m) ∈ s.mail d
  nodup : ∀ d, ((s.mail d).map Prod.fst).Nodup
  ends : ∀ a, ∃ n, climb s.sendingTo n a = none
  reply : ∀ d k e, s.receiving d = some k → s.sendingTo d = some e → ∀ x, accepts k x → x = e
  waiting : ∀ d k, s.receiving d = some k → s.sendingTo d = none → ∀ x ∈ s.mail d, ¬ accepts k x.1

variable {accepts} {s t u : State ι κ μ} {es log : List (Event ι μ)} {a b d e : ι} {k : κ} {m : μ}
  {front back : List (ι × μ)}

omit [DecidableEq ι] in
theorem sound_initial : Sound accepts (State.initial : State ι κ μ) := by
  refine ⟨fun a d => ?_,fun d => List.nodup_nil,fun a => ⟨1,rfl⟩,?_,?_⟩
  · simp [State.initial]
  · rintro d k e ⟨⟩
  · rintro d k ⟨⟩

theorem mail_release_self (s : State ι κ μ) (a d : ι) (rest : List (ι × μ)) : (s.release a d rest).mail d = rest :=
  Function.update_self ..

theorem mail_release_of_ne (s : State ι κ μ) (a : ι) (he : e ≠ d) (rest : List (ι × μ)) :
    (s.release a d rest).mail e = s.mail e :=
  Function.update_of_ne he _ _

omit [DecidableEq ι] in
theorem Sound.not_mem_rest (h : Sound accepts s) (hmail : s.mail d = front ++ (a,m) :: back) :
    ∀ x ∈ front ++ back, x.1 ≠ a := by
  have hnd := h.nodup d
  rw [hmail, List.map_append, List.map_cons, List.nodup_middle, ← List.map_append] at hnd
  rintro x hx rfl
  exact (List.nodup_cons.mp hnd).1 (List.mem_map.mpr ⟨x,hx,rfl⟩)

omit [DecidableEq ι] in
theorem Sound.sending_of_mail (h : Sound accepts s) (hmail : s.mail d = front ++ (a,m) :: back) :
    s.sendingTo a = some d :=
  (h.mail a d).mpr ⟨m,by simp [hmail]⟩

theorem mem_mail_of_release (hmail : s.mail d = front ++ (a,m) :: back) {x : ι × μ}
    (hx : x ∈ (s.release a d (front ++ back)).mail e) : x ∈ s.mail e := by
  by_cases he : e = d
  · subst he
    rw [mail_release_self] at hx
    rw [hmail]
    rcases List.mem_append.mp hx with hx | hx <;> simp [hx]
  · rwa [mail_release_of_ne s a he] at hx

theorem Sound.release (h : Sound accepts s) (hmail : s.mail d = front ++ (a,m) :: back)
    (hwaiting : ∀ k, s.receiving a = some k → ∀ x ∈ s.mail a, ¬ accepts k x.1) :
    Sound accepts (s.release a d (front ++ back)) := by
  have hsender := h.sending_of_mail hmail
  refine ⟨fun b e => ?_,fun e => ?_,ends_update_none h.ends a,fun b k e hk he => ?_,fun b k hk hb x hx => ?_⟩
  · by_cases hb : b = a
    · subst hb
      refine iff_of_false (fun hnone => ?_) ?_
      · dsimp only [State.release] at hnone
        rw [Function.update_self] at hnone
        cases hnone
      · rintro ⟨n,hn⟩
        by_cases he : e = d
        · rw [he, mail_release_self] at hn
          exact h.not_mem_rest hmail _ hn rfl
        · rw [mail_release_of_ne s b he] at hn
          exact he (Option.some_injective _ (((h.mail b e).mpr ⟨n,hn⟩).symm.trans hsender))
    · dsimp only [State.release]
      rw [Function.update_of_ne hb, h.mail]
      refine exists_congr fun n => ?_
      by_cases he : e = d
      · rw [he, Function.update_self, hmail]
        simp [hb]
      · rw [Function.update_of_ne he]
  · by_cases he : e = d
    · have hnd := h.nodup d
      rw [hmail, List.map_append, List.map_cons, List.nodup_middle, ← List.map_append] at hnd
      rw [he, mail_release_self]
      exact (List.nodup_cons.mp hnd).2
    · rw [mail_release_of_ne s a he]
      exact h.nodup e
  · have hb : b ≠ a := by
      rintro rfl
      dsimp only [State.release] at he
      rw [Function.update_self] at he
      cases he
    refine h.reply b k e hk ?_
    rwa [← Function.update_of_ne hb none s.sendingTo]
  · have hx' := mem_mail_of_release hmail hx
    by_cases hba : b = a
    · subst hba
      exact hwaiting k hk x hx'
    · refine h.waiting b k hk ?_ x hx'
      rwa [← Function.update_of_ne hba none s.sendingTo]

theorem Sound.wake (h : Sound accepts s) (d : ι) :
    Sound accepts { s with receiving := Function.update s.receiving d none } := by
  have hsome : ∀ b k, Function.update s.receiving d none b = some k → s.receiving b = some k := by
    intro b k hk
    by_cases hb : b = d
    · rw [hb, Function.update_self] at hk
      cases hk
    · rwa [Function.update_of_ne hb] at hk
  refine ⟨h.mail,h.nodup,h.ends,fun b k e hk => ?_,fun b k hk => ?_⟩
  · exact h.reply b k e (hsome b k hk)
  · exact h.waiting b k (hsome b k hk)

/-- A party is blocked with a wish that suits what it is sending and what it has. -/
theorem Sound.receive (h : Sound accepts s) (hreply : ∀ e, s.sendingTo d = some e → ∀ x, accepts k x → x = e)
    (hwaiting : s.sendingTo d = none → ∀ x ∈ s.mail d, ¬ accepts k x.1) :
    Sound accepts { s with receiving := Function.update s.receiving d (some k) } := by
  refine ⟨h.mail,h.nodup,h.ends,fun b l e hl he => ?_,fun b l hl hb => ?_⟩
  · by_cases hbd : b = d
    · subst hbd
      dsimp only at hl
      rw [Function.update_self] at hl
      cases hl
      exact hreply e he
    · exact h.reply b l e (by rwa [← Function.update_of_ne hbd (some k) s.receiving]) he
  · by_cases hbd : b = d
    · subst hbd
      dsimp only at hl
      rw [Function.update_self] at hl
      cases hl
      exact hwaiting hb
    · exact h.waiting b l (by rwa [← Function.update_of_ne hbd (some k) s.receiving]) hb

theorem Sound.post (h : Sound accepts s) (m : μ) (hsending : s.sendingTo a = none) (hreceiving : s.receiving a = none)
    (hopen : ∀ n, climb s.sendingTo n d ≠ some a)
    (hbusy : ∀ k, s.receiving d = some k → s.sendingTo d = none → ¬ accepts k a) :
    Sound accepts
      { s with
        sendingTo := Function.update s.sendingTo a (some d)
        mail := Function.update s.mail d (s.mail d ++ [(a,m)]) } := by
  have hmem : ∀ e x, x ∈ Function.update s.mail d (s.mail d ++ [(a,m)]) e ↔ x ∈ s.mail e ∨ e = d ∧ x = (a,m) := by
    intro e x
    by_cases he : e = d
    · subst he
      simp
    · simp [he]
  have hnowhere : ∀ e n, (a,n) ∉ s.mail e := by
    intro e n hn
    have hsome := (h.mail a e).mpr ⟨n,hn⟩
    rw [hsending] at hsome
    cases hsome
  refine ⟨fun b e => ?_,fun e => ?_,ends_update_some h.ends hopen,fun b k e hk he => ?_,fun b k hk hb x hx => ?_⟩
  · dsimp only
    by_cases hb : b = a
    · subst hb
      rw [Function.update_self]
      constructor
      · rintro ⟨⟩
        exact ⟨m,(hmem _ _).mpr (Or.inr ⟨rfl,rfl⟩)⟩
      · rintro ⟨n,hn⟩
        rcases (hmem e _).mp hn with hn | ⟨rfl,-⟩
        · exact absurd hn (hnowhere e n)
        · rfl
    · rw [Function.update_of_ne hb, h.mail]
      refine exists_congr fun n => ?_
      rw [hmem]
      simp [hb]
  · dsimp only
    by_cases he : e = d
    · subst he
      rw [Function.update_self, List.map_append, List.map_singleton, List.nodup_append]
      refine ⟨h.nodup e,List.nodup_singleton a,?_⟩
      rintro x hx y hy rfl
      obtain rfl := List.mem_singleton.mp hy
      obtain ⟨⟨x,n⟩,hn,rfl⟩ := List.mem_map.mp hx
      exact hnowhere e n hn
    · rw [Function.update_of_ne he]
      exact h.nodup e
  · have hb : b ≠ a := by
      rintro rfl
      rw [hreceiving] at hk
      cases hk
    refine h.reply b k e hk ?_
    rwa [← Function.update_of_ne hb (some d) s.sendingTo]
  · have hba : b ≠ a := by
      rintro rfl
      rw [hreceiving] at hk
      cases hk
    have hb' : s.sendingTo b = none := by rwa [← Function.update_of_ne hba (some d) s.sendingTo]
    rcases (hmem b x).mp hx with hx | ⟨rfl,rfl⟩
    · exact h.waiting b k hk hb' x hx
    · exact hbusy k hk hb'

theorem Sound.step (h : Sound accepts s) (hstep : Step accepts s es t) : Sound accepts t := by
  cases hstep with
  | direct m hreceiving hfree haccepts => exact h.wake _
  | post m hsending hreceiving hopen hbusy => exact h.post m hsending hreceiving hopen hbusy
  | @take a d m front back k hmail hsending hreceiving hfirst haccepts =>
    refine h.release hmail fun l hl x hx hwanted => ?_
    -- the sender may only want an answer from `d`, which is not sending
    obtain rfl : x.1 = d := h.reply a l d hl (h.sending_of_mail hmail) x.1 hwanted
    have hsome := (h.mail x.1 a).mpr ⟨x.2,hx⟩
    rw [hsending] at hsome
    cases hsome
  | await k hsending hnone =>
    refine h.receive (fun e he => ?_) fun _ => hnone
    rw [hsending] at he
    cases he
  | reply k hsending honly =>
    refine h.receive (fun e he => ?_) fun hnone => ?_
    · rw [hsending] at he
      cases he
      exact honly
    · rw [hsending] at hnone
      cases hnone
  | wake d => exact h.wake d
  | @drop a d m front back hmail =>
    have hwake := h.wake a
    refine @Sound.release _ _ _ _ _ _ a d m front back hwake hmail fun k hk => ?_
    dsimp only at hk
    rw [Function.update_self] at hk
    cases hk

theorem Sound.steps (h : Sound accepts s) (hsteps : Steps accepts s log t) : Sound accepts t := by
  induction hsteps with
  | refl => exact h
  | tail _ hstep ih => exact ih.step hstep

@[simp] theorem acceptedOf_nil (a d : ι) : acceptedOf a d ([] : List (Event ι μ)) = [] := rfl

@[simp] theorem settledOf_nil (a d : ι) : settledOf a d ([] : List (Event ι μ)) = [] := rfl

@[simp] theorem acceptedOf_accepted (a d b e : ι) (m : μ) (log : List (Event ι μ)) :
    acceptedOf a d (.accepted b e m :: log) = (if b = a ∧ e = d then [m] else []) ++ acceptedOf a d log := by
  by_cases h : b = a ∧ e = d
  · simp [acceptedOf, h]
  · simp only [acceptedOf, List.filterMap_cons, if_neg h, List.nil_append]

@[simp] theorem acceptedOf_delivered (a d b e : ι) (m : μ) (log : List (Event ι μ)) :
    acceptedOf a d (.delivered b e m :: log) = acceptedOf a d log := rfl

@[simp] theorem acceptedOf_dropped (a d b e : ι) (m : μ) (log : List (Event ι μ)) :
    acceptedOf a d (.dropped b e m :: log) = acceptedOf a d log := rfl

@[simp] theorem settledOf_accepted (a d b e : ι) (m : μ) (log : List (Event ι μ)) :
    settledOf a d (.accepted b e m :: log) = settledOf a d log := rfl

@[simp] theorem settledOf_delivered (a d b e : ι) (m : μ) (log : List (Event ι μ)) :
    settledOf a d (.delivered b e m :: log) = (if b = a ∧ e = d then [m] else []) ++ settledOf a d log := by
  by_cases h : b = a ∧ e = d
  · simp [settledOf, h]
  · simp only [settledOf, List.filterMap_cons, if_neg h, List.nil_append]

@[simp] theorem settledOf_dropped (a d b e : ι) (m : μ) (log : List (Event ι μ)) :
    settledOf a d (.dropped b e m :: log) = (if b = a ∧ e = d then [m] else []) ++ settledOf a d log :=
  settledOf_delivered a d b e m log

theorem acceptedOf_append (a d : ι) (log es : List (Event ι μ)) :
    acceptedOf a d (log ++ es) = acceptedOf a d log ++ acceptedOf a d es :=
  List.filterMap_append

theorem settledOf_append (a d : ι) (log es : List (Event ι μ)) :
    settledOf a d (log ++ es) = settledOf a d log ++ settledOf a d es :=
  List.filterMap_append

theorem waitingOf_congr (h : t.mail d = s.mail d) (a : ι) : t.waitingOf a d = s.waitingOf a d := by
  rw [State.waitingOf, h, State.waitingOf]

theorem waitingOf_eq_nil (h : ∀ x ∈ s.mail d, x.1 ≠ a) : s.waitingOf a d = [] := by
  refine List.filterMap_eq_nil_iff.mpr fun x hx => ?_
  rw [if_neg (h x hx)]

theorem Sound.waitingOf_release (h : Sound accepts s) (hmail : s.mail d = front ++ (a,m) :: back) (b e : ι) :
    s.waitingOf b e = (if a = b ∧ d = e then [m] else []) ++ (s.release a d (front ++ back)).waitingOf b e := by
  by_cases he : e = d
  · subst he
    have hrest := h.not_mem_rest hmail
    by_cases hb : b = a
    · subst hb
      have hgone : (s.release b e (front ++ back)).waitingOf b e = [] :=
        waitingOf_eq_nil fun x hx => hrest x (by rwa [mail_release_self] at hx)
      have hnone : ∀ xs : List (ι × μ), (∀ x ∈ xs, x ∈ front ++ back) →
          (xs.filterMap fun x => if x.1 = b then some x.2 else none) = [] := by
        intro xs hxs
        refine List.filterMap_eq_nil_iff.mpr fun x hx => ?_
        rw [if_neg (hrest x (hxs x hx))]
      rw [hgone, if_pos ⟨rfl,rfl⟩, State.waitingOf, hmail, List.filterMap_append, List.filterMap_cons,
        hnone front fun x hx => List.mem_append_left _ hx, hnone back fun x hx => List.mem_append_right _ hx]
      simp
    · rw [if_neg fun hab => hb hab.1.symm, State.waitingOf, State.waitingOf, mail_release_self, hmail]
      simp [List.filterMap_append, Ne.symm hb]
  · rw [if_neg fun hab => he hab.2.symm, waitingOf_congr (mail_release_of_ne s a he _) b]
    rfl

/-- In one step a message is taken over or comes to its end, in the order of the mail. -/
theorem Sound.step_accounted (h : Sound accepts s) (hstep : Step accepts s es t) (a d : ι) :
    s.waitingOf a d ++ acceptedOf a d es = settledOf a d es ++ t.waitingOf a d := by
  cases hstep with
  | @direct b e k m hreceiving hfree haccepts =>
    have hsame := @waitingOf_congr _ _ _ _ s { s with receiving := Function.update s.receiving e none } d rfl a
    simp only [acceptedOf_accepted, acceptedOf_delivered, acceptedOf_nil, settledOf_accepted, settledOf_delivered,
      settledOf_nil, List.append_nil, hsame]
    by_cases hbe : b = a ∧ e = d
    · -- the receiver would not be waiting if there were an earlier message
      obtain ⟨rfl,rfl⟩ := hbe
      have hnone : s.waitingOf b e = [] := by
        refine waitingOf_eq_nil fun x hx heq => h.waiting e k hreceiving hfree x hx ?_
        rwa [heq]
      rw [hnone, List.append_nil, List.nil_append]
    · rw [if_neg hbe, List.append_nil, List.nil_append]
  | @post b e m hsending hreceiving hopen hbusy =>
    simp only [acceptedOf_accepted, acceptedOf_nil, settledOf_accepted, settledOf_nil, List.append_nil, List.nil_append,
      State.waitingOf]
    by_cases he : e = d
    · subst he
      rw [Function.update_self, List.filterMap_append]
      by_cases hb : b = a <;> simp [hb]
    · rw [Function.update_of_ne (Ne.symm he), if_neg fun hbe => he hbe.2, List.append_nil]
  | take k hmail hsending hreceiving hfirst haccepts =>
    simp only [acceptedOf_delivered, acceptedOf_nil, settledOf_delivered, settledOf_nil, List.append_nil]
    exact h.waitingOf_release hmail a d
  | await => simp [State.waitingOf]
  | reply => simp [State.waitingOf]
  | wake => simp [State.waitingOf]
  | drop hmail =>
    simp only [acceptedOf_dropped, acceptedOf_nil, settledOf_dropped, settledOf_nil, List.append_nil]
    exact h.waitingOf_release hmail a d

/-- The messages between two parties come to their end once each, in the order in
which they were taken over, and the last of them may still wait. -/
theorem Sound.accounted (h : Sound accepts s) (hsteps : Steps accepts s log t) (a d : ι) :
    s.waitingOf a d ++ acceptedOf a d log = settledOf a d log ++ t.waitingOf a d := by
  induction hsteps with
  | refl => simp [acceptedOf, settledOf]
  | tail hsteps hstep ih =>
    rw [acceptedOf_append, settledOf_append, ← List.append_assoc, ih, List.append_assoc,
      (h.steps hsteps).step_accounted hstep, List.append_assoc]

end SOI.Rendezvous

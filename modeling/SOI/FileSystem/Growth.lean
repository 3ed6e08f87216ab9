import SOI.FileSystem.Chains

/-! # Making a file longer

The loop of `write` that appends free blocks to a chain, and the rollback when
there are not enough of them.
-/
namespace SOI.FileSystem
open Linked
variable {s₀ s s' : State} {file_idx i : Fin NUM_FILES} {xs ys : List Block} {b x : Block}

/-- Since `s₀` the blocks `ys` have been appended to the chain `xs` of the file `i`. -/
structure Growing (s₀ : State) (file_idx i : Fin NUM_FILES) (xs ys : List Block) (s : State) : Prop where
  chain : Chain s.fat (s₀.fd_table i).starting_block (xs ++ ys)
  free : ∀ b ∈ ys, s₀.fat b = FREE_BLOCK
  frame : ∀ b ∉ xs ++ ys, s.fat b = s₀.fat b
  fd_table : s.fd_table = s₀.fd_table
  in_progress : s.transaction_log.in_progress = true
  logged_idx : s.transaction_log.file_idx = Int16.ofInt file_idx
  last_valid : s.transaction_log.last_valid_block = (s₀.fd_table i).starting_block
  first_new : s.transaction_log.first_new_block = orNone ys.head?

theorem Growing.step (h : Growing s₀ file_idx i xs ys s) (hne : xs ≠ []) (e : Extended i s s') :
    Growing s₀ file_idx i xs (ys ++ [e.new_block]) s' := by
  have hwalked := e.walked
  rw [h.fd_table] at hwalked
  obtain ⟨front,hfront⟩ := lastBlock_chain h.chain hwalked (by simp [hne])
  have hnew := firstFree_free e.first
  have hout : e.new_block ∉ xs ++ ys := fun hin => Chain.used h.chain hin hnew
  have hchain := h.chain
  have hnodup := Chain.nodup h.chain
  rw [hfront] at hchain hnodup hout
  have hlast : e.last_block ∉ front := fun hin => by
    simp only [List.nodup_append, List.mem_singleton] at hnodup
    exact hnodup.2.2 _ hin _ rfl rfl
  have hfat : s'.fat = Function.update (Function.update s.fat e.last_block (blockPtr e.new_block)) e.new_block
      END_OF_CHAIN := congrArg State.fat e.result
  have hlog : s'.transaction_log = notedLog s.transaction_log e.new_block := congrArg State.transaction_log e.result
  have htable : s'.fd_table = s.fd_table := by
    have h := congrArg State.fd_table e.result
    exact h
  refine ⟨?_,fun b hb => ?_,fun b hb => ?_,htable.trans h.fd_table,?_,?_,?_,?_⟩
  · rw [hfat, ← List.append_assoc, hfront]
    exact seg_concat.mpr ⟨(hchain.relink hlast _).update hout _,Function.update_self ..⟩
  · rcases List.mem_append.mp hb with hb | hb
    · exact h.free b hb
    · obtain rfl := List.mem_singleton.mp hb
      rw [← h.frame _ (by rwa [hfront])]
      exact hnew
  · rw [← List.append_assoc, List.mem_append, not_or, List.mem_singleton] at hb
    have hbl : b ≠ e.last_block := by
      rintro rfl
      exact hb.1 (by rw [hfront]; simp)
    rw [hfat, Function.update_of_ne hb.2, Function.update_of_ne hbl, h.frame b hb.1]
  · rw [hlog, notedLog]
    split_ifs <;> exact h.in_progress
  · rw [hlog, notedLog]
    split_ifs <;> exact h.logged_idx
  · rw [hlog, notedLog]
    split_ifs <;> exact h.last_valid
  · have hfirst := h.first_new
    rw [hlog, notedLog]
    cases ys with
    | nil =>
      have hnone : s.transaction_log.first_new_block = -1 := hfirst
      rw [if_pos hnone]
      rfl
    | cons y ys =>
      rw [if_neg, hfirst]
      · rfl
      · rw [hfirst]
        exact blockPtr_ne_free y

theorem extendBy_growing {n : ℕ} {enough : Bool} (h : Growing s₀ file_idx i xs ys s) (hne : xs ≠ [])
    (hextend : (extendBy i n s).result = .ok (enough,s')) :
    (enough = true ∧ ∃ zs, zs.length = n ∧ Growing s₀ file_idx i xs (ys ++ zs) s') ∨
      (enough = false ∧ ∃ zs t, zs.length < n ∧ Growing s₀ file_idx i xs (ys ++ zs) t ∧ firstFreeBlock t.fat = none ∧
        transactionRollback t = .ok s') := by
  induction n generalizing s ys with
  | zero =>
    cases hextend
    exact Or.inl ⟨rfl,[],rfl,by rwa [List.append_nil]⟩
  | succ n ih =>
    obtain ⟨more,t,hone,hrest⟩ := andThen_ok.mp hextend
    rcases extend_cases hone with ⟨rfl,⟨e⟩⟩ | ⟨rfl,hnone,hrollback⟩
    · rcases ih (h.step hne e) hrest with ⟨rfl,zs,hlen,hgrown⟩ | ⟨rfl,zs,u,hlen,hgrown,hnone,hrollback⟩
      · refine Or.inl ⟨rfl,e.new_block :: zs,by rw [List.length_cons, hlen],?_⟩
        rwa [List.append_assoc, List.singleton_append] at hgrown
      · refine Or.inr ⟨rfl,e.new_block :: zs,u,by rw [List.length_cons]; omega,?_,hnone,hrollback⟩
        rwa [List.append_assoc, List.singleton_append] at hgrown
    · simp only [Bool.false_eq_true, if_false, done_result, Except.ok.injEq, Prod.mk.injEq] at hrest
      obtain ⟨rfl,rfl⟩ := hrest
      exact Or.inr ⟨rfl,[],s,Nat.succ_pos n,by rwa [List.append_nil],hnone,hrollback⟩

theorem rollback_eq {t : State} {last : Int16} {fat' : Block → Int16} (hp : t.transaction_log.in_progress = true)
    (hidx : t.transaction_log.file_idx = Int16.ofInt file_idx) (hlast : t.transaction_log.last_valid_block = last)
    (hset : last ≠ -1) (hclear : clearNewAllocatedBlocks (setFileSize t file_idx ((last.toInt + 1) * BLOCK_SIZE)) =
      .ok { setFileSize t file_idx ((last.toInt + 1) * BLOCK_SIZE) with fat := fat' }) :
    transactionRollback t = (index NUM_BLOCKS last.toInt).map fun b => clearTransactionLog
      { setFileSize t file_idx ((last.toInt + 1) * BLOCK_SIZE) with fat := Function.update fat' b END_OF_CHAIN } := by
  have hsize : restoreOriginalFileSize t = .ok (setFileSize t file_idx ((last.toInt + 1) * BLOCK_SIZE)) := by
    unfold restoreOriginalFileSize
    dsimp only
    rw [hidx, hlast, if_pos ⟨fileIndex_ne file_idx,hset⟩, index_fileIndex]
    rfl
  have hend : ∀ u : State, u.transaction_log = t.transaction_log → restoreEndOfChain u =
      (index NUM_BLOCKS last.toInt).map fun b => { u with fat := Function.update u.fat b END_OF_CHAIN } := by
    intro u hlog
    unfold restoreEndOfChain
    dsimp only
    rw [hlog, hlast, if_pos hset]
  rw [transactionRollback, if_neg (by simp [hp]), hsize, ok_bind, hclear, ok_bind, hend]
  · cases index NUM_BLOCKS last.toInt <;> rfl
  · rfl

theorem Growing.clears (h : Growing s₀ file_idx i (x :: xs) ys s) {t : State} (hfat : t.fat = s.fat)
    (hlog : t.transaction_log = s.transaction_log) :
    clearNewAllocatedBlocks t = .ok { t with fat := fun b => if b ∈ ys then FREE_BLOCK else s.fat b } := by
  unfold clearNewAllocatedBlocks
  dsimp only
  rw [hfat, hlog, h.first_new]
  cases ys with
  | nil =>
    rw [if_neg (by simp [orNone])]
    cases t
    cases hfat
    cases hlog
    simp
  | cons y ys =>
    obtain ⟨m,-,hm⟩ := seg_append.mp h.chain
    have hchain : Chain s.fat (blockPtr y) (y :: ys) := ⟨rfl,hm.2⟩
    have hfirst : orNone (y :: ys).head? ≠ -1 := blockPtr_ne_free y
    have hlen := Chain.length_le hchain
    have hends : ∀ b, (decide (blockPtr b = -1) || decide (blockPtr b = END_OF_CHAIN)) = false := fun b => by
      simp [blockPtr_ne_free b, (blockPtr_ne_end b).symm]
    have hclear := @clearChain_eq s.fat (blockPtr y) (y :: ys) (fun b => b = -1 || b = END_OF_CHAIN) (NUM_BLOCKS + 2)
      hchain (by decide) hends (by omega)
    rw [if_pos hfirst, show orNone (y :: ys).head? = blockPtr y from rfl, hclear]
    rfl

/-- The rollback sets the size under the logged number, frees the new blocks and ends
the chain behind its first block. -/
theorem Growing.rolls_back (h : Growing s₀ file_idx i (x :: xs) ys s) : transactionRollback s = .ok (clearTransactionLog
    { setFileSize s file_idx (((s₀.fd_table i).starting_block.toInt + 1) * BLOCK_SIZE) with
      fat := Function.update (fun b => if b ∈ ys then FREE_BLOCK else s.fat b) x END_OF_CHAIN }) := by
  have hstart : (s₀.fd_table i).starting_block = blockPtr x := Chain.cons_ptr h.chain
  have hset : (s₀.fd_table i).starting_block ≠ -1 := by
    rw [hstart]
    exact blockPtr_ne_free x
  have hindex : index NUM_BLOCKS (s₀.fd_table i).starting_block.toInt = .ok x := by rw [hstart, index_blockPtr]
  rw [rollback_eq h.in_progress h.logged_idx h.last_valid hset (h.clears rfl rfl), hindex]
  rfl

theorem Growing.rollback (h : Growing s₀ file_idx i (x :: xs) ys s) (hback : transactionRollback s = .ok s') :
    s'.fat = Function.update (fun b => if b ∈ ys then FREE_BLOCK else s.fat b) x END_OF_CHAIN := by
  rw [h.rolls_back] at hback
  cases hback
  rfl

theorem Growing.rollback_single (h : Growing s₀ file_idx i [x] ys s) (hx : s₀.fat x = END_OF_CHAIN)
    (hback : transactionRollback s = .ok s') : s'.fat = s₀.fat := by
  rw [h.rollback hback]
  funext b
  by_cases hbx : b = x
  · subst hbx
    rw [Function.update_self, hx]
  · rw [Function.update_of_ne hbx]
    by_cases hb : b ∈ ys
    · rw [if_pos hb, h.free b hb]
    · rw [if_neg hb, h.frame b (by simp [hbx, hb])]

theorem Growing.rollback_free (h : Growing s₀ file_idx i (x :: xs) ys s) (hback : transactionRollback s = .ok s')
    (hb : s'.fat b = FREE_BLOCK) : s₀.fat b = FREE_BLOCK := by
  rw [h.rollback hback] at hb
  by_cases hbx : b = x
  · subst hbx
    rw [Function.update_self] at hb
    cases hb
  · rw [Function.update_of_ne hbx] at hb
    by_cases hy : b ∈ ys
    · exact h.free b hy
    · rw [if_neg hy] at hb
      rw [← h.frame b fun hin => Chain.used h.chain hin hb]
      exact hb

theorem Growing.exhausted (h : Growing s₀ file_idx i xs ys s) (hxs : ∀ b ∈ xs, s₀.fat b ≠ FREE_BLOCK)
    (hnone : firstFreeBlock s.fat = none) : countFreeBlocks s₀.fat ≤ ys.length := by
  have hsub : (List.finRange NUM_BLOCKS).filter (fun b => s₀.fat b = FREE_BLOCK) ⊆ ys := by
    intro b hb
    have hfree : s₀.fat b = FREE_BLOCK := by simpa using (List.mem_filter.mp hb).2
    by_contra hby
    have hout : b ∉ xs ++ ys := by
      rw [List.mem_append, not_or]
      exact ⟨fun hbx => hxs b hbx hfree,hby⟩
    obtain ⟨c,hc⟩ := firstFree_isSome (show s.fat b = FREE_BLOCK by rw [h.frame b hout, hfree])
    rw [hnone] at hc
    cases hc
  rw [countFreeBlocks, List.countP_eq_length_filter]
  exact (((List.nodup_finRange NUM_BLOCKS).filter _).subperm hsub).length_le

theorem growing_start {new_size : ℤ} (h : Chain s.fat (s.fd_table i).starting_block xs) :
    Growing s file_idx i xs [] { s with transaction_log := growLog s file_idx (s.fd_table i) new_size } :=
  ⟨by rwa [List.append_nil],by simp,fun _ _ => rfl,rfl,rfl,rfl,rfl,rfl⟩

/-- The blocks that a write needs in addition. -/
def additionalBlocks (s : State) (i : Fin NUM_FILES) (new_size : ℤ) : ℕ :=
  (blocksFor new_size - blocksFor (s.fd_table i).size.toInt).toNat

/-- The file has become longer. -/
theorem grow_enough {new_size : ℤ} (h : Chain s.fat (s.fd_table i).starting_block xs)
    (hne : xs ≠ []) (hgrow : (grow file_idx i new_size s).result = .ok (true,s')) :
    ∃ ys, ys.length = additionalBlocks s i new_size ∧ Chain s'.fat (s.fd_table i).starting_block (xs ++ ys) ∧
      (∀ b ∈ ys, s.fat b = FREE_BLOCK) ∧ (∀ b ∉ xs ++ ys, s'.fat b = s.fat b) ∧
      s'.fd_table = Function.update s.fd_table i { s.fd_table i with size := Int16.ofInt new_size } := by
  obtain ⟨t,hextend,rfl⟩ := grow_cases hgrow
  rcases extendBy_growing (growing_start h) hne hextend with ⟨-,ys,hlen,hgrown⟩ | ⟨hfalse,-⟩
  · refine ⟨ys,hlen,hgrown.chain,hgrown.free,hgrown.frame,?_⟩
    show Function.update t.fd_table i { t.fd_table i with size := Int16.ofInt new_size } = _
    rw [hgrown.fd_table]
  · cases hfalse

/-- The blocks that have been appended hold the new size. -/
theorem grow_enough_size {new_size : ℤ} (h : Chain s.fat (s.fd_table i).starting_block xs) (hne : xs ≠ [])
    (hnonneg : 0 ≤ (s.fd_table i).size.toInt) (hroom : (s.fd_table i).size.toInt ≤ BLOCK_SIZE * xs.length)
    (hlt : (s.fd_table i).size.toInt < new_size) (hgrow : (grow file_idx i new_size s).result = .ok (true,s'))
    (hlen : ys.length = additionalBlocks s i new_size) :
    (s'.fd_table i).size.toInt = new_size ∧ new_size ≤ BLOCK_SIZE * (xs ++ ys).length := by
  obtain ⟨zs,hzs,hchain,-,-,htable⟩ := grow_enough h hne hgrow
  have hfull : (xs ++ zs).length ≤ 64 := Chain.length_le hchain
  have hold : (s.fd_table i).size.toInt ≤ 32 * xs.length := hroom
  have hnew : new_size ≤ 32 * (xs ++ ys).length := by
    rw [additionalBlocks, blocksFor_eq hnonneg, blocksFor_eq (by omega)] at hlen
    rw [List.length_append]
    omega
  refine ⟨?_,hnew⟩
  rw [List.length_append] at hfull hnew
  rw [htable, Function.update_self]
  exact Int16.toInt_ofInt_of_le (by omega) (by omega)

theorem length_le_countFree (hnodup : ys.Nodup) (hfree : ∀ b ∈ ys, s.fat b = FREE_BLOCK) :
    ys.length ≤ countFreeBlocks s.fat := by
  have hsub : ys ⊆ (List.finRange NUM_BLOCKS).filter fun b => s.fat b = FREE_BLOCK := fun b hb => by
    simpa using hfree b hb
  rw [countFreeBlocks, List.countP_eq_length_filter]
  exact (hnodup.subperm hsub).length_le

/-- A file becomes longer only where there are enough free blocks. -/
theorem grow_room {new_size : ℤ} (h : Chain s.fat (s.fd_table i).starting_block xs) (hne : xs ≠ [])
    (hgrow : (grow file_idx i new_size s).result = .ok (true,s')) :
    additionalBlocks s i new_size ≤ countFreeBlocks s.fat := by
  obtain ⟨ys,hlen,hchain,hfree,-⟩ := grow_enough h hne hgrow
  rw [← hlen]
  exact length_le_countFree (List.Nodup.of_append_right (Chain.nodup hchain)) hfree

/-- There were not enough free blocks; a chain of one block is restored. -/
theorem grow_fails {new_size : ℤ} (h : Chain s.fat (s.fd_table i).starting_block xs)
    (hne : xs ≠ []) (hgrow : (grow file_idx i new_size s).result = .ok (false,s')) :
    countFreeBlocks s.fat < additionalBlocks s i new_size ∧ (xs.length = 1 → s'.fat = s.fat) := by
  obtain ⟨t,hextend,rfl⟩ := grow_cases hgrow
  rcases extendBy_growing (growing_start h) hne hextend with ⟨htrue,-⟩ | ⟨-,ys,u,hlen,hgrown,hnone,hback⟩
  · cases htrue
  · refine ⟨(hgrown.exhausted (fun b => Chain.used h) hnone).trans_lt hlen,fun hone => ?_⟩
    obtain ⟨x,rfl⟩ := List.length_eq_one_iff.mp hone
    exact hgrown.rollback_single (seg_nil.mp h.2) hback

theorem grow_fails_chain {new_size : ℤ} (h : Chain s.fat (s.fd_table i).starting_block (x :: xs))
    (hgrow : (grow file_idx i new_size s).result = .ok (false,s')) :
    Chain s'.fat (s.fd_table i).starting_block [x] := by
  obtain ⟨t,hextend,rfl⟩ := grow_cases hgrow
  rcases extendBy_growing (growing_start h) (List.cons_ne_nil x xs) hextend with
    ⟨htrue,-⟩ | ⟨-,ys,u,-,hgrown,-,hback⟩
  · cases htrue
  · refine ⟨Chain.cons_ptr h,?_⟩
    show s'.fat x = END_OF_CHAIN
    rw [Growing.rollback hgrown hback, Function.update_self]

theorem grow_fails_frame {new_size : ℤ} (h : Chain s.fat (s.fd_table i).starting_block xs) (hne : xs ≠ [])
    (hgrow : (grow file_idx i new_size s).result = .ok (false,s')) :
    (∀ b ∉ xs, s.fat b ≠ FREE_BLOCK → s'.fat b = s.fat b) ∧ ∀ j, j ≠ file_idx → s'.fd_table j = s.fd_table j := by
  obtain ⟨t,hextend,rfl⟩ := grow_cases hgrow
  rcases extendBy_growing (growing_start h) hne hextend with ⟨htrue,-⟩ | ⟨-,ys,u,-,hgrown,-,hback⟩
  · cases htrue
  · rw [List.nil_append] at hgrown
    cases xs with
    | nil => exact absurd rfl hne
    | cons x xs =>
      rw [hgrown.rolls_back] at hback
      cases hback
      refine ⟨fun b hb hused => ?_,fun j hj => ?_⟩
      · have hnew : b ∉ ys := fun hin => hused (hgrown.free b hin)
        have hbx : b ≠ x := fun heq => hb (by simp [heq])
        show Function.update (fun b => if b ∈ ys then FREE_BLOCK else u.fat b) x END_OF_CHAIN b = s.fat b
        rw [Function.update_of_ne hbx, if_neg hnew, hgrown.frame b (by simpa [hnew] using hb)]
      · show Function.update u.fd_table file_idx _ j = s.fd_table j
        rw [Function.update_of_ne hj, hgrown.fd_table]

theorem grow_fails_size {new_size : ℤ} (h : Chain s.fat (s.fd_table i).starting_block (x :: xs))
    (hgrow : (grow file_idx i new_size s).result = .ok (false,s')) :
    (s'.fd_table file_idx).size = Int16.ofInt (((s.fd_table i).starting_block.toInt + 1) * BLOCK_SIZE) := by
  obtain ⟨t,hextend,rfl⟩ := grow_cases hgrow
  rcases extendBy_growing (growing_start h) (List.cons_ne_nil x xs) hextend with
    ⟨htrue,-⟩ | ⟨-,ys,u,-,hgrown,-,hback⟩
  · cases htrue
  · rw [Growing.rolls_back hgrown] at hback
    cases hback
    show (Function.update u.fd_table file_idx _ file_idx).size = _
    rw [Function.update_self]

theorem grow_zero {new_size : ℤ} {enough : Bool} (hnone : additionalBlocks s i new_size = 0)
    (hgrow : (grow file_idx i new_size s).result = .ok (enough,s')) : enough = true ∧ s'.fat = s.fat := by
  obtain ⟨t,hextend,rfl⟩ := grow_cases hgrow
  unfold additionalBlocks at hnone
  rw [hnone] at hextend
  cases hextend
  exact ⟨rfl,rfl⟩

theorem grow_walked {new_size : ℤ} {enough : Bool} (hneeded : additionalBlocks s i new_size ≠ 0)
    (hfree : firstFreeBlock s.fat ≠ none) (hgrow : (grow file_idx i new_size s).result = .ok (enough,s')) :
    ∃ xs, xs ≠ [] ∧ Chain s.fat (s.fd_table i).starting_block xs := by
  obtain ⟨t,hextend,-⟩ := grow_cases hgrow
  obtain ⟨n,hn⟩ := Nat.exists_eq_succ_of_ne_zero hneeded
  unfold additionalBlocks at hn
  rw [hn] at hextend
  obtain ⟨more,u,hone,-⟩ := andThen_ok.mp hextend
  rcases extend_cases hone with ⟨-,⟨e⟩⟩ | ⟨-,hnone,-⟩
  · obtain ⟨front,hfront⟩ := lastBlock_walked e.walked
    exact ⟨_,by simp,hfront⟩
  · exact absurd hnone hfree

theorem grow_enough_table {new_size : ℤ} (hgrow : (grow file_idx i new_size s).result = .ok (true,s')) :
    s'.fd_table = Function.update s.fd_table i { s.fd_table i with size := Int16.ofInt new_size } := by
  obtain ⟨t,hextend,rfl⟩ := grow_cases hgrow
  have hstep : ∀ u v : State, u.fd_table = s.fd_table → Extended i u v → v.fd_table = s.fd_table := by
    intro u v hu e
    rw [e.result]
    exact hu
  have hstart : ({ s with transaction_log := growLog s file_idx (s.fd_table i) new_size } : State).fd_table =
      s.fd_table := rfl
  rcases extendBy_induction (P := fun u => u.fd_table = s.fd_table) (Q := fun _ => True) hstep
      (fun _ _ _ _ _ => trivial) hstart hextend with ⟨-,hu⟩ | ⟨hfalse,-⟩
  · show Function.update t.fd_table i { t.fd_table i with size := Int16.ofInt new_size } = _
    rw [hu]
  · cases hfalse

theorem grow_first {new_size : ℤ} (hneeded : additionalBlocks s i new_size ≠ 0)
    (hgrow : (grow file_idx i new_size s).result = .ok (true,s')) : firstFreeBlock s.fat ≠ none := by
  obtain ⟨t,hextend,-⟩ := grow_cases hgrow
  obtain ⟨n,hn⟩ := Nat.exists_eq_succ_of_ne_zero hneeded
  unfold additionalBlocks at hn
  rw [hn] at hextend
  obtain ⟨more,u,hone,hrest⟩ := andThen_ok.mp hextend
  rcases extend_cases hone with ⟨-,⟨e⟩⟩ | ⟨rfl,-⟩
  · have hfirst : firstFreeBlock s.fat = some e.new_block := e.first
    rw [hfirst]
    exact Option.some_ne_none _
  · cases hrest

theorem grow_uses {new_size : ℤ} (hgrow : (grow file_idx i new_size s).result = .ok (true,s')) :
    countFreeBlocks s'.fat + additionalBlocks s i new_size ≤ countFreeBlocks s.fat := by
  by_cases hneeded : additionalBlocks s i new_size = 0
  · rw [(grow_zero hneeded hgrow).2, hneeded]
    exact le_rfl
  · obtain ⟨xs,hne,h⟩ := grow_walked hneeded (grow_first hneeded hgrow) hgrow
    obtain ⟨ys,hlen,hchain,hfree,hframe,-⟩ := grow_enough h hne hgrow
    let left := (List.finRange NUM_BLOCKS).filter fun b => s'.fat b = FREE_BLOCK
    have hleft : ∀ b ∈ left, s'.fat b = FREE_BLOCK := fun b hb => by simpa using (List.mem_filter.mp hb).2
    have hused : ∀ b ∈ left, b ∉ xs ++ ys := fun b hb hin => Chain.used hchain hin (hleft b hb)
    have hnodup : (left ++ ys).Nodup := by
      refine List.Nodup.append ((List.nodup_finRange NUM_BLOCKS).filter _)
        (List.Nodup.of_append_right (Chain.nodup hchain)) fun b hb hy => ?_
      exact hused b hb (List.mem_append_right _ hy)
    have hold : ∀ b ∈ left ++ ys, s.fat b = FREE_BLOCK := by
      intro b hb
      rcases List.mem_append.mp hb with hb | hb
      · rw [← hframe b (hused b hb)]
        exact hleft b hb
      · exact hfree b hb
    have hcount := length_le_countFree hnodup hold
    rw [List.length_append, hlen] at hcount
    rwa [countFreeBlocks, List.countP_eq_length_filter]

theorem extend_returns (h : Growing s₀ file_idx i xs ys s) (hne : xs ≠ []) (hflag : s.malfunction_flag = false) :
    ∃ more t, (extend i s).result = .ok (more,t) := by
  cases hfirst : firstFreeBlock s.fat with
  | none =>
    cases xs with
    | nil => exact absurd rfl hne
    | cons x xs =>
      obtain ⟨t,hback⟩ : ∃ t, transactionRollback s = .ok t := ⟨_,h.rolls_back⟩
      refine ⟨false,t,?_⟩
      simp only [extend, hfirst]
      exact proceed_ok.mpr ⟨t,hback,rfl⟩
  | some new_block =>
    obtain ⟨front,last,hfront⟩ : ∃ front last, xs ++ ys = front ++ [last] :=
      ⟨_,_,(List.dropLast_append_getLast (by simp [hne])).symm⟩
    have hchain := h.chain
    rw [hfront] at hchain
    have hlen := Chain.length_le hchain
    rw [List.length_append, List.length_singleton] at hlen
    have hwalked : lastBlock s.fat (NUM_BLOCKS + 1) (s.fd_table i).starting_block = .ok last := by
      rw [h.fd_table]
      exact lastBlock_eq hchain (by omega)
    obtain ⟨t,ht⟩ : ∃ t, (noteFirst s new_block).result = .ok ((),t) := ⟨_,noteFirst_ok.mpr rfl⟩
    have htflag : ¬ t.malfunction_flag = true := by
      rw [noteFirst_ok.mp ht]
      simp [hflag]
    let fat := Function.update (Function.update t.fat last (blockPtr new_block)) new_block END_OF_CHAIN
    refine ⟨true,{ t with fat := fat },?_⟩
    simp only [extend, hfirst]
    exact proceed_ok.mpr ⟨last,hwalked,andThen_ok.mpr ⟨(),t,ht,congrArg Outcome.result (if_neg htflag)⟩⟩

theorem extendBy_returns {n : ℕ} (h : Growing s₀ file_idx i xs ys s) (hne : xs ≠ [])
    (hflag : s.malfunction_flag = false) : ∃ enough t, (extendBy i n s).result = .ok (enough,t) := by
  induction n generalizing s ys with
  | zero => exact ⟨true,s,rfl⟩
  | succ n ih =>
    obtain ⟨more,t,hextend⟩ := extend_returns h hne hflag
    rcases extend_cases hextend with ⟨rfl,⟨e⟩⟩ | ⟨rfl,-⟩
    · have htflag : t.malfunction_flag = false := by rw [e.result]; exact hflag
      obtain ⟨enough,u,hrest⟩ := ih (h.step hne e) htflag
      exact ⟨enough,u,andThen_ok.mpr ⟨true,t,hextend,hrest⟩⟩
    · exact ⟨false,t,andThen_ok.mpr ⟨false,t,hextend,rfl⟩⟩

/-- Without a malfunction, making a file longer returns. -/
theorem grow_returns {new_size : ℤ} (h : Chain s.fat (s.fd_table i).starting_block xs) (hne : xs ≠ [])
    (hflag : s.malfunction_flag = false) : ∃ enough t, (grow file_idx i new_size s).result = .ok (enough,t) := by
  obtain ⟨enough,t,hextend⟩ := @extendBy_returns s _ file_idx i xs [] (additionalBlocks s i new_size) (growing_start h)
    hne hflag
  exact ⟨enough,_,andThen_ok.mpr ⟨(),_,rfl,andThen_ok.mpr ⟨enough,t,hextend,rfl⟩⟩⟩

end SOI.FileSystem

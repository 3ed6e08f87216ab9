import SOI.FileSystem.Recovery

/-! # Writing without enough space

`write` finds out that there is no block left when it has already appended some. The
rollback then works with the numbers in the log, as it does after a restart.
-/
namespace SOI.FileSystem
open Linked Runs Texts
variable {s s' t : State} {past : Option FileDescriptor} {file_idx fd_index : Fin NUM_FILES} {name : Text}
  {buffer : ℕ → Int8} {size : Int16} {chain : Fin NUM_FILES → List Block} {new_size : ℤ} {x : Block} {xs : List Block}

/-- The call has had no effect, but for the log. -/
structure Unchanged (s s' : State) : Prop where
  memory : s'.memory = s.memory
  fat : s'.fat = s.fat
  fd_table : s'.fd_table = s.fd_table
  file_count : s'.file_count = s.file_count
  open_file_fd_table : s'.open_file_fd_table = s.open_file_fd_table

def rolledBackTable (s : State) (file_idx fd_index : Fin NUM_FILES) : Fin NUM_FILES → FileDescriptor :=
  let start := (s.fd_table fd_index).starting_block
  if start = -1 then s.fd_table
  else Function.update s.fd_table file_idx
    { s.fd_table file_idx with size := Int16.ofInt ((start.toInt + 1) * BLOCK_SIZE) }

theorem rolledBackTable_of_ptr (hstart : (s.fd_table fd_index).starting_block = blockPtr x) :
    rolledBackTable s file_idx fd_index = Function.update s.fd_table file_idx
      { s.fd_table file_idx with size := Int16.ofInt (((blockPtr x).toInt + 1) * BLOCK_SIZE) } := by
  rw [rolledBackTable, hstart, if_neg (blockPtr_ne_free x)]

structure Appending (s : State) (file_idx fd_index : Fin NUM_FILES) (t : State) : Prop where
  fd_table : t.fd_table = s.fd_table
  in_progress : t.transaction_log.in_progress = true
  logged_idx : t.transaction_log.file_idx = Int16.ofInt file_idx
  last_valid : t.transaction_log.last_valid_block = (s.fd_table fd_index).starting_block

theorem Appending.step (h : Appending s file_idx fd_index t) {u : State} (e : Extended fd_index t u) :
    Appending s file_idx fd_index u := by
  rw [e.result]
  constructor
  · exact h.fd_table
  all_goals
    dsimp only [notedLog]
    split_ifs
  · exact h.in_progress
  · exact h.in_progress
  · exact h.logged_idx
  · exact h.logged_idx
  · exact h.last_valid
  · exact h.last_valid

theorem Appending.rollback (h : Appending s file_idx fd_index t) {u : State} (hback : transactionRollback t = .ok u) :
    u.fd_table = rolledBackTable s file_idx fd_index := by
  obtain ⟨v,hv,w,hw,z,hz,rfl⟩ := (rollback_ok h.in_progress).mp hback
  have hvw : w.fd_table = v.fd_table := by
    unfold clearNewAllocatedBlocks at hw
    dsimp only at hw
    split_ifs at hw
    · obtain ⟨fat,-,rfl⟩ := map_eq_ok.mp hw
      rfl
    · cases hw
      rfl
  have hwz : z.fd_table = w.fd_table := by
    unfold restoreEndOfChain at hz
    dsimp only at hz
    split_ifs at hz
    · obtain ⟨b,-,rfl⟩ := map_eq_ok.mp hz
      rfl
    · cases hz
      rfl
  show z.fd_table = _
  rw [hwz, hvw]
  unfold restoreOriginalFileSize at hv
  dsimp only at hv
  rw [h.logged_idx, h.last_valid, index_fileIndex] at hv
  unfold rolledBackTable
  dsimp only
  split_ifs at hv with hstart
  · rw [if_neg hstart.2]
    cases hv
    show Function.update t.fd_table file_idx _ = _
    rw [h.fd_table]
  · rw [if_pos]
    · cases hv
      exact h.fd_table
    · by_contra hne
      exact hstart ⟨fileIndex_ne file_idx,hne⟩

/-- A write without enough space gives the file of its name the size from the log. -/
theorem grow_fails_table (hgrow : (grow file_idx fd_index new_size s).result = .ok (false,s')) :
    s'.fd_table = rolledBackTable s file_idx fd_index := by
  obtain ⟨t,hextend,rfl⟩ := grow_cases hgrow
  have hstart : Appending s file_idx fd_index
      { s with transaction_log := growLog s file_idx (s.fd_table fd_index) new_size } := ⟨rfl,rfl,rfl,rfl⟩
  rcases extendBy_induction (fun _ _ hu e => hu.step e) (fun _ _ hu _ hback => hu.rollback hback) hstart hextend with
    ⟨htrue,-⟩ | ⟨-,htable⟩
  · cases htrue
  · exact htable

theorem rollback_started (hstart : (s.fd_table fd_index).starting_block = blockPtr x) :
    ∃ t, transactionRollback { s with transaction_log := growLog s file_idx (s.fd_table fd_index) new_size } = .ok t ∧
      t.fat = Function.update s.fat x END_OF_CHAIN := by
  have hlog : Logged s file_idx fd_index (growLog s file_idx (s.fd_table fd_index) new_size) :=
    ⟨rfl,rfl,rfl,Or.inl rfl⟩
  have hback := @rollback_logged s { s with transaction_log := growLog s file_idx (s.fd_table fd_index) new_size }
    file_idx fd_index hlog rfl
  rw [hstart, if_neg (blockPtr_ne_free x), index_blockPtr] at hback
  exact ⟨_,hback,rfl⟩

theorem grow_fails_free (hstart : (s.fd_table fd_index).starting_block = blockPtr x)
    (hgrow : (grow file_idx fd_index new_size s).result = .ok (false,s')) {b : Block} (hb : s'.fat b = FREE_BLOCK) :
    s.fat b = FREE_BLOCK := by
  have hneeded : additionalBlocks s fd_index new_size ≠ 0 := fun hnone => by
    cases (grow_zero hnone hgrow).1
  by_cases hfirst : firstFreeBlock s.fat = none
  · obtain ⟨t,hextend,rfl⟩ := grow_cases hgrow
    obtain ⟨n,hn⟩ := Nat.exists_eq_succ_of_ne_zero hneeded
    unfold additionalBlocks at hn
    rw [hn] at hextend
    obtain ⟨more,u,hone,hrest⟩ := andThen_ok.mp hextend
    rcases extend_cases hone with ⟨-,⟨e⟩⟩ | ⟨rfl,-,hback⟩
    · have hsome := e.first
      rw [hfirst] at hsome
      cases hsome
    · cases hrest
      obtain ⟨v,hv,hfat⟩ := @rollback_started s file_idx fd_index new_size x hstart
      obtain rfl := Except.ok.inj (hv.symm.trans hback)
      have hkept : v.fat b = FREE_BLOCK := hb
      rw [hfat] at hkept
      by_cases hbx : b = x
      · subst hbx
        rw [Function.update_self] at hkept
        cases hkept
      · rwa [Function.update_of_ne hbx] at hkept
  · obtain ⟨xs,hne,h⟩ := grow_walked hneeded hfirst hgrow
    obtain ⟨t,hextend,rfl⟩ := grow_cases hgrow
    rcases extendBy_growing (growing_start h) hne hextend with ⟨htrue,-⟩ | ⟨-,ys,u,-,hgrown,-,hback⟩
    · cases htrue
    · cases xs with
      | nil => exact absurd rfl hne
      | cons c xs => exact hgrown.rollback_free hback hb

theorem grow_fails_first (h : Chain s.fat (s.fd_table fd_index).starting_block (x :: xs))
    (hgrow : (grow file_idx fd_index new_size s).result = .ok (false,s')) : s'.fat x = END_OF_CHAIN := by
  obtain ⟨t,hextend,rfl⟩ := grow_cases hgrow
  rcases extendBy_growing (growing_start h) (List.cons_ne_nil x xs) hextend with ⟨htrue,-⟩ | ⟨-,ys,u,-,hgrown,-,hback⟩
  · cases htrue
  · have hfat := hgrown.rollback hback
    exact (congrFun hfat x).trans (Function.update_self ..)

/-- Only a write that needs a longer file runs out of space. -/
theorem Writing.no_space (w : Writing name s) (h : (write name buffer size s).result = .ok (.FILE_WRITE_NO_SPACE,s')) :
    w.file.size.toInt < w.new_size size ∧ (grow w.file_idx w.fd_index (w.new_size size) s).result = .ok (false,s') := by
  have hcopied : ∀ t, (writeAt w.k w.file.starting_block buffer size t).result ≠ .ok (.FILE_WRITE_NO_SPACE,s') := by
    intro t ht
    rcases writeAt_cases ht with ⟨hst,-⟩ | ⟨hst,-⟩ <;> cases hst
  rw [w.write_eq] at h
  split_ifs at h with hgrows
  · obtain ⟨enough,t,hgrow,hrest⟩ := andThen_ok.mp h
    cases enough with
    | true => exact absurd hrest (hcopied t)
    | false =>
      cases hrest
      exact ⟨hgrows,hgrow⟩
  · exact absurd h (hcopied s)

/-- A write that runs out of space has no effect exactly if its file has one block, and
the descriptor with the name has the size up to the end of that block. -/
theorem no_space_unchanged_iff (h : WellChained s chain) (w : Writing name s) (hlive : Live s w.fd_index)
    (hno : (write name buffer size s).result = .ok (.FILE_WRITE_NO_SPACE,s')) :
    Unchanged s s' ↔ ∃ b, chain w.fd_index = [b] ∧ (s.fd_table w.file_idx).size.toInt = (b + 1) * BLOCK_SIZE := by
  obtain ⟨-,hgrow⟩ := w.no_space hno
  have hseg := h.seg _ hlive
  have hne := h.nonempty _ hlive
  have hsame := sameEntries_grow hgrow
  have htable := grow_fails_table hgrow
  cases hchain : chain w.fd_index with
  | nil => exact absurd hchain hne
  | cons x xs =>
    rw [hchain] at hseg
    have hstart := hseg.cons_ptr
    have hfirst := grow_fails_first hseg hgrow
    rw [rolledBackTable_of_ptr hstart] at htable
    constructor
    · intro hunchanged
      have hend : s.fat x = END_OF_CHAIN := by rw [← hunchanged.fat, hfirst]
      have hxs : x :: xs = [x] := Seg.unique blockPtr_injective blockPtr_ne_end hseg ⟨hstart,hend⟩
      refine ⟨x,hxs,size_of_block.mp ?_⟩
      rw [hunchanged.fd_table] at htable
      have hentry := congrArg FileDescriptor.size (congrFun htable w.file_idx)
      rwa [Function.update_self] at hentry
    · rintro ⟨b,hb,hsize⟩
      obtain ⟨rfl,rfl⟩ := List.cons_eq_cons.mp hb
      refine ⟨hsame.memory,(grow_fails hseg (List.cons_ne_nil x []) hgrow).2 rfl,?_,hsame.file_count,
        hsame.open_file_fd_table⟩
      rw [htable, ← size_of_block.mpr hsize, Function.update_eq_self]

def Malfunctions (s : State) (i : Fin NUM_FILES) (new_size : ℤ) : Prop :=
  s.malfunction_flag = true ∧ 0 < additionalBlocks s i new_size ∧ 0 < countFreeBlocks s.fat

instance (s : State) (i : Fin NUM_FILES) (new_size : ℤ) : Decidable (Malfunctions s i new_size) :=
  inferInstanceAs (Decidable (_ ∧ _ ∧ _))

theorem countFree_pos {fat : Block → Int16} : 0 < countFreeBlocks fat ↔ ∃ b, firstFreeBlock fat = some b := by
  rw [countFreeBlocks, List.countP_pos_iff]
  constructor
  · rintro ⟨b,-,hb⟩
    exact firstFree_isSome (by simpa using hb)
  · rintro ⟨b,hb⟩
    exact ⟨b,List.mem_finRange b,by simpa using firstFree_free hb⟩

theorem grow_terminates (h : Chain s.fat (s.fd_table fd_index).starting_block xs) (hne : xs ≠ [])
    (hmal : Malfunctions s fd_index new_size) : (grow file_idx fd_index new_size s).result = .error .terminated := by
  obtain ⟨hflag,hneeded,hfree⟩ := hmal
  obtain ⟨new_block,hfirst⟩ := countFree_pos.mp hfree
  obtain ⟨front,last,rfl⟩ : ∃ front last, xs = front ++ [last] := ⟨_,_,(List.dropLast_append_getLast hne).symm⟩
  have hlen := Chain.length_le h
  rw [List.length_append, List.length_singleton] at hlen
  have hwalked : lastBlock s.fat (NUM_BLOCKS + 1) (s.fd_table fd_index).starting_block = .ok last :=
    lastBlock_eq h (by omega)
  have hextend : ∀ t : State, t.fat = s.fat → t.fd_table = s.fd_table → t.malfunction_flag = true →
      (extend fd_index t).result = .error .terminated := by
    intro t hfat htable htflag
    obtain ⟨u,hu⟩ : ∃ u, (noteFirst t new_block).result = .ok ((),u) := ⟨_,noteFirst_ok.mpr rfl⟩
    have huflag : u.malfunction_flag = true := by rw [noteFirst_ok.mp hu, htflag]
    simp only [extend, hfat, htable, hfirst, hwalked, proceed, Outcome.andThen, hu, huflag, if_true, stopped]
  obtain ⟨n,hn⟩ : ∃ n, additionalBlocks s fd_index new_size = n + 1 := ⟨_,(Nat.succ_pred_eq_of_pos hneeded).symm⟩
  unfold additionalBlocks at hn
  have hstopped := hextend { s with transaction_log := growLog s file_idx (s.fd_table fd_index) new_size } rfl rfl hflag
  simp only [grow, Outcome.andThen, hn, extendBy, hstopped]

theorem grow_full (hstart : (s.fd_table fd_index).starting_block = blockPtr x)
    (hneeded : additionalBlocks s fd_index new_size ≠ 0) (hfull : firstFreeBlock s.fat = none) :
    ∃ t, (grow file_idx fd_index new_size s).result = .ok (false,t) := by
  obtain ⟨t,ht,-⟩ := @rollback_started s file_idx fd_index new_size x hstart
  have hone : (extend fd_index
      { s with transaction_log := growLog s file_idx (s.fd_table fd_index) new_size }).result = .ok (false,t) := by
    simp only [extend, hfull, proceed, ht, done_result]
  obtain ⟨n,hn⟩ := Nat.exists_eq_succ_of_ne_zero hneeded
  have hextend : (extendBy fd_index (additionalBlocks s fd_index new_size)
      { s with transaction_log := growLog s file_idx (s.fd_table fd_index) new_size }).result = .ok (false,t) := by
    rw [hn]
    exact andThen_ok.mpr ⟨false,t,hone,rfl⟩
  exact ⟨t,andThen_ok.mpr ⟨(),_,rfl,andThen_ok.mpr ⟨false,t,hextend,rfl⟩⟩⟩

theorem grow_returns_unless (h : Chain s.fat (s.fd_table fd_index).starting_block xs) (hne : xs ≠ [])
    (hmal : ¬ Malfunctions s fd_index new_size) :
    ∃ enough t, (grow file_idx fd_index new_size s).result = .ok (enough,t) := by
  by_cases hflag : s.malfunction_flag = true
  · by_cases hneeded : additionalBlocks s fd_index new_size = 0
    · obtain ⟨t,hextend⟩ : ∃ t, (extendBy fd_index (additionalBlocks s fd_index new_size)
          { s with transaction_log := growLog s file_idx (s.fd_table fd_index) new_size }).result = .ok (true,t) := by
        rw [hneeded]
        exact ⟨_,rfl⟩
      exact ⟨true,_,andThen_ok.mpr ⟨(),_,rfl,andThen_ok.mpr ⟨true,t,hextend,rfl⟩⟩⟩
    · have hfull : firstFreeBlock s.fat = none := by
        by_contra hsome
        exact hmal ⟨hflag,by omega,countFree_pos.mpr (Option.ne_none_iff_exists'.mp hsome)⟩
      cases xs with
      | nil => exact absurd rfl hne
      | cons x xs =>
        obtain ⟨t,ht⟩ := @grow_full s file_idx fd_index new_size x h.cons_ptr hneeded hfull
        exact ⟨false,t,ht⟩
  · exact grow_returns h hne (Bool.eq_false_of_not_eq_true hflag)

theorem Writing.runs_out (w : Writing name s) (h : WellChained s chain) (hlive : Live s w.fd_index)
    (hmal : ¬ Malfunctions s w.fd_index (w.new_size size)) (hgrows : w.file.size.toInt < w.new_size size)
    (hless : countFreeBlocks s.fat < additionalBlocks s w.fd_index (w.new_size size)) :
    ∃ s', (write name buffer size s).result = .ok (.FILE_WRITE_NO_SPACE,s') := by
  obtain ⟨enough,t,hgrow⟩ := @grow_returns_unless s w.file_idx _ (w.new_size size) _ (h.seg _ hlive)
    (h.nonempty _ hlive) hmal
  rw [w.write_eq, if_pos hgrows]
  cases enough with
  | true => exact absurd (grow_room (h.seg _ hlive) (h.nonempty _ hlive) hgrow) (not_le.mpr hless)
  | false => exact ⟨t,andThen_ok.mpr ⟨false,t,hgrow,rfl⟩⟩

theorem Writing.runs_out_of_space (w : Writing name s) (h : WellChained s chain) (hlive : Live s w.fd_index)
    (hflag : s.malfunction_flag = false) (hoffset : (s.open_file_fd_table w.k).offset = 0)
    (hsmall : 0 ≤ w.file.size.toInt ∧ w.file.size.toInt ≤ 32) :
    ∃ s', (write name buffer 32767 s).result = .ok (.FILE_WRITE_NO_SPACE,s') := by
  have hfree := countFree_le s.fat
  have hsize : w.new_size 32767 = 32767 := by
    rw [Writing.new_size, hoffset]
    rfl
  have hneeded : 1023 ≤ additionalBlocks s w.fd_index (w.new_size 32767) := by
    have hfile : blocksFor w.file.size.toInt = (w.file.size.toInt + 31) / 32 := blocksFor_eq hsmall.1
    have hold : blocksFor (s.fd_table w.fd_index).size.toInt ≤ 1 := by
      show blocksFor w.file.size.toInt ≤ 1
      omega
    rw [hsize, additionalBlocks, blocksFor_eq (by omega)]
    omega
  have hmal : ¬ Malfunctions s w.fd_index (w.new_size 32767) := by
    rintro ⟨hset,-⟩
    rw [hflag] at hset
    cases hset
  exact w.runs_out h hlive hmal (by rw [hsize]; omega) (by omega)

/-- A file whose single block is the first one, full, is as before. -/
theorem full_block_unchanged : ∃ s s', run (step none) (emptyFileSystem false) [.create ['a'] 32,.open_ ['a']] = some s ∧
    (write ['a'] (fun _ => 7) 32767 s).result = .ok (.FILE_WRITE_NO_SPACE,s') ∧ Unchanged s s' := by
  have hruns : ((run (step none) (emptyFileSystem false) [.create ['a'] 32,.open_ ['a']]).any fun s =>
      findFileIndexByName s ['a'] = some 0 && s.open_file_fd_table 0 = ⟨0,0⟩ &&
        s.fd_table 0 = ⟨['a'],blockPtr ⟨0,by decide⟩,32⟩ && s.fat ⟨0,by decide⟩ = END_OF_CHAIN && Live s 0 &&
          !s.malfunction_flag) = true := by decide
  obtain ⟨s,hrun,hs⟩ := (Option.any_eq_true _ _).mp hruns
  simp only [Bool.and_eq_true, decide_eq_true_eq, Bool.not_eq_true'] at hs
  obtain ⟨⟨⟨⟨⟨hfound,hopened⟩,hfile⟩,hend⟩,hlive⟩,hflag⟩ := hs
  obtain ⟨chain,hchain⟩ := chained_run (by decide +kernel) hrun
  let w : Writing ['a'] s := ⟨0,0,0,hfound,rfl,by rw [hopened]; decide,by rw [hopened]; rfl⟩
  have hsize : (s.fd_table 0).size.toInt = 32 := by
    rw [hfile]
    rfl
  obtain ⟨s',hwrite⟩ := @Writing.runs_out_of_space s ['a'] (fun _ => 7) chain w hchain.wellChained hlive hflag
    (congrArg OpenedFile.offset hopened) ⟨by show 0 ≤ (s.fd_table 0).size.toInt; omega,by
      show (s.fd_table 0).size.toInt ≤ 32
      omega⟩
  have hone : chain 0 = [⟨0,by decide⟩] := by
    refine Seg.unique blockPtr_injective blockPtr_ne_end (hchain.seg 0 hlive) ⟨?_,hend⟩
    rw [hfile]
  exact ⟨s,s',hrun,hwrite,(no_space_unchanged_iff hchain.wellChained w hlive hwrite).mpr ⟨_,hone,hsize⟩⟩

/-- An empty file has the size of a full block afterwards. -/
theorem empty_file_changed : ∃ s s' chain,
    run (step none) (emptyFileSystem false) [.create ['a'] 0,.open_ ['a']] = some s ∧ WellChained s chain ∧
      (write ['a'] (fun _ => 7) 32767 s).result = .ok (.FILE_WRITE_NO_SPACE,s') ∧ ¬ Unchanged s s' := by
  have hruns : ((run (step none) (emptyFileSystem false) [.create ['a'] 0,.open_ ['a']]).any fun s =>
      findFileIndexByName s ['a'] = some 0 && s.open_file_fd_table 0 = ⟨0,0⟩ &&
        s.fd_table 0 = ⟨['a'],blockPtr ⟨0,by decide⟩,0⟩ && Live s 0 && !s.malfunction_flag) = true := by decide
  obtain ⟨s,hrun,hs⟩ := (Option.any_eq_true _ _).mp hruns
  simp only [Bool.and_eq_true, decide_eq_true_eq, Bool.not_eq_true'] at hs
  obtain ⟨⟨⟨⟨hfound,hopened⟩,hfile⟩,hlive⟩,hflag⟩ := hs
  obtain ⟨chain,hchain⟩ := chained_run (by decide +kernel) hrun
  let w : Writing ['a'] s := ⟨0,0,0,hfound,rfl,by rw [hopened]; decide,by rw [hopened]; rfl⟩
  have hsize : (s.fd_table 0).size.toInt = 0 := by
    rw [hfile]
    rfl
  obtain ⟨s',hwrite⟩ := @Writing.runs_out_of_space s ['a'] (fun _ => 7) chain w hchain.wellChained hlive hflag
    (congrArg OpenedFile.offset hopened) ⟨by show 0 ≤ (s.fd_table 0).size.toInt; omega,by
      show (s.fd_table 0).size.toInt ≤ 32
      omega⟩
  refine ⟨s,s',chain,hrun,hchain.wellChained,hwrite,fun hunchanged => ?_⟩
  have htable := grow_fails_table (w.no_space hwrite).2
  have hstart : (s.fd_table w.fd_index).starting_block = blockPtr ⟨0,by decide⟩ := congrArg _ hfile
  rw [hunchanged.fd_table, rolledBackTable_of_ptr hstart] at htable
  have hentry := congrArg FileDescriptor.size (congrFun htable w.file_idx)
  rw [Function.update_self] at hentry
  have hblock : (s.fd_table 0).size.toInt = 32 := size_of_block.mp hentry
  omega

end SOI.FileSystem

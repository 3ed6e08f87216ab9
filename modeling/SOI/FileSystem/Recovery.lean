import SOI.FileSystem.Durability
import SOI.FileSystem.FatInvariant

/-! # Recovery from an interrupted write

A write that makes its file longer saves only the log before its last step. The
files then on disk are the old ones with a log of a transaction in progress, and
the rollback works with the numbers in that log.
-/
namespace SOI.FileSystem
open Linked Runs Texts
variable {s s' t raw : State} {past : Option FileDescriptor} {d : Disk} {log : TransactionLog}
  {file_idx fd_index : Fin NUM_FILES} {b : Block} {name : Text} {buffer : ℕ → Int8} {size : Int16}

def Recovers (raw : State) (d : Disk) (s : State) : Prop := ∃ t, construct raw d = saved () t ∧ SameFiles s t

theorem saved_injective {α : Type} {a : α} (h : saved a s = saved a t) : s = t := by
  have hresult := congrArg Outcome.result h
  exact (Prod.mk.inj (Except.ok.inj hresult)).2

theorem construct_cases (h : construct raw d = saved () t) :
    (∃ u v, restoreFromDisk raw d = .ok u ∧ repair u = .ok v ∧ t = v.closed) ∨ t = raw.reset.closed := by
  unfold construct at h
  split at h
  · next v hv =>
    obtain ⟨u,hu,hrepair⟩ := bind_ok.mp hv
    exact Or.inl ⟨u,v,hu,hrepair,(saved_injective h).symm⟩
  · exact Or.inr (saved_injective h).symm
  · exact Or.inr (saved_injective h).symm
  · cases h

theorem recovers_iff_repaired (hlive : Live s file_idx) :
    Recovers raw d s ↔ ∃ u v, restoreFromDisk raw d = .ok u ∧ repair u = .ok v ∧ SameFiles s v := by
  constructor
  · rintro ⟨t,hstart,hsame⟩
    rcases construct_cases hstart with ⟨u,v,hu,hv,rfl⟩ | rfl
    · exact ⟨u,v,hu,hv,hsame.memory,hsame.fat,hsame.fd_table,hsame.file_count⟩
    · have hcount : 0 = s.file_count := hsame.file_count
      rw [Live, ← hcount, show (0 : Int16).toInt = 0 from rfl] at hlive
      omega
  · rintro ⟨u,v,hu,hv,hsame⟩
    exact ⟨v.closed,construct_ok hu hv,hsame.memory,hsame.fat,hsame.fd_table,hsame.file_count⟩

/-- A write to the entry `fd_index` under the number `file_idx` is in progress. -/
structure Logged (s : State) (file_idx fd_index : Fin NUM_FILES) (log : TransactionLog) : Prop where
  in_progress : log.in_progress = true
  file_idx_eq : log.file_idx = Int16.ofInt file_idx
  last_valid : log.last_valid_block = (s.fd_table fd_index).starting_block
  first_new : log.first_new_block = -1 ∨ ∃ b, log.first_new_block = blockPtr b ∧ s.fat b = FREE_BLOCK

theorem clear_free (hfirst : t.transaction_log.first_new_block = -1 ∨
    ∃ b, t.transaction_log.first_new_block = blockPtr b ∧ t.fat b = FREE_BLOCK) :
    clearNewAllocatedBlocks t = .ok t := by
  unfold clearNewAllocatedBlocks
  dsimp only
  rcases hfirst with hfirst | ⟨b,hfirst,hfree⟩
  · rw [if_neg (by simpa using hfirst)]
  · have hends : ¬ (decide (blockPtr b = -1) || decide (blockPtr b = END_OF_CHAIN)) = true := by
      simp [blockPtr_ne_free b, (blockPtr_ne_end b).symm]
    have hclear : clearChain (fun b => b = -1 || b = END_OF_CHAIN) (NUM_BLOCKS + 2) t.fat (blockPtr b) = .ok t.fat := by
      have hsame : Function.update t.fat b FREE_BLOCK = t.fat := by rw [← hfree, Function.update_eq_self]
      rw [clearChain, if_neg hends, index_blockPtr]
      refine Eq.trans (congrArg (fun fat => clearChain _ _ fat (t.fat b)) hsame) ?_
      rw [clearChain, if_pos (by rw [hfree]; rfl)]
    rw [hfirst, if_pos (blockPtr_ne_free b), hclear]
    rfl

/-- The rollback of such a write, the FAT being the old one. -/
theorem rollback_logged (hlog : Logged s file_idx fd_index t.transaction_log) (hfat : t.fat = s.fat) :
    transactionRollback t = if (s.fd_table fd_index).starting_block = -1 then .ok (clearTransactionLog t)
      else (index NUM_BLOCKS (s.fd_table fd_index).starting_block.toInt).map fun b =>
        clearTransactionLog { setFileSize t file_idx (((s.fd_table fd_index).starting_block.toInt + 1) * BLOCK_SIZE) with
          fat := Function.update t.fat b END_OF_CHAIN } := by
  have hfirst := hlog.first_new
  rw [← hfat] at hfirst
  split_ifs with hstart
  · have hsize : restoreOriginalFileSize t = .ok t := by
      rw [restoreOriginalFileSize, hlog.last_valid, if_neg fun h => h.2 hstart]
    have hend : restoreEndOfChain t = .ok t := by
      rw [restoreEndOfChain, hlog.last_valid, if_neg (not_not.mpr hstart)]
    rw [transactionRollback, if_neg (by simp [hlog.in_progress]), hsize, ok_bind, clear_free hfirst, ok_bind, hend]
    rfl
  · exact rollback_eq hlog.in_progress hlog.file_idx_eq hlog.last_valid hstart (clear_free hfirst)

/-- The log says how the file was: it consists of one block, and its size is what the
rollback computes from the number of that block. -/
def RollbackFits (s : State) (file_idx fd_index : Fin NUM_FILES) : Prop :=
  (s.fd_table fd_index).starting_block = -1 ∨ ∃ b, (s.fd_table fd_index).starting_block = blockPtr b ∧
    s.fat b = END_OF_CHAIN ∧ (s.fd_table file_idx).size.toInt = (b + 1) * BLOCK_SIZE

/-- For a file in use with a proper chain: it has one block and fills the memory up to
the end of that block. -/
theorem rollbackFits_iff {chain : Fin NUM_FILES → List Block} (h : Chained s chain) (hlive : Live s fd_index) :
    RollbackFits s file_idx fd_index ↔
      ∃ b, chain fd_index = [b] ∧ (s.fd_table file_idx).size.toInt = (b + 1) * BLOCK_SIZE := by
  have hseg := h.seg fd_index hlive
  constructor
  · rintro (hstart | ⟨b,hptr,hend,hsize⟩)
    · cases hchain : chain fd_index with
      | nil => exact absurd hchain (h.nonempty fd_index hlive)
      | cons b bs =>
        rw [hchain] at hseg
        exact absurd (hseg.cons_ptr.symm.trans hstart) (blockPtr_ne_free b)
    · have hone : Chain s.fat (s.fd_table fd_index).starting_block [b] := ⟨hptr,hend⟩
      exact ⟨b,Seg.unique blockPtr_injective blockPtr_ne_end hseg hone,hsize⟩
  · rintro ⟨b,hchain,hsize⟩
    rw [hchain] at hseg
    exact Or.inr ⟨b,hseg.1,hseg.2,hsize⟩

theorem size_of_block {n : Int16} : n = Int16.ofInt (((blockPtr b).toInt + 1) * BLOCK_SIZE) ↔
    n.toInt = (b + 1) * BLOCK_SIZE := by
  have hlt : (b : ℕ) < 64 := b.isLt
  rw [blockPtr_toInt, ← Int16.toInt_inj, Int16.toInt_ofInt_of_le]
  all_goals
    push_cast
    omega

/-- The old files with the log of a write in progress. -/
theorem recovers_logged (hlog : Logged s file_idx fd_index log) (hlive : Live s file_idx) :
    Recovers raw (filesOf s.memory s.fat s.fd_table log s.file_count) s ↔
      Plain s.fd_table ∧ RollbackFits s file_idx fd_index := by
  have hrepair : ∀ table, repair (raw.restored s.memory s.fat table log s.file_count) =
      transactionRollback (raw.restored s.memory s.fat table log s.file_count) := fun table =>
    if_pos hlog.in_progress
  have hrollback := fun table => @rollback_logged s (raw.restored s.memory s.fat table log s.file_count) _ _ hlog rfl
  rw [recovers_iff_repaired hlive]
  constructor
  · rintro ⟨u,v,hu,hv,hsame⟩
    rw [restore_files] at hu
    obtain ⟨table,htable,rfl⟩ := map_eq_ok.mp hu
    rw [hrepair] at hv
    have hplain : Plain s.fd_table := by
      rw [← hsame.fd_table]
      exact (sameEntries_rollback hv).plain (restored_plain htable)
    obtain rfl : s.fd_table = table := Except.ok.inj ((restore_descriptors hplain _).symm.trans htable)
    refine ⟨hplain,?_⟩
    rw [hrollback] at hv
    split_ifs at hv with hstart
    · exact Or.inl hstart
    · obtain ⟨b,hb,rfl⟩ := map_eq_ok.mp hv
      have hptr : (s.fd_table fd_index).starting_block = blockPtr b := by
        rw [← Int16.toInt_inj, blockPtr_toInt]
        exact index_eq_ok hb
      have hend : Function.update s.fat b END_OF_CHAIN b = s.fat b := congrFun hsame.fat b
      have hsize := congrArg FileDescriptor.size (congrFun hsame.fd_table file_idx)
      rw [Function.update_self] at hend
      simp only [clearTransactionLog, setFileSize, Function.update_self, hptr] at hsize
      exact Or.inr ⟨b,hptr,hend.symm,size_of_block.mp hsize.symm⟩
  · rintro ⟨hplain,hfits⟩
    have hrestore := restore_files raw s.memory s.fat s.fd_table log s.file_count
    rw [restore_descriptors hplain] at hrestore
    rcases hfits with hstart | ⟨b,hptr,hend,hsize⟩
    · refine ⟨_,_,hrestore,(hrepair _).trans ((hrollback _).trans (if_pos hstart)),rfl,rfl,rfl,rfl⟩
    · have hstart : (s.fd_table fd_index).starting_block ≠ -1 := by
        rw [hptr]
        exact blockPtr_ne_free b
      have hv := (hrepair s.fd_table).trans ((hrollback _).trans (if_neg hstart))
      rw [hptr, index_blockPtr] at hv
      refine ⟨_,_,hrestore,hv,rfl,?_,?_,rfl⟩
      · show Function.update s.fat b END_OF_CHAIN = s.fat
        rw [← hend, Function.update_eq_self]
      · show Function.update s.fd_table file_idx { s.fd_table file_idx with size := _ } = s.fd_table
        rw [← size_of_block.mpr hsize, Function.update_eq_self]

theorem mem_andThen_saves {α β : Type} {o : Outcome α} {f : α → State → Outcome β} {file : DataFile}
    (h : file ∈ (o.andThen f).saves) : file ∈ o.saves ∨ ∃ a t, o.result = .ok (a,t) ∧ file ∈ (f a t).saves := by
  unfold Outcome.andThen at h
  cases hresult : o.result with
  | error e =>
    rw [hresult] at h
    exact Or.inl h
  | ok r =>
    rw [hresult] at h
    rcases List.mem_append.mp h with h | h
    · exact Or.inl h
    · exact Or.inr ⟨r.1,r.2,rfl,h⟩

theorem extend_saves {file : DataFile} (h : file ∈ (extend fd_index s).saves) :
    s.transaction_log.first_new_block = -1 ∧ ∃ b, firstFreeBlock s.fat = some b ∧
      file = saveTransactionLogsToDisk { s.transaction_log with first_new_block := blockPtr b } := by
  unfold extend at h
  cases hfirst : firstFreeBlock s.fat with
  | none =>
    rw [hfirst] at h
    dsimp only at h
    cases hback : transactionRollback s with
    | error e =>
      rw [hback] at h
      cases h
    | ok t =>
      rw [hback] at h
      cases h
  | some b =>
    rw [hfirst] at h
    dsimp only at h
    cases hwalked : lastBlock s.fat (NUM_BLOCKS + 1) (s.fd_table fd_index).starting_block with
    | error e =>
      rw [hwalked] at h
      cases h
    | ok last_block =>
      rw [hwalked] at h
      rcases mem_andThen_saves h with h | ⟨_,t,-,h⟩
      · unfold noteFirst at h
        split_ifs at h with hnone
        · exact ⟨hnone,b,rfl,List.mem_singleton.mp h⟩
        · cases h
      · split_ifs at h
        · cases h
        · cases h

theorem extendBy_saves {n : ℕ} {file : DataFile} (h : file ∈ (extendBy fd_index n s).saves) :
    s.transaction_log.first_new_block = -1 ∧ ∃ b, firstFreeBlock s.fat = some b ∧
      file = saveTransactionLogsToDisk { s.transaction_log with first_new_block := blockPtr b } := by
  induction n generalizing s with
  | zero => cases h
  | succ n ih =>
    rcases mem_andThen_saves h with h | ⟨more,t,hextend,h⟩
    · exact extend_saves h
    · rcases extend_cases hextend with ⟨rfl,⟨e⟩⟩ | ⟨rfl,-⟩
      · obtain ⟨hnone,-⟩ := ih h
        have hlog : t.transaction_log = notedLog s.transaction_log e.new_block :=
          congrArg State.transaction_log e.result
        rw [hlog, notedLog] at hnone
        split_ifs at hnone with hfirst
        · exact absurd hnone (blockPtr_ne_free e.new_block)
        · exact absurd hnone hfirst
      · cases h

theorem grow_saves {new_size : ℤ} {file : DataFile} (h : file ∈ (grow file_idx fd_index new_size s).saves) :
    ∃ log, Logged s file_idx fd_index log ∧ file = saveTransactionLogsToDisk log := by
  rcases mem_andThen_saves h with h | ⟨_,t,hstart,h⟩
  · exact ⟨_,⟨rfl,rfl,rfl,Or.inl rfl⟩,List.mem_singleton.mp h⟩
  · cases hstart
    rcases mem_andThen_saves h with h | ⟨enough,u,-,h⟩
    · obtain ⟨-,b,hfirst,rfl⟩ := extendBy_saves h
      exact ⟨_,⟨rfl,rfl,rfl,Or.inr ⟨b,rfl,firstFree_free hfirst⟩⟩,rfl⟩
    · cases h

/-- Everything but the log is on disk as in `s`. -/
structure HoldsFiles (d : Disk) (s : State) : Prop where
  memory : d.memory = some (memoryText s.memory)
  fat : d.fat = some (fatText s.fat)
  file_descriptors : d.file_descriptors = some (descriptorsText s.fd_table)
  file_count : d.file_count = some (countText s.file_count)

theorem HoldsFiles.put (h : HoldsFiles d s) (log : TransactionLog) :
    d.put (saveTransactionLogsToDisk log) = filesOf s.memory s.fat s.fd_table log s.file_count := by
  obtain ⟨hmemory,hfat,hdescriptors,hcount⟩ := h
  cases d
  subst hmemory hfat hdescriptors hcount
  rfl

theorem holdsFiles_filesOf : HoldsFiles (filesOf s.memory s.fat s.fd_table log s.file_count) s := ⟨rfl,rfl,rfl,rfl⟩

theorem HoldsFiles.puts {cut : List DataFile} {P : TransactionLog → Prop} (h : HoldsFiles d s) (hne : cut ≠ [])
    (hcut : ∀ file ∈ cut, ∃ log, P log ∧ file = saveTransactionLogsToDisk log) :
    ∃ log, P log ∧ d.puts cut = filesOf s.memory s.fat s.fd_table log s.file_count := by
  induction cut generalizing d with
  | nil => exact absurd rfl hne
  | cons file cut ih =>
    obtain ⟨log,hlog,rfl⟩ := hcut file (by simp)
    have hput : d.puts (saveTransactionLogsToDisk log :: cut) =
        Disk.puts (filesOf s.memory s.fat s.fd_table log s.file_count) cut :=
      congrArg (fun d => Disk.puts d cut) (h.put log)
    rw [hput]
    cases cut with
    | nil => exact ⟨log,hlog,rfl⟩
    | cons file' cut =>
      exact ih holdsFiles_filesOf (List.cons_ne_nil file' cut) fun f hf => hcut f (List.mem_cons_of_mem _ hf)

/-- The process has died when it had saved the log and nothing else yet. -/
structure DiedGrowing (cut saves : List DataFile) : Prop where
  begun : cut ≠ []
  part : cut <+: saves
  logs : ∀ file ∈ cut, ∃ text, file = .transaction_log text

theorem writeAt_saves {k : Fin NUM_OPENED_FILES} {start : Int16} :
    (writeAt k start buffer size s).saves = [] ∨ ∃ t, (writeAt k start buffer size s).saves = saveToDisk t := by
  unfold writeAt
  dsimp only
  cases seekInChain s.fat (blocksBefore (s.open_file_fd_table k).offset.toInt) start with
  | error e => exact Or.inl rfl
  | ok found =>
    cases found with
    | none => exact Or.inl rfl
    | some block_idx =>
      dsimp only [proceed]
      cases writeLoop s.fat buffer size.toInt.toNat s.memory 0 block_idx
          (offsetInBlock (s.open_file_fd_table k).offset.toInt) size.toInt.toNat with
      | error e => exact Or.inl rfl
      | ok memory => exact Or.inr ⟨_,rfl⟩

theorem Writing.saves_eq (w : Writing name s) (hgrows : w.file.size.toInt < w.new_size size) :
    (write name buffer size s).saves = (grow w.file_idx w.fd_index (w.new_size size) s).saves ∨
      ∃ t, (write name buffer size s).saves =
        (grow w.file_idx w.fd_index (w.new_size size) s).saves ++ saveToDisk t := by
  rw [w.write_eq, if_pos hgrows]
  cases hresult : (grow w.file_idx w.fd_index (w.new_size size) s).result with
  | error e =>
    rw [Outcome.andThen, hresult]
    exact Or.inl rfl
  | ok r =>
    obtain ⟨enough,t⟩ := r
    rw [andThen_saves hresult]
    cases enough with
    | false => exact Or.inl (List.append_nil _)
    | true =>
      rcases @writeAt_saves t buffer size w.k w.file.starting_block with hsaves | ⟨u,hsaves⟩
      · rw [if_pos rfl, hsaves]
        exact Or.inl (List.append_nil _)
      · rw [if_pos rfl, hsaves]
        exact Or.inr ⟨u,rfl⟩

theorem DiedGrowing.in_grow {cut : List DataFile} (w : Writing name s) (hgrows : w.file.size.toInt < w.new_size size)
    (h : DiedGrowing cut (write name buffer size s).saves) :
    cut <+: (grow w.file_idx w.fd_index (w.new_size size) s).saves := by
  rcases w.saves_eq hgrows with hsaves | ⟨t,hsaves⟩
  · rw [← hsaves]
    exact h.part
  · have hpart := h.part
    rw [hsaves] at hpart
    rcases List.prefix_or_prefix_of_prefix hpart (List.prefix_append _ _) with hcut | ⟨rest,rfl⟩
    · exact hcut
    · rw [List.prefix_append_right_inj] at hpart
      cases rest with
      | nil => rw [List.append_nil]
      | cons file rest =>
        obtain ⟨text,hfile⟩ := h.logs file (by simp)
        have hmemory := (List.cons_prefix_cons.mp hpart).1
        rw [hfile] at hmemory
        cases hmemory

theorem DiedGrowing.disk {cut : List DataFile} (w : Writing name s)
    (hgrows : w.file.size.toInt < w.new_size size) (h : DiedGrowing cut (write name buffer size s).saves)
    (hd : HoldsFiles d s) : ∃ log, Logged s w.file_idx w.fd_index log ∧
      d.puts cut = filesOf s.memory s.fat s.fd_table log s.file_count :=
  hd.puts h.begun fun _ hfile => grow_saves ((h.in_grow w hgrows).subset hfile)

/-- When a write that needs a longer file is interrupted before its last step, the
restart gives back the saved files exactly if the log describes the file rightly and
the table can be read back. -/
theorem write_recovers_iff (w : Writing name s) (hgrows : w.file.size.toInt < w.new_size size) (hd : HoldsFiles d s)
    {cut : List DataFile} (hcut : DiedGrowing cut (write name buffer size s).saves) (raw : State) :
    Recovers raw (d.puts cut) s ↔ Plain s.fd_table ∧ RollbackFits s w.file_idx w.fd_index := by
  obtain ⟨log,hlog,hdisk⟩ := hcut.disk w hgrows hd
  rw [hdisk]
  exact recovers_logged hlog (find_live w.found).1

theorem Writing.died (w : Writing name s) (hgrows : w.file.size.toInt < w.new_size size) :
    DiedGrowing (grow w.file_idx w.fd_index (w.new_size size) s).saves (write name buffer size s).saves := by
  refine ⟨?_,?_,fun file hfile => ?_⟩
  · exact List.cons_ne_nil _ _
  · rcases @Writing.saves_eq s name buffer size w hgrows with hsaves | ⟨t,hsaves⟩
    · rw [hsaves]
    · rw [hsaves]
      exact List.prefix_append _ _
  · obtain ⟨log,-,rfl⟩ := grow_saves hfile
    exact ⟨_,rfl⟩

/-- A file whose single block is the first one, full, is recovered. -/
theorem full_block_recovers : ∃ s, run (step none) (emptyFileSystem false) [.create ['a'] 32,.open_ ['a']] = some s ∧
    ∃ cut, DiedGrowing cut (write ['a'] (fun _ => 7) 40 s).saves ∧ ∀ raw, Recovers raw ((diskOf s).puts cut) s := by
  have hruns : ((run (step none) (emptyFileSystem false) [.create ['a'] 32,.open_ ['a']]).any fun s =>
      findFileIndexByName s ['a'] = some 0 && (s.open_file_fd_table 0).idx = 0 &&
        (s.open_file_fd_table 0).offset = 0 && s.fd_table 0 = ⟨['a'],blockPtr ⟨0,by decide⟩,32⟩ &&
        s.fat ⟨0,by decide⟩ = END_OF_CHAIN) = true := by decide
  obtain ⟨s,hrun,hs⟩ := (Option.any_eq_true _ _).mp hruns
  simp only [Bool.and_eq_true, decide_eq_true_eq] at hs
  obtain ⟨⟨⟨⟨hfound,hidx⟩,hoffset⟩,hfile⟩,hfat⟩ := hs
  have hplain : Plain s.fd_table := run_plain (fun _ => List.not_mem_nil) (by decide) hrun
  let w : Writing ['a'] s := ⟨0,0,0,hfound,rfl,by rw [hidx]; decide,by rw [hidx]; rfl⟩
  have hgrows : w.file.size.toInt < w.new_size 40 := by
    show (s.fd_table 0).size.toInt < (s.open_file_fd_table 0).offset.toInt + (40 : Int16).toInt
    rw [hfile, hoffset]
    decide
  have hfits : RollbackFits s 0 0 := Or.inr ⟨⟨0,by decide⟩,by rw [hfile],hfat,by rw [hfile]; rfl⟩
  have hdied : DiedGrowing _ (write ['a'] (fun _ => 7) 40 s).saves := w.died hgrows
  exact ⟨s,hrun,_,hdied,fun raw =>
    (write_recovers_iff w hgrows holdsFiles_filesOf hdied raw).mpr ⟨hplain,hfits⟩⟩

/-- The size of an empty file is not recovered: the rollback sets it to a full block. -/
theorem empty_file_not_recovered : ∃ s, run (step none) (emptyFileSystem false) [.create ['a'] 0,.open_ ['a']] = some s ∧
    (∃ chain, Chained s chain) ∧ ∃ cut, DiedGrowing cut (write ['a'] (fun _ => 7) 1 s).saves ∧
      ∀ raw, ¬ Recovers raw ((diskOf s).puts cut) s := by
  have hruns : ((run (step none) (emptyFileSystem false) [.create ['a'] 0,.open_ ['a']]).any fun s =>
      findFileIndexByName s ['a'] = some 0 && (s.open_file_fd_table 0).idx = 0 &&
        (s.open_file_fd_table 0).offset = 0 && s.fd_table 0 = ⟨['a'],blockPtr ⟨0,by decide⟩,0⟩) = true := by decide
  obtain ⟨s,hrun,hs⟩ := (Option.any_eq_true _ _).mp hruns
  simp only [Bool.and_eq_true, decide_eq_true_eq] at hs
  obtain ⟨⟨⟨hfound,hidx⟩,hoffset⟩,hfile⟩ := hs
  let w : Writing ['a'] s := ⟨0,0,0,hfound,rfl,by rw [hidx]; decide,by rw [hidx]; rfl⟩
  have hgrows : w.file.size.toInt < w.new_size 1 := by
    show (s.fd_table 0).size.toInt < (s.open_file_fd_table 0).offset.toInt + (1 : Int16).toInt
    rw [hfile, hoffset]
    decide
  have hdied : DiedGrowing _ (write ['a'] (fun _ => 7) 1 s).saves := w.died hgrows
  have hholds : HoldsFiles (diskOf s) s := holdsFiles_filesOf
  obtain ⟨log,hlog,hdisk⟩ := hdied.disk w hgrows hholds
  refine ⟨s,hrun,chained_run (by decide +kernel) hrun,_,hdied,fun raw hrecovers => ?_⟩
  rw [hdisk, recovers_logged hlog (find_live w.found).1] at hrecovers
  rcases hrecovers.2 with hstart | ⟨b,-,-,hsize⟩
  · have hfree : (s.fd_table 0).starting_block = -1 := hstart
    rw [hfile] at hfree
    cases hfree
  · have hzero : (s.fd_table 0).size.toInt = (b + 1) * BLOCK_SIZE := hsize
    rw [hfile, show (0 : Int16).toInt = 0 from rfl] at hzero
    push_cast at hzero
    omega

end SOI.FileSystem

import SOI.FileSystem.NewlineNames
import SOI.FileSystem.Recovery

/-! # Dying while everything is being saved

`create` and `delete_` clear the mark of a transaction in progress before they save
anything, so a mixture of old and new files is taken as it is.
-/
namespace SOI.FileSystem
open Linked Runs Texts
variable {s s' raw : State} {past : Option FileDescriptor} {d : Disk} {log : TransactionLog} {name : Text} {size : Int16}
  {chain : Fin NUM_FILES → List Block} {fat : Block → Int16} {fd_table : Fin NUM_FILES → FileDescriptor} {k : ℕ}

/-- All files are on disk as in `s`, and no transaction is in progress there. -/
def SavedOn (d : Disk) (s : State) : Prop :=
  ∃ log : TransactionLog, log.in_progress = false ∧ d = filesOf s.memory s.fat s.fd_table log s.file_count

/-- As after a start without readable files. -/
def Blank (s : State) : Prop := SameFiles s s.reset

/-- Starting from the disk gives the files from before the call or from after it. -/
def BeforeOrAfter (raw : State) (d : Disk) (s s' : State) : Prop := Recovers raw d s ∨ Recovers raw d s'

theorem Blank.plain (h : Blank s) : Plain s.fd_table := by
  intro i
  rw [← congrFun h.fd_table i]
  exact List.not_mem_nil

theorem restore_own {fd_table' : Fin NUM_FILES → FileDescriptor} :
    restoreDescriptors fd_table' (lines (descriptorsText fd_table)) = .ok fd_table ↔ Plain fd_table :=
  ⟨restored_plain,fun h => restore_descriptors h fd_table'⟩

/-- Starting from files that no transaction has left. -/
theorem recovers_idle {memory : Fin MEMORY_SIZE → Int8} {file_count : Int16} (hlog : log.in_progress = false) :
    Recovers raw (filesOf memory fat fd_table log file_count) s ↔
      (restoreDescriptors raw.fd_table (lines (descriptorsText fd_table)) = .ok s.fd_table ∧ memory = s.memory ∧
        fat = s.fat ∧ file_count = s.file_count) ∨ (Unreadable fd_table ∧ Blank s) := by
  have hrestore := restore_files raw memory fat fd_table log file_count
  by_cases hbad : Unreadable fd_table
  · obtain ⟨e,he⟩ := restore_unreadable hbad raw.fd_table
    rw [he] at hrestore
    have hstart : construct raw (filesOf memory fat fd_table log file_count) = saved () raw.reset.closed := by
      rw [construct, hrestore]
      rfl
    rw [he]
    constructor
    · rintro ⟨t,ht,hsame⟩
      obtain rfl := saved_injective (hstart.symm.trans ht)
      exact Or.inr ⟨hbad,hsame.memory,hsame.fat,hsame.fd_table,hsame.file_count⟩
    · rintro (⟨himpossible,-⟩ | ⟨-,hblank⟩)
      · cases himpossible
      · exact ⟨_,hstart,hblank.memory,hblank.fat,hblank.fd_table,hblank.file_count⟩
  · obtain ⟨t,ht⟩ := restore_readable hbad raw.fd_table
    rw [ht] at hrestore
    have hidle : Idle (raw.restored memory fat t log file_count) := hlog
    have hstart := construct_ok hrestore (repair_idle hidle)
    rw [ht]
    constructor
    · rintro ⟨u,hu,hsame⟩
      obtain rfl := saved_injective (hstart.symm.trans hu)
      exact Or.inl ⟨congrArg Except.ok hsame.fd_table,hsame.memory,hsame.fat,hsame.file_count⟩
    · rintro (⟨htable,rfl,rfl,rfl⟩ | ⟨h,-⟩)
      · exact ⟨_,hstart,rfl,rfl,Except.ok.inj htable,rfl⟩
      · exact absurd h hbad

/-- The old memory and file count with some FAT and some descriptors. -/
theorem mixture_iff (hlog : log.in_progress = false) (hcount : s'.file_count ≠ s.file_count) :
    BeforeOrAfter raw (filesOf s.memory fat fd_table log s.file_count) s s' ↔
      (restoreDescriptors raw.fd_table (lines (descriptorsText fd_table)) = .ok s.fd_table ∧ fat = s.fat) ∨
        (Unreadable fd_table ∧ (Blank s ∨ Blank s')) := by
  rw [BeforeOrAfter, recovers_idle hlog, recovers_idle hlog]
  constructor
  · rintro ((⟨htable,-,hfat,-⟩ | ⟨hbad,hblank⟩) | (⟨-,-,-,heq⟩ | ⟨hbad,hblank⟩))
    · exact Or.inl ⟨htable,hfat⟩
    · exact Or.inr ⟨hbad,Or.inl hblank⟩
    · exact absurd heq.symm hcount
    · exact Or.inr ⟨hbad,Or.inr hblank⟩
  · rintro (⟨htable,hfat⟩ | ⟨hbad,hblank | hblank⟩)
    · exact Or.inl (Or.inl ⟨htable,rfl,hfat,rfl⟩)
    · exact Or.inl (Or.inr ⟨hbad,hblank⟩)
    · exact Or.inr (Or.inr ⟨hbad,hblank⟩)

theorem cut_memory (hd : SavedOn d s) (hmemory : s'.memory = s.memory) (hcount : s'.file_count ≠ s.file_count)
    (hk : k ≤ 1) : BeforeOrAfter raw (d.puts ((saveToDisk s').take k)) s s' ↔
    Plain s.fd_table ∨ (Unreadable s.fd_table ∧ Blank s') := by
  obtain ⟨log,hlog,rfl⟩ := hd
  have hdisk : Disk.puts (filesOf s.memory s.fat s.fd_table log s.file_count) ((saveToDisk s').take k) =
      filesOf s.memory s.fat s.fd_table log s.file_count := by
    obtain rfl | rfl : k = 0 ∨ k = 1 := by omega
    · rfl
    · rw [← hmemory]
      rfl
  rw [hdisk, mixture_iff hlog hcount, restore_own]
  constructor
  · rintro (⟨hplain,-⟩ | ⟨hbad,hblank | hblank⟩)
    · exact Or.inl hplain
    · exact Or.inl hblank.plain
    · exact Or.inr ⟨hbad,hblank⟩
  · rintro (hplain | ⟨hbad,hblank⟩)
    · exact Or.inl ⟨hplain,rfl⟩
    · exact Or.inr ⟨hbad,Or.inr hblank⟩

theorem cut_fat (hd : SavedOn d s) (hmemory : s'.memory = s.memory) (hcount : s'.file_count ≠ s.file_count) :
    BeforeOrAfter raw (d.puts ((saveToDisk s').take 2)) s s' ↔
    (Plain s.fd_table ∧ s'.fat = s.fat) ∨ (Unreadable s.fd_table ∧ Blank s') := by
  obtain ⟨log,hlog,rfl⟩ := hd
  have hdisk : Disk.puts (filesOf s.memory s.fat s.fd_table log s.file_count) ((saveToDisk s').take 2) =
      filesOf s.memory s'.fat s.fd_table log s.file_count := by
    rw [← hmemory]
    rfl
  rw [hdisk, mixture_iff hlog hcount, restore_own]
  refine or_congr_right (and_congr_right fun hbad => ⟨?_,Or.inr⟩)
  rintro (hblank | hblank)
  · exact absurd hbad hblank.plain.readable
  · exact hblank

theorem cut_descriptors (hd : SavedOn d s) (hmemory : s'.memory = s.memory) (hidle : Idle s')
    (hcount : s'.file_count ≠ s.file_count) (hk : k = 3 ∨ k = 4) : BeforeOrAfter raw (d.puts ((saveToDisk s').take k)) s s' ↔
    (restoreDescriptors raw.fd_table (lines (descriptorsText s'.fd_table)) = .ok s.fd_table ∧ s'.fat = s.fat) ∨
      (Unreadable s'.fd_table ∧ Blank s) := by
  obtain ⟨log,hlog,rfl⟩ := hd
  have hdisk : ∃ log' : TransactionLog, log'.in_progress = false ∧
      Disk.puts (filesOf s.memory s.fat s.fd_table log s.file_count) ((saveToDisk s').take k) =
        filesOf s.memory s'.fat s'.fd_table log' s.file_count := by
    rw [← hmemory]
    rcases hk with rfl | rfl
    · exact ⟨log,hlog,rfl⟩
    · exact ⟨s'.transaction_log,hidle,rfl⟩
  obtain ⟨log',hlog',hdisk⟩ := hdisk
  rw [hdisk, mixture_iff hlog' hcount]
  refine or_congr_right (and_congr_right fun hbad => ⟨?_,Or.inl⟩)
  rintro (hblank | hblank)
  · exact hblank
  · exact absurd hbad hblank.plain.readable

theorem cut_nothing (hidle : Idle s') (hcount : s'.file_count ≠ s.file_count) (hk : 5 ≤ k) :
    BeforeOrAfter raw (d.puts ((saveToDisk s').take k)) s s' ↔
    Plain s'.fd_table ∨ (Unreadable s'.fd_table ∧ Blank s) := by
  have hdisk : d.puts ((saveToDisk s').take k) = filesOf s'.memory s'.fat s'.fd_table s'.transaction_log s'.file_count := by
    rw [List.take_of_length_le (by simpa [saveToDisk] using hk)]
    rfl
  rw [hdisk, BeforeOrAfter, recovers_idle hidle, recovers_idle hidle, restore_own]
  constructor
  · rintro ((⟨-,-,-,heq⟩ | h) | (⟨hplain,-⟩ | ⟨hbad,hblank⟩))
    · exact absurd heq hcount
    · exact Or.inr h
    · exact Or.inl hplain
    · exact absurd hbad hblank.plain.readable
  · rintro (hplain | h)
    · exact Or.inr (Or.inl ⟨hplain,rfl,rfl,rfl⟩)
    · exact Or.inl (Or.inr h)

structure HasChains (s : State) (chain : Fin NUM_FILES → List Block) : Prop where
  seg : ∀ i, Live s i → Chain s.fat (s.fd_table i).starting_block (chain i)
  nonempty : ∀ i, Live s i → chain i ≠ []
  vacant : ∀ i, ¬ Live s i → (s.fd_table i).starting_block = -1

theorem Chained.hasChains (h : Chained s chain) : HasChains s chain := ⟨h.seg,h.nonempty,h.vacant⟩

theorem HasChains.start (h : HasChains s chain) {i : Fin NUM_FILES} (hi : Live s i) :
    (s.fd_table i).starting_block ≠ -1 := by
  have hseg := h.seg i hi
  cases hchain : chain i with
  | nil => exact absurd hchain (h.nonempty i hi)
  | cons b bs =>
    rw [hchain] at hseg
    rw [hseg.cons_ptr]
    exact blockPtr_ne_free b

/-- In every run the entries that are not in use start nowhere. -/
theorem vacant_run {flag : Bool} {calls : List Call} (hrun : run (step past) (emptyFileSystem flag) calls = some s) :
    0 ≤ s.file_count.toInt ∧ ∀ i, ¬ Live s i → (s.fd_table i).starting_block = -1 := by
  have hstep : ∀ t call u, (0 ≤ t.file_count.toInt ∧ ∀ i, ¬ Live t i → (t.fd_table i).starting_block = -1) →
      step past t call = some u → 0 ≤ u.file_count.toInt ∧ ∀ i, ¬ Live u i → (u.fd_table i).starting_block = -1 := by
    rintro t call u ⟨hcount,hvacant⟩ hcall
    obtain ⟨r,hr⟩ := step_ok hcall
    rcases perform_entries hr with ⟨name,size,-,⟨c⟩⟩ | ⟨name,-,⟨c⟩⟩ | ⟨hsame,-,hstart⟩
    · refine ⟨by rw [c.count_eq]; omega,fun i hi => ?_⟩
      rw [c.live_iff, not_or] at hi
      rw [c.entry_of_ne hi.1]
      exact hvacant i hi.2
    · have hpos := c.count_pos
      refine ⟨by rw [c.count_eq]; omega,fun i hi => ?_⟩
      rw [c.live_iff] at hi
      rcases c.entry i with ⟨-,hlt,-⟩ | ⟨-,heq⟩ | ⟨hlt,heq⟩
      · exact absurd hlt hi
      · rw [heq]
        rfl
      · have hlast := c.last_eq
        have hval : (c.last : ℕ) < i := hlt
        rw [heq]
        refine hvacant i fun hl => ?_
        unfold Live at hl
        omega
    · refine ⟨by rwa [hsame],fun i hi => ?_⟩
      rw [hstart]
      refine hvacant i fun hl => hi ?_
      rwa [Live, hsame]
  exact run_invariant hstep ⟨le_rfl,fun _ _ => rfl⟩ hrun

def PlainBut (s : State) (n : ℤ) : Prop := ∀ i : Fin NUM_FILES, (i : ℤ) ≠ n → '\n' ∉ (s.fd_table i).name

/-- Dying behind `k` files is harmless for `create`. -/
def CreateSafe (name : Text) (size : Int16) (s : State) (k : ℕ) : Prop :=
  (k ≤ 1 ∧ Plain s.fd_table) ∨ (k = 2 ∧ Plain s.fd_table ∧ size.toInt < 0) ∨
    (3 ≤ k ∧ UnreadableName name ∧ Blank s) ∨ (5 ≤ k ∧ '\n' ∉ name ∧ PlainBut s s.file_count.toInt)

theorem Created.count_ne (c : Created name size s s') : s'.file_count ≠ s.file_count := by
  intro heq
  have hcount := c.count_eq
  rw [heq] at hcount
  omega

theorem Created.not_blank (c : Created name size s s') : ¬ Blank s' := by
  intro hblank
  have hcount := c.count_eq
  have hzero : 0 = s'.file_count := hblank.file_count
  have hnonneg := c.count_nonneg
  rw [← hzero, show (0 : Int16).toInt = 0 from rfl] at hcount
  omega

theorem Created.fat_eq_iff (c : Created name size s s') : s'.fat = s.fat ↔ size.toInt < 0 := by
  have hfat : s'.fat = c.fat := congrArg State.fat c.result
  have hmarked := c.marked
  constructor
  · intro heq
    by_contra hsize
    obtain ⟨xs,hchain,-,hfree,-⟩ := markNewFile_chain (firstFree_free c.first) (not_lt.mp hsize) hmarked
    have hused := Chain.used hchain (List.mem_cons_self (a := c.starting_block) (l := xs))
    rw [← hfat, heq] at hused
    exact hused (firstFree_free c.first)
  · intro hsize
    have hblocks : (blocksFor size.toInt).toNat = 0 := by
      have hdiv : blocksFor size.toInt ≤ (31 : ℤ).tdiv 32 := Int.tdiv_le_tdiv (by decide) (by push_cast; omega)
      exact Int.toNat_of_nonpos hdiv
    have hzero : size ≠ 0 := by
      rintro rfl
      exact absurd hsize (by decide)
    rw [markNewFile, hblocks, if_neg hzero] at hmarked
    rw [hfat]
    exact (congrArg Prod.fst (Except.ok.inj hmarked)).symm

theorem Created.not_restored (c : Created name size s s') (h : HasChains s chain)
    {fd_table' : Fin NUM_FILES → FileDescriptor} :
    restoreDescriptors fd_table' (lines (descriptorsText s'.fd_table)) ≠ .ok s.fd_table := by
  intro hrestore
  have hplain := restored_plain hrestore
  have hlive : ∀ j : Fin NUM_FILES, j < c.i → Live s j := fun j hj => by
    have hi := c.index_eq
    unfold Live
    omega
  refine restored_start (fun j hj => ?_) (fun j hj => ?_) ?_ hrestore (h.vacant c.i c.not_live)
  · rw [c.entry_of_ne (ne_of_lt hj)]
    exact hplain j
  · rcases eq_or_lt_of_le hj with rfl | hj
    · rw [c.entry_self]
      exact blockPtr_ne_free c.starting_block
    · rw [c.entry_of_ne (ne_of_lt hj)]
      exact h.start (hlive j hj)
  · rw [c.entry_self]
    exact c.name_fits.2

theorem Created.plain_iff (c : Created name size s s') :
    Plain s'.fd_table ↔ '\n' ∉ name ∧ PlainBut s s.file_count.toInt := by
  constructor
  · intro hplain
    refine ⟨?_,fun i hi => ?_⟩
    · have hname := hplain c.i
      rwa [c.entry_self] at hname
    · have hne : i ≠ c.i := by
        rintro rfl
        exact hi c.index_eq
      rw [← c.entry_of_ne hne]
      exact hplain i
  · rintro ⟨hname,hplain⟩ i
    by_cases hi : i = c.i
    · rw [hi, c.entry_self]
      exact hname
    · rw [c.entry_of_ne hi]
      refine hplain i fun heq => hi (Fin.ext ?_)
      have hindex := c.index_eq
      omega

theorem Created.unreadable_iff (c : Created name size s s') (hblank : Blank s) :
    Unreadable s'.fd_table ↔ UnreadableName name := by
  constructor
  · rintro ⟨i,hi⟩
    by_cases hic : i = c.i
    · rwa [hic, c.entry_self] at hi
    · rw [c.entry_of_ne hic] at hi
      exact absurd hi (name_readable (hblank.plain i))
  · intro hname
    exact ⟨c.i,by rwa [c.entry_self]⟩

theorem create_atomic_iff (hd : SavedOn d s) (h : HasChains s chain) (c : Created name size s s') :
    BeforeOrAfter raw (d.puts ((create name size s).saves.take k)) s s' ↔ CreateSafe name size s k := by
  have hmemory : s'.memory = s.memory := by rw [c.result]; rfl
  have hidle : Idle s' := by
    rw [c.result]
    rfl
  have hlast : (Unreadable s'.fd_table ∧ Blank s) ↔ (UnreadableName name ∧ Blank s) :=
    and_congr_left c.unreadable_iff
  rw [show (create name size s).saves = saveToDisk s' by rw [c.create_eq]; rfl, CreateSafe]
  obtain hk | rfl | hk | hk : k ≤ 1 ∨ k = 2 ∨ (k = 3 ∨ k = 4) ∨ 5 ≤ k := by omega
  · rw [cut_memory hd hmemory c.count_ne hk]
    simp only [c.not_blank, and_false, or_false, hk, true_and, show ¬ k = 2 by omega, show ¬ 3 ≤ k by omega,
      show ¬ 5 ≤ k by omega, false_and]
  · rw [cut_fat hd hmemory c.count_ne, c.fat_eq_iff]
    simp [c.not_blank]
  · rw [cut_descriptors hd hmemory hidle c.count_ne hk, hlast]
    simp only [c.not_restored h, false_and, false_or, show ¬ k ≤ 1 by omega, show ¬ k = 2 by omega,
      show 3 ≤ k by omega, show ¬ 5 ≤ k by omega, true_and, or_false]
  · rw [cut_nothing hidle c.count_ne hk, hlast, c.plain_iff, or_comm]
    simp only [show ¬ k ≤ 1 by omega, show ¬ k = 2 by omega, show 3 ≤ k by omega, hk, true_and, false_and, false_or]

/-- The file is the only one there is, the other entries are empty, and no block but
its own is used; the memory is as after a start without readable files. -/
structure OnlyFile (s : State) (chain : Fin NUM_FILES → List Block) : Prop where
  memory : s.memory = fun _ => 0
  file_count : s.file_count = 1
  others : ∀ i : Fin NUM_FILES, i ≠ 0 → s.fd_table i = emptyFileDescriptor
  blocks : ∀ b ∉ chain 0, s.fat b = FREE_BLOCK

/-- Dying behind `k` files is harmless for `delete_`. -/
def DeleteSafe (s : State) (chain : Fin NUM_FILES → List Block) (k : ℕ) : Prop :=
  (k ≤ 1 ∧ Plain s.fd_table) ∨ (k ≤ 2 ∧ UnreadableName (s.fd_table 0).name ∧ OnlyFile s chain) ∨
    (5 ≤ k ∧ PlainBut s 0)

theorem Deleted.count_ne (c : Deleted past name s s') : s'.file_count ≠ s.file_count := by
  intro heq
  have hcount := c.count_eq
  rw [heq] at hcount
  omega

theorem Deleted.not_blank (c : Deleted past name s s') : ¬ Blank s := by
  intro hblank
  have hpos := c.count_pos
  have hzero : 0 = s.file_count := hblank.file_count
  rw [← hzero] at hpos
  exact absurd hpos (by decide)

theorem Deleted.fat_ne (c : Deleted past name s s') (h : HasChains s chain) : s'.fat ≠ s.fat := by
  intro heq
  have hlive := (find_live c.found).1
  have hseg := h.seg _ hlive
  have hfat := c.fat_eq hseg
  cases hchain : chain c.file_idx with
  | nil => exact h.nonempty _ hlive hchain
  | cons b bs =>
    have hb : b ∈ chain c.file_idx := by rw [hchain]; simp
    have hfree := hfat b
    rw [if_pos hb, heq] at hfree
    exact Chain.used hseg hb hfree

theorem Deleted.plain_iff (c : Deleted past name s s') : Plain s'.fd_table ↔ PlainBut s 0 := by
  constructor
  · intro hplain i hi
    rcases lt_or_ge c.last i with hlast | hlast
    · rcases c.entry i with ⟨-,hlt,-⟩ | ⟨rfl,-⟩ | ⟨-,heq⟩
      · exact absurd hlast (lt_asymm hlt)
      · exact absurd hlast (lt_irrefl _)
      · rw [← heq]
        exact hplain i
    · have hlt := i.isLt
      have hle : (i : ℕ) ≤ c.last := hlast
      let j : Fin NUM_FILES := ⟨i - 1,by omega⟩
      have hj : (j : ℕ) + 1 = i := by
        show (i : ℕ) - 1 + 1 = i
        omega
      rcases c.entry j with ⟨hnext,-,heq⟩ | ⟨heq,-⟩ | ⟨hlt,-⟩
      · rw [show i = ⟨j + 1,hnext⟩ from Fin.ext hj.symm, ← heq]
        exact hplain j
      · have hval := congrArg Fin.val heq
        omega
      · have hval : (c.last : ℕ) < j := hlt
        omega
  · intro hplain i
    rcases c.entry i with ⟨hi,-,heq⟩ | ⟨-,heq⟩ | ⟨hlt,heq⟩
    · rw [heq]
      exact hplain _ (by simp only; omega)
    · rw [heq]
      exact List.not_mem_nil
    · have hval : (c.last : ℕ) < i := hlt
      rw [heq]
      exact hplain i (by omega)

theorem Deleted.blank_iff (c : Deleted past name s s') (h : HasChains s chain) : Blank s' ↔ OnlyFile s chain := by
  have hlive := (find_live c.found).1
  have hfat := c.fat_eq (h.seg _ hlive)
  have hcount := c.count_eq
  have hlast := c.last_eq
  have hmemory : s'.memory = s.memory := by rw [c.result]; rfl
  have hzero : s.file_count = 1 → c.file_idx = 0 := fun hone => by
    rw [Live, hone, show (1 : Int16).toInt = 1 from rfl] at hlive
    exact Fin.ext (by simp only [Fin.val_zero]; omega)
  have hone : s'.file_count = 0 ↔ s.file_count = 1 := by
    rw [← Int16.toInt_inj, ← Int16.toInt_inj, hcount, show (0 : Int16).toInt = 0 from rfl,
      show (1 : Int16).toInt = 1 from rfl]
    omega
  have hentry : s.file_count = 1 → ∀ i : Fin NUM_FILES,
      (i = 0 ∧ s'.fd_table i = emptyFileDescriptor) ∨ (i ≠ 0 ∧ s'.fd_table i = s.fd_table i) := fun hone i => by
    rw [hone, show (1 : Int16).toInt = 1 from rfl] at hlast
    have hlast₀ : c.last = 0 := Fin.ext (by simp only [Fin.val_zero]; omega)
    rcases c.entry i with ⟨-,hlt,-⟩ | ⟨heq,hempty⟩ | ⟨hlt,hsame⟩
    · rw [hlast₀] at hlt
      exact absurd hlt (Fin.not_lt_zero i)
    · exact Or.inl ⟨heq.trans hlast₀,hempty⟩
    · rw [hlast₀] at hlt
      exact Or.inr ⟨Fin.pos_iff_ne_zero.mp hlt,hsame⟩
  constructor
  · intro hblank
    have hfirst := hone.mp hblank.file_count.symm
    refine ⟨hmemory.symm.trans hblank.memory.symm,hfirst,fun i hi => ?_,fun b hb => ?_⟩
    · rcases hentry hfirst i with ⟨heq,-⟩ | ⟨-,hsame⟩
      · exact absurd heq hi
      · rw [← hsame]
        exact (congrFun hblank.fd_table i).symm
    · have hfree := hfat b
      rw [hzero hfirst, if_neg hb] at hfree
      rw [← hfree]
      exact (congrFun hblank.fat b).symm
  · intro honly
    refine ⟨(hmemory.trans honly.memory).symm,funext fun b => ?_,funext fun i => ?_,(hone.mpr honly.file_count).symm⟩
    · show FREE_BLOCK = s'.fat b
      rw [hfat b, hzero honly.file_count]
      split_ifs with hb
      · rfl
      · exact (honly.blocks b hb).symm
    · show emptyFileDescriptor = s'.fd_table i
      rcases hentry honly.file_count i with ⟨-,hempty⟩ | ⟨hi,hsame⟩
      · exact hempty.symm
      · rw [hsame, honly.others i hi]

theorem OnlyFile.unreadable_iff (h : OnlyFile s chain) :
    Unreadable s.fd_table ↔ UnreadableName (s.fd_table 0).name := by
  constructor
  · rintro ⟨i,hi⟩
    by_cases hzero : i = 0
    · rwa [hzero] at hi
    · rw [h.others i hzero] at hi
      exact absurd hi (name_readable List.not_mem_nil)
  · exact fun hname => ⟨0,hname⟩

theorem delete_atomic_iff (hd : SavedOn d s) (h : HasChains s chain) (c : Deleted past name s s') :
    BeforeOrAfter raw (d.puts ((delete_ past name s).saves.take k)) s s' ↔ DeleteSafe s chain k := by
  have hmemory : s'.memory = s.memory := by rw [c.result]; rfl
  have hidle : Idle s' := by
    rw [c.result]
    rfl
  have honly : (Unreadable s.fd_table ∧ Blank s') ↔ (UnreadableName (s.fd_table 0).name ∧ OnlyFile s chain) := by
    rw [c.blank_iff h]
    exact and_congr_left fun honly => honly.unreadable_iff
  rw [show (delete_ past name s).saves = saveToDisk s' by rw [c.delete_eq]; rfl, DeleteSafe]
  obtain hk | rfl | hk | hk : k ≤ 1 ∨ k = 2 ∨ (k = 3 ∨ k = 4) ∨ 5 ≤ k := by omega
  · rw [cut_memory hd hmemory c.count_ne hk, honly]
    simp only [hk, show k ≤ 2 by omega, show ¬ 5 ≤ k by omega, true_and, false_and, or_false]
  · rw [cut_fat hd hmemory c.count_ne, honly]
    simp [c.fat_ne h]
  · rw [cut_descriptors hd hmemory hidle c.count_ne hk]
    simp only [c.fat_ne h, c.not_blank, and_false, or_false, show ¬ k ≤ 1 by omega, show ¬ k ≤ 2 by omega,
      show ¬ 5 ≤ k by omega, false_and]
  · rw [cut_nothing hidle c.count_ne hk, c.plain_iff]
    simp only [c.not_blank, and_false, or_false, show ¬ k ≤ 1 by omega, show ¬ k ≤ 2 by omega, hk, true_and,
      false_and, false_or]

/-- Whether starting again, after dying behind the first `k` files, gives the files from
before or after a successful call. -/
theorem saving_atomic_iff (hd : SavedOn d s) (h : HasChains s chain) (raw : State) (k : ℕ) :
    (∀ name size s', (create name size s).result = .ok (.FILE_CREATE_SUCCESS,s') →
      (BeforeOrAfter raw (d.puts ((create name size s).saves.take k)) s s' ↔ CreateSafe name size s k)) ∧
    ∀ past name s', (delete_ past name s).result = .ok (.FILE_DELETE_SUCCESS,s') →
      (BeforeOrAfter raw (d.puts ((delete_ past name s).saves.take k)) s s' ↔ DeleteSafe s chain k) := by
  constructor
  · intro name size s' hresult
    rcases create_cases hresult with ⟨hst,-⟩ | ⟨-,⟨c⟩⟩
    · exact absurd rfl hst
    · exact create_atomic_iff hd h c
  · intro past name s' hresult
    rcases delete_cases hresult with ⟨hst,-⟩ | ⟨-,⟨c⟩⟩
    · exact absurd rfl hst
    · exact delete_atomic_iff hd h c

theorem savedOn_disk (h : Idle s) : SavedOn (diskOf s) s := ⟨s.transaction_log,h,rfl⟩

theorem ends_atomic : ∃ s, run (step none) (emptyFileSystem false) [.create ['a'] 40] = some s ∧ ∃ t u,
    (create ['b'] 0 s).result = .ok (.FILE_CREATE_SUCCESS,t) ∧
    (delete_ none ['a'] s).result = .ok (.FILE_DELETE_SUCCESS,u) ∧ ∀ raw k, k ≤ 1 ∨ 5 ≤ k →
      BeforeOrAfter raw ((diskOf s).puts ((create ['b'] 0 s).saves.take k)) s t ∧
      BeforeOrAfter raw ((diskOf s).puts ((delete_ none ['a'] s).saves.take k)) s u := by
  have hruns : ((run (step none) (emptyFileSystem false) [.create ['a'] 40]).any fun s =>
      ((create ['b'] 0 s).result.toOption.any fun r => r.1 = .FILE_CREATE_SUCCESS) &&
        (delete_ none ['a'] s).result.toOption.any fun r => r.1 = .FILE_DELETE_SUCCESS) = true := by decide
  obtain ⟨s,hrun,hs⟩ := (Option.any_eq_true _ _).mp hruns
  rw [Bool.and_eq_true] at hs
  obtain ⟨⟨st,t⟩,hcreate,hst⟩ := exists_of_any hs.1
  obtain ⟨⟨st',u⟩,hdelete,hst'⟩ := exists_of_any hs.2
  obtain rfl : st = .FILE_CREATE_SUCCESS := of_decide_eq_true hst
  obtain rfl : st' = .FILE_DELETE_SUCCESS := of_decide_eq_true hst'
  obtain ⟨chain,hchain⟩ := chained_run (by decide +kernel) hrun
  have hplain : Plain s.fd_table := run_plain (fun _ => List.not_mem_nil) (by decide) hrun
  refine ⟨s,hrun,t,u,hcreate,hdelete,fun raw k hk => ?_⟩
  obtain ⟨hcreates,hdeletes⟩ := saving_atomic_iff (savedOn_disk (run_idle hrun)) hchain.hasChains raw k
  rw [hcreates _ _ _ hcreate, hdeletes _ _ _ hdelete]
  rcases hk with hk | hk
  · exact ⟨Or.inl ⟨hk,hplain⟩,Or.inl ⟨hk,hplain⟩⟩
  · exact ⟨Or.inr (Or.inr (Or.inr ⟨hk,by decide,fun i _ => hplain i⟩)),Or.inr (Or.inr ⟨hk,fun i _ => hplain i⟩)⟩

/-- With the new FAT and the old descriptors, the first block belongs to no file. -/
theorem create_not_atomic : (∃ chain, Chained (emptyFileSystem false) chain) ∧
    ∃ s', (create ['a'] 0 (emptyFileSystem false)).result = .ok (.FILE_CREATE_SUCCESS,s') ∧ ∀ raw,
      ¬ BeforeOrAfter raw ((diskOf (emptyFileSystem false)).puts ((create ['a'] 0 (emptyFileSystem false)).saves.take 2))
        (emptyFileSystem false) s' := by
  have hcreates : ((create ['a'] 0 (emptyFileSystem false)).result.toOption.any fun r =>
      r.1 = .FILE_CREATE_SUCCESS) = true := by decide
  obtain ⟨⟨st,s'⟩,hcreate,hst⟩ := exists_of_any hcreates
  obtain rfl : st = .FILE_CREATE_SUCCESS := of_decide_eq_true hst
  have hidle : Idle (emptyFileSystem false) := rfl
  rcases create_cases hcreate with ⟨hst,-⟩ | ⟨-,⟨c⟩⟩
  · exact absurd rfl hst
  · refine ⟨⟨_,chained_empty false⟩,s',hcreate,fun raw hatomic => ?_⟩
    rcases (create_atomic_iff (savedOn_disk hidle) (chained_empty false).hasChains c).mp hatomic with
      ⟨hk,-⟩ | ⟨-,-,hsize⟩ | ⟨hk,-⟩ | ⟨hk,-⟩
    · omega
    · exact absurd hsize (by decide)
    · omega
    · omega

end SOI.FileSystem

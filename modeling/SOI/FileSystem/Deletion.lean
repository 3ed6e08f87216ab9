import SOI.FileSystem.Contents
import SOI.FileSystem.OpenFiles

/-! # Deleting a file

`delete_` frees the chain of the named file, but moves all descriptors down from the
first one on. The table of open files keeps the old numbers, and the loop over it is
bounded by the number of opened files, which it decreases.
-/
namespace SOI.FileSystem
open Linked Runs Tally Texts
variable {past : Option FileDescriptor} {s s' : State} {table : OpenTable} {count : Int16} {name : Text}
  {chain : Fin NUM_FILES → List Block} {i : Fin NUM_FILES} {k : Fin NUM_OPENED_FILES}

def liveDescriptors (s : State) : List FileDescriptor := (List.ofFn s.fd_table).take s.file_count.toInt.toNat

def DistinctNames (s : State) : Prop :=
  ∀ i j, Live s i → Live s j → (s.fd_table i).name = (s.fd_table j).name → i = j

instance : DecidablePred DistinctNames := fun _ => inferInstanceAs (Decidable (∀ _ _, _ → _ → _ → _))

/-- The file with this name has been removed, and nothing else. -/
structure RemovesFile (s s' : State) (name : Text) (chain : Fin NUM_FILES → List Block) : Prop where
  descriptors : liveDescriptors s' = (liveDescriptors s).filter fun fd => fd.name ≠ name
  fat : ∀ i, Live s i → (s.fd_table i).name = name → ∀ b, s'.fat b = if b ∈ chain i then FREE_BLOCK else s.fat b
  memory : s'.memory = s.memory
  others : ∀ i, Live s i → (s.fd_table i).name ≠ name →
    ∃ j, Live s' j ∧ s'.fd_table j = s.fd_table i ∧ contents s' j = contents s i

section InUse
variable {α : Type} {f g : Fin NUM_FILES → α} {a : α}

theorem getElem?_inUse {n : ℕ} : ((List.ofFn f).take s.file_count.toInt.toNat)[n]? = some a ↔
    ∃ i : Fin NUM_FILES, (i : ℕ) = n ∧ Live s i ∧ f i = a := by
  rw [List.getElem?_take]
  constructor
  · intro h
    split_ifs at h with hn
    obtain ⟨hlt,heq⟩ := List.getElem?_eq_some_iff.mp h
    rw [List.length_ofFn] at hlt
    rw [List.getElem_ofFn] at heq
    refine ⟨⟨n,hlt⟩,rfl,?_,heq⟩
    unfold Live
    dsimp only
    omega
  · rintro ⟨i,rfl,hi,rfl⟩
    unfold Live at hi
    rw [if_pos (by omega), List.getElem?_ofFn, dif_pos i.isLt]

theorem mem_inUse : a ∈ (List.ofFn f).take s.file_count.toInt.toNat ↔ ∃ i, Live s i ∧ f i = a := by
  rw [List.mem_iff_getElem?]
  simp only [getElem?_inUse]
  constructor
  · rintro ⟨_,i,-,hi,heq⟩
    exact ⟨i,hi,heq⟩
  · rintro ⟨i,hi,heq⟩
    exact ⟨i,i,rfl,hi,heq⟩

/-- Whatever the name, the file that goes is the first one, and the others move down by one place. -/
theorem Deleted.inUse_tail (d : Deleted past name s s')
    (hfg : ∀ i j : Fin NUM_FILES, Live s i → (i : ℕ) = j + 1 → s'.fd_table j = s.fd_table i → g j = f i) :
    (List.ofFn g).take s'.file_count.toInt.toNat = ((List.ofFn f).take s.file_count.toInt.toNat).tail := by
  refine List.ext_getElem? fun n => Option.ext fun a => ?_
  rw [List.getElem?_tail, getElem?_inUse, getElem?_inUse]
  constructor
  · rintro ⟨j,rfl,hj,rfl⟩
    obtain ⟨i,hi,hlive,heq⟩ := d.comes_from hj
    exact ⟨i,hi,hlive,(hfg i j hlive hi heq).symm⟩
  · rintro ⟨i,hin,hi,rfl⟩
    obtain ⟨j,hj,hlive,heq⟩ := d.moved_down hi (by omega)
    exact ⟨j,by omega,hlive,hfg i j hi (by omega) heq⟩

/-- Only the first entry fails the test. -/
theorem inUse_tail_eq_filter {p : α → Bool} (hi : Live s i) (hzero : (i : ℕ) = 0) (hfails : p (f i) = false)
    (hothers : ∀ j, Live s j → j ≠ i → p (f j) = true) :
    ((List.ofFn f).take s.file_count.toInt.toNat).tail = ((List.ofFn f).take s.file_count.toInt.toNat).filter p := by
  have hfirst : ((List.ofFn f).take s.file_count.toInt.toNat)[0]? = some (f i) := getElem?_inUse.mpr ⟨i,hzero,hi,rfl⟩
  have hpass : ∀ a ∈ ((List.ofFn f).take s.file_count.toInt.toNat).tail, p a = true := by
    intro a ha
    obtain ⟨n,hn⟩ := List.mem_iff_getElem?.mp ha
    rw [List.getElem?_tail] at hn
    obtain ⟨j,hjn,hj,rfl⟩ := getElem?_inUse.mp hn
    refine hothers j hj ?_
    rintro rfl
    omega
  cases hlist : (List.ofFn f).take s.file_count.toInt.toNat with
  | nil =>
    rw [hlist] at hfirst
    cases hfirst
  | cons a rest =>
    rw [hlist] at hfirst hpass
    obtain rfl : a = f i := Option.some.inj hfirst
    rw [List.filter_cons_of_neg (by rw [hfails]; exact Bool.false_ne_true)]
    exact (List.filter_eq_self.mpr hpass).symm

end InUse

theorem Deleted.descriptors_eq (d : Deleted past name s s') : liveDescriptors s' = (liveDescriptors s).tail :=
  d.inUse_tail fun _ _ _ _ hentry => hentry

theorem Deleted.chain_kept (d : Deleted past name s s') (h : WellChained s chain) (hi : Live s i)
    (hne : i ≠ d.file_idx) : Chain s'.fat (s.fd_table i).starting_block (chain i) := by
  have hlive := (find_live d.found).1
  apply (h.seg i hi).congr
  intro b hb
  rw [d.fat_eq (h.seg _ hlive), if_neg]
  exact fun hb' => h.apart i _ hi hlive hne hb hb'

theorem Deleted.memory_eq (d : Deleted past name s s') : s'.memory = s.memory := by
  rw [d.result]
  rfl

theorem Deleted.other_contents (d : Deleted past name s s') (h : WellChained s chain) (hi : Live s i)
    (hne : i ≠ d.file_idx) {j : Fin NUM_FILES} (hentry : s'.fd_table j = s.fd_table i) :
    contents s' j = contents s i := by
  have hkept := d.chain_kept h hi hne
  rw [contents_eq (h.seg i hi), contents_eq (by rw [hentry]; exact hkept), hentry, d.memory_eq]

theorem Deleted.removes (d : Deleted past name s s') (h : WellChained s chain) (hnames : DistinctNames s)
    (hzero : (d.file_idx : ℕ) = 0) : RemovesFile s s' name chain := by
  obtain ⟨hlive,hname⟩ := find_live d.found
  have honly : ∀ i, Live s i → (s.fd_table i).name = name → i = d.file_idx := fun i hi heq =>
    hnames i _ hi hlive (heq.trans hname.symm)
  constructor
  · rw [d.descriptors_eq]
    refine inUse_tail_eq_filter hlive hzero (by simpa using hname) fun i hi hne => ?_
    rw [decide_eq_true_eq]
    exact fun heq => hne (honly i hi heq)
  · intro i hi heq
    obtain rfl := honly i hi heq
    exact d.fat_eq (h.seg _ hi)
  · exact d.memory_eq
  · intro i hi hne
    have hidx : i ≠ d.file_idx := by
      rintro rfl
      exact hne hname
    have hpos : 0 < (i : ℕ) := Nat.pos_of_ne_zero fun heq => hidx (Fin.ext (heq.trans hzero.symm))
    obtain ⟨j,-,hj,heq⟩ := d.moved_down hi hpos
    exact ⟨j,hj,heq,d.other_contents h hi hidx heq⟩

/-- A successful `delete_` removes the named file and nothing else exactly if that file
is the first one. -/
theorem delete_removes_iff (h : WellChained s chain) (hnames : DistinctNames s)
    (hdelete : (delete_ past name s).result = .ok (.FILE_DELETE_SUCCESS,s')) :
    RemovesFile s s' name chain ↔ findFileIndexByName s name = some 0 := by
  rcases delete_cases hdelete with ⟨hne,-⟩ | ⟨-,⟨d⟩⟩
  · exact absurd rfl hne
  · rw [d.found, Option.some.injEq]
    constructor
    · intro hremoves
      by_contra hidx
      obtain ⟨hlive,hname⟩ := find_live d.found
      have hpos : 0 < (d.file_idx : ℕ) := Nat.pos_of_ne_zero fun heq => hidx (Fin.ext heq)
      -- the named descriptor is still there, one place further down
      obtain ⟨j,-,hj,heq⟩ := d.moved_down hlive hpos
      have hmem : s.fd_table d.file_idx ∈ liveDescriptors s' := mem_inUse.mpr ⟨j,hj,heq⟩
      rw [hremoves.descriptors, List.mem_filter] at hmem
      exact absurd hname (by simpa using hmem.2)
    · intro hzero
      exact d.removes h hnames (by rw [hzero]; rfl)

theorem two_files : ∃ s chain, run (step none) (emptyFileSystem false) [.create ['a'] 0,.create ['b'] 40] = some s ∧
    WellChained s chain ∧ DistinctNames s := by
  have hruns : ((run (step none) (emptyFileSystem false) [.create ['a'] 0,.create ['b'] 40]).any fun s =>
      DistinctNames s) = true := by decide +kernel
  obtain ⟨s,hrun,hnames⟩ := (Option.any_eq_true _ _).mp hruns
  obtain ⟨chain,hchain⟩ := @chained_run s none [.create ['a'] 0,.create ['b'] 40] (by decide +kernel) hrun
  exact ⟨s,chain,hrun,hchain.wellChained,of_decide_eq_true hnames⟩

theorem first_file_removed : ∃ s s' chain,
    run (step none) (emptyFileSystem false) [.create ['a'] 0,.create ['b'] 40] = some s ∧
      (delete_ none ['a'] s).result = .ok (.FILE_DELETE_SUCCESS,s') ∧ RemovesFile s s' ['a'] chain := by
  obtain ⟨s,chain,hrun,hchain,hnames⟩ := two_files
  have hdeletes : ((run (step none) (emptyFileSystem false) [.create ['a'] 0,.create ['b'] 40]).any fun s =>
      findFileIndexByName s ['a'] = some 0 &&
        (delete_ none ['a'] s).result.toOption.any fun r => r.1 = .FILE_DELETE_SUCCESS) = true := by decide +kernel
  rw [hrun, Option.any_some, Bool.and_eq_true] at hdeletes
  obtain ⟨⟨st,s'⟩,hdelete,hst⟩ := exists_of_any hdeletes.2
  obtain rfl : st = .FILE_DELETE_SUCCESS := of_decide_eq_true hst
  exact ⟨s,s',chain,hrun,hdelete,(delete_removes_iff hchain hnames hdelete).mpr (of_decide_eq_true hdeletes.1)⟩

/-- Deleting the second of two files removes the descriptor of the first one. -/
theorem second_file_not_removed : ∃ s s' chain,
    run (step none) (emptyFileSystem false) [.create ['a'] 0,.create ['b'] 40] = some s ∧ WellChained s chain ∧
      DistinctNames s ∧ (delete_ none ['b'] s).result = .ok (.FILE_DELETE_SUCCESS,s') ∧
      ¬ RemovesFile s s' ['b'] chain := by
  obtain ⟨s,chain,hrun,hchain,hnames⟩ := two_files
  have hdeletes : ((run (step none) (emptyFileSystem false) [.create ['a'] 0,.create ['b'] 40]).any fun s =>
      (delete_ none ['b'] s).result.toOption.any fun r => r.1 = .FILE_DELETE_SUCCESS &&
        liveDescriptors r.2 ≠ (liveDescriptors s).filter fun fd => fd.name ≠ ['b']) = true := by decide +kernel
  rw [hrun, Option.any_some] at hdeletes
  obtain ⟨⟨st,s'⟩,hdelete,hs'⟩ := exists_of_any hdeletes
  rw [Bool.and_eq_true] at hs'
  obtain rfl : st = .FILE_DELETE_SUCCESS := of_decide_eq_true hs'.1
  exact ⟨s,s',chain,hrun,hchain,hnames,hdelete,fun hremoves => of_decide_eq_true hs'.2 hremoves.descriptors⟩

structure Refers (s : State) (k : Fin NUM_OPENED_FILES) (i : Fin NUM_FILES) : Prop where
  live : Live s i
  idx : (s.open_file_fd_table k).idx.toInt = i

/-- The entries of the deleted file are closed, the others still refer to their file at
the same offset, and the count is right. -/
structure KeepsOpened (s s' : State) (name : Text) : Prop where
  closed : ∀ k i, Refers s k i → (s.fd_table i).name = name → (s'.open_file_fd_table k).idx = NO_OPENED_FILE
  kept : ∀ k i, Refers s k i → (s.fd_table i).name ≠ name → ∃ j, Refers s' k j ∧
    (s'.fd_table j).name = (s.fd_table i).name ∧ (s'.open_file_fd_table k).offset = (s.open_file_fd_table k).offset
  counted : s'.opened_file_count.toInt = occupied s'.open_file_fd_table

/-- Entries of other files are not touched by the closing loop. -/
theorem closeOpened_frame {fuel n : ℕ} {opened : OpenTable × Int16} (hk : (table k).idx.toInt ≠ i)
    (h : closeOpened i fuel n (table,count) = .ok opened) : opened.1 k = table k := by
  have hstep : ∀ (t : OpenTable) (c : Int16) (l : Fin NUM_OPENED_FILES), t k = table k → (l : ℤ) < c.toInt →
      (t l).idx.toInt = i → Function.update t l ⟨NO_OPENED_FILE,0⟩ k = table k := by
    intro t c l ht _ hidx
    have hkl : k ≠ l := by
      rintro rfl
      exact hk (ht ▸ hidx)
    rw [Function.update_of_ne hkl, ht]
  exact closeOpened_induction (P := fun t _ => t k = table k) hstep rfl h

/-- Behind the first entry, the loop never closes the last entry in use: its bound is
the number of those left. -/
theorem closeOpened_leaves {fuel n : ℕ} {opened : OpenTable × Int16} (hn : 1 ≤ n)
    (hcounted : count.toInt = occupied table) (hpos : 0 < occupied table)
    (h : closeOpened i fuel n (table,count) = .ok opened) : 0 < occupied opened.1 := by
  induction fuel generalizing n table count with
  | zero => cases h
  | succ fuel ih =>
    unfold closeOpened at h
    split_ifs at h with hlt
    · obtain ⟨k,-,h⟩ := bind_ok.mp h
      split_ifs at h with hidx
      · have hclosed := counted_close hcounted (used_of_idx hidx)
        have hless : occupied (Function.update table k ⟨NO_OPENED_FILE,0⟩) + 1 = occupied table :=
          occupied_close (used_of_idx hidx) rfl
        exact ih (by omega) hclosed (by omega) h
      · exact ih (by omega) hcounted hpos h
    · cases h
      exact hpos

/-- If the loop has closed everything, only the first entry was in use. -/
theorem closeOpened_all {fuel : ℕ} {opened : OpenTable × Int16} (hcounted : count.toInt = occupied table)
    (h : closeOpened i fuel 0 (table,count) = .ok opened) (hnone : occupied opened.1 = 0)
    (hk : (table k).idx ≠ NO_OPENED_FILE) : (k : ℕ) = 0 := by
  have hpos := occupied_pos hk
  cases fuel with
  | zero => cases h
  | succ fuel =>
    unfold closeOpened at h
    rw [if_pos (by push_cast; omega)] at h
    obtain ⟨first,hfirst,h⟩ := bind_ok.mp h
    have hzero := index_eq_ok hfirst
    split_ifs at h with hidx
    · have hclosed := counted_close hcounted (used_of_idx hidx)
      have hempty : occupied (Function.update table first ⟨NO_OPENED_FILE,0⟩) = 0 := by
        by_contra hne
        exact absurd hnone (closeOpened_leaves le_rfl hclosed (Nat.pos_of_ne_zero hne) h).ne'
      by_contra hkne
      have hkf : k ≠ first := by
        rintro rfl
        omega
      have hfree := tally_eq_zero.mp hempty k
      rw [Function.update_of_ne hkf] at hfree
      exact hk (not_isOccupied_iff.mp hfree)
    · exact absurd hnone (closeOpened_leaves le_rfl hcounted hpos h).ne'

/-- If only the first entry is in use, for this file, the loop closes it. -/
theorem closeOpened_first {fuel : ℕ} {opened : OpenTable × Int16} (hcounted : count.toInt = occupied table)
    (honly : ∀ k, (table k).idx ≠ NO_OPENED_FILE → (k : ℕ) = 0 ∧ (table k).idx.toInt = i)
    (h : closeOpened i fuel 0 (table,count) = .ok opened) : (opened.1 k).idx = NO_OPENED_FILE := by
  cases fuel with
  | zero => cases h
  | succ fuel =>
    unfold closeOpened at h
    split_ifs at h with hlt
    · obtain ⟨first,hfirst,h⟩ := bind_ok.mp h
      have hzero := index_eq_ok hfirst
      obtain ⟨l,hl⟩ := tally_pos.mp (show 0 < occupied table by push_cast at hlt; omega)
      obtain ⟨hl₀,hidx⟩ := honly l (isOccupied_iff.mp hl)
      obtain rfl : l = first := Fin.ext (by omega)
      rw [if_pos hidx] at h
      have hfree : (Function.update table l ⟨NO_OPENED_FILE,0⟩ k).idx = NO_OPENED_FILE := by
        by_cases hkl : k = l
        · rw [hkl, Function.update_self]
        · rw [Function.update_of_ne hkl]
          by_contra hused
          exact hkl (Fin.ext ((honly k hused).1.trans hl₀.symm))
      rw [closeOpened_frame (fun hidx => used_of_idx hidx hfree) h]
      exact hfree
    · cases h
      by_contra hused
      have hpos : 0 < occupied table := occupied_pos hused
      push_cast at hlt
      omega

theorem isOpenFor_iff : isOpenFor s name (s.open_file_fd_table k) = true ↔
    ∃ i, Refers s k i ∧ (s.fd_table i).name = name := by
  simp only [isOpenFor, Bool.and_eq_true, decide_eq_true_eq, List.any_eq_true, List.mem_finRange, true_and]
  constructor
  · rintro ⟨-,i,⟨hidx,hlive⟩,hname⟩
    exact ⟨i,⟨hlive,hidx.symm⟩,hname⟩
  · rintro ⟨i,hrefers,hname⟩
    exact ⟨used_of_idx hrefers.idx,i,⟨hrefers.idx.symm,hrefers.live⟩,hname⟩

/-- Names in use differ, and entries in use refer to descriptors in use. -/
structure Referring (s : State) : Prop where
  distinct : DistinctNames s
  refers : ∀ k, (s.open_file_fd_table k).idx ≠ NO_OPENED_FILE → ∃ i, Refers s k i

theorem Moves.entry (h : Moves s table count) (hk : (table k).idx ≠ NO_OPENED_FILE) :
    (table k).idx = (s.open_file_fd_table k).idx ∨ ∃ i, Live s i ∧ (table k).idx.toInt = i := by
  have hset : ∀ (l : Fin NUM_OPENED_FILES) (file : OpenedFile), l ≠ k →
      Function.update s.open_file_fd_table l file k = s.open_file_fd_table k := fun l file hl =>
    Function.update_of_ne hl.symm _ _
  cases h with
  | same => exact Or.inl rfl
  | opens i l hlive hfree =>
    by_cases hl : l = k
    · subst hl
      rw [Function.update_self]
      exact Or.inr ⟨i,hlive,toInt_fileIndex i⟩
    · exact Or.inl (by rw [hset l _ hl])
  | closes l hused =>
    by_cases hl : l = k
    · subst hl
      rw [Function.update_self] at hk
      exact absurd rfl hk
    · exact Or.inl (by rw [hset l _ hl])
  | advances l n =>
    by_cases hl : l = k
    · subst hl
      have hentry : (s.advance l n).open_file_fd_table l =
          { s.open_file_fd_table l with offset := (s.open_file_fd_table l).offset + n } := Function.update_self ..
      exact Or.inl (by rw [hentry])
    · exact Or.inl (congrArg OpenedFile.idx (hset l _ hl))
  | deletes i opened hclosed =>
    by_cases hidx : (s.open_file_fd_table k).idx.toInt = i
    · have hstep : ∀ (t : OpenTable) (c : Int16) (l : Fin NUM_OPENED_FILES),
          t k = s.open_file_fd_table k ∨ (t k).idx = NO_OPENED_FILE → (l : ℤ) < c.toInt → (t l).idx.toInt = i →
          Function.update t l ⟨NO_OPENED_FILE,0⟩ k = s.open_file_fd_table k ∨
            (Function.update t l ⟨NO_OPENED_FILE,0⟩ k).idx = NO_OPENED_FILE := by
        intro t c l ht _ _
        by_cases hl : k = l
        · subst hl
          exact Or.inr (by rw [Function.update_self])
        · rwa [Function.update_of_ne hl]
      rcases closeOpened_induction (P := fun t _ => t k = s.open_file_fd_table k ∨ (t k).idx = NO_OPENED_FILE) hstep
          (Or.inl rfl) hclosed with heq | hnone
      · exact Or.inl (by rw [heq])
      · exact absurd hnone hk
    · exact Or.inl (by rw [closeOpened_frame hidx hclosed])

theorem Referring.perform (h : Referring s) {call : Call} {r : Reply} (hcall : ∀ name, call ≠ .delete_ name)
    (hr : (perform past call s).result = .ok (r,s')) : Referring s' := by
  have hmoves := perform_moves hr
  have hentries : (∀ i, Live s i → Live s' i) → ∀ k, (s'.open_file_fd_table k).idx ≠ NO_OPENED_FILE →
      ∃ i, Refers s' k i := by
    intro hlive k hk
    rcases hmoves.entry hk with heq | ⟨i,hi,hidx⟩
    · rw [heq] at hk
      obtain ⟨i,hi⟩ := h.refers k hk
      exact ⟨i,hlive i hi.live,by rw [heq]; exact hi.idx⟩
    · exact ⟨i,hlive i hi,hidx⟩
  rcases perform_entries hr with ⟨name,size,-,⟨c⟩⟩ | ⟨name,heq,-⟩ | ⟨hcount,hname,-⟩
  · have hlive := c.live_iff
    refine ⟨fun i j hi hj hij => ?_,hentries fun i hi => (hlive i).mpr (Or.inr hi)⟩
    have hfresh : ∀ i, (s.fd_table i).name ≠ name := by simpa [duplicateName] using c.fresh
    by_cases hic : i = c.i <;> by_cases hjc : j = c.i
    · exact hic.trans hjc.symm
    · subst hic
      rw [c.entry_self, c.entry_of_ne hjc] at hij
      exact absurd hij.symm (hfresh j)
    · subst hjc
      rw [c.entry_self, c.entry_of_ne hic] at hij
      exact absurd hij (hfresh i)
    · rw [c.entry_of_ne hic, c.entry_of_ne hjc] at hij
      exact h.distinct i j (((hlive i).mp hi).resolve_left hic) (((hlive j).mp hj).resolve_left hjc) hij
  · exact absurd heq (hcall name)
  · have hlive : ∀ i, Live s' i ↔ Live s i := fun i => by rw [Live, Live, hcount]
    refine ⟨fun i j hi hj hij => ?_,hentries fun i hi => (hlive i).mpr hi⟩
    rw [hname, hname] at hij
    exact h.distinct i j ((hlive i).mp hi) ((hlive j).mp hj) hij

theorem referring_empty (flag : Bool) : Referring (emptyFileSystem flag) := by
  refine ⟨fun i j hi => ?_,fun k hk => absurd rfl hk⟩
  have hlt : (i : ℤ) < 0 := hi
  omega

theorem referring_run {flag : Bool} {calls : List Call} (hcalls : ∀ call ∈ calls, ∀ name, call ≠ .delete_ name)
    (hrun : run (step past) (emptyFileSystem flag) calls = some s) : Referring s := by
  have hsteps : ∀ (t : State) (call : Call) (u : State), Referring t → (∀ name, call ≠ .delete_ name) →
      step past t call = some u → Referring u := by
    intro t call u ht hcall hstep
    obtain ⟨r,hr⟩ := step_ok hstep
    exact ht.perform hcall hr
  exact (meets_of_mem hcalls).invariant hsteps (referring_empty flag) hrun

theorem Refers.unique {j : Fin NUM_FILES} (h : Refers s k i) (h' : Refers s k j) : i = j := by
  have hi := h.idx
  have hj := h'.idx
  exact Fin.ext (by omega)

theorem Deleted.table_eq (d : Deleted past name s s') : s'.open_file_fd_table = d.opened.1 := by
  have h := congrArg State.open_file_fd_table d.result
  exact h

theorem Deleted.not_kept (d : Deleted past name s s') (h : Referring s) (hrefers : Refers s k i)
    (hname : (s.fd_table i).name ≠ name) {j : Fin NUM_FILES} (hj : Refers s' k j) :
    (s'.fd_table j).name ≠ (s.fd_table i).name := by
  intro heq
  have hidx : (s.open_file_fd_table k).idx.toInt ≠ d.file_idx := by
    intro hidx
    obtain rfl : i = d.file_idx := by
      have hi := hrefers.idx
      exact Fin.ext (by omega)
    exact hname (find_live d.found).2
  have hentry : (s'.open_file_fd_table k).idx.toInt = j := hj.idx
  rw [d.table_eq, closeOpened_frame hidx d.closed, hrefers.idx] at hentry
  obtain rfl : i = j := Fin.ext (by omega)
  have hlt := (d.live_iff i).mp hj.live
  rcases d.entry i with ⟨hnext,-,hentry⟩ | ⟨hlast,-⟩ | ⟨hgt,-⟩
  · rw [hentry] at heq
    have hlive : Live s ⟨i + 1,hnext⟩ := by
      have hlast := d.last_eq
      unfold Live
      dsimp only
      omega
    have hsame := congrArg Fin.val (h.distinct _ _ hlive hrefers.live heq)
    dsimp only at hsame
    omega
  · exact absurd hlast (ne_of_lt hlt)
  · exact absurd hgt (lt_asymm hlt)

/-- After a run without deletions, a successful `delete_` keeps the table of open files
right exactly if at most the first entry was in use, for the file that is deleted. -/
theorem delete_keeps_opened_iff {flag : Bool} {calls : List Call}
    (hcalls : ∀ call ∈ calls, ∀ name, call ≠ .delete_ name)
    (hrun : run (step past) (emptyFileSystem flag) calls = some s)
    (hdelete : (delete_ past name s).result = .ok (.FILE_DELETE_SUCCESS,s')) :
    KeepsOpened s s' name ↔ ∀ k, (s.open_file_fd_table k).idx ≠ NO_OPENED_FILE →
      (k : ℕ) = 0 ∧ isOpenFor s name (s.open_file_fd_table k) = true := by
  have href := referring_run hcalls hrun
  have htables := tables_run hrun
  have hstep : step past s (.delete_ name) = some s' := by
    simp [step, perform, Outcome.map, hdelete, Except.map, Except.toOption]
  rcases delete_cases hdelete with ⟨hne,-⟩ | ⟨-,⟨d⟩⟩
  · exact absurd rfl hne
  obtain ⟨hlive,hname⟩ := find_live d.found
  have htable := d.table_eq
  constructor
  · intro hkeeps k hk
    have hnamed : ∀ k i, Refers s k i → (s.fd_table i).name = name := by
      intro k i hrefers
      by_contra hother
      obtain ⟨j,hj,heq,-⟩ := hkeeps.kept k i hrefers hother
      exact d.not_kept href hrefers hother hj heq
    have hnone : occupied d.opened.1 = 0 := by
      refine tally_eq_zero.mpr fun l => not_isOccupied_iff.mpr ?_
      by_cases hl : (s.open_file_fd_table l).idx = NO_OPENED_FILE
      · have hidx : (s.open_file_fd_table l).idx.toInt ≠ d.file_idx := fun hidx => used_of_idx hidx hl
        rw [closeOpened_frame hidx d.closed]
        exact hl
      · obtain ⟨i,hi⟩ := href.refers l hl
        rw [← htable]
        exact hkeeps.closed l i hi (hnamed l i hi)
    obtain ⟨i,hi⟩ := href.refers k hk
    exact ⟨closeOpened_all htables.opened.counted d.closed hnone hk,isOpenFor_iff.mpr ⟨i,hi,hnamed k i hi⟩⟩
  · intro honly
    have hnamed : ∀ k, (s.open_file_fd_table k).idx ≠ NO_OPENED_FILE →
        (k : ℕ) = 0 ∧ (s.open_file_fd_table k).idx.toInt = d.file_idx := by
      intro k hk
      obtain ⟨hzero,hopen⟩ := honly k hk
      obtain ⟨i,hi,heq⟩ := isOpenFor_iff.mp hopen
      obtain rfl := href.distinct i _ hi.live hlive (heq.trans hname.symm)
      exact ⟨hzero,hi.idx⟩
    constructor
    · intro k i _ _
      rw [htable]
      exact closeOpened_first htables.opened.counted hnamed d.closed
    · intro k i hrefers hother
      obtain ⟨-,hidx⟩ := hnamed k (used_of_idx hrefers.idx)
      obtain rfl := hrefers.unique ⟨hlive,hidx⟩
      exact absurd hname hother
    · exact (htables.step hstep).opened.counted

theorem first_opened_kept : ∃ s s', run (step none) (emptyFileSystem false)
    [.create ['a'] 0,.create ['b'] 0,.open_ ['b']] = some s ∧
      (delete_ none ['b'] s).result = .ok (.FILE_DELETE_SUCCESS,s') ∧ KeepsOpened s s' ['b'] := by
  have hruns : ((run (step none) (emptyFileSystem false) [.create ['a'] 0,.create ['b'] 0,.open_ ['b']]).any fun s =>
      ((delete_ none ['b'] s).result.toOption.any fun r => r.1 = .FILE_DELETE_SUCCESS) &&
        decide (∀ k : Fin NUM_OPENED_FILES, (s.open_file_fd_table k).idx ≠ NO_OPENED_FILE →
          (k : ℕ) = 0 ∧ isOpenFor s ['b'] (s.open_file_fd_table k) = true)) = true := by decide +kernel
  obtain ⟨s,hrun,hs⟩ := (Option.any_eq_true _ _).mp hruns
  rw [Bool.and_eq_true] at hs
  obtain ⟨⟨st,s'⟩,hdelete,hst⟩ := exists_of_any hs.1
  obtain rfl : st = .FILE_DELETE_SUCCESS := of_decide_eq_true hst
  exact ⟨s,s',hrun,hdelete,(delete_keeps_opened_iff (by simp) hrun hdelete).mpr (of_decide_eq_true hs.2)⟩

/-- The entry of the first file refers to the second one, which has been deleted. -/
theorem other_opened_not_kept : ∃ s s', run (step none) (emptyFileSystem false)
    [.create ['a'] 0,.create ['b'] 0,.open_ ['a']] = some s ∧
      (delete_ none ['b'] s).result = .ok (.FILE_DELETE_SUCCESS,s') ∧ ¬ KeepsOpened s s' ['b'] := by
  have hruns : ((run (step none) (emptyFileSystem false) [.create ['a'] 0,.create ['b'] 0,.open_ ['a']]).any fun s =>
      Live s 0 && (s.open_file_fd_table 0).idx.toInt = 0 && (s.fd_table 0).name = ['a'] &&
        (delete_ none ['b'] s).result.toOption.any fun r => r.1 = .FILE_DELETE_SUCCESS &&
          (r.2.open_file_fd_table 0).idx.toInt = 0 && (r.2.fd_table 0).name = ['b']) = true := by decide +kernel
  obtain ⟨s,hrun,hs⟩ := (Option.any_eq_true _ _).mp hruns
  simp only [Bool.and_eq_true, decide_eq_true_eq] at hs
  obtain ⟨⟨⟨hlive,hidx⟩,hname⟩,hdeletes⟩ := hs
  obtain ⟨⟨st,s'⟩,hdelete,hs'⟩ := exists_of_any hdeletes
  simp only [Bool.and_eq_true, decide_eq_true_eq] at hs'
  obtain ⟨⟨rfl,hidx'⟩,hname'⟩ := hs'
  refine ⟨s,s',hrun,hdelete,fun hkeeps => ?_⟩
  obtain ⟨j,hj,heq,-⟩ := hkeeps.kept 0 0 ⟨hlive,hidx⟩ (by rw [hname]; decide)
  have hjidx := hj.idx
  have hzero : (j : ℕ) = 0 := by omega
  obtain rfl : j = 0 := Fin.ext hzero
  rw [hname, hname'] at heq
  exact absurd heq (by decide)

end SOI.FileSystem

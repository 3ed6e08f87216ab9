import SOI.FileSystem.Store

/-! # The file system is a store of named files

Each call, and each new start, does to the files in use what it does to the files of a
store, as long as the calls are proper.
-/
namespace SOI.FileSystem
open Linked Runs Splice Texts
variable {s s' t : State} {m m' : Machine} {chain : Fin NUM_FILES → List Block} {i j : Fin NUM_FILES}
  {k : Fin NUM_OPENED_FILES} {name : Text} {buffer : ℕ → Int8} {size : Int16} {past : Option FileDescriptor}
  {store : Store} {f : StoredFile} {n : ℕ}

theorem has_iff : s.store.Has name ↔ (findFileIndexByName s name).isSome = true := by
  rw [findFile_isSome]
  constructor
  · rintro ⟨f,hf,hname⟩
    obtain ⟨i,hi,rfl⟩ := mem_inUse.mp hf
    exact ⟨i,hi,hname⟩
  · rintro ⟨i,hi,hname⟩
    exact ⟨s.file i,mem_inUse.mpr ⟨i,hi,rfl⟩,hname⟩

theorem has_of_found (h : findFileIndexByName s name = some i) : s.file i ∈ s.store ∧ (s.file i).name = name := by
  obtain ⟨hi,hname⟩ := find_live h
  exact ⟨mem_inUse.mpr ⟨i,hi,rfl⟩,hname⟩

theorem not_has_of_none (h : findFileIndexByName s name = none) : ¬ s.store.Has name := by
  rw [has_iff, h]
  exact Bool.false_ne_true

theorem length_store (h : NameTable s) : (s.store.length : ℤ) = s.file_count.toInt := by
  have hnonneg := h.count_nonneg
  have hle := h.count_le
  rw [State.store, List.length_take, List.length_ofFn]
  omega

/-- A store with the right file in the place of each file in use. -/
theorem store_eq (hle : s.file_count.toInt ≤ NUM_FILES) (hlen : (store.length : ℤ) = s.file_count.toInt)
    (h : ∀ i, Live s i → store[(i : ℕ)]? = some (s.file i)) : s.store = store := by
  refine List.ext_getElem? fun n => Option.ext fun f => ?_
  rw [State.store, getElem?_inUse]
  constructor
  · rintro ⟨i,rfl,hi,rfl⟩
    exact h i hi
  · intro hf
    have hlt := (List.getElem?_eq_some_iff.mp hf).1
    let i : Fin NUM_FILES := ⟨n,by omega⟩
    have hi : Live s i := by
      show (n : ℤ) < _
      omega
    exact ⟨i,rfl,hi,Option.some.inj ((h i hi).symm.trans hf)⟩

theorem store_map {g : StoredFile → StoredFile} (hcount : s'.file_count = s.file_count)
    (h : ∀ i, Live s i → s'.file i = g (s.file i)) : s'.store = s.store.map g := by
  refine List.ext_getElem? fun n => Option.ext fun f => ?_
  have hlive : ∀ i, Live s' i ↔ Live s i := fun i => by rw [Live, Live, hcount]
  rw [State.store, State.store, getElem?_inUse, List.getElem?_map, Option.map_eq_some_iff]
  simp only [getElem?_inUse]
  constructor
  · rintro ⟨i,hin,hi,rfl⟩
    exact ⟨s.file i,⟨i,hin,(hlive i).mp hi,rfl⟩,(h i ((hlive i).mp hi)).symm⟩
  · rintro ⟨_,⟨i,hin,hi,rfl⟩,rfl⟩
    exact ⟨i,hin,(hlive i).mpr hi,h i hi⟩

theorem store_change (hnames : NameTable s) (hfound : findFileIndexByName s name = some i) {g : StoredFile → StoredFile}
    (hcount : s'.file_count = s.file_count) (hself : s'.file i = g (s.file i))
    (hother : ∀ j, Live s j → j ≠ i → s'.file j = s.file j) : s'.store = s.store.change name g := by
  obtain ⟨hi,hname⟩ := find_live hfound
  refine store_map hcount fun j hj => ?_
  by_cases hji : j = i
  · rw [hji, if_pos (show (s.file i).name = name from hname)]
    exact hself
  · rw [if_neg]
    · exact hother j hj hji
    · intro heq
      exact hnames.distinct j i hj hi hji (heq.trans hname.symm)

theorem offsetOf_slot (hk : (k : ℕ) = i) : s.offsetOf i =
    if (s.open_file_fd_table k).idx = NO_OPENED_FILE then none else some (s.open_file_fd_table k).offset.toInt.toNat := by
  have hlt : (i : ℕ) < NUM_OPENED_FILES := hk ▸ k.isLt
  obtain rfl : k = ⟨i,hlt⟩ := Fin.ext hk
  rw [State.offsetOf, dif_pos hlt]

theorem offsetOf_open (hk : (k : ℕ) = i) (hidx : (s.open_file_fd_table k).idx ≠ NO_OPENED_FILE) :
    s.offsetOf i = some (s.open_file_fd_table k).offset.toInt.toNat := by rw [offsetOf_slot hk, if_neg hidx]

theorem offsetOf_free (hk : (k : ℕ) = i) (hidx : (s.open_file_fd_table k).idx = NO_OPENED_FILE) : s.offsetOf i = none := by
  rw [offsetOf_slot hk, if_pos hidx]

theorem offsetOf_congr (h : ∀ k : Fin NUM_OPENED_FILES, (k : ℕ) = i → s'.open_file_fd_table k = s.open_file_fd_table k) :
    s'.offsetOf i = s.offsetOf i := by
  unfold State.offsetOf
  split
  · next hlt => rw [h ⟨i,hlt⟩ rfl]
  · rfl

theorem file_congr (hname : (s'.fd_table i).name = (s.fd_table i).name) (hcontents : contents s' i = contents s i)
    (hslot : ∀ k : Fin NUM_OPENED_FILES, (k : ℕ) = i → s'.open_file_fd_table k = s.open_file_fd_table k) :
    s'.file i = s.file i := by rw [State.file, State.file, hname, hcontents, offsetOf_congr hslot]

/-- Slots in use have the numbers of their files. -/
def SlotsMatch (s : State) : Prop :=
  ∀ k, (s.open_file_fd_table k).idx = NO_OPENED_FILE ∨ (s.open_file_fd_table k).idx.toInt = (k : ℕ)

/-- What proper calls keep, of the program and of its disk. -/
structure Stored (m : Machine) : Prop where
  consistent : ∃ chain, Consistent m.s chain
  names : NameTable m.s
  plain : Plain m.s.fd_table
  slots : SlotsMatch m.s
  tables : Tables m.s
  idle : Idle m.s
  saved : SavedOn m.d m.s

theorem Consistent.length_contents (h : Consistent s chain) (hi : Live s i) :
    (contents s i).length = (s.fd_table i).size.toInt.toNat := by
  have hroom := h.room i hi
  have hlength : (bytesOf s.memory (chain i)).length = 32 * (chain i).length := length_bytesOf
  rw [contents_eq (h.chained.seg i hi), List.length_take, hlength]
  push_cast at hroom
  omega

theorem SlotsMatch.live (h : SlotsMatch s) (hinside : OffsetsInside s) (hk : (s.open_file_fd_table k).idx ≠ NO_OPENED_FILE) :
    ∃ i : Fin NUM_FILES, (k : ℕ) = i ∧ Live s i ∧ Opened s k i := by
  obtain ⟨i,hi,ho⟩ := (hinside k).resolve_left hk
  have hidx := (h k).resolve_left hk
  rw [ho.idx] at hidx
  exact ⟨i,by omega,hi,ho⟩

theorem Created.store_eq (c : Created name size s s') (h : Consistent s chain) (hnames : NameTable s) (hslots : SlotsMatch s)
    (hsize : 0 ≤ size.toInt) :
    ∃ bytes : List Int8, bytes.length = size.toInt.toNat ∧ s'.store = s.store ++ [⟨name,bytes,none⟩] := by
  obtain ⟨xs,hchained,-⟩ := h.chained.create c hsize
  obtain ⟨chain',h'⟩ := h.create c hsize
  have hlive := c.live_iff
  have hcount := c.count_eq
  have hnonneg := hnames.count_nonneg
  have hindex := c.index_eq
  have hlength := length_store hnames
  have hmemory : s'.memory = s.memory := by
    rw [c.result]
    rfl
  have htable : s'.open_file_fd_table = s.open_file_fd_table := by
    rw [c.result]
    rfl
  have hnew : s'.offsetOf c.i = none := by
    by_cases hlt : (c.i : ℕ) < NUM_OPENED_FILES
    · refine offsetOf_free (k := ⟨c.i,hlt⟩) rfl ?_
      rw [htable]
      by_contra hused
      obtain ⟨i,hki,hi,-⟩ := hslots.live h.opened hused
      obtain rfl : c.i = i := Fin.ext hki
      exact c.not_live hi
    · rw [State.offsetOf, dif_neg hlt]
  refine ⟨contents s' c.i,?_,SOI.FileSystem.store_eq ?_ ?_ fun i hi => ?_⟩
  · rw [h'.length_contents ((hlive _).mpr (Or.inl rfl)), c.entry_self]
  · have hfull := c.not_full
    omega
  · rw [List.length_append, List.length_singleton]
    push_cast
    omega
  · rcases (hlive i).mp hi with rfl | hi
    · have hplace : (c.i : ℕ) = s.store.length := by omega
      rw [hplace, List.getElem?_concat_length, State.file, c.entry_self, hnew]
    · have hne := c.ne_of_live hi
      have hlt : (i : ℕ) < s.store.length := by
        unfold Live at hi
        omega
      have hseg := hchained.seg i ((hlive i).mpr (Or.inr hi))
      rw [Function.update_of_ne hne] at hseg
      rw [List.getElem?_append_left hlt, State.store, getElem?_inUse.mpr ⟨i,rfl,hi,rfl⟩]
      refine congrArg some (file_congr ?_ ?_ fun k _ => congrFun htable k).symm
      · rw [c.entry_of_ne hne]
      · rw [contents_eq hseg, contents_eq (h.chained.seg i hi), c.entry_of_ne hne, hmemory]

theorem create_step (h : Consistent s chain) (hnames : NameTable s) (hslots : SlotsMatch s) (hsize : 0 ≤ size.toInt)
    {st : FileCreateStatus} (hr : (create name size s).result = .ok (st,s')) :
    StoreStep s.store (.call (.create name size) (.create st)) s'.store := by
  have hlength := length_store hnames
  have hle := hnames.count_le
  rcases create_cases hr with ⟨hne,rfl⟩ | ⟨rfl,⟨c⟩⟩
  · unfold create at hr
    split_ifs at hr with hfull hname hdup hspace
    · cases hr
      exact .full (by omega)
    · cases hr
      exact .illegal fun hlegal => by
        rcases hname with hlong | hshort
        · exact hlong.not_ge hlegal.2
        · exact hshort.not_ge hlegal.1
    · cases hr
      rw [not_or, not_lt, not_lt] at hname
      exact .duplicate (has_iff.mpr ((hnames.lookups_agree ⟨hname.2,hname.1⟩).mp hdup))
    · cases hr
      exact .no_space ..
    · cases hfirst : firstFreeBlock s'.fat with
      | none =>
        rw [hfirst] at hr
        cases hr
        exact .no_space ..
      | some b =>
        simp only [hfirst, proceed_ok] at hr
        obtain ⟨_,-,_,-,hdone⟩ := hr
        exact absurd (congrArg Prod.fst (Except.ok.inj hdone)).symm hne
  · obtain ⟨bytes,hbytes,hstore⟩ := c.store_eq h hnames hslots hsize
    have hfew := c.not_full
    rw [hstore]
    refine .created (by omega) c.name_fits (fun hold => ?_) hbytes
    have hdup := (hnames.lookups_agree c.name_fits).mpr (has_iff.mp hold)
    rw [c.fresh] at hdup
    cases hdup

theorem found_of_live (hnames : NameTable s) (hi : Live s i) (hname : (s.fd_table i).name = name) :
    findFileIndexByName s name = some i := by
  obtain ⟨j,hj⟩ := Option.isSome_iff_exists.mp (findFile_isSome.mpr ⟨i,hi,hname⟩)
  obtain ⟨hlive,hname'⟩ := find_live hj
  by_cases hji : j = i
  · rw [hj, hji]
  · exact absurd (hname'.trans hname.symm) (hnames.distinct j i hlive hi hji)

theorem open_step (hnames : NameTable s) (htables : Tables s)
    (hproper : ∀ i ∈ findFileIndexByName s name, ∀ k ∈ (findOpenFileFreeSlot s).toOption, (k : ℕ) = i)
    {st : FileOpenStatus} (hr : (open_ name s).result = .ok (st,s')) :
    StoreStep s.store (.call (.open_ name) (.open_ st)) s'.store := by
  rcases open_cases hr with ⟨hne,rfl⟩ | ⟨rfl,i,k,hfind,hslot,hs'⟩
  · rw [open_, if_neg htables.not_too_many] at hr
    cases hfind : findFileIndexByName s' name with
    | none =>
      rw [hfind] at hr
      cases hr
      exact .open_missing (not_has_of_none hfind)
    | some i =>
      simp only [hfind, proceed_ok] at hr
      obtain ⟨_,-,hdone⟩ := hr
      exact absurd (congrArg Prod.fst (Except.ok.inj hdone)).symm hne
  · have hki := hproper i hfind k (by rw [hslot]; rfl)
    obtain ⟨hmem,hname⟩ := has_of_found hfind
    have hstep := StoreStep.opened hmem (offsetOf_free hki (freeSlot_free hslot))
    rw [hname] at hstep
    have htable : s'.open_file_fd_table = Function.update s.open_file_fd_table k ⟨Int16.ofInt i,0⟩ := by
      rw [hs']
      rfl
    have hentry : s'.open_file_fd_table k = ⟨Int16.ofInt i,0⟩ := by rw [htable, Function.update_self]
    have hstore : s'.store = s.store.change name fun f => { f with offset := some 0 } := by
      refine store_change hnames hfind (by rw [hs']; rfl) ?_ fun j _ hj => ?_
      · rw [State.file, offsetOf_open hki (by rw [hentry]; exact fileIndex_ne i), hentry, hs']
        rfl
      · refine file_congr (by rw [hs']; rfl) (by rw [hs']; rfl) fun l hl => ?_
        rw [htable, Function.update_of_ne]
        rintro rfl
        exact hj (Fin.ext (hl.symm.trans hki))
    rw [hstore]
    exact hstep

theorem close_step (hnames : NameTable s) (hslots : SlotsMatch s) {st : FileCloseStatus}
    (hr : (close name s).result = .ok (st,s')) : StoreStep s.store (.call (.close name) (.close st)) s'.store := by
  obtain ⟨k,hslot,hr⟩ := proceed_ok.mp hr
  have hopen := openIndex_isOpenFor hslot
  have hused := isOpenFor_used hopen
  obtain ⟨i,hrefers,hname⟩ := isOpenFor_iff.mp hopen
  rw [if_neg hused] at hr
  obtain ⟨rfl,hs'⟩ := Prod.mk.inj (Except.ok.inj hr)
  have hki : (k : ℕ) = i := by
    have hidx := (hslots k).resolve_left hused
    rw [hrefers.idx] at hidx
    omega
  have hfind := found_of_live hnames hrefers.live hname
  have hstep := StoreStep.closed (has_of_found hfind).1 (offsetOf_open hki hused)
  rw [(has_of_found hfind).2] at hstep
  have htable : s'.open_file_fd_table = Function.update s.open_file_fd_table k ⟨NO_OPENED_FILE,0⟩ := by
    rw [← hs']
    rfl
  have hstore : s'.store = s.store.change name fun f => { f with offset := none } := by
    refine store_change hnames hfind (by rw [← hs']; rfl) ?_ fun j _ hj => ?_
    · rw [State.file, offsetOf_free hki (by rw [htable, Function.update_self]), ← hs']
      rfl
    · refine file_congr (by rw [← hs']; rfl) (by rw [← hs']; rfl) fun l hl => ?_
      rw [htable, Function.update_of_ne]
      rintro rfl
      exact hj (Fin.ext (hl.symm.trans hki))
  rw [hstore]
  exact hstep

theorem SlotsMatch.matched (h : SlotsMatch s) (hinside : OffsetsInside s) (hfind : findFileIndexByName s name = some i)
    (hki : (k : ℕ) = i) (hopen : (s.open_file_fd_table k).idx ≠ NO_OPENED_FILE) : Matched s name i k ∧ Opened s k i := by
  obtain ⟨j,hkj,-,ho⟩ := h.live hinside hopen
  obtain rfl : i = j := Fin.ext (hki.symm.trans hkj)
  exact ⟨⟨hfind,hki,ho.idx⟩,ho⟩

theorem MovedOn.offsetOf {n : ℕ} (hmoved : MovedOn s s' k n) (hki : (k : ℕ) = i)
    (hopen : (s.open_file_fd_table k).idx ≠ NO_OPENED_FILE) (hnonneg : 0 ≤ (s.open_file_fd_table k).offset.toInt) :
    s'.offsetOf i = some ((s.open_file_fd_table k).offset.toInt.toNat + n) := by
  rw [offsetOf_open hki (by rw [hmoved.idx]; exact hopen), hmoved.offset]
  congr 1
  omega

theorem LeavesOthers.store_eq (h : LeavesOthers s s' i k) (hnames : NameTable s) (hfind : findFileIndexByName s name = some i)
    (hki : (k : ℕ) = i) {g : StoredFile → StoredFile} (hself : s'.file i = g (s.file i)) :
    s'.store = s.store.change name g := by
  refine store_change hnames hfind h.file_count hself fun j hj hji => ?_
  refine file_congr (congrArg FileDescriptor.name (h.descriptors j hji)) (h.contents j hj hji) fun l hl => h.entries l ?_
  rintro rfl
  exact hji (Fin.ext (hl.symm.trans hki))

theorem read_step (h : Consistent s chain) (hnames : NameTable s) (hslots : SlotsMatch s) (hsize : 0 ≤ size.toInt)
    {st : FileReadStatus} {bytes : List Int8} (hr : (read name size s).result = .ok ((st,bytes),s')) :
    StoreStep s.store (.call (.read name size) (.read st bytes)) s'.store := by
  have hread := hr
  unfold read at hread
  cases hfind : findFileIndexByName s name with
  | none =>
    rw [hfind] at hread
    cases hread
    exact .read_missing (not_has_of_none hfind)
  | some i =>
    obtain ⟨hmem,hname⟩ := has_of_found hfind
    simp only [hfind, proceed_ok] at hread
    obtain ⟨k,hindex,hread⟩ := hread
    have hki : (k : ℕ) = i := by
      have heq := index_eq_ok hindex
      omega
    by_cases hopen : (s.open_file_fd_table k).idx = NO_OPENED_FILE
    · rw [if_pos hopen] at hread
      cases hread
      rw [← hname]
      exact .read_closed hmem (offsetOf_free hki hopen)
    · obtain ⟨hmatched,ho⟩ := hslots.matched h.opened hfind hki hopen
      obtain ⟨hi,-⟩ := find_live hfind
      obtain ⟨t,bs,ht,hdone,hothers⟩ := h.chained.wellChained.readAt hi (h.room i hi) ho hsize
      rw [hmatched.read_eq, ht] at hr
      cases hr
      have hstep := StoreStep.read hmem (offsetOf_open hki hopen) hdone.bytes_eq
      rw [hname] at hstep
      have hstore : s'.store = s.store.change name fun f =>
          { f with offset := some ((s.open_file_fd_table k).offset.toInt.toNat + bytes.length) } := by
        refine hothers.store_eq hnames hfind hki ?_
        rw [State.file, hdone.moved.offsetOf hki hopen ho.offset_nonneg, hdone.contents, hdone.descriptor]
        rfl
      rw [hstore]
      exact hstep

theorem write_step (h : Consistent s chain) (hnames : NameTable s) (hslots : SlotsMatch s)
    (hsafe : OffsetSafe s (.write name buffer size)) {st : FileWriteStatus}
    (hr : (write name buffer size s).result = .ok (st,s')) :
    StoreStep s.store (.call (.write name buffer size) (.write st)) s'.store := by
  have hwrite := hr
  unfold write at hwrite
  cases hfind : findFileIndexByName s name with
  | none =>
    rw [hfind] at hwrite
    cases hwrite
    exact .write_missing (not_has_of_none hfind)
  | some i =>
    obtain ⟨hmem,hname⟩ := has_of_found hfind
    simp only [hfind, proceed_ok] at hwrite
    obtain ⟨k,hindex,hwrite⟩ := hwrite
    have hki : (k : ℕ) = i := by
      have heq := index_eq_ok hindex
      omega
    by_cases hopen : (s.open_file_fd_table k).idx = NO_OPENED_FILE
    · rw [if_pos hopen] at hwrite
      cases hwrite
      rw [← hname]
      exact .write_closed hmem (offsetOf_free hki hopen)
    · obtain ⟨hmatched,ho⟩ := hslots.matched h.opened hfind hki hopen
      have hsize := hsafe.1
      obtain ⟨st',t,ht,hothers,hdone⟩ := h.written hmatched.writing hsafe
      rw [ht] at hr
      cases hr
      rcases hdone with ⟨rfl,hdone⟩ | ⟨rfl,rfl,rfl⟩
      · have hstep : StoreStep s.store (.call (.write (s.file i).name buffer size) (.write .FILE_WRITE_SUCCESS)) _ :=
          .written hmem (offsetOf_open hki hopen)
        rw [hname] at hstep
        have hmoved : MovedOn s s' k (size.toInt.toNat : ℤ) := by
          rw [Int.toNat_of_nonneg hsize]
          exact hdone.moved
        have hcontents : contents s' i = _ := hdone.contents
        have hname' : (s'.fd_table i).name = (s.fd_table i).name := hdone.name
        have hstore : s'.store = s.store.change name fun f => { f with
            bytes := splice f.bytes (s.open_file_fd_table k).offset.toInt.toNat (bytesFrom buffer 0 size.toInt.toNat)
            offset := some ((s.open_file_fd_table k).offset.toInt.toNat + size.toInt.toNat) } := by
          refine LeavesOthers.store_eq hothers hnames hfind hki ?_
          show s'.file i = _
          rw [State.file, hmoved.offsetOf hki hopen ho.offset_nonneg, hcontents, hname']
          rfl
        rw [hstore]
        exact hstep
      · rw [← hname]
        exact .write_nothing hmem (offsetOf_open hki hopen)

theorem Deleted.all_closed (d : Deleted past name s s') (hslots : SlotsMatch s) (htables : Tables s)
    (hzero : (d.file_idx : ℕ) = 0) (honly : ∀ k, (s.open_file_fd_table k).idx ≠ NO_OPENED_FILE → (k : ℕ) = 0) :
    ∀ k, (s'.open_file_fd_table k).idx = NO_OPENED_FILE := by
  intro k
  rw [d.table_eq]
  refine closeOpened_first htables.opened.counted (fun l hl => ?_) d.closed
  have hidx := (hslots l).resolve_left hl
  have hl₀ := honly l hl
  exact ⟨hl₀,by omega⟩

theorem Consistent.delete (h : Consistent s chain) (d : Deleted past name s s') (hzero : (d.file_idx : ℕ) = 0)
    (hclosed : ∀ k, (s'.open_file_fd_table k).idx = NO_OPENED_FILE) : ∃ chain', Consistent s' chain' := by
  obtain ⟨chain',h'⟩ := h.chained.delete d hzero
  refine ⟨chain',h',fun j hj => ?_,fun j hj => ?_,fun k => Or.inl (hclosed k),?_⟩
  · obtain ⟨i,-,hi,heq⟩ := d.comes_from hj
    rw [heq]
    exact h.size_nonneg i hi
  · obtain ⟨i,hij,hi,heq⟩ := d.comes_from hj
    have hne : i ≠ d.file_idx := by
      rintro rfl
      omega
    have hkept := d.chain_kept h.chained.wellChained hi hne
    rw [← heq] at hkept
    have hsame : chain' j = chain i := Seg.unique blockPtr_injective blockPtr_ne_end (h'.seg j hj) hkept
    rw [heq, hsame]
    exact h.room i hi
  · rw [d.result]
    exact h.malfunction_flag

theorem offsetOf_closed (hclosed : ∀ k : Fin NUM_OPENED_FILES, (k : ℕ) = i → (s.open_file_fd_table k).idx = NO_OPENED_FILE) :
    s.offsetOf i = none := by
  by_cases hlt : (i : ℕ) < NUM_OPENED_FILES
  · exact offsetOf_free (k := ⟨i,hlt⟩) rfl (hclosed _ rfl)
  · rw [State.offsetOf, dif_neg hlt]

/-- The other files move down by one place. -/
theorem Deleted.store_tail (d : Deleted past name s s') (h : WellChained s chain) (hzero : (d.file_idx : ℕ) = 0)
    (honly : ∀ k, (s.open_file_fd_table k).idx ≠ NO_OPENED_FILE → (k : ℕ) = 0)
    (hclosed : ∀ k, (s'.open_file_fd_table k).idx = NO_OPENED_FILE) : s'.store = s.store.tail := by
  refine d.inUse_tail fun i j hi hij hentry => ?_
  have hne : i ≠ d.file_idx := by
    rintro rfl
    omega
  have hold : s.offsetOf i = none := offsetOf_closed fun k hk => by
    by_contra hused
    have hk₀ := honly k hused
    omega
  rw [State.file, State.file, hentry, d.other_contents h hi hne hentry, offsetOf_closed fun k _ => hclosed k, hold]

theorem NameTable.tail_eq_filter (hnames : NameTable s) (hfind : findFileIndexByName s name = some i)
    (hzero : (i : ℕ) = 0) : s.store.tail = s.store.filter fun f => f.name ≠ name := by
  obtain ⟨hi,hname⟩ := find_live hfind
  refine inUse_tail_eq_filter hi hzero (decide_eq_false (not_not_intro hname)) fun j hj hji => ?_
  rw [decide_eq_true_eq]
  exact fun heq => hnames.distinct j i hj hi hji (heq.trans hname.symm)

/-- What `delete_` does to the program when the first file is deleted. -/
theorem delete_step (h : Consistent s chain) (hnames : NameTable s) (hslots : SlotsMatch s) (htables : Tables s)
    (hproper : ∀ i ∈ findFileIndexByName s name, (i : ℕ) = 0 ∧
      ∀ k, (s.open_file_fd_table k).idx ≠ NO_OPENED_FILE → (k : ℕ) = 0)
    {st : FileDeleteStatus} (hr : (delete_ past name s).result = .ok (st,s')) :
    StoreStep s.store (.call (.delete_ name) (.delete_ st)) s'.store ∧ SlotsMatch s' ∧ ∃ chain', Consistent s' chain' := by
  rcases delete_cases hr with ⟨hne,rfl⟩ | ⟨rfl,⟨d⟩⟩
  · refine ⟨?_,hslots,chain,h⟩
    cases hfind : findFileIndexByName s' name with
    | none =>
      rw [delete_, hfind] at hr
      cases hr
      exact .delete_missing (not_has_of_none hfind)
    | some i =>
      simp only [delete_, hfind, proceed_ok] at hr
      obtain ⟨_,-,_,-,_,-,_,-,hdone⟩ := hr
      exact absurd (congrArg Prod.fst (Except.ok.inj hdone)).symm hne
  · obtain ⟨hzero,honly⟩ := hproper _ d.found
    have hclosed := d.all_closed hslots htables hzero honly
    have hold := has_of_found d.found
    refine ⟨?_,fun k => Or.inl (hclosed k),h.delete d hzero hclosed⟩
    rw [d.store_tail h.chained.wellChained hzero honly hclosed, hnames.tail_eq_filter d.found hzero]
    exact .deleted ⟨_,hold⟩

/-- Where the files of `s` have been saved, the program starts with them, and without open files. -/
def State.restarted (raw s : State) : State :=
  (raw.restored s.memory s.fat s.fd_table {} s.file_count).closed

theorem restart_step {raw : State} (hm : Stored m) (hflag : raw.malfunction_flag = false) :
    construct raw m.d = saved () (raw.restarted m.s) ∧ StoreStep m.s.store (.restart raw) (raw.restarted m.s).store ∧
      Stored ⟨raw.restarted m.s,m.d.puts (saveToDisk (raw.restarted m.s))⟩ := by
  obtain ⟨log,hlog,hdisk⟩ := hm.saved
  obtain ⟨chain,h⟩ := hm.consistent
  have hrestore := restore_files raw m.s.memory m.s.fat m.s.fd_table log m.s.file_count
  rw [restore_descriptors hm.plain] at hrestore
  have hrepair : repair (raw.restored m.s.memory m.s.fat m.s.fd_table log m.s.file_count) = .ok _ := repair_idle hlog
  have hstore : (raw.restarted m.s).store = m.s.store.map fun f => { f with offset := none } := by
    refine store_map rfl fun i _ => ?_
    rw [State.file, offsetOf_closed fun _ _ => rfl]
    rfl
  have hidle : Idle (raw.restarted m.s) := rfl
  refine ⟨?_,?_,?_⟩
  · have hconstruct := construct_ok hrestore hrepair
    rw [hdisk]
    exact hconstruct
  · rw [hstore]
    exact .restarted _ raw
  · constructor
    · exact ⟨chain,h.chained.congr rfl rfl fun _ => rfl,h.size_nonneg,h.room,fun _ => Or.inl rfl,hflag⟩
    · exact hm.names.congr rfl fun _ => rfl
    · exact hm.plain
    · exact fun _ => Or.inl rfl
    · exact ⟨hm.names.count_nonneg,hm.names.count_le,(tables_empty false).opened⟩
    · exact hidle
    · exact savedOn_disk hidle

theorem Stored.next_restart {raw : State} (hm : Stored m) (hflag : raw.malfunction_flag = false) :
    m.next past (.restart raw) = some ⟨raw.restarted m.s,m.d.puts (saveToDisk (raw.restarted m.s))⟩ := by
  rw [Machine.next, (restart_step hm hflag).1]
  rfl

theorem SlotsMatch.keep (h : SlotsMatch s) (hidx : ∀ k, (s'.open_file_fd_table k).idx = NO_OPENED_FILE ∨
    (s'.open_file_fd_table k).idx = (s.open_file_fd_table k).idx) : SlotsMatch s' := by
  intro k
  rcases hidx k with hfree | hsame
  · exact Or.inl hfree
  · rw [hsame]
    exact h k

theorem SlotsMatch.update (h : SlotsMatch s) {file : OpenedFile}
    (htable : s'.open_file_fd_table = Function.update s.open_file_fd_table k file)
    (hfile : file.idx = NO_OPENED_FILE ∨ file.idx.toInt = (k : ℕ)) : SlotsMatch s' := by
  intro l
  rw [htable]
  by_cases hl : l = k
  · rw [hl, Function.update_self]
    exact hfile
  · rw [Function.update_of_ne hl]
    exact h l

theorem HasWritten.slots {w : Writing name s} (hothers : LeavesOthers s s' w.fd_index w.k)
    (hdone : HasWritten s s' w.fd_index w.k buffer size) (h : SlotsMatch s) : SlotsMatch s' := by
  refine h.keep fun l => Or.inr ?_
  by_cases hl : l = w.k
  · rw [hl]
    exact hdone.moved.idx
  · rw [hothers.entries l hl]

theorem write_unsaved (h : Consistent s chain) (hsafe : OffsetSafe s (.write name buffer size)) {st : FileWriteStatus}
    (hr : (write name buffer size s).result = .ok (st,s')) (hst : st ≠ .FILE_WRITE_SUCCESS) :
    (write name buffer size s).saves = [] ∧ s' = s := by
  cases hfind : findFileIndexByName s name with
  | none =>
    rw [write, hfind] at hr ⊢
    cases hr
    exact ⟨rfl,rfl⟩
  | some i =>
    have hwrite := hr
    simp only [write, hfind, proceed_ok] at hwrite
    obtain ⟨k,hindex,hwrite⟩ := hwrite
    by_cases hopen : (s.open_file_fd_table k).idx = NO_OPENED_FILE
    · rw [if_pos hopen] at hwrite
      cases hwrite
      refine ⟨?_,rfl⟩
      simp only [write, hfind, hindex, proceed, if_pos hopen]
      rfl
    · rw [if_neg hopen] at hwrite
      obtain ⟨fd_index,hdescriptor,-⟩ := proceed_ok.mp hwrite
      let w : Writing name s := ⟨i,k,fd_index,hfind,hindex,hopen,hdescriptor⟩
      obtain ⟨st',t,ht,-,hdone⟩ := h.written w hsafe
      obtain ⟨rfl,rfl⟩ := Prod.mk.inj (Except.ok.inj (ht.symm.trans hr))
      rcases hdone with ⟨rfl,-⟩ | ⟨rfl,rfl,rfl⟩
      · exact absurd rfl hst
      · refine ⟨?_,rfl⟩
        have hle : ¬ w.file.size.toInt < w.new_size 0 := by
          have ho := (h.target w).2.offset_le
          show ¬ (t.fd_table fd_index).size.toInt < (t.open_file_fd_table k).offset.toInt + 0
          exact not_lt.mpr (by rw [add_zero]; exact ho)
        rw [w.write_eq, if_neg hle] at hr ⊢
        obtain ⟨found,hseek,hr⟩ := proceed_ok.mp hr
        rw [writeAt, hseek]
        cases found with
        | none => rfl
        | some block_idx =>
          obtain ⟨memory,-,hr⟩ := proceed_ok.mp hr
          cases hr

theorem proceed_unsaved {α β : Type} {e : Except Stop α} {g : α → Outcome β} (h : ∀ a, e = .ok a → (g a).saves = []) :
    (proceed e g).saves = [] := by
  cases e with
  | error e => rfl
  | ok a => exact h a rfl

theorem create_unsaved {st : FileCreateStatus} (hr : (create name size s).result = .ok (st,s'))
    (hst : st ≠ .FILE_CREATE_SUCCESS) : (create name size s).saves = [] := by
  unfold create at hr ⊢
  split_ifs at hr ⊢
  · rfl
  · rfl
  · rfl
  · rfl
  · cases hfirst : firstFreeBlock s.fat with
    | none => rfl
    | some b =>
      simp only [hfirst, proceed_ok] at hr
      obtain ⟨_,-,_,-,hdone⟩ := hr
      exact absurd (congrArg Prod.fst (Except.ok.inj hdone)).symm hst

theorem open_unsaved : (open_ name s).saves = [] := by
  unfold open_
  split_ifs
  · rfl
  · cases findFileIndexByName s name with
    | none => rfl
    | some i => exact proceed_unsaved fun _ _ => rfl

theorem close_unsaved : (close name s).saves = [] := by
  refine proceed_unsaved fun k _ => ?_
  split_ifs
  · rfl
  · rfl

theorem read_unsaved : (read name size s).saves = [] := by
  unfold read
  cases findFileIndexByName s name with
  | none => rfl
  | some i =>
    refine proceed_unsaved fun k _ => ?_
    split_ifs
    · rfl
    · refine proceed_unsaved fun fd_index _ => ?_
      unfold readAt
      dsimp only
      split_ifs
      · rfl
      all_goals exact proceed_unsaved fun _ _ => proceed_unsaved fun _ _ => rfl

theorem delete_unsaved {st : FileDeleteStatus} (hr : (delete_ past name s).result = .ok (st,s'))
    (hst : st ≠ .FILE_DELETE_SUCCESS) : (delete_ past name s).saves = [] := by
  unfold delete_ at hr ⊢
  cases hfind : findFileIndexByName s name with
  | none => rfl
  | some i =>
    simp only [hfind, proceed_ok] at hr
    obtain ⟨_,-,_,-,_,-,_,-,hdone⟩ := hr
    exact absurd (congrArg Prod.fst (Except.ok.inj hdone)).symm hst

/-- What a proper call does to the store and to the invariant. -/
structure Stepped (past : Option FileDescriptor) (s s' : State) (call : Call) (reply : Reply) : Prop where
  store : StoreStep s.store (.call call reply) s'.store
  slots : SlotsMatch s'
  consistent : ∃ chain, Consistent s' chain
  unsaved : reply.hasSaved = false → (perform past call s).saves = [] ∧ SameFiles s s'

theorem Stored.stepped (hm : Stored m) {call : Call} {reply : Reply} (hproper : Proper m (.call call reply))
    (hr : (perform past call m.s).result = .ok (reply,s')) : Stepped past m.s s' call reply := by
  obtain ⟨chain,h⟩ := hm.consistent
  cases call with
  | create name size =>
    have hsize : 0 ≤ size.toInt := hproper.1
    have hconsistent := h.perform (show OffsetSafe m.s (.create name size) from Or.inl hsize) hr
    obtain ⟨st,hcreate,rfl⟩ := map_ok.mp hr
    refine ⟨create_step h hm.names hm.slots hsize hcreate,?_,hconsistent,fun hsaved => ?_⟩
    · rcases create_cases hcreate with ⟨-,rfl⟩ | ⟨-,⟨c⟩⟩
      · exact hm.slots
      · rw [c.result]
        exact hm.slots
    · have hst : st ≠ .FILE_CREATE_SUCCESS := by
        rintro rfl
        cases hsaved
      refine ⟨create_unsaved hcreate hst,?_⟩
      rcases create_cases hcreate with ⟨-,rfl⟩ | ⟨rfl,-⟩
      · exact SameFiles.refl m.s
      · exact absurd rfl hst
  | open_ name =>
    have hconsistent := h.perform (show OffsetSafe m.s (.open_ name) from trivial) hr
    obtain ⟨st,hopen,rfl⟩ := map_ok.mp hr
    refine ⟨open_step hm.names hm.tables hproper hopen,?_,hconsistent,fun _ => ⟨open_unsaved,?_⟩⟩
    · rcases open_cases hopen with ⟨-,rfl⟩ | ⟨-,i,k,hfind,hslot,rfl⟩
      · exact hm.slots
      · have hki : (k : ℕ) = i := hproper i hfind k (by rw [hslot]; rfl)
        refine hm.slots.update rfl (Or.inr ?_)
        rw [hki]
        exact toInt_fileIndex i
    · rcases open_cases hopen with ⟨-,rfl⟩ | ⟨-,i,k,-,-,rfl⟩
      · exact SameFiles.refl m.s
      · exact ⟨rfl,rfl,rfl,rfl⟩
  | close name =>
    have hconsistent := h.perform (show OffsetSafe m.s (.close name) from trivial) hr
    obtain ⟨st,hclose,rfl⟩ := map_ok.mp hr
    refine ⟨close_step hm.names hm.slots hclose,?_,hconsistent,fun _ => ⟨close_unsaved,?_⟩⟩
    · rcases close_cases hclose with rfl | ⟨k,-,-,rfl⟩
      · exact hm.slots
      · exact hm.slots.update rfl (Or.inl rfl)
    · rcases close_cases hclose with rfl | ⟨k,-,-,rfl⟩
      · exact SameFiles.refl m.s
      · exact ⟨rfl,rfl,rfl,rfl⟩
  | read name size =>
    have hconsistent := h.perform (show OffsetSafe m.s (.read name size) from hproper) hr
    obtain ⟨st,hread,rfl⟩ := map_ok.mp hr
    refine ⟨read_step h hm.names hm.slots hproper hread,?_,hconsistent,fun _ => ⟨read_unsaved,?_⟩⟩
    · rcases read_cases hread with rfl | ⟨k,n,rfl⟩
      · exact hm.slots
      · refine hm.slots.keep fun l => Or.inr ?_
        by_cases hl : l = k
        · rw [hl]
          exact (congrArg OpenedFile.idx (Function.update_self ..) : (m.s.advance k n |>.open_file_fd_table k).idx = _)
        · exact congrArg OpenedFile.idx (Function.update_of_ne hl ..)
    · rcases read_cases hread with rfl | ⟨k,n,rfl⟩
      · exact SameFiles.refl m.s
      · exact ⟨rfl,rfl,rfl,rfl⟩
  | write name buffer size =>
    have hsafe : OffsetSafe m.s (.write name buffer size) := hproper
    have hconsistent := h.perform hsafe hr
    obtain ⟨st,hwrite,rfl⟩ := map_ok.mp hr
    refine ⟨write_step h hm.names hm.slots hsafe hwrite,?_,hconsistent,fun hsaved => ?_⟩
    · have hw : s' = m.s ∨ Nonempty (Writing name m.s) := by
        rcases write_cases hwrite with ⟨-,heq⟩ | ⟨w,-⟩
        · exact Or.inl heq
        · exact Or.inr ⟨w⟩
      rcases hw with rfl | ⟨⟨w⟩⟩
      · exact hm.slots
      · obtain ⟨st',t,ht,hothers,hdone⟩ := h.written w hsafe
        obtain ⟨-,rfl⟩ := Prod.mk.inj (Except.ok.inj (ht.symm.trans hwrite))
        rcases hdone with ⟨-,hdone⟩ | ⟨-,-,rfl⟩
        · exact hdone.slots hothers hm.slots
        · exact hm.slots
    · have hst : st ≠ .FILE_WRITE_SUCCESS := by
        rintro rfl
        cases hsaved
      obtain ⟨hsaves,rfl⟩ := write_unsaved h hsafe hwrite hst
      exact ⟨hsaves,SameFiles.refl m.s⟩
  | delete_ name =>
    obtain ⟨st,hdelete,rfl⟩ := map_ok.mp hr
    obtain ⟨hstore,hslots,hconsistent⟩ := delete_step h hm.names hm.slots hm.tables hproper hdelete
    refine ⟨hstore,hslots,hconsistent,fun hsaved => ?_⟩
    have hst : st ≠ .FILE_DELETE_SUCCESS := by
      rintro rfl
      cases hsaved
    refine ⟨delete_unsaved hdelete hst,?_⟩
    rcases delete_cases hdelete with ⟨-,rfl⟩ | ⟨rfl,-⟩
    · exact SameFiles.refl m.s
    · exact absurd rfl hst

theorem Proper.newlineFree {call : Call} {reply : Reply} (h : Proper m (.call call reply)) : NewlineFree call := by
  cases call with
  | create name size => exact h.2
  | open_ name => exact trivial
  | close name => exact trivial
  | read name size => exact trivial
  | write name buffer size => exact trivial
  | delete_ name => exact trivial

/-- A proper event is a step of the store, and keeps the invariant. -/
theorem Stored.next (hm : Stored m) {event : Event} (hproper : Proper m event) (hnext : m.next past event = some m') :
    Stored m' ∧ StoreStep m.s.store event m'.s.store := by
  cases event with
  | call call reply =>
    obtain ⟨hr,hd⟩ := next_call hnext
    obtain ⟨hstore,hslots,hconsistent,hunsaved⟩ := hm.stepped hproper hr
    have hstep : step past m.s call = some m'.s := by
      rw [step, hr]
      rfl
    have hidle := hm.idle.perform hr
    refine ⟨⟨hconsistent,hm.names.step hstep,perform_plain hm.plain hproper.newlineFree hr,hslots,
      hm.tables.perform hr,hidle,?_⟩,hstore⟩
    rw [hd]
    by_cases hsaved : reply.hasSaved = true
    · obtain ⟨before,hsaves⟩ := perform_saves hr hsaved
      rw [hsaves, Disk.puts, List.foldl_append]
      exact savedOn_disk hidle
    · obtain ⟨hsaves,hsame⟩ := hunsaved (Bool.eq_false_of_not_eq_true hsaved)
      obtain ⟨log,hlog,hdisk⟩ := hm.saved
      rw [hsaves]
      refine ⟨log,hlog,?_⟩
      rw [hsame.memory, hsame.fat, hsame.fd_table, hsame.file_count]
      exact hdisk
  | restart raw =>
    obtain ⟨-,hstore,ht⟩ := restart_step hm hproper
    obtain rfl := Option.some.inj ((hm.next_restart hproper).symm.trans hnext)
    exact ⟨ht,hstore⟩

theorem stored_empty : Stored Machine.empty :=
  ⟨⟨_,consistent_empty⟩,nameTable_empty false,fun _ => List.not_mem_nil,fun _ => Or.inl rfl,tables_empty false,rfl,
    savedOn_disk rfl⟩

theorem store_empty : Machine.empty.s.store = [] := rfl

/-- Whatever is called, and whenever the program is started again, its files are those of
a store to which the same happens, as long as the calls are proper. -/
theorem file_system_refines_store {events : List Event}
    (hproper : Meets (Machine.next past) Proper Machine.empty events)
    (hrun : run (Machine.next past) Machine.empty events = some m) : Traces StoreStep [] events m.s.store := by
  have hstep : ∀ (m : Machine) (event : Event) (m' : Machine), Stored m → Proper m event →
      m.next past event = some m' → Stored m' ∧ StoreStep m.s.store event m'.s.store :=
    fun _ _ _ hm hevent hnext => hm.next hevent hnext
  rw [← store_empty]
  exact (hproper.simulates hstep stored_empty hrun).2

/-- What is written before a new start is read after it. -/
theorem file_survives_restart : ∃ m, run (Machine.next none) Machine.empty
    [.call (.create ['a'] 0) (.create .FILE_CREATE_SUCCESS),.call (.open_ ['a']) (.open_ .FILE_OPEN_SUCCESS),
      .call (.write ['a'] (fun _ => 7) 3) (.write .FILE_WRITE_SUCCESS),.restart (emptyFileSystem false),
      .call (.open_ ['a']) (.open_ .FILE_OPEN_SUCCESS),.call (.read ['a'] 5) (.read .FILE_READ_SUCCESS [7,7,7])] = some m ∧
    Traces StoreStep [] [.call (.create ['a'] 0) (.create .FILE_CREATE_SUCCESS),
      .call (.open_ ['a']) (.open_ .FILE_OPEN_SUCCESS),.call (.write ['a'] (fun _ => 7) 3) (.write .FILE_WRITE_SUCCESS),
      .restart (emptyFileSystem false),.call (.open_ ['a']) (.open_ .FILE_OPEN_SUCCESS),
      .call (.read ['a'] 5) (.read .FILE_READ_SUCCESS [7,7,7])] m.s.store := by
  let before : List Event := [.call (.create ['a'] 0) (.create .FILE_CREATE_SUCCESS),
    .call (.open_ ['a']) (.open_ .FILE_OPEN_SUCCESS),.call (.write ['a'] (fun _ => 7) 3) (.write .FILE_WRITE_SUCCESS)]
  let after : List Event := [.call (.open_ ['a']) (.open_ .FILE_OPEN_SUCCESS),
    .call (.read ['a'] 5) (.read .FILE_READ_SUCCESS [7,7,7])]
  let raw := emptyFileSystem false
  have hruns : ((run (Machine.next none) Machine.empty before).any fun m =>
      let t := raw.restarted m.s
      (run (Machine.next none) ⟨t,m.d.puts (saveToDisk t)⟩ after).isSome &&
        Meets (Machine.next none) Proper ⟨t,m.d.puts (saveToDisk t)⟩ after) = true := by decide +kernel
  obtain ⟨m,hbefore,hm⟩ := (Option.any_eq_true _ _).mp hruns
  rw [Bool.and_eq_true, decide_eq_true_eq] at hm
  obtain ⟨u,hafter⟩ := Option.isSome_iff_exists.mp hm.1
  have hproper : Meets (Machine.next none) Proper Machine.empty before := by decide +kernel
  have hstored : Stored m := hproper.invariant (fun _ _ _ ht hevent hnext => (ht.next hevent hnext).1) stored_empty hbefore
  have hrestart := @Stored.next_restart m none raw hstored rfl
  have hrun : run (Machine.next none) Machine.empty (before ++ .restart raw :: after) = some u := by
    rw [run_append, hbefore]
    exact run_cons_iff.mpr ⟨_,hrestart,hafter⟩
  refine ⟨u,hrun,file_system_refines_store ?_ hrun⟩
  exact hproper.append hbefore ((meets_cons_of_some hrestart).mpr ⟨rfl,hm.2⟩)

end SOI.FileSystem

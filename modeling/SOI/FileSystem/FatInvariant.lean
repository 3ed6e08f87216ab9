import SOI.FileSystem.Growth

/-! # The FAT invariant

The chains of the files partition the blocks that are not free. Creating a file
with a size that is not negative, deleting the first file, and making a file longer
while there is room keep it that way.
-/
namespace SOI.FileSystem
open Linked Runs Texts
variable {s s' t : State} {chain : Fin NUM_FILES → List Block} {name : Text} {size : Int16} {past : Option FileDescriptor}

/-- The chains of the files in use are complete and apart from each other, and no
other block is taken. Entries that are not in use start nowhere. -/
structure Chained (s : State) (chain : Fin NUM_FILES → List Block) : Prop where
  count_nonneg : 0 ≤ s.file_count.toInt
  count_le : s.file_count.toInt ≤ NUM_FILES
  seg : ∀ i, Live s i → Chain s.fat (s.fd_table i).starting_block (chain i)
  nonempty : ∀ i, Live s i → chain i ≠ []
  apart : ∀ i j, Live s i → Live s j → i ≠ j → (chain i).Disjoint (chain j)
  covered : ∀ b, s.fat b ≠ FREE_BLOCK → ∃ i, Live s i ∧ b ∈ chain i
  vacant : ∀ i, ¬ Live s i → (s.fd_table i).starting_block = -1

/-- The chains of the files in use are complete and apart from each other; other
blocks may be taken as well. -/
structure WellChained (s : State) (chain : Fin NUM_FILES → List Block) : Prop where
  seg : ∀ i, Live s i → Chain s.fat (s.fd_table i).starting_block (chain i)
  nonempty : ∀ i, Live s i → chain i ≠ []
  apart : ∀ i j, Live s i → Live s j → i ≠ j → (chain i).Disjoint (chain j)

theorem Chained.wellChained (h : Chained s chain) : WellChained s chain := ⟨h.seg,h.nonempty,h.apart⟩

/-- What the FAT of a file system should be like. -/
structure FatInvariant (s : State) : Prop where
  chained : ∃ chain : Fin NUM_FILES → List Block,
    (∀ i, Live s i → Chain s.fat (s.fd_table i).starting_block (chain i) ∧ chain i ≠ [] ∧
      (∀ b ∈ chain i, s.fat b ≠ FREE_BLOCK) ∧ (chain i).length ≤ NUM_BLOCKS) ∧
    (∀ i j, Live s i → Live s j → i ≠ j → (chain i).Disjoint (chain j)) ∧
    ∀ b, s.fat b ≠ FREE_BLOCK → ∃ i, Live s i ∧ b ∈ chain i

theorem Chained.invariant (h : Chained s chain) : FatInvariant s :=
  ⟨chain,fun i hi => ⟨h.seg i hi,h.nonempty i hi,fun _ => Chain.used (h.seg i hi),Chain.length_le (h.seg i hi)⟩,
    h.apart,h.covered⟩

theorem Chained.congr (h : Chained s chain) (hfat : t.fat = s.fat) (hcount : t.file_count = s.file_count)
    (hstart : ∀ i, (t.fd_table i).starting_block = (s.fd_table i).starting_block) : Chained t chain := by
  have hlive : ∀ i, Live t i ↔ Live s i := fun i => by rw [Live, Live, hcount]
  refine ⟨?_,?_,fun i hi => ?_,fun i hi => ?_,fun i j hi hj => ?_,fun b hb => ?_,fun i hi => ?_⟩
  · rw [hcount]
    exact h.count_nonneg
  · rw [hcount]
    exact h.count_le
  · rw [hfat, hstart]
    exact h.seg i ((hlive i).mp hi)
  · exact h.nonempty i ((hlive i).mp hi)
  · exact h.apart i j ((hlive i).mp hi) ((hlive j).mp hj)
  · rw [hfat] at hb
    obtain ⟨i,hi,hbi⟩ := h.covered b hb
    exact ⟨i,(hlive i).mpr hi,hbi⟩
  · rw [hstart]
    exact h.vacant i (mt (hlive i).mpr hi)

theorem SameEntries.chained (hst : SameEntries s t) (hfat : t.fat = s.fat) (h : Chained s chain) : Chained t chain :=
  h.congr hfat hst.file_count hst.starting_block

theorem chained_empty (flag : Bool) : Chained (emptyFileSystem flag) fun _ => [] := by
  have hlive : ∀ i, ¬ Live (emptyFileSystem flag) i := fun i hi => by
    have hlt : (i : ℤ) < 0 := hi
    omega
  have hcount : (0 : Int16).toInt ≤ NUM_FILES := by decide
  exact ⟨le_rfl,hcount,fun i hi => absurd hi (hlive i),fun i hi => absurd hi (hlive i),
    fun i _ hi => absurd hi (hlive i),fun b hb => absurd rfl hb,fun _ _ => rfl⟩

theorem toInt_add_one {n : Int16} (h : 0 ≤ n.toInt) (hlt : n.toInt < NUM_FILES) : (n + 1).toInt = n.toInt + 1 := by
  rw [Int16.toInt_add]
  have hone : (1 : Int16).toInt = 1 := rfl
  rw [hone]
  refine Int.bmod_eq_of_le ?_ ?_ <;> push_cast at hlt ⊢ <;> omega

theorem toInt_sub_one {n : Int16} (h : 0 < n.toInt) : (n - 1).toInt = n.toInt - 1 := by
  rw [Int16.toInt_sub]
  have hone : (1 : Int16).toInt = 1 := rfl
  have hlt := n.toInt_lt
  rw [hone]
  refine Int.bmod_eq_of_le ?_ ?_ <;> push_cast at * <;> omega

theorem Created.count_nonneg (c : Created name size s s') : 0 ≤ s.file_count.toInt := by
  have hi := c.index_eq
  omega

theorem Created.count_eq (c : Created name size s s') : s'.file_count.toInt = s.file_count.toInt + 1 := by
  have hcount : s'.file_count = s.file_count + 1 := congrArg State.file_count c.result
  rw [hcount, toInt_add_one c.count_nonneg c.not_full]

theorem Created.live_iff (c : Created name size s s') (j : Fin NUM_FILES) : Live s' j ↔ j = c.i ∨ Live s j := by
  have hcount := c.count_eq
  have hi := c.index_eq
  rw [Live, Live, hcount, Fin.ext_iff]
  omega

theorem Created.not_live (c : Created name size s s') : ¬ Live s c.i := by
  have hi := c.index_eq
  unfold Live
  omega

theorem Created.ne_of_live (c : Created name size s s') {j : Fin NUM_FILES} (hj : Live s j) : j ≠ c.i := by
  rintro rfl
  exact c.not_live hj

theorem Created.fd_table (c : Created name size s s') :
    s'.fd_table = Function.update s.fd_table c.i ⟨name,blockPtr c.starting_block,size⟩ :=
  congrArg State.fd_table c.result

theorem Created.entry_of_ne (c : Created name size s s') {j : Fin NUM_FILES} (hj : j ≠ c.i) :
    s'.fd_table j = s.fd_table j := by
  rw [c.fd_table, Function.update_of_ne hj]

theorem Created.entry_self (c : Created name size s s') :
    s'.fd_table c.i = ⟨name,blockPtr c.starting_block,size⟩ := by
  rw [c.fd_table, Function.update_self]

theorem WellChained.create (h : WellChained s chain) (c : Created name size s s') (hsize : 0 ≤ size.toInt) :
    ∃ xs, WellChained s' (Function.update chain c.i (c.starting_block :: xs)) ∧
      blocksFor size.toInt ≤ (c.starting_block :: xs).length ∧
      (∀ b ∈ c.starting_block :: xs, s.fat b = FREE_BLOCK) ∧ ∀ b ∉ c.starting_block :: xs, s'.fat b = s.fat b := by
  obtain ⟨xs,hchain,hlen,hfree,hframe⟩ := markNewFile_chain (firstFree_free c.first) hsize c.marked
  have hfat : s'.fat = c.fat := congrArg State.fat c.result
  have hlive := c.live_iff
  have hold : ∀ j, Live s j → j ≠ c.i := fun j hj => c.ne_of_live hj
  have hout : ∀ j, Live s j → ∀ b ∈ chain j, b ∉ c.starting_block :: xs := fun j hj b hb hin =>
    Chain.used (h.seg j hj) hb (hfree b hin)
  refine ⟨xs,⟨fun j hj => ?_,fun j hj => ?_,fun j k hj hk hjk => ?_⟩,hlen,hfree,fun b hb => by rw [hfat, hframe b hb]⟩
  · rw [c.fd_table, hfat]
    rcases (hlive j).mp hj with rfl | hj
    · rw [Function.update_self, Function.update_self]
      exact hchain
    · rw [Function.update_of_ne (hold j hj), Function.update_of_ne (hold j hj)]
      exact (h.seg j hj).congr fun b hb => hframe b (hout j hj b hb)
  · rcases (hlive j).mp hj with rfl | hj
    · rw [Function.update_self]
      exact List.cons_ne_nil _ _
    · rw [Function.update_of_ne (hold j hj)]
      exact h.nonempty j hj
  · rcases (hlive j).mp hj with rfl | hj <;> rcases (hlive k).mp hk with rfl | hk
    · exact absurd rfl hjk
    · rw [Function.update_self, Function.update_of_ne (hold k hk)]
      exact fun b hb hbk => hout k hk b hbk hb
    · rw [Function.update_self, Function.update_of_ne (hold j hj)]
      exact fun b hbj hb => hout j hj b hbj hb
    · rw [Function.update_of_ne (hold j hj), Function.update_of_ne (hold k hk)]
      exact h.apart j k hj hk hjk

theorem Chained.create (h : Chained s chain) (c : Created name size s s') (hsize : 0 ≤ size.toInt) :
    ∃ xs, Chained s' (Function.update chain c.i (c.starting_block :: xs)) ∧
      blocksFor size.toInt ≤ (c.starting_block :: xs).length ∧
      (∀ b ∈ c.starting_block :: xs, s.fat b = FREE_BLOCK) ∧ ∀ b ∉ c.starting_block :: xs, s'.fat b = s.fat b := by
  obtain ⟨xs,hwell,hlen,hfree,hframe⟩ := h.wellChained.create c hsize
  have hcount := c.count_eq
  have hnonneg := h.count_nonneg
  have hfull := c.not_full
  have hlive := c.live_iff
  refine ⟨xs,⟨by omega,by omega,hwell.seg,hwell.nonempty,hwell.apart,fun b hb => ?_,fun j hj => ?_⟩,hlen,hfree,hframe⟩
  · by_cases hin : b ∈ c.starting_block :: xs
    · exact ⟨c.i,(hlive c.i).mpr (Or.inl rfl),by rwa [Function.update_self]⟩
    · rw [hframe b hin] at hb
      obtain ⟨j,hj,hbj⟩ := h.covered b hb
      exact ⟨j,(hlive j).mpr (Or.inr hj),by rwa [Function.update_of_ne (c.ne_of_live hj)]⟩
  · rw [hlive, not_or] at hj
    rw [c.fd_table, Function.update_of_ne hj.1]
    exact h.vacant j hj.2

theorem WellChained.not_grown (h : WellChained s chain) {file_idx i : Fin NUM_FILES} {new_size : ℤ} (hi : Live s i)
    (hgrow : (grow file_idx i new_size s).result = .ok (false,s')) :
    ∃ x rest, chain i = x :: rest ∧ WellChained s' (Function.update chain i [x]) := by
  obtain ⟨x,rest,hchain⟩ := List.exists_cons_of_ne_nil (h.nonempty i hi)
  have hseg := h.seg i hi
  rw [hchain] at hseg
  have hsame := sameEntries_grow hgrow
  have hfirst := grow_fails_chain hseg hgrow
  have hframe := (grow_fails_frame hseg (List.cons_ne_nil x rest) hgrow).1
  refine ⟨x,rest,hchain,fun j hj => ?_,fun j hj => ?_,fun j k hj hk hjk => ?_⟩
  · rw [hsame.live] at hj
    rw [hsame.starting_block]
    by_cases hji : j = i
    · subst hji
      rwa [Function.update_self]
    · rw [Function.update_of_ne hji]
      refine (h.seg j hj).congr fun b hb => hframe b (fun hin => ?_) (Chain.used (h.seg j hj) hb)
      exact h.apart j i hj hi hji hb (by rwa [hchain])
  · rw [hsame.live] at hj
    by_cases hji : j = i
    · subst hji
      rw [Function.update_self]
      exact List.cons_ne_nil _ _
    · rw [Function.update_of_ne hji]
      exact h.nonempty j hj
  · rw [hsame.live] at hj hk
    have hsub : ∀ l, Function.update chain i [x] l ⊆ chain l := fun l => by
      by_cases hli : l = i
      · rw [hli, Function.update_self, hchain]
        exact List.cons_subset_cons x (List.nil_subset rest)
      · rw [Function.update_of_ne hli]
        exact List.Subset.refl _
    exact fun b hbj hbk => h.apart j k hj hk hjk (hsub j hbj) (hsub k hbk)

/-- A longer file keeps its chain in front of the new blocks. -/
theorem WellChained.grow (h : WellChained s chain) {file_idx i : Fin NUM_FILES} {new_size : ℤ} (hi : Live s i)
    (hgrow : (grow file_idx i new_size s).result = .ok (true,s')) :
    ∃ ys, ys.length = additionalBlocks s i new_size ∧ (∀ b ∈ ys, s.fat b = FREE_BLOCK) ∧
      WellChained s' (Function.update chain i (chain i ++ ys)) ∧ ∀ b ∉ chain i ++ ys, s'.fat b = s.fat b := by
  obtain ⟨ys,hlen,hchain,hfree,hframe,-⟩ := grow_enough (h.seg i hi) (h.nonempty i hi) hgrow
  have hsame := sameEntries_grow hgrow
  have hout : ∀ j, Live s j → j ≠ i → ∀ b ∈ chain j, b ∉ chain i ++ ys := by
    intro j hj hji b hb hin
    rcases List.mem_append.mp hin with hin | hin
    · exact h.apart j i hj hi hji hb hin
    · exact Chain.used (h.seg j hj) hb (hfree b hin)
  refine ⟨ys,hlen,hfree,⟨fun j hj => ?_,fun j hj => ?_,fun j k hj hk hjk => ?_⟩,hframe⟩
  · rw [hsame.live] at hj
    rw [hsame.starting_block]
    by_cases hji : j = i
    · subst hji
      rwa [Function.update_self]
    · rw [Function.update_of_ne hji]
      exact (h.seg j hj).congr fun b hb => hframe b (hout j hj hji b hb)
  · rw [hsame.live] at hj
    by_cases hji : j = i
    · subst hji
      rw [Function.update_self]
      simp [h.nonempty j hj]
    · rw [Function.update_of_ne hji]
      exact h.nonempty j hj
  · rw [hsame.live] at hj hk
    by_cases hji : j = i
    · subst hji
      rw [Function.update_self, Function.update_of_ne hjk.symm]
      exact fun b hb hbk => hout k hk hjk.symm b hbk hb
    · by_cases hki : k = i
      · subst hki
        rw [Function.update_self, Function.update_of_ne hji]
        exact fun b hbj hb => hout j hj hji b hbj hb
      · rw [Function.update_of_ne hji, Function.update_of_ne hki]
        exact h.apart j k hj hk hjk

theorem Chained.grow (h : Chained s chain) {file_idx i : Fin NUM_FILES} {new_size : ℤ} (hi : Live s i)
    (hgrow : (grow file_idx i new_size s).result = .ok (true,s')) :
    ∃ ys, ys.length = additionalBlocks s i new_size ∧ Chained s' (Function.update chain i (chain i ++ ys)) ∧
      ∀ b ∉ chain i ++ ys, s'.fat b = s.fat b := by
  obtain ⟨ys,hlen,-,hwell,hframe⟩ := h.wellChained.grow hi hgrow
  have hsame := sameEntries_grow hgrow
  refine ⟨ys,hlen,⟨?_,?_,hwell.seg,hwell.nonempty,hwell.apart,fun b hb => ?_,fun j hj => ?_⟩,hframe⟩
  · rw [hsame.file_count]
    exact h.count_nonneg
  · rw [hsame.file_count]
    exact h.count_le
  · by_cases hin : b ∈ chain i ++ ys
    · exact ⟨i,(hsame.live i).mpr hi,by rwa [Function.update_self]⟩
    · rw [hframe b hin] at hb
      obtain ⟨j,hj,hbj⟩ := h.covered b hb
      have hji : j ≠ i := by
        rintro rfl
        exact hin (List.mem_append_left _ hbj)
      exact ⟨j,(hsame.live j).mpr hj,by rwa [Function.update_of_ne hji]⟩
  · rw [hsame.live] at hj
    rw [hsame.starting_block]
    exact h.vacant j hj

theorem rollback_nothing (hp : s.transaction_log.in_progress = true)
    (hfirst : s.transaction_log.first_new_block = -1) (hlast : s.transaction_log.last_valid_block = -1)
    (h : transactionRollback s = .ok s') : s'.fat = s.fat := by
  obtain ⟨t,ht,u,hu,v,hv,rfl⟩ := (rollback_ok hp).mp h
  rw [restoreOriginalFileSize, if_neg (by simp [hlast])] at ht
  cases ht
  rw [clearNewAllocatedBlocks, if_neg (by simp [hfirst])] at hu
  cases hu
  rw [restoreEndOfChain, if_neg (by simp [hlast])] at hv
  cases hv
  rfl

/-- A file without a chain is to grow, and nothing has happened yet. -/
structure Unmoved (s t : State) : Prop where
  fat : t.fat = s.fat
  fd_table : t.fd_table = s.fd_table
  in_progress : t.transaction_log.in_progress = true
  first_new : t.transaction_log.first_new_block = -1
  last_valid : t.transaction_log.last_valid_block = -1

theorem grow_vacant {file_idx i : Fin NUM_FILES} {new_size : ℤ} {enough : Bool}
    (hstart : (s.fd_table i).starting_block = -1) (hgrow : (grow file_idx i new_size s).result = .ok (enough,s')) :
    s'.fat = s.fat := by
  obtain ⟨t,hextend,rfl⟩ := grow_cases hgrow
  have hbegin : Unmoved s { s with transaction_log := growLog s file_idx (s.fd_table i) new_size } :=
    ⟨rfl,rfl,rfl,rfl,hstart⟩
  have hstep : ∀ u v : State, Unmoved s u → Extended i u v → Unmoved s v := by
    intro u v hu e
    have hwalked := e.walked
    rw [hu.fd_table, hstart] at hwalked
    cases hwalked
  have hback : ∀ u v : State, Unmoved s u → firstFreeBlock u.fat = none → transactionRollback u = .ok v →
      v.fat = s.fat := fun u v hu _ hrollback =>
    (rollback_nothing hu.in_progress hu.first_new hu.last_valid hrollback).trans hu.fat
  rcases extendBy_induction hstep hback hbegin hextend with ⟨rfl,hu⟩ | ⟨rfl,hfat⟩
  · exact hu.fat
  · exact hfat

theorem Deleted.count_pos (c : Deleted past name s s') : 0 < s.file_count.toInt := by
  have hlive := (find_live c.found).1
  unfold Live at hlive
  omega

theorem Deleted.count_eq (c : Deleted past name s s') : s'.file_count.toInt = s.file_count.toInt - 1 := by
  have hcount : s'.file_count = s.file_count - 1 := congrArg State.file_count c.result
  rw [hcount, toInt_sub_one c.count_pos]

theorem Deleted.live_iff (d : Deleted past name s s') (j : Fin NUM_FILES) : Live s' j ↔ j < d.last := by
  have hcount := d.count_eq
  have hlast := d.last_eq
  rw [Live, hcount]
  omega

theorem Deleted.moved_down (d : Deleted past name s s') {i : Fin NUM_FILES} (hi : Live s i) (hpos : 0 < (i : ℕ)) :
    ∃ j : Fin NUM_FILES, (j : ℕ) + 1 = i ∧ Live s' j ∧ s'.fd_table j = s.fd_table i := by
  have hlast := d.last_eq
  unfold Live at hi
  let j : Fin NUM_FILES := ⟨i - 1,by omega⟩
  have hj : (j : ℕ) + 1 = i := Nat.sub_add_cancel hpos
  have hlt : j < d.last := by
    rw [Fin.lt_def]
    omega
  refine ⟨j,hj,(d.live_iff j).mpr hlt,?_⟩
  rcases d.entry j with ⟨hnext,-,heq⟩ | ⟨heq,-⟩ | ⟨hgt,-⟩
  · rw [heq]
    congr 1
    exact Fin.ext hj
  · exact absurd heq (ne_of_lt hlt)
  · exact absurd hgt (lt_asymm hlt)

theorem Deleted.comes_from (d : Deleted past name s s') {j : Fin NUM_FILES} (hj : Live s' j) :
    ∃ i : Fin NUM_FILES, (i : ℕ) = j + 1 ∧ Live s i ∧ s'.fd_table j = s.fd_table i := by
  have hlt := (d.live_iff j).mp hj
  rcases d.entry j with ⟨hnext,-,heq⟩ | ⟨heq,-⟩ | ⟨hgt,-⟩
  · refine ⟨⟨j + 1,hnext⟩,rfl,?_,heq⟩
    have hlast := d.last_eq
    unfold Live
    dsimp only
    omega
  · exact absurd heq (ne_of_lt hlt)
  · exact absurd hgt (lt_asymm hlt)

theorem Deleted.fat_eq (d : Deleted past name s s') {xs : List Block}
    (h : Chain s.fat (s.fd_table d.file_idx).starting_block xs) (b : Block) :
    s'.fat b = if b ∈ xs then FREE_BLOCK else s.fat b := by
  have hfat : s'.fat = d.fat := congrArg State.fat d.result
  rw [hfat, ← Except.ok.inj ((clearChain_complete h).symm.trans d.cleared)]

/-- Deleting the first file frees its chain. -/
theorem Chained.delete (h : Chained s chain) (d : Deleted past name s s') (hzero : (d.file_idx : ℕ) = 0) :
    ∃ chain', Chained s' chain' := by
  have hlive₀ := (find_live d.found).1
  have hpos := d.count_pos
  have hcount := d.count_eq
  have hle := h.count_le
  have hfat := d.fat_eq (h.seg _ hlive₀)
  choose! next hnext hlive hentry using fun j (hj : Live s' j) => d.comes_from hj
  have hne : ∀ j, Live s' j → next j ≠ d.file_idx := by
    intro j hj heq
    have hn := hnext j hj
    rw [heq, hzero] at hn
    omega
  have hother : ∀ j, Live s j → j ≠ d.file_idx → ∀ b ∈ chain j, s'.fat b = s.fat b := by
    intro j hj hj₀ b hb
    rw [hfat]
    exact if_neg fun hin => h.apart j _ hj hlive₀ hj₀ hb hin
  refine ⟨fun j => chain (next j),by omega,by omega,fun j hj => ?_,fun j hj => ?_,fun j k hj hk hjk => ?_,
    fun b hb => ?_,fun j hj => ?_⟩
  · rw [hentry j hj]
    exact (h.seg _ (hlive j hj)).congr (hother _ (hlive j hj) (hne j hj))
  · exact h.nonempty _ (hlive j hj)
  · apply h.apart _ _ (hlive j hj) (hlive k hk)
    intro heq
    have hn := hnext j hj
    rw [heq, hnext k hk] at hn
    exact hjk (Fin.ext (by omega))
  · have hb' : b ∉ chain d.file_idx ∧ s.fat b ≠ FREE_BLOCK := by
      rw [hfat] at hb
      by_cases hin : b ∈ chain d.file_idx
      · exact absurd (if_pos hin) hb
      · exact ⟨hin,by rwa [if_neg hin] at hb⟩
    obtain ⟨i,hi,hbi⟩ := h.covered b hb'.2
    have hi₀ : i ≠ d.file_idx := by
      rintro rfl
      exact hb'.1 hbi
    have hipos : 0 < (i : ℕ) := by
      rcases Nat.eq_zero_or_pos (i : ℕ) with hi' | hi'
      · exact absurd (Fin.ext (hi'.trans hzero.symm)) hi₀
      · exact hi'
    obtain ⟨j,hji,hj,-⟩ := d.moved_down hi hipos
    have hn : next j = i := Fin.ext ((hnext j hj).trans hji)
    exact ⟨j,hj,by rwa [hn]⟩
  · rw [d.live_iff] at hj
    rcases d.entry j with ⟨-,hlt,-⟩ | ⟨-,heq⟩ | ⟨hlt,heq⟩
    · exact absurd hlt hj
    · rw [heq]
      rfl
    · rw [heq]
      apply h.vacant j
      intro hl
      have hlast := d.last_eq
      unfold Live at hl
      omega

/-- The entries on which `write` works. -/
def writeTarget (name : Text) (s : State) : Option (Fin NUM_OPENED_FILES × Fin NUM_FILES) := do
  let file_idx ← findFileIndexByName s name
  let k ← (index NUM_OPENED_FILES file_idx).toOption
  if (s.open_file_fd_table k).idx = NO_OPENED_FILE then none
  else (index NUM_FILES (s.open_file_fd_table k).idx.toInt).toOption.map fun fd_index => (k,fd_index)

theorem Writing.slot_eq (w : Writing name s) : (w.k : ℤ) = w.file_idx := (index_eq_ok w.slot).symm

theorem Writing.target (w : Writing name s) : writeTarget name s = some (w.k,w.fd_index) := by
  simp [writeTarget, w.found, w.slot, w.is_open, w.descriptor, Except.toOption]

theorem exists_writing {r : Fin NUM_OPENED_FILES × Fin NUM_FILES} (h : writeTarget name s = some r) :
    ∃ w : Writing name s, (w.k,w.fd_index) = r := by
  have hok : ∀ {α : Type} {e : Except Stop α} {a : α}, e.toOption = some a → e = .ok a := by
    intro α e a he
    cases e with
    | error e => cases he
    | ok b =>
      cases he
      rfl
  simp only [writeTarget, Option.bind_eq_bind, Option.bind_eq_some_iff] at h
  obtain ⟨file_idx,hfind,k,hk,h⟩ := h
  split_ifs at h with hopen
  obtain ⟨i,hi,rfl⟩ := Option.map_eq_some_iff.mp h
  exact ⟨⟨file_idx,k,i,hfind,hok hk,hopen,hok hi⟩,rfl⟩

def GrowsWell (s : State) (i : Fin NUM_FILES) (new_size : ℤ) : Prop :=
  Live s i → (s.fd_table i).size.toInt < new_size →
    additionalBlocks s i new_size ≤ countFreeBlocks s.fat ∨
      ∃ b, (s.fd_table i).starting_block = blockPtr b ∧ s.fat b = END_OF_CHAIN

instance (s : State) (i : Fin NUM_FILES) (new_size : ℤ) : Decidable (GrowsWell s i new_size) :=
  inferInstanceAs (Decidable (_ → _ → _ ∨ _))

/-- `create` is not given a negative size (or rejects the file for another reason),
`delete_` is not given the name of a file behind the first one, and `write` does not
run out of blocks for a file of several blocks. -/
def FatSafe (s : State) : Call → Prop
  | .create name size => 0 ≤ size.toInt ∨ NUM_FILES ≤ s.file_count.toInt ∨ MAX_NAME_SIZE < name.length ∨
      name.length < MIN_NAME_SIZE ∨ duplicateName s name = true ∨ firstFreeBlock s.fat = none
  | .write name _ size => ∀ r ∈ writeTarget name s,
      GrowsWell s r.2 ((s.open_file_fd_table r.1).offset.toInt + size.toInt)
  | .delete_ name => ∀ i ∈ findFileIndexByName s name, (i : ℕ) = 0
  | _ => True

instance (s : State) : (call : Call) → Decidable (FatSafe s call)
  | .create _ _ => inferInstanceAs (Decidable (_ ∨ _))
  | .write name _ size => inferInstanceAs (Decidable (∀ r ∈ writeTarget name s,
      GrowsWell s r.2 ((s.open_file_fd_table r.1).offset.toInt + size.toInt)))
  | .delete_ name => inferInstanceAs (Decidable (∀ i ∈ findFileIndexByName s name, (i : ℕ) = 0))
  | .open_ _ => isTrue trivial
  | .close _ => isTrue trivial
  | .read _ _ => isTrue trivial

theorem Created.size_nonneg (c : Created name size s s') (hsafe : FatSafe s (.create name size)) : 0 ≤ size.toInt := by
  rcases hsafe with h | h | h | h | h | h
  · exact h
  · exact absurd c.not_full (not_lt.mpr h)
  · exact absurd c.name_fits.2 (not_le.mpr h)
  · exact absurd c.name_fits.1 (not_le.mpr h)
  · rw [c.fresh] at h
    cases h
  · rw [c.first] at h
    cases h

theorem advance_chained {k : Fin NUM_OPENED_FILES} (memory : Fin MEMORY_SIZE → Int8) (h : Chained s chain) :
    Chained (({ s with memory := memory } : State).advance k size) chain :=
  h.congr rfl rfl fun _ => rfl

theorem Chained.perform (h : Chained s chain) {call : Call} {r : Reply} (hsafe : FatSafe s call)
    (hresult : (perform past call s).result = .ok (r,s')) : ∃ chain', Chained s' chain' := by
  cases call with
  | create name size =>
    obtain ⟨st,hcreate,rfl⟩ := map_ok.mp hresult
    rcases create_cases hcreate with ⟨-,rfl⟩ | ⟨-,⟨c⟩⟩
    · exact ⟨chain,h⟩
    · obtain ⟨xs,hnew,-⟩ := h.create c (c.size_nonneg hsafe)
      exact ⟨_,hnew⟩
  | open_ name =>
    obtain ⟨st,hopen,rfl⟩ := map_ok.mp hresult
    rcases open_cases hopen with ⟨-,rfl⟩ | ⟨-,i,k,-,-,rfl⟩
    · exact ⟨chain,h⟩
    · exact ⟨chain,h.congr rfl rfl fun _ => rfl⟩
  | close name =>
    obtain ⟨st,hclose,rfl⟩ := map_ok.mp hresult
    rcases close_cases hclose with rfl | ⟨k,-,-,rfl⟩
    · exact ⟨chain,h⟩
    · exact ⟨chain,h.congr rfl rfl fun _ => rfl⟩
  | read name size =>
    obtain ⟨st,hread,rfl⟩ := map_ok.mp hresult
    rcases read_cases hread with rfl | ⟨k,n,rfl⟩
    · exact ⟨chain,h⟩
    · exact ⟨chain,h.congr rfl rfl fun _ => rfl⟩
  | write name buffer size =>
    obtain ⟨st,hwrite,rfl⟩ := map_ok.mp hresult
    rcases write_cases hwrite with ⟨-,rfl⟩ | ⟨w,t,⟨ht,hat⟩ | ⟨hlt,-,hgrow⟩⟩
    · exact ⟨chain,h⟩
    · have htchained : ∃ chain', Chained t chain' := by
        rcases ht with ⟨-,rfl⟩ | ⟨-,hgrow⟩
        · exact ⟨chain,h⟩
        · by_cases hlive : Live s w.fd_index
          · obtain ⟨ys,-,hnew,-⟩ := h.grow hlive hgrow
            exact ⟨_,hnew⟩
          · exact ⟨chain,(sameEntries_grow hgrow).chained (grow_vacant (h.vacant _ hlive) hgrow) h⟩
      obtain ⟨chain',hchain'⟩ := htchained
      rcases writeAt_cases hat with ⟨-,rfl⟩ | ⟨-,-,memory,rfl⟩
      · exact ⟨chain',hchain'⟩
      · exact ⟨chain',advance_chained memory hchain'⟩
    · refine ⟨chain,(sameEntries_grow hgrow).chained ?_ h⟩
      by_cases hlive : Live s w.fd_index
      · obtain ⟨hless,hsingle⟩ := grow_fails (h.seg _ hlive) (h.nonempty _ hlive) hgrow
        refine hsingle ?_
        rcases hsafe _ w.target hlive hlt with henough | ⟨b,hstart,hend⟩
        · exact absurd hless (not_lt.mpr henough)
        · have hone : Chain s.fat (s.fd_table w.fd_index).starting_block [b] := ⟨hstart,hend⟩
          rw [Seg.unique blockPtr_injective blockPtr_ne_end (h.seg _ hlive) hone]
          rfl
      · exact grow_vacant (h.vacant _ hlive) hgrow
  | delete_ name =>
    obtain ⟨st,hdelete,rfl⟩ := map_ok.mp hresult
    rcases delete_cases hdelete with ⟨-,rfl⟩ | ⟨-,⟨d⟩⟩
    · exact ⟨chain,h⟩
    · exact h.delete d (hsafe _ d.found)

theorem chained_run {calls : List Call} (hsafe : Meets (step past) FatSafe (emptyFileSystem false) calls)
    (hrun : run (step past) (emptyFileSystem false) calls = some s) : ∃ chain, Chained s chain := by
  have hsteps : ∀ (t : State) (call : Call) (u : State), (∃ chain, Chained t chain) → FatSafe t call →
      step past t call = some u → ∃ chain, Chained u chain := by
    rintro t call u ⟨chain,hchain⟩ hcall hstep
    obtain ⟨r,hr⟩ := step_ok hstep
    exact hchain.perform hcall hr
  exact hsafe.invariant hsteps ⟨_,chained_empty false⟩ hrun

/-- In every run whose calls are all of this kind, the FAT invariant holds in the
state reached. -/
theorem fat_invariant {calls : List Call} (hsafe : Meets (step past) FatSafe (emptyFileSystem false) calls)
    (hrun : run (step past) (emptyFileSystem false) calls = some s) : FatInvariant s := by
  obtain ⟨chain,hchain⟩ := chained_run hsafe hrun
  exact hchain.invariant

/-- A file of two blocks grows to three, and the file in front of it is deleted. -/
theorem grown_fat_invariant : ∃ s, run (step none) (emptyFileSystem false)
    [.create ['a'] 0,.create ['b'] 40,.open_ ['a'],.open_ ['b'],.write ['b'] (fun _ => 7) 70,.delete_ ['a']] = some s ∧
      FatInvariant s := by
  have hruns : ((run (step none) (emptyFileSystem false) [.create ['a'] 0,.create ['b'] 40,.open_ ['a'],.open_ ['b'],
      .write ['b'] (fun _ => 7) 70,.delete_ ['a']]).any fun _ => true) = true := by decide
  obtain ⟨s,hrun,-⟩ := (Option.any_eq_true _ _).mp hruns
  exact ⟨s,hrun,fat_invariant (by decide +kernel) hrun⟩

theorem not_invariant_of_free {i : Fin NUM_FILES} {b : Block} (hi : Live s i)
    (hstart : (s.fd_table i).starting_block = blockPtr b) (hfree : s.fat b = FREE_BLOCK) : ¬ FatInvariant s := by
  rintro ⟨chain,hchain,-,-⟩
  obtain ⟨hseg,hne,hused,-⟩ := hchain i hi
  cases hxs : chain i with
  | nil => exact hne hxs
  | cons x xs =>
    rw [hxs] at hseg hused
    obtain rfl : b = x := blockPtr_injective (hstart.symm.trans hseg.1)
    exact hused b (by simp) hfree

/-- Deleting the second of two files frees its block but drops the first descriptor. -/
theorem delete_breaks_fat : ∃ s, run (step none) (emptyFileSystem false)
    [.create ['a'] 0,.create ['b'] 0,.delete_ ['b']] = some s ∧ ¬ FatInvariant s := by
  have hruns : ((run (step none) (emptyFileSystem false) [.create ['a'] 0,.create ['b'] 0,.delete_ ['b']]).any fun s =>
      Live s 0 && (s.fd_table 0).starting_block = blockPtr ⟨1,by decide⟩ && s.fat ⟨1,by decide⟩ = FREE_BLOCK) = true := by decide
  obtain ⟨s,hrun,hs⟩ := (Option.any_eq_true _ _).mp hruns
  simp only [Bool.and_eq_true, decide_eq_true_eq] at hs
  exact ⟨s,hrun,not_invariant_of_free hs.1.1 hs.1.2 hs.2⟩

end SOI.FileSystem

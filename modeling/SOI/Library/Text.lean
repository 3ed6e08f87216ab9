import Mathlib.Tactic

/-! # Lines of text and decimal numbers

Texts are lists of characters. Reading lines, searching, taking substrings and
reading a number at the start of a text are as in the C++ standard library;
the last two throw.
-/
namespace SOI.Texts

abbrev Text := List Char

inductive Exception
  | outOfRange
  | invalidArgument
  deriving DecidableEq, Repr

/-- What a loop of `getline` gives. -/
def lines : Text → List Text
  | [] => []
  | c :: cs =>
    if c = '\n' then [] :: lines cs
    else match lines cs with
      | [] => [[c]]
      | l :: ls => (c :: l) :: ls

def unlines (ls : List Text) : Text := ls.flatMap fun l => l ++ ['\n']

variable {l s t : Text} {ls : List Text}

theorem lines_line (hl : '\n' ∉ l) (t : Text) : lines (l ++ '\n' :: t) = l :: lines t := by
  induction l with
  | nil => simp [lines]
  | cons c l ih =>
    rw [List.mem_cons, not_or] at hl
    rw [List.cons_append, lines, if_neg (Ne.symm hl.1), ih hl.2]

theorem lines_unlines (h : ∀ l ∈ ls, '\n' ∉ l) : lines (unlines ls) = ls := by
  induction ls with
  | nil => rfl
  | cons l ls ih =>
    have hrest := ih fun k hk => h k (by simp [hk])
    rw [unlines, List.flatMap_cons, List.append_assoc, List.singleton_append, lines_line (h l (by simp)),
      ← unlines, hrest]

theorem lines_ended (s : Text) : ∃ l ls, lines (s ++ ['\n']) = l :: ls := by
  cases s with
  | nil => exact ⟨[],[],by simp [lines]⟩
  | cons c s =>
    rw [List.cons_append, lines]
    split_ifs
    · exact ⟨_,_,rfl⟩
    · cases lines (s ++ ['\n']) with
      | nil => exact ⟨_,_,rfl⟩
      | cons k ks => exact ⟨_,_,rfl⟩

theorem lines_append (s t : Text) : lines (s ++ '\n' :: t) = lines (s ++ ['\n']) ++ lines t := by
  induction s with
  | nil => simp [lines]
  | cons c s ih =>
    obtain ⟨l,ls,hls⟩ := lines_ended s
    rw [List.cons_append, List.cons_append, lines, lines, ih, hls]
    split_ifs <;> simp

/-- What stands in front of a text belongs to its first line. -/
theorem lines_label (hl : '\n' ∉ l) (h : lines t = s :: ls) : lines (l ++ t) = (l ++ s) :: ls := by
  induction l with
  | nil => exact h
  | cons c l ih =>
    rw [List.mem_cons, not_or] at hl
    rw [List.cons_append, lines, if_neg (Ne.symm hl.1), ih hl.2]
    rfl

theorem length_of_mem_lines (h : l ∈ lines t) : l.length ≤ t.length := by
  induction t generalizing l with
  | nil => cases h
  | cons c t ih =>
    rw [lines] at h
    rw [List.length_cons]
    split_ifs at h with hc
    · rcases List.mem_cons.mp h with rfl | h
      · exact Nat.zero_le _
      · exact Nat.le_succ_of_le (ih h)
    · cases hls : lines t with
      | nil =>
        rw [hls] at h
        obtain rfl := List.mem_singleton.mp h
        exact Nat.succ_le_succ (Nat.zero_le _)
      | cons k ks =>
        rw [hls] at h
        rcases List.mem_cons.mp h with rfl | h
        · exact Nat.succ_le_succ (ih (by rw [hls]; simp))
        · exact Nat.le_succ_of_le (ih (by rw [hls]; simp [h]))

theorem notMem_of_mem_lines (h : l ∈ lines t) : '\n' ∉ l := by
  induction t generalizing l with
  | nil => simp [lines] at h
  | cons c t ih =>
    rw [lines] at h
    split_ifs at h with hc
    · rcases List.mem_cons.mp h with rfl | h
      · simp
      · exact ih h
    · cases hls : lines t with
      | nil =>
        rw [hls] at h
        obtain rfl := List.mem_singleton.mp h
        simpa using Ne.symm hc
      | cons k ks =>
        rw [hls] at h
        rcases List.mem_cons.mp h with rfl | h
        · have hk := ih (l := k) (by rw [hls]; simp)
          simp [hk, Ne.symm hc]
        · exact ih (by rw [hls]; simp [h])

/-- The position of the first occurrence. -/
def find (p : Text) : Text → Option ℕ
  | [] => if p = [] then some 0 else none
  | c :: cs => if p.isPrefixOf (c :: cs) then some 0 else (find p cs).map (· + 1)

def substr (s : Text) (pos : ℕ) : Except Exception Text :=
  if s.length < pos then .error .outOfRange else .ok (s.drop pos)

/-- At most `len` characters; a negative length has become the greatest one. -/
def substrLen (s : Text) (pos : ℕ) (len : ℤ) : Except Exception Text :=
  (substr s pos).map fun r => if len < 0 then r else r.take len.toNat

theorem find_append (p s : Text) : find p (p ++ s) = some 0 := by
  cases p with
  | nil => cases s <;> simp [find]
  | cons c p => simp [find]

theorem find_length {p : Text} (h : (find p s).isSome = true) : p.length ≤ s.length := by
  induction s with
  | nil =>
    rw [find] at h
    split_ifs at h with hp
    · rw [hp]
    · cases h
  | cons c s ih =>
    rw [find] at h
    split_ifs at h with hp
    · exact (List.isPrefixOf_iff_prefix.mp hp).length_le
    · rw [Option.isSome_map] at h
      exact Nat.le_succ_of_le (ih h)

theorem find_eq_none {p : Text} {c : Char} (hp : c ∈ p) (hs : c ∉ s) : find p s = none := by
  induction s with
  | nil =>
    rw [find, if_neg]
    rintro rfl
    cases hp
  | cons d s ih =>
    rw [find, if_neg, ih fun h => hs (List.mem_cons_of_mem _ h)]
    · rfl
    · intro hpre
      exact hs ((List.isPrefixOf_iff_prefix.mp hpre).subset hp)

theorem find_char {c : Char} (hs : c ∉ s) (t : Text) : find [c] (s ++ c :: t) = some s.length := by
  induction s with
  | nil => simp [find]
  | cons d s ih =>
    rw [List.mem_cons, not_or] at hs
    rw [List.cons_append, find, if_neg (by simp [List.isPrefixOf, hs.1]), ih hs.2]
    rfl

theorem substr_append (s t : Text) : substr (s ++ t) s.length = .ok t := by
  rw [substr, if_neg (by simp), List.drop_left]

theorem substrLen_append (s t u : Text) : substrLen (s ++ (t ++ u)) s.length t.length = .ok t := by
  rw [substrLen, substr_append, Except.map, if_neg (by omega), Int.toNat_natCast, List.take_left]

def decimal (n : ℤ) : Text := (if n < 0 then ['-'] else []) ++ Nat.toDigits 10 n.natAbs

def isSpace (c : Char) : Bool :=
  c = ' ' || c = '\t' || c = '\n' || c = Char.ofNat 11 || c = Char.ofNat 12 || c = '\r'

def digits (s : Text) : Option ℕ :=
  let ds := s.takeWhile Char.isDigit
  if ds = [] then none else some (Nat.ofDigitChars 10 ds 0)

def signed (s : Text) : Option ℤ :=
  if s.head? = some '-' then (digits s.tail).map fun n : ℕ => -(n : ℤ)
  else if s.head? = some '+' then (digits s.tail).map fun n : ℕ => (n : ℤ)
  else (digits s).map fun n : ℕ => (n : ℤ)

/-- An `int` at the start of a text, after white space and perhaps a sign. -/
def stoi (s : Text) : Except Exception ℤ :=
  match signed (s.dropWhile isSpace) with
  | none => .error .invalidArgument
  | some n => if -2 ^ 31 ≤ n ∧ n < 2 ^ 31 then .ok n else .error .outOfRange

theorem mem_toDigits {n : ℕ} {c : Char} (h : c ∈ Nat.toDigits 10 n) : c.isDigit = true :=
  Nat.isDigit_of_mem_toDigits (by decide) (by decide) h

theorem mem_decimal {n : ℤ} {c : Char} (h : c ∈ decimal n) : c = '-' ∨ c.isDigit = true := by
  rcases List.mem_append.mp h with h | h
  · split_ifs at h
    · exact Or.inl (List.mem_singleton.mp h)
    · cases h
  · exact Or.inr (mem_toDigits h)

theorem notMem_decimal {n : ℤ} {c : Char} (hc : c ≠ '-') (hd : c.isDigit = false) : c ∉ decimal n := by
  intro h
  rcases mem_decimal h with h | h
  · exact hc h
  · rw [h] at hd
    cases hd

theorem digits_toDigits (n : ℕ) (ht : ∀ c, t.head? = some c → c.isDigit = false) :
    digits (Nat.toDigits 10 n ++ t) = some n := by
  have htake : (Nat.toDigits 10 n ++ t).takeWhile Char.isDigit = Nat.toDigits 10 n := by
    rw [List.takeWhile_append_of_pos fun c hc => mem_toDigits hc]
    cases t with
    | nil => simp
    | cons c t => simp [ht c rfl]
  rw [digits, htake]
  simp [Nat.toDigits_ne_nil]

theorem isSpace_of_isDigit {c : Char} (h : c.isDigit = true) : isSpace c = false := by
  by_contra hs
  simp only [isSpace, Bool.not_eq_false, Bool.or_eq_true, decide_eq_true_eq] at hs
  rcases hs with ((((rfl | rfl) | rfl) | rfl) | rfl) | rfl <;> cases h

theorem signed_decimal (n : ℤ) (ht : ∀ c, t.head? = some c → c.isDigit = false) :
    signed (decimal n ++ t) = some n := by
  have hdigits := digits_toDigits n.natAbs ht
  by_cases hneg : n < 0
  · have habs : -(n.natAbs : ℤ) = n := by omega
    rw [decimal, if_pos hneg, List.append_assoc, List.singleton_append, signed, List.head?_cons, if_pos rfl,
      List.tail_cons, hdigits, Option.map_some, habs]
  · have habs : (n.natAbs : ℤ) = n := by omega
    rw [decimal, if_neg hneg, List.nil_append, signed]
    cases hds : Nat.toDigits 10 n.natAbs with
    | nil => exact absurd hds Nat.toDigits_ne_nil
    | cons d ds =>
      have hd : d.isDigit = true := mem_toDigits (by rw [hds]; simp)
      have hsign : d ≠ '-' ∧ d ≠ '+' := by
        constructor <;> rintro rfl <;> cases hd
      rw [hds] at hdigits
      rw [if_neg (by simpa using hsign.1), if_neg (by simpa using hsign.2), hdigits, Option.map_some, habs]

theorem dropWhile_decimal (n : ℤ) (t : Text) : (decimal n ++ t).dropWhile isSpace = decimal n ++ t := by
  rw [decimal]
  split_ifs
  · simp [isSpace]
  · cases hds : Nat.toDigits 10 n.natAbs with
    | nil => exact absurd hds Nat.toDigits_ne_nil
    | cons d ds => simp [isSpace_of_isDigit (mem_toDigits (show d ∈ Nat.toDigits 10 n.natAbs by rw [hds]; simp))]

/-- Reading a printed number gives it back, whatever follows that is no digit. -/
theorem stoi_decimal {n : ℤ} (hn : -2 ^ 31 ≤ n ∧ n < 2 ^ 31)
    (ht : ∀ c, t.head? = some c → c.isDigit = false) : stoi (decimal n ++ t) = .ok n := by
  rw [stoi, dropWhile_decimal, signed_decimal n ht]
  exact if_pos hn

theorem stoi_space {n : ℤ} (hn : -2 ^ 31 ≤ n ∧ n < 2 ^ 31) : stoi (' ' :: decimal n) = .ok n := by
  have hdrop : (' ' :: decimal n).dropWhile isSpace = decimal n := by
    have h := dropWhile_decimal n []
    rw [List.append_nil] at h
    rw [List.dropWhile_cons_of_pos (by rfl), h]
  have hsigned := @signed_decimal [] n (by simp)
  rw [List.append_nil] at hsigned
  rw [stoi, hdrop, hsigned]
  exact if_pos hn

end SOI.Texts

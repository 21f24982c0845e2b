import Lazux.Ramdisk
import Mathlib.Data.List.Lex

/-! # The string functions of user programs (`user/mystring.c`)

A pointer is the list of bytes from there on to the end of what the program may touch; reading
or writing behind the last of them fails. -/
namespace Lazux

open PagedMemory

def lzLength : List Byte → Option ℕ
  | [] => none
  | c :: str => if c ≠ 0 then (lzLength str).map (· + 1) else some 0

/-- The result is what lies from `dest` on afterwards. -/
def lzCopy : List Byte → List Byte → Option (List Byte)
  | _ :: dest, c :: src => if c ≠ 0 then (lzCopy dest src).map (c :: ·) else some (0 :: dest)
  | _, _ => none

def lzConcat : List Byte → List Byte → Option (List Byte)
  | [], _ => none
  | d :: dest, src => if d ≠ 0 then (lzConcat dest src).map (d :: ·) else lzCopy (d :: dest) src

def padZeros : ℕ → List Byte → Option (List Byte)
  | 0, dest => some dest
  | _ + 1, [] => none
  | n + 1, _ :: dest => (padZeros n dest).map (0 :: ·)

/-- The source is looked at before the count. -/
def lzNcopy : ℕ → List Byte → List Byte → Option (List Byte)
  | _, _, [] => none
  | n, dest, c :: src =>
    if c ≠ 0 ∧ n ≠ 0 then
      match dest with
      | [] => none
      | _ :: dest => (lzNcopy (n - 1) dest src).map (c :: ·)
    else padZeros n dest

/-- The second loop of `lz_nconcat`, which may still append `n` bytes. -/
def appendUpTo : ℕ → List Byte → List Byte → Option (List Byte)
  | n, _ :: dest, c :: src =>
    if c ≠ 0 ∧ n ≠ 0 then (appendUpTo (n - 1) dest src).map (c :: ·) else some (0 :: dest)
  | _, _, _ => none

/-- The first loop counts `n` down. -/
def lzNconcat : ℕ → List Byte → List Byte → Option (List Byte)
  | _, [], _ => none
  | n, d :: dest, src =>
    if d ≠ 0 then (lzNconcat (n - 1) dest src).map (d :: ·) else appendUpTo n (d :: dest) src

def byteDifference (a b : Byte) : ℤ := (a.toNat : ℤ) - b.toNat

def lzCompare : List Byte → List Byte → Option ℤ
  | a :: str1, b :: str2 =>
    if a ≠ 0 ∧ b ≠ 0 then
      if a ≠ b then some (byteDifference a b) else lzCompare str1 str2
    else some (byteDifference a b)
  | _, _ => none

def lzNcompare : ℕ → List Byte → List Byte → Option ℤ
  | 0, _, _ => some 0
  | n + 1, a :: str1, b :: str2 =>
    if a ≠ 0 ∧ b ≠ 0 then
      if a ≠ b then some (byteDifference a b) else lzNcompare n str1 str2
    else some (byteDifference a b)
  | _ + 1, _, _ => none

/-- The inner loop of `lz_search` and the test behind it. -/
def searchHere : List Byte → List Byte → Option Bool
  | a :: p, b :: q => if a = b ∧ b ≠ 0 then searchHere p q else some (b = 0)
  | _, _ => none

/-- The position of the pointer returned; the source's null pointer is an inner `none`. -/
def lzSearch : List Byte → List Byte → Option (Option ℕ)
  | [], _ => none
  | c :: haystack, needle =>
    if c ≠ 0 then do
      if ← searchHere (c :: haystack) needle then some (some 0)
      else (lzSearch haystack needle).map fun r => r.map (· + 1)
    else some none

variable {s t n h : List Byte} {x y : List Byte}

section Copying

theorem lzLength_terminated (hs : 0 ∉ s) (x : List Byte) :
    lzLength (s ++ 0 :: x) = some s.length := by
  induction s with
  | nil => rfl
  | cons c s ih =>
    rw [List.mem_cons, not_or] at hs
    rw [List.cons_append, lzLength, if_pos (Ne.symm hs.1), ih hs.2]
    rfl

/-- What was there stays behind the terminator. -/
theorem lzCopy_terminated (hs : 0 ∉ s) {dest : List Byte} (hroom : s.length < dest.length) :
    lzCopy dest (s ++ 0 :: x) = some (s ++ 0 :: dest.drop (s.length + 1)) := by
  induction s generalizing dest with
  | nil =>
    cases dest with
    | nil => cases hroom
    | cons d dest => rfl
  | cons c s ih =>
    rw [List.mem_cons, not_or] at hs
    cases dest with
    | nil => cases hroom
    | cons d dest =>
      rw [List.cons_append, lzCopy, if_pos (Ne.symm hs.1), ih hs.2 (Nat.lt_of_succ_lt_succ hroom)]
      rfl

theorem lzConcat_terminated (hs : 0 ∉ s) (x src : List Byte) :
    lzConcat (s ++ 0 :: x) src = (lzCopy (0 :: x) src).map (s ++ ·) := by
  induction s with
  | nil => exact Option.map_id'.symm
  | cons c s ih =>
    rw [List.mem_cons, not_or] at hs
    rw [List.cons_append, lzConcat, if_pos (Ne.symm hs.1), ih hs.2, Option.map_map]
    rfl

end Copying

section Comparing

def difference : List Byte → List Byte → ℤ
  | [], [] => 0
  | [], b :: _ => byteDifference 0 b
  | a :: _, [] => byteDifference a 0
  | a :: s, b :: t => if a = b then difference s t else byteDifference a b

theorem lzCompare_terminated (hs : 0 ∉ s) (ht : 0 ∉ t) (x y : List Byte) :
    lzCompare (s ++ 0 :: x) (t ++ 0 :: y) = some (difference s t) := by
  induction s generalizing t with
  | nil =>
    cases t with
    | nil => rfl
    | cons b t => exact if_neg fun hc => hc.1 rfl
  | cons a s ih =>
    rw [List.mem_cons, not_or] at hs
    cases t with
    | nil => exact if_neg fun hc => hc.2 rfl
    | cons b t =>
      rw [List.mem_cons, not_or] at ht
      rw [List.cons_append, List.cons_append, lzCompare, if_pos ⟨Ne.symm hs.1, Ne.symm ht.1⟩,
        difference]
      by_cases hab : a = b
      · rw [if_neg (not_not.mpr hab), if_pos hab]
        exact ih hs.2 ht.2
      · rw [if_pos hab, if_neg hab]

/-- The count may run out anywhere: only the bytes before it matter. -/
theorem lzNcompare_terminated (hs : 0 ∉ s) (ht : 0 ∉ t) (k : ℕ) (x y : List Byte) :
    lzNcompare k (s ++ 0 :: x) (t ++ 0 :: y) = some (difference (s.take k) (t.take k)) := by
  induction k generalizing s t with
  | zero => rfl
  | succ k ih =>
    cases s with
    | nil =>
      cases t with
      | nil => rfl
      | cons b t => exact if_neg fun hc => hc.1 rfl
    | cons a s =>
      rw [List.mem_cons, not_or] at hs
      cases t with
      | nil => exact if_neg fun hc => hc.2 rfl
      | cons b t =>
        rw [List.mem_cons, not_or] at ht
        rw [List.cons_append, List.cons_append, lzNcompare,
          if_pos ⟨Ne.symm hs.1, Ne.symm ht.1⟩, List.take_succ_cons, List.take_succ_cons, difference]
        by_cases hab : a = b
        · rw [if_neg (not_not.mpr hab), if_pos hab]
          exact ih hs.2 ht.2
        · rw [if_pos hab, if_neg hab]

/-- A string as its unsigned bytes, ordered lexicographically. -/
def unsignedBytes (s : List Byte) : List ℕ := s.map BitVec.toNat

theorem unsignedBytes_inj : unsignedBytes s = unsignedBytes t ↔ s = t :=
  List.map_inj_right fun _ _ h => BitVec.eq_of_toNat_eq h

theorem difference_swap (s t : List Byte) : difference t s = - difference s t := by
  induction s generalizing t with
  | nil => cases t <;> simp [difference, byteDifference]
  | cons a s ih =>
    cases t with
    | nil => simp [difference, byteDifference]
    | cons b t =>
      rw [difference, difference]
      by_cases hab : a = b
      · rw [if_pos hab, if_pos hab.symm, ih]
      · rw [if_neg hab, if_neg (Ne.symm hab), byteDifference, byteDifference, neg_sub]

theorem difference_neg (hs : 0 ∉ s) (ht : 0 ∉ t) :
    difference s t < 0 ↔ unsignedBytes s < unsignedBytes t := by
  induction s generalizing t with
  | nil =>
    cases t with
    | nil => exact iff_of_false (lt_irrefl _) (lt_irrefl _)
    | cons b t =>
      rw [List.mem_cons, not_or] at ht
      have hb : 0 < b.toNat := Nat.pos_of_ne_zero fun h => ht.1 (BitVec.eq_of_toNat_eq h.symm)
      refine iff_of_true ?_ (List.nil_lt_cons _ _)
      simp only [difference, byteDifference]
      simpa using hb
  | cons a s ih =>
    rw [List.mem_cons, not_or] at hs
    cases t with
    | nil =>
      refine iff_of_false ?_ (List.not_lt_nil _)
      simp only [difference, byteDifference]
      simp
    | cons b t =>
      rw [List.mem_cons, not_or] at ht
      rw [difference, unsignedBytes, unsignedBytes, List.map_cons, List.map_cons,
        List.cons_lt_cons_iff]
      by_cases hab : a = b
      · rw [if_pos hab, hab]
        have := ih hs.2 ht.2
        simpa [unsignedBytes] using this
      · have hne : a.toNat ≠ b.toNat := fun h => hab (BitVec.eq_of_toNat_eq h)
        rw [if_neg hab, byteDifference]
        constructor
        · intro hlt
          exact Or.inl (by omega)
        · rintro (hlt | ⟨he, -⟩)
          · omega
          · exact absurd he hne

/-- A result whose sign is that of the order of two strings. -/
structure OrdersAs (s t : CString) (r : ℤ) : Prop where
  less : r < 0 ↔ unsignedBytes s.val < unsignedBytes t.val
  equal : r = 0 ↔ s = t
  greater : 0 < r ↔ unsignedBytes t.val < unsignedBytes s.val

theorem difference_orders (s t : CString) : OrdersAs s t (difference s.val t.val) := by
  have hless := difference_neg s.property t.property
  have hgreater := difference_neg t.property s.property
  rw [difference_swap s.val t.val, neg_lt_zero] at hgreater
  refine ⟨hless, ?_, hgreater⟩
  constructor
  · intro hz
    have hst : ¬ unsignedBytes s.val < unsignedBytes t.val := by
      rw [← hless, hz]
      exact lt_irrefl _
    have hts : ¬ unsignedBytes t.val < unsignedBytes s.val := by
      rw [← hgreater, hz]
      exact lt_irrefl _
    exact Subtype.ext (unsignedBytes_inj.mp (le_antisymm (not_lt.mp hts) (not_lt.mp hst)))
  · rintro rfl
    have hswap := difference_swap s.val s.val
    omega

theorem OrdersAs.nonpos {s t : CString} {r : ℤ} (h : OrdersAs s t r) :
    r ≤ 0 ↔ unsignedBytes s.val ≤ unsignedBytes t.val := by
  rw [← not_lt, h.greater, not_lt]

/-- What `lz_compare` and `lz_ncompare` return for two strings, wherever they lie. -/
structure ComparesStrings (s t : CString) : Prop where
  compare : ∀ x y, ∃ r, lzCompare (s.val ++ 0 :: x) (t.val ++ 0 :: y) = some r ∧ OrdersAs s t r
  swap : ∀ x y, lzCompare (t.val ++ 0 :: y) (s.val ++ 0 :: x) =
    (lzCompare (s.val ++ 0 :: x) (t.val ++ 0 :: y)).map (- ·)
  trans : ∀ (u : CString) (x y z : List Byte) (r r' r'' : ℤ),
    lzCompare (s.val ++ 0 :: x) (t.val ++ 0 :: y) = some r →
    lzCompare (t.val ++ 0 :: y) (u.val ++ 0 :: z) = some r' →
    lzCompare (s.val ++ 0 :: x) (u.val ++ 0 :: z) = some r'' → r ≤ 0 → r' ≤ 0 → r'' ≤ 0
  ncompare : ∀ n x y, ∃ r r', lzNcompare n (s.val ++ 0 :: x) (t.val ++ 0 :: y) = some r ∧
    lzCompare (s.val.take n ++ [0]) (t.val.take n ++ [0]) = some r' ∧ r.sign = r'.sign

/-- Both comparisons realise the lexicographic order of unsigned bytes. -/
theorem comparison_is_one_order (s t : CString) : ComparesStrings s t := by
  constructor
  · exact fun x y => ⟨_, lzCompare_terminated s.property t.property x y, difference_orders s t⟩
  · intro x y
    rw [lzCompare_terminated s.property t.property, lzCompare_terminated t.property s.property,
      difference_swap s.val t.val]
    rfl
  · intro u x y z r r' r'' h h' h'' hr hr'
    rw [lzCompare_terminated s.property t.property, Option.some.injEq] at h
    rw [lzCompare_terminated t.property u.property, Option.some.injEq] at h'
    rw [lzCompare_terminated s.property u.property, Option.some.injEq] at h''
    rw [← h, (difference_orders s t).nonpos] at hr
    rw [← h', (difference_orders t u).nonpos] at hr'
    rw [← h'', (difference_orders s u).nonpos]
    exact hr.trans hr'
  · intro n x y
    have hs : 0 ∉ s.val.take n := fun h => s.property (List.mem_of_mem_take h)
    have ht : 0 ∉ t.val.take n := fun h => t.property (List.mem_of_mem_take h)
    exact ⟨_, _, lzNcompare_terminated s.property t.property n x y,
      lzCompare_terminated hs ht [] [], rfl⟩

end Comparing

section Searching

/-- The smallest position at which `n` stands in `h`. -/
structure FirstAt (h n : List Byte) (p : ℕ) : Prop where
  within : p ≤ h.length
  stands : n <+: h.drop p
  first : ∀ k < p, ¬ n <+: h.drop k

theorem FirstAt.unique {p k : ℕ} (hp : FirstAt h n p) (hk : FirstAt h n k) : p = k := by
  rcases lt_trichotomy p k with hlt | he | hlt
  · exact absurd hp.stands (hk.first p hlt)
  · exact he
  · exact absurd hk.stands (hp.first k hlt)

theorem FirstAt.here (hn : n <+: h) : FirstAt h n 0 :=
  ⟨Nat.zero_le _, hn, fun _ hk => absurd hk (Nat.not_lt_zero _)⟩

theorem firstAt_cons {c : Byte} {p : ℕ} (hn : ¬ n <+: c :: h) :
    FirstAt (c :: h) n (p + 1) ↔ FirstAt h n p := by
  constructor
  · intro hp
    refine ⟨Nat.le_of_succ_le_succ hp.within, hp.stands, fun k hk => ?_⟩
    exact hp.first (k + 1) (Nat.succ_lt_succ hk)
  · intro hp
    refine ⟨Nat.succ_le_succ hp.within, hp.stands, fun k hk => ?_⟩
    cases k with
    | zero => exact hn
    | succ k => exact hp.first k (Nat.lt_of_succ_lt_succ hk)

/-- The match ends at the first difference, at the latest where one of the strings ends. -/
theorem searchHere_terminated (hs : 0 ∉ s) (hn : 0 ∉ n) (x y : List Byte) :
    searchHere (s ++ 0 :: x) (n ++ 0 :: y) = some (decide (n <+: s)) := by
  induction n generalizing s with
  | nil =>
    have hpre : ([] : List Byte) <+: s := List.nil_prefix
    cases s with
    | nil => simp [searchHere]
    | cons a s => simp [searchHere]
  | cons b n ih =>
    rw [List.mem_cons, not_or] at hn
    cases s with
    | nil =>
      have hne : ¬ ((0 : Byte) = b ∧ b ≠ 0) := fun hc => hn.1 hc.1
      rw [List.nil_append, List.cons_append, searchHere, if_neg hne]
      simpa using Ne.symm hn.1
    | cons a s =>
      rw [List.mem_cons, not_or] at hs
      rw [List.cons_append, List.cons_append, searchHere]
      by_cases hab : a = b
      · rw [if_pos ⟨hab, Ne.symm hn.1⟩, ih hs.2 hn.2]
        simp [List.cons_prefix_cons, hab]
      · rw [if_neg fun hc => hab hc.1]
        have hpre : ¬ b :: n <+: a :: s := fun hp => hab (List.cons_prefix_cons.mp hp).1.symm
        simpa [hpre] using Ne.symm hn.1

theorem lzSearch_terminated (hs : 0 ∉ h) (hn : 0 ∉ n) (hne : n ≠ [] ∨ h ≠ []) (x y : List Byte) :
    ∃ r, lzSearch (h ++ 0 :: x) (n ++ 0 :: y) = some r ∧ ∀ p, r = some p ↔ FirstAt h n p := by
  induction h with
  | nil =>
    have hn' : n ≠ [] := hne.resolve_right fun hc => hc rfl
    refine ⟨none, rfl, fun p => iff_of_false (Option.some_ne_none p).symm fun hp => ?_⟩
    have hpre := hp.stands
    rw [List.drop_nil, List.prefix_nil] at hpre
    exact hn' hpre
  | cons c h ih =>
    have hs' := hs
    rw [List.mem_cons, not_or] at hs'
    have hhere := searchHere_terminated hs hn x y
    rw [List.cons_append] at hhere
    rw [List.cons_append, lzSearch, if_pos (Ne.symm hs'.1), hhere]
    by_cases hp : n <+: c :: h
    · refine ⟨some 0, by simp [hp], fun p => ?_⟩
      rw [Option.some.injEq]
      constructor
      · rintro rfl
        exact .here hp
      · exact fun hf => (FirstAt.here hp).unique hf
    · have hn' : n ≠ [] := by
        rintro rfl
        exact hp List.nil_prefix
      obtain ⟨r, hr, hfirst⟩ := ih hs'.2 (Or.inl hn')
      refine ⟨r.map (· + 1), by rw [hr]; simp [hp], fun p => ?_⟩
      cases p with
      | zero =>
        refine iff_of_false ?_ fun hf => hp hf.stands
        cases r <;> simp
      | succ p =>
        rw [firstAt_cons hp, ← hfirst]
        cases r <;> simp

/-- `lz_search` returns the first position of the needle, and a null pointer if there is none. -/
def SearchesFirst (h n : CString) : Prop := ∀ x y, ∃ r,
  lzSearch (h.val ++ 0 :: x) (n.val ++ 0 :: y) = some r ∧ ∀ p, r = some p ↔ FirstAt h.val n.val p

/-- It does so unless both strings are empty. -/
theorem lz_search_first_iff (h n : CString) : SearchesFirst h n ↔ ¬ (h.val = [] ∧ n.val = []) := by
  constructor
  · rintro hsearch ⟨hh, hn⟩
    obtain ⟨r, hr, hfirst⟩ := hsearch [] []
    rw [hh, hn] at hr hfirst
    have hnone : r = none := (Option.some.inj hr).symm
    have hzero := (hfirst 0).mpr (.here List.nil_prefix)
    rw [hnone] at hzero
    cases hzero
  · intro hne x y
    apply lzSearch_terminated h.property n.property
    by_cases hn : n.val = []
    · exact Or.inr fun hh => hne ⟨hh, hn⟩
    · exact Or.inl hn

/-- The empty string stands in the empty string. -/
theorem lz_search_misses_empty : ¬ ∀ h n : CString, SearchesFirst h n := by
  intro hall
  obtain ⟨r, hr, hfirst⟩ := hall ⟨[], List.not_mem_nil⟩ ⟨[], List.not_mem_nil⟩ [] []
  have hnone : r = none := (Option.some.inj hr).symm
  have hzero := (hfirst 0).mpr (.here List.nil_prefix)
  rw [hnone] at hzero
  cases hzero

end Searching

section Copies

variable {m dest src : List Byte} {c : Byte} {n : ℕ}

/-- The string a pointer points to, up to the terminator if there is one. -/
def stringAt (m : List Byte) : List Byte := m.takeWhile (· ≠ 0)

@[simp] theorem stringAt_nil : stringAt [] = [] := rfl

@[simp] theorem stringAt_zero (m : List Byte) : stringAt (0 :: m) = [] := rfl

theorem stringAt_cons (hc : c ≠ 0) : stringAt (c :: m) = c :: stringAt m :=
  List.takeWhile_cons_of_pos (by simpa using hc)

theorem map_ite {P : Prop} [Decidable P] {r : List Byte} :
    (if P then some r else none).map (c :: ·) = if P then some (c :: r) else none := by
  split <;> rfl

theorem lzCopy_eq (dest src : List Byte) : lzCopy dest src =
    if (stringAt src).length < src.length ∧ (stringAt src).length < dest.length then
      some (stringAt src ++ 0 :: dest.drop ((stringAt src).length + 1)) else none := by
  induction src generalizing dest with
  | nil => cases dest <;> rfl
  | cons c src ih =>
    cases dest with
    | nil => simp [lzCopy]
    | cons d dest =>
      by_cases hc : c = 0
      · subst hc
        rw [lzCopy, if_neg (not_not.mpr rfl), stringAt_zero]
        simp
      · rw [lzCopy, if_pos hc, ih, map_ite, stringAt_cons hc]
        simp only [List.length_cons, Nat.succ_lt_succ_iff, List.cons_append, List.drop_succ_cons]

theorem lzConcat_eq (dest src : List Byte) : lzConcat dest src =
    if (stringAt dest).length < dest.length ∧ (stringAt src).length < src.length ∧
      (stringAt dest).length + (stringAt src).length < dest.length then
      some (stringAt dest ++ stringAt src ++
        0 :: dest.drop ((stringAt dest).length + (stringAt src).length + 1)) else none := by
  induction dest with
  | nil => simp [lzConcat]
  | cons d dest ih =>
    by_cases hd : d = 0
    · subst hd
      rw [lzConcat, if_neg (not_not.mpr rfl), lzCopy_eq, stringAt_zero]
      simp
    · rw [lzConcat, if_pos hd, ih, map_ite, stringAt_cons hd]
      simp only [List.length_cons, Nat.succ_lt_succ_iff, List.cons_append, Nat.succ_add,
        List.drop_succ_cons]

theorem padZeros_eq (n : ℕ) (dest : List Byte) : padZeros n dest =
    if n ≤ dest.length then some (List.replicate n 0 ++ dest.drop n) else none := by
  induction n generalizing dest with
  | zero => simp [padZeros]
  | succ n ih =>
    cases dest with
    | nil => simp [padZeros]
    | cons d dest =>
      rw [padZeros, ih, map_ite]
      simp only [List.length_cons, Nat.succ_le_succ_iff, List.replicate_succ, List.cons_append,
        List.drop_succ_cons]

theorem lzNcopy_eq (n : ℕ) (dest src : List Byte) : lzNcopy n dest src =
    if min n (stringAt src).length < src.length ∧ n ≤ dest.length then
      some ((stringAt src).take n ++ List.replicate (n - (stringAt src).length) 0 ++ dest.drop n)
    else none := by
  induction src generalizing n dest with
  | nil => simp [lzNcopy]
  | cons c src ih =>
    have hpads : ¬ (c ≠ 0 ∧ n ≠ 0) → lzNcopy n dest (c :: src) = padZeros n dest := fun h => by
      rw [lzNcopy.eq_def]
      exact if_neg h
    by_cases hc : c = 0
    · subst hc
      rw [hpads (fun h => h.1 rfl), padZeros_eq, stringAt_zero]
      simp
    · cases n with
      | zero =>
        rw [hpads (fun h => h.2 rfl), padZeros_eq]
        simp
      | succ n =>
        rw [stringAt_cons hc, lzNcopy.eq_def]
        cases dest with
        | nil => exact (if_pos ⟨hc, Nat.succ_ne_zero n⟩).trans (by simp)
        | cons d dest =>
          refine (if_pos ⟨hc, Nat.succ_ne_zero n⟩).trans ?_
          show (lzNcopy n dest src).map (c :: ·) = _
          rw [ih, map_ite]
          simp only [List.length_cons, Nat.succ_min_succ, Nat.succ_lt_succ_iff,
            Nat.succ_le_succ_iff, List.take_succ_cons, Nat.succ_sub_succ, List.cons_append,
            List.drop_succ_cons]

theorem appendUpTo_eq (n : ℕ) (dest src : List Byte) : appendUpTo n dest src =
    if min n (stringAt src).length < src.length ∧ min n (stringAt src).length < dest.length then
      some ((stringAt src).take n ++ 0 :: dest.drop (min n (stringAt src).length + 1))
    else none := by
  induction src generalizing n dest with
  | nil => cases dest <;> simp [appendUpTo]
  | cons c src ih =>
    cases dest with
    | nil => simp [appendUpTo]
    | cons d dest =>
      by_cases hc : c = 0
      · subst hc
        rw [appendUpTo, if_neg fun h => h.1 rfl, stringAt_zero]
        simp
      · cases n with
        | zero =>
          rw [appendUpTo, if_neg fun h => h.2 rfl]
          simp
        | succ n =>
          rw [appendUpTo, if_pos ⟨hc, Nat.succ_ne_zero n⟩, stringAt_cons hc, Nat.add_sub_cancel,
            ih, map_ite]
          simp only [List.length_cons, Nat.succ_min_succ, Nat.succ_lt_succ_iff,
            List.take_succ_cons, List.cons_append, List.drop_succ_cons]

theorem lzNconcat_eq (n : ℕ) (dest src : List Byte) : lzNconcat n dest src =
    if (stringAt dest).length < dest.length ∧
      min (n - (stringAt dest).length) (stringAt src).length < src.length ∧
      (stringAt dest).length + min (n - (stringAt dest).length) (stringAt src).length <
        dest.length then
      some (stringAt dest ++ (stringAt src).take (n - (stringAt dest).length) ++
        0 :: dest.drop ((stringAt dest).length +
          min (n - (stringAt dest).length) (stringAt src).length + 1))
    else none := by
  induction dest generalizing n with
  | nil => simp [lzNconcat]
  | cons d dest ih =>
    by_cases hd : d = 0
    · subst hd
      rw [lzNconcat, if_neg (not_not.mpr rfl), appendUpTo_eq, stringAt_zero]
      simp
    · rw [lzNconcat, if_pos hd, ih, map_ite, stringAt_cons hd]
      simp only [List.length_cons, Nat.succ_lt_succ_iff, List.cons_append, Nat.succ_add,
        List.drop_succ_cons, Nat.sub_add_eq, Nat.sub_right_comm]

/-- What each of the four functions leaves of `dest`, and exactly when it stays inside the separate
memories of its two pointers. -/
theorem copies_exact (n : ℕ) (dest src : List Byte) :
    (lzCopy dest src =
      if (stringAt src).length < src.length ∧ (stringAt src).length < dest.length then
        some (stringAt src ++ 0 :: dest.drop ((stringAt src).length + 1)) else none) ∧
    (lzNcopy n dest src =
      if min n (stringAt src).length < src.length ∧ n ≤ dest.length then
        some ((stringAt src).take n ++ List.replicate (n - (stringAt src).length) 0 ++ dest.drop n)
      else none) ∧
    (lzConcat dest src =
      if (stringAt dest).length < dest.length ∧ (stringAt src).length < src.length ∧
        (stringAt dest).length + (stringAt src).length < dest.length then
        some (stringAt dest ++ stringAt src ++
          0 :: dest.drop ((stringAt dest).length + (stringAt src).length + 1)) else none) ∧
    (lzNconcat n dest src =
      if (stringAt dest).length < dest.length ∧
        min (n - (stringAt dest).length) (stringAt src).length < src.length ∧
        (stringAt dest).length + min (n - (stringAt dest).length) (stringAt src).length <
          dest.length then
        some (stringAt dest ++ (stringAt src).take (n - (stringAt dest).length) ++
          0 :: dest.drop ((stringAt dest).length +
            min (n - (stringAt dest).length) (stringAt src).length + 1)) else none) :=
  ⟨lzCopy_eq dest src, lzNcopy_eq n dest src, lzConcat_eq dest src, lzNconcat_eq n dest src⟩

end Copies

end Lazux

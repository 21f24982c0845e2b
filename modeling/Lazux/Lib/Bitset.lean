import Mathlib.Data.Finset.Card
import Mathlib.Data.Finset.Range
import Mathlib.Logic.Function.Basic
import Mathlib.Data.BitVec

/-! # Upward scans and sets of numbers packed eight to a byte -/
namespace Bitset

/-- The first index in `[i, i + fuel)` that satisfies `p`. -/
def scan (p : ℕ → Bool) : ℕ → ℕ → Option ℕ
  | 0, _ => none
  | fuel + 1, i => if p i then some i else scan p fuel (i + 1)

theorem scan_none {p : ℕ → Bool} {fuel i : ℕ} :
    scan p fuel i = none ↔ ∀ k, i ≤ k → k < i + fuel → p k = false := by
  induction fuel generalizing i with
  | zero => simp [scan]; omega
  | succ n ih =>
    unfold scan
    by_cases hp : p i
    · simp only [hp, if_true, reduceCtorEq, false_iff, not_forall]
      exact ⟨i, le_rfl, by omega, by simp [hp]⟩
    · simp only [hp, Bool.false_eq_true, if_false, ih]
      constructor
      · intro h k hk hl
        by_cases hki : k = i
        · subst k; simpa using hp
        · exact h k (by omega) (by omega)
      · intro h k hk hl
        exact h k (by omega) (by omega)

theorem scan_some {p : ℕ → Bool} {fuel i j : ℕ} (h : scan p fuel i = some j) :
    i ≤ j ∧ j < i + fuel ∧ p j = true ∧ ∀ k, i ≤ k → k < j → p k = false := by
  induction fuel generalizing i with
  | zero => simp [scan] at h
  | succ n ih =>
    unfold scan at h
    by_cases hp : p i
    · simp only [hp, if_true, Option.some.injEq] at h
      subst j
      exact ⟨le_rfl, by omega, hp, fun k hk hl => absurd hk (by omega)⟩
    · simp only [hp, Bool.false_eq_true, if_false] at h
      obtain ⟨hij, hj, hpj, hmin⟩ := ih h
      refine ⟨by omega, by omega, hpj, fun k hk hl => ?_⟩
      by_cases hki : k = i
      · subst k; simpa using hp
      · exact hmin k (by omega) hl

abbrev Bits := ℕ → BitVec 8

def test (b : Bits) (i : ℕ) : Bool := (b (i / 8) &&& (1#8 <<< (i % 8))) != 0#8

def set (b : Bits) (i : ℕ) : Bits :=
  Function.update b (i / 8) (b (i / 8) ||| (1#8 <<< (i % 8)))

def clear (b : Bits) (i : ℕ) : Bits :=
  Function.update b (i / 8) (b (i / 8) &&& ~~~(1#8 <<< (i % 8)))

private theorem and_mask (x : BitVec 8) (k : Fin 8) :
    ((x &&& (1#8 <<< k.val)) != 0#8) = x.getLsbD k := by
  revert x k; decide

theorem test_eq_getLsbD (b : Bits) (i : ℕ) : test b i = (b (i / 8)).getLsbD (i % 8) :=
  and_mask _ ⟨i % 8, Nat.mod_lt _ (by decide)⟩

theorem test_set (b : Bits) (i j : ℕ) : test (set b i) j = (decide (j = i) || test b j) := by
  simp only [test_eq_getLsbD, set]
  by_cases h : j / 8 = i / 8
  · have hj : j % 8 < 8 := Nat.mod_lt _ (by decide)
    rw [h, Function.update_self]
    by_cases hm : j % 8 = i % 8
    · have : j = i := by omega
      subst j; simp [hj]
    · have : j ≠ i := fun e => hm (by rw [e])
      simp [this]; omega
  · have : j ≠ i := fun e => h (by rw [e])
    simp [Function.update_of_ne h, this]

theorem test_clear (b : Bits) (i j : ℕ) : test (clear b i) j = (decide (j ≠ i) && test b j) := by
  simp only [test_eq_getLsbD, clear]
  by_cases h : j / 8 = i / 8
  · have hj : j % 8 < 8 := Nat.mod_lt _ (by decide)
    rw [h, Function.update_self]
    by_cases hm : j % 8 = i % 8
    · have : j = i := by omega
      subst j; simp
    · have : j ≠ i := fun e => hm (by rw [e])
      simp [this, hj]; omega
  · have : j ≠ i := fun e => h (by rw [e])
    simp [Function.update_of_ne h, this]

/-- How many of the first `n` bits are clear. -/
def clearCount (b : Bits) (n : ℕ) : ℕ := ((Finset.range n).filter fun i => test b i = false).card

theorem clearCount_set {b : Bits} {n i : ℕ} (hi : i < n) (h : test b i = false) :
    clearCount (set b i) n + 1 = clearCount b n := by
  unfold clearCount
  have he : (Finset.range n).filter (fun j => test (set b i) j = false) =
      ((Finset.range n).filter fun j => test b j = false).erase i := by
    ext j
    simp only [Finset.mem_filter, Finset.mem_erase, test_set, Bool.or_eq_false_iff,
      decide_eq_false_iff_not]
    tauto
  rw [he]
  exact Finset.card_erase_add_one (by simp [hi, h])

theorem clearCount_eq_zero {b : Bits} {n : ℕ} :
    clearCount b n = 0 ↔ ∀ i < n, test b i = true := by
  simp [clearCount, Finset.filter_eq_empty_iff]

theorem scan_clear_none {b : Bits} {n : ℕ} :
    scan (fun i => !test b i) n 0 = none ↔ clearCount b n = 0 := by
  simp [scan_none, clearCount_eq_zero]

end Bitset

import Mathlib.Data.Nat.Digits.Lemmas

/-! # Numerals in positional notation

Every number has exactly one numeral without leading zeros. -/
namespace Numeral

variable {b n : ℕ} {ds : List ℕ}

/-- The number that digits stand for, the most significant first. -/
def value (b : ℕ) (ds : List ℕ) : ℕ := Nat.ofDigits b ds.reverse

structure Canonical (b n : ℕ) (ds : List ℕ) : Prop where
  digit : ∀ d ∈ ds, d < b
  value : value b ds = n
  nonempty : ds ≠ []
  leading : ds.head? = some 0 → ds = [0]

theorem canonical_zero (hb : 1 < b) : Canonical b 0 [0] := by
  constructor
  · intro d hd
    rw [List.mem_singleton.mp hd]
    omega
  · simp [Numeral.value]
  · exact List.cons_ne_nil _ _
  · exact fun _ => rfl

theorem canonical_digits (hb : 1 < b) (hn : n ≠ 0) : Canonical b n (Nat.digits b n).reverse := by
  have hne : Nat.digits b n ≠ [] := Nat.digits_ne_nil_iff_ne_zero.mpr hn
  constructor
  · intro d hd
    exact Nat.digits_lt_base hb (List.mem_reverse.mp hd)
  · rw [Numeral.value, List.reverse_reverse, Nat.ofDigits_digits]
  · exact fun h => hne (List.reverse_eq_nil_iff.mp h)
  · intro hz
    rw [List.head?_reverse, List.getLast?_eq_getLast_of_ne_nil hne, Option.some.injEq] at hz
    exact absurd hz (Nat.getLast_digit_ne_zero b hn)

theorem Canonical.unique {ds' : List ℕ} (hb : 1 < b) (h : Canonical b n ds)
    (h' : Canonical b n ds') : ds = ds' := by
  have hform : ∀ {ds : List ℕ}, Canonical b n ds →
      ds = if n = 0 then [0] else (Nat.digits b n).reverse := by
    intro ds h
    by_cases hz : ds.head? = some 0
    · have hzero := h.leading hz
      have hn : n = 0 := by
        rw [← h.value, hzero]
        simp [Numeral.value]
      rw [if_pos hn, hzero]
    · have hdigits : Nat.digits b n = ds.reverse := by
        rw [← h.value, Numeral.value]
        apply Nat.digits_ofDigits b hb
        · exact fun d hd => h.digit d (List.mem_reverse.mp hd)
        · intro hne hlast
          apply hz
          rw [← List.getLast?_reverse, List.getLast?_eq_getLast_of_ne_nil hne, hlast]
      have hn : n ≠ 0 := by
        rintro rfl
        rw [Nat.digits_zero] at hdigits
        exact h.nonempty (List.reverse_eq_nil_iff.mp hdigits.symm)
      rw [if_neg hn, hdigits, List.reverse_reverse]
  rw [hform h, hform h']

structure Fixed (b w n : ℕ) (ds : List ℕ) : Prop where
  digit : ∀ d ∈ ds, d < b
  value : value b ds = n
  length : ds.length = w

theorem value_cons (b d : ℕ) (ds : List ℕ) :
    value b (d :: ds) = d * b ^ ds.length + value b ds := by
  rw [value, List.reverse_cons, Nat.ofDigits_append, Nat.ofDigits_singleton, List.length_reverse,
    Nat.add_comm, Nat.mul_comm]
  rfl

theorem value_range (b n w : ℕ) :
    value b ((List.range w).map fun k => n / b ^ (w - 1 - k) % b) = n % b ^ w := by
  induction w with
  | zero => simp [value, Nat.mod_one]
  | succ w ih =>
    have hrest : ((List.range w).map fun k => n / b ^ (w + 1 - 1 - (k + 1)) % b) =
        (List.range w).map fun k => n / b ^ (w - 1 - k) % b := by
      refine List.map_congr_left fun k _ => ?_
      rw [show w + 1 - 1 - (k + 1) = w - 1 - k by omega]
    rw [List.range_succ_eq_map, List.map_cons, List.map_map, value_cons]
    rw [show (fun k => n / b ^ (w + 1 - 1 - k) % b) ∘ Nat.succ =
      fun k => n / b ^ (w + 1 - 1 - (k + 1)) % b from rfl, hrest, ih, List.length_map,
      List.length_range, Nat.pow_succ, Nat.mod_mul]
    show n / b ^ w % b * b ^ w + n % b ^ w = n % b ^ w + b ^ w * (n / b ^ w % b)
    rw [Nat.add_comm, Nat.mul_comm]

theorem fixed_digits {w : ℕ} (hb : 0 < b) (hn : n < b ^ w) :
    Fixed b w n ((List.range w).map fun k => n / b ^ (w - 1 - k) % b) where
  digit d hd := by
    obtain ⟨k, -, rfl⟩ := List.mem_map.mp hd
    exact Nat.mod_lt _ hb
  value := by rw [value_range, Nat.mod_eq_of_lt hn]
  length := by rw [List.length_map, List.length_range]

theorem Fixed.unique {w : ℕ} {ds' : List ℕ} (hb : 1 < b) (h : Fixed b w n ds)
    (h' : Fixed b w n ds') : ds = ds' := by
  apply List.reverse_injective
  apply Nat.ofDigits_inj_of_len_eq hb
  · rw [List.length_reverse, List.length_reverse, h.length, h'.length]
  · exact fun d hd => h.digit d (List.mem_reverse.mp hd)
  · exact fun d hd => h'.digit d (List.mem_reverse.mp hd)
  · exact h.value.trans h'.value.symm

end Numeral

import Mathlib.Data.List.FinRange
import Mathlib.Data.Fin.Basic
import Mathlib.Tactic.Abel
import Mathlib.Data.ZMod.Defs

/-! # Scans round a ring of places

A scan starts behind a place and comes to that place last. Whoever is found is at least as
near as everybody who could have been found. -/
namespace Cyclic

variable {n : ℕ} [NeZero n] {i j k : Fin n}

/-- How far `j` lies behind `i`; a full turn if they are the same. -/
def distance (i j : Fin n) : ℕ := (j - i - 1).val + 1

/-- All places, from the one behind `i` round to `i`. -/
def scan (i : Fin n) : List (Fin n) := (List.finRange n).map fun k => i + 1 + k

theorem distance_pos (i j : Fin n) : 0 < distance i j := Nat.succ_pos _

theorem distance_le (i j : Fin n) : distance i j ≤ n := (j - i - 1).isLt

/-- Nobody lies further behind than the place itself. -/
theorem distance_self_max (i j : Fin n) : distance i j ≤ distance i i := by
  have hself : distance i i = n := by
    obtain ⟨m, rfl⟩ := Nat.exists_eq_succ_of_ne_zero (NeZero.ne n)
    rw [distance, sub_self, zero_sub, Fin.coe_neg_one]
  rw [hself]
  exact distance_le i j

theorem distance_scan (i k : Fin n) : distance i (i + 1 + k) = k.val + 1 := by
  have h : i + 1 + k - i - 1 = k := by abel
  rw [distance, h]

theorem distance_injective (h : distance i j = distance i k) : j = k := by
  have hv : j - i - 1 = k - i - 1 := Fin.ext (Nat.succ.inj h)
  exact sub_left_injective (sub_left_injective hv)

theorem exists_scan (i j : Fin n) : ∃ k, j = i + 1 + k := ⟨j - i - 1, by abel⟩

theorem distance_add (h : distance i k < distance i j) :
    distance i k + distance k j = distance i j := by
  obtain ⟨a, rfl⟩ := exists_scan i k
  obtain ⟨b, rfl⟩ := exists_scan i j
  rw [distance_scan, distance_scan] at h ⊢
  have hlt : a < b := by omega
  have hgap : i + 1 + b - (i + 1 + a) - 1 = b - a - 1 := by abel
  have hsub : (b - a).val = b.val - a.val := Fin.sub_val_of_le hlt.le
  have hone : (1 : Fin n).val = 1 := by
    rw [Fin.val_one']
    have := b.isLt
    exact Nat.mod_eq_of_lt (by omega)
  have hpred : (b - a - 1).val = (b - a).val - 1 := by
    rw [← hone]
    apply Fin.sub_val_of_le
    rw [Fin.le_def, hone, hsub]
    omega
  rw [distance, hgap, hpred, hsub]
  omega

theorem distance_le_of_find {P : Fin n → Bool} (h : (scan i).find? P = some k) (hj : P j = true) :
    distance i k ≤ distance i j := by
  obtain ⟨b, rfl⟩ := exists_scan i j
  obtain ⟨hk, m, hm, hget, hbefore⟩ := List.find?_eq_some_iff_getElem.mp h
  have hlen : (scan i).length = n := by rw [scan, List.length_map, List.length_finRange]
  have hscan : ∀ (l : ℕ) (hl : l < (scan i).length), (scan i)[l] = i + 1 + ⟨l, hlen ▸ hl⟩ := by
    intro l hl
    simp [scan]
  rw [hscan m hm] at hget
  rw [← hget, distance_scan, distance_scan]
  by_contra hlt
  have hb := hbefore b.val (by simp only at hlt; omega)
  rw [hscan] at hb
  simp [hj] at hb

end Cyclic

import Mathlib.Data.BitVec
import Mathlib.Data.List.Basic
import Mathlib.Logic.Function.Basic

/-! # Queues in a ring addressed by free-running counters

A counter of `w` bits is never reset; the slot it stands for is its value modulo the
size of the ring, which divides `2 ^ w`. -/
namespace Ring

variable {α : Type*} {w n : ℕ}

/-- The ring holds `xs`, oldest first, in the slots from `tail` on. -/
def Window (slot : BitVec w → Fin n) (buf : Fin n → α) (tail : BitVec w) (xs : List α) : Prop :=
  ∀ i (hi : i < xs.length), buf (slot (tail + BitVec.ofNat w i)) = xs[i]

/-- Counters share a slot exactly when they agree modulo the size. -/
structure Slots (slot : BitVec w → Fin n) : Prop where
  dvd : n ∣ 2 ^ w
  slot_val : ∀ c, (slot c).val = c.toNat % n

variable {slot : BitVec w → Fin n} {buf : Fin n → α} {tail : BitVec w} {xs ys : List α} {x : α}

theorem Slots.add_val (hs : Slots slot) (c : BitVec w) (i : ℕ) :
    (slot (c + BitVec.ofNat w i)).val = (c.toNat + i) % n := by
  rw [hs.slot_val, BitVec.toNat_add, BitVec.toNat_ofNat, Nat.add_mod_mod,
    Nat.mod_mod_of_dvd _ hs.dvd]

/-- Fewer than a full turn apart, two counters have different slots. -/
theorem Slots.add_ne (hs : Slots slot) (c : BitVec w) {i j : ℕ} (hij : i < j) (hj : j < i + n) :
    slot (c + BitVec.ofNat w i) ≠ slot (c + BitVec.ofNat w j) := by
  intro h
  have hv := congrArg Fin.val h
  rw [hs.add_val, hs.add_val] at hv
  have hd : n ∣ (c.toNat + j) - (c.toNat + i) :=
    (Nat.modEq_iff_dvd' (by omega)).mp hv
  have hle := Nat.le_of_dvd (by omega) hd
  omega

theorem Window.nil : Window slot buf tail ([] : List α) := fun _ hi => absurd hi (by simp)

theorem Window.prefix (h : Window slot buf tail (xs ++ ys)) : Window slot buf tail xs := by
  intro i hi
  rw [h i (by rw [List.length_append]; omega), List.getElem_append_left hi]

theorem Window.first (h : Window slot buf tail (x :: xs)) : buf (slot tail) = x := by
  have h0 := h 0 (Nat.zero_lt_succ _)
  rw [show BitVec.ofNat w 0 = 0#w from rfl, BitVec.add_zero] at h0
  exact h0

theorem Window.pop (h : Window slot buf tail (x :: xs)) : Window slot buf (tail + 1) xs := by
  intro i hi
  have hc : tail + 1 + BitVec.ofNat w i = tail + BitVec.ofNat w (i + 1) := by
    rw [BitVec.ofNat_add, BitVec.add_assoc, BitVec.add_comm 1]
    rfl
  rw [hc]
  exact h (i + 1) (Nat.succ_lt_succ hi)

theorem Window.push (hs : Slots slot) (h : Window slot buf tail xs) (hroom : xs.length < n)
    (x : α) : Window slot (Function.update buf (slot (tail + BitVec.ofNat w xs.length)) x) tail
      (xs ++ [x]) := by
  intro i hi
  rcases lt_or_eq_of_le (Nat.le_of_lt_succ (by simpa using hi : i < xs.length + 1)) with hlt | rfl
  · rw [Function.update_of_ne (hs.add_ne tail hlt (by omega)), h i hlt,
      List.getElem_append_left hlt]
  · rw [Function.update_self]
    exact (List.getElem_concat_length rfl _).symm

/-- Reading the slots between two counters gives the elements between their places. -/
theorem Window.range (h : Window slot buf tail xs) {a b : ℕ} (hb : b ≤ xs.length) :
    (List.range (b - a)).map (fun i => buf (slot (tail + BitVec.ofNat w a + BitVec.ofNat w i))) =
      (xs.take b).drop a := by
  apply List.ext_getElem
  · simp only [List.length_map, List.length_range, List.length_drop, List.length_take]
    omega
  · intro i hi _
    have hlt : a + i < b := by
      simp only [List.length_map, List.length_range] at hi
      omega
    have hx : a + i < xs.length := by omega
    have hread := h (a + i) hx
    rw [BitVec.ofNat_add, ← BitVec.add_assoc] at hread
    simp only [List.getElem_map, List.getElem_range, List.getElem_drop, List.getElem_take]
    exact hread

end Ring

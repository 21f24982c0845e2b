import Lazux.Lib.PagedMemory

/-! # Words in a byte memory

The bytes a program can read and write, where words are little-endian and may lie at any
address. An access to a byte that is not there fails as a whole. -/
namespace ByteMemory

open PagedMemory

abbrev Bytes := Addr → Option Byte

variable {m m' : Bytes} {a b x : Addr} {n k w : ℕ}

def load (m : Bytes) (a : Addr) : ℕ → Option ℕ
  | 0 => some 0
  | n + 1 => do
    let low ← m a
    let high ← load m (a + 1) n
    pure (low.toNat + 256 * high)

def byteAt (w i : ℕ) : Byte := BitVec.ofNat 8 (w / 256 ^ i)

/-- The `n` bytes at `a` hold the word `w` afterwards. -/
def store (m : Bytes) (a : Addr) (n w : ℕ) : Option Bytes :=
  if ∀ i < n, (m (a + BitVec.ofNat 64 i)).isSome then
    some fun x => if (x - a).toNat < n then some (byteAt w (x - a).toNat) else m x
  else none

theorem load_congr (h : ∀ i < n, m' (a + BitVec.ofNat 64 i) = m (a + BitVec.ofNat 64 i)) :
    load m' a n = load m a n := by
  induction n generalizing a with
  | zero => rfl
  | succ n ih =>
    have hfirst : m' a = m a := by simpa using h 0 (Nat.succ_pos n)
    have hrest : load m' (a + 1) n = load m (a + 1) n := by
      apply ih
      intro i hi
      have hnext := h (i + 1) (Nat.succ_lt_succ hi)
      rw [Nat.add_comm i 1, BitVec.ofNat_add, ← BitVec.add_assoc] at hnext
      exact hnext
    simp only [load, hfirst, hrest]

theorem load_bytes (h : ∀ i < n, m (a + BitVec.ofNat 64 i) = some (byteAt w (k + i))) :
    load m a n = some (w / 256 ^ k % 256 ^ n) := by
  induction n generalizing a k with
  | zero => simp [load, Nat.mod_one]
  | succ n ih =>
    have hfirst : m a = some (byteAt w k) := by simpa using h 0 (Nat.succ_pos n)
    have hrest : load m (a + 1) n = some (w / 256 ^ (k + 1) % 256 ^ n) := by
      apply ih
      intro i hi
      have hnext := h (i + 1) (Nat.succ_lt_succ hi)
      rw [Nat.add_comm i 1, BitVec.ofNat_add, ← BitVec.add_assoc, ← Nat.add_assoc] at hnext
      exact hnext
    have hsplit : w / 256 ^ k % 256 ^ (n + 1) =
        w / 256 ^ k % 256 + 256 * (w / 256 ^ (k + 1) % 256 ^ n) := by
      rw [Nat.pow_succ', Nat.mod_mul, Nat.div_div_eq_div_mul, Nat.pow_succ]
    simp only [load, hfirst, hrest, Option.bind_eq_bind, Option.bind_some, Option.pure_def]
    rw [hsplit, byteAt, BitVec.toNat_ofNat]

theorem store_isSome : (store m a n w).isSome ↔ ∀ i < n, (m (a + BitVec.ofNat 64 i)).isSome := by
  unfold store
  split
  · rename_i h
    exact iff_of_true rfl h
  · rename_i h
    exact iff_of_false Bool.false_ne_true h

theorem store_eq (h : store m a n w = some m') (x : Addr) :
    m' x = if (x - a).toNat < n then some (byteAt w (x - a).toNat) else m x := by
  unfold store at h
  split at h
  · exact congrFun (Option.some.inj h).symm x
  · cases h

theorem store_mapped (h : store m a n w = some m') (x : Addr) : (m' x).isSome = (m x).isSome := by
  rw [store_eq h]
  split
  · rename_i hx
    have hall := store_isSome.mp (Option.isSome_of_eq_some h) _ hx
    have hback : a + BitVec.ofNat 64 (x - a).toNat = x := by
      rw [BitVec.ofNat_toNat, BitVec.setWidth_eq, BitVec.add_comm, BitVec.sub_add_cancel]
    rw [hback] at hall
    rw [hall]
    rfl
  · rfl

theorem store_succ (h : store m a (n + 1) w = some m') (hn : n < 2 ^ 64) : ∃ m₁,
    store m a n w = some m₁ ∧
    m' = Function.update m₁ (a + BitVec.ofNat 64 n) (some (byteAt w n)) ∧
    (m₁ (a + BitVec.ofNat 64 n)).isSome := by
  have hall := store_isSome.mp (Option.isSome_of_eq_some h)
  have hfirst : (store m a n w).isSome := store_isSome.mpr fun i hi => hall i (Nat.lt_succ_of_lt hi)
  obtain ⟨m₁, h₁⟩ := Option.isSome_iff_exists.mp hfirst
  refine ⟨m₁, h₁, ?_, ?_⟩
  · funext x
    rw [store_eq h x]
    by_cases hx : x = a + BitVec.ofNat 64 n
    · have hlast : (x - a).toNat = n := by
        rw [hx, BitVec.add_comm, BitVec.add_sub_cancel, BitVec.toNat_ofNat]
        exact Nat.mod_eq_of_lt hn
      rw [hx, Function.update_self, ← hx, hlast, if_pos (Nat.lt_succ_self n)]
    · have hne : (x - a).toNat ≠ n := by
        intro he
        apply hx
        rw [← he, BitVec.ofNat_toNat, BitVec.setWidth_eq, BitVec.add_comm, BitVec.sub_add_cancel]
      have hiff : (x - a).toNat < n + 1 ↔ (x - a).toNat < n := by omega
      rw [Function.update_of_ne hx, store_eq h₁ x, if_congr hiff rfl rfl]
  · rw [store_mapped h₁]
    exact hall n (Nat.lt_succ_self n)

theorem load_store_same (h : store m a n w = some m') (hn : n ≤ 2 ^ 64) (hw : w < 256 ^ n) :
    load m' a n = some w := by
  have hread : load m' a n = some (w / 256 ^ 0 % 256 ^ n) := by
    apply load_bytes
    intro i hi
    have hoff : (a + BitVec.ofNat 64 i - a).toNat = i := by
      rw [BitVec.add_comm, BitVec.add_sub_cancel, BitVec.toNat_ofNat]
      exact Nat.mod_eq_of_lt (by omega)
    rw [store_eq h, hoff, if_pos hi, Nat.zero_add]
  rw [hread, Nat.pow_zero, Nat.div_one, Nat.mod_eq_of_lt hw]

theorem store_outside (h : store m a n w = some m') (ha : a.toNat + n ≤ 2 ^ 64)
    (hx : x.toNat < a.toNat ∨ a.toNat + n ≤ x.toNat) : m' x = m x := by
  rw [store_eq h, if_neg ?_]
  rw [BitVec.toNat_sub]
  omega

theorem load_store_other (h : store m a n w = some m') (ha : a.toNat + n ≤ 2 ^ 64)
    (hb : b.toNat + k ≤ 2 ^ 64) (hd : b.toNat + k ≤ a.toNat ∨ a.toNat + n ≤ b.toNat) :
    load m' b k = load m b k := by
  apply load_congr
  intro i hi
  apply store_outside h ha
  have hsum : (b + BitVec.ofNat 64 i).toNat = b.toNat + i := by
    rw [BitVec.toNat_add, BitVec.toNat_ofNat, Nat.add_mod_mod, Nat.mod_eq_of_lt (by omega)]
  omega

theorem store_exists {low high : ℕ} (w : ℕ)
    (hm : ∀ x : Addr, low ≤ x.toNat → x.toNat < high → (m x).isSome) (hhigh : high ≤ 2 ^ 64)
    (h1 : low ≤ a.toNat) (h2 : a.toNat + n ≤ high) : ∃ m', store m a n w = some m' := by
  apply Option.isSome_iff_exists.mp
  rw [store_isSome]
  intro i hi
  have hsum : (a + BitVec.ofNat 64 i).toNat = a.toNat + i := by
    rw [BitVec.toNat_add, BitVec.toNat_ofNat, Nat.add_mod_mod, Nat.mod_eq_of_lt (by omega)]
  apply hm
  · omega
  · omega

end ByteMemory

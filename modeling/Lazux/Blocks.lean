import Lazux.Malloc

/-! # The blocks of a user heap

The blocks lie one behind the other from the start of the heap to the break, and each header
points to the next block. `malloc` takes the first free block that is large enough or puts a new
one at the end. -/
namespace Lazux

open PagedMemory ByteMemory

structure Block where
  addr : Addr
  size : Word
  free : Bool

/-- The first block of a list, or what comes after it. -/
def headOr : List Block → Addr → Addr
  | [], next => next
  | b :: _, _ => b.addr

/-- The last block of a list, or what comes before it. -/
def lastOr : List Block → Addr → Addr
  | [], last => last
  | b :: bs, _ => lastOr bs b.addr

structure Block.Stored (b : Block) (next : Addr) (m : Bytes) : Prop where
  size : load m b.addr 8 = some b.size.toNat
  next : load m (b.addr + 8) 8 = some next.toNat
  isFree : load m (b.addr + 16) 4 = some b.free.toNat

/-- The blocks fill `[first, stop)`, and the last one points to `next`. -/
def Chain (m : Bytes) (next : Addr) : List Block → ℕ → ℕ → Prop
  | [], first, stop => first = stop
  | b :: bs, first, stop => b.addr.toNat = first ∧ b.Stored (headOr bs next) m ∧
      Chain m next bs (first + 24 + b.size.toNat) stop

/-- The first block that will do, and the one before it. -/
def firstFit (size : Word) : List Block → Addr → Addr × Addr
  | [], last => (0, last)
  | b :: bs, last => if b.free ∧ size ≤ b.size then (b.addr, last) else firstFit size bs b.addr

section Chains

variable {m m' : Bytes} {b c : Block} {bs cs : List Block} {next : Addr} {first stop : ℕ}
  {size : Word} {u u' : User} {va last : Addr}

theorem headOr_append (bs cs : List Block) (next : Addr) :
    headOr (bs ++ cs) next = headOr bs (headOr cs next) := by
  cases bs <;> rfl

theorem lastOr_append (bs : List Block) (b : Block) (last : Addr) :
    lastOr (bs ++ [b]) last = b.addr := by
  induction bs generalizing last with
  | nil => rfl
  | cons c bs ih => exact ih c.addr

theorem chain_append : Chain m next (bs ++ cs) first stop ↔
    ∃ mid, Chain m (headOr cs next) bs first mid ∧ Chain m next cs mid stop := by
  induction bs generalizing first with
  | nil => exact ⟨fun h => ⟨first, rfl, h⟩, fun ⟨mid, he, h⟩ => he ▸ h⟩
  | cons b bs ih =>
    rw [List.cons_append]
    constructor
    · intro ⟨ha, hs, hrest⟩
      obtain ⟨mid, h1, h2⟩ := ih.mp hrest
      rw [headOr_append] at hs
      exact ⟨mid, ⟨ha, hs, h1⟩, h2⟩
    · intro ⟨mid, ⟨ha, hs, h1⟩, h2⟩
      refine ⟨ha, ?_, ih.mpr ⟨mid, h1, h2⟩⟩
      rw [headOr_append]
      exact hs

theorem Chain.le (h : Chain m next bs first stop) : first ≤ stop := by
  induction bs generalizing first with
  | nil => exact le_of_eq h
  | cons b bs ih =>
    have := ih h.2.2
    omega

theorem Chain.span (h : Chain m next bs first stop) (hb : b ∈ bs) :
    first ≤ b.addr.toNat ∧ b.addr.toNat + 24 + b.size.toNat ≤ stop := by
  induction bs generalizing first with
  | nil => cases hb
  | cons c bs ih =>
    obtain ⟨ha, -, hrest⟩ := h
    rcases List.mem_cons.mp hb with rfl | hin
    · have := hrest.le
      omega
    · have := ih hrest hin
      omega

theorem Chain.apart (h : Chain m next bs first stop) (hb : b ∈ bs) (hc : c ∈ bs) :
    b = c ∨ b.addr.toNat + 24 + b.size.toNat ≤ c.addr.toNat ∨
      c.addr.toNat + 24 + c.size.toNat ≤ b.addr.toNat := by
  induction bs generalizing first with
  | nil => cases hb
  | cons d bs ih =>
    obtain ⟨ha, -, hrest⟩ := h
    rcases List.mem_cons.mp hb with rfl | hin
    · rcases List.mem_cons.mp hc with rfl | hin'
      · exact Or.inl rfl
      · have := (hrest.span hin').1
        exact Or.inr (Or.inl (by omega))
    · rcases List.mem_cons.mp hc with rfl | hin'
      · have := (hrest.span hin).1
        exact Or.inr (Or.inr (by omega))
      · exact ih hrest hin hin'

theorem Chain.increasing (h : Chain m next bs first stop) :
    (bs.map Block.addr).Pairwise fun x y => x.toNat < y.toNat := by
  induction bs generalizing first with
  | nil => exact List.Pairwise.nil
  | cons b bs ih =>
    obtain ⟨ha, -, hrest⟩ := h
    rw [List.map_cons, List.pairwise_cons]
    refine ⟨fun x hx => ?_, ih hrest⟩
    obtain ⟨c, hc, rfl⟩ := List.mem_map.mp hx
    have := (hrest.span hc).1
    omega

theorem toNat_add_small {a : Addr} {k n : ℕ} (h : a.toNat + n ≤ 2 ^ 64) (hk : k < n) :
    (a + BitVec.ofNat 64 k).toNat = a.toNat + k := by
  rw [BitVec.toNat_add, BitVec.toNat_ofNat, Nat.add_mod_mod, Nat.mod_eq_of_lt (by omega)]

theorem Block.Stored.congr (h : b.Stored next m) (hb : b.addr.toNat + 24 ≤ 2 ^ 64)
    (hsame : ∀ x : Addr, b.addr.toNat ≤ x.toNat → x.toNat < b.addr.toNat + 24 → m' x = m x) :
    b.Stored next m' := by
  have hword : ∀ k n, k + n ≤ 24 → load m' (b.addr + BitVec.ofNat 64 k) n =
      load m (b.addr + BitVec.ofNat 64 k) n := by
    intro k n hkn
    apply load_congr
    intro i hi
    rw [BitVec.add_assoc, ← BitVec.ofNat_add]
    have hx := toNat_add_small hb (by omega : k + i < 24)
    apply hsame
    · omega
    · omega
  constructor
  · have h0 := hword 0 8 (by omega)
    rw [BitVec.add_zero] at h0
    rw [h0]
    exact h.size
  · exact (hword 8 8 (by omega)).trans h.next
  · exact (hword 16 4 (by omega)).trans h.isFree

theorem Chain.congr (h : Chain m next bs first stop) (hstop : stop ≤ 2 ^ 64)
    (hsame : ∀ b ∈ bs, ∀ x : Addr, b.addr.toNat ≤ x.toNat → x.toNat < b.addr.toNat + 24 →
      m' x = m x) : Chain m' next bs first stop := by
  induction bs generalizing first with
  | nil => exact h
  | cons b bs ih =>
    have hspan := (h.span List.mem_cons_self).2
    obtain ⟨ha, hs, hrest⟩ := h
    refine ⟨ha, hs.congr (by omega) (hsame b List.mem_cons_self), ih hrest ?_⟩
    intro c hc
    exact hsame c (List.mem_cons_of_mem _ hc)

theorem Chain.around (h : Chain m next (bs ++ b :: cs) first stop) :
    (∀ c ∈ bs, c.addr.toNat + 24 + c.size.toNat ≤ b.addr.toNat) ∧
      ∀ c ∈ cs, b.addr.toNat + 24 + b.size.toNat ≤ c.addr.toNat := by
  obtain ⟨mid, h1, ha, -, h2⟩ := chain_append.mp h
  constructor
  · intro c hc
    have := (h1.span hc).2
    omega
  · intro c hc
    have := (h2.span hc).1
    omega

theorem Chain.stored (h : Chain m next (bs ++ b :: cs) first stop) :
    b.Stored (headOr cs next) m := by
  obtain ⟨mid, -, -, hs, -⟩ := chain_append.mp h
  exact hs

theorem Chain.stored_of_mem (h : Chain m next bs first stop) (hb : b ∈ bs) : ∃ z, b.Stored z m := by
  obtain ⟨pre, post, rfl⟩ := List.append_of_mem hb
  exact ⟨_, h.stored⟩

theorem Chain.replace {f : Bool} (h : Chain m next (bs ++ b :: cs) first stop)
    (hs : Block.Stored { b with free := f } (headOr cs next) m') (hstop : stop ≤ 2 ^ 64)
    (hsame : ∀ c, c ∈ bs ∨ c ∈ cs → ∀ x : Addr, c.addr.toNat ≤ x.toNat →
      x.toNat < c.addr.toNat + 24 → m' x = m x) :
    Chain m' next (bs ++ { b with free := f } :: cs) first stop := by
  obtain ⟨mid, h1, ha, -, h2⟩ := chain_append.mp h
  have hb := h.span (List.mem_append_right bs List.mem_cons_self)
  refine chain_append.mpr ⟨mid, h1.congr ?_ ?_, ha, hs, h2.congr hstop ?_⟩
  · have := h2.le
    omega
  · intro c hc
    exact hsame c (Or.inl hc)
  · intro c hc
    exact hsame c (Or.inr hc)

theorem toNat_header (h : b.addr.toNat + 24 ≤ 2 ^ 64) :
    (b.addr + 8).toNat = b.addr.toNat + 8 ∧ (b.addr + 16).toNat = b.addr.toNat + 16 :=
  ⟨toNat_add_small h (k := 8) (by omega), toNat_add_small h (k := 16) (by omega)⟩

theorem Block.Stored.setFree {f : Bool} (h : b.Stored next m) (hb : b.addr.toNat + 24 ≤ 2 ^ 64)
    (hm : store m (b.addr + 16) 4 f.toNat = some m') :
    Block.Stored { b with free := f } next m' := by
  obtain ⟨h8, h16⟩ := toNat_header hb
  have hsize : load m' b.addr 8 = some b.size.toNat := by
    rw [load_store_other hm (by omega) (by omega) (by omega)]
    exact h.size
  have hnext : load m' (b.addr + 8) 8 = some next.toNat := by
    rw [load_store_other hm (by omega) (by omega) (by omega)]
    exact h.next
  refine ⟨hsize, hnext, ?_⟩
  apply load_store_same hm (by omega)
  cases f <;> decide

theorem Block.Stored.setNext {z : Addr} (h : b.Stored next m) (hb : b.addr.toNat + 24 ≤ 2 ^ 64)
    (hm : store m (b.addr + 8) 8 z.toNat = some m') : b.Stored z m' := by
  obtain ⟨h8, h16⟩ := toNat_header hb
  constructor
  · rw [load_store_other hm (by omega) (by omega) (by omega)]
    exact h.size
  · exact load_store_same hm (by omega) z.isLt
  · rw [load_store_other hm (by omega) (by omega) (by omega)]
    exact h.isFree

theorem Block.Stored.made {m₁ m₂ : Bytes} (hb : b.addr.toNat + 24 ≤ 2 ^ 64)
    (h1 : store m b.addr 8 b.size.toNat = some m₁)
    (h2 : store m₁ (b.addr + 16) 4 b.free.toNat = some m₂)
    (h3 : store m₂ (b.addr + 8) 8 next.toNat = some m') : b.Stored next m' := by
  obtain ⟨h8, h16⟩ := toNat_header hb
  constructor
  · rw [load_store_other h3 (by omega) (by omega) (by omega),
      load_store_other h2 (by omega) (by omega) (by omega)]
    exact load_store_same h1 (by omega) b.size.isLt
  · exact load_store_same h3 (by omega) next.isLt
  · rw [load_store_other h3 (by omega) (by omega) (by omega)]
    apply load_store_same h2 (by omega)
    cases b.free <;> decide

theorem load_eq {w n : ℕ} (h : ByteMemory.load u.mem va n = some w) :
    u.load va n = .ok (BitVec.ofNat 64 w) := by
  rw [User.load, h]

theorem Block.Stored.fits (h : b.Stored next u.mem) :
    u.fits b.addr size = .ok (decide (b.free = true ∧ size ≤ b.size)) := by
  have hfree := load_eq h.isFree
  have hsize := load_eq h.size
  rw [BitVec.ofNat_toNat, BitVec.setWidth_eq] at hsize
  unfold User.fits
  rw [hfree, hsize]
  cases hf : b.free with
  | true => simp [bind, Except.bind, pure, Except.pure]
  | false => simp [bind, Except.bind, pure, Except.pure]

theorem findFreeBlock_eq (h : Chain u.mem 0 bs first stop) (hpos : ∀ b ∈ bs, b.addr ≠ 0)
    (fuel : ℕ) (last : Addr) :
    findFreeBlock u size fuel (headOr bs 0) last = .ok (firstFit size bs last) ∨
      fuel ≤ bs.length ∧ findFreeBlock u size fuel (headOr bs 0) last = .error .loops := by
  induction bs generalizing first fuel last with
  | nil =>
    cases fuel with
    | zero => exact Or.inr ⟨Nat.le_refl 0, rfl⟩
    | succ fuel => exact Or.inl rfl
  | cons b bs ih =>
    cases fuel with
    | zero => exact Or.inr ⟨Nat.zero_le _, rfl⟩
    | succ fuel =>
      obtain ⟨ha, hs, hrest⟩ := h
      have hne : b.addr ≠ 0 := hpos b List.mem_cons_self
      have hnext := load_eq hs.next
      rw [BitVec.ofNat_toNat, BitVec.setWidth_eq] at hnext
      have hstep : findFreeBlock u size (fuel + 1) b.addr last =
          if b.free ∧ size ≤ b.size then .ok (b.addr, last)
          else findFreeBlock u size fuel (headOr bs 0) b.addr := by
        rw [findFreeBlock, if_neg hne, hs.fits, hnext]
        by_cases hfit : b.free = true ∧ size ≤ b.size
        · rw [if_pos hfit]
          simp [hfit, bind, Except.bind, pure, Except.pure]
        · rw [if_neg hfit]
          simp [hfit, bind, Except.bind]
      rw [headOr, hstep, firstFit]
      by_cases hfit : b.free = true ∧ size ≤ b.size
      · rw [if_pos hfit, if_pos hfit]
        exact Or.inl rfl
      · rw [if_neg hfit, if_neg hfit]
        rcases ih hrest (fun c hc => hpos c (List.mem_cons_of_mem _ hc)) fuel b.addr
          with hok | ⟨hf, hl⟩
        · exact Or.inl hok
        · exact Or.inr ⟨Nat.succ_le_succ hf, hl⟩

theorem firstFit_cases (size : Word) (bs : List Block) (last : Addr) :
    (∃ pre b post, bs = pre ++ b :: post ∧ b.free = true ∧ size ≤ b.size ∧
      firstFit size bs last = (b.addr, lastOr pre last)) ∨
    ((∀ b ∈ bs, ¬ (b.free = true ∧ size ≤ b.size)) ∧
      firstFit size bs last = (0, lastOr bs last)) := by
  induction bs generalizing last with
  | nil =>
    right
    exact ⟨fun b hb => (List.not_mem_nil hb).elim, rfl⟩
  | cons b bs ih =>
    rw [firstFit]
    by_cases hfit : b.free = true ∧ size ≤ b.size
    · left
      exact ⟨[], b, bs, rfl, hfit.1, hfit.2, if_pos hfit⟩
    · rw [if_neg hfit]
      rcases ih b.addr with ⟨pre, c, post, rfl, hf, hle, he⟩ | ⟨hnone, he⟩
      · left
        exact ⟨b :: pre, c, post, rfl, hf, hle, he⟩
      · right
        refine ⟨fun c hc => ?_, he⟩
        rcases List.mem_cons.mp hc with rfl | hin
        · exact hfit
        · exact hnone c hin

end Chains

end Lazux

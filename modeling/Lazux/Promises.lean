import Lazux.UserHeap

/-! # What `malloc` promises

A pointer stands for memory that was granted only if the request reached the kernel in full and
was not refused: of the answers that mean failure `malloc` knows none. -/
namespace Lazux

open PagedMemory ByteMemory Run

section Promises

variable {start : Addr} {l : Ledger} {u u' : User} {bs : List Block} {b : Block}
  {first fuel : ℕ} {size : Word} {frames : Bool} {p last e : Addr}

theorem store_heapBreak {va : Addr} {n : ℕ} {w : Word} (h : u.store va n w = .ok u') :
    u'.heapBreak = u.heapBreak := by
  unfold User.store at h
  split at h
  · obtain rfl := Except.ok.inj h
    rfl
  · cases h

theorem newBlock_at (h : newBlock frames last size u = .ok (p, u'))
    (hanswer : (u.sbrk frames ((metaSize + size).setWidth 32)).1 ≠ -1) :
    p = (u.sbrk frames ((metaSize + size).setWidth 32)).1 + metaSize ∧
      u'.heapBreak = (u.sbrk frames ((metaSize + size).setWidth 32)).2.heapBreak := by
  unfold newBlock at h
  dsimp only at h
  rw [if_neg hanswer] at h
  obtain ⟨u₁, h1, h⟩ := bind_eq_ok.mp h
  obtain ⟨u₂, h2, h⟩ := bind_eq_ok.mp h
  obtain ⟨u₃, h3, h⟩ := bind_eq_ok.mp h
  have hbreak := ((store_heapBreak h3).trans (store_heapBreak h2)).trans (store_heapBreak h1)
  split at h
  · obtain ⟨rfl, rfl⟩ := Prod.mk.inj (Except.ok.inj h)
    exact ⟨rfl, hbreak⟩
  · obtain ⟨u₄, h4, h⟩ := bind_eq_ok.mp h
    obtain ⟨rfl, rfl⟩ := Prod.mk.inj (Except.ok.inj h)
    exact ⟨rfl, (store_heapBreak h4).trans hbreak⟩

/-- `malloc` finds no free block and is refused with `e`. -/
structure Fails (u : User) (frames : Bool) (fuel : ℕ) (size : Word) (e : Addr) : Prop where
  asked : size ≠ 0
  search : ∃ last, findFreeBlock u size fuel u.globalBase 0 = .ok (0, last)
  code : e = eNomem ∨ e = ePerm
  answer : u.sbrk frames ((metaSize + size).setWidth 32) = (e, u)

/-- `malloc` returns 0 and leaves everything as it was. -/
def Honours (u : User) (frames : Bool) (fuel : ℕ) (size : Word) : Prop :=
  malloc frames fuel size u = .ok (0, u)

/-- Whenever `malloc` is refused, it writes a header through the error code, if it can, and never
returns 0. -/
theorem refusal_not_honoured (h : Fails u frames fuel size e) :
    ¬ Honours u frames fuel size ∧ (malloc frames fuel size u = .error (.fault e) ∨
      ∃ u₁, u.store e 8 size = .ok u₁ ∧ ∀ u', malloc frames fuel size u ≠ .ok (0, u')) := by
  obtain ⟨h0, ⟨last, hsearch⟩, hcode, hanswer⟩ := h
  have he : e ≠ -1 ∧ e + metaSize ≠ 0 := by
    rcases hcode with rfl | rfl
    · exact ⟨by decide, by decide⟩
    · exact ⟨by decide, by decide⟩
  have hgoes : malloc frames fuel size u = newBlock frames last size u := by
    rw [malloc, if_neg h0, hsearch]
    rfl
  have hne : (u.sbrk frames ((metaSize + size).setWidth 32)).1 ≠ -1 := by
    rw [hanswer]
    exact he.1
  have hnull : ∀ u', malloc frames fuel size u ≠ .ok (0, u') := by
    intro u' hret
    rw [hgoes] at hret
    have hp := (newBlock_at hret hne).1
    rw [hanswer] at hp
    exact he.2 hp.symm
  refine ⟨hnull u, ?_⟩
  cases hstore : u.store e 8 size with
  | error halt =>
    left
    rw [hgoes]
    unfold newBlock
    rw [hanswer]
    dsimp only
    rw [if_neg he.1, hstore]
    unfold User.store at hstore
    split at hstore
    · cases hstore
    · obtain rfl := Except.error.inj hstore
      rfl
  | ok u₁ => exact Or.inr ⟨u₁, rfl, hnull⟩

def onePage : User :=
  ⟨fun va => if 0x400000 ≤ va ∧ va < 0x401000 then some 0 else none, 0x401000, 0⟩

/-- A request for more than the heap may hold faults at the error code. -/
theorem refusal_faults : Fails onePage true 1 0x3FFFE000 eNomem ∧
    ¬ Honours onePage true 1 0x3FFFE000 ∧
    malloc true 1 0x3FFFE000 onePage = .error (.fault eNomem) := by
  have hfault : malloc true 1 0x3FFFE000 onePage = .error (.fault eNomem) := by rfl
  refine ⟨⟨by decide, ⟨0, by rfl⟩, Or.inl rfl, by rfl⟩, ?_, hfault⟩
  rw [Honours, hfault]
  simp

theorem refusal_not_honoured_page : ¬ Honours onePage true 1 0x3FFFE000 :=
  (refusal_not_honoured (e := eNomem) ⟨by decide, ⟨0, by rfl⟩, Or.inl rfl, by rfl⟩).1

/-- The block at `p` was granted in full: it lies between the start of the heap and the break. -/
def Promised (start : Addr) (size : Word) (p : Addr) (u' : User) : Prop :=
  ∃ room, load u'.mem (p - metaSize) 8 = some room ∧ size.toNat ≤ room ∧
    start.toNat ≤ (p - metaSize).toNat ∧ (p - metaSize).toNat + 24 + room ≤ u'.heapBreak.toNat

/-- A free block is large enough, or the request is below 2 GiB and there is room for it. -/
def Granted (u : User) (frames : Bool) (size : Word) : Prop :=
  size = 0 ∨ u.Fits size ∨ Room u frames size

theorem Arranged.break_not_error (h : Arranged start l u bs first)
    (haligned : start.toNat % 4096 = 0) : u.heapBreak ≠ -1 ∧ u.heapBreak + metaSize ≠ 0 := by
  have hne : u.heapBreak.toNat ≤ 2 ^ 64 - 4096 := by
    have hlt := start.isLt
    rcases h.bounded with ⟨hstart, -⟩ | hle
    · rw [hstart]
      omega
    · rw [heapLimit_toNat] at hle
      omega
  constructor
  · intro he
    rw [he] at hne
    exact absurd hne (by decide)
  · intro he
    have hzero := congrArg BitVec.toNat he
    rw [BitVec.toNat_add, metaSize] at hzero
    change (u.heapBreak.toNat + 24) % 2 ^ 64 = 0 at hzero
    omega

theorem Arranged.room_of_promise (h : Arranged start l u bs first)
    (haligned : start.toNat % 4096 = 0) (hret : newBlock frames last size u = .ok (p, u'))
    (hp : p = 0 ∨ Promised start size p u') : Room u frames size := by
  obtain ⟨hbreak, hnull⟩ := h.break_not_error haligned
  have hback : ∀ a : Addr, a + metaSize - metaSize = a := fun a => by rw [BitVec.add_sub_cancel]
  -- an answer above the new break is no promise
  have hno : ∀ a v, u.sbrk frames ((metaSize + size).setWidth 32) = (a, v) → a ≠ -1 →
      a + metaSize ≠ 0 → a.toNat + 24 + size.toNat ≤ v.heapBreak.toNat := by
    intro a v hs ha hz
    obtain ⟨hpa, hb⟩ := newBlock_at hret (by rw [hs]; exact ha)
    rw [hs] at hpa hb
    rcases hp with h0 | ⟨room, -, hle, -, hend⟩
    · exact absurd (hpa.symm.trans h0) hz
    · rw [hpa, hback, hb] at hend
      dsimp only at hend
      omega
  have hrefused : ∀ a, u.sbrk frames ((metaSize + size).setWidth 32) = (a, u) →
      a = u.heapBreak ∨ a = eNomem ∨ a = ePerm → False := by
    intro a hs hcase
    rcases hcase with rfl | rfl | rfl
    · have := hno _ _ hs hbreak hnull
      omega
    · have hend := hno _ _ hs (by decide) (by decide)
      have := u.heapBreak.isLt
      have hval : (eNomem : Addr).toNat = 2 ^ 64 - 4 := by decide
      omega
    · have hend := hno _ _ hs (by decide) (by decide)
      have := u.heapBreak.isLt
      have hval : (ePerm : Addr).toNat = 2 ^ 64 - 5 := by decide
      omega
  have hsbrk : u.sbrk frames ((metaSize + size).setWidth 32) = u.sysSbrk frames (request size) :=
    rfl
  by_cases h0 : request size = 0
  · refine (hrefused _ ?_ (Or.inl rfl)).elim
    rw [hsbrk, User.sysSbrk, if_pos h0]
  by_cases hneg : (request size).msb
  · refine (hrefused _ ?_ (Or.inr (Or.inr rfl))).elim
    rw [hsbrk, User.sysSbrk, if_neg h0, if_pos hneg]
  by_cases hmax : u.heapBreak + request size > heapLimit
  · refine (hrefused _ ?_ (Or.inr (Or.inl rfl))).elim
    rw [hsbrk, User.sysSbrk, if_neg h0, if_neg hneg, if_pos hmax]
  cases hframes : frames with
  | false =>
    refine (hrefused _ ?_ (Or.inr (Or.inl rfl))).elim
    rw [hsbrk, User.sysSbrk, if_neg h0, if_neg hneg, if_neg hmax, hframes]
    rfl
  | true =>
    have hg : u.Grants frames (request size) := ⟨h0, hneg, hmax, hframes⟩
    have hend := hno _ _ (sbrk_granted hg) hbreak hnull
    have hsmall : (request size).toNat < 2 ^ 31 := by
      have hint : (request size).toInt = ((metaSize + size).setWidth 32).toInt :=
        BitVec.toInt_signExtend_of_le (by decide)
      have hlow := @BitVec.toInt_lt 32 ((metaSize + size).setWidth 32)
      rw [BitVec.toInt_eq_toNat_of_msb (by simpa using hneg)] at hint
      omega
    have hsum : ((u.grow (request size)).heapBreak).toNat =
        (u.heapBreak.toNat + (request size).toNat) % 2 ^ 64 := BitVec.toNat_add _ _
    change _ ≤ (u.grow (request size)).heapBreak.toNat at hend
    rw [gt_iff_lt, BitVec.lt_def] at hmax
    change ¬ heapLimit.toNat < (u.grow (request size)).heapBreak.toNat at hmax
    have hlt := u.heapBreak.isLt
    refine ⟨by omega, by omega, rfl⟩

/-- In a run whose requests are granted the next pointer is a promise that is kept exactly if its
request is granted, too. -/
theorem promise_iff_granted (maxEnd : Addr) (h : Uses Granted (pageCeil maxEnd) l u)
    (h0 : size ≠ 0) :
    (∃ fuel p u', malloc frames fuel size u = .ok (p, u') ∧
      (p = 0 ∨ Promised (pageCeil maxEnd) size p u')) ↔ Granted u frames size := by
  have haligned : (pageCeil maxEnd).toNat % 4096 = 0 := by
    rw [pageCeil, pageFloor_toNat]
    omega
  obtain ⟨bs, first, harr⟩ := h.arranged haligned fun l u bs first frames size _ hok hne =>
    hok.resolve_left hne
  constructor
  · rintro ⟨fuel, p, u', hret, hp⟩
    right
    by_cases hfit : u.Fits size
    · exact Or.inl hfit
    · right
      rw [harr.fits_iff] at hfit
      have hsearch := @findFreeBlock_eq _ _ _ size _ harr.chain harr.positive fuel 0
      rw [← harr.base] at hsearch
      rw [malloc, if_neg h0] at hret
      obtain ⟨⟨block, last⟩, hfound, hrest⟩ := bind_eq_ok.mp hret
      rcases hsearch with hok | ⟨-, hloop⟩
      · rw [hok] at hfound
        rcases firstFit_cases size bs 0 with ⟨pre, b, post, rfl, hfree, hle, -⟩ | ⟨-, hnone⟩
        · exact absurd ⟨b, List.mem_append_right pre List.mem_cons_self, hfree, hle⟩ hfit
        · rw [hnone] at hfound
          obtain ⟨rfl, rfl⟩ := Prod.mk.inj (Except.ok.inj hfound)
          exact harr.room_of_promise haligned hrest hp
      · rw [hloop] at hfound
        cases hfound
  · intro hgranted
    have hcan := hgranted.resolve_left h0
    rw [harr.fits_iff] at hcan
    obtain ⟨p, u', bs', first', hgo, hmet, -⟩ := harr.malloc_goes h0 hcan (bs.length + 1)
    refine ⟨bs.length + 1, p, u', ?_, Or.inr ?_⟩
    · rcases hgo with hgo | ⟨hfuel, -⟩
      · exact hgo
      · omega
    · have hback : ∀ a : Addr, a + 24 - metaSize = a := fun a => by
        rw [metaSize, BitVec.add_sub_cancel]
      have hlow := harr.low
      cases hmet with
      | reused b hb hfree hle hp hbreak hroom =>
        obtain ⟨hfirst, hstop, -, -⟩ := harr.block hb
        refine ⟨b.size.toNat, ?_, hle, ?_, ?_⟩
        · rw [hp, hback]
          exact hroom
        · rw [hp, hback]
          omega
        · rw [hp, hback, hbreak]
          exact hstop
      | created hnone hp hbreak hroom =>
        have hstop := harr.chain.le
        refine ⟨size.toNat, ?_, Nat.le_refl _, ?_, ?_⟩
        · rw [hp, hback]
          exact hroom
        · rw [hp, hback]
          omega
        · rw [hp, hback, hbreak]

/-- A first request is granted, and the promise is kept. -/
theorem promise_iff_granted_first : ∃ fuel p u', malloc true fuel 16 onePage = .ok (p, u') ∧
    (p = 0 ∨ Promised 0x401000 16 p u') := by
  have hstart : Uses Granted (pageCeil 0x401000) .empty onePage := .start onePage (by decide) rfl
  have hroom : Room onePage true 16 := ⟨by decide, by decide, rfl⟩
  exact (promise_iff_granted 0x401000 hstart (by decide)).mpr (Or.inr (Or.inr hroom))

/-- Of a request for 4 GiB only the lower half arrives: the pointer is for 4 GiB, and the break
has moved by the size of a header. -/
theorem oversized_promise : ∃ p u', Uses Granted (pageCeil 0x401000) .empty onePage ∧
    malloc true 1 0x100000000 onePage = .ok (p, u') ∧ p ≠ 0 ∧
    u'.heapBreak.toNat < p.toNat + 0x100000000 :=
  ⟨_, _, .start onePage (by decide) rfl, by rfl, by decide, by decide⟩

end Promises

end Lazux

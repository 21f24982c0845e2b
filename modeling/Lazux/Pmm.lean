import Mathlib.Order.Interval.Finset.Nat
import Lazux.Platform
import Lazux.Lib.Bitset

/-! # The physical page allocator (`mm/pmm.c`) -/
namespace Lazux

open PagedMemory Bitset

/-- Physical memory and the allocator's bitmap, one bit for each frame of RAM. -/
structure Phys where
  mem : Memory
  bitmap : Bits

def Phys.pte (p : Phys) (table : ℕ) (i : Fin 512) : Word := (p.mem table).word i

def Phys.setPte (p : Phys) (table : ℕ) (i : Fin 512) (w : Word) : Phys :=
  { p with mem := p.mem.setWord table i w }

def Phys.setPage (p : Phys) (f : ℕ) (page : Page) : Phys :=
  { p with mem := Function.update p.mem f page }

/-- `memset(page, 0, 4096)`. -/
def Phys.zeroPage (p : Phys) (f : ℕ) : Phys := p.setPage f Page.zero

/-- The bits `init_pmm` leaves set: everything below the end of the bitmap page. -/
def initPmm (L : Layout) (mem : Memory) : Phys where
  mem := mem
  bitmap := (List.range (L.protectedEnd - ramFirst)).foldl Bitset.set fun _ => 0

/-- The frame is given as its number: the page `pmm_translator(i)` is frame
`ramFirst + i`. -/
def pmmAllocPage (p : Phys) : Option ℕ × Phys :=
  match scan (fun i => !test p.bitmap i) totalPages 0 with
  | some i => (some (ramFirst + i), { p with bitmap := Bitset.set p.bitmap i })
  | none => (none, p)

def pmmFreePage (p : Phys) (pa : Addr) : Phys :=
  if pa.toNat < physicalRamStart ∨ pa.toNat ≥ physicalRamStart + physicalRamSize then p
  else if pa.toNat % 4096 ≠ 0 then p
  else { p with bitmap := Bitset.clear p.bitmap ((pa.toNat - physicalRamStart) / 4096) }

/-- The bitmap marks the frame as in use. -/
def InUse (p : Phys) (f : ℕ) : Prop := InRam f ∧ test p.bitmap (f - ramFirst) = true

instance (p : Phys) (f : ℕ) : Decidable (InUse p f) := inferInstanceAs (Decidable (_ ∧ _))

/-- How many frames are left. -/
def freeFrames (p : Phys) : ℕ := clearCount p.bitmap totalPages

section Access

variable (p : Phys)

@[simp] theorem bitmap_setPte (t : ℕ) (i : Fin 512) (w : Word) :
    (p.setPte t i w).bitmap = p.bitmap := rfl

@[simp] theorem bitmap_setPage (f : ℕ) (page : Page) : (p.setPage f page).bitmap = p.bitmap := rfl

@[simp] theorem bitmap_zeroPage (f : ℕ) : (p.zeroPage f).bitmap = p.bitmap := rfl

@[simp] theorem mem_setPage_self (f : ℕ) (page : Page) : (p.setPage f page).mem f = page :=
  Function.update_self ..

theorem mem_setPage_of_ne {f g : ℕ} (h : g ≠ f) (page : Page) :
    (p.setPage f page).mem g = p.mem g := Function.update_of_ne h ..

theorem mem_setPte_of_ne {t g : ℕ} (h : g ≠ t) (i : Fin 512) (w : Word) :
    (p.setPte t i w).mem g = p.mem g := setWord_of_ne p.mem h i w

@[simp] theorem pte_setPte_self (t : ℕ) (i : Fin 512) (w : Word) :
    (p.setPte t i w).pte t i = w := by
  simp [Phys.pte, Phys.setPte, Memory.setWord]

@[simp] theorem inUse_setPte (t : ℕ) (i : Fin 512) (w : Word) (f : ℕ) :
    InUse (p.setPte t i w) f ↔ InUse p f := Iff.rfl

@[simp] theorem inUse_setPage (f : ℕ) (page : Page) (g : ℕ) :
    InUse (p.setPage f page) g ↔ InUse p g := Iff.rfl

@[simp] theorem inUse_zeroPage (f g : ℕ) : InUse (p.zeroPage f) g ↔ InUse p g := Iff.rfl

@[simp] theorem freeFrames_setPte (t : ℕ) (i : Fin 512) (w : Word) :
    freeFrames (p.setPte t i w) = freeFrames p := rfl

@[simp] theorem freeFrames_setPage (f : ℕ) (page : Page) :
    freeFrames (p.setPage f page) = freeFrames p := rfl

@[simp] theorem freeFrames_zeroPage (f : ℕ) : freeFrames (p.zeroPage f) = freeFrames p := rfl

end Access

section Allocation

variable {p p' : Phys} {n : ℕ}

/-- A handed out page was free before and nothing else changes. -/
theorem pmmAllocPage_some (h : pmmAllocPage p = (some n, p')) :
    InRam n ∧ ¬ InUse p n ∧ p'.mem = p.mem ∧ freeFrames p' + 1 = freeFrames p ∧
      ∀ f, InUse p' f ↔ f = n ∨ InUse p f := by
  unfold pmmAllocPage at h
  split at h
  · rename_i i hi
    simp only [Prod.mk.injEq, Option.some.injEq] at h
    obtain ⟨rfl, rfl⟩ := h
    obtain ⟨-, hlt, hclear, -⟩ := scan_some hi
    have hfree : test p.bitmap i = false := by simpa using hclear
    have hram : InRam (ramFirst + i) := by
      simp only [totalPages, physicalRamSize] at hlt
      simp only [InRam, ramFirst, ramLast]
      omega
    refine ⟨hram, ?_, rfl, ?_, ?_⟩
    · simp [InUse, hfree]
    · exact clearCount_set (by omega) hfree
    · intro f
      simp only [InUse, test_set, Bool.or_eq_true, decide_eq_true_eq]
      constructor
      · rintro ⟨hf, he | ht⟩
        · left; have := hf.1; omega
        · exact Or.inr ⟨hf, ht⟩
      · rintro (rfl | ⟨hf, ht⟩)
        · exact ⟨hram, Or.inl (by omega)⟩
        · exact ⟨hf, Or.inr ht⟩
  · simp at h

theorem pmmAllocPage_none : (pmmAllocPage p).1 = none ↔ freeFrames p = 0 := by
  unfold pmmAllocPage freeFrames
  rw [← scan_clear_none]
  split <;> simp_all

theorem pmmAllocPage_none_eq (h : pmmAllocPage p = (none, p')) : p' = p := by
  unfold pmmAllocPage at h
  split at h <;> simp_all

theorem freeFrames_pos_of_some (h : pmmAllocPage p = (some n, p')) : 0 < freeFrames p := by
  have := (pmmAllocPage_some h).2.2.2.1
  omega

end Allocation

section Count

variable (p : Phys)

def usedFrames : Finset ℕ := (Finset.Ico ramFirst ramLast).filter (InUse p)

theorem mem_usedFrames {f : ℕ} : f ∈ usedFrames p ↔ InUse p f := by
  rw [usedFrames, Finset.mem_filter, Finset.mem_Ico]
  exact ⟨fun h => h.2, fun h => ⟨h.1, h⟩⟩

theorem card_usedFrames : (usedFrames p).card + freeFrames p = totalPages := by
  have hshift : (usedFrames p).card =
      ((Finset.range totalPages).filter fun i => ¬ test p.bitmap i = false).card := by
    symm
    apply Finset.card_bij fun i _ => ramFirst + i
    · intro i hi
      rw [Finset.mem_filter, Finset.mem_range] at hi
      rw [mem_usedFrames, InUse, Nat.add_sub_cancel_left]
      refine ⟨?_, by simpa using hi.2⟩
      have hlt := hi.1
      simp only [totalPages, physicalRamSize] at hlt
      simp only [InRam, ramFirst, ramLast]
      omega
    · intro i _ j _ h
      exact Nat.add_left_cancel h
    · intro f hf
      rw [mem_usedFrames] at hf
      obtain ⟨⟨h1, h2⟩, ht⟩ := hf
      refine ⟨f - ramFirst, ?_, by omega⟩
      rw [Finset.mem_filter, Finset.mem_range]
      refine ⟨?_, by simpa using ht⟩
      simp only [totalPages, physicalRamSize, ramFirst, ramLast] at *
      omega
  rw [hshift, freeFrames, clearCount, add_comm]
  have hsplit := Finset.card_filter_add_card_filter_not (s := Finset.range totalPages)
    (fun i => test p.bitmap i = false)
  rw [Finset.card_range] at hsplit
  exact hsplit

end Count

section Release

variable (p : Phys)

@[simp] theorem mem_pmmFreePage (pa : Addr) : (pmmFreePage p pa).mem = p.mem := by
  unfold pmmFreePage
  split_ifs <;> rfl

/-- Freeing a page of RAM clears exactly its bit. -/
theorem inUse_pmmFreePage {f : ℕ} (hf : InRam f) {pa : Addr} (hpa : pa.toNat = f * 4096) (g : ℕ) :
    InUse (pmmFreePage p pa) g ↔ g ≠ f ∧ InUse p g := by
  obtain ⟨h1, h2⟩ := hf
  have hin : ¬ (pa.toNat < physicalRamStart ∨ pa.toNat ≥ physicalRamStart + physicalRamSize) := by
    simp only [physicalRamStart, physicalRamSize, ramFirst, ramLast] at *
    omega
  have hal : ¬ pa.toNat % 4096 ≠ 0 := by omega
  have hidx : (pa.toNat - physicalRamStart) / 4096 = f - ramFirst := by
    simp only [physicalRamStart, ramFirst] at *
    omega
  rw [pmmFreePage, if_neg hin, if_neg hal]
  simp only [InUse, hidx, test_clear, Bool.and_eq_true, decide_eq_true_eq]
  constructor
  · rintro ⟨hg, hne, ht⟩
    exact ⟨fun e => hne (by rw [e]), hg, ht⟩
  · rintro ⟨hne, hg, ht⟩
    refine ⟨hg, ?_, ht⟩
    have := hg.1
    omega

theorem freeFrames_pmmFreePage {f : ℕ} (hu : InUse p f) {pa : Addr} (hpa : pa.toNat = f * 4096) :
    freeFrames (pmmFreePage p pa) = freeFrames p + 1 := by
  have hused : usedFrames (pmmFreePage p pa) = (usedFrames p).erase f := by
    ext g
    rw [Finset.mem_erase, mem_usedFrames, mem_usedFrames]
    exact inUse_pmmFreePage p hu.1 hpa g
  have hcard := Finset.card_erase_of_mem ((mem_usedFrames p).mpr hu)
  have hpos := Finset.card_pos.mpr ⟨f, (mem_usedFrames p).mpr hu⟩
  have h1 := card_usedFrames p
  have h2 := card_usedFrames (pmmFreePage p pa)
  rw [hused] at h2
  omega

theorem inUse_of_pmmFreePage {pa : Addr} {g : ℕ} (h : InUse (pmmFreePage p pa) g) : InUse p g := by
  unfold pmmFreePage at h
  split_ifs at h
  · exact h
  · exact h
  · obtain ⟨hg, ht⟩ := h
    rw [test_clear] at ht
    exact ⟨hg, by simpa using (Bool.and_eq_true_iff.mp ht).2⟩

end Release

theorem inUse_initPmm (L : Layout) (mem : Memory) (f : ℕ) :
    InUse (initPmm L mem) f ↔ InRam f ∧ f < L.protectedEnd := by
  have key : ∀ n (b : Bits), (∀ i, test b i = false) →
      ∀ i, test ((List.range n).foldl Bitset.set b) i = decide (i < n) := by
    intro n
    induction n with
    | zero => intro b hb i; simpa using hb i
    | succ n ih =>
      intro b hb i
      rw [List.range_succ, List.foldl_append, List.foldl_cons, List.foldl_nil, test_set, ih b hb]
      by_cases h : i = n <;> by_cases h' : i < n <;> simp [h, h'] <;> omega
  have hz : ∀ i, test (fun _ => (0 : BitVec 8)) i = false := by
    intro i
    rw [test_eq_getLsbD]
    simp
  simp only [InUse, initPmm, key _ _ hz, decide_eq_true_eq]
  constructor
  · rintro ⟨hf, h⟩; exact ⟨hf, by have := hf.1; omega⟩
  · rintro ⟨hf, h⟩; exact ⟨hf, by have := hf.1; omega⟩

end Lazux

import Lazux.Boot

/-! # The page allocator as a set of frames

A pool knows which frames are handed out and grants the lowest of the others. The bitmap
represents it over every sequence of requests and releases. -/
namespace Lazux

open PagedMemory Bitset

def Unreserved (L : Layout) (f : ℕ) : Prop := L.protectedEnd ≤ f ∧ f < ramLast

/-- The frame a pool grants when the frames in `out` are handed out. -/
structure FrameGranted (L : Layout) (out : Finset ℕ) (n : ℕ) : Prop where
  unreserved : Unreserved L n
  fresh : n ∉ out
  lowest : ∀ f, Unreserved L f → f ∉ out → n ≤ f

/-- `pmm_free_page` takes back page-aligned addresses in RAM. -/
def Releasable (pa : Addr) : Prop :=
  pa.toNat % 4096 = 0 ∧ physicalRamStart ≤ pa.toNat ∧
    pa.toNat < physicalRamStart + physicalRamSize

/-- Sequences of requests and releases after `init_pmm`, with the frames handed out and not
taken back. A release gets such a frame or an address that no page can have. -/
inductive PmmHistory (L : Layout) (mem : Memory) : Finset ℕ → Phys → Prop where
  | init : PmmHistory L mem ∅ (initPmm L mem)
  | grant {out : Finset ℕ} {p p' : Phys} {n : ℕ} (h : PmmHistory L mem out p)
      (ha : pmmAllocPage p = (some n, p')) : PmmHistory L mem (insert n out) p'
  | refuse {out : Finset ℕ} {p p' : Phys} (h : PmmHistory L mem out p)
      (ha : pmmAllocPage p = (none, p')) : PmmHistory L mem out p'
  | release {out : Finset ℕ} {p : Phys} {n : ℕ} (h : PmmHistory L mem out p) (hn : n ∈ out) :
      PmmHistory L mem (out.erase n) (pmmFreePage p (pageAddr n))
  | ignore {out : Finset ℕ} {p : Phys} {pa : Addr} (h : PmmHistory L mem out p)
      (hpa : ¬ Releasable pa) : PmmHistory L mem out (pmmFreePage p pa)

/-- The bitmap marks the reserved frames and those handed out. -/
structure Represents (L : Layout) (out : Finset ℕ) (p : Phys) : Prop where
  unreserved : ∀ f ∈ out, Unreserved L f
  marked : ∀ f, InUse p f ↔ InRam f ∧ f < L.protectedEnd ∨ f ∈ out

variable {L : Layout} {mem : Memory} {out : Finset ℕ} {p p' : Phys} {n : ℕ} {pa : Addr}

theorem Unreserved.inRam {f : ℕ} (h : Unreserved L f) : InRam f := by
  exact ⟨(ramFirst_le_protectedEnd L).trans h.1, h.2⟩

/-- The scan goes upwards. -/
theorem pmmAllocPage_lowest (ha : pmmAllocPage p = (some n, p')) {f : ℕ} (hf : InRam f)
    (hfree : ¬ InUse p f) : n ≤ f := by
  unfold pmmAllocPage at ha
  split at ha
  · rename_i i hi
    simp only [Prod.mk.injEq, Option.some.injEq] at ha
    obtain ⟨rfl, -⟩ := ha
    obtain ⟨-, -, -, hbefore⟩ := scan_some hi
    by_contra hlt
    have hlow := hf.1
    have hused := hbefore (f - ramFirst) (Nat.zero_le _) (by omega)
    exact hfree ⟨hf, by simpa using hused⟩
  · simp at ha

/-- So frames are taken from the bottom up. -/
theorem TakenBelow.alloc {m : ℕ} (h : TakenBelow n p) (hn : ramFirst ≤ n)
    (ha : pmmAllocPage p = (some m, p')) : m = n ∧ TakenBelow (n + 1) p' := by
  obtain ⟨hram, hfree, -, -, hmark⟩ := pmmAllocPage_some ha
  rw [h m hram, not_lt] at hfree
  have hnext : InRam n := ⟨hn, hfree.trans_lt hram.2⟩
  have hle : m ≤ n := pmmAllocPage_lowest ha hnext fun hu => lt_irrefl n ((h n hnext).mp hu)
  obtain rfl : m = n := le_antisymm hle hfree
  refine ⟨rfl, fun f hf => ?_⟩
  rw [hmark, h f hf]
  omega

theorem pmmAllocPage_full (h : (pmmAllocPage p).1 = none) {f : ℕ} (hf : InRam f) : InUse p f := by
  have hall := clearCount_eq_zero.mp (pmmAllocPage_none.mp h)
  refine ⟨hf, hall _ ?_⟩
  obtain ⟨h1, h2⟩ := hf
  simp only [totalPages, physicalRamSize, ramFirst, ramLast] at *
  omega

theorem pmmFreePage_ignored (hpa : ¬ Releasable pa) : pmmFreePage p pa = p := by
  unfold pmmFreePage
  split_ifs with hout haligned
  · rfl
  · rfl
  · rw [not_or, not_lt, ge_iff_le, not_le] at hout
    exact absurd ⟨not_not.mp haligned, hout⟩ hpa

namespace Represents

theorem init (L : Layout) (mem : Memory) : Represents L ∅ (initPmm L mem) := by
  refine ⟨fun f hf => absurd hf (Finset.notMem_empty f), fun f => ?_⟩
  rw [inUse_initPmm]
  simp

/-- Among the unreserved frames the free ones are those not handed out. -/
theorem free (h : Represents L out p) {f : ℕ} (hf : Unreserved L f) : ¬ InUse p f ↔ f ∉ out := by
  have hlow := hf.1
  rw [h.marked]
  constructor
  · exact fun hn ho => hn (Or.inr ho)
  · rintro hn (⟨-, hlt⟩ | ho)
    · omega
    · exact hn ho

theorem grant (h : Represents L out p) (ha : pmmAllocPage p = (some n, p')) :
    FrameGranted L out n ∧ Represents L (insert n out) p' := by
  obtain ⟨hram, hfree, -, -, hmark⟩ := pmmAllocPage_some ha
  have hn : Unreserved L n := by
    refine ⟨?_, hram.2⟩
    by_contra hlow
    exact hfree ((h.marked n).mpr (Or.inl ⟨hram, by omega⟩))
  refine ⟨⟨hn, (h.free hn).mp hfree, fun f hf ho => ?_⟩, ?_, fun f => ?_⟩
  · exact pmmAllocPage_lowest ha hf.inRam ((h.free hf).mpr ho)
  · intro f hf
    rcases Finset.mem_insert.mp hf with rfl | hf
    · exact hn
    · exact h.unreserved f hf
  · rw [hmark, h.marked, Finset.mem_insert]
    tauto

theorem refuse_iff (h : Represents L out p) :
    (pmmAllocPage p).1 = none ↔ ∀ f, Unreserved L f → f ∈ out := by
  constructor
  · intro hnone f hf
    by_contra ho
    exact (h.free hf).mpr ho (pmmAllocPage_full hnone hf.inRam)
  · intro hall
    cases ha : (pmmAllocPage p).1 with
    | none => rfl
    | some n =>
      obtain ⟨hg, -⟩ := h.grant (Prod.ext ha rfl)
      exact absurd (hall n hg.unreserved) hg.fresh

theorem release (h : Represents L out p) (hn : n ∈ out) :
    Represents L (out.erase n) (pmmFreePage p (pageAddr n)) := by
  have hu := h.unreserved n hn
  have hram := hu.inRam
  have hlow := hu.1
  have hpa : (pageAddr n).toNat = n * 4096 :=
    pageAddr_toNat (by have := hram.2; simp only [ramLast] at this; omega)
  refine ⟨fun f hf => h.unreserved f (Finset.mem_of_mem_erase hf), fun f => ?_⟩
  rw [inUse_pmmFreePage p hram hpa, h.marked, Finset.mem_erase]
  constructor
  · rintro ⟨hne, hr | ho⟩
    · exact Or.inl hr
    · exact Or.inr ⟨hne, ho⟩
  · rintro (hr | ⟨hne, ho⟩)
    · exact ⟨by omega, Or.inl hr⟩
    · exact ⟨hne, Or.inr ho⟩

end Represents

theorem PmmHistory.represents (h : PmmHistory L mem out p) : Represents L out p := by
  induction h with
  | init => exact .init L mem
  | grant _ ha ih => exact (ih.grant ha).2
  | refuse _ ha ih => exact pmmAllocPage_none_eq ha ▸ ih
  | release _ hn ih => exact ih.release hn
  | ignore _ hpa ih =>
    rw [pmmFreePage_ignored hpa]
    exact ih

/-- What the allocator promises after the frames in `out` were handed out: a granted address is
page-aligned, lies in RAM behind the kernel and its bitmap and belongs to nobody. -/
structure PmmContract (L : Layout) (out : Finset ℕ) (p : Phys) : Prop where
  granted : ∀ n p', pmmAllocPage p = (some n, p') → FrameGranted L out n
  aligned : ∀ n p', pmmAllocPage p = (some n, p') → (pageAddr n).toNat % 4096 = 0
  placed : ∀ n p', pmmAllocPage p = (some n, p') →
    L.kernelEnd * 4096 + 4096 ≤ (pageAddr n).toNat ∧ physicalRamStart ≤ (pageAddr n).toNat ∧
      (pageAddr n).toNat + 4096 ≤ physicalRamStart + physicalRamSize
  refused : (pmmAllocPage p).1 = none ↔ ∀ f, Unreserved L f → f ∈ out
  ignored : ∀ pa, ¬ Releasable pa → pmmFreePage p pa = p

theorem Represents.contract (h : Represents L out p) : PmmContract L out p := by
  have hplace : ∀ n p', pmmAllocPage p = (some n, p') →
      (pageAddr n).toNat = n * 4096 ∧ ramFirst ≤ n ∧ n < ramLast ∧ L.kernelEnd < n := by
    intro n p' ha
    obtain ⟨hg, -⟩ := h.grant ha
    obtain ⟨hlow, hhigh⟩ := hg.unreserved
    refine ⟨pageAddr_toNat ?_, hg.unreserved.inRam.1, hhigh, hlow⟩
    simp only [ramLast] at hhigh
    omega
  constructor
  · intro n p' ha
    exact (h.grant ha).1
  · intro n p' ha
    rw [(hplace n p' ha).1]
    omega
  · intro n p' ha
    obtain ⟨hn, h1, h2, h3⟩ := hplace n p' ha
    rw [hn]
    simp only [ramFirst, ramLast, physicalRamStart, physicalRamSize] at *
    omega
  · exact h.refuse_iff
  · exact fun pa hpa => pmmFreePage_ignored hpa

/-- The allocator keeps its promise over every sequence of requests and releases. -/
theorem pmm_keeps_contract (h : PmmHistory L mem out p) : PmmContract L out p :=
  h.represents.contract

/-- A page requested, given back and requested again. -/
theorem pmm_keeps_contract_reused : ∃ n p, PmmHistory smallLayout smallRam {n} p ∧
    PmmContract smallLayout {n} p := by
  have hinit : PmmHistory smallLayout smallRam ∅ (initPmm smallLayout smallRam) := .init
  obtain ⟨n, p1, h1⟩ := pmmAllocPage_returns (p := initPmm smallLayout smallRam) (by
    rw [freeFrames_initPmm]
    decide)
  have hout := (hinit.grant h1).release (Finset.mem_insert_self n ∅)
  have hempty : (insert n (∅ : Finset ℕ)).erase n = ∅ := Finset.erase_insert (Finset.notMem_empty n)
  rw [hempty] at hout
  obtain ⟨m, p2, h2⟩ := pmmAllocPage_returns (p := pmmFreePage p1 (pageAddr n)) (by
    by_contra hzero
    have hnone := pmmAllocPage_none.mpr (Nat.eq_zero_of_not_pos hzero)
    have hall := hout.represents.refuse_iff.mp hnone 0x87fff ⟨by decide, by decide⟩
    exact absurd hall (Finset.notMem_empty _))
  exact ⟨m, p2, hout.grant h2, pmm_keeps_contract (hout.grant h2)⟩

end Lazux

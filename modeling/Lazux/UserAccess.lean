import Lazux.Trap
import Lazux.Image
import Lazux.Copy
import Mathlib.Combinatorics.Pigeonhole
import Mathlib.Order.Interval.Finset.Nat

/-! # Accesses through a page table

Loads and stores of user programs, and those the kernel makes for them, through a table of
an owned family: they reach user pages of that table and nothing else. -/
namespace Lazux

open PagedMemory RadixForest Run

variable {ι : Type*} {H : Forest ι} {p p' p'' : Phys} {lo : ℕ} {i : ι} {root : ℕ}

section Translation

variable {m : Memory} {sum : Bool} {acc : Access} {va pa : Addr}

theorem kernelTranslate_iff (h : ThreeLevel m root) :
    kernelTranslate m root sum acc va = some pa ↔ Canonical va ∧
      HardwareLeaf (entry m (some root) (pageNo va)) ∧
      (hasFlag (entry m (some root) (pageNo va)) pteU → sum = true) ∧
      permits (entry m (some root) (pageNo va)) acc ∧
      pa = leafPa (entry m (some root) (pageNo va)) 0 va := by
  rw [kernelTranslate, sv39_eq h]
  generalize entry m (some root) (pageNo va) = w
  by_cases hc : Canonical va ∧ HardwareLeaf w
  · rw [if_pos hc, Option.bind_some]
    simp only [hc.1, hc.2, true_and]
    cases hasFlag w pteU <;> cases sum <;> cases permits w acc <;> simp [eq_comm]
  · rw [if_neg hc, Option.bind_none]
    constructor
    · intro he; cases he
    · rintro ⟨h1, h2, -⟩
      exact absurd ⟨h1, h2⟩ hc

theorem userTranslate_iff (h : ThreeLevel m root) :
    userTranslate m root acc va = some pa ↔ Canonical va ∧
      HardwareLeaf (entry m (some root) (pageNo va)) ∧
      hasFlag (entry m (some root) (pageNo va)) pteU ∧
      permits (entry m (some root) (pageNo va)) acc ∧
      pa = leafPa (entry m (some root) (pageNo va)) 0 va := by
  rw [userTranslate, sv39_eq h]
  generalize entry m (some root) (pageNo va) = w
  by_cases hc : Canonical va ∧ HardwareLeaf w
  · rw [if_pos hc, Option.bind_some]
    simp only [hc.1, hc.2, true_and]
    cases hasFlag w pteU <;> cases permits w acc <;> simp [eq_comm]
  · rw [if_neg hc, Option.bind_none]
    constructor
    · intro he; cases he
    · rintro ⟨h1, h2, -⟩
      exact absurd ⟨h1, h2⟩ hc

theorem leafPa_toNat (w : Word) (va : Addr) :
    (leafPa w 0 va).toNat = frame (pteToPa w) * 4096 + va.toNat % 4096 := by
  have h1 : (pteToPa w).toNat = frame (pteToPa w) * 4096 := by
    rw [pteToPa_toNat, frame_pteToPa]
  have h2 : frame (pteToPa w) < 2 ^ 52 := by
    rw [frame_pteToPa]
    exact Nat.mod_lt _ (by norm_num)
  rw [leafPa, BitVec.toNat_add, h1, BitVec.toNat_ofNat]
  omega

theorem frame_leafPa (w : Word) (va : Addr) : frame (leafPa w 0 va) = frame (pteToPa w) := by
  rw [frame, leafPa_toNat]
  omega

end Translation

/-- Only frames that are no tables are written. -/
structure UserWrites (H : Forest ι) (p p' : Phys) : Prop where
  tables : ∀ f, ¬ NotTable p H f → p'.mem f = p.mem f
  bitmap : p'.bitmap = p.bitmap

namespace UserWrites

theorem refl (p : Phys) : UserWrites H p p := ⟨fun _ _ => rfl, rfl⟩

theorem held_eq (h : UserWrites H p p') : held p' H = held p H := held_congr h.tables

theorem entry_eq (h : UserWrites H p p') (i : ι) (q : PageNo) :
    entry p'.mem (H.root i) q = entry p.mem (H.root i) q := entry_congr h.tables i q

theorem inUse_iff (h : UserWrites H p p') (f : ℕ) : InUse p' f ↔ InUse p f := by
  rw [InUse, InUse, h.bitmap]

theorem trans (h : UserWrites H p p') (h' : UserWrites H p' p'') : UserWrites H p p'' := by
  refine ⟨fun f hf => ?_, h'.bitmap.trans h.bitmap⟩
  rw [h'.tables f, h.tables f hf]
  intro hn
  refine hf fun i path hp => ?_
  rw [← h.held_eq]
  exact hn i path hp

theorem owned (h : UserWrites H p p') (ho : Owned lo H p) : Owned lo H p' :=
  ho.congr h.tables fun f hf => (h.inUse_iff f).mpr hf

theorem setByte (ho : Owned lo H p) {r : Role ι (Fin 512)} {pa : Addr}
    (hf : held p H r = some (frame pa)) (hr : ∀ i path, path.length ≤ 2 → r ≠ .node i path)
    (b : Byte) :
    UserWrites H p { p with mem := p.mem.setByte pa b } := by
  refine ⟨fun f hn => setByte_of_ne _ ?_ b, rfl⟩
  rintro rfl
  exact hn fun i path hp hpf => hr i path hp (ho.distinct _ _ _ hf hpf)

end UserWrites

section Stores

variable {va pa : Addr} {sum : Bool}

theorem leaf_ne_table (i : ι) (q : PageNo) (j : ι) (path : List (Fin 512)) (hp : path.length ≤ 2) :
    (Role.node i q.leaf : Role ι (Fin 512)) ≠ .node j path := by
  intro he
  simp only [Role.node.injEq] at he
  rw [← he.2] at hp
  simp [PageNo.leaf] at hp

/-- A translation through a user entry ends in a user page of the table. -/
theorem held_of_user (hr : H.root i = some root)
    (hl : HardwareLeaf (entry p.mem (some root) (pageNo va)))
    (hu : hasFlag (entry p.mem (some root) (pageNo va)) pteU) :
    held p H (.node i (pageNo va).leaf) =
      some (frame (leafPa (entry p.mem (some root) (pageNo va)) 0 va)) := by
  rw [held_leaf, hr, frame_leafPa, decodePte, if_neg (by norm_num),
    if_pos ⟨rfl, hl.1, hu, hardwareLeaf_isLeaf hl⟩]

theorem userWrites_user (ho : Owned lo H p) (hr : H.root i = some root) {acc : Access}
    (h : userTranslate p.mem root acc va = some pa) (b : Byte) :
    UserWrites H p { p with mem := p.mem.setByte pa b } := by
  obtain ⟨-, hl, hu, -, rfl⟩ := (userTranslate_iff (ho.threeLevel hr)).mp h
  exact .setByte ho (held_of_user hr hl hu) (leaf_ne_table i _) b

end Stores

section Checked

variable {buffer : Addr} {size : BitVec 32} {sum : Bool} {n : ℕ}

theorem kernelPage_of_not_user (ho : Owned lo H p) (hr : H.root i = some root) {acc : Access}
    {va : Addr} (hv : kernelTranslate p.mem root sum acc va ≠ none)
    (hu : ¬ hasFlag (entry p.mem (some root) (pageNo va)) pteU) :
    KernelPage (pageNo va).number := by
  obtain ⟨pa, hpa⟩ := Option.ne_none_iff_exists'.mp hv
  obtain ⟨-, hl, -⟩ := (kernelTranslate_iff (ho.threeLevel hr)).mp hpa
  have hw := ho.leaves i (pageNo va)
  rw [hr] at hw
  exact (hw.kernel hl.1 hu).1

/-- Fewer frames than pages below the PLIC: not all of them can be a user's. -/
theorem not_all_user (ho : Owned lo H p) (hr : H.root i = some root) :
    ¬ ∀ t < plicBase / 4096, UserLeaf (entry p.mem (some root) (pageNo (pageAddr t))) := by
  intro hall
  have hheld : ∀ t < plicBase / 4096, ∃ f, held p H (.node i (pageNo (pageAddr t)).leaf) =
      some f := by
    intro t ht
    refine ⟨frame (pteToPa (entry p.mem (some root) (pageNo (pageAddr t)))), ?_⟩
    rw [held_leaf, hr]
    exact decodePte_userLeaf (hall t ht)
  choose! f hf using hheld
  have hmaps : ∀ t ∈ Finset.range (plicBase / 4096), f t ∈ Finset.Ico ramFirst ramLast := by
    intro t ht
    have := ho.inRam (hf t (Finset.mem_range.mp ht))
    exact Finset.mem_Ico.mpr this
  have hcard : (Finset.Ico ramFirst ramLast).card < (Finset.range (plicBase / 4096)).card := by
    rw [Nat.card_Ico, Finset.card_range]
    decide
  obtain ⟨s, hs, t, ht, hne, heq⟩ := Finset.exists_ne_map_eq_of_card_lt_of_maps_to hcard hmaps
  rw [Finset.mem_range] at hs ht
  have hrole := ho.distinct _ _ _ (hf s hs) (by rw [heq]; exact hf t ht)
  simp only [Role.node.injEq, true_and, PageNo.leaf, List.cons.injEq, and_true] at hrole
  have hpage : pageNo (pageAddr s) = pageNo (pageAddr t) :=
    Prod.ext hrole.2.2 (Prod.ext hrole.2.1 hrole.1)
  have hlt : plicBase / 4096 < 2 ^ 27 := by decide
  have hnum := congrArg PageNo.number hpage
  rw [number_pageAddr (by omega), number_pageAddr (by omega)] at hnum
  exact hne hnum

/-- Wherever a copy that `user_range_ok` let pass gets without a fault, it is on user pages:
even a range that wraps would first have to cross more pages than there are frames. -/
theorem checked_user (ho : Owned lo H p) (hr : H.root i = some root)
    (hok : userRangeOk p.mem root buffer (size.setWidth 64) pteW = true) (hn : n < size.toNat)
    (hprev : ∀ k < n, kernelTranslate p.mem root sum .write (buffer + BitVec.ofNat 64 k) ≠ none)
    (hcur : kernelTranslate p.mem root sum .write (buffer + BitVec.ofNat 64 n) ≠ none) :
    hasFlag (entry p.mem (some root) (pageNo (buffer + BitVec.ofNat 64 n))) pteU := by
  have hsz : size.setWidth 64 = BitVec.ofNat 64 size.toNat := by
    apply BitVec.eq_of_toNat_eq
    simp
  have hlen := size.isLt
  have hva : buffer ≠ 0 := by
    rintro rfl
    simp [userRangeOk] at hok
  rw [hsz] at hok
  by_cases hfit : buffer.toNat + size.toNat + 4095 < 2 ^ 64
  · obtain ⟨-, hm⟩ :=
      (userRangeOk_of_fit hva (by unfold Permissions; decide) (by omega) hfit).mp hok
    exact (hm n hn).entry.2.1
  · by_contra hu
    have hk := kernelPage_of_not_user ho hr hcur hu
    have hplic : plicBase / 4096 = 0xC000 := by decide
    have hrange : 0xC000 ≤ (pageNo (buffer + BitVec.ofNat 64 n)).number ∧
        (pageNo (buffer + BitVec.ofNat 64 n)).number < 0x88000 := by
      simp only [KernelPage, plicBase, plicSize, uart0Base, textStart, ramLast] at hk
      omega
    have hb := buffer.isLt
    rw [number_pageNo, BitVec.toNat_add, BitVec.toNat_ofNat] at hrange
    refine not_all_user ho hr fun t ht => ?_
    -- page `t` lies below, so the copy has been there
    have haddr : buffer + BitVec.ofNat 64 (2 ^ 64 - buffer.toNat + 4096 * t) = pageAddr t := by
      apply BitVec.eq_of_toNat_eq
      rw [BitVec.toNat_add, pageAddr_toNat (by omega), BitVec.toNat_ofNat]
      omega
    have hv := hprev (2 ^ 64 - buffer.toNat + 4096 * t) (by omega)
    rw [haddr] at hv
    obtain ⟨pa, hpa⟩ := Option.ne_none_iff_exists'.mp hv
    obtain ⟨-, hleaf, -⟩ := (kernelTranslate_iff (ho.threeLevel hr)).mp hpa
    refine ⟨hleaf.1, hardwareLeaf_isLeaf hleaf, ?_⟩
    by_contra hnu
    have hkt := kernelPage_of_not_user ho hr hv hnu
    rw [number_pageAddr (by omega)] at hkt
    simp only [KernelPage, plicBase, plicSize, uart0Base, textStart, ramLast] at hkt
    omega

end Checked

end Lazux

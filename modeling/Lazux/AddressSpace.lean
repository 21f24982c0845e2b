import Lazux.Sv39
import Lazux.Lib.RadixForest
import Mathlib.Tactic.Ring

/-! # Page tables as radix trees

A table tree seen from its root: the table at every path of indices and, for every page
number, the entry that decides its translation. -/
namespace Lazux

open PagedMemory RadixForest

section Flags

variable (w : Word)

private theorem and_bit (k : Fin 64) : ((w &&& BitVec.twoPow 64 k.val) != 0) = w.getLsbD k := by
  rw [BitVec.and_twoPow]
  cases w.getLsbD k with
  | false => rfl
  | true =>
    revert k
    decide

theorem hasFlag_pteV : hasFlag w pteV = w.getLsbD 0 := and_bit w 0
theorem hasFlag_pteR : hasFlag w pteR = w.getLsbD 1 := and_bit w 1
theorem hasFlag_pteW : hasFlag w pteW = w.getLsbD 2 := and_bit w 2
theorem hasFlag_pteX : hasFlag w pteX = w.getLsbD 3 := and_bit w 3
theorem hasFlag_pteU : hasFlag w pteU = w.getLsbD 4 := and_bit w 4

@[simp] theorem hasFlag_zero : hasFlag 0#64 w = false := by simp [hasFlag]

end Flags

section Pages

theorem pageFloor_toNat (a : Addr) : (pageFloor a).toNat = a.toNat / 4096 * 4096 := by
  have h : pageFloor a = (a >>> 12) <<< 12 := by
    apply BitVec.eq_of_getLsbD_eq
    intro i hi
    have hm : ∀ i : Fin 64, (~~~(0xFFF : Addr)).getLsbD i.val = decide (12 ≤ i.val) := by decide
    rw [pageFloor, BitVec.getLsbD_and, hm ⟨i, hi⟩]
    by_cases h12 : 12 ≤ i
    · simp [hi, h12, Nat.not_lt.mpr h12]
    · simp [h12]
  have := a.isLt
  rw [h, BitVec.toNat_shiftLeft, BitVec.toNat_ushiftRight, Nat.shiftRight_eq_div_pow,
    Nat.shiftLeft_eq]
  omega

theorem pageCeil_toNat {a : Addr} (h : a.toNat + 4095 < 2 ^ 64) :
    (pageCeil a).toNat = (a.toNat + 4095) / 4096 * 4096 := by
  have hsum : (a + 0xFFF).toNat = a.toNat + 4095 := by
    rw [BitVec.toNat_add]
    exact Nat.mod_eq_of_lt h
  rw [pageCeil, pageFloor_toNat, hsum]

theorem pageCeil_of_aligned {a : Addr} (h : a.toNat % 4096 = 0) : pageCeil a = a := by
  apply BitVec.eq_of_toNat_eq
  have hlt := a.isLt
  rw [pageCeil_toNat (by omega)]
  omega

theorem mem_pageSteps {start stop a : Addr} :
    a ∈ pageSteps start stop ↔
      ∃ k, start.toNat + 4096 * k < stop.toNat ∧ a = start + BitVec.ofNat 64 (4096 * k) := by
  simp only [pageSteps, List.mem_map, List.mem_range]
  constructor
  · rintro ⟨k, hk, rfl⟩
    exact ⟨k, by omega, rfl⟩
  · rintro ⟨k, hk, rfl⟩
    exact ⟨k, by omega, rfl⟩

end Pages

section Encoding

theorem paToPte_toNat (pa : Addr) : (paToPte pa).toNat = pa.toNat / 4096 * 1024 := by
  have := pa.isLt
  simp only [paToPte, BitVec.toNat_shiftLeft, BitVec.toNat_ushiftRight,
    Nat.shiftRight_eq_div_pow, Nat.shiftLeft_eq]
  omega

/-- The page number and the flags of an entry do not overlap. -/
theorem paToPte_or_toNat (pa : Addr) {flags : Word} (h : flags.toNat < 1024) :
    (paToPte pa ||| flags).toNat = pa.toNat / 4096 * 1024 + flags.toNat := by
  rw [BitVec.toNat_or, paToPte_toNat, show (1024 : ℕ) = 2 ^ 10 by norm_num, mul_comm,
    Nat.two_pow_add_eq_or_of_lt (by simpa using h)]

theorem frame_pteToPa (w : Word) : frame (pteToPa w) = w.toNat / 1024 % 2 ^ 52 := by
  simp only [frame, pteToPa, BitVec.toNat_shiftLeft, BitVec.toNat_ushiftRight,
    Nat.shiftRight_eq_div_pow, Nat.shiftLeft_eq]
  omega

theorem pteToPa_toNat (w : Word) : (pteToPa w).toNat = w.toNat / 1024 % 2 ^ 52 * 4096 := by
  simp only [pteToPa, BitVec.toNat_shiftLeft, BitVec.toNat_ushiftRight,
    Nat.shiftRight_eq_div_pow, Nat.shiftLeft_eq]
  omega

theorem frame_pteToPa_or (pa : Addr) {flags : Word} (h : flags.toNat < 1024) :
    frame (pteToPa (paToPte pa ||| flags)) = frame pa := by
  rw [frame_pteToPa, paToPte_or_toNat pa h, frame]
  have := pa.isLt
  omega

theorem reserved_paToPte_or {pa : Addr} (hpa : pa.toNat < 2 ^ 56) {flags : Word}
    (h : flags.toNat < 1024) : (paToPte pa ||| flags) >>> 54 = 0 := by
  apply BitVec.eq_of_toNat_eq
  rw [BitVec.toNat_ushiftRight, paToPte_or_toNat pa h, Nat.shiftRight_eq_div_pow]
  show _ = 0
  omega

theorem getLsbD_paToPte (pa : Addr) {k : ℕ} (hk : k < 10) : (paToPte pa).getLsbD k = false := by
  simp [paToPte, hk]

theorem getLsbD_paToPte_or (pa : Addr) (flags : Word) {k : ℕ} (hk : k < 10) :
    (paToPte pa ||| flags).getLsbD k = flags.getLsbD k := by
  rw [BitVec.getLsbD_or, getLsbD_paToPte pa hk, Bool.false_or]

end Encoding

/-- An entry that points to the table in frame `n` and says nothing else. -/
def pointer (n : ℕ) : Word := paToPte (pageAddr n) ||| pteV

def IsPointer (w : Word) : Prop := ∃ n < 2 ^ 44, w = pointer n

section Pointer

variable {n : ℕ} (h : n < 2 ^ 44)

@[simp] theorem pointer_valid (n : ℕ) : hasFlag (pointer n) pteV = true := by
  rw [hasFlag_pteV, pointer, getLsbD_paToPte_or _ _ (by norm_num)]
  decide

@[simp] theorem pointer_not_leaf (n : ℕ) : isLeaf (pointer n) = false := by
  rw [isLeaf, hasFlag_pteR, hasFlag_pteW, hasFlag_pteX, pointer,
    getLsbD_paToPte_or _ _ (by norm_num), getLsbD_paToPte_or _ _ (by norm_num),
    getLsbD_paToPte_or _ _ (by norm_num)]
  decide

include h

theorem frame_pointer : frame (pteToPa (pointer n)) = n := by
  rw [pointer, frame_pteToPa_or _ (by decide), frame_pageAddr (by omega)]

theorem pteToPa_pointer : pteToPa (pointer n) = pageAddr n := by
  apply BitVec.eq_of_toNat_eq
  rw [pteToPa_toNat, pointer, paToPte_or_toNat _ (by decide), pageAddr_toNat (by omega)]
  show (n * 4096 / 4096 * 1024 + 1) / 1024 % 2 ^ 52 * 4096 = n * 4096
  omega

theorem reserved_pointer : pointer n >>> 54 = 0 :=
  reserved_paToPte_or (by rw [pageAddr_toNat (by omega)]; omega) (by decide)

end Pointer

/-- The frame an entry refers to: a table at the two upper depths, at the lowest the frame
of a user page. -/
def decodePte (depth : ℕ) (w : Word) : Option ℕ :=
  if depth < 2 then if hasFlag w pteV then some (frame (pteToPa w)) else none
  else if depth = 2 ∧ hasFlag w pteV ∧ hasFlag w pteU ∧ isLeaf w then some (frame (pteToPa w))
  else none

theorem decodePte_deep {d : ℕ} (hd : 3 ≤ d) (w : Word) : decodePte d w = none := by
  rw [decodePte, if_neg (by omega), if_neg (by omega)]

theorem decodePte_upper {d : ℕ} (hd : d < 2) (w : Word) :
    decodePte d w = if hasFlag w pteV then some (frame (pteToPa w)) else none := by
  rw [decodePte, if_pos hd]

@[simp] theorem decodePte_zero (d : ℕ) : decodePte d 0#64 = none := by
  simp [decodePte]

theorem decodePte_pointer {d n : ℕ} (hd : d < 2) (hn : n < 2 ^ 44) :
    decodePte d (pointer n) = some n := by
  rw [decodePte_upper hd, pointer_valid, frame_pointer hn]
  rfl

/-- A page number, its three indices from the root down. -/
abbrev PageNo := Fin 512 × Fin 512 × Fin 512

def pageNo (va : Addr) : PageNo := (vpn va 2, vpn va 1, vpn va 0)

def PageNo.mid (q : PageNo) : List (Fin 512) := [q.1]
def PageNo.low (q : PageNo) : List (Fin 512) := [q.2.1, q.1]
def PageNo.leaf (q : PageNo) : List (Fin 512) := [q.2.2, q.2.1, q.1]

def tableAt (m : Memory) (root : Option ℕ) (path : List (Fin 512)) : Option ℕ :=
  nodeAt decodePte m.words root path

/-- The entry that decides a page; zero where a table is missing. -/
def entry (m : Memory) (root : Option ℕ) (q : PageNo) : Word :=
  ((tableAt m root q.low).map fun f => (m f).word q.2.2).getD 0

theorem vpn_val (va : Addr) (level : ℕ) :
    (vpn va level).val = va.toNat / 2 ^ (12 + 9 * level) % 512 := by
  show (va >>> (12 + 9 * level)).toNat % 512 = _
  rw [BitVec.toNat_ushiftRight, Nat.shiftRight_eq_div_pow]

/-- Translation ignores the bits above 38 and those of the offset. -/
theorem pageNo_eq_iff {a b : Addr} :
    pageNo a = pageNo b ↔ a.toNat / 4096 % 2 ^ 27 = b.toNat / 4096 % 2 ^ 27 := by
  simp only [pageNo, Prod.mk.injEq, Fin.ext_iff, vpn_val]
  norm_num
  omega

@[simp] theorem tableAt_nil (m : Memory) (root : Option ℕ) : tableAt m root [] = root := rfl

theorem tableAt_cons (m : Memory) (root : Option ℕ) (k : Fin 512) (path : List (Fin 512)) :
    tableAt m root (k :: path) =
      (tableAt m root path).bind fun f => decodePte path.length ((m f).word k) := rfl

@[simp] theorem tableAt_none (m : Memory) (path : List (Fin 512)) : tableAt m none path = none := by
  induction path with
  | nil => rfl
  | cons k path ih => rw [tableAt_cons, ih, Option.bind_none]

theorem tableAt_low (m : Memory) (root : ℕ) (q : PageNo) :
    tableAt m (some root) q.low =
      (decodePte 0 ((m root).word q.1)).bind fun f => decodePte 1 ((m f).word q.2.1) := rfl

theorem vmmLookup_eq (m : Memory) (root : ℕ) (va : Addr) :
    vmmLookup m root va =
      (tableAt m (some root) (pageNo va).low).map fun f => (f, vpn va 0) := by
  rw [tableAt_low]
  show vmmLookup m root va = ((decodePte 0 ((m root).word (vpn va 2))).bind fun f =>
    decodePte 1 ((m f).word (vpn va 1))).map _
  rw [decodePte_upper (by norm_num)]
  unfold vmmLookup
  by_cases hmid : hasFlag ((m root).word (vpn va 2)) pteV = true
  · simp only [hmid, if_true, Option.bind_some, decodePte_upper (by norm_num : 1 < 2)]
    split <;> rfl
  · simp only [hmid, Bool.false_eq_true, if_false]
    rfl

/-- The tables below a root: upper entries only point, no entry uses a reserved bit. -/
structure ThreeLevel (m : Memory) (root : ℕ) : Prop where
  pointers : ∀ path f, path.length < 2 → tableAt m (some root) path = some f →
    ∀ k, hasFlag ((m f).word k) pteV → IsPointer ((m f).word k)
  reserved : ∀ q, entry m (some root) q >>> 54 = 0

def HardwareLeaf (w : Word) : Prop :=
  hasFlag w pteV ∧ (hasFlag w pteR ∨ hasFlag w pteX) ∧ (hasFlag w pteW → hasFlag w pteR)

instance (w : Word) : Decidable (HardwareLeaf w) := inferInstanceAs (Decidable (_ ∧ _))

theorem not_hardwareLeaf_zero : ¬ HardwareLeaf 0 := by decide

theorem hardwareLeaf_isLeaf {w : Word} (h : HardwareLeaf w) : isLeaf w := by
  rcases h.2.1 with hr | hx
  · simp [isLeaf, hr]
  · simp [isLeaf, hx]

private theorem walk_upper (m : Memory) (level t : ℕ) (va : Addr)
    (hp : hasFlag ((m t).word (vpn va (level + 1))) pteV →
      IsPointer ((m t).word (vpn va (level + 1)))) :
    walk m (level + 1) t va =
      if hasFlag ((m t).word (vpn va (level + 1))) pteV then
        walk m level (frame (pteToPa ((m t).word (vpn va (level + 1))))) va
      else none := by
  rw [walk]
  by_cases hv : hasFlag ((m t).word (vpn va (level + 1))) pteV = true
  · obtain ⟨n, hn, he⟩ := hp hv
    have hl := pointer_not_leaf n
    simp only [isLeaf, Bool.or_eq_false_iff] at hl
    simp [he, hl, reserved_pointer hn]
  · simp [hv]

private theorem walk_leaf (m : Memory) (t : ℕ) (va : Addr)
    (hr : (m t).word (vpn va 0) >>> 54 = 0) :
    walk m 0 t va =
      if HardwareLeaf ((m t).word (vpn va 0)) then some ((m t).word (vpn va 0), 0) else none := by
  have hal : ∀ w, (pteToPa w).toNat % 2 ^ (12 + 9 * 0) = 0 := by
    intro w
    rw [pteToPa_toNat]
    omega
  rw [walk]
  generalize (m t).word (vpn va 0) = w at hr
  simp only [hr, HardwareLeaf]
  rw [if_pos (hal w)]
  by_cases hv : hasFlag w pteV = true <;> by_cases hread : hasFlag w pteR = true <;>
    by_cases hw : hasFlag w pteW = true <;> by_cases hx : hasFlag w pteX = true <;>
    simp [hv, hread, hw, hx]

/-- Below a root of the kernel's making the hardware finds the tree's entry, for the
addresses it does not reject. -/
theorem sv39_eq {m : Memory} {root : ℕ} (h : ThreeLevel m root) (va : Addr) :
    sv39 m root va =
      if Canonical va ∧ HardwareLeaf (entry m (some root) (pageNo va)) then
        some (entry m (some root) (pageNo va), 0)
      else none := by
  by_cases hc : Canonical va
  · rw [sv39, if_pos hc, walk_upper m 1 root va (h.pointers [] root (by simp) rfl _)]
    simp only [hc, true_and]
    have hres := h.reserved (pageNo va)
    have hmid : tableAt m (some root) (pageNo va).mid = decodePte 0 ((m root).word (vpn va 2)) :=
      rfl
    have hlow : tableAt m (some root) (pageNo va).low =
      (tableAt m (some root) (pageNo va).mid).bind fun f => decodePte 1 ((m f).word (vpn va 1)) :=
      rfl
    rw [decodePte_upper (by norm_num)] at hmid
    rw [entry] at hres ⊢
    by_cases h2 : hasFlag ((m root).word (vpn va 2)) pteV = true
    · rw [if_pos h2] at hmid ⊢
      rw [walk_upper m 0 _ va (h.pointers _ _ (by simp [PageNo.mid]) hmid _)]
      rw [hmid, Option.bind_some, decodePte_upper (by norm_num)] at hlow
      generalize frame (pteToPa ((m root).word (vpn va 2))) = mid at *
      by_cases h1 : hasFlag ((m mid).word (vpn va 1)) pteV = true
      · rw [if_pos h1] at hlow ⊢
        rw [hlow] at hres ⊢
        exact walk_leaf m _ va hres
      · rw [if_neg h1] at hlow ⊢
        rw [hlow, if_neg]
        exact not_hardwareLeaf_zero
    · rw [if_neg h2] at hmid ⊢
      rw [hlow, hmid, if_neg]
      exact not_hardwareLeaf_zero
  · simp [sv39, hc]

end Lazux

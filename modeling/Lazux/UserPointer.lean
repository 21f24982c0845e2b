import Lazux.AddressSpace

/-! # Checks of user pointers (`user_range_ok`, `user_str_ok`)

The range check is compared with what it promises for every pointer and length, the
lookup it uses with the hardware's own walk. -/
namespace Lazux

open PagedMemory

/-- The test `user_range_ok` makes for the page of `a`. -/
def userPageOk (m : Memory) (root : ℕ) (need : Word) (a : Addr) : Bool :=
  match vmmLookup m root a with
  | none => false
  | some (table, i) =>
    let pte := (m table).word i
    hasFlag pte pteV && hasFlag pte pteU && !hasFlag (need &&& ~~~pte) (pteR ||| pteW)

def userRangeOk (m : Memory) (root : ℕ) (va len need : Word) : Bool :=
  if va = 0 then false
  else (pageSteps (pageFloor va) (pageCeil (va + len))).all (userPageOk m root need)

/-- `load` reads user memory; the last argument counts down from `max`. -/
def userStrOk (m : Memory) (root : ℕ) (load : Addr → Except Stop Byte) (s : Addr) :
    ℕ → Except Stop Bool
  | 0 => .ok false
  | n + 1 =>
    if !userRangeOk m root s 1 pteR then .ok false
    else do
      let c ← load s
      if c = 0 then pure true else userStrOk m root load (s + 1) n

theorem pageNo_low_of_eq {m : Memory} {root : ℕ} {a b : Addr} (h : pageNo a = pageNo b) :
    vmmLookup m root a = vmmLookup m root b := by
  have h0 : vpn a 0 = vpn b 0 := congrArg (fun q => q.2.2) h
  rw [vmmLookup_eq, vmmLookup_eq, h, h0]

theorem userPageOk_congr {m : Memory} {root : ℕ} {need : Word} {a b : Addr}
    (h : pageNo a = pageNo b) : userPageOk m root need a = userPageOk m root need b := by
  rw [userPageOk, userPageOk, pageNo_low_of_eq h]

/-- The page of `a` has a valid user entry, as `vmm_lookup` finds it, with all of `need`. -/
def PageMapped (m : Memory) (root : ℕ) (need : Word) (a : Addr) : Prop :=
  ∃ table i, vmmLookup m root a = some (table, i) ∧ hasFlag ((m table).word i) pteV ∧
    hasFlag ((m table).word i) pteU ∧ need &&& ~~~(m table).word i = 0

theorem PageMapped.entry {m : Memory} {root : ℕ} {need : Word} {a : Addr}
    (h : PageMapped m root need a) : hasFlag (Lazux.entry m (some root) (pageNo a)) pteV ∧
      hasFlag (Lazux.entry m (some root) (pageNo a)) pteU ∧
      need &&& ~~~Lazux.entry m (some root) (pageNo a) = 0 := by
  obtain ⟨table, i, hlookup, hflags⟩ := h
  rw [vmmLookup_eq, Option.map_eq_some_iff] at hlookup
  obtain ⟨f, hf, he⟩ := hlookup
  cases he
  rw [Lazux.entry, hf]
  exact hflags

/-- The bytes do not run past the top of the address space and every one is mapped. -/
def RangeMapped (m : Memory) (root : ℕ) (va : Addr) (len : ℕ) (need : Word) : Prop :=
  va.toNat + len ≤ 2 ^ 64 ∧ ∀ i < len, PageMapped m root need (va + BitVec.ofNat 64 i)

section Need

def Permissions (need : Word) : Prop := need &&& ~~~(pteR ||| pteW) = 0

theorem userPageOk_iff {need : Word} (hneed : Permissions need) (m : Memory) (root : ℕ) (a : Addr) :
    userPageOk m root need a = true ↔ PageMapped m root need a := by
  have hbits : ∀ w : Word, hasFlag (need &&& ~~~w) (pteR ||| pteW) = false ↔ need &&& ~~~w = 0 := by
    intro w
    have hn : need &&& (pteR ||| pteW) = need := by
      apply BitVec.eq_of_getLsbD_eq
      intro i hi
      have hb := congrArg (fun x : Word => x.getLsbD i) hneed
      simp only [BitVec.getLsbD_and, BitVec.getLsbD_not, hi, decide_true, Bool.true_and] at hb ⊢
      cases hm : (pteR ||| pteW).getLsbD i
      · rw [hm] at hb
        simpa using hb.symm
      · simp
    have hc : need &&& ~~~w &&& (pteR ||| pteW) = need &&& ~~~w := by
      rw [BitVec.and_assoc, BitVec.and_comm (~~~w), ← BitVec.and_assoc, hn]
    simp [hasFlag, hc]
  unfold userPageOk PageMapped
  cases vmmLookup m root a with
  | none => simp
  | some s =>
    obtain ⟨t, i⟩ := s
    simp only [Bool.and_eq_true, Bool.not_eq_true', hbits, Option.some.injEq, Prod.mk.injEq]
    constructor
    · rintro ⟨⟨hv, hu⟩, hn⟩
      exact ⟨t, i, ⟨rfl, rfl⟩, hv, hu, hn⟩
    · rintro ⟨t', i', ⟨rfl, rfl⟩, hv, hu, hn⟩
      exact ⟨⟨hv, hu⟩, hn⟩

end Need

section Range

variable {m : Memory} {root : ℕ} {need va : Word} {len : ℕ}

private theorem add_ofNat_toNat {a : Addr} {k : ℕ} (h : a.toNat + k < 2 ^ 64) :
    (a + BitVec.ofNat 64 k).toNat = a.toNat + k := by
  rw [BitVec.toNat_add, BitVec.toNat_ofNat]
  omega

/-- Without a carry the loop visits exactly the pages the bytes lie in. -/
theorem all_pages_iff_all_bytes (P : Addr → Prop)
    (hP : ∀ a b, pageNo a = pageNo b → (P a ↔ P b)) (hlen : 0 < len)
    (hfit : va.toNat + len + 4095 < 2 ^ 64) :
    (∀ a ∈ pageSteps (pageFloor va) (pageCeil (va + BitVec.ofNat 64 len)), P a) ↔
      ∀ i < len, P (va + BitVec.ofNat 64 i) := by
  have hstop : (pageCeil (va + BitVec.ofNat 64 len)).toNat =
      (va.toNat + len + 4095) / 4096 * 4096 := by
    rw [pageCeil, pageFloor_toNat, BitVec.toNat_add, add_ofNat_toNat (by omega)]
    have : (va.toNat + len + 4095) % 2 ^ 64 = va.toNat + len + 4095 := Nat.mod_eq_of_lt hfit
    rw [show (BitVec.toNat (4095 : Addr)) = 4095 from rfl, this]
  have hstart := pageFloor_toNat va
  constructor
  · intro h i hi
    -- the page of byte `i`
    have hmem : pageFloor va + BitVec.ofNat 64 (4096 * ((va.toNat + i) / 4096 - va.toNat / 4096)) ∈
        pageSteps (pageFloor va) (pageCeil (va + BitVec.ofNat 64 len)) :=
      mem_pageSteps.mpr ⟨_, by omega, rfl⟩
    refine (hP _ _ (pageNo_eq_iff.mpr ?_)).mp (h _ hmem)
    rw [add_ofNat_toNat (by omega), add_ofNat_toNat (by omega)]
    omega
  · intro h a ha
    obtain ⟨k, hk, rfl⟩ := mem_pageSteps.mp ha
    -- a byte of page `k`: the first one of the range that lies in it
    have hbyte := h (4096 * k - va.toNat % 4096) (by omega)
    refine (hP _ _ (pageNo_eq_iff.mpr ?_)).mp hbyte
    rw [add_ofNat_toNat (by omega), add_ofNat_toNat (by omega)]
    omega

/-- With a carry the loop visits nothing. -/
theorem pageSteps_carry (hlen : len < 2 ^ 32) (hcarry : 2 ^ 64 ≤ va.toNat + len + 4095) :
    pageSteps (pageFloor va) (pageCeil (va + BitVec.ofNat 64 len)) = [] := by
  have hva := va.isLt
  have hstart := pageFloor_toNat va
  have hstop : (pageCeil (va + BitVec.ofNat 64 len)).toNat ≤ 2 ^ 32 + 4095 := by
    rw [pageCeil, pageFloor_toNat, BitVec.toNat_add, BitVec.toNat_add, BitVec.toNat_ofNat,
      show (BitVec.toNat (0xFFF : Addr)) = 4095 from rfl]
    omega
  apply List.eq_nil_iff_forall_not_mem.mpr
  intro a ha
  obtain ⟨k, hk, -⟩ := mem_pageSteps.mp ha
  omega

theorem userRangeOk_of_fit (hva : va ≠ 0) (hneed : Permissions need) (hlen : 0 < len)
    (hfit : va.toNat + len + 4095 < 2 ^ 64) :
    userRangeOk m root va (BitVec.ofNat 64 len) need = true ↔ RangeMapped m root va len need := by
  have hP : ∀ a b, pageNo a = pageNo b →
      (userPageOk m root need a = true ↔ userPageOk m root need b = true) :=
    fun a b h => by rw [userPageOk_congr h]
  rw [userRangeOk, if_neg hva, List.all_eq_true, all_pages_iff_all_bytes _ hP hlen hfit,
    RangeMapped]
  simp only [userPageOk_iff hneed]
  constructor
  · exact fun h => ⟨by omega, h⟩
  · exact fun h => h.2

end Range

/-- The range check is exact except for ranges whose rounding up carries out of 64 bits,
where it accepts everything: there it is right when the range really is mapped. -/
theorem user_range_ok_exact_iff (m : Memory) (root : ℕ) (va : Addr) (len : BitVec 32) (need : Word)
    (hva : va ≠ 0) (hlen : len ≠ 0) (hneed : Permissions need) :
    (userRangeOk m root va (len.setWidth 64) need = true ↔
      RangeMapped m root va len.toNat need) ↔
    va.toNat + len.toNat + 4095 < 2 ^ 64 ∨ RangeMapped m root va len.toNat need := by
  have hl : len.setWidth 64 = BitVec.ofNat 64 len.toNat := by
    apply BitVec.eq_of_toNat_eq
    simp
  have hpos : 0 < len.toNat := by
    rcases Nat.eq_zero_or_pos len.toNat with h | h
    · exact absurd (BitVec.eq_of_toNat_eq h) hlen
    · exact h
  rw [hl]
  by_cases hfit : va.toNat + len.toNat + 4095 < 2 ^ 64
  · exact iff_of_true (userRangeOk_of_fit hva hneed hpos hfit) (Or.inl hfit)
  · have hcarry : userRangeOk m root va (BitVec.ofNat 64 len.toNat) need = true := by
      rw [userRangeOk, if_neg hva, pageSteps_carry len.isLt (by omega)]
      rfl
    rw [iff_true_left hcarry]
    exact ⟨Or.inr, fun h => h.resolve_left hfit⟩

theorem user_range_ok_exact_iff_low_page :
    (userRangeOk (fun _ => Page.zero) ramFirst 0x1000
      (BitVec.setWidth 64 (1 : BitVec 32)) pteR = true ↔
      RangeMapped (fun _ => Page.zero) ramFirst 0x1000 1 pteR) ↔
    (0x1000 : Addr).toNat + 1 + 4095 < 2 ^ 64 ∨
      RangeMapped (fun _ => Page.zero) ramFirst 0x1000 1 pteR :=
  user_range_ok_exact_iff (fun _ => Page.zero) ramFirst 0x1000 1 pteR (by decide) (by decide)
    (by unfold Permissions; decide)

/-- In the last page of the address space the check accepts a byte no page maps. -/
theorem user_range_ok_accepts_unmapped :
    ¬ (userRangeOk (fun _ => Page.zero) ramFirst 0xFFFFFFFFFFFFF000
      (BitVec.setWidth 64 (1 : BitVec 32))
        pteR = true ↔
      RangeMapped (fun _ => Page.zero) ramFirst 0xFFFFFFFFFFFFF000 1 pteR) := by
  have hok : userRangeOk (fun _ => Page.zero) ramFirst 0xFFFFFFFFFFFFF000
      (BitVec.setWidth 64 (1 : BitVec 32)) pteR = true := by decide
  intro h
  obtain ⟨-, hm⟩ := h.mp hok
  obtain ⟨t, i, hl, -⟩ := hm 0 (by norm_num)
  simp [vmmLookup] at hl

/-- The entry `vmm_lookup` yields when it is a valid leaf. -/
def lookupLeaf (m : Memory) (root : ℕ) (va : Addr) : Option Word :=
  (vmmLookup m root va).bind fun (table, i) =>
    let pte := (m table).word i
    if hasFlag pte pteV && isLeaf pte then some pte else none

theorem lookupLeaf_eq (m : Memory) (root : ℕ) (va : Addr) :
    lookupLeaf m root va =
      let w := entry m (some root) (pageNo va)
      if hasFlag w pteV && isLeaf w then some w else none := by
  rw [lookupLeaf, vmmLookup_eq, entry]
  cases tableAt m (some root) (pageNo va).low with
  | none => simp
  | some t => rfl

/-- Lookup and hardware agree on an address exactly when a valid leaf at its page number
implies that the address is canonical and the leaf not writable without being readable. -/
theorem vmm_lookup_agrees_iff (m : Memory) (root : ℕ) (h : ThreeLevel m root) (va : Addr) :
    (∀ pte, lookupLeaf m root va = some pte ↔ sv39 m root va = some (pte, 0)) ↔
      (hasFlag (entry m (some root) (pageNo va)) pteV → isLeaf (entry m (some root) (pageNo va)) →
        Canonical va ∧ (hasFlag (entry m (some root) (pageNo va)) pteW →
          hasFlag (entry m (some root) (pageNo va)) pteR)) := by
  rw [lookupLeaf_eq, sv39_eq h]
  generalize entry m (some root) (pageNo va) = w
  by_cases hleaf : hasFlag w pteV = true ∧ isLeaf w = true
  · obtain ⟨hv, hl⟩ := hleaf
    simp only [hv, hl, Bool.and_self, if_true, true_implies]
    constructor
    · intro hagree
      have hs := (hagree w).mp rfl
      by_cases hc : Canonical va ∧ HardwareLeaf w
      · exact ⟨hc.1, hc.2.2.2⟩
      · rw [if_neg hc] at hs
        cases hs
    · rintro ⟨hc, hw⟩ pte
      have hrx : hasFlag w pteR ∨ hasFlag w pteX := by
        simp only [isLeaf, Bool.or_eq_true] at hl
        rcases hl with (hr | hw') | hx
        · exact Or.inl hr
        · exact Or.inl (hw hw')
        · exact Or.inr hx
      rw [if_pos ⟨hc, hv, hrx, hw⟩]
      simp
  · have hno : ¬ (Canonical va ∧ HardwareLeaf w) :=
      fun hc => hleaf ⟨hc.2.1, hardwareLeaf_isLeaf hc.2⟩
    have hb : (hasFlag w pteV && isLeaf w) = false := by
      simpa using hleaf
    simp only [hb, if_neg hno, Bool.false_eq_true, if_false]
    constructor
    · intro _ hv hl
      exact absurd ⟨hv, hl⟩ hleaf
    · intro _ pte
      simp

/-- Three tables that map page 0 for the user, as `map_page` links them. -/
def oneUserPage : Memory := fun f => Page.zero.setWord 0
  (if f = ramFirst then pointer (ramFirst + 1)
  else if f = ramFirst + 1 then pointer (ramFirst + 2)
  else if f = ramFirst + 2 then paToPte (pageAddr (ramFirst + 3)) ||| (pteU ||| pteR ||| pteV)
  else 0)

private theorem oneUserPage_word (f : ℕ) {k : Fin 512} (hk : k ≠ 0) :
    (oneUserPage f).word k = 0 := by
  rw [oneUserPage, word_setWord_ne _ hk, word_zero]

private theorem oneUserPage_root : (oneUserPage ramFirst).word 0 = pointer (ramFirst + 1) :=
  word_setWord ..

private theorem oneUserPage_mid : (oneUserPage (ramFirst + 1)).word 0 = pointer (ramFirst + 2) :=
  word_setWord ..

private theorem oneUserPage_leaf : (oneUserPage (ramFirst + 2)).word 0 =
    paToPte (pageAddr (ramFirst + 3)) ||| (pteU ||| pteR ||| pteV) :=
  word_setWord ..

private theorem oneUserPage_table (k : Fin 512) :
    tableAt oneUserPage (some ramFirst) [k] = if k = 0 then some (ramFirst + 1) else none := by
  rw [tableAt_cons, tableAt_nil, Option.bind_some]
  by_cases hk : k = 0
  · rw [if_pos hk, hk, oneUserPage_root]
    exact decodePte_pointer (by norm_num) (by decide)
  · rw [if_neg hk, oneUserPage_word _ hk]
    exact decodePte_zero _

private theorem oneUserPage_low (q : PageNo) : tableAt oneUserPage (some ramFirst) q.low =
    if q.1 = 0 ∧ q.2.1 = 0 then some (ramFirst + 2) else none := by
  rw [PageNo.low, tableAt_cons, oneUserPage_table]
  by_cases hq : q.1 = 0
  · by_cases hq' : q.2.1 = 0
    · rw [if_pos hq, if_pos ⟨hq, hq'⟩, Option.bind_some, hq', oneUserPage_mid]
      exact decodePte_pointer (by norm_num) (by decide)
    · rw [if_pos hq, if_neg (fun h => hq' h.2), Option.bind_some, oneUserPage_word _ hq']
      exact decodePte_zero _
  · rw [if_neg hq, if_neg (fun h => hq h.1), Option.bind_none]

private theorem threeLevel_oneUserPage : ThreeLevel oneUserPage ramFirst where
  pointers := by
    intro path f hl ht k hv
    have hk : k = 0 := by
      by_contra hk
      rw [oneUserPage_word f hk] at hv
      simp at hv
    subst k
    match path with
    | [] =>
      obtain rfl : ramFirst = f := Option.some.inj ht
      exact ⟨_, by decide, oneUserPage_root⟩
    | [k] =>
      rw [oneUserPage_table] at ht
      split_ifs at ht
      obtain rfl : ramFirst + 1 = f := Option.some.inj ht
      exact ⟨_, by decide, oneUserPage_mid⟩
    | _ :: _ :: _ => exact absurd hl (by simp)
  reserved := by
    intro q
    rw [entry, oneUserPage_low]
    split_ifs
    · by_cases hk : q.2.2 = 0
      · rw [hk]
        show (oneUserPage (ramFirst + 2)).word 0 >>> 54 = 0
        rw [oneUserPage_leaf]
        decide
      · show (oneUserPage (ramFirst + 2)).word q.2.2 >>> 54 = 0
        rw [oneUserPage_word _ hk]
        decide
    · show (0 : Word) >>> 54 = 0
      decide

theorem vmm_lookup_agrees_iff_page_zero :
    (∀ pte, lookupLeaf oneUserPage ramFirst 0 = some pte ↔
      sv39 oneUserPage ramFirst 0 = some (pte, 0)) ↔
    (hasFlag (entry oneUserPage (some ramFirst) (pageNo 0)) pteV →
      isLeaf (entry oneUserPage (some ramFirst) (pageNo 0)) →
        Canonical 0 ∧ (hasFlag (entry oneUserPage (some ramFirst) (pageNo 0)) pteW →
          hasFlag (entry oneUserPage (some ramFirst) (pageNo 0)) pteR)) :=
  vmm_lookup_agrees_iff oneUserPage ramFirst threeLevel_oneUserPage 0

/-- At `2 ^ 39` the lookup finds the leaf of page 0 and the hardware faults. -/
theorem vmm_lookup_accepts_noncanonical : ThreeLevel oneUserPage ramFirst ∧
    ¬ ∀ pte, lookupLeaf oneUserPage ramFirst 0x8000000000 = some pte ↔
      sv39 oneUserPage ramFirst 0x8000000000 = some (pte, 0) := by
  refine ⟨threeLevel_oneUserPage, fun h => ?_⟩
  have hw : entry oneUserPage (some ramFirst) (pageNo 0x8000000000) =
      paToPte (pageAddr (ramFirst + 3)) ||| (pteU ||| pteR ||| pteV) := by
    rw [entry, oneUserPage_low, if_pos (by decide)]
    exact oneUserPage_leaf
  have hs := (h (paToPte (pageAddr (ramFirst + 3)) ||| (pteU ||| pteR ||| pteV))).mp (by
    rw [lookupLeaf_eq, hw]
    decide)
  rw [sv39, if_neg (by decide)] at hs
  cases hs

end Lazux

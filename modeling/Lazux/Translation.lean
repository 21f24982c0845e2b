import Lazux.Boot

/-! # `map_page` on any page-table tree

A tree of its own, not one of the kernel's: its tables are distinct frames in use, its upper
entries point and its lowest are leaves. Mapping a page changes one translation. -/
namespace Lazux

open PagedMemory RadixForest

/-- The table an entry of the two upper levels points to. -/
def upperPte (depth : ℕ) (w : Word) : Option ℕ :=
  if depth < 2 ∧ hasFlag w pteV then some (frame (pteToPa w)) else none

def treeOf (root : ℕ) : Forest Unit := ⟨fun _ => some root, fun _ => none⟩

/-- The table at the end of a path of indices, the deepest first. -/
def tableBelow (m : Memory) (root : ℕ) (path : List (Fin 512)) : Option ℕ :=
  nodeAt upperPte m.words (some root) path

/-- A tree the kernel can walk and the hardware accepts. -/
structure TableTree (p : Phys) (root : ℕ) : Prop where
  inUse : ∀ path t, tableBelow p.mem root path = some t → InUse p t
  distinct : ∀ path path' t, tableBelow p.mem root path = some t →
    tableBelow p.mem root path' = some t → path = path'
  upper : ∀ path t k, path.length < 2 → tableBelow p.mem root path = some t →
    hasFlag (p.pte t k) pteV → ¬ isLeaf (p.pte t k) ∧ p.pte t k >>> 54 = 0
  lower : ∀ path t k, path.length = 2 → tableBelow p.mem root path = some t →
    hasFlag (p.pte t k) pteV → isLeaf (p.pte t k) ∧ p.pte t k >>> 54 = 0

variable {p p' p'' q : Phys} {m m' : Memory} {root t n : ℕ} {k : Fin 512}
  {path : List (Fin 512)} {va pa : Addr} {flags w : Word}

section Tables

theorem upperPte_deep {d : ℕ} (hd : 2 ≤ d) (w : Word) : upperPte d w = none :=
  if_neg fun h => absurd h.1 (by omega)

@[simp] theorem upperPte_zero (d : ℕ) : upperPte d 0#64 = none := by
  simp [upperPte]

theorem upperPte_pointer {d : ℕ} (hd : d < 2) (hn : n < 2 ^ 44) :
    upperPte d (pointer n) = some n := by
  rw [upperPte, if_pos ⟨hd, pointer_valid n⟩, frame_pointer hn]

theorem holds_treeOf (m : Memory) (root : ℕ) (path : List (Fin 512)) :
    holds upperPte m.words (treeOf root) (.node () path) = tableBelow m root path := rfl

theorem tableBelow_cons (m : Memory) (root : ℕ) (k : Fin 512) (path : List (Fin 512)) :
    tableBelow m root (k :: path) =
      (tableBelow m root path).bind fun t => upperPte path.length ((m t).word k) := rfl

theorem tableBelow_congr (h : ∀ path t, path.length < 2 → tableBelow m root path = some t →
    m' t = m t) : tableBelow m' root = tableBelow m root := by
  have hholds : holds upperPte m'.words (treeOf root) = holds upperPte m.words (treeOf root) := by
    apply holds_congr (fun d w hd => upperPte_deep hd w)
    intro r hr f hf
    cases r with
    | extra i => exact hr.elim
    | node i path =>
      have hsame := h path f hr hf
      funext k
      simp only [Memory.words, hsame]
  funext path
  exact congrFun hholds (.node () path)

theorem TableTree.distinct_holds (h : TableTree p root) :
    Distinct (holds upperPte p.mem.words (treeOf root)) := by
  intro r s f hr hs
  cases r with
  | extra => cases hr
  | node _ path =>
    cases s with
    | extra => cases hs
    | node _ path' => rw [h.distinct path path' f hr hs]

theorem vmmLookup_table (m : Memory) (root : ℕ) (va : Addr) : vmmLookup m root va =
    (tableBelow m root (pageNo va).low).map fun t => (t, vpn va 0) := by
  have hlow : tableBelow m root (pageNo va).low =
      (upperPte 0 ((m root).word (vpn va 2))).bind fun t =>
        upperPte 1 ((m t).word (vpn va 1)) := rfl
  rw [hlow]
  unfold vmmLookup upperPte
  by_cases hmid : hasFlag ((m root).word (vpn va 2)) pteV = true
  · simp only [hmid, if_true, Nat.zero_lt_two, and_self, Option.bind_some]
    by_cases hl :
      hasFlag ((m (frame (pteToPa ((m root).word (vpn va 2))))).word (vpn va 1)) pteV = true
    · simp [hl]
    · simp [hl]
  · simp [hmid]

end Tables

/-- The tree has grown by empty tables in frames that were free. -/
structure Extends (root : ℕ) (p p' : Phys) : Prop where
  wellFormed : TableTree p' root
  inUse : ∀ f, InUse p f → InUse p' f
  kept : ∀ path t, tableBelow p.mem root path = some t → tableBelow p'.mem root path = some t
  fresh : ∀ path t, tableBelow p'.mem root path = some t →
    tableBelow p.mem root path = some t ∨ ¬ InUse p t
  leaves : ∀ path t k, path.length = 2 → tableBelow p.mem root path = some t →
    p'.pte t k = p.pte t k
  empty : ∀ path t k, path.length = 2 → tableBelow p.mem root path = none →
    tableBelow p'.mem root path = some t → ¬ hasFlag (p'.pte t k) pteV
  linked : ∀ f, InUse p' f → InUse p f ∨ ∃ path, tableBelow p'.mem root path = some f
  written : ∀ f, p'.mem f ≠ p.mem f →
    ¬ InUse p f ∧ InUse p' f ∨ ∃ path, tableBelow p.mem root path = some f

namespace Extends

theorem refl (h : TableTree p root) : Extends root p p where
  wellFormed := h
  inUse _ hf := hf
  kept _ _ ht := ht
  fresh _ _ ht := Or.inl ht
  leaves _ _ _ _ _ := rfl
  empty _ _ _ _ hn ht := by
    rw [hn] at ht
    cases ht
  linked _ hf := Or.inl hf
  written _ hf := absurd rfl hf

theorem trans (h : Extends root p p') (h' : Extends root p' p'') : Extends root p p'' where
  wellFormed := h'.wellFormed
  inUse f hf := h'.inUse f (h.inUse f hf)
  kept path t ht := h'.kept path t (h.kept path t ht)
  fresh path t ht := by
    rcases h'.fresh path t ht with hmid | hfree
    · exact h.fresh path t hmid
    · exact Or.inr fun hu => hfree (h.inUse t hu)
  leaves path t k hp ht :=
    (h'.leaves path t k hp (h.kept path t ht)).trans (h.leaves path t k hp ht)
  empty path t k hp hn ht := by
    cases hmid : tableBelow p'.mem root path with
    | none => exact h'.empty path t k hp hmid ht
    | some t' =>
      have heq := (h'.kept path t' hmid).symm.trans ht
      rw [Option.some.injEq] at heq
      subst heq
      rw [h'.leaves path t' k hp hmid]
      exact h.empty path t' k hp hn hmid
  linked f hf := by
    rcases h'.linked f hf with hmid | hpath
    · rcases h.linked f hmid with hold | ⟨path, hpath⟩
      · exact Or.inl hold
      · exact Or.inr ⟨path, h'.kept path f hpath⟩
    · exact Or.inr hpath
  written f hf := by
    by_cases hmid : p'.mem f = p.mem f
    · rw [← hmid] at hf
      rcases h'.written f hf with ⟨hfree, hu⟩ | ⟨path, hpath⟩
      · exact Or.inl ⟨fun hu => hfree (h.inUse f hu), hu⟩
      · rcases h.fresh path f hpath with hold | hfree
        · exact Or.inr ⟨path, hold⟩
        · exact Or.inl ⟨hfree, h'.inUse f (h.wellFormed.inUse path f hpath)⟩
    · rcases h.written f hmid with ⟨hfree, hu⟩ | hpath
      · exact Or.inl ⟨hfree, h'.inUse f hu⟩
      · exact Or.inr hpath

end Extends

section Link

theorem TableTree.table_setPte (h : TableTree p root) (ht : tableBelow p.mem root path = some t)
    (hbefore : upperPte path.length ((p.mem t).word k) = none)
    (hafter : ∀ n, upperPte path.length w = some n → ∀ k',
      upperPte (path.length + 1) (((p.setPte t k w).mem n).word k') = none)
    (path' : List (Fin 512)) : tableBelow (p.setPte t k w).mem root path' =
      if path' = k :: path then upperPte path.length w else tableBelow p.mem root path' := by
  have hset := holds_set h.distinct_holds (i := ()) (k := k) (w := w) ht
    (fun n hn => by rw [Memory.words, hbefore] at hn; cases hn)
    (fun n hn k' => by rw [← words_setPte]; exact hafter n hn k')
  rw [← words_setPte] at hset
  have hpath := congrFun hset (.node () path')
  rw [holds_treeOf] at hpath
  rw [hpath]
  by_cases he : path' = k :: path
  · rw [if_pos he, he, Function.update_self]
  · rw [if_neg he, Function.update_of_ne (by simpa using he), holds_treeOf]

/-- The empty table `n` hangs at entry `k` of the table that `path` reaches. -/
structure TableLinked (root : ℕ) (path : List (Fin 512)) (t : ℕ) (k : Fin 512) (n : ℕ)
    (p p' : Phys) :
    Prop where
  table : ∀ path', tableBelow p'.mem root path' =
    if path' = k :: path then some n else tableBelow p.mem root path'
  fresh : ¬ InUse p n
  inUse : ∀ f, InUse p' f ↔ f = n ∨ InUse p f
  reserved : pointer n >>> 54 = 0
  slot : p'.pte t k = pointer n
  empty : ∀ k', ¬ hasFlag (p'.pte n k') pteV
  pte : ∀ f k', f ≠ n → ¬ (f = t ∧ k' = k) → p'.pte f k' = p.pte f k'
  mem : ∀ f, f ≠ t → f ≠ n → p'.mem f = p.mem f

theorem TableTree.not_table (h : TableTree p root) (hfree : ¬ InUse p n) :
    tableBelow p.mem root path ≠ some n := fun hn => hfree (h.inUse path n hn)

theorem TableTree.link (h : TableTree p root) (ht : tableBelow p.mem root path = some t)
    (hp : path.length < 2) (hv : ¬ hasFlag (p.pte t k) pteV)
    (ha : pmmAllocPage p = (some n, q)) :
    TableLinked root path t k n p ((q.zeroPage n).setPte t k (pointer n)) := by
  obtain ⟨hram, hfree, hmem, -, huse⟩ := pmmAllocPage_some ha
  have hlt : n < 2 ^ 44 := by
    have := hram.2
    simp only [ramLast] at this
    omega
  -- the zeroed page is nobody's table yet
  have hzmem : ∀ f, f ≠ n → (q.zeroPage n).mem f = p.mem f := by
    intro f hf
    rw [Phys.zeroPage, mem_setPage_of_ne q hf, hmem]
  have hztable : tableBelow (q.zeroPage n).mem root = tableBelow p.mem root :=
    tableBelow_congr fun path' f _ hf => hzmem f fun he => h.not_table hfree (he ▸ hf)
  have hz : TableTree (q.zeroPage n) root := by
    constructor
    · intro path' f hf
      rw [hztable] at hf
      exact (huse f).mpr (Or.inr (h.inUse path' f hf))
    · rw [hztable]
      exact h.distinct
    all_goals
      intro path' f k' hp' hf
      rw [hztable] at hf
      rw [Phys.pte, hzmem f fun he => h.not_table hfree (he ▸ hf)]
    · exact h.upper path' f k' hp' hf
    · exact h.lower path' f k' hp' hf
  set z := q.zeroPage n with hzdef
  have htn : t ≠ n := fun he => h.not_table hfree (he ▸ ht)
  have hzt : tableBelow z.mem root path = some t := by rw [hztable, ht]
  have hbefore : upperPte path.length ((z.mem t).word k) = none := by
    rw [hzmem t htn, upperPte, if_neg fun hc => hv hc.2]
  have hword : ∀ f k', ((z.setPte t k (pointer n)).mem f).word k' =
      if f = t ∧ k' = k then pointer n else (z.mem f).word k' :=
    fun f k' => word_setPte z t f k k' (pointer n)
  have hnew : ∀ k', ((z.setPte t k (pointer n)).mem n).word k' = 0 := by
    intro k'
    rw [hword, if_neg fun hc => htn hc.1.symm, hzdef, Phys.zeroPage, mem_setPage_self]
    exact word_zero k'
  constructor
  · intro path'
    rw [hz.table_setPte hzt hbefore, upperPte_pointer hp hlt, hztable]
    intro m hm k'
    rw [upperPte_pointer hp hlt, Option.some.injEq] at hm
    rw [← hm, hnew]
    exact upperPte_zero _
  · exact hfree
  · exact huse
  · exact reserved_pointer hlt
  · exact (hword t k).trans (if_pos ⟨rfl, rfl⟩)
  · intro k'
    rw [Phys.pte, hnew]
    decide
  · intro f k' hf hslot
    rw [Phys.pte, hword, if_neg hslot, hzmem f hf]
    rfl
  · intro f hft hfn
    rw [mem_setPte_of_ne z hft, hzmem f hfn]

namespace TableLinked

theorem cases (hl : TableLinked root path t k n p p') (h : TableTree p root)
    {path' : List (Fin 512)}
    {f : ℕ} (hf : tableBelow p'.mem root path' = some f) :
    path' = k :: path ∧ f = n ∨ f ≠ n ∧ tableBelow p.mem root path' = some f := by
  rw [hl.table] at hf
  split_ifs at hf with he
  · exact Or.inl ⟨he, (Option.some.inj hf).symm⟩
  · exact Or.inr ⟨fun hn => h.not_table hl.fresh (hn ▸ hf), hf⟩

theorem pte_low (hl : TableLinked root path t k n p p') (h : TableTree p root)
    (ht : tableBelow p.mem root path = some t) (hp : path.length < 2) {path' : List (Fin 512)}
    {f : ℕ} (hp' : path'.length = 2) (hf : tableBelow p.mem root path' = some f) (k' : Fin 512) :
    p'.pte f k' = p.pte f k' := by
  apply hl.pte
  · exact fun he => h.not_table hl.fresh (he ▸ hf)
  · rintro ⟨rfl, -⟩
    rw [h.distinct path' path f hf ht] at hp'
    omega

theorem wellFormed (hl : TableLinked root path t k n p p') (h : TableTree p root)
    (ht : tableBelow p.mem root path = some t) (hp : path.length < 2) : TableTree p' root := by
  constructor
  · intro path' f hf
    rcases hl.cases h hf with ⟨-, rfl⟩ | ⟨-, hf⟩
    · exact (hl.inUse f).mpr (Or.inl rfl)
    · exact (hl.inUse f).mpr (Or.inr (h.inUse path' f hf))
  · intro path' path'' f hf hf'
    rcases hl.cases h hf with ⟨he, hn⟩ | ⟨hn, hf⟩
    · rcases hl.cases h hf' with ⟨he', -⟩ | ⟨hn', -⟩
      · rw [he, he']
      · exact absurd hn hn'
    · rcases hl.cases h hf' with ⟨-, hn'⟩ | ⟨-, hf'⟩
      · exact absurd hn' hn
      · exact h.distinct path' path'' f hf hf'
  · intro path' f k' hp' hf hv
    rcases hl.cases h hf with ⟨-, rfl⟩ | ⟨hn, hf⟩
    · exact absurd hv (hl.empty k')
    · by_cases hslot : f = t ∧ k' = k
      · rw [hslot.1, hslot.2, hl.slot]
        exact ⟨by rw [pointer_not_leaf]; exact Bool.false_ne_true, hl.reserved⟩
      · rw [hl.pte f k' hn hslot] at hv ⊢
        exact h.upper path' f k' hp' hf hv
  · intro path' f k' hp' hf hv
    rcases hl.cases h hf with ⟨-, rfl⟩ | ⟨-, hf⟩
    · exact absurd hv (hl.empty k')
    · rw [hl.pte_low h ht hp hp' hf] at hv ⊢
      exact h.lower path' f k' hp' hf hv

theorem extends_tree (hl : TableLinked root path t k n p p') (h : TableTree p root)
    (ht : tableBelow p.mem root path = some t) (hp : path.length < 2)
    (hv : ¬ hasFlag (p.pte t k) pteV) : Extends root p p' := by
  constructor
  · exact hl.wellFormed h ht hp
  · exact fun f hf => (hl.inUse f).mpr (Or.inr hf)
  · intro path' f hf
    rw [hl.table, if_neg]
    · exact hf
    · rintro rfl
      rw [tableBelow_cons, ht, Option.bind_some, upperPte, if_neg fun hc => hv hc.2] at hf
      cases hf
  · intro path' f hf
    rcases hl.cases h hf with ⟨-, rfl⟩ | ⟨-, hf⟩
    · exact Or.inr hl.fresh
    · exact Or.inl hf
  · exact fun path' f k' hp' hf => hl.pte_low h ht hp hp' hf k'
  · intro path' f k' hp' hn hf
    rcases hl.cases h hf with ⟨-, rfl⟩ | ⟨-, hf⟩
    · exact hl.empty k'
    · rw [hn] at hf
      cases hf
  · intro f hf
    rcases (hl.inUse f).mp hf with rfl | hf
    · exact Or.inr ⟨k :: path, by rw [hl.table, if_pos rfl]⟩
    · exact Or.inl hf
  · intro f hf
    by_cases hft : f = t
    · exact Or.inr ⟨path, by rw [hft, ht]⟩
    · by_cases hfn : f = n
      · rw [hfn]
        exact Or.inl ⟨hl.fresh, (hl.inUse n).mpr (Or.inl rfl)⟩
      · exact absurd (hl.mem f hft hfn) hf

end TableLinked

theorem TableTree.nextTable_some (h : TableTree p root)
    (ht : tableBelow p.mem root path = some t) (hp : path.length < 2)
    (hnext : nextTable p t k = (some n, p')) :
    Extends root p p' ∧ tableBelow p'.mem root (k :: path) = some n := by
  unfold nextTable at hnext
  dsimp only at hnext
  split_ifs at hnext with hv
  · simp only [Prod.mk.injEq, Option.some.injEq] at hnext
    obtain ⟨rfl, rfl⟩ := hnext
    refine ⟨.refl h, ?_⟩
    rw [tableBelow_cons, ht, Option.bind_some, upperPte, if_pos ⟨hp, hv⟩]
    rfl
  · rcases ha : pmmAllocPage p with ⟨_ | new, q⟩
    · rw [ha] at hnext
      cases hnext
    · rw [ha] at hnext
      simp only [Prod.mk.injEq, Option.some.injEq] at hnext
      obtain ⟨rfl, rfl⟩ := hnext
      have hl := h.link ht hp hv ha
      exact ⟨hl.extends_tree h ht hp hv, (hl.table _).trans (if_pos rfl)⟩

theorem TableTree.mapPage_cases (h : TableTree p root) (va pa : Addr) (flags : Word) :
    (∃ low p2, Extends root p p2 ∧ tableBelow p2.mem root (pageNo va).low = some low ∧
      mapPage p root va pa flags =
        (true, p2.setPte low (vpn va 0) (paToPte pa ||| flags ||| pteV))) ∨
    ∃ p2, Extends root p p2 ∧ mapPage p root va pa flags = (false, p2) := by
  rcases h1 : nextTable p root (vpn va 2) with ⟨_ | mid, p1⟩
  · refine Or.inr ⟨p1, ?_, by simp [mapPage, h1]⟩
    rw [nextTable_none_eq h1]
    exact .refl h
  obtain ⟨g1, ht1⟩ := @TableTree.nextTable_some _ _ _ _ _ _ [] h rfl Nat.zero_lt_two h1
  rcases h2 : nextTable p1 mid (vpn va 1) with ⟨_ | low, p2⟩
  · refine Or.inr ⟨p2, ?_, by simp [mapPage, h1, h2]⟩
    rw [nextTable_none_eq h2]
    exact g1
  · obtain ⟨g2, ht2⟩ := g1.wellFormed.nextTable_some ht1 Nat.one_lt_two h2
    exact Or.inl ⟨low, p2, g1.trans g2, ht2, by simp [mapPage, h1, h2]⟩

end Link

/-- The translation of `va` is what it was: the same entry, or none that is valid. -/
structure SameLookup (root : ℕ) (va : Addr) (p p' : Phys) : Prop where
  found : ∀ t i, vmmLookup p.mem root va = some (t, i) →
    vmmLookup p'.mem root va = some (t, i) ∧ p'.pte t i = p.pte t i
  absent : vmmLookup p.mem root va = none →
    ∀ t i, vmmLookup p'.mem root va = some (t, i) → ¬ hasFlag (p'.pte t i) pteV

/-- What `map_page` does to a tree when it answers `ok`: the page of `va` gets the entry `w`, or
nothing changes. -/
structure MapsOne (root : ℕ) (va : Addr) (w : Word) (ok : Bool) (p p' : Phys) : Prop where
  mapped : ok = true → ∀ a, pageNo a = pageNo va →
    ∃ t i, vmmLookup p'.mem root a = some (t, i) ∧ p'.pte t i = w
  others : ∀ a, ok = false ∨ pageNo a ≠ pageNo va → SameLookup root a p p'
  wellFormed : TableTree p' root
  inUse : ∀ f, InUse p f → InUse p' f
  kept : ∀ path t, tableBelow p.mem root path = some t → tableBelow p'.mem root path = some t
  linked : ∀ f, InUse p' f → InUse p f ∨ ∃ path, tableBelow p'.mem root path = some f
  written : ∀ f, p'.mem f ≠ p.mem f →
    ¬ InUse p f ∧ InUse p' f ∨ ∃ path, tableBelow p.mem root path = some f

section Leaf

theorem SameLookup.trans (h : SameLookup root va p p') (h' : SameLookup root va p' p'') :
    SameLookup root va p p'' := by
  constructor
  · intro t i hf
    obtain ⟨hmid, hpte⟩ := h.found t i hf
    obtain ⟨hend, hpte'⟩ := h'.found t i hmid
    exact ⟨hend, hpte'.trans hpte⟩
  · intro hn t i hf
    cases hmid : vmmLookup p'.mem root va with
    | none => exact h'.absent hmid t i hf
    | some x =>
      obtain ⟨hend, hpte⟩ := h'.found x.1 x.2 hmid
      have heq := hend.symm.trans hf
      rw [Option.some.injEq, Prod.mk.injEq] at heq
      rw [← heq.1, ← heq.2, hpte]
      exact h.absent hn x.1 x.2 hmid

theorem Extends.sameLookup (h : Extends root p p') (va : Addr) : SameLookup root va p p' := by
  have hlen : (pageNo va).low.length = 2 := rfl
  constructor
  · intro t i ht
    rw [vmmLookup_table, Option.map_eq_some_iff] at ht
    obtain ⟨t', ht, he⟩ := ht
    cases he
    refine ⟨?_, h.leaves _ t _ hlen ht⟩
    rw [vmmLookup_table, h.kept _ t ht]
    rfl
  · intro hn t i ht
    rw [vmmLookup_table, Option.map_eq_none_iff] at hn
    rw [vmmLookup_table, Option.map_eq_some_iff] at ht
    obtain ⟨t', ht, he⟩ := ht
    cases he
    exact h.empty _ t _ hlen hn ht

theorem TableTree.table_setLeaf (h : TableTree p root) (ht : tableBelow p.mem root path = some t)
    (hp : path.length = 2) (k : Fin 512) (w : Word) :
    tableBelow (p.setPte t k w).mem root = tableBelow p.mem root := by
  apply tableBelow_congr
  intro path' f hp' hf
  apply mem_setPte_of_ne
  rintro rfl
  rw [h.distinct path' path f hf ht] at hp'
  omega

theorem pte_setPte (p : Phys) (t f : ℕ) (k k' : Fin 512) (w : Word) :
    (p.setPte t k w).pte f k' = if f = t ∧ k' = k then w else p.pte f k' :=
  word_setPte p t f k k' w

theorem TableTree.setLeaf (h : TableTree p root) (ht : tableBelow p.mem root path = some t)
    (hp : path.length = 2) (k : Fin 512) (hl : isLeaf w) (hr : w >>> 54 = 0) :
    TableTree (p.setPte t k w) root := by
  have htable := h.table_setLeaf ht hp k w
  constructor
  · rw [htable]
    exact h.inUse
  · rw [htable]
    exact h.distinct
  · intro path' f k' hp' hf hv
    rw [htable] at hf
    have hft : f ≠ t := by
      rintro rfl
      rw [h.distinct path' path f hf ht] at hp'
      omega
    rw [pte_setPte, if_neg fun hc => hft hc.1] at hv ⊢
    exact h.upper path' f k' hp' hf hv
  · intro path' f k' hp' hf hv
    rw [htable] at hf
    rw [pte_setPte] at hv ⊢
    split_ifs at hv ⊢
    · exact ⟨hl, hr⟩
    · exact h.lower path' f k' hp' hf hv

theorem TableTree.mapsOne (h : TableTree p root)
    (ht : tableBelow p.mem root (pageNo va).low = some t) (hl : isLeaf w) (hr : w >>> 54 = 0) :
    MapsOne root va w true p (p.setPte t (vpn va 0) w) := by
  have hlen : (pageNo va).low.length = 2 := rfl
  have htable := h.table_setLeaf ht hlen (vpn va 0) w
  have hlookup : ∀ a, vmmLookup (p.setPte t (vpn va 0) w).mem root a = vmmLookup p.mem root a := by
    intro a
    rw [vmmLookup_table, vmmLookup_table, htable]
  constructor
  · intro _ a ha
    have hidx : vpn a 0 = vpn va 0 := congrArg (fun q => q.2.2) ha
    refine ⟨t, vpn va 0, ?_, pte_setPte_self p t (vpn va 0) w⟩
    rw [vmmLookup_table, htable, ha, ht, hidx]
    rfl
  · intro a ha
    have hne : pageNo a ≠ pageNo va := ha.resolve_left Bool.noConfusion
    refine ⟨fun t' i hf => ⟨(hlookup a).trans hf, ?_⟩, fun hn t' i hf => ?_⟩
    · rw [pte_setPte, if_neg]
      rintro ⟨rfl, rfl⟩
      rw [vmmLookup_table, Option.map_eq_some_iff] at hf
      obtain ⟨t'', hf, he⟩ := hf
      rw [Prod.mk.injEq] at he
      have hlow := h.distinct _ _ _ (he.1 ▸ hf) ht
      simp only [PageNo.low, pageNo, List.cons.injEq, and_true] at hlow
      exact hne (Prod.ext hlow.2 (Prod.ext hlow.1 he.2))
    · rw [hlookup, hn] at hf
      cases hf
  · exact h.setLeaf ht hlen (vpn va 0) hl hr
  · exact fun f hf => hf
  · rw [htable]
    exact fun _ _ => id
  · exact fun f hf => Or.inl hf
  · intro f hf
    by_cases hft : f = t
    · exact Or.inr ⟨_, hft ▸ ht⟩
    · exact absurd (mem_setPte_of_ne p hft _ _) hf

theorem Extends.mapsOne (he : Extends root p p') (va : Addr) (w : Word) :
    MapsOne root va w false p p' :=
  ⟨fun hf => absurd hf Bool.false_ne_true, fun a _ => he.sameLookup a, he.wellFormed, he.inUse,
    he.kept, he.linked, he.written⟩

theorem MapsOne.after {ok : Bool} (h : MapsOne root va w ok p' p'') (he : Extends root p p') :
    MapsOne root va w ok p p'' := by
  constructor
  · exact h.mapped
  · exact fun a ha => (he.sameLookup a).trans (h.others a ha)
  · exact h.wellFormed
  · exact fun f hf => h.inUse f (he.inUse f hf)
  · exact fun path t ht => h.kept path t (he.kept path t ht)
  · intro f hf
    rcases h.linked f hf with hmid | hpath
    · rcases he.linked f hmid with hold | ⟨path, hpath⟩
      · exact Or.inl hold
      · exact Or.inr ⟨path, h.kept path f hpath⟩
    · exact Or.inr hpath
  · intro f hf
    by_cases hmid : p'.mem f = p.mem f
    · rw [← hmid] at hf
      rcases h.written f hf with ⟨hfree, hu⟩ | ⟨path, hpath⟩
      · exact Or.inl ⟨fun hu => hfree (he.inUse f hu), hu⟩
      · rcases he.fresh path f hpath with hold | hfree
        · exact Or.inr ⟨path, hold⟩
        · exact Or.inl ⟨hfree, h.inUse f (he.wellFormed.inUse path f hpath)⟩
    · rcases he.written f hmid with ⟨hfree, hu⟩ | hpath
      · exact Or.inl ⟨hfree, h.inUse f hu⟩
      · exact Or.inr hpath

end Leaf

section Flags

theorem isLeaf_or (pa : Addr) (hl : isLeaf flags) : isLeaf (paToPte pa ||| flags ||| pteV) := by
  have hbit : ∀ k < 10, pteV.getLsbD k = false →
      (paToPte pa ||| flags ||| pteV).getLsbD k = flags.getLsbD k := by
    intro k hk hv
    rw [BitVec.getLsbD_or, getLsbD_paToPte_or pa flags hk, hv, Bool.or_false]
  rw [isLeaf, hasFlag_pteR, hasFlag_pteW, hasFlag_pteX] at hl ⊢
  rw [hbit 1 (by norm_num) (by decide), hbit 2 (by norm_num) (by decide),
    hbit 3 (by norm_num) (by decide)]
  exact hl

theorem flags_or_lt (hf : flags.toNat < 1024) : (flags ||| pteV).toNat < 1024 := by
  rw [BitVec.toNat_or]
  exact Nat.or_lt_two_pow (n := 10) hf (by decide)

theorem pteToPa_or (hpa : pa.toNat % 4096 = 0) (hf : flags.toNat < 1024) :
    pteToPa (paToPte pa ||| flags ||| pteV) = pa := by
  apply BitVec.eq_of_toNat_eq
  have hlt := flags_or_lt hf
  have hpa' := pa.isLt
  rw [BitVec.or_assoc, pteToPa_toNat, paToPte_or_toNat pa hlt]
  omega

theorem low_bits_or (pa : Addr) (hf : flags.toNat < 1024) :
    (paToPte pa ||| flags ||| pteV) &&& 0x3FF = flags ||| pteV := by
  apply BitVec.eq_of_toNat_eq
  have hlt := flags_or_lt hf
  have hmask : (0x3FF : Word).toNat = 2 ^ 10 - 1 := rfl
  rw [BitVec.or_assoc, BitVec.toNat_and, hmask, Nat.and_two_pow_sub_one_eq_mod,
    paToPte_or_toNat pa hlt]
  omega

end Flags

theorem wellFormed_zeroPage (hu : InUse p root) : TableTree (p.zeroPage root) root := by
  have hzero : ∀ k, ((p.zeroPage root).mem root).word k = 0 := by
    intro k
    rw [Phys.zeroPage, mem_setPage_self]
    exact word_zero k
  have htable : ∀ path t, tableBelow (p.zeroPage root).mem root path = some t →
      path = [] ∧ t = root := by
    intro path
    induction path with
    | nil => exact fun t ht => ⟨rfl, (Option.some.inj ht).symm⟩
    | cons k path ih =>
      intro t ht
      rw [tableBelow_cons, Option.bind_eq_some_iff] at ht
      obtain ⟨f, hf, hw⟩ := ht
      rw [(ih f hf).2, hzero] at hw
      exact absurd ((upperPte_zero _).symm.trans hw) (by simp)
  have hinvalid : ∀ path t k, tableBelow (p.zeroPage root).mem root path = some t →
      ¬ hasFlag ((p.zeroPage root).pte t k) pteV := by
    intro path t k ht
    rw [(htable path t ht).2, Phys.pte, hzero]
    decide
  constructor
  · intro path t ht
    rw [(htable path t ht).2]
    exact hu
  · intro path path' t ht ht'
    rw [(htable path t ht).1, (htable path' t ht').1]
  · exact fun path t k _ ht hv => absurd hv (hinvalid path t k ht)
  · exact fun path t k _ ht hv => absurd hv (hinvalid path t k ht)

/-- On every well-formed tree `map_page` sets the translation of one page, to the page asked for,
or fails and sets none. -/
theorem map_page_sets_one_translation (h : TableTree p root) (va : Addr)
    (hpa : pa.toNat % 4096 = 0) (hlt : pa.toNat < 2 ^ 56) (hf : flags.toNat < 1024)
    (hl : isLeaf flags) :
    MapsOne root va (paToPte pa ||| flags ||| pteV) (mapPage p root va pa flags).1 p
      (mapPage p root va pa flags).2 ∧
    pteToPa (paToPte pa ||| flags ||| pteV) = pa ∧
    (paToPte pa ||| flags ||| pteV) &&& 0x3FF = flags ||| pteV := by
  refine ⟨?_, pteToPa_or hpa hf, low_bits_or pa hf⟩
  rcases h.mapPage_cases va pa flags with ⟨low, p2, he, ht, hm⟩ | ⟨p2, he, hm⟩
  · rw [hm]
    have hr : (paToPte pa ||| flags ||| pteV) >>> 54 = 0 := by
      rw [BitVec.or_assoc]
      exact reserved_paToPte_or hlt (flags_or_lt hf)
    exact (he.wellFormed.mapsOne ht (isLeaf_or pa hl) hr).after he
  · rw [hm]
    exact he.mapsOne va _

/-- A second page in a tree that has one. -/
theorem map_page_sets_one_translation_second : ∃ p root t i, TableTree p root ∧
    vmmLookup p.mem root 0x401000 = some (t, i) ∧
    p.pte t i = paToPte 0x80400000 ||| (pteU ||| pteR ||| pteW) ||| pteV ∧
    MapsOne root 0x400000 (paToPte 0x80300000 ||| (pteU ||| pteR) ||| pteV)
      (mapPage p root 0x400000 0x80300000 (pteU ||| pteR)).1 p
      (mapPage p root 0x400000 0x80300000 (pteU ||| pteR)).2 ∧
    pteToPa (paToPte 0x80300000 ||| (pteU ||| pteR) ||| pteV) = 0x80300000 ∧
    (paToPte 0x80300000 ||| (pteU ||| pteR) ||| pteV) &&& 0x3FF = (pteU ||| pteR) ||| pteV := by
  have hfree : freeFrames (initPmm smallLayout smallRam) = 32252 := by
    rw [freeFrames_initPmm]
    decide
  obtain ⟨root, p, ha⟩ := pmmAllocPage_returns (p := initPmm smallLayout smallRam) (by omega)
  obtain ⟨howned, -, hzero, hcount, -, -⟩ :=
    freshRoot (owned_initPmm (ι := Unit) smallLayout smallRam) (i := ()) rfl ha
  obtain ⟨-, -, -, -, huse⟩ := pmmAllocPage_some ha
  have hwell := wellFormed_zeroPage ((huse root).mpr (Or.inl rfl))
  -- the first page finds the frames for its tables
  have hroot := withRoot_self ⟨fun _ => none, fun _ => none⟩ () (some root)
  have hempty := tableSet_zero hroot hzero
  have htables : (pageNo 0x401000).tables.card ≤ 2 := Finset.card_le_two
  have hok :
      (mapPage (p.zeroPage root) root 0x401000 0x80400000 (pteU ||| pteR ||| pteW)).1 = true := by
    rw [mapPage_fst howned hroot, hempty, Finset.empty_union, Finset.card_empty]
    omega
  obtain ⟨hfirst, -, -⟩ := @map_page_sets_one_translation _ _ 0x80400000 (pteU ||| pteR ||| pteW)
    hwell 0x401000 (by decide) (by decide) (by decide) (by decide)
  obtain ⟨t, i, hfound, hpte⟩ := hfirst.mapped hok _ rfl
  exact ⟨_, root, t, i, hfirst.wellFormed, hfound, hpte,
    map_page_sets_one_translation hfirst.wellFormed 0x400000 (by decide) (by decide) (by decide)
      (by decide)⟩

end Lazux

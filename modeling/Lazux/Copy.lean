import Lazux.KernelMap
import Mathlib.Data.Fintype.Prod

/-! # Copying user memory

`vmm_copy_uvm` walks two trees at once. What it does is said for a region of paths: the
part of the tree it has been through. -/
namespace Lazux

open PagedMemory RadixForest Run

variable {ι : Type*} {H : Forest ι} {p p' p'' : Phys} {lo : ℕ} {i j : ι}

def UserLeaf (w : Word) : Prop := hasFlag w pteV ∧ isLeaf w ∧ hasFlag w pteU

instance (w : Word) : Decidable (UserLeaf w) := inferInstanceAs (Decidable (_ ∧ _ ∧ _))

noncomputable def userPages (p : Phys) (H : Forest ι) (i : ι) (R : List (Fin 512) → Prop) :
    Finset PageNo :=
  (Set.toFinite {q : PageNo | R q.leaf ∧ UserLeaf (entry p.mem (H.root i) q)}).toFinset

open Classical in
noncomputable def tablesIn (p : Phys) (H : Forest ι) (i : ι) (R : List (Fin 512) → Prop) :
    Finset (List (Fin 512)) := (tableSet p H i).filter R

def copiedWord (n : ℕ) (w : Word) : Word := paToPte (pageAddr n) ||| (w &&& 0x3FF)

/-- In the region `R` tree `j` got the tables of tree `i` and its own copies of the user
pages; every other entry is as it was. -/
structure Copied (lo : ℕ) (H : Forest ι) (i j : ι) (R : List (Fin 512) → Prop) (p p' : Phys) :
    Prop where
  grows : Grows lo H j (tablesIn p H i R) (userPages p H i R).card p p'
  good : ∀ q, R q.leaf → hasFlag (entry p.mem (H.root i) q) pteV →
    isLeaf (entry p.mem (H.root i) q)
  user : ∀ q, R q.leaf → UserLeaf (entry p.mem (H.root i) q) → ∃ n, ¬ InUse p n ∧
    held p' H (.node j q.leaf) = some n ∧
    entry p'.mem (H.root j) q = copiedWord n (entry p.mem (H.root i) q) ∧
    p'.mem n = p.mem (frame (pteToPa (entry p.mem (H.root i) q)))
  rest : ∀ q, (R q.leaf → ¬ UserLeaf (entry p.mem (H.root i) q)) →
    entry p'.mem (H.root j) q = entry p.mem (H.root j) q

section Basics

theorem mem_userPages {R : List (Fin 512) → Prop} {q : PageNo} :
    q ∈ userPages p H i R ↔ R q.leaf ∧ UserLeaf (entry p.mem (H.root i) q) := by
  rw [userPages, Set.Finite.mem_toFinset]
  exact Iff.rfl

theorem mem_tablesIn {R : List (Fin 512) → Prop} {path : List (Fin 512)} :
    path ∈ tablesIn p H i R ↔ path ∈ tableSet p H i ∧ R path := by
  classical
  rw [tablesIn, Finset.mem_filter]

theorem decodePte_userLeaf {w : Word} (h : UserLeaf w) :
    decodePte 2 w = some (frame (pteToPa w)) := by
  rw [decodePte, if_neg (by norm_num), if_pos ⟨rfl, h.1, h.2.2, h.2.1⟩]

theorem userLeaf_iff {w : Word} : UserLeaf w ↔ decodePte 2 w ≠ none := by
  rw [decodePte, if_neg (by norm_num)]
  constructor
  · rintro ⟨h1, h2, h3⟩
    rw [if_pos ⟨rfl, h1, h3, h2⟩]
    simp
  · intro h
    split_ifs at h with hc
    · exact ⟨hc.2.1, hc.2.2.2, hc.2.2.1⟩
    · exact absurd rfl h

variable {n : ℕ} {w : Word}

theorem flags_lt (w : Word) : (w &&& 0x3FF).toNat < 1024 := by
  have : (w &&& 0x3FF).toNat ≤ (0x3FF : Word).toNat := by
    rw [BitVec.toNat_and]
    exact Nat.and_le_right
  have h : (0x3FF : Word).toNat = 1023 := rfl
  omega

theorem getLsbD_copiedWord {k : ℕ} (hk : k < 10) : (copiedWord n w).getLsbD k = w.getLsbD k := by
  have hm : ∀ k : Fin 10, (0x3FF : Word).getLsbD k.val = true := by decide
  rw [copiedWord, getLsbD_paToPte_or _ _ hk, BitVec.getLsbD_and, hm ⟨k, hk⟩, Bool.and_true]

theorem frame_copiedWord (hn : n < 2 ^ 44) : frame (pteToPa (copiedWord n w)) = n := by
  rw [copiedWord, frame_pteToPa_or _ (flags_lt w), frame_pageAddr (by omega)]

theorem userLeaf_copiedWord : UserLeaf (copiedWord n w) ↔ UserLeaf w := by
  simp only [UserLeaf, isLeaf, hasFlag_pteV, hasFlag_pteU, hasFlag_pteR, hasFlag_pteW, hasFlag_pteX,
    getLsbD_copiedWord (show (0 : ℕ) < 10 by norm_num),
    getLsbD_copiedWord (show 1 < 10 by norm_num),
    getLsbD_copiedWord (show 2 < 10 by norm_num), getLsbD_copiedWord (show 3 < 10 by norm_num),
    getLsbD_copiedWord (show 4 < 10 by norm_num)]

theorem leafWord_copiedWord (hn : n < 2 ^ 44) (h : UserLeaf w) (q : PageNo) :
    LeafWord q (copiedWord n w) := by
  refine ⟨reserved_paToPte_or (by rw [pageAddr_toNat (by omega)]; omega) (flags_lt w),
    fun _ hu => ?_⟩
  exact absurd ((userLeaf_copiedWord.mpr h).2.2) hu

end Basics

namespace Copied

variable {R S : List (Fin 512) → Prop}

theorem source (hij : j ≠ i) (ho : Owned lo H p) (h : Copied lo H i j R p p') :
    tableSet p' H i = tableSet p H i ∧
      (∀ q, entry p'.mem (H.root i) q = entry p.mem (H.root i) q) ∧
      ∀ path, held p' H (.node i path) = held p H (.node i path) :=
  ⟨h.grows.table_other hij.symm, h.grows.entry_other ho hij.symm,
    fun path => h.grows.others _ (by simp [hij.symm])⟩

theorem congr (h : Copied lo H i j R p p') (he : ∀ path, R path ↔ S path) :
    Copied lo H i j S p p' := by
  have : R = S := funext fun path => propext (he path)
  rwa [← this]

theorem nothing (ho : Owned lo H p) (ht : ∀ path, R path → path ∉ tableSet p H i)
    (hg : ∀ q, R q.leaf → hasFlag (entry p.mem (H.root i) q) pteV →
      isLeaf (entry p.mem (H.root i) q))
    (hu : ∀ q, R q.leaf → ¬ UserLeaf (entry p.mem (H.root i) q)) : Copied lo H i j R p p := by
  have h1 : tablesIn p H i R = ∅ := Finset.eq_empty_of_forall_notMem fun path hp => by
    rw [mem_tablesIn] at hp
    exact ht path hp.2 hp.1
  have h2 : userPages p H i R = ∅ := Finset.eq_empty_of_forall_notMem fun q hq => by
    rw [mem_userPages] at hq
    exact hu q hq.1 hq.2
  refine ⟨?_, hg, fun q hq hl => absurd hl (hu q hq), fun _ _ => rfl⟩
  rw [h1, h2]
  exact .refl ho

theorem trans (hij : j ≠ i) (ho : Owned lo H p) (h : Copied lo H i j R p p')
    (h' : Copied lo H i j S p' p'') (hd : ∀ path, R path → ¬ S path) :
    Copied lo H i j (fun path => R path ∨ S path) p p'' := by
  classical
  obtain ⟨htab, hent, hheld⟩ := h.source hij ho
  have hT : tablesIn p H i (fun path => R path ∨ S path) =
      tablesIn p H i R ∪ tablesIn p' H i S := by
    ext path
    rw [Finset.mem_union, mem_tablesIn, mem_tablesIn, mem_tablesIn, htab]
    tauto
  have hU : userPages p H i (fun path => R path ∨ S path) =
      userPages p H i R ∪ userPages p' H i S := by
    ext q
    rw [Finset.mem_union, mem_userPages, mem_userPages, mem_userPages, hent]
    tauto
  have hdisj : Disjoint (userPages p H i R) (userPages p' H i S) := by
    rw [Finset.disjoint_left]
    intro q hq hq'
    rw [mem_userPages] at hq hq'
    exact hd _ hq.1 hq'.1
  refine ⟨?_, fun q hq => ?_, fun q hq hl => ?_, fun q hq => ?_⟩
  · rw [hT, hU, Finset.card_union_of_disjoint hdisj]
    exact h.grows.trans h'.grows
  · rcases hq with hq | hq
    · exact h.good q hq
    · have := h'.good q hq
      rwa [hent] at this
  · by_cases hR : R q.leaf
    · obtain ⟨n, hfree, hn, he, hm⟩ := h.user q hR hl
      have hsame : entry p''.mem (H.root j) q = entry p'.mem (H.root j) q :=
        h'.rest q fun hS => absurd hS (hd _ hR)
      have hheld'' : held p'' H (.node j q.leaf) = some n := by
        rw [held_leaf, hsame, ← held_leaf, hn]
      refine ⟨n, hfree, hheld'', hsame.trans he, ?_⟩
      rw [h'.grows.mem n (h.grows.owned.inUse _ n hn).1, hm]
      intro path hp hpath
      have := h.grows.owned.distinct _ _ n hn hpath
      simp only [Role.node.injEq, true_and] at this
      rw [← this] at hp
      simp [PageNo.leaf] at hp
    · have hS : S q.leaf := hq.resolve_left hR
      obtain ⟨n, hfree, hn, he, hm⟩ := h'.user q hS (by rwa [hent])
      rw [hent] at he hm
      refine ⟨n, fun hu => hfree (h.grows.inUse n hu), hn, he, ?_⟩
      have hsrc : held p H (.node i q.leaf) =
          some (frame (pteToPa (entry p.mem (H.root i) q))) := by
        rw [held_leaf, decodePte_userLeaf hl]
      rw [hm, h.grows.mem_other ho (fun path _ => by simp [hij.symm]) hsrc]
  · rw [h'.rest q fun hS hl => hq (Or.inr hS) (by rwa [hent] at hl),
      h.rest q fun hR => hq (Or.inl hR)]

end Copied

/-- The frames to copy a region are there, and so is nothing `vmm_copy_uvm` refuses. -/
structure Budget (H : Forest ι) (i j : ι) (R : List (Fin 512) → Prop) (p : Phys) : Prop where
  frames : (tableSet p H j ∪ tablesIn p H i R).card + (userPages p H i R).card ≤
    freeFrames p + (tableSet p H j).card
  good : ∀ q, R q.leaf → hasFlag (entry p.mem (H.root i) q) pteV →
    isLeaf (entry p.mem (H.root i) q)

namespace Budget

variable {R S : List (Fin 512) → Prop}

theorem mono (h : Budget H i j R p) (hS : ∀ path, S path → R path) : Budget H i j S p := by
  refine ⟨?_, fun q hq => h.good q (hS _ hq)⟩
  have h1 : (tableSet p H j ∪ tablesIn p H i S).card ≤ (tableSet p H j ∪ tablesIn p H i R).card :=
    Finset.card_le_card (Finset.union_subset_union_right fun path hp => by
      rw [mem_tablesIn] at hp ⊢
      exact ⟨hp.1, hS _ hp.2⟩)
  have h2 : (userPages p H i S).card ≤ (userPages p H i R).card :=
    Finset.card_le_card fun q hq => by
      rw [mem_userPages] at hq ⊢
      exact ⟨hS _ hq.1, hq.2⟩
  have := h.frames
  omega

theorem after (hij : j ≠ i) (ho : Owned lo H p) (hc : Copied lo H i j R p p')
    (h : Budget H i j (fun path => R path ∨ S path) p) (hd : ∀ path, R path → ¬ S path) :
    Budget H i j S p' := by
  classical
  obtain ⟨htab, hent, hheld⟩ := hc.source hij ho
  refine ⟨?_, fun q hq => by rw [hent]; exact h.good q (Or.inr hq)⟩
  have hU : (userPages p H i (fun path => R path ∨ S path)).card =
      (userPages p H i R).card + (userPages p' H i S).card := by
    rw [← Finset.card_union_of_disjoint]
    · congr 1
      ext q
      rw [Finset.mem_union, mem_userPages, mem_userPages, mem_userPages, hent]
      tauto
    · rw [Finset.disjoint_left]
      intro q hq hq'
      rw [mem_userPages] at hq hq'
      exact hd _ hq.1 hq'.1
  have hfree := h.frames
  rw [hU, ← Nat.add_assoc] at hfree
  refine hc.grows.room (fun path hp => ?_) (fun path hp => ?_) hfree
  · rw [mem_tablesIn] at hp ⊢
    exact ⟨hp.1, Or.inl hp.2⟩
  · rw [mem_tablesIn] at hp ⊢
    rw [htab] at hp
    exact ⟨hp.1, Or.inr hp.2⟩

end Budget

section Regions

variable {path P : List (Fin 512)} {k k' : Fin 512}

theorem suffix_key (h : k :: P <:+ path) (h' : k' :: P <:+ path) : k = k' := by
  have := (List.suffix_of_suffix_length_le h h' (by simp)).eq_of_length (by simp)
  simpa using this

theorem suffix_cons_iff : P <:+ path ↔ path = P ∨ ∃ k, k :: P <:+ path := by
  constructor
  · rintro ⟨front, rfl⟩
    rcases List.eq_nil_or_concat front with rfl | ⟨front, x, rfl⟩
    · exact Or.inl rfl
    · exact Or.inr ⟨x, front, by simp⟩
  · rintro (rfl | ⟨k, front, rfl⟩)
    · exact List.suffix_rfl
    · exact ⟨front ++ [k], by simp⟩

theorem suffix_low {q : PageNo} (hl : P.length < 3) (h : P <:+ q.leaf) : P <:+ q.low := by
  obtain ⟨front, hf⟩ := h
  match front with
  | [] => simp only [List.nil_append] at hf; rw [hf] at hl; simp [PageNo.leaf] at hl
  | x :: front =>
    simp only [PageNo.leaf, List.cons_append, List.cons.injEq] at hf
    exact ⟨front, hf.2⟩

theorem held_suffix_none (h : held p H (.node i P) = none) (hs : P <:+ path) :
    held p H (.node i path) = none := by
  obtain ⟨front, rfl⟩ := hs
  exact holds_prefix_none h front

theorem entry_of_held {f : ℕ} {q : PageNo} (h : held p H (.node i q.low) = some f) :
    entry p.mem (H.root i) q = (p.mem f).word q.2.2 := by
  rw [held_node] at h
  rw [entry, h]
  rfl

theorem entry_of_none {q : PageNo} (h : held p H (.node i q.low) = none) :
    entry p.mem (H.root i) q = 0 := by
  rw [held_node] at h
  rw [entry, h]
  rfl

end Regions

section Entry

variable [DecidableEq ι] {P : List (Fin 512)} {f g : ℕ} {k : Fin 512}

theorem suffix_leaf {q q' : PageNo} (h : q.leaf <:+ q'.leaf) : q' = q := by
  have := h.eq_of_length (by simp [PageNo.leaf])
  obtain ⟨a, b, c⟩ := q
  obtain ⟨a', b', c'⟩ := q'
  simp only [PageNo.leaf, List.cons.injEq, and_true] at this
  rw [this.1, this.2.1, this.2.2]

omit [DecidableEq ι] in
theorem suffix_leaf_table {q : PageNo} {path : List (Fin 512)} (h : q.leaf <:+ path) :
    path ∉ tableSet p H i := by
  intro ht
  have hlen := h.length_le
  rw [mem_tableSet] at ht
  simp only [PageNo.leaf, List.length_cons, List.length_nil] at hlen
  omega

theorem copied_page (ho : Owned lo H p) {q : PageNo} {n : ℕ}
    (hg : held p H (.node j q.low) = some g)
    (hl : UserLeaf (entry p.mem (H.root i) q)) (ha : pmmAllocPage p = (some n, p')) :
    Copied lo H i j (q.leaf <:+ ·) p
      ((p'.setPage n (p.mem (frame (pteToPa (entry p.mem (H.root i) q))))).setPte g q.2.2
        (copiedWord n (entry p.mem (H.root i) q))) := by
  obtain ⟨hp, hu, hlo, hun, hfree⟩ := placed_alloc (i := j) ho ha
    (p.mem (frame (pteToPa (entry p.mem (H.root i) q))))
  set content := p.mem (frame (pteToPa (entry p.mem (H.root i) q)))
  set w := entry p.mem (H.root i) q with hw
  have hlt : n < 2 ^ 44 := by have := hu.1.2; simp only [ramLast] at this; omega
  have hd : decodePte 2 (copiedWord n w) = some n := by
    rw [decodePte_userLeaf (userLeaf_copiedWord.mpr hl), frame_copiedWord hlt]
  have hg' : held (p'.setPage n content) H (.node j q.low) = some g :=
    hp.grows.kept _ _ (by simp [PageNo.low]) hg
  have hset := grows_setLeaf hp.owned hg' (leafWord_copiedWord hlt hl q) fun m hm => by
    rw [hd, Option.some.injEq] at hm
    subst m
    exact ⟨hu, hlo, fun r _ => hun r⟩
  have hT : tablesIn p H i (q.leaf <:+ ·) = ∅ := Finset.eq_empty_of_forall_notMem fun path hp => by
    rw [mem_tablesIn] at hp
    exact suffix_leaf_table hp.2 hp.1
  have hU : userPages p H i (q.leaf <:+ ·) = {q} := by
    ext q'
    rw [mem_userPages, Finset.mem_singleton]
    constructor
    · rintro ⟨hs, -⟩
      exact suffix_leaf hs
    · rintro rfl
      exact ⟨List.suffix_rfl, hl⟩
  have hentry : ∀ q',
    entry ((p'.setPage n content).setPte g q.2.2 (copiedWord n w)).mem (H.root j) q' =
      if q' = q then copiedWord n w else entry p.mem (H.root j) q' := by
    intro q'
    rw [hp.owned.entry_setLeaf hg' j q', hp.entries]
    simp
  refine ⟨?_, fun q' hq _ => ?_, fun q' hq _ => ?_, fun q' hq => ?_⟩
  · rw [hT, hU, Finset.card_singleton]
    have := hp.grows.trans hset
    simpa using this
  · rw [suffix_leaf hq]
    exact hl.2.1
  · rw [suffix_leaf hq]
    refine ⟨n, hfree, ?_, ?_, ?_⟩
    · rw [held_leaf, hentry, if_pos rfl, hd]
    · rw [hentry, if_pos rfl]
    · have hne : n ≠ g := by
        rintro rfl
        exact hfree (ho.inUse _ _ hg).1
      rw [mem_setPte_of_ne _ hne, mem_setPage_self]
  · rw [hentry, if_neg]
    rintro rfl
    exact hq List.suffix_rfl hl

theorem copyEntry_page (ho : Owned lo H p) {q : PageNo}
    (hf : held p H (.node i q.low) = some f) (hg : held p H (.node j q.low) = some g)
    (next : ℕ → ℕ → Phys → Except Stop Phys) :
    Meets (copyEntry next 0 f g p q.2.2) (Budget H i j (q.leaf <:+ ·) p)
      (Copied lo H i j (q.leaf <:+ ·) p) := by
  have hw := entry_of_held hf
  unfold copyEntry
  show Meets (if !hasFlag ((p.mem f).word q.2.2) pteV then _ else _) _ _
  have hpte : p.pte f q.2.2 = (p.mem f).word q.2.2 := rfl
  rw [hpte, ← hw]
  by_cases hv : hasFlag (entry p.mem (H.root i) q) pteV = true
  · rw [if_neg (by simp [hv])]
    by_cases hleaf : isLeaf (entry p.mem (H.root i) q) = true
    · rw [if_pos hleaf]
      by_cases hu : hasFlag (entry p.mem (H.root i) q) pteU = true
      · rw [if_neg (by simp [hu])]
        have hl : UserLeaf (entry p.mem (H.root i) q) := ⟨hv, hleaf, hu⟩
        rcases ha : pmmAllocPage p with ⟨_ | n, p1⟩
        · refine meets_error fun hb => ?_
          have hnone := pmmAllocPage_none.mp (show (pmmAllocPage p).1 = none by rw [ha])
          have hpos : 0 < (userPages p H i (q.leaf <:+ ·)).card :=
            Finset.card_pos.mpr ⟨q, mem_userPages.mpr ⟨List.suffix_rfl, hl⟩⟩
          have hle : (tableSet p H j).card ≤
              (tableSet p H j ∪ tablesIn p H i (q.leaf <:+ ·)).card :=
            Finset.card_le_card Finset.subset_union_left
          have := hb.frames
          omega
        · have hmem : p1.mem = p.mem := (pmmAllocPage_some ha).2.2.1
          refine meets_ok ?_
          rw [hmem]
          exact copied_page ho hg hl ha
      · rw [if_pos (by simp [hu])]
        refine meets_ok
          (Copied.nothing ho (fun _ => suffix_leaf_table) (fun q' hq _ => ?_) fun q' hq hl => ?_)
        · rw [suffix_leaf hq]; exact hleaf
        · rw [suffix_leaf hq] at hl; exact hu hl.2.2
    · rw [if_neg hleaf, if_pos rfl]
      exact meets_error fun hb => hleaf (hb.good q List.suffix_rfl hv)
  · rw [if_pos (by simp [hv])]
    refine meets_ok
      (Copied.nothing ho (fun _ => suffix_leaf_table) (fun q' hq hv' => ?_) fun q' hq hl => ?_)
    · rw [suffix_leaf hq] at hv'; exact absurd hv' hv
    · rw [suffix_leaf hq] at hl; exact hv hl.1

omit [DecidableEq ι] in
theorem copied_missing (ho : Owned lo H p) (hP : P.length < 3)
    (hnone : held p H (.node i P) = none) : Copied lo H i j (P <:+ ·) p p := by
  have hzero : ∀ q : PageNo, P <:+ q.leaf → entry p.mem (H.root i) q = 0 := fun q hq =>
    entry_of_none (held_suffix_none hnone (suffix_low hP hq))
  refine Copied.nothing ho (fun path hs ht => ?_) (fun q hq hv => ?_) fun q hq hl => ?_
  · exact (mem_tableSet.mp ht).2 (held_suffix_none hnone hs)
  · rw [hzero q hq] at hv; simp at hv
  · rw [hzero q hq] at hl; simp [UserLeaf] at hl

omit [DecidableEq ι] in
theorem copied_table (hP : P.length < 2) (ht : k :: P ∈ tableSet p H i)
    (hg : Grows lo H j {k :: P} 0 p p')
    (he : ∀ j q, entry p'.mem (H.root j) q = entry p.mem (H.root j) q) :
    Copied lo H i j (· = k :: P) p p' := by
  have hnoleaf : ∀ q : PageNo, q.leaf ≠ k :: P := by
    intro q hq
    have := congrArg List.length hq
    simp only [PageNo.leaf, List.length_cons, List.length_nil] at this
    omega
  have hT : tablesIn p H i (· = k :: P) = {k :: P} := by
    ext path
    rw [mem_tablesIn, Finset.mem_singleton]
    constructor
    · exact And.right
    · rintro rfl
      exact ⟨ht, rfl⟩
  have hU : userPages p H i (· = k :: P) = ∅ := Finset.eq_empty_of_forall_notMem fun q hq =>
    hnoleaf q (mem_userPages.mp hq).1
  refine ⟨?_, fun q hq => absurd hq (hnoleaf q), fun q hq => absurd hq (hnoleaf q),
    fun q _ => he j q⟩
  rw [hT, hU]
  exact hg

omit [DecidableEq ι] in
theorem copyEntry_table {level n : ℕ} (hP : P.length < 2)
    (ho : Owned lo H p) (hg : held p H (.node j P) = some g)
    (hw : (p.mem f).word k = pointer n) (hn : n < 2 ^ 44) (next : ℕ → ℕ → Phys → Except Stop Phys) :
    copyEntry next (level + 1) f g p k =
      match nextTable p g k with
      | (none, _) => .error (.panic "PANIC: vmm_copy_uvm out of memory!\n")
      | (some t, p) => next n t p := by
  have hpte : p.pte f k = pointer n := hw
  have hnl : ∀ w : Word, (w = 0 ∨ IsPointer w) → isLeaf w = false := by
    rintro w (rfl | ⟨m, -, rfl⟩)
    · decide
    · exact pointer_not_leaf m
  have hchild := hnl _ (ho.pointers j P g hP hg k)
  unfold copyEntry nextTable
  dsimp only
  rw [hpte, if_neg (by simp), if_neg (by simp), if_neg (by omega), frame_pointer hn]
  show (if hasFlag (p.pte g k) pteV then if isLeaf ((p.mem g).word k) then _ else _ else _) = _
  rw [hchild]
  by_cases hv : hasFlag (p.pte g k) pteV = true
  · simp [hv]
  · rw [if_neg hv, if_neg hv]
    rcases pmmAllocPage p with ⟨_ | new, q⟩ <;> rfl

/-- The part of the tree that a call at a level goes through. -/
def Walked (level : ℕ) (P : List (Fin 512)) (done : List (Fin 512))
    (path : List (Fin 512)) : Prop :=
  ∃ k ∈ done, (level = 2 → k.val < 2) ∧ k :: P <:+ path

theorem walked_snoc {level : ℕ} {done path : List (Fin 512)} :
    Walked level P (done ++ [k]) path ↔
      Walked level P done path ∨ (level = 2 → k.val < 2) ∧ k :: P <:+ path := by
  simp only [Walked, List.mem_append, List.mem_singleton]
  constructor
  · rintro ⟨x, hx | rfl, hs⟩
    · exact Or.inl ⟨x, hx, hs⟩
    · exact Or.inr hs
  · rintro (⟨x, hx, hs⟩ | hs)
    · exact ⟨x, Or.inl hx, hs⟩
    · exact ⟨k, Or.inr rfl, hs⟩

theorem walked_all {level : ℕ} {path : List (Fin 512)} (hl : level < 2) :
    Walked level P (List.finRange 512) path ↔ ∃ k, k :: P <:+ path := by
  simp only [Walked, List.mem_finRange, true_and]
  constructor
  · rintro ⟨k, -, hs⟩; exact ⟨k, hs⟩
  · rintro ⟨k, hs⟩; exact ⟨k, by omega, hs⟩

omit [DecidableEq ι] in
theorem copyLoop (hij : j ≠ i) {level : ℕ} (ho : Owned lo H p)
    (hf : held p H (.node i P) = some f) (hg : held p H (.node j P) = some g) (hP : P.length < 3)
    (body : Phys → Fin 512 → Except Stop Phys)
    (hskip : ∀ t k, ¬ (level = 2 → k.val < 2) → body t k = .ok t)
    (hbody : ∀ t k, (level = 2 → k.val < 2) → Owned lo H t → held t H (.node i P) = some f →
      held t H (.node j P) = some g →
      Meets (body t k) (Budget H i j (k :: P <:+ ·) t) (Copied lo H i j (k :: P <:+ ·) t)) :
    Meets ((List.finRange 512).foldlM body p) (Budget H i j (Walked level P (List.finRange 512)) p)
      (Copied lo H i j (Walked level P (List.finRange 512)) p) := by
  refine meets_foldlM (I := fun done t => Copied lo H i j (Walked level P done) p t) ?_ ?_
  · refine Copied.nothing ho ?_ ?_ ?_ <;> rintro _ ⟨k, hk, -⟩ <;> exact absurd hk List.not_mem_nil
  · intro done k rest hl t ht
    have hnew : k ∉ done := by
      have hnd := List.nodup_finRange 512
      rw [hl] at hnd
      have := (List.nodup_append.mp hnd).2.2
      exact fun hk => this k hk k List.mem_cons_self rfl
    have hd : ∀ path, Walked level P done path → ¬ (k :: P <:+ path) := by
      rintro path ⟨k', hk', -, hs'⟩ hs
      rw [suffix_key hs hs'] at hnew
      exact hnew hk'
    by_cases hk : level = 2 → k.val < 2
    · have htf := (ht.source hij ho).2.2 P
      have htg := ht.grows.kept P g (by omega) hg
      refine (hbody t k hk ht.grows.owned (htf.trans hf) htg).mono (fun hb => ?_) fun t' ht' => ?_
      · refine Budget.after hij ho ht (hb.mono fun path hp => ?_) hd
        have hw : Walked level P (done ++ [k]) path := by
          rw [walked_snoc]
          exact hp.imp_right fun hs => ⟨hk, hs⟩
        obtain ⟨x, -, hx⟩ := hw
        exact ⟨x, List.mem_finRange x, hx⟩
      · refine (ht.trans hij ho ht' hd).congr fun path => ?_
        rw [walked_snoc, and_iff_right hk]
    · rw [hskip t k hk]
      refine meets_ok (ht.congr fun path => ?_)
      rw [walked_snoc, or_iff_left (fun h => hk h.1)]

/-- `vmm_copy_uvm` copies the tables and user pages it walks, and fails only for want of
frames or at an entry that is no leaf at the lowest level. -/
theorem vmmCopyUvm_meets (hij : j ≠ i) (level : ℕ) (hl : level + P.length = 2)
    (ho : Owned lo H p) (hf : held p H (.node i P) = some f) (hg : held p H (.node j P) = some g) :
    Meets (vmmCopyUvm level f g p) (Budget H i j (Walked level P (List.finRange 512)) p)
      (Copied lo H i j (Walked level P (List.finRange 512)) p) := by
  induction level generalizing P f g p with
  | zero =>
    refine copyLoop hij ho hf hg (by omega) _ (fun t k hk => absurd (by omega) hk)
      fun t k _ hot hft hgt => ?_
    obtain ⟨b, a, rfl⟩ := List.length_eq_two.mp (show P.length = 2 by omega)
    exact copyEntry_page hot (q := (a, b, k)) hft hgt _
  | succ level ih =>
    refine copyLoop hij ho hf hg (by omega) _ (fun t k hk => ?_) fun t k hk hot hft hgt => ?_
    · rw [if_pos (by omega)]
    rw [if_neg (by omega)]
    rcases hot.pointers i P f (by omega) hft k with hz | ⟨n, hn, hw⟩
    · -- nothing below this entry
      have hnone : held t H (.node i (k :: P)) = none := by
        rw [held_cons, hft, Option.bind_some, hz]
        exact decodePte_zero _
      have hinv : copyEntry (vmmCopyUvm level) (level + 1) f g t k = .ok t := by
        have hpte : t.pte f k = 0 := hz
        unfold copyEntry
        dsimp only
        rw [hpte, if_pos (by decide)]
      rw [hinv]
      exact meets_ok (copied_missing hot (by rw [List.length_cons]; omega) hnone)
    · have hP : P.length < 2 := by omega
      have htab : k :: P ∈ tableSet t H i := by
        rw [mem_tableSet_cons hP, held_cons, hft, Option.bind_some, hw, decodePte_pointer hP hn]
        simp
      rw [copyEntry_table hP hot hgt hw hn]
      have hsplit : ∀ path, (path = k :: P ∨ Walked level (k :: P) (List.finRange 512) path) ↔
          k :: P <:+ path := by
        intro path
        rw [walked_all (by omega), suffix_cons_iff (P := k :: P)]
      have hd : ∀ path, path = k :: P → ¬ Walked level (k :: P) (List.finRange 512) path := by
        rintro path rfl ⟨x, -, -, hs⟩
        have := hs.length_le
        simp at this
      rcases hnt : nextTable t g k with ⟨_ | c, t1⟩
      · refine meets_error fun hb => ?_
        obtain ⟨hnot, hfree⟩ := (nextTable_none (k := k) hgt hP).mp (by rw [hnt])
        have hin : k :: P ∈ tablesIn t H i (k :: P <:+ ·) :=
          mem_tablesIn.mpr ⟨htab, List.suffix_rfl⟩
        have hlt : (tableSet t H j).card < (tableSet t H j ∪ tablesIn t H i (k :: P <:+ ·)).card :=
          Finset.card_lt_card ⟨Finset.subset_union_left,
            fun hs => hnot (hs (Finset.mem_union_right _ hin))⟩
        have := hb.frames
        omega
      · obtain ⟨hgrow, hc, he, -⟩ := nextTable_some hot hgt hP hnt
        have hct := copied_table (i := i) hP htab hgrow he
        have hn1 : held t1 H (.node i (k :: P)) = some n := by
          rw [(hct.source hij hot).2.2, held_cons, hft, Option.bind_some, hw,
            decodePte_pointer hP hn]
        refine (ih (by rw [List.length_cons]; omega) hgrow.owned hn1 hc).mono (fun hb => ?_)
          fun t' ht' => ?_
        · exact Budget.after hij hot hct (hb.mono fun path hp => (hsplit path).mp hp) hd
        · exact (hct.trans hij hot ht' hd).congr hsplit

end Entry

end Lazux

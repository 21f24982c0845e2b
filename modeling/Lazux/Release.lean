import Lazux.KernelMap

/-! # Giving page tables back

`vmm_free_pt` frees exactly the frames of the tree it is given. -/
namespace Lazux

open PagedMemory RadixForest Run

variable {ι : Type*} {H : Forest ι} {p p0 : Phys} {lo : ℕ} {i : ι}

theorem mem_freeEntry {below : Addr → Phys → Phys} (hb : ∀ pa q, (below pa q).mem = q.mem)
    (pt : ℕ) (k : Fin 512) : (freeEntry below pt p k).mem = p.mem := by
  unfold freeEntry
  dsimp only
  split_ifs
  · exact mem_pmmFreePage _ _
  · rfl
  · exact hb _ _
  · rfl

theorem mem_freePageTable (level pt : ℕ) (p : Phys) : (freePageTable level pt p).mem = p.mem := by
  induction level generalizing pt p with
  | zero =>
    exact foldl_rule (I := fun _ (t : Phys) => t.mem = p.mem) rfl fun _ _ _ _ t ht =>
      (mem_freeEntry (fun _ _ => rfl) pt _).trans ht
  | succ level ih =>
    refine foldl_rule (I := fun _ (t : Phys) => t.mem = p.mem) rfl fun _ _ _ _ t ht =>
      (mem_freeEntry (fun pa q => ?_) pt _).trans ht
    rw [mem_pmmFreePage]
    exact ih _ _

theorem freeEntry_eq (below : Addr → Phys → Phys) (hm : p0.mem = p.mem) (f : ℕ) (k : Fin 512) :
    freeEntry below f p0 k =
      if hasFlag ((p.mem f).word k) pteV then
        if isLeaf ((p.mem f).word k) then
          if hasFlag ((p.mem f).word k) pteU then pmmFreePage p0 (pteToPa ((p.mem f).word k))
          else p0
        else below (pteToPa ((p.mem f).word k)) p0
      else p0 := by
  simp only [freeEntry, Phys.pte, hm]

section Frames

variable (h : Owned lo H p) {path : List (Fin 512)} {f : ℕ}

include h

theorem Owned.inUse_free {r : Role ι (Fin 512)} (hf : held p H r = some f) {pa : Addr}
    (hpa : pa.toNat = f * 4096) (g : ℕ) : InUse (pmmFreePage p0 pa) g ↔ InUse p0 g ∧ f ≠ g := by
  rw [inUse_pmmFreePage p0 (h.inRam hf) hpa, and_comm, ne_comm]

theorem Owned.inUse_freeEntry_leaf (hp : path.length = 2) (ht : held p H (.node i path) = some f)
    (hm : p0.mem = p.mem) (k : Fin 512) (g : ℕ) :
    InUse (freeEntry (fun _ q => q) f p0 k) g ↔
      InUse p0 g ∧ ∀ path', held p H (.node i (path' ++ k :: path)) ≠ some g := by
  have hk : held p H (.node i (k :: path)) = decodePte 2 ((p.mem f).word k) := by
    rw [held_cons, ht, Option.bind_some, hp]
  have hdeep : ∀ path', path' ≠ [] → held p H (.node i (path' ++ k :: path)) = none := by
    intro path' hne
    match path' with
    | x :: rest =>
      rw [List.cons_append, held_cons]
      exact Option.bind_eq_none_iff.mpr fun n _ => decodePte_deep (by simp; omega) _
  have hall : (∀ path', held p H (.node i (path' ++ k :: path)) ≠ some g) ↔
      decodePte 2 ((p.mem f).word k) ≠ some g := by
    rw [← hk]
    constructor
    · exact fun hn => hn []
    · intro hn path'
      by_cases he : path' = []
      · subst he; exact hn
      · rw [hdeep path' he]; simp
  rw [hall, freeEntry_eq _ hm]
  by_cases hv : hasFlag ((p.mem f).word k) pteV = true ∧ isLeaf ((p.mem f).word k) = true ∧
      hasFlag ((p.mem f).word k) pteU = true
  · obtain ⟨hv, hl, hu⟩ := hv
    have hd : decodePte 2 ((p.mem f).word k) = some (frame (pteToPa ((p.mem f).word k))) := by
      rw [decodePte, if_neg (by norm_num), if_pos ⟨rfl, hv, hu, hl⟩]
    rw [if_pos hv, if_pos hl, if_pos hu, hd, h.inUse_free (hk.trans hd)]
    · simp
    · rw [pteToPa_toNat, frame_pteToPa]
  · have hd : decodePte 2 ((p.mem f).word k) = none := by
      rw [decodePte, if_neg (by norm_num), if_neg]
      rintro ⟨-, h1, h2, h3⟩
      exact hv ⟨h1, h3, h2⟩
    rw [hd]
    split_ifs with h1 h2 h3
    · exact absurd ⟨h1, h2, h3⟩ hv
    all_goals simp

theorem Owned.inUse_freePageTable (level : ℕ) (hl : level + path.length = 2)
    (ht : held p H (.node i path) = some f) (hm : p0.mem = p.mem) (g : ℕ) :
    InUse (freePageTable level f p0) g ↔
      InUse p0 g ∧ ∀ k path', held p H (.node i (path' ++ k :: path)) ≠ some g := by
  induction level generalizing path f p0 g with
  | zero =>
    have hI := foldl_rule (f := freeEntry (fun _ q => q) f) (l := List.finRange 512) (s := p0)
      (I := fun done (t : Phys) => t.mem = p.mem ∧ ∀ g, InUse t g ↔ InUse p0 g ∧
        ∀ k ∈ done, ∀ path', held p H (.node i (path' ++ k :: path)) ≠ some g)
      ⟨hm, by simp⟩ ?_
    · rw [freePageTable, hI.2 g]
      simp only [List.mem_finRange, true_implies]
    · rintro done k rest - t ⟨htm, htu⟩
      refine ⟨(mem_freeEntry (fun _ _ => rfl) f k).trans htm, fun g => ?_⟩
      rw [h.inUse_freeEntry_leaf (by omega) ht htm, htu, and_assoc]
      simp only [List.mem_append, List.mem_singleton, or_imp, forall_and, forall_eq]
  | succ level ih =>
    have hI := foldl_rule
      (f := freeEntry (fun pa q => pmmFreePage (freePageTable level (frame pa) q) pa) f)
      (l := List.finRange 512) (s := p0)
      (I := fun done (t : Phys) => t.mem = p.mem ∧ ∀ g, InUse t g ↔ InUse p0 g ∧
        ∀ k ∈ done, ∀ path', held p H (.node i (path' ++ k :: path)) ≠ some g)
      ⟨hm, by simp⟩ ?_
    · rw [freePageTable, hI.2 g]
      simp only [List.mem_finRange, true_implies]
    · rintro done k rest - t ⟨htm, htu⟩
      have hbelow : ∀ (pa : Addr) (q : Phys),
          (pmmFreePage (freePageTable level (frame pa) q) pa).mem = q.mem := fun pa q => by
        rw [mem_pmmFreePage, mem_freePageTable]
      refine ⟨(mem_freeEntry hbelow f k).trans htm, fun g => ?_⟩
      simp only [List.mem_append, List.mem_singleton, or_imp, forall_and, forall_eq]
      rw [← and_assoc, ← htu]
      have hk : held p H (.node i (k :: path)) = decodePte path.length ((p.mem f).word k) := by
        rw [held_cons, ht, Option.bind_some]
      rw [freeEntry_eq _ htm]
      rcases h.pointers i path f (by omega) ht k with hz | ⟨n, hn, hw⟩
      · -- nothing below
        have hnone : held p H (.node i (k :: path)) = none := by
          rw [hk, hz]
          exact decodePte_zero _
        rw [hz, if_neg (by decide)]
        refine (and_iff_left fun path' => ?_).symm
        have := holds_prefix_none hnone path'
        show held p H _ ≠ _
        rw [held, this]
        simp
      · have hsome : held p H (.node i (k :: path)) = some n := by
          rw [hk, hw, decodePte_pointer (by omega) hn]
        have hpa : (pageAddr n).toNat = n * 4096 := pageAddr_toNat (by omega)
        rw [hw, if_pos (pointer_valid n), if_neg (by simp), pteToPa_pointer hn,
          h.inUse_free hsome hpa, frame_pageAddr (by omega),
          ih (by rw [List.length_cons]; omega) hsome htm, and_assoc]
        refine and_congr_right fun _ => ?_
        constructor
        · rintro ⟨hall, hne⟩ path'
          rcases List.eq_nil_or_concat path' with rfl | ⟨front, x, rfl⟩
          · rw [List.nil_append, hsome]
            simpa using hne
          · rw [List.concat_eq_append, List.append_assoc]
            exact hall x front
        · intro hall
          refine ⟨fun x path' => ?_, ?_⟩
          · have := hall (path' ++ [x])
            rwa [List.append_assoc] at this
          · have := hall []
            rw [List.nil_append, hsome] at this
            simpa using this

theorem Owned.inUse_vmmFreePt {root : ℕ} (hr : H.root i = some root) (hm : p0.mem = p.mem) (g : ℕ) :
    InUse (vmmFreePt root p0) g ↔ InUse p0 g ∧ ∀ path, held p H (.node i path) ≠ some g := by
  have ht : held p H (.node i []) = some root := hr
  have hlt : root < 2 ^ 44 := by have := (h.inRam ht).2; simp only [ramLast] at this; omega
  rw [vmmFreePt, h.inUse_free ht (pageAddr_toNat (by omega)), h.inUse_freePageTable 2 rfl ht hm,
    and_assoc]
  refine and_congr_right fun _ => ?_
  constructor
  · rintro ⟨hall, hne⟩ path
    rcases List.eq_nil_or_concat path with rfl | ⟨front, x, rfl⟩
    · rw [ht]; simpa using hne
    · rw [List.concat_eq_append]
      exact hall x front
  · intro hall
    exact ⟨fun k path' => hall (path' ++ [k]), fun he => hall [] (by rw [ht, he])⟩

theorem Owned.freeTree [DecidableEq ι] {root : ℕ} (hr : H.root i = some root) :
    Owned lo (withRoot H i none) (vmmFreePt root p) := by
  have hmem : (vmmFreePt root p).mem = p.mem := by
    rw [vmmFreePt, mem_pmmFreePage, mem_freePageTable]
  refine (h.dropRoot i).of_tables (fun f _ => by rw [hmem]) (fun r f hf => ?_) fun f hram hf => ?_
  · have hold : held p H r = some f ∧ ∀ path, r ≠ .node i path := by
      cases r with
      | extra j => exact ⟨hf, by simp⟩
      | node j path =>
        by_cases hj : j = i
        · subst j
          rw [held_node, withRoot_self, tableAt_none] at hf
          cases hf
        · rw [held_node, withRoot_of_ne hj] at hf
          exact ⟨hf, by simp [hj]⟩
    exact (h.inUse_vmmFreePt hr rfl f).mpr
      ⟨(h.inUse r f hold.1).1, fun path hpath => hold.2 path (h.distinct _ _ f hold.1 hpath)⟩
  · refine (h.inUse_vmmFreePt hr rfl f).mpr ⟨h.guard f hram hf, fun path hpath => ?_⟩
    have := (h.inUse _ f hpath).2
    omega

theorem Owned.freeExtra [DecidableEq ι] {n : ℕ} (he : H.extra i = some n) {pa : Addr}
    (hpa : pa.toNat = n * 4096) : Owned lo (withExtra H i none) (pmmFreePage p pa) := by
  have hn : held p H (.extra i) = some n := he
  refine (h.dropExtra i).free (h.inRam hn) (fun r hr => ?_) (h.inUse _ n hn).2 hpa
  have hold : held p H r = some n ∧ r ≠ .extra i := by
    cases r with
    | extra j =>
      by_cases hj : j = i
      · subst j; simp at hr
      · exact ⟨by rwa [held_extra, withExtra_of_ne hj] at hr, by simp [hj]⟩
    | node j path => exact ⟨hr, by simp⟩
  exact hold.2 (h.distinct _ _ n hold.1 hn)

end Frames

end Lazux

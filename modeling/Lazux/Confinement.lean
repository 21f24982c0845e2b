import Lazux.Copy
import Lazux.Image

/-! # What a change of one tree touches

An operation on one address space leaves all others alone, and with them every frame that
is in use and not its own. That it loses no frame either is a separate matter. -/
namespace Lazux

open PagedMemory RadixForest

variable {ι : Type*} {H H' H'' : Forest ι} {p p' p'' : Phys} {lo : ℕ} {i j : ι}

/-- Only tree `i` changes, and it takes only frames that were free. -/
structure Confined (i : ι) (H : Forest ι) (p : Phys) (H' : Forest ι) (p' : Phys) : Prop where
  others : ∀ r, r.owner ≠ i → held p' H' r = held p H r
  spared : ∀ f, InUse p f → Apart p H i f →
    InUse p' f ∧ p'.mem f = p.mem f ∧ Apart p' H' i f

/-- Every frame in use that is not of tree `i` was in use before, and not of it. -/
def Tight (i : ι) (H : Forest ι) (p : Phys) (H' : Forest ι) (p' : Phys) : Prop :=
  ∀ f, InUse p' f → Apart p' H' i f → InUse p f ∧ Apart p H i f

namespace Confined

theorem refl (i : ι) (H : Forest ι) (p : Phys) : Confined i H p H p :=
  ⟨fun _ _ => rfl, fun _ hu ha => ⟨hu, rfl, ha⟩⟩

theorem trans (h : Confined i H p H' p') (h' : Confined i H' p' H'' p'') :
    Confined i H p H'' p'' := by
  constructor
  · intro r hr
    exact (h'.others r hr).trans (h.others r hr)
  · intro f hu ha
    obtain ⟨hu', hm', ha'⟩ := h.spared f hu ha
    obtain ⟨hu'', hm'', ha''⟩ := h'.spared f hu' ha'
    exact ⟨hu'', hm''.trans hm', ha''⟩

theorem mem_other (h : Confined i H p H' p') (ho : Owned lo H p) {r : Role ι (Fin 512)} {f : ℕ}
    (hr : r.owner ≠ i) (hf : held p H r = some f) : p'.mem f = p.mem f := by
  have hapart : Apart p H i f := by
    intro s hs hf'
    have he := ho.distinct r s f hf hf'
    subst he
    exact hr hs
  exact (h.spared f (ho.inUse r f hf).1 hapart).2.1

theorem entry_other (h : Confined i H p H' p') (ho : Owned lo H p) (hj : j ≠ i) (q : PageNo) :
    entry p'.mem (H'.root j) q = entry p.mem (H.root j) q := by
  have hlow := h.others (.node j q.low) hj
  cases hf : held p H (.node j q.low) with
  | none => rw [entry_of_none hf, entry_of_none (hlow.trans hf)]
  | some f =>
      rw [entry_of_held hf, entry_of_held (hlow.trans hf),
        h.mem_other (r := .node j q.low) ho hj hf]

theorem unheld (h : Confined i H p H' p') {f : ℕ} (hu : InUse p f) (hn : Unheld p H f) :
    InUse p' f ∧ p'.mem f = p.mem f ∧ Unheld p' H' f := by
  obtain ⟨hu', hm, ha⟩ := h.spared f hu fun r _ => hn r
  refine ⟨hu', hm, fun r => ?_⟩
  by_cases hr : r.owner = i
  · exact ha r hr
  · rw [h.others r hr]
    exact hn r

end Confined

theorem Tight.refl (i : ι) (H : Forest ι) (p : Phys) : Tight i H p H p := fun _ hu ha => ⟨hu, ha⟩

theorem Tight.trans (h : Tight i H p H' p') (h' : Tight i H' p' H'' p'') : Tight i H p H'' p'' := by
  intro f hu ha
  obtain ⟨hu', ha'⟩ := h' f hu ha
  exact h f hu' ha'

section Growth

variable {T : Finset (List (Fin 512))} {n : ℕ} {e : PageNo → Option Word}

/-- A tree that grows takes free frames for its tables; so it must for its pages. -/
theorem Grows.confined (h : Grows lo H i T n p p')
    (hl : ∀ q f, InUse p f → held p' H (.node i (PageNo.leaf q)) = some f → ¬ Apart p H i f) :
    Confined i H p H p' := by
  constructor
  · intro r hr
    apply h.others
    rintro path rfl
    exact hr rfl
  · intro f hu ha
    have hparts := apart_iff.mp ha
    refine ⟨h.inUse f hu, h.mem f hu hparts.2.1, apart_iff.mpr ⟨hparts.1, ?_, ?_⟩⟩
    · intro path hp hf
      rcases h.fresh path f hp hf with hold | hnew
      · exact hparts.2.1 path hp hold
      · exact hnew hu
    · intro q hf
      exact hl q f hu hf ha

theorem Placed.confined (h : Placed lo H i T n e p p')
    (he : ∀ q w f, e q = some w → decodePte 2 w = some f → ¬ InUse p f) : Confined i H p H p' := by
  apply h.grows.confined
  intro q f hu hf ha
  rw [held_leaf, h.entries] at hf
  cases hq : e q with
  | none =>
    rw [hq, Option.getD_none, ← held_leaf] at hf
    exact ha (.node i q.leaf) rfl hf
  | some w =>
    rw [hq, Option.getD_some] at hf
    exact he q w f hq hf hu

theorem Placed.confined_none (h : Placed lo H i T n (fun _ => none) p p') :
    Confined i H p H p' := by
  apply h.confined
  intro q w f hq
  cases hq

theorem Realised.confined {pl : List Placement} (h : Realised lo H i pl p p')
    (hflags : ∀ x ∈ pl, UserFlags x.flags) : Confined i H p H p' := by
  apply h.grows.confined
  intro q f hu hf ha
  rw [held_leaf] at hf
  cases hq : lastAt pl q with
  | none =>
    rw [h.absent q hq, ← held_leaf] at hf
    exact ha (.node i q.leaf) rfl hf
  | some x =>
    obtain ⟨m, hfill, he⟩ := h.present q x hq
    have hx : x ∈ pl := by
      have := List.mem_of_find?_eq_some hq
      simpa using this
    have hlt : m < 2 ^ 44 := by
      have := hfill.inUse.1.2
      simp only [ramLast] at this
      omega
    rw [he, decode_userWord (hflags x hx) hlt] at hf
    split at hf
    · cases hf
      exact hfill.fresh hu
    · cases hf

theorem Copied.confined {R : List (Fin 512) → Prop} (h : Copied lo H i j R p p') :
    Confined j H p H p' := by
  apply h.grows.confined
  intro q f hu hf ha
  by_cases hq : R q.leaf ∧ UserLeaf (entry p.mem (H.root i) q)
  · obtain ⟨m, hfree, hheld, -⟩ := h.user q hq.1 hq.2
    rw [hheld] at hf
    cases hf
    exact hfree hu
  · rw [held_leaf, h.rest q fun hR hU => hq ⟨hR, hU⟩, ← held_leaf] at hf
    exact ha (.node j q.leaf) rfl hf

theorem roles_card (ho : Owned lo H p) {G : Finset (Role ι (Fin 512))}
    (hG : ∀ r ∈ G, held p H r ≠ none) : G.card ≤ (usedFrames p).card := by
  have hheld : ∀ r ∈ G, held p H r = some ((held p H r).getD 0) := by
    intro r hr
    obtain ⟨f, hf⟩ := Option.ne_none_iff_exists'.mp (hG r hr)
    rw [hf, Option.getD_some]
  apply Finset.card_le_card_of_injOn fun r => (held p H r).getD 0
  · intro r hr
    exact (mem_usedFrames p).mpr (ho.inUse r _ (hheld r hr)).1
  · intro a ha b hb hab
    have h1 := hheld a ha
    have h2 := hheld b hb
    have hab : (held p H a).getD 0 = (held p H b).getD 0 := hab
    rw [← hab] at h2
    exact ho.distinct _ _ _ h1 h2

/-- If as many frames are taken as there are new roles, these are what they are for. -/
theorem frames_taken (ho : Owned lo H' p') (hu : ∀ f, InUse p f → InUse p' f)
    {G : Finset (Role ι (Fin 512))}
    (hG : ∀ r ∈ G, ∃ f, held p' H' r = some f ∧ ¬ InUse p f)
    (hcount : freeFrames p' + G.card = freeFrames p) {f : ℕ} (hf : InUse p' f) :
    InUse p f ∨ ∃ r ∈ G, held p' H' r = some f := by
  let frameAt : Role ι (Fin 512) → ℕ := fun r => (held p' H' r).getD 0
  have hheld : ∀ r ∈ G, held p' H' r = some (frameAt r) ∧ ¬ InUse p (frameAt r) := by
    intro r hr
    obtain ⟨f, hf, hfree⟩ := hG r hr
    have he : frameAt r = f := by simp only [frameAt, hf, Option.getD_some]
    rw [he]
    exact ⟨hf, hfree⟩
  have hinj : Set.InjOn frameAt G := by
    intro a ha b hb hab
    have h1 := (hheld a ha).1
    have h2 := (hheld b hb).1
    rw [← hab] at h2
    exact ho.distinct _ _ _ h1 h2
  have hsep : Disjoint (usedFrames p) (G.image frameAt) := by
    rw [Finset.disjoint_left]
    intro f hf hg
    obtain ⟨r, hr, rfl⟩ := Finset.mem_image.mp hg
    exact (hheld r hr).2 ((mem_usedFrames p).mp hf)
  have hall : usedFrames p ∪ G.image frameAt = usedFrames p' := by
    apply Finset.eq_of_subset_of_card_le
    · intro f hf
      rw [mem_usedFrames]
      rcases Finset.mem_union.mp hf with hf | hf
      · exact hu f ((mem_usedFrames p).mp hf)
      · obtain ⟨r, hr, rfl⟩ := Finset.mem_image.mp hf
        exact (ho.inUse _ _ (hheld r hr).1).1
    · rw [Finset.card_union_of_disjoint hsep, Finset.card_image_of_injOn hinj]
      have h1 := card_usedFrames p
      have h2 := card_usedFrames p'
      omega
  rw [← mem_usedFrames, ← hall] at hf
  rcases Finset.mem_union.mp hf with hf | hf
  · exact Or.inl ((mem_usedFrames p).mp hf)
  · obtain ⟨r, hr, rfl⟩ := Finset.mem_image.mp hf
    exact Or.inr ⟨r, hr, (hheld r hr).1⟩

theorem tight_new {H' : Forest ι} (ho : Owned lo H' p') (hu : ∀ f, InUse p f → InUse p' f)
    (hempty : ∀ f, Apart p H i f) {G : Finset (Role ι (Fin 512))}
    (hG : ∀ r ∈ G, r.owner = i ∧ ∃ f, held p' H' r = some f ∧ ¬ InUse p f)
    (hcount : freeFrames p' + G.card = freeFrames p) : Tight i H p H' p' := by
  intro f hf ha
  refine ⟨?_, hempty f⟩
  rcases frames_taken ho hu (fun r hr => (hG r hr).2) hcount hf with hold | ⟨r, hr, hheld⟩
  · exact hold
  · exact absurd hheld (ha r (hG r hr).1)

theorem apart_of_none (hr : H.root i = none) (he : H.extra i = none) (f : ℕ) : Apart p H i f := by
  rintro (j | ⟨j, path⟩) rfl
  · intro hf
    rw [held_extra, show H.extra j = none from he] at hf
    cases hf
  · intro hf
    rw [held_node, show H.root j = none from hr, tableAt_none] at hf
    cases hf

theorem leaf_injective : Function.Injective PageNo.leaf := by
  rintro ⟨a, b, c⟩ ⟨a', b', c'⟩ he
  simp only [PageNo.leaf, List.cons.injEq, and_true] at he
  obtain ⟨rfl, rfl, rfl⟩ := he
  rfl

theorem Grows.tight (h : Grows lo H i T n p p') {S : Finset PageNo}
    (hS : ∀ q ∈ S, ∃ f, held p' H (.node i q.leaf) = some f ∧ ¬ InUse p f) (hcard : S.card = n)
    (hkeep : ∀ q f, held p H (.node i (PageNo.leaf q)) = some f →
      held p' H (.node i q.leaf) = some f) : Tight i H p H p' := by
  classical
  let paths : Finset (List (Fin 512)) := (tableSet p' H i \ tableSet p H i) ∪ S.image PageNo.leaf
  have hnode : Function.Injective (Role.node i : List (Fin 512) → Role ι (Fin 512)) := by
    intro a b hab
    cases hab
    rfl
  have hdisj : Disjoint (tableSet p' H i \ tableSet p H i) (S.image PageNo.leaf) := by
    rw [Finset.disjoint_left]
    intro path ht hl
    obtain ⟨hlen, -⟩ := mem_tableSet.mp (Finset.mem_sdiff.mp ht).1
    obtain ⟨q, -, rfl⟩ := Finset.mem_image.mp hl
    simp [PageNo.leaf] at hlen
  have hsub : tableSet p H i ⊆ tableSet p' H i := by
    rw [h.tables]
    exact Finset.subset_union_left
  have hgained : ∀ r ∈ paths.image (Role.node i), ∃ f, held p' H r = some f ∧ ¬ InUse p f := by
    intro r hr
    obtain ⟨path, hp, rfl⟩ := Finset.mem_image.mp hr
    rcases Finset.mem_union.mp hp with ht | hl
    · obtain ⟨ht', hold⟩ := Finset.mem_sdiff.mp ht
      obtain ⟨hlen, hne⟩ := mem_tableSet.mp ht'
      obtain ⟨f, hf⟩ := Option.ne_none_iff_exists'.mp hne
      refine ⟨f, hf, ?_⟩
      rcases h.fresh path f (by omega) hf with hf' | hfree
      · exact absurd (mem_tableSet.mpr ⟨hlen, by rw [hf']; simp⟩) hold
      · exact hfree
    · obtain ⟨q, hq, rfl⟩ := Finset.mem_image.mp hl
      exact hS q hq
  have hcount : freeFrames p' + (paths.image (Role.node i)).card = freeFrames p := by
    rw [Finset.card_image_of_injective _ hnode, Finset.card_union_of_disjoint hdisj,
      Finset.card_image_of_injective _ leaf_injective, hcard]
    have h1 := h.count
    have h2 := Finset.card_sdiff_add_card_eq_card hsub
    omega
  intro f hu ha
  have hold : InUse p f := by
    rcases frames_taken h.owned h.inUse hgained hcount hu with hold | ⟨r, hr, hf⟩
    · exact hold
    · obtain ⟨path, -, rfl⟩ := Finset.mem_image.mp hr
      exact absurd hf (ha (.node i path) rfl)
  refine ⟨hold, apart_iff.mpr ⟨ha (.extra i) rfl, fun path hp hf => ?_, fun q hf => ?_⟩⟩
  · exact ha (.node i path) rfl (h.kept path f hp hf)
  · exact ha (.node i q.leaf) rfl (hkeep q f hf)

theorem Placed.tight_none (h : Placed lo H i T 0 (fun _ => none) p p') : Tight i H p H p' := by
  apply h.grows.tight (S := ∅)
  · intro q hq
    exact absurd hq (Finset.notMem_empty q)
  · exact Finset.card_empty
  · intro q f hf
    rw [held_leaf, h.entries, Option.getD_none, ← held_leaf]
    exact hf

theorem Copied.tight {R : List (Fin 512) → Prop} (h : Copied lo H i j R p p')
    (hnone : ∀ q : PageNo, held p H (.node j q.leaf) = none) : Tight j H p H p' := by
  apply h.grows.tight (S := userPages p H i R)
  · intro q hq
    obtain ⟨hR, hU⟩ := mem_userPages.mp hq
    obtain ⟨m, hfree, hheld, -⟩ := h.user q hR hU
    exact ⟨m, hheld, hfree⟩
  · rfl
  · intro q f hf
    rw [hnone q] at hf
    cases hf

/-- Pages that are placed once each, where no page was, and that can be accessed somehow. -/
theorem Realised.tight (h : Realised lo H i pl p p') (hflags : ∀ x ∈ pl, UserFlags x.flags)
    (haccess : ∀ x ∈ pl, isLeaf x.flags) (honce : (pl.map (·.page)).Nodup)
    (hclear : ∀ x ∈ pl, held p H (.node i x.page.leaf) = none) : Tight i H p H p' := by
  classical
  apply h.grows.tight (S := (pl.map (·.page)).toFinset)
  · intro q hq
    obtain ⟨x, hx, rfl⟩ := List.mem_map.mp (List.mem_toFinset.mp hq)
    cases hl : lastAt pl x.page with
    | none => exact absurd rfl (lastAt_none.mp hl x hx)
    | some y =>
      obtain ⟨m, hfill, he⟩ := h.present x.page y hl
      have hy : y ∈ pl := by
        have := List.mem_of_find?_eq_some hl
        simpa using this
      have hlt : m < 2 ^ 44 := by
        have := hfill.inUse.1.2
        simp only [ramLast] at this
        omega
      refine ⟨m, ?_, hfill.fresh⟩
      rw [held_leaf, he, decode_userWord (hflags y hy) hlt, if_pos (isLeaf_userWord (haccess y hy))]
  · rw [List.toFinset_card_of_nodup honce, List.length_map]
  · intro q f hf
    have hq : lastAt pl q = none := by
      apply lastAt_none.mpr
      rintro x hx rfl
      rw [hclear x hx] at hf
      cases hf
    rw [held_leaf, h.absent q hq, ← held_leaf]
    exact hf

theorem Placed.tight_page {q : PageNo} {m : ℕ} {flags : Word}
    (h : Placed lo H i T 1 (fun q' => if q' = q then some (userWord m flags) else none) p p')
    (hflags : UserFlags flags) (haccess : isLeaf flags) (hm : m < 2 ^ 44) (hfree : ¬ InUse p m)
    (hclear : held p H (.node i q.leaf) = none) : Tight i H p H p' := by
  apply h.grows.tight (S := {q})
  · intro q' hq
    rw [Finset.mem_singleton] at hq
    subst hq
    refine ⟨m, ?_, hfree⟩
    rw [held_leaf, h.entries, if_pos rfl, Option.getD_some, decode_userWord hflags hm,
      if_pos (isLeaf_userWord haccess)]
  · exact Finset.card_singleton q
  · intro q' f hf
    have hne : q' ≠ q := by
      rintro rfl
      rw [hclear] at hf
      cases hf
    rw [held_leaf, h.entries, if_neg hne, Option.getD_none, ← held_leaf]
    exact hf

end Growth

end Lazux

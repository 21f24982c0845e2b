import Lazux.Confinement
import Lazux.UserAccess

/-! # The heap (`SYS_SBRK`)

Pages are mapped one by one; when one cannot be had, those mapped so far are unmapped. -/
namespace Lazux

open PagedMemory RadixForest Run

variable {ι : Type*} {H : Forest ι} {p p' p'' : Phys} {lo : ℕ} {i : ι} {root : ℕ}

/-- The body of the loop of `vmm_unmap_range`. -/
def unmapPage (root : ℕ) (p : Phys) (a : Addr) : Phys :=
  match vmmLookup p.mem root a with
  | none => p
  | some (table, i) =>
    let pte := p.pte table i
    if hasFlag pte pteV then (pmmFreePage p (pteToPa pte)).setPte table i 0 else p

theorem vmmUnmapRange_eq (p : Phys) (root : ℕ) (start stop : Addr) :
    vmmUnmapRange p root start stop = (pageSteps start stop).foldl (unmapPage root) p := rfl

/-- Entries of tree `i` change at most for the pages of `l`. -/
structure Remapped (lo : ℕ) (H : Forest ι) (i : ι) (l : List Addr) (p p' : Phys) : Prop where
  owned : Owned lo H p'
  outside : ∀ q, (∀ a ∈ l, q ≠ pageNo a) → entry p'.mem (H.root i) q = entry p.mem (H.root i) q
  confined : Confined i H p H p'

section Unmap

variable [DecidableEq ι]

/-- The pages of `l` are freed and forgotten; no table comes or goes. -/
structure Unmapped (lo : ℕ) (H : Forest ι) (i : ι) (l : List Addr) (p p' : Phys) : Prop where
  remapped : Remapped lo H i l p p'
  gone : ∀ a ∈ l, entry p'.mem (H.root i) (pageNo a) = 0
  tight : Tight i H p H p'
  tables : ∀ path, path.length ≤ 2 → held p' H (.node i path) = held p H (.node i path)
  mem : ∀ f, (∀ path, path.length ≤ 2 → held p H (.node i path) ≠ some f) → p'.mem f = p.mem f

/-- The frame `n` of the page of `a` is freed and its entry in the table `t` cleared. -/
structure LeafFreed (lo : ℕ) (H : Forest ι) (i : ι) (a : Addr) (t n : ℕ) (p p' : Phys) : Prop where
  owned : Owned lo H p'
  table : held p H (.node i (pageNo a).low) = some t
  leaf : held p H (.node i (pageNo a).leaf) = some n
  held : ∀ r, Lazux.held p' H r = if r = .node i (pageNo a).leaf then none else Lazux.held p H r
  entry : ∀ q, Lazux.entry p'.mem (H.root i) q =
    if q = pageNo a then 0 else Lazux.entry p.mem (H.root i) q
  inUse : ∀ f, InUse p' f ↔ f ≠ n ∧ InUse p f
  mem : ∀ f, f ≠ t → p'.mem f = p.mem f

omit [DecidableEq ι] in
theorem unmapPage_eq (hr : H.root i = some root) {a : Addr} {t : ℕ}
    (ht : held p H (.node i (pageNo a).low) = some t)
    (hv : hasFlag (entry p.mem (H.root i) (pageNo a)) pteV) : unmapPage root p a =
      pmmFreePage (p.setPte t (vpn a 0) 0) (pteToPa (entry p.mem (H.root i) (pageNo a))) := by
  have hlook : vmmLookup p.mem root a = some (t, vpn a 0) := by
    have ht' : tableAt p.mem (some root) (pageNo a).low = some t := by
      rw [← hr]
      exact ht
    rw [vmmLookup_eq, ht']
    rfl
  have hpte : p.pte t (vpn a 0) = entry p.mem (H.root i) (pageNo a) := (entry_of_held ht).symm
  unfold unmapPage
  rw [hlook]
  simp only [hpte]
  rw [if_pos hv]
  unfold pmmFreePage
  split_ifs <;> rfl

theorem unmapPage_freed (ho : Owned lo H p) (hr : H.root i = some root) {a : Addr}
    (hl : UserLeaf (entry p.mem (H.root i) (pageNo a))) :
    ∃ t n, LeafFreed lo H i a t n p (unmapPage root p a) := by
  obtain ⟨t, ht⟩ : ∃ t, held p H (.node i (pageNo a).low) = some t := by
    cases h : held p H (.node i (pageNo a).low) with
    | none => rw [entry_of_none h] at hl; simp [UserLeaf] at hl
    | some t => exact ⟨t, rfl⟩
  rw [unmapPage_eq hr ht hl.1]
  have hclear := ho.setLeaf ht (w := 0) (leafWord_zero _) fun n hn => by
    have : decodePte 2 (0 : Word) = none := decodePte_zero 2
    rw [this] at hn
    cases hn
  have hleaf : held p H (.node i (pageNo a).leaf) =
      some (frame (pteToPa (entry p.mem (H.root i) (pageNo a)))) := by
    rw [held_leaf, decodePte_userLeaf hl]
  generalize hn : frame (pteToPa (entry p.mem (H.root i) (pageNo a))) = n at hleaf
  have hpa : (pteToPa (entry p.mem (H.root i) (pageNo a))).toNat = n * 4096 := by
    rw [← hn, pteToPa_toNat, frame_pteToPa]
  generalize pteToPa (entry p.mem (H.root i) (pageNo a)) = pa at hpa
  have hheld : ∀ r, held (p.setPte t (vpn a 0) 0) H r =
      if r = .node i (pageNo a).leaf then none else held p H r := by
    intro r
    have h0 := congrFun (ho.held_setLeaf ht (w := 0)) r
    have hz : decodePte 2 (0 : Word) = none := decodePte_zero 2
    rw [hz, Function.update_apply] at h0
    exact h0
  refine ⟨t, n, ?_, ht, hleaf, fun r => ?_, fun q => ?_,
    fun f => inUse_pmmFreePage _ (ho.inRam hleaf) hpa f, fun f hf => ?_⟩
  · refine hclear.free (ho.inRam hleaf) (fun r hr' => ?_) (ho.inUse _ _ hleaf).2 hpa
    have h1 := hheld r
    rw [show held (p.setPte t (vpn a 0) 0) H r = some n from hr'] at h1
    split at h1
    · cases h1
    · rename_i hne
      exact hne (ho.distinct _ _ _ h1.symm hleaf)
  · rw [held, mem_pmmFreePage]
    exact hheld r
  · have h0 := ho.entry_setLeaf ht (w := 0) i q
    simp only [true_and] at h0
    rw [mem_pmmFreePage]
    exact h0
  · rw [mem_pmmFreePage]
    exact mem_setPte_of_ne _ hf _ _

theorem LeafFreed.unmapped {a : Addr} {t n : ℕ} (h : LeafFreed lo H i a t n p p') :
    Unmapped lo H i [a] p p' := by
  refine ⟨⟨h.owned, ?_, ?_, ?_⟩, ?_, ?_, ?_, ?_⟩
  · intro q hq
    rw [h.entry, if_neg (hq a List.mem_cons_self)]
  · intro r hr'
    rw [h.held, if_neg]
    rintro rfl
    exact hr' rfl
  · intro f hu ha
    have hfn : f ≠ n := by
      rintro rfl
      exact ha _ rfl h.leaf
    have hft : f ≠ t := by
      rintro rfl
      exact ha _ rfl h.table
    refine ⟨(h.inUse f).mpr ⟨hfn, hu⟩, h.mem f hft, ?_⟩
    intro r hr' hf
    rw [h.held] at hf
    split at hf
    · cases hf
    · exact ha r hr' hf
  · intro b hb
    rw [List.mem_singleton] at hb
    rw [hb, h.entry, if_pos rfl]
  · intro f hu ha
    obtain ⟨hne, hu'⟩ := (h.inUse f).mp hu
    refine ⟨hu', fun r hr' hf => ?_⟩
    have h0 := ha r hr'
    rw [h.held] at h0
    by_cases hleaf : r = .node i (pageNo a).leaf
    · subst hleaf
      rw [h.leaf] at hf
      exact hne (Option.some.inj hf).symm
    · rw [if_neg hleaf] at h0
      exact h0 hf
  · intro path hpath
    have hne : (Role.node i path : Role ι (Fin 512)) ≠ .node i (pageNo a).leaf := by
      intro he
      cases he
      simp [PageNo.leaf] at hpath
    rw [h.held, if_neg hne]
  · intro f hf
    apply h.mem
    rintro rfl
    exact hf _ (by simp [PageNo.low]) h.table

theorem unmapPage_user (ho : Owned lo H p) (hr : H.root i = some root) {a : Addr}
    (hl : UserLeaf (entry p.mem (H.root i) (pageNo a))) :
    Unmapped lo H i [a] p (unmapPage root p a) := by
  obtain ⟨t, n, h⟩ := unmapPage_freed ho hr hl
  exact h.unmapped

theorem unmap_all (ho : Owned lo H p) (hr : H.root i = some root) (l : List Addr)
    (hnd : (l.map pageNo).Nodup) (hl : ∀ a ∈ l, UserLeaf (entry p.mem (H.root i) (pageNo a))) :
    Unmapped lo H i l p (l.foldl (unmapPage root) p) := by
  induction l generalizing p with
  | nil =>
    have hsame : Remapped lo H i [] p p := ⟨ho, fun _ _ => rfl, Confined.refl i H p⟩
    exact ⟨hsame, fun a ha => absurd ha (List.not_mem_nil), Tight.refl i H p, fun _ _ => rfl,
      fun _ _ => rfl⟩
  | cons a rest ih =>
    rw [List.map_cons, List.nodup_cons] at hnd
    have hstep := unmapPage_user ho hr (hl a List.mem_cons_self)
    have hrest := ih hstep.remapped.owned hnd.2 fun b hb => by
      rw [hstep.remapped.outside]
      · exact hl b (List.mem_cons_of_mem _ hb)
      · intro c hc he
        rw [List.mem_singleton] at hc
        subst hc
        exact hnd.1 (he ▸ List.mem_map_of_mem hb)
    refine ⟨⟨hrest.remapped.owned, fun q hq => ?_,
      hstep.remapped.confined.trans hrest.remapped.confined⟩, fun b hb => ?_,
      hstep.tight.trans hrest.tight,
      fun path hp => (hrest.tables path hp).trans (hstep.tables path hp), fun f hf => ?_⟩
    · rw [List.foldl_cons, hrest.remapped.outside q fun b hb => hq b (List.mem_cons_of_mem _ hb),
        hstep.remapped.outside q fun b hb => ?_]
      rw [List.mem_singleton] at hb
      exact hq b (hb ▸ List.mem_cons_self)
    · rcases List.mem_cons.mp hb with rfl | hb
      · rw [List.foldl_cons, hrest.remapped.outside]
        · exact hstep.gone b (List.mem_singleton_self b)
        · intro c hc he
          exact hnd.1 (he ▸ List.mem_map_of_mem hc)
      · exact hrest.gone b hb
    · rw [List.foldl_cons, hrest.mem, hstep.mem f hf]
      intro path hp
      rw [hstep.tables path hp]
      exact hf path hp

end Unmap

section Grow

variable [DecidableEq ι]

theorem userFlags_heap : UserFlags (pteU ||| pteR ||| pteW) := ⟨by decide, by decide⟩

def heapPage (a : Addr) : Placement := ⟨pageNo a, Page.zero, pteU ||| pteR ||| pteW⟩

theorem userLeaf_heap (n : ℕ) : UserLeaf (userWord n (pteU ||| pteR ||| pteW)) := by
  refine ⟨userWord_valid _ _, ?_, userWord_user userFlags_heap⟩
  rw [isLeaf, hasFlag_pteR, getLsbD_userWord (by norm_num)]
  have : (pteU ||| pteR ||| pteW ||| pteV).getLsbD 1 = true := by decide
  rw [this]
  rfl

omit [DecidableEq ι] in
theorem Realised.heap_leaf {done : List Addr} {p0 : Phys}
    (h : Realised lo H i (done.map heapPage) p0 p) {a : Addr} (ha : a ∈ done) :
    UserLeaf (entry p.mem (H.root i) (pageNo a)) := by
  cases hq : lastAt (done.map heapPage) (pageNo a) with
  | none => exact absurd rfl (lastAt_none.mp hq (heapPage a) (List.mem_map_of_mem ha))
  | some x =>
    obtain ⟨n, -, he⟩ := h.present _ x hq
    obtain ⟨b, -, rfl⟩ := List.mem_map.mp (lastAt_some hq).1
    rw [he]
    exact userLeaf_heap n

omit [DecidableEq ι] in
theorem Realised.heap_outside {done : List Addr} {p0 : Phys}
    (h : Realised lo H i (done.map heapPage) p0 p) {q : PageNo} (hq : ∀ a ∈ done, q ≠ pageNo a) :
    entry p.mem (H.root i) q = entry p0.mem (H.root i) q := by
  apply h.absent
  rw [lastAt_none]
  intro x hx he
  obtain ⟨a, ha, rfl⟩ := List.mem_map.mp hx
  exact hq a ha he.symm

theorem userFlags_heapPages {done : List Addr} : ∀ x ∈ done.map heapPage, UserFlags x.flags := by
  intro x hx
  obtain ⟨a, -, rfl⟩ := List.mem_map.mp hx
  exact userFlags_heap

/-- When `SYS_SBRK` runs out of frames at page `a`, the pages before it are taken back. Tables
made for them stay; frames are lost only if there had been other pages in the same place. -/
structure RolledBack (lo : ℕ) (H : Forest ι) (i : ι) (done : List Addr) (a : Addr)
    (p p' : Phys) : Prop where
  remapped : Remapped lo H i done p p'
  gone : ∀ b ∈ done, entry p'.mem (H.root i) (pageNo b) = 0
  mem : ∀ f, InUse p f → (∀ path, path.length ≤ 2 → held p H (.node i path) ≠ some f) →
    p'.mem f = p.mem f
  kept : ∀ path f, path.length ≤ 2 → held p H (.node i path) = some f →
    held p' H (.node i path) = some f
  tight : (∀ b ∈ done, held p H (.node i (pageNo b).leaf) = none) → Tight i H p H p'
  fits : Fits H i (done.map heapPage) p
  stuck : ¬ Fits H i ((done ++ [a]).map heapPage) p

/-- What the loop of `SYS_SBRK` leaves: all pages, or none of them. -/
def SbrkResult (lo : ℕ) (H : Forest ι) (i : ι) (steps : List Addr) (p : Phys) :
    Bool × Phys → Prop
  | (true, p') => Realised lo H i (steps.map heapPage) p p'
  | (false, p') => ∃ done a rest, steps = done ++ a :: rest ∧ RolledBack lo H i done a p p'

theorem RolledBack.intro {done : List Addr} {a : Addr} {p0 : Phys} {T : Finset (List (Fin 512))}
    (hr : H.root i = some root) (hnd : (done.map pageNo).Nodup)
    (h : Realised lo H i (done.map heapPage) p0 p) (hT : Placed lo H i T 0 (fun _ => none) p p')
    (hstuck : ¬ Fits H i ((done ++ [a]).map heapPage) p0) :
    RolledBack lo H i done a p0 (done.foldl (unmapPage root) p') := by
  have hgrows := h.grows.trans hT.grows
  have hun := unmap_all hT.owned hr done hnd fun b hb => by
    rw [hT.entries, Option.getD_none]
    exact h.heap_leaf hb
  refine ⟨⟨hun.remapped.owned, ?_, ?_⟩, hun.gone, fun f hu hf => ?_, fun path f hp hf => ?_,
    fun hclear => ?_, h.fits, hstuck⟩
  · intro q hq
    rw [hun.remapped.outside q hq, hT.entries, Option.getD_none, h.heap_outside hq]
  · exact ((h.confined userFlags_heapPages).trans hT.confined_none).trans hun.remapped.confined
  · rw [hun.mem f, hgrows.mem f hu hf]
    intro path hp hpath
    rcases hgrows.fresh path f hp hpath with hold | hnew
    · exact hf path hp hold
    · exact hnew hu
  · rw [hun.tables path hp]
    exact hgrows.kept path f hp hf
  · have honce : ((done.map heapPage).map (·.page)).Nodup := by
      rw [List.map_map]
      exact hnd
    have haccess : ∀ x ∈ done.map heapPage, isLeaf x.flags := by
      intro x hx
      obtain ⟨b, -, rfl⟩ := List.mem_map.mp hx
      exact (by decide : isLeaf (pteU ||| pteR ||| pteW))
    have htight := h.tight userFlags_heapPages haccess honce fun x hx => by
      obtain ⟨b, hb, rfl⟩ := List.mem_map.mp hx
      exact hclear b hb
    exact (htight.trans hT.tight_none).trans hun.tight

/-- The pages mapped by `SYS_SBRK`, and the roll-back: `done` lists the pages that are in
place, which are those between `start` and the next one. -/
theorem sbrkPages_result (hr : H.root i = some root) {start stop : Addr} {p0 : Phys}
    (rest done : List Addr) (hsteps : pageSteps start stop = done ++ rest)
    (hnd : ((pageSteps start stop).map pageNo).Nodup)
    (hfirst : ∀ done' a rest', pageSteps start stop = done' ++ a :: rest' →
      pageSteps start a = done')
    (h : Realised lo H i (done.map heapPage) p0 p) :
    SbrkResult lo H i (pageSteps start stop) p0 (sbrkPages root start rest p) := by
  induction rest generalizing done p with
  | nil =>
    rw [hsteps, List.append_nil]
    exact h
  | cons a rest ih =>
    have ho := h.grows.owned
    have hdone := hfirst done a rest hsteps
    have hndone : (done.map pageNo).Nodup := by
      rw [hsteps, List.map_append] at hnd
      exact (List.nodup_append.mp hnd).1
    have hroom : Fits H i ((done ++ [a]).map heapPage) p0 → Fits H i [heapPage a] p := by
      intro hfit
      rw [List.map_append] at hfit
      exact h.room hfit
    have hpage : Fits H i [heapPage a] p → (tableSet p H i ∪ (pageNo a).tables).card + 1 ≤
        freeFrames p + (tableSet p H i).card := by
      intro hfit
      unfold Fits at hfit
      rw [List.map_cons, List.map_nil, tablesOf_singleton] at hfit
      exact hfit
    unfold sbrkPages
    rcases ha : pmmAllocPage p with ⟨_ | n, p1⟩
    · -- no frame left
      rw [pmmAllocPage_none_eq ha]
      refine ⟨done, a, rest, hsteps, ?_⟩
      rw [vmmUnmapRange_eq, hdone]
      refine RolledBack.intro hr hndone h (.refl ho) fun hfit => ?_
      obtain ⟨n, p1', p2', ha', -⟩ := @placeUserPage_fits _ _ _ _ _ _ root a
        (pteU ||| pteR ||| pteW) ho hr Page.zero (hpage (hroom hfit))
      rw [ha] at ha'
      cases ha'
    · dsimp only
      rcases hm : mapPage (p1.zeroPage n) root a (pageAddr n) (pteU ||| pteR ||| pteW)
        with ⟨_ | _, p2⟩
      · -- no table for it
        obtain ⟨T, hT⟩ := placeUserPage_false ho hr ha Page.zero hm
        refine ⟨done, a, rest, hsteps, ?_⟩
        rw [vmmUnmapRange_eq, hdone]
        refine RolledBack.intro hr hndone h hT fun hfit => ?_
        obtain ⟨n', p1', p2', ha', hm'⟩ := @placeUserPage_fits _ _ _ _ _ _ root a
          (pteU ||| pteR ||| pteW) ho hr Page.zero (hpage (hroom hfit))
        rw [ha] at ha'
        cases ha'
        have hm'' : mapPage (p1.zeroPage n) root a (pageAddr n) (pteU ||| pteR ||| pteW) =
          (true, p2') := hm'
        rw [hm] at hm''
        cases hm''
      · have hone := realised_single ho hr userFlags_heap ha Page.zero hm
        refine ih (done ++ [a]) (by rw [hsteps, List.append_assoc]; rfl) ?_
        rw [List.map_append]
        exact h.append hone

omit [DecidableEq ι] in
/-- Whether or not all pages could be had, nothing else has changed. -/
theorem SbrkResult.remapped {steps : List Addr} {r : Bool × Phys}
    (h : SbrkResult lo H i steps p r) : Remapped lo H i steps p r.2 := by
  rcases r with ⟨_ | _, p'⟩
  · obtain ⟨done, a, rest, rfl, hback⟩ := h
    refine ⟨hback.remapped.owned, fun q hq => ?_, hback.remapped.confined⟩
    exact hback.remapped.outside q fun b hb => hq b (List.mem_append_left _ hb)
  · have h : Realised lo H i (steps.map heapPage) p p' := h
    exact ⟨h.grows.owned, fun q hq => h.heap_outside hq, h.confined userFlags_heapPages⟩

omit [DecidableEq ι] in
/-- The pages that were asked for are the only ones that change; each is a page of the heap
then, or none. -/
theorem SbrkResult.entry_cases {steps : List Addr} {r : Bool × Phys}
    (h : SbrkResult lo H i steps p r) (q : PageNo) :
    entry r.2.mem (H.root i) q = entry p.mem (H.root i) q ∨
      (∃ a ∈ steps, q = pageNo a) ∧ (entry r.2.mem (H.root i) q = 0 ∨
        ∃ n, entry r.2.mem (H.root i) q = userWord n (pteU ||| pteR ||| pteW)) := by
  rcases r with ⟨_ | _, p'⟩
  · obtain ⟨done, a, rest, rfl, hback⟩ := h
    by_cases hq : ∃ b ∈ done, q = pageNo b
    · obtain ⟨b, hb, rfl⟩ := hq
      exact Or.inr ⟨⟨b, List.mem_append_left _ hb, rfl⟩, Or.inl (hback.gone b hb)⟩
    · left
      apply hback.remapped.outside
      intro b hb he
      exact hq ⟨b, hb, he⟩
  · have h : Realised lo H i (steps.map heapPage) p p' := h
    cases hl : lastAt (steps.map heapPage) q with
    | none => exact Or.inl (h.absent q hl)
    | some x =>
      obtain ⟨n, -, he⟩ := h.present q x hl
      obtain ⟨hx, rfl⟩ := lastAt_some hl
      obtain ⟨a, ha, rfl⟩ := List.mem_map.mp hx
      exact Or.inr ⟨⟨a, ha, rfl⟩, Or.inr ⟨n, he⟩⟩

end Grow

theorem heapSteps (start stop : Addr) (ha : start.toNat % 4096 = 0) (hs : stop.toNat ≤ 2 ^ 30) :
    ((pageSteps start stop).map pageNo).Nodup ∧
      (∀ done a rest, pageSteps start stop = done ++ a :: rest → pageSteps start a = done) ∧
      ∀ a ∈ pageSteps start stop, (pageNo a).number < 2 ^ 18 := by
  have hstart : start.toNat = start.toNat / 4096 * 4096 := by omega
  have hsteps := @pageSteps_eq _ stop _ hstart
  generalize start.toNat / 4096 = s at hstart hsteps
  have hbound : ∀ k < (stop.toNat + 4095) / 4096 - s, s + k < 2 ^ 18 := by omega
  generalize (stop.toNat + 4095) / 4096 - s = n at hsteps hbound
  rw [hsteps]
  refine ⟨?_, fun done a rest he => ?_, fun a ha => ?_⟩
  · rw [List.map_map]
    refine List.Nodup.map_on (fun x hx y hy hxy => ?_) List.nodup_range
    have h1 := hbound x (List.mem_range.mp hx)
    have h2 := hbound y (List.mem_range.mp hy)
    have hnum := congrArg PageNo.number hxy
    simp only [Function.comp_apply] at hnum
    rw [number_pageAddr (by omega), number_pageAddr (by omega)] at hnum
    omega
  · have hlen : done.length < n := by
      have := congrArg List.length he
      simp at this
      omega
    have hdone : done = (List.range done.length).map fun k => pageAddr (s + k) := by
      have := congrArg (List.take done.length) he
      rw [List.take_left, ← List.map_take, List.take_range, Nat.min_eq_left hlen.le] at this
      exact this.symm
    have ha : a = pageAddr (s + done.length) := by
      have hget : (done ++ a :: rest)[done.length]? = some a := by simp
      rw [← he, List.getElem?_map, List.getElem?_range hlen] at hget
      exact (Option.some.inj hget).symm
    have hk := hbound _ hlen
    rw [pageSteps_eq hstart, ha, pageAddr_toNat (by omega)]
    have hcount : ((s + done.length) * 4096 + 4095) / 4096 - s = done.length := by omega
    rw [hcount]
    exact hdone.symm
  · obtain ⟨k, hk, rfl⟩ := List.mem_map.mp ha
    have := hbound k (List.mem_range.mp hk)
    rw [number_pageAddr (by omega)]
    exact this

end Lazux

import Lazux.Lib.Lockstep
import Lazux.FramePool
import Lazux.Freeing
import Lazux.Survival

/-! # Freed memory leaves no trace

Two runs of the kernel, from states that differ only in what lies in free frames. Whatever is handed
out is overwritten before anyone can look at it, so the runs take the same steps. -/
namespace Lazux

open PagedMemory RadixForest Run

/-- The same bits, and the same bytes wherever a bit is set. -/
structure AgreeInUse (p q : Phys) : Prop where
  bitmap : q.bitmap = p.bitmap
  mem : ∀ f, InUse p f → q.mem f = p.mem f

section Pages

variable {ι : Type*} {H : Forest ι} {p q p1 : Phys} {lo : ℕ} {i : ι} {t n root : ℕ} {k : Fin 512}

theorem AgreeInUse.refl (p : Phys) : AgreeInUse p p := ⟨rfl, fun _ _ => rfl⟩

theorem AgreeInUse.same_inUse (h : AgreeInUse p q) (f : ℕ) : InUse q f ↔ InUse p f := by
  rw [InUse, InUse, h.bitmap]

/-- What the trees look like from the kernel's side. -/
theorem AgreeInUse.extend (h : AgreeInUse p q) (ho : Owned lo H p) : Owned lo H q ∧
    held q H = held p H ∧ ∀ i x, entry q.mem (H.root i) x = entry p.mem (H.root i) x :=
  ho.extend (fun f hf => (h.same_inUse f).mpr hf) h.mem

theorem AgreeInUse.owned (h : AgreeInUse p q) (ho : Owned lo H p) : Owned lo H q := (h.extend ho).1

theorem AgreeInUse.same_held (h : AgreeInUse p q) (ho : Owned lo H p) (r : Role ι (Fin 512)) :
    held q H r = held p H r := congrFun (h.extend ho).2.1 r

theorem AgreeInUse.same_entry (h : AgreeInUse p q) (ho : Owned lo H p) (hr : H.root i = some root)
    (x : PageNo) : entry q.mem (some root) x = entry p.mem (some root) x := by
  rw [← hr]
  exact (h.extend ho).2.2 i x

theorem AgreeInUse.pte (h : AgreeInUse p q) (ht : InUse p t) (k : Fin 512) :
    q.pte t k = p.pte t k := by
  rw [Phys.pte, Phys.pte, h.mem t ht]

theorem AgreeInUse.setPte (h : AgreeInUse p q) (t : ℕ) (k : Fin 512) (w : Word) :
    AgreeInUse (p.setPte t k w) (q.setPte t k w) := by
  refine ⟨h.bitmap, fun f hf => ?_⟩
  by_cases hft : f = t
  · subst hft
    simp only [Phys.setPte, Memory.setWord, Function.update_self, h.mem f hf]
  · rw [mem_setPte_of_ne q hft, mem_setPte_of_ne p hft]
    exact h.mem f hf

theorem AgreeInUse.free (h : AgreeInUse p q) (pa : Addr) :
    AgreeInUse (pmmFreePage p pa) (pmmFreePage q pa) := by
  constructor
  · unfold pmmFreePage
    split_ifs
    · exact h.bitmap
    · exact h.bitmap
    · rw [h.bitmap]
  · intro f hf
    rw [mem_pmmFreePage, mem_pmmFreePage]
    exact h.mem f (inUse_of_pmmFreePage p hf)

theorem AgreeInUse.alloc (h : AgreeInUse p q) {r : Option ℕ} (ha : pmmAllocPage p = (r, p1)) :
    pmmAllocPage q = (r, { q with bitmap := p1.bitmap }) := by
  unfold pmmAllocPage at ha ⊢
  rw [h.bitmap]
  split at ha
  · cases ha
    rfl
  · cases ha
    rw [← h.bitmap]

/-- A frame that is filled is a frame the runs agree on. -/
theorem AgreeInUse.alloc_page (h : AgreeInUse p q) (ha : pmmAllocPage p = (some n, p1))
    (page : Page) :
    AgreeInUse (p1.setPage n page) (({ q with bitmap := p1.bitmap } : Phys).setPage n page) := by
  obtain ⟨-, -, hmem, -, huse⟩ := pmmAllocPage_some ha
  refine ⟨rfl, fun f hf => ?_⟩
  by_cases hfn : f = n
  · subst hfn
    rw [mem_setPage_self, mem_setPage_self]
  · rw [mem_setPage_of_ne _ hfn, mem_setPage_of_ne _ hfn, hmem]
    rcases (huse f).mp hf with hn | hold
    · exact absurd hn hfn
    · exact h.mem f hold

theorem AgreeInUse.alloc_none (h : AgreeInUse p q) (ha : pmmAllocPage p = (none, p1)) :
    AgreeInUse p1 ({ q with bitmap := p1.bitmap } : Phys) := by
  rw [pmmAllocPage_none_eq ha]
  exact ⟨rfl, h.mem⟩

/-- Two results of a step that may allocate. -/
def AgreeOn {α : Type*} (r s : α × Phys) : Prop := s.1 = r.1 ∧ AgreeInUse r.2 s.2

theorem AgreeInUse.same_table (h : AgreeInUse p q) (ht : InUse p t) (k : Fin 512) :
    AgreeOn (nextTable p t k) (nextTable q t k) := by
  unfold nextTable
  dsimp only
  rw [h.pte ht]
  by_cases hv : hasFlag (p.pte t k) pteV = true
  · rw [if_pos hv, if_pos hv]
    exact ⟨rfl, h⟩
  · rw [if_neg hv, if_neg hv]
    rcases ha : pmmAllocPage p with ⟨_ | n, p1⟩
    · rw [h.alloc ha]
      exact ⟨rfl, h.alloc_none ha⟩
    · rw [h.alloc ha]
      exact ⟨rfl, (h.alloc_page ha Page.zero).setPte _ _ _⟩

variable [DecidableEq ι]

/-- A page is mapped in the same tables in both runs. -/
theorem AgreeInUse.same_page (h : AgreeInUse p q) (ho : Owned lo H p) (hr : H.root i = some root)
    (va pa : Addr) (flags : Word) :
    AgreeOn (mapPage p root va pa flags) (mapPage q root va pa flags) := by
  have h0 : held p H (.node i []) = some root := hr
  have h1 := h.same_table (ho.inUse _ root h0).1 (vpn va 2)
  unfold mapPage
  rcases e1 : nextTable p root (vpn va 2) with ⟨_ | mid, p1⟩ <;>
    rcases e1' : nextTable q root (vpn va 2) with ⟨r, q1⟩ <;> rw [e1, e1'] at h1 <;>
    obtain ⟨rfl, hag1⟩ := h1
  · exact ⟨rfl, hag1⟩
  obtain ⟨g1, ht1, -⟩ := nextTable_some ho h0 (by simp) e1
  have h2 := hag1.same_table (g1.owned.inUse _ mid ht1).1 (vpn va 1)
  dsimp only
  rcases e2 : nextTable p1 mid (vpn va 1) with ⟨_ | low, p2⟩ <;>
    rcases e2' : nextTable q1 mid (vpn va 1) with ⟨r, q2⟩ <;> rw [e2, e2'] at h2 <;>
    obtain ⟨rfl, hag2⟩ := h2
  · exact ⟨rfl, hag2⟩
  · exact ⟨rfl, hag2.setPte _ _ _⟩

end Pages

section Kernel

variable {ι : Type*} [DecidableEq ι] {H : Forest ι} {p q : Phys} {lo : ℕ} {i j : ι} {root : ℕ}
  {L : Layout} {a b : ℕ} {start stop : Addr} {flags : Word}

/-- The runs agree, and the first keeps its trees. -/
structure AgreeOwned (lo : ℕ) (H : Forest ι) (p q : Phys) : Prop where
  owned : Owned lo H p
  agree : AgreeInUse p q

theorem KernelRange.owned_next {t u : Phys} {n : ℕ} (hk : KernelRange start stop a b flags)
    (ho : Owned lo H t) (hr : H.root i = some root) (hn : a ≤ n ∧ n < b)
    (hm : mapPage t root (pageAddr n) (pageAddr n) flags = (true, u)) : Owned lo H u := by
  have hnone : Identified lo H i flags [] t t :=
    (Placed.refl ho).of_eq rfl fun x => by simp [identityOn]
  have hsmall := hk.small
  exact (hnone.step hr hk.flags_ok (hk.kernel n hn.1 hn.2) (by omega) hm).owned

theorem KernelRange.lockstep (hk : KernelRange start stop a b flags) (h : AgreeOwned lo H p q)
    (hr : H.root i = some root) : Lockstep (AgreeOwned lo H)
      (mapIdentityRange root start stop flags p) (mapIdentityRange root start stop flags q) := by
  rw [mapIdentityRange_eq hk.start_eq hk.stop_eq, mapIdentityRange_eq hk.start_eq hk.stop_eq]
  refine lockstep_foldlM h fun n hn t t' ht => ?_
  obtain ⟨m, hm, rfl⟩ := List.mem_map.mp hn
  rw [List.mem_range] at hm
  have hmap := ht.agree.same_page ht.owned hr (pageAddr (a + m)) (pageAddr (a + m)) flags
  rcases e : mapPage t root (pageAddr (a + m)) (pageAddr (a + m)) flags with ⟨_ | _, t1⟩ <;>
    rcases e' : mapPage t' root (pageAddr (a + m)) (pageAddr (a + m)) flags with ⟨ok, t2⟩ <;>
    rw [e, e'] at hmap <;> obtain ⟨rfl, hag⟩ := hmap
  · exact .error _
  · exact .ok ⟨hk.owned_next ht.owned hr ⟨by omega, by omega⟩ e, hag⟩

theorem AgreeOwned.same_kernel (h : AgreeOwned lo H p q) (hr : H.root i = some root) :
    Lockstep (AgreeOwned lo H) (vmmMapKernel L root p) (vmmMapKernel L root q) :=
  ((kernelRange_text L).lockstep h hr).bind fun _ _ h => ((kernelRange_rodata L).lockstep h hr).bind
    fun _ _ h => ((kernelRange_data L).lockstep h hr).bind fun _ _ h =>
      ((kernelRange_free L).lockstep h hr).bind fun _ _ h => (kernelRange_uart.lockstep h hr).bind
        fun _ _ h => kernelRange_plic.lockstep h hr

omit [DecidableEq ι] in
theorem AgreeOwned.same_copyEntry {x : PageNo} {f g : ℕ} (h : AgreeOwned lo H p q)
    (hf : held p H (.node i x.low) = some f)
    (next : ℕ → ℕ → Phys → Except Stop Phys) :
    Lockstep AgreeInUse (copyEntry next 0 f g p x.2.2) (copyEntry next 0 f g q x.2.2) := by
  have hw : p.pte f x.2.2 = entry p.mem (H.root i) x := (entry_of_held hf).symm
  unfold copyEntry
  dsimp only
  rw [h.agree.pte (h.owned.inUse _ f hf).1, hw]
  refine lockstep_ite (fun _ => .ok h.agree) fun hv => ?_
  refine lockstep_ite (fun hleaf => ?_) fun _ => lockstep_ite (fun _ => .error _) fun hz =>
    absurd rfl hz
  refine lockstep_ite (fun _ => .ok h.agree) fun hu => ?_
  have huser : UserLeaf (entry p.mem (H.root i) x) := ⟨by simpa using hv, hleaf, by simpa using hu⟩
  have hheld : held p H (.node i x.leaf) = some (frame (pteToPa (entry p.mem (H.root i) x))) := by
    rw [held_leaf]
    exact decodePte_userLeaf huser
  rcases ha : pmmAllocPage p with ⟨_ | n, p1⟩
  · rw [h.agree.alloc ha]
    exact .error _
  · rw [h.agree.alloc ha]
    dsimp only
    rw [h.agree.mem _ (h.owned.inUse _ _ hheld).1, (pmmAllocPage_some ha).2.2.1]
    exact .ok ((h.agree.alloc_page ha _).setPte _ _ _)

omit [DecidableEq ι] in
theorem AgreeOwned.same_loop (hij : j ≠ i) {P : List (Fin 512)} {f g : ℕ}
    (h : AgreeOwned lo H p q) (hf : held p H (.node i P) = some f)
    (hg : held p H (.node j P) = some g) (hP : P.length ≤ 2)
    {body : Phys → Fin 512 → Except Stop Phys}
    (hbody : ∀ t t' k, AgreeOwned lo H t t' → held t H (.node i P) = some f →
      held t H (.node j P) = some g → Lockstep AgreeInUse (body t k) (body t' k) ∧
        Ensures (body t k) fun u => ∃ R, Copied lo H i j R t u) :
    Lockstep AgreeInUse
      ((List.finRange 512).foldlM body p) ((List.finRange 512).foldlM body q) := by
  have hloop : Lockstep (fun t t' => CopyGoes lo H i j P f g p t ∧ AgreeInUse t t')
      ((List.finRange 512).foldlM body p) ((List.finRange 512).foldlM body q) := by
    refine lockstep_foldlM ⟨⟨h.owned, hf, hg, fun _ => rfl⟩, h.agree⟩ fun k _ t t' ht => ?_
    obtain ⟨hlock, hens⟩ := hbody t t' k ⟨ht.1.owned, ht.2⟩ ht.1.source ht.1.target
    refine (hlock.ensures hens).mono fun u u' hu => ?_
    obtain ⟨hag, R, hcopied⟩ := hu
    exact ⟨hcopied.goes hij hP ht.1, hag⟩
  exact hloop.mono fun t t' ht => ht.2

/-- `vmm_copy_uvm` makes the same tables and pages in both runs, or stops in both. -/
theorem AgreeOwned.same_copy (hij : j ≠ i) (level : ℕ) {P : List (Fin 512)} {f g : ℕ}
    (hl : level + P.length = 2) (h : AgreeOwned lo H p q) (hf : held p H (.node i P) = some f)
    (hg : held p H (.node j P) = some g) :
    Lockstep AgreeInUse (vmmCopyUvm level f g p) (vmmCopyUvm level f g q) := by
  induction level generalizing P f g p q with
  | zero =>
    refine h.same_loop hij hf hg (by omega) fun t t' k ht hft hgt => ?_
    obtain ⟨b, a, rfl⟩ := List.length_eq_two.mp (show P.length = 2 by omega)
    refine ⟨ht.same_copyEntry (x := (a, b, k)) hft _, ?_⟩
    have hpage := copyEntry_page ht.owned (q := (a, b, k)) hft hgt fun _ _ p => .ok p
    exact hpage.ensures.mono fun u hu => ⟨_, hu⟩
  | succ level ih =>
    refine h.same_loop hij hf hg (by omega) fun t t' k ht hft hgt => ?_
    by_cases hk : level + 1 = 2 ∧ k.val ≥ 2
    · rw [if_pos hk, if_pos hk]
      refine ⟨.ok ht.agree, ensures_ok.mpr ⟨fun _ => False, Copied.nothing ht.owned ?_ ?_ ?_⟩⟩ <;>
        exact fun _ hfalse => hfalse.elim
    rw [if_neg hk, if_neg hk]
    have hfu := (ht.owned.inUse _ f hft).1
    rcases ht.owned.pointers i P f (by omega) hft k with hz | ⟨n, hn, hw⟩
    · -- nothing below this entry
      have hskip : ∀ u : Phys, (u.mem f).word k = 0 →
          copyEntry (vmmCopyUvm level) (level + 1) f g u k = .ok u := by
        intro u hu
        have hpte : u.pte f k = 0 := hu
        unfold copyEntry
        dsimp only
        rw [hpte, if_pos (by decide)]
      rw [hskip t hz, hskip t' (by rw [ht.agree.mem f hfu]; exact hz)]
      refine ⟨.ok ht.agree, ensures_ok.mpr ⟨fun _ => False, Copied.nothing ht.owned ?_ ?_ ?_⟩⟩ <;>
        exact fun _ hfalse => hfalse.elim
    · have hP : P.length < 2 := by omega
      have hw' : (t'.mem f).word k = pointer n := by rw [ht.agree.mem f hfu]; exact hw
      have hgt' : held t' H (.node j P) = some g := (ht.agree.same_held ht.owned _).trans hgt
      rw [copyEntry_table hP ht.owned hgt hw hn,
        copyEntry_table hP (ht.agree.owned ht.owned) hgt' hw' hn]
      have htable := ht.agree.same_table (ht.owned.inUse _ g hgt).1 k
      rcases e : nextTable t g k with ⟨_ | c, t1⟩ <;>
        rcases e' : nextTable t' g k with ⟨r, t2⟩ <;> rw [e, e'] at htable <;>
        obtain ⟨rfl, hag⟩ := htable
      · exact ⟨.error _, ensures_error⟩
      · obtain ⟨hgrow, hc, he, -⟩ := nextTable_some ht.owned hgt hP e
        have htab : k :: P ∈ tableSet t H i := by
          rw [mem_tableSet_cons hP, held_cons, hft, Option.bind_some, hw, decodePte_pointer hP hn]
          simp
        have hct := copied_table (i := i) hP htab hgrow he
        have hn1 : held t1 H (.node i (k :: P)) = some n := by
          rw [(hct.source hij ht.owned).2.2, held_cons, hft, Option.bind_some, hw,
            decodePte_pointer hP hn]
        have hlen : level + (k :: P).length = 2 := by
          rw [List.length_cons]
          omega
        refine ⟨ih hlen ⟨hgrow.owned, hag⟩ hn1 hc, ?_⟩
        have hbelow := (vmmCopyUvm_meets hij level hlen hgrow.owned hn1 hc).ensures
        refine hbelow.mono fun u hu => ⟨_, hct.trans hij ht.owned hu ?_⟩
        rintro path rfl ⟨y, -, -, hs⟩
        have := hs.length_le
        simp at this

end Kernel

section Heap

variable {ι : Type*} {H : Forest ι} {p q : Phys} {lo : ℕ} {i : ι} {root : ℕ}

theorem AgreeOwned.same_lookup (h : AgreeOwned lo H p q) (hr : H.root i = some root) (va : Addr) :
    vmmLookup q.mem root va = vmmLookup p.mem root va := by
  have htable := h.agree.same_held h.owned (.node i (pageNo va).low)
  rw [held_node, held_node, hr] at htable
  rw [vmmLookup_eq, vmmLookup_eq, htable]

theorem Owned.lookup_inUse (ho : Owned lo H p) (hr : H.root i = some root) {va : Addr} {t : ℕ}
    {k : Fin 512} (h : vmmLookup p.mem root va = some (t, k)) : InUse p t := by
  rw [vmmLookup_eq, Option.map_eq_some_iff] at h
  obtain ⟨f, hf, he⟩ := h
  cases he
  rw [← hr, ← held_node] at hf
  exact (ho.inUse _ _ hf).1

theorem AgreeOwned.same_unmapPage (h : AgreeOwned lo H p q) (hr : H.root i = some root) (a : Addr) :
    AgreeInUse (unmapPage root p a) (unmapPage root q a) := by
  unfold unmapPage
  rw [h.same_lookup hr]
  cases hl : vmmLookup p.mem root a with
  | none => exact h.agree
  | some x =>
    obtain ⟨t, k⟩ := x
    dsimp only
    rw [h.agree.pte (h.owned.lookup_inUse hr hl)]
    split_ifs
    · exact (h.agree.free _).setPte _ _ _
    · exact h.agree

variable [DecidableEq ι]

theorem AgreeOwned.same_unmap (h : AgreeOwned lo H p q) (hr : H.root i = some root) (l : List Addr)
    (hnd : (l.map pageNo).Nodup) (hl : ∀ a ∈ l, UserLeaf (entry p.mem (H.root i) (pageNo a))) :
    AgreeInUse (l.foldl (unmapPage root) p) (l.foldl (unmapPage root) q) := by
  induction l generalizing p q with
  | nil => exact h.agree
  | cons a rest ih =>
    rw [List.map_cons, List.nodup_cons] at hnd
    have hstep := unmapPage_user h.owned hr (hl a List.mem_cons_self)
    refine ih ⟨hstep.remapped.owned, h.same_unmapPage hr a⟩ hnd.2 fun b hb => ?_
    rw [hstep.remapped.outside]
    · exact hl b (List.mem_cons_of_mem _ hb)
    · intro c hc he
      rw [List.mem_singleton] at hc
      subst hc
      exact hnd.1 (he ▸ List.mem_map_of_mem hb)

theorem AgreeInUse.same_sbrk (hr : H.root i = some root) {start stop : Addr} {p0 : Phys}
    (rest done : List Addr) (hsteps : pageSteps start stop = done ++ rest)
    (hnd : ((pageSteps start stop).map pageNo).Nodup)
    (hfirst : ∀ done' a rest', pageSteps start stop = done' ++ a :: rest' →
      pageSteps start a = done')
    (hdone : Realised lo H i (done.map heapPage) p0 p) (h : AgreeInUse p q) :
    AgreeOn (sbrkPages root start rest p) (sbrkPages root start rest q) := by
  induction rest generalizing done p q with
  | nil => exact ⟨rfl, h⟩
  | cons a rest ih =>
    have ho := hdone.grows.owned
    have hndone : (done.map pageNo).Nodup := by
      rw [hsteps, List.map_append] at hnd
      exact (List.nodup_append.mp hnd).1
    -- the pages in place are taken back alike
    have hback : ∀ {T : Finset (List (Fin 512))} {t t' : Phys},
        Placed lo H i T 0 (fun _ => none) p t → AgreeInUse t t' →
        AgreeInUse (vmmUnmapRange t root start a) (vmmUnmapRange t' root start a) := by
      intro T t t' hT hag
      rw [vmmUnmapRange_eq, vmmUnmapRange_eq, hfirst done a rest hsteps]
      refine AgreeOwned.same_unmap ⟨hT.owned, hag⟩ hr done hndone fun b hb => ?_
      rw [hT.entries, Option.getD_none]
      exact hdone.heap_leaf hb
    unfold sbrkPages
    rcases ha : pmmAllocPage p with ⟨_ | n, p1⟩
    · rw [h.alloc ha]
      refine ⟨rfl, hback (T := ∅) ?_ (h.alloc_none ha)⟩
      rw [pmmAllocPage_none_eq ha]
      exact .refl ho
    · rw [h.alloc ha]
      dsimp only
      obtain ⟨hp, -⟩ := placed_alloc (i := i) ho ha Page.zero
      have hmap := (h.alloc_page ha Page.zero).same_page hp.owned hr a (pageAddr n)
        (pteU ||| pteR ||| pteW)
      simp only [Phys.zeroPage]
      rcases e : mapPage (p1.setPage n Page.zero) root a (pageAddr n) (pteU ||| pteR ||| pteW)
        with ⟨_ | _, p2⟩ <;>
        rcases e' : mapPage (({ q with bitmap := p1.bitmap } : Phys).setPage n Page.zero) root a
          (pageAddr n) (pteU ||| pteR ||| pteW) with ⟨ok, q2⟩ <;>
        rw [e, e'] at hmap <;> obtain ⟨rfl, hag⟩ := hmap
      · obtain ⟨T, hT⟩ := placeUserPage_false ho hr ha Page.zero e
        exact ⟨rfl, hback hT (hag.free _)⟩
      · have hone := realised_single ho hr userFlags_heap ha Page.zero e
        refine ih (done ++ [a]) (by rw [hsteps, List.append_assoc]; rfl) ?_ hag
        rw [List.map_append]
        exact hdone.append hone

end Heap

section Loads

variable {ι : Type*} {H : Forest ι} {p q : Phys} {lo : ℕ} {i : ι} {root n : ℕ} {va pa : Addr}
  {sum : Bool} {need : Word}

theorem AgreeOwned.same_translate (h : AgreeOwned lo H p q) (hr : H.root i = some root) (sum : Bool)
    (acc : Access) (va : Addr) :
    kernelTranslate q.mem root sum acc va = kernelTranslate p.mem root sum acc va := by
  ext pa
  rw [kernelTranslate_iff ((h.agree.owned h.owned).threeLevel hr),
    kernelTranslate_iff (h.owned.threeLevel hr), h.agree.same_entry h.owned hr]

theorem AgreeOwned.same_load (h : AgreeOwned lo H p q) (hr : H.root i = some root)
    (hpa : ∀ pa, kernelTranslate p.mem root sum .read va = some pa → InUse p (frame pa)) :
    kernelLoad q.mem root sum va = kernelLoad p.mem root sum va := by
  unfold kernelLoad
  rw [h.same_translate hr]
  cases ht : kernelTranslate p.mem root sum .read va with
  | none => rfl
  | some pa => simp only [Memory.byte, h.agree.mem _ (hpa pa ht)]

theorem AgreeOwned.same_pageOk (h : AgreeOwned lo H p q) (hr : H.root i = some root) (need : Word)
    (va : Addr) : userPageOk q.mem root need va = userPageOk p.mem root need va := by
  unfold userPageOk
  rw [h.same_lookup hr]
  cases hl : vmmLookup p.mem root va with
  | none => rfl
  | some x =>
    obtain ⟨t, k⟩ := x
    simp only [h.agree.mem t (h.owned.lookup_inUse hr hl)]

theorem AgreeOwned.same_rangeOk (h : AgreeOwned lo H p q) (hr : H.root i = some root)
    (va len need : Word) :
    userRangeOk q.mem root va len need = userRangeOk p.mem root va len need := by
  unfold userRangeOk
  rw [funext (h.same_pageOk hr need)]

theorem Owned.accepted_inUse (ho : Owned lo H p) (hr : H.root i = some root)
    (hok : userRangeOk p.mem root va 1 pteR = true)
    (ht : kernelTranslate p.mem root sum .read va = some pa) : InUse p (frame pa) := by
  obtain ⟨-, hleaf, -, -, rfl⟩ := (kernelTranslate_iff (ho.threeLevel hr)).mp ht
  have huser : hasFlag (entry p.mem (some root) (pageNo va)) pteU = true := by
    by_contra hnot
    have hpage := kernelPage_of_not_user ho hr (by rw [ht]; simp) hnot
    have hva : va ≠ 0 := by
      rintro rfl
      simp [userRangeOk] at hok
    have hnum := number_pageNo va
    have hlt := va.isLt
    by_cases hfit : va.toNat + 1 + 4095 < 2 ^ 64
    · have hone : (1 : Word) = BitVec.ofNat 64 1 := rfl
      rw [hone] at hok
      obtain ⟨-, hm⟩ :=
        (userRangeOk_of_fit hva (by unfold Permissions; decide) (by omega) hfit).mp hok
      have hmapped := (hm 0 (by omega)).entry.2.1
      rw [show va + BitVec.ofNat 64 0 = va from BitVec.add_zero va] at hmapped
      exact hnot hmapped
    · -- the last page is none of the kernel's
      have hlast : (pageNo va).number = 2 ^ 27 - 1 := by omega
      rw [hlast] at hpage
      exact absurd hpage (by decide)
  have hheld : held p H (.node i (pageNo va).leaf) =
      some (frame (pteToPa (entry p.mem (some root) (pageNo va)))) := by
    rw [held_leaf, hr]
    exact decodePte_userLeaf ⟨hleaf.1, hardwareLeaf_isLeaf hleaf, huser⟩
  rw [frame_leafPa]
  exact (ho.inUse _ _ hheld).1

/-- The check of a name only reads bytes it has accepted. -/
theorem userStrOk_congr {m m' : Memory} {load load' : Addr → Except Stop Byte}
    (hrange : ∀ a, userRangeOk m' root a 1 pteR = userRangeOk m root a 1 pteR)
    (hload : ∀ a, userRangeOk m root a 1 pteR = true → load' a = load a) (s : Addr) (n : ℕ) :
    userStrOk m' root load' s n = userStrOk m root load s n := by
  induction n generalizing s with
  | zero => rfl
  | succ n ih =>
    unfold userStrOk
    rw [hrange]
    by_cases hok : userRangeOk m root s 1 pteR = true
    · rw [hload s hok]
      simp only [ih]
    · rw [Bool.not_eq_true] at hok
      rw [hok, Bool.not_false, if_pos rfl, if_pos rfl]

end Loads

section Image

variable {ι : Type*} [DecidableEq ι] {K : Forest ι} {x : ι} {p q : Phys} {lo root : ℕ} {L : Layout}
  {elf : Addr → Except Stop Byte} {ph : Phdr} {st st' : KState} {i : Slot}

/-- The same result, and memory the runs agree on. -/
def AgreeLoad {α : Type*} (lo : ℕ) (K : Forest ι) (r s : α × Phys) : Prop :=
  s.1 = r.1 ∧ AgreeOwned lo K r.2 s.2

/-- A page is filled before it is mapped, or it is given back. -/
theorem AgreeOwned.same_loadPage (h : AgreeOwned lo K p q) (hr : K.root x = some root)
    (current : Word) :
    Lockstep (AgreeLoad lo K) (loadPage elf root ph p current)
      (loadPage elf root ph q current) := by
  unfold loadPage
  rcases ha : pmmAllocPage p with ⟨_ | n, p1⟩
  · rw [h.agree.alloc ha]
    exact .error _
  rw [h.agree.alloc ha]
  refine (lockstep_refl (copyIn elf (ph.pOffset + current) (copySize ph current))).bind ?_
  rintro content _ rfl
  obtain ⟨hp, -⟩ := placed_alloc (i := x) h.owned ha content
  have hmap :=
    (h.agree.alloc_page ha content).same_page hp.owned hr (ph.pVaddr + current) (pageAddr n)
    (segmentFlags ph)
  rcases e :
      mapPage (p1.setPage n content) root (ph.pVaddr + current) (pageAddr n) (segmentFlags ph)
    with ⟨_ | _, p2⟩ <;>
    rcases e' : mapPage (({ q with bitmap := p1.bitmap } : Phys).setPage n content) root
      (ph.pVaddr + current) (pageAddr n) (segmentFlags ph) with ⟨ok, q2⟩ <;>
    rw [e, e'] at hmap <;> obtain ⟨rfl, hag⟩ := hmap
  · obtain ⟨T, hT⟩ := placeUserPage_false h.owned hr ha content e
    exact .ok ⟨rfl, hT.owned, hag.free _⟩
  · have hplaced := (placeUserPage h.owned hr (segmentFlags_user ph) ha content e).1
    exact .ok ⟨rfl, hplaced.owned, hag⟩

theorem AgreeOwned.same_loadPages (h : AgreeOwned lo K p q) (hr : K.root x = some root)
    (cs : List Word) :
    Lockstep (AgreeLoad lo K) (loadPages elf root ph cs p) (loadPages elf root ph cs q) := by
  induction cs generalizing p q with
  | nil => exact .ok ⟨rfl, h⟩
  | cons c rest ih =>
    refine (h.same_loadPage hr c).bind ?_
    rintro ⟨message, p1⟩ ⟨message', q1⟩ ⟨hm, hag⟩
    obtain rfl : message' = message := hm
    cases message' with
    | some m => exact .ok ⟨rfl, hag⟩
    | none => exact ih hag

theorem AgreeOwned.same_loadSegments (h : AgreeOwned lo K p q) (hr : K.root x = some root)
    (as : List Addr) (maxEnd : Addr) :
    Lockstep (fun r s => s.1 = r.1 ∧ s.2.1 = r.2.1 ∧ AgreeOwned lo K r.2.2 s.2.2)
      (loadSegments elf root as maxEnd p) (loadSegments elf root as maxEnd q) := by
  induction as generalizing maxEnd p q with
  | nil => exact .ok ⟨rfl, rfl, h⟩
  | cons a rest ih =>
    refine (lockstep_refl (readPhdr elf a)).bind ?_
    rintro o _ rfl
    cases o with
    | none => exact ih h maxEnd
    | some ph =>
      refine (h.same_loadPages hr _).bind ?_
      rintro ⟨message, p1⟩ ⟨message', q1⟩ ⟨hm, hag⟩
      obtain rfl : message' = message := hm
      cases message' with
      | some m => exact .ok ⟨rfl, rfl, hag⟩
      | none => exact ih hag _

/-- The same state but for what lies in free frames; the first run's trees are intact. -/
def AgreeState (lo : ℕ) (K : Forest ι) (st st' : KState) : Prop :=
  ∃ q, AgreeOwned lo K st.phys q ∧ st' = { st with phys := q }

omit [DecidableEq ι] in
theorem AgreeState.puts (h : AgreeState lo K st st') (message : String) :
    AgreeState lo K (st.puts message) (st'.puts message) := by
  obtain ⟨q, hag, rfl⟩ := h
  exact ⟨q, hag, rfl⟩

theorem AgreeState.same_loadElf (h : AgreeState lo K st st') (hr : K.root x = some (st.rootOf i)) :
    Lockstep (fun r s => s.1 = r.1 ∧ AgreeState lo K r.2 s.2) (loadElf st i elf)
      (loadElf st' i elf) := by
  unfold loadElf
  refine (lockstep_refl (readLe elf 0 4)).bind ?_
  rintro magic _ rfl
  refine lockstep_ite (fun _ => .ok ⟨rfl, h.puts _⟩) fun _ => ?_
  refine (lockstep_refl (readLe elf 0x20 8)).bind ?_
  rintro phoff _ rfl
  refine (lockstep_refl (readLe elf 0x38 2)).bind ?_
  rintro phnum _ rfl
  obtain ⟨q, hag, rfl⟩ := h
  refine (hag.same_loadSegments hr _ 0).bind ?_
  rintro ⟨message, maxEnd, p1⟩ ⟨message', maxEnd', q1⟩ ⟨hm, hend, hag1⟩
  obtain rfl : message' = message := hm
  obtain rfl : maxEnd' = maxEnd := hend
  cases message' with
  | some m =>
    have hstate : AgreeState lo K { st with phys := p1 } { st with phys := q1 } := ⟨q1, hag1, rfl⟩
    exact .ok ⟨rfl, hstate.puts m⟩
  | none =>
    refine (lockstep_refl (readLe elf 0x18 8)).bind ?_
    rintro start _ rfl
    dsimp only [KState.setFrame, KState.modifyProc] at hag1 ⊢
    rcases ha : pmmAllocPage p1 with ⟨_ | n, p2⟩
    · rw [hag1.agree.alloc ha]
      refine .ok ⟨rfl, AgreeState.puts ?_ _⟩
      exact ⟨q1, hag1, rfl⟩
    rw [hag1.agree.alloc ha]
    dsimp only [Phys.zeroPage]
    obtain ⟨hp, -⟩ := placed_alloc (i := x) hag1.owned ha Page.zero
    have hroot : K.root x = some ((st.processTable i).pageTable.getD 0) := hr
    have hmap :=
      (hag1.agree.alloc_page ha Page.zero).same_page hp.owned hroot userStackBase (pageAddr n)
      (pteU ||| pteR ||| pteW)
    have hstack := stackPlaced hag1.owned hroot ha
    exact .ok ⟨rfl, _, ⟨hstack.owned, hmap.2⟩, rfl⟩

end Image

section Readers

variable {r elf : Addr → Except Stop Byte} {root : ℕ} {ph : Phdr} {p : Phys} {st : KState}
  {i : Slot}

theorem loadPages_reader (h : ∀ a, Below (r a) (elf a)) {cs : List Word} {pl : List Placement}
    (hplan : planPages r ph cs = .ok pl) (p : Phys) :
    loadPages elf root ph cs p = loadPages r root ph cs p := by
  induction cs generalizing pl p with
  | nil => rfl
  | cons c rest ih =>
    obtain ⟨content, hcontent, hplan⟩ := bind_eq_ok.mp hplan
    obtain ⟨later, hlater, -⟩ := bind_eq_ok.mp hplan
    have hpage : loadPage elf root ph p c = loadPage r root ph p c := by
      unfold loadPage
      rw [hcontent, copyIn_below h _ _ _ hcontent]
    unfold loadPages
    rw [hpage]
    simp only [ih hlater]

theorem loadSegments_reader (h : ∀ a, Below (r a) (elf a)) {as : List Addr} {maxEnd : Addr}
    {x : List Placement × Addr} (hplan : planSegments r as maxEnd = .ok x) (p : Phys) :
    loadSegments elf root as maxEnd p = loadSegments r root as maxEnd p := by
  induction as generalizing maxEnd x p with
  | nil => rfl
  | cons a rest ih =>
    obtain ⟨o, ho, hplan⟩ := bind_eq_ok.mp hplan
    unfold loadSegments
    rw [ho, readPhdr_below h _ _ ho]
    cases o with
    | none => exact ih hplan p
    | some ph =>
      obtain ⟨pages, hpages, hplan⟩ := bind_eq_ok.mp hplan
      obtain ⟨⟨later, m⟩, hlater, -⟩ := bind_eq_ok.mp hplan
      simp only [ok_bind, loadPages_reader h hpages, ih hlater]

/-- If it is an ELF, its headers and the bytes of its segments can be read. -/
def Enclosed (elf : Addr → Except Stop Byte) : Prop :=
  ∃ magic, readLe elf 0 4 = .ok magic ∧ (magic = elfNum →
    ∃ phoff phnum start pl maxEnd, Plan elf phoff phnum start pl maxEnd)

theorem Enclosed.load (he : Enclosed r) (h : ∀ a, Below (r a) (elf a)) (st : KState) (i : Slot) :
    loadElf st i elf = loadElf st i r := by
  obtain ⟨magic, hmagic, hplan⟩ := he
  unfold loadElf
  rw [hmagic, readLe_below h _ _ _ hmagic]
  by_cases hm : magic = elfNum
  · obtain ⟨phoff, phnum, start, pl, maxEnd, hp⟩ := hplan hm
    simp only [hp.phoff_eq, hp.phnum_eq, hp.start_eq, readLe_below h _ _ _ hp.phoff_eq,
      readLe_below h _ _ _ hp.phnum_eq, readLe_below h _ _ _ hp.start_eq, ok_bind,
      loadSegments_reader h hp.segments]
  · simp only [ok_bind, if_pos hm]

/-- Looking for a file and loading what is found only reads the kernel image. -/
def EnclosedDisk (L : Layout) (ram : Memory) : Prop :=
  ∀ bytesB name len s, Named bytesB name len s →
    ∃ o, ramdiskGetEntry (imageReader L ram) bytesB name len = .ok o ∧
      ∀ e, o = some e → Enclosed (fileReader L ram e)

end Readers

section Release

variable {ι : Type*} {H : Forest ι} {p q : Phys} {lo root : ℕ} {i : ι} {path : List (Fin 512)}
  {f : ℕ}

theorem AgreeInUse.perform (h : AgreeInUse p q) (log : List FreeEvent) :
    AgreeInUse (log.foldl FreeEvent.perform p) (log.foldl FreeEvent.perform q) := by
  induction log generalizing p q with
  | nil => exact h
  | cons e log ih =>
    apply ih
    cases e with
    | read t k => exact h
    | free pa => exact h.free pa

theorem AgreeOwned.same_freeLog (h : AgreeOwned lo H p q) (level : ℕ) (hl : level + path.length = 2)
    (hf : held p H (.node i path) = some f) : freeLog q.mem level f = freeLog p.mem level f := by
  have hmem := h.agree.mem f (h.owned.inUse _ f hf).1
  induction level generalizing path f with
  | zero =>
    unfold freeLog
    refine List.flatMap_congr fun k _ => ?_
    unfold entryLog
    rw [hmem]
  | succ level ih =>
    unfold freeLog
    refine List.flatMap_congr fun k _ => ?_
    unfold entryLog
    rw [hmem]
    dsimp only
    split_ifs with hv
    · rfl
    · rfl
    · have hchild : held p H (.node i (k :: path)) = some (frame (pteToPa ((p.mem f).word k))) := by
        rw [held_cons, hf, Option.bind_some, decodePte_upper (by omega), if_pos hv]
      rw [ih (by rw [List.length_cons]; omega) hchild
        (h.agree.mem _ (h.owned.inUse _ _ hchild).1)]
    · rfl

/-- `vmm_free_pt` gives back the same frames. -/
theorem AgreeOwned.same_freePt (h : AgreeOwned lo H p q) (hr : H.root i = some root) :
    AgreeInUse (vmmFreePt root p) (vmmFreePt root q) := by
  have h0 : held p H (.node i []) = some root := hr
  rw [vmmFreePt_log, vmmFreePt_log, vmmFreeLog, vmmFreeLog, h.same_freeLog 2 rfl h0]
  exact h.agree.perform _

end Release

section Calls

variable {α : Type} {L : Layout} {ram : Memory} {st st' : KState} {tf : Slot} {i : Slot}

/-- The same state but for what lies in free frames. -/
def Indistinct (st st' : KState) : Prop := ∃ q, AgreeInUse st.phys q ∧ st' = { st with phys := q }

/-- The same result, and states that cannot be told apart. -/
def SameResult (r s : α × KState) : Prop := s.1 = r.1 ∧ Indistinct r.2 s.2

theorem Indistinct.refl (st : KState) : Indistinct st st := ⟨st.phys, .refl _, rfl⟩

theorem Indistinct.puts (h : Indistinct st st') (message : String) :
    Indistinct (st.puts message) (st'.puts message) := by
  obtain ⟨q, hag, rfl⟩ := h
  exact ⟨q, hag, rfl⟩

theorem Indistinct.answer (h : Indistinct st st') (tf : Slot) (w : Word) :
    Lockstep SameResult (st.answer tf w) (st'.answer tf w) := by
  obtain ⟨q, hag, rfl⟩ := h
  exact .ok ⟨rfl, q, hag, rfl⟩

theorem AgreeState.indistinct {ι : Type*} {K : Forest ι} {lo : ℕ} (h : AgreeState lo K st st') :
    Indistinct st st' := by
  obtain ⟨q, hag, he⟩ := h
  exact ⟨q, hag.agree, he⟩

theorem Indistinct.same_allocProc (h : Indistinct st st') (hs : Sound L st) :
    Lockstep SameResult (allocProc L st) (allocProc L st') := by
  unfold allocProc
  have hfind : ((List.finRange 64).find? fun i => (st'.processTable i).state = .unused) =
      (List.finRange 64).find? fun i => (st.processTable i).state = .unused := by
    obtain ⟨q, -, rfl⟩ := h
    rfl
  rw [hfind]
  cases hf : (List.finRange 64).find? fun i => (st.processTable i).state = .unused with
  | none => exact .ok ⟨rfl, h.puts _⟩
  | some i =>
    obtain ⟨q, hag, rfl⟩ := h
    have hu : (st.processTable i).state = .unused := by simpa using List.find?_some hf
    obtain ⟨hroot, -⟩ := trees_unused hu
    dsimp only [KState.modifyProc]
    rcases ha : pmmAllocPage st.phys with ⟨_ | root, p1⟩
    · rw [hag.alloc ha]
      exact .ok ⟨rfl, _, hag.alloc_none ha, rfl⟩
    rw [hag.alloc ha]
    have howned := (freshRoot hs.owned hroot ha).1
    have hr : (withRoot (trees st) i (some root)).root i = some root := withRoot_self _ _ _
    have hzero : AgreeOwned L.protectedEnd (withRoot (trees st) i (some root)) (p1.zeroPage root)
      (({ q with bitmap := p1.bitmap } : Phys).zeroPage root) := ⟨howned, hag.alloc_page ha _⟩
    refine (hzero.same_kernel hr).bind fun p2 q2 h2 => ?_
    rcases hb : pmmAllocPage p2 with ⟨_ | stack, p3⟩
    · simp only [h2.agree.alloc hb]
      exact .ok ⟨rfl, _, h2.agree.alloc_none hb, rfl⟩
    · simp only [h2.agree.alloc hb]
      obtain ⟨hp, -⟩ := placed_alloc (i := i) h2.owned hb Page.zero
      have hmap := (h2.agree.alloc_page hb Page.zero).same_page hp.owned hr (pageAddr stack)
        (pageAddr stack) (pteR ||| pteW)
      exact .ok ⟨rfl, _, hmap.2, rfl⟩

/-- `SYS_SBRK` maps the same pages, or takes the same ones back. -/
theorem Indistinct.same_sbrkCall (h : Indistinct st st') (hs : Sound L st) (hst : Steady tf st) :
    Lockstep SameResult (sysSbrkCall tf st) (sysSbrkCall tf st') := by
  have hanswer := h.answer tf
  obtain ⟨q, hag, rfl⟩ := h
  unfold sysSbrkCall
  dsimp only
  refine lockstep_ite (fun _ => hanswer _) fun h0 => ?_
  refine lockstep_ite (fun _ => hanswer _) fun hneg => ?_
  refine lockstep_ite (fun _ => hanswer _) fun hmax => ?_
  have hgrow : Grow st (st.frameOf tf).a0 _ _ := ⟨h0, by simpa using hneg, hmax, rfl⟩
  obtain ⟨halign, hbound⟩ := hgrow.steps hs
  obtain ⟨hnd, hlist, -⟩ := heapSteps _ _ halign hbound
  have hpages := hag.same_sbrk (hs.root hst.used) (pageSteps (pageCeil st.current.heapBreak)
    (pageCeil (st.current.heapBreak + (st.frameOf tf).a0))) [] rfl hnd hlist (.nil hs.owned)
  have hsame : sbrkPages (KState.rootOf { st with phys := q } st.currentProc)
      (pageCeil (KState.current { st with phys := q }).heapBreak)
      (pageSteps (pageCeil (KState.current { st with phys := q }).heapBreak)
        (pageCeil ((KState.current { st with phys := q }).heapBreak +
          (KState.frameOf { st with phys := q } tf).a0))) q =
      sbrkPages (st.rootOf st.currentProc) (pageCeil st.current.heapBreak)
        (pageSteps (pageCeil st.current.heapBreak)
          (pageCeil (st.current.heapBreak + (st.frameOf tf).a0))) q := rfl
  rw [hsame]
  generalize pageSteps (pageCeil st.current.heapBreak)
    (pageCeil (st.current.heapBreak + (st.frameOf tf).a0)) = steps at hpages ⊢
  rcases e : sbrkPages (st.rootOf st.currentProc) (pageCeil st.current.heapBreak) steps st.phys
    with ⟨_ | _, p1⟩ <;>
    rcases e' : sbrkPages (st.rootOf st.currentProc) (pageCeil st.current.heapBreak) steps q
    with ⟨ok, q1⟩ <;>
    rw [e, e'] at hpages <;> obtain ⟨rfl, hag1⟩ := hpages
  · exact .ok ⟨rfl, q1, hag1, rfl⟩
  · exact .ok ⟨rfl, q1, hag1, rfl⟩

theorem Indistinct.same_forkCall (h : Indistinct st st') (hs : Sound L st) (hst : Steady tf st) :
    Lockstep SameResult (sysForkCall L tf st) (sysForkCall L tf st') := by
  obtain rfl := hst.frame
  have hself : ∀ s : KState, s.modifyProc s.currentProc
      (fun p => { p with trapFrame := s.frameOf s.currentProc }) = s :=
    fun s => modifyProc_eq_self rfl
  have hcur : st'.currentProc = st.currentProc := by
    obtain ⟨q, -, rfl⟩ := h
    rfl
  unfold sysForkCall
  rw [hself st, ← hcur, hself st', hcur]
  have halloc := (h.same_allocProc hs).ensures
    (Q := fun r => AllocProc L st r.1 r.2) fun r hr => allocProc_result hr
  refine halloc.bind ?_
  rintro ⟨r, mid⟩ ⟨r', mid'⟩ ⟨⟨hr, hmid⟩, ha⟩
  obtain rfl : r' = r := hr
  cases r' with
  | none => exact hmid.answer _ _
  | some child =>
    obtain ⟨q, hag, rfl⟩ := hmid
    dsimp only at ha hag
    obtain ⟨hunused, hcur', hother⟩ := ha.of_some
    have hne : child ≠ st.currentProc := by
      rintro rfl
      exact hst.used hunused
    have hsound := sound_allocProc hs ha
    have hused : (mid.processTable st.currentProc).state ≠ .unused := by
      rw [hother _ hne.symm]
      exact hst.used
    have hchild : (mid.processTable child).state ≠ .unused := by
      obtain ⟨root, stack, hsp⟩ := ha.spawned hs
      simp [hsp.process]
    have hcopy := AgreeOwned.same_copy hne 2 (P := []) rfl ⟨hsound.owned, hag⟩ (hsound.root hused)
      (hsound.root hchild)
    refine Lockstep.bind (R := AgreeInUse) ?_ fun p1 q1 h1 => .ok ⟨rfl, q1, h1, rfl⟩
    simpa [KState.setA0, KState.setFrame, KState.modifyProc, KState.rootOf, hcur', hne, hne.symm]
      using hcopy

/-- While frames are only taken, the kernel reads the RAMDISK as the boot loader left it. -/
def ReadsImage (L : Layout) (ram : Memory) (st : KState) : Prop :=
  ∀ s : KState, s.satp = st.satp → (∀ f, InUse st.phys f → InUse s.phys f) →
    (∀ f, InUse st.phys f → s.phys.mem f = st.phys.mem f) →
    ∀ a, Below (imageReader L ram a) (diskByte L s a)

theorem ReadsImage.indistinct (h : ReadsImage L ram st) (hind : Indistinct st st') (a : Addr) :
    Below (imageReader L ram a) (diskByte L st' a) := by
  obtain ⟨q, hag, rfl⟩ := hind
  exact h { st with phys := q } rfl (fun f hf => (hag.same_inUse f).mpr hf) hag.mem a

theorem Indistinct.same_name (h : Indistinct st st') (hs : Sound L st) (hst : Steady tf st)
    (name : Addr) (n : ℕ) :
    userStrOk st'.phys.mem (st'.rootOf st'.currentProc) st'.load name n =
        userStrOk st.phys.mem (st.rootOf st.currentProc) st.load name n ∧
      (userStrOk st.phys.mem (st.rootOf st.currentProc) st.load name n = .ok true →
        ∃ r s, (∀ a, Below (r a) (st.load a)) ∧ (∀ a, Below (r a) (st'.load a)) ∧
          Named r name n s) := by
  obtain ⟨q, hag, rfl⟩ := h
  have hago : AgreeOwned L.protectedEnd (trees st) st.phys q := ⟨hs.owned, hag⟩
  have hr := hst.root hs
  rw [← hst.satp]
  have hload : ∀ a, userRangeOk st.phys.mem st.satp a 1 pteR = true →
      KState.load { st with phys := q } a = st.load a := by
    intro a ha
    exact hago.same_load hr fun pa ht => hs.owned.accepted_inUse hr ha ht
  constructor
  · have hrange := fun a => hago.same_rangeOk hr a 1 pteR
    have hroot : KState.rootOf { st with phys := q } st.currentProc = st.satp := hst.satp.symm
    dsimp only
    rw [hroot]
    exact userStrOk_congr hrange hload name n
  · intro hok
    let r : Addr → Except Stop Byte := fun a =>
      if userRangeOk st.phys.mem st.satp a 1 pteR = true then st.load a else .error .spin
    have haccept : ∀ a, userRangeOk st.phys.mem st.satp a 1 pteR = true → r a = st.load a :=
      fun a ha => if_pos ha
    have hbelow : ∀ a b, r a = .ok b →
        userRangeOk st.phys.mem st.satp a 1 pteR = true ∧ st.load a = .ok b := by
      intro a b hb
      by_cases ha : userRangeOk st.phys.mem st.satp a 1 pteR = true
      · rw [haccept a ha] at hb
        exact ⟨ha, hb⟩
      · rw [show r a = .error .spin from if_neg ha] at hb
        cases hb
    rw [← userStrOk_congr (fun _ => rfl) haccept] at hok
    obtain ⟨s, hs⟩ := userStrOk_named hok
    refine ⟨r, s, fun a b hb => (hbelow a b hb).2, fun a b hb => ?_, hs⟩
    obtain ⟨ha, hb'⟩ := hbelow a b hb
    rw [hload a ha, hb']

theorem Indistinct.same_execCall (h : Indistinct st st') (hs : Sound L st) (hst : Steady tf st)
    (hdisk : ReadsImage L ram st) (hd : EnclosedDisk L ram) :
    Lockstep SameResult (sysExecCall L tf st) (sysExecCall L tf st') := by
  have hname : (st'.frameOf tf).a0 = (st.frameOf tf).a0 := by
    obtain ⟨q, -, rfl⟩ := h
    rfl
  obtain ⟨hcheck, hnamed⟩ := h.same_name hs hst (st.frameOf tf).a0 nameMax
  unfold sysExecCall
  rw [hname]
  dsimp only
  rw [hcheck]
  cases hstr :
    userStrOk st.phys.mem (st.rootOf st.currentProc) st.load (st.frameOf tf).a0 nameMax with
  | error e => exact .error e
  | ok ok =>
    cases ok with
    | false => exact h.answer _ _
    | true =>
      obtain ⟨r, s, hbelow, hbelow', hn⟩ := hnamed hstr
      obtain ⟨o, ho, hfile⟩ := hd r (st.frameOf tf).a0 (nameMax + 1) s hn.widen
      have hlook :=
        ramdiskGetEntry_below (hdisk st rfl (fun _ hu => hu) fun _ _ => rfl) hbelow _ _ _ ho
      have hlook' := ramdiskGetEntry_below (hdisk.indistinct h) hbelow' _ _ _ ho
      simp only [ok_bind, hlook, hlook']
      cases o with
      | none => exact h.answer _ _
      | some entry =>
        obtain ⟨q, hag, rfl⟩ := h
        dsimp only
        rcases ha : pmmAllocPage st.phys with ⟨_ | newPt, p1⟩
        · rw [hag.alloc ha]
          exact .error _
        rw [hag.alloc ha]
        -- the new table, beside those of the processes
        have hspare := owned_spare hs.owned st.currentProc
        have hr : (withRoot (spare (trees st)) none (some newPt)).root none = some newPt :=
          withRoot_self _ _ _
        have hzero : AgreeOwned L.protectedEnd (withRoot (spare (trees st)) none (some newPt))
          (p1.zeroPage newPt) (({ q with bitmap := p1.bitmap } : Phys).zeroPage newPt) :=
          ⟨(freshRoot hspare rfl ha).1, hag.alloc_page ha _⟩
        refine ((hzero.same_kernel hr).ensures (fun p2 hk => execTree hs ha hk)).bind ?_
        rintro p2 q2 ⟨h2, htree⟩
        have hread := hdisk (execing st newPt p2) rfl htree.inUse htree.mem
        have hread' := hdisk (execing { st with phys := q } newPt q2) rfl
          (fun f hf => (h2.agree.same_inUse f).mpr (htree.inUse f hf))
          fun f hf => (h2.agree.mem f (htree.inUse f hf)).trans (htree.mem f hf)
        have hstate : AgreeState L.protectedEnd (withRoot (spare (trees st)) none (some newPt))
          (execing st newPt p2) (execing { st with phys := q } newPt q2) := ⟨q2, h2, rfl⟩
        have hroot : (withRoot (spare (trees st)) none (some newPt)).root none =
          some ((execing st newPt p2).rootOf st.currentProc) := by rw [execing_root, hr]
        have hload := @AgreeState.same_loadElf _ _ _ _ _ (fileReader L ram entry) _ _ _ hstate hroot
        rw [← (hfile entry rfl).load fun a => hread (entry.offset.setWidth 64 + a),
          ← (hfile entry rfl).load fun a => hread' (entry.offset.setWidth 64 + a)] at hload
        refine Lockstep.bind hload ?_
        rintro ⟨ok, fin⟩ ⟨ok', fin'⟩ ⟨hok, hfin⟩
        obtain rfl : ok' = ok := hok
        cases ok' with
        | false => exact .error _
        | true =>
          obtain ⟨q3, h3, rfl⟩ := hfin
          have hold : (withRoot (spare (trees st)) none (some newPt)).root (some st.currentProc) =
            some (st.rootOf st.currentProc) := by
            rw [withRoot_of_ne (by simp)]
            exact hs.root hst.used
          exact .ok ⟨rfl, _, h3.same_freePt hold, rfl⟩

theorem rootOf_puts (st : KState) (message : String) (i : Slot) :
    (st.puts message).rootOf i = st.rootOf i := rfl

theorem AgreeState.same_rootOf {ι : Type*} {K : Forest ι} {lo : ℕ} (h : AgreeState lo K st st')
    (i : Slot) : st'.rootOf i = st.rootOf i := by
  obtain ⟨q, -, rfl⟩ := h
  rfl

theorem constByte_terminated (bytes : List Byte) : constByte (bytes ++ [0]) = constByte bytes := by
  funext a
  unfold constByte
  congr 1
  rw [List.getD_eq_getElem?_getD, List.getD_eq_getElem?_getD]
  by_cases ha : a.toNat < bytes.length
  · rw [List.getElem?_append_left ha]
  · rw [List.getElem?_append_right (by omega), List.getElem?_eq_none (l := bytes) (by omega)]
    cases a.toNat - bytes.length with
    | zero => rfl
    | succ k => rfl

theorem initName_named : Named (constByte initName) 0 9 ⟨initName, by decide⟩ := by
  constructor
  · rw [← constByte_terminated]
    exact constByte_holds (by decide)
  · decide

theorem Indistinct.same_startInit (h : Indistinct st st') (hs : Sound L st)
    (hdisk : ReadsImage L ram st) (hd : EnclosedDisk L ram) :
    Lockstep Indistinct (startInit L st) (startInit L st') := by
  unfold startInit
  refine ((h.same_allocProc hs).ensures (fun r hr => allocProc_result hr)).bind ?_
  rintro ⟨r, mid⟩ ⟨r', mid'⟩ ⟨⟨hr, hmid⟩, ha⟩
  obtain rfl : r' = r := hr
  cases r' with
  | none => exact .error _
  | some procA =>
    dsimp only at ha hmid ⊢
    have hsound := sound_allocProc hs ha
    obtain ⟨root, stack, hsp⟩ := ha.spawned hs
    have hused : (mid.processTable procA).state ≠ .unused := by simp [hsp.process]
    have hroot := hsound.root hused
    obtain ⟨o, ho, hfile⟩ := hd _ _ _ _ initName_named
    have hread := hdisk mid ha.fields.1 hsp.memory.inUse hsp.memory.mem
    obtain ⟨q, hag, rfl⟩ := hmid
    have hread' := hdisk { mid with phys := q } ha.fields.1
      (fun f hf => (hag.same_inUse f).mpr (hsp.memory.inUse f hf))
      fun f hf => (hag.mem f (hsp.memory.inUse f hf)).trans (hsp.memory.mem f hf)
    rw [ramdiskGetEntry_below hread (fun a => .refl (constByte initName a)) _ _ _ ho,
      ramdiskGetEntry_below hread' (fun a => .refl (constByte initName a)) _ _ _ ho]
    cases o with
    | none => exact .error _
    | some entry =>
      have hstate : AgreeState L.protectedEnd (trees mid) mid { mid with phys := q } :=
        ⟨q, ⟨hsound.owned, hag⟩, rfl⟩
      have hload := @AgreeState.same_loadElf _ _ _ _ _ (fileReader L ram entry) _ _ _ hstate hroot
      rw [← (hfile entry rfl).load fun a => hread (entry.offset.setWidth 64 + a),
        ← (hfile entry rfl).load fun a => hread' (entry.offset.setWidth 64 + a)] at hload
      refine (hload.ensures (fun r hr => hr)).bind ?_
      rintro ⟨ok, fin⟩ ⟨ok', fin'⟩ ⟨⟨hok, hfin⟩, hl⟩
      obtain rfl : ok' = ok := hok
      cases ok' with
      | false => exact .error _
      | true =>
        obtain ⟨phoff, phnum, start, page, maxEnd, p1, p2, hloaded⟩ := loadElf_true hl
        have hrun : AgreeState L.protectedEnd (trees mid)
            ({ fin with currentProc := procA }.modifyProc procA fun p =>
              { p with state := .running })
            ({ fin' with currentProc := procA }.modifyProc procA fun p =>
              { p with state := .running }) := by
          obtain ⟨q1, h1, rfl⟩ := hfin
          exact ⟨q1, h1, rfl⟩
        have hkept : ({ fin with currentProc := procA }.modifyProc procA fun p =>
            { p with state := .running }).rootOf procA = mid.rootOf procA := by
          simp [KState.rootOf, KState.modifyProc, hloaded.process]
        have hprinted := (hrun.puts "Timer interrupt armed for 10ms in the future!\n").puts
          "Jumping to isolated user space at 0x400000...\n"
        dsimp only
        rw [hprinted.same_rootOf procA, rootOf_puts, rootOf_puts, hkept]
        obtain ⟨q3, h3, hsame⟩ := hprinted
        rw [hsame]
        exact .ok ⟨q3, h3.agree, rfl⟩

end Calls

section Runs

variable {L : Layout} {ram : Memory} {st st' : KState} {regs : TrapFrame} {input : Input}

/-- Every page table, kernel stack and user page is the same frame with the same bytes. -/
def SeenAlike (st st' : KState) : Prop := ∀ r,
  held st'.phys (trees st') r = held st.phys (trees st) r ∧
    ∀ f, held st.phys (trees st) r = some f → st'.phys.mem f = st.phys.mem f

theorem Indistinct.seen (h : Indistinct st st') (hs : Sound L st) : SeenAlike st st' := by
  obtain ⟨q, hag, rfl⟩ := h
  intro r
  exact ⟨hag.same_held hs.owned r, fun f hf => hag.mem f (hs.owned.inUse r f hf).1⟩

def Allocating (regs : TrapFrame) : Prop :=
  regs.scause = 8 ∧ (regs.a7 = sysFork ∨ regs.a7 = sysExec ∨ regs.a7 = sysSbrk)

/-- Both end with the same result and the same memory in use, or stop for the same reason. -/
def SameEnd (r r' : Except Stop KState) : Prop :=
  Lockstep (fun s s' => Indistinct s s' ∧ SeenAlike s s') r r'

/-- What lies in free frames makes no difference to making the first process. -/
def SameBoot (L : Layout) (ram : Memory) : Prop :=
  ∀ st st', enableMmu L ((early L ram).puts "Setting up Virtual Memory...\n") = .ok st →
    Indistinct (st.puts "Initializing Process Subsystem...\n") st' →
    SameEnd (startInit L (st.puts "Initializing Process Subsystem...\n")) (startInit L st')

/-- Nor to a call that hands out memory. -/
structure NoResidue (L : Layout) (ram : Memory) : Prop where
  calls : ∀ st st' regs input, Reachable L ram st → Indistinct st st' → Allocating regs →
    SameEnd (takeTrap L regs input st) (takeTrap L regs input st')
  boot : SameBoot L ram

/-- The images of a run keep clear of the kernel's RAM, and so does the one this call loads. -/
structure ClearCall (L : Layout) (ram : Memory) (st : KState) (regs : TrapFrame) : Prop where
  run : Conducted L ram ramClear st
  file : regs.a7 = sysExec → ∀ elf, ExecFile L st.currentProc (entered (saveFrame regs st)) elf →
    SegmentsAvoid elf KernelRam

theorem readsImage_called (h : Conducted L ram ramClear st) (regs : TrapFrame) :
    ReadsImage L ram (entered (saveFrame regs st)) :=
  fun _ hsatp hu hm => diskByte_image h hsatp hu hm

/-- A trap for one of the calls. -/
theorem Indistinct.same_trap (h : Indistinct st st') (hr : Conducted L ram ramClear st)
    (hd : regs.a7 = sysExec → EnclosedDisk L ram) (ha : Allocating regs) :
    Lockstep Indistinct (takeTrap L regs input st) (takeTrap L regs input st') := by
  have hset := reachable_settled hr.reachable
  have hcalm : Calm st (entered (saveFrame regs st)) :=
    (calm_saveFrame regs st).trans (calm_entered _)
  have hst := hcalm.steady hset.steady
  have hs : Sound L (entered (saveFrame regs st)) := (plain_called regs st).benign.sound hset.sound
  have hcalled : Indistinct (entered (saveFrame regs st)) (entered (saveFrame regs st')) := by
    obtain ⟨q, hag, rfl⟩ := h
    exact ⟨q, hag, rfl⟩
  have hsteady : Steady st'.sscratch st' := by
    obtain ⟨q, -, rfl⟩ := h
    exact ⟨hset.steady.running, hset.steady.frame, hset.steady.satp⟩
  have hslot : st'.sscratch = st.sscratch := by
    obtain ⟨q, -, rfl⟩ := h
    rfl
  obtain ⟨h8, h7⟩ := ha
  unfold takeTrap
  rw [trapHandler_ecall hset.steady h8, trapHandler_ecall hsteady h8, hslot]
  have hframe := congrArg TrapFrame.a7 (frameOf_entered hset.steady regs)
  have hframe' := congrArg TrapFrame.a7 (frameOf_entered hsteady regs)
  rw [hslot] at hframe'
  have hcall : Lockstep SameResult (syscall L input st.sscratch (entered (saveFrame regs st)))
      (syscall L input st.sscratch (entered (saveFrame regs st'))) := by
    rcases h7 with h7 | h7 | h7
    · rw [syscall_fork (hframe.trans h7), syscall_fork (hframe'.trans h7)]
      exact hcalled.same_forkCall hs hst
    · rw [syscall_exec (hframe.trans h7), syscall_exec (hframe'.trans h7)]
      exact hcalled.same_execCall hs hst (readsImage_called hr regs) (hd h7)
    · rw [syscall_sbrk (hframe.trans h7), syscall_sbrk (hframe'.trans h7)]
      exact hcalled.same_sbrkCall hs hst
  refine hcall.bind ?_
  rintro ⟨tf, s⟩ ⟨tf', s'⟩ ⟨htf, q, hag, hs'⟩
  obtain rfl : tf' = tf := htf
  dsimp only at hs'
  subst hs'
  exact .ok ⟨q, hag, rfl⟩

theorem readsImage_mapped {rootPt : ℕ} {p1 p2 : Phys} {c : List Byte}
    (ha : pmmAllocPage (initPmm L ram) = (some rootPt, p1))
    (hk : vmmMapKernel L rootPt (p1.zeroPage rootPt) = .ok p2) :
    ReadsImage L ram (mapped L ram rootPt p2 c) :=
  fun _ hsatp hu hm => mapped_image ha hk hsatp hu hm

/-- In a run whose images keep clear of the kernel's RAM a fork and an `SYS_SBRK` never show what
lies in free frames; nor does an exec, nor the making of the first process, where the loader keeps
to the kernel image. -/
theorem no_residue : (∀ st st' regs input, ClearCall L ram st regs → Indistinct st st' →
      Allocating regs → (regs.a7 = sysExec → EnclosedDisk L ram) →
      SameEnd (takeTrap L regs input st) (takeTrap L regs input st')) ∧
    (EnclosedDisk L ram → SameBoot L ram) := by
  constructor
  · intro st st' regs input hc hind ha hd
    have hlock := @Indistinct.same_trap _ _ _ _ _ input hind hc.run hd ha
    have hsound : Ensures (takeTrap L regs input st) (Sound L) := by
      intro s hs
      have hdel : Delivered regs.scause := by
        rw [ha.1]
        exact fun hmsb => absurd hmsb (by decide)
      exact (reachable_settled (.step hc.run.reachable (.trap st regs input s hdel hs))).sound
    exact (hlock.ensures hsound).mono fun s s' hs => ⟨hs.1, hs.1.seen hs.2⟩
  · intro hd st st' hmmu hind
    obtain ⟨rootPt, p1, p2, c, ha, hk, rfl⟩ := enableMmu_result hmmu
    obtain ⟨c1, h1⟩ := puts_eq (mapped L ram rootPt p2 c) "Initializing Process Subsystem...\n"
    have hsame : KState.puts { (early L ram).puts "Setting up Virtual Memory...\n" with
        phys := p2, satp := rootPt, console := c } "Initializing Process Subsystem...\n" =
        mapped L ram rootPt p2 c1 := h1
    rw [hsame] at hind ⊢
    have hs := sound_mapped ha hk c1
    have hlock := hind.same_startInit hs (readsImage_mapped ha hk) hd
    have hsound : Ensures (startInit L (mapped L ram rootPt p2 c1)) (Sound L) :=
      fun s hs' => sound_startInit hs (startInit_result hs')
    exact (hlock.ensures hsound).mono fun s s' hs => ⟨hs.1, hs.1.seen hs.2⟩

theorem LoadableDisk.enclosed {entries : List (CString × RamdiskEntry)}
    (h : LoadableDisk L ram entries) : EnclosedDisk L ram := by
  intro bytesB name len s hname
  refine ⟨_, h.lookup (fun a => .refl (imageReader L ram a)) hname, fun e he => ?_⟩
  obtain ⟨phoff, phnum, start, pl, maxEnd, hplan⟩ := h.loadable _ (lookup_mem he)
  exact ⟨elfNum, hplan.magic, fun _ => ⟨phoff, phnum, start, pl, maxEnd, hplan⟩⟩

/-- The first program forks and starts its own file again, with and without zeroes in a frame that
is free. -/
theorem no_residue_self : ∃ st st' n, Conducted smallLayout selfRam ramClear st ∧
    Indistinct st st' ∧ st'.phys.mem n ≠ st.phys.mem n ∧
    SameEnd (takeTrap smallLayout forkCall ⟨⟨0, []⟩, []⟩ st)
      (takeTrap smallLayout forkCall ⟨⟨0, []⟩, []⟩ st') ∧
    SameEnd (takeTrap smallLayout execCall ⟨⟨0, []⟩, []⟩ st)
      (takeTrap smallLayout execCall ⟨⟨0, []⟩, []⟩ st') ∧ SameBoot smallLayout selfRam := by
  obtain ⟨st, h⟩ := boot_returns selfImage
  have hrun := selfImage.conducted self_clear h
  have hroom := small_room
  obtain ⟨hfree, -⟩ := self_call rfl le_rfl (by decide) h hrun
  obtain ⟨elf, hfile, hread⟩ := self_file rfl le_rfl (by decide) h hrun
  obtain ⟨n, p1, ha⟩ := pmmAllocPage_returns (p := st.phys) (by omega)
  have hnot := (pmmAllocPage_some ha).2.1
  obtain ⟨page, hpage⟩ : ∃ page, page ≠ st.phys.mem n :=
    ⟨fun o => st.phys.mem n o + 1, fun heq => by
      have hbyte := congrFun heq 0
      simp at hbyte⟩
  have hind : Indistinct st { st with phys := st.phys.setPage n page } := by
    refine ⟨st.phys.setPage n page, ⟨rfl, fun f hf => mem_setPage_of_ne _ ?_ page⟩, rfl⟩
    rintro rfl
    exact hnot hf
  have hexec : ClearCall smallLayout selfRam st execCall := by
    refine ⟨hrun, fun _ elf' hfile' => ?_⟩
    obtain rfl := hfile.unique hfile'
    exact (self_avoids hread).2
  have hfork : ClearCall smallLayout selfRam st forkCall := ⟨hrun, fun h7 => absurd h7 (by decide)⟩
  have hd : EnclosedDisk smallLayout selfRam := self_loadable.enclosed
  refine ⟨st, _, n, hrun, hind, ?_, ?_, ?_, no_residue.2 hd⟩
  · rw [mem_setPage_self]
    exact hpage
  · exact no_residue.1 _ _ _ _ hfork hind ⟨rfl, Or.inl rfl⟩ fun h7 => absurd h7 (by decide)
  · exact no_residue.1 _ _ _ _ hexec hind ⟨rfl, Or.inr (Or.inl rfl)⟩ fun _ => hd

end Runs

section Upward

variable {ι : Type*} {H : Forest ι} {p p' p1 : Phys} {lo n m t root : ℕ} {i : ι} {L : Layout}

/-- Frames are taken from the bottom up, and those that stay free hold what they held. -/
structure Upward (p p' : Phys) : Prop where
  taken : ∀ n, ramFirst ≤ n → TakenBelow n p → ∃ m, n ≤ m ∧ TakenBelow m p'
  inUse : ∀ f, InUse p f → InUse p' f
  kept : ∀ f, ¬ InUse p' f → p'.mem f = p.mem f

theorem Upward.refl (p : Phys) : Upward p p :=
  ⟨fun n _ h => ⟨n, le_rfl, h⟩, fun _ => id, fun _ _ => rfl⟩

theorem Upward.trans {p'' : Phys} (h : Upward p p') (h' : Upward p' p'') : Upward p p'' := by
  refine ⟨fun n hlo hn => ?_, fun f hf => h'.inUse f (h.inUse f hf), fun f hf => ?_⟩
  · obtain ⟨m, hnm, hm⟩ := h.taken n hlo hn
    obtain ⟨k, hmk, hk⟩ := h'.taken m (hlo.trans hnm) hm
    exact ⟨k, hnm.trans hmk, hk⟩
  · rw [h'.kept f hf, h.kept f fun hu => hf (h'.inUse f hu)]

theorem upward_alloc (ha : pmmAllocPage p = (some n, p1)) (page : Page) :
    Upward p (p1.setPage n page) := by
  obtain ⟨-, -, hmem, -, huse⟩ := pmmAllocPage_some ha
  refine ⟨fun k hlo hk => ?_, fun f hf => ?_, fun f hf => ?_⟩
  · obtain ⟨-, htaken⟩ := hk.alloc hlo ha
    exact ⟨k + 1, Nat.le_succ k, htaken⟩
  · exact (inUse_setPage p1 n page f).mpr ((huse f).mpr (Or.inr hf))
  · rw [inUse_setPage, huse, not_or] at hf
    rw [mem_setPage_of_ne _ hf.1, hmem]

theorem upward_setPte (ht : InUse p t) (k : Fin 512) (w : Word) : Upward p (p.setPte t k w) := by
  refine ⟨fun n _ h => ⟨n, le_rfl, h⟩, fun _ => id, fun f hf => mem_setPte_of_ne p ?_ k w⟩
  rintro rfl
  exact hf ht

theorem upward_nextTable (ht : InUse p t) (k : Fin 512) : Upward p (nextTable p t k).2 := by
  unfold nextTable
  dsimp only
  split_ifs
  · exact .refl p
  · rcases ha : pmmAllocPage p with ⟨_ | new, p1⟩
    · rw [pmmAllocPage_none_eq ha]
      exact .refl p
    · have huse := (pmmAllocPage_some ha).2.2.2.2 t
      exact (upward_alloc ha Page.zero).trans
        (upward_setPte ((inUse_setPage p1 new Page.zero t).mpr (huse.mpr (Or.inr ht))) k _)

variable [DecidableEq ι]

theorem upward_mapPage (ho : Owned lo H p) (hr : H.root i = some root) (va pa : Addr)
    (flags : Word) :
    Upward p (mapPage p root va pa flags).2 := by
  have h0 : held p H (.node i []) = some root := hr
  have h1 := upward_nextTable (ho.inUse _ root h0).1 (vpn va 2)
  unfold mapPage
  rcases e1 : nextTable p root (vpn va 2) with ⟨_ | mid, p1⟩ <;> rw [e1] at h1
  · exact h1
  obtain ⟨g1, ht1, -⟩ := nextTable_some ho h0 (by simp) e1
  have h2 := upward_nextTable (g1.owned.inUse _ mid ht1).1 (vpn va 1)
  dsimp only
  rcases e2 : nextTable p1 mid (vpn va 1) with ⟨_ | low, p2⟩ <;> rw [e2] at h2
  · exact h1.trans h2
  obtain ⟨g2, ht2, -⟩ := nextTable_some g1.owned ht1 (by simp) e2
  exact (h1.trans h2).trans (upward_setPte (g2.owned.inUse _ low ht2).1 _ _)

theorem KernelRange.upward {a b : ℕ} {start stop : Addr} {flags : Word}
    (hk : KernelRange start stop a b flags) (ho : Owned lo H p) (hr : H.root i = some root) :
    Ensures (mapIdentityRange root start stop flags p) fun p' => Owned lo H p' ∧ Upward p p' := by
  rw [mapIdentityRange_eq hk.start_eq hk.stop_eq]
  refine ensures_foldlM (I := fun _ t => Owned lo H t ∧ Upward p t) ⟨ho, .refl p⟩ ?_
  rintro done n rest hl t ⟨hot, hst⟩
  have hn : n ∈ (List.range (b - a)).map fun k => a + k := by
    rw [hl]
    exact List.mem_append_right _ List.mem_cons_self
  obtain ⟨m, hm, rfl⟩ := List.mem_map.mp hn
  rw [List.mem_range] at hm
  have hmap := upward_mapPage hot hr (pageAddr (a + m)) (pageAddr (a + m)) flags
  rcases e : mapPage t root (pageAddr (a + m)) (pageAddr (a + m)) flags with ⟨_ | _, t1⟩ <;>
    rw [e] at hmap
  · exact ensures_error
  · exact ensures_ok.mpr ⟨hk.owned_next hot hr ⟨by omega, by omega⟩ e, hst.trans hmap⟩

theorem upward_vmmMapKernel (ho : Owned lo H p) (hr : H.root i = some root) :
    Ensures (vmmMapKernel L root p) fun p' => Owned lo H p' ∧ Upward p p' := by
  have next : ∀ {a b : ℕ} {start stop : Addr} {flags : Word}, KernelRange start stop a b flags →
      ∀ t, Owned lo H t ∧ Upward p t → Ensures (mapIdentityRange root start stop flags t)
        fun p' => Owned lo H p' ∧ Upward p p' := by
    intro a b start stop flags hk t ht
    exact (hk.upward ht.1 hr).mono fun u hu => ⟨hu.1, ht.2.trans hu.2⟩
  exact ((kernelRange_text L).upward ho hr).bind fun p1 h1 =>
    (next (kernelRange_rodata L) p1 h1).bind
    fun p2 h2 => (next (kernelRange_data L) p2 h2).bind fun p3 h3 =>
      (next (kernelRange_free L) p3 h3).bind fun p4 h4 => (next kernelRange_uart p4 h4).bind
        fun p5 h5 => next kernelRange_plic p5 h5

theorem AllocProc.upward {st mid : KState} {child : Slot} (h : AllocProc L st (some child) mid)
    (hs : Sound L st) : Upward st.phys mid.phys := by
  cases h with
  | created i hu root stack p1 p2 p3 ha hk hb =>
    have hr : (withRoot (trees st) child (some root)).root child = some root := withRoot_self _ _ _
    obtain ⟨ho, htables⟩ :=
      upward_vmmMapKernel (freshRoot hs.owned (trees_unused hu).1 ha).1 hr p2 hk
    obtain ⟨hp, -⟩ := placed_alloc (i := child) ho hb Page.zero
    exact (((upward_alloc ha Page.zero).trans htables).trans (upward_alloc hb Page.zero)).trans
      (upward_mapPage hp.owned hr _ _ _)

theorem upward_booted {ram : Memory} {p2 : Phys}
    (ha : pmmAllocPage (initPmm L ram) = (some root, p1))
    (hk : vmmMapKernel L root (p1.zeroPage root) = .ok p2) : Upward (initPmm L ram) p2 := by
  have hr : (withRoot (⟨fun _ => none, fun _ => none⟩ : Forest Slot) 0 (some root)).root 0 =
      some root :=
    withRoot_self _ _ _
  obtain ⟨-, htables⟩ :=
    upward_vmmMapKernel (freshRoot (owned_initPmm L ram) rfl ha).1 hr p2 hk
  exact (upward_alloc ha Page.zero).trans htables

def lastFrame : ℕ := ramLast - 1

/-- As long as a frame is left, the last one is. -/
theorem TakenBelow.last_free (h : TakenBelow n p) (hn : ramFirst ≤ n) (hfree : 0 < freeFrames p) :
    ¬ InUse p lastFrame := by
  rw [h.count hn] at hfree
  have hlast : InRam lastFrame := by decide
  rw [h lastFrame hlast, lastFrame]
  omega

end Upward

section Stray

variable {rootPt : ℕ} {p1 p2 : Phys} {c : List Byte} {s : KState} {page : Page}

/-- A RAMDISK whose `init.elf` is said to lie in the last frame of RAM. -/
def strayDisk : List Byte :=
  [0x55, 0x5A, 0x41, 0x4C, 1, 0, 0, 0] ++ initName ++ List.replicate 24 0 ++
    [0, 0xE0, 0xDF, 0x07, 64, 0, 0, 0]

def strayRam : Memory := fun f o => if f = 0x80201 then strayDisk.getD o.val 0 else 0

def strayEntry : RamdiskEntry := ⟨0x07DFE000, 64⟩

def bareHeader : Page := fun o => [0x7F, 0x45, 0x4C, 0x46].getD o.val 0

def frameReader (page : Page) (a : Addr) : Except Stop Byte :=
  if h : a.toNat < 4096 then .ok (page ⟨a.toNat, h⟩) else .error (.fault a)

theorem stray_found : ramdiskGetEntry (imageReader smallLayout strayRam) (constByte initName) 0 9 =
    .ok (some strayEntry) := by rfl

theorem bareHeader_plan : Plan (frameReader bareHeader) 0 0 0 [] 0 :=
  ⟨by rfl, by rfl, by rfl, by rfl, by rfl⟩

theorem zero_magic : readLe (frameReader Page.zero) 0 4 = .ok 0 := by rfl

/-- The file is read from the last frame, whatever lies there. -/
theorem stray_reader {H : Forest Slot} {lo : ℕ} {i : Slot} (ho : Owned lo H s.phys)
    (hr : H.root i = some rootPt) (hsatp : s.satp = rootPt)
    (hmaps : MapsRam smallLayout s.phys.mem rootPt)
    (a : Addr) : Below (frameReader (s.phys.mem lastFrame) a)
      (diskByte smallLayout s (strayEntry.offset.setWidth 64 + a)) := by
  intro b hb
  unfold frameReader at hb
  split_ifs at hb with hlt
  cases hb
  have hstart : (smallLayout.ramdiskStart + strayEntry.offset.setWidth 64).toNat = 0x87FFF000 := by
    decide
  have hva : (smallLayout.ramdiskStart + (strayEntry.offset.setWidth 64 + a)).toNat =
      0x87FFF000 + a.toNat := by
    rw [← BitVec.add_assoc, BitVec.toNat_add, hstart]
    omega
  have hframe : frame (smallLayout.ramdiskStart + (strayEntry.offset.setWidth 64 + a)) =
      lastFrame := by
    rw [frame, hva, lastFrame, ramLast]
    omega
  have hlast : textStart ≤ lastFrame ∧ lastFrame < ramLast := by decide
  rw [diskByte, KState.load, kernelLoad, hsatp, hmaps.translate ho hr (hframe ▸ hlast.1)
    (hframe ▸ hlast.2)]
  have hoff : offset (smallLayout.ramdiskStart + (strayEntry.offset.setWidth 64 + a)) =
      ⟨a.toNat, hlt⟩ := by
    apply Fin.ext
    show (smallLayout.ramdiskStart + (strayEntry.offset.setWidth 64 + a)).toNat % 4096 = a.toNat
    rw [hva]
    omega
  simp only [Memory.byte, hframe, hoff]

/-- The first process is made, whatever lies in the last frame, and its file is found there. -/
theorem stray_process (ha : pmmAllocPage (initPmm smallLayout strayRam) = (some rootPt, p1))
    (hk : vmmMapKernel smallLayout rootPt (p1.zeroPage rootPt) = .ok p2)
    (hfree : ¬ InUse p2 lastFrame)
    (hp : s = { mapped smallLayout strayRam rootPt p2 c with phys := p2.setPage lastFrame page }) :
    ∃ child mid, allocProc smallLayout s = .ok (some child, mid) ∧
      ramdiskGetEntry (diskByte smallLayout mid) (constByte initName) 0 9 = .ok (some strayEntry) ∧
      (∀ a, Below (frameReader page a)
        (diskByte smallLayout mid (strayEntry.offset.setWidth 64 + a))) ∧
      Sound smallLayout mid ∧ (mid.processTable child).state ≠ .unused ∧
      0 < freeFrames mid.phys := by
  have hag : AgreeInUse p2 (p2.setPage lastFrame page) := by
    refine ⟨rfl, fun f hf => mem_setPage_of_ne p2 ?_ page⟩
    rintro rfl
    exact hfree hf
  have hsound : Sound smallLayout s := by
    subst hp
    have hs := sound_mapped ha hk c
    exact hs.withPhys rfl (hag.owned hs.owned)
  have hphys : s.phys = p2.setPage lastFrame page := by rw [hp]
  have hcount : freeFrames s.phys + 69 = 32252 := by
    have hboot := (bootTree ha hk).count
    rw [freeFrames_initPmm, small_room] at hboot
    rw [hphys, freeFrames_setPage]
    exact hboot
  have hslot : ∃ i, (s.processTable i).state = .unused := ⟨0, by rw [hp]; rfl⟩
  obtain ⟨child, mid, halloc⟩ := allocProc_returns hsound hslot (by omega)
  have hproc := allocProc_result halloc
  obtain ⟨root, stack, hsp⟩ := hproc.spawned hsound
  have hleft := hsp.memory.count
  have hu : ∀ f, InUse p2 f → InUse mid.phys f := by
    intro f hf
    apply hsp.memory.inUse
    rw [hphys]
    exact (hag.same_inUse f).mpr hf
  have hm : ∀ f, InUse p2 f → mid.phys.mem f = p2.mem f := by
    intro f hf
    rw [hsp.memory.mem f (by rw [hphys]; exact (hag.same_inUse f).mpr hf), hphys]
    exact hag.mem f hf
  have hsatp : mid.satp = rootPt := by rw [hproc.fields.1, hp]; rfl
  obtain ⟨howned, hmaps⟩ := mapped_maps ha hk hu hm
  have hup := hproc.upward hsound
  obtain ⟨n, hn, htaken⟩ := (upward_booted ha hk).taken _ (ramFirst_le_protectedEnd _)
    (takenBelow_init _ _)
  have hlo := (ramFirst_le_protectedEnd smallLayout).trans hn
  obtain ⟨m, hm', hmid⟩ := hup.taken n hlo (by
    intro f hf
    rw [hphys]
    exact (hag.same_inUse f).trans (htaken f hf))
  have hlast : mid.phys.mem lastFrame = page := by
    rw [hup.kept lastFrame (hmid.last_free (hlo.trans hm') (by omega)), hphys]
    exact mem_setPage_self ..
  refine ⟨child, mid, halloc, ?_, fun a => ?_, hsp.sound hsound hproc, ?_, by omega⟩
  · exact ramdiskGetEntry_below (mapped_image ha hk hsatp hu hm)
      (fun a => .refl _) _ _ _ stray_found
  · rw [← hlast]
    exact stray_reader howned (withRoot_self _ _ _) hsatp hmaps a
  · simp [hsp.process]

/-- Zeroes are no ELF: the kernel halts. -/
theorem stray_halts (ha : pmmAllocPage (initPmm smallLayout strayRam) = (some rootPt, p1))
    (hk : vmmMapKernel smallLayout rootPt (p1.zeroPage rootPt) = .ok p2)
    (hfree : ¬ InUse p2 lastFrame)
    (hp : s =
      { mapped smallLayout strayRam rootPt p2 c with phys := p2.setPage lastFrame Page.zero }) :
    startInit smallLayout s = .error (.panic "Failed to load ELF!\n") := by
  obtain ⟨child, mid, halloc, hfound, hread, -⟩ := stray_process ha hk hfree hp
  have hload : ∃ t, loadElf mid child
      (fun a => diskByte smallLayout mid (strayEntry.offset.setWidth 64 + a)) = .ok (false, t) := by
    unfold loadElf
    rw [readLe_below hread _ _ _ zero_magic, ok_bind, if_pos (by decide)]
    exact ⟨_, rfl⟩
  obtain ⟨t, hload⟩ := hload
  unfold startInit
  rw [halloc, ok_bind]
  dsimp only
  rw [hfound, ok_bind]
  dsimp only
  rw [hload, ok_bind]

/-- The start of an ELF is loaded: there is no panic. -/
theorem stray_starts (ha : pmmAllocPage (initPmm smallLayout strayRam) = (some rootPt, p1))
    (hk : vmmMapKernel smallLayout rootPt (p1.zeroPage rootPt) = .ok p2)
    (hfree : ¬ InUse p2 lastFrame)
    (hp : s =
      { mapped smallLayout strayRam rootPt p2 c with phys := p2.setPage lastFrame bareHeader })
    (msg : String) : startInit smallLayout s ≠ .error (.panic msg) := by
  intro hstop
  obtain ⟨child, mid, halloc, hfound, hread, hsound, hused, hleft⟩ := stray_process ha hk hfree hp
  obtain ⟨fin, hload⟩ := loadElf_returns (bareHeader_plan.below hread) hsound.owned
    (hsound.root hused) (by
      simp only [List.map_nil, tablesOf, List.toFinset_nil, Finset.biUnion_empty,
        Finset.union_empty, List.length_nil]
      omega)
  unfold startInit at hstop
  rw [halloc, ok_bind] at hstop
  dsimp only at hstop
  rw [hfound, ok_bind] at hstop
  dsimp only at hstop
  rw [hload, ok_bind] at hstop
  dsimp only at hstop
  cases hstop

/-- With a file outside the kernel image the kernel halts or not as the last frame, which is free,
holds zeroes or the start of an ELF. -/
theorem free_frame_decides : ¬ NoResidue smallLayout strayRam := by
  intro hno
  obtain ⟨rootPt, p1, p2, c, ha, hk, hmmu⟩ := mapped_returns smallLayout strayRam (by decide)
  obtain ⟨c1, hputs⟩ := puts_eq (mapped smallLayout strayRam rootPt p2 c)
    "Initializing Process Subsystem...\n"
  have hnext :
      (mapped smallLayout strayRam rootPt p2 c).puts "Initializing Process Subsystem...\n" =
    mapped smallLayout strayRam rootPt p2 c1 := hputs
  have hup := upward_booted ha hk
  obtain ⟨n, hn, htaken⟩ := hup.taken _ (ramFirst_le_protectedEnd _) (takenBelow_init _ _)
  have hcount : freeFrames p2 + 69 = 32252 := by
    have hboot := (bootTree ha hk).count
    rwa [freeFrames_initPmm, small_room] at hboot
  have hfree := htaken.last_free ((ramFirst_le_protectedEnd _).trans hn) (by omega)
  have hzero : p2.mem lastFrame = Page.zero := by
    rw [hup.kept lastFrame hfree]
    funext o
    show (if lastFrame = 0x80201 then strayDisk.getD o.val 0 else 0) = 0
    rw [if_neg (by decide)]
  have hsame : p2.setPage lastFrame Page.zero = p2 := by
    rw [← hzero, Phys.setPage, Function.update_eq_self]
  have hind : Indistinct (mapped smallLayout strayRam rootPt p2 c1)
      { mapped smallLayout strayRam rootPt p2 c1 with
        phys := p2.setPage lastFrame bareHeader } := by
    refine ⟨p2.setPage lastFrame bareHeader, ⟨rfl, fun f hf => ?_⟩, rfl⟩
    apply mem_setPage_of_ne
    rintro rfl
    exact hfree hf
  have hrun := hno.boot _ _ hmmu (hnext ▸ hind)
  rw [hnext, stray_halts (c := c1) ha hk hfree (by rw [hsame]; rfl)] at hrun
  exact stray_starts ha hk hfree rfl _ hrun.of_error

end Stray

end Lazux

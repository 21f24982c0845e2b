import Lazux.HeapExact

/-! # The kernel's own memory

Kernel code and data, the RAMDISK among them, stay as they were loaded, and as long as no image has
a page in the kernel's RAM every page table maps them to themselves. -/
namespace Lazux

open PagedMemory RadixForest Run

variable {L : Layout} {ram : Memory} {st st' : KState} {i : Slot} {q : PageNo} {w : Word}

section Contents

theorem Act.image {ls : List Label} (h : Act L st ls st') (hs : Sound L st) {f : ℕ}
    (hram : InRam f) (hlo : f < L.protectedEnd) : st'.phys.mem f = st.phys.mem f := by
  obtain ⟨j, -, hw⟩ := h.within hs
  have happart : Apart st.phys (trees st) j f := by
    intro r _ hr
    have hle := (hs.owned.inUse r f hr).2
    omega
  exact (hw.spared f (hs.owned.guard f hram hlo) happart).2.1

theorem booted_image (h : kmain L ram = .ok st) {f : ℕ} (hram : InRam f)
    (hlo : f < L.protectedEnd) : st.phys.mem f = ram f := by
  have huse : InUse (initPmm L ram) f := (inUse_initPmm L ram f).mpr ⟨hram, hlo⟩
  obtain ⟨rootPt, p1, p2, c, ha, hk, hstart⟩ := kmain_result h
  have hboot := bootTree ha hk
  have hsound := sound_mapped ha hk c
  cases hstart with
  | started i mid fin entry console hp he hl =>
    have hmid := sound_allocProc hsound hp
    obtain ⟨root, stack, hsp⟩ := hp.spawned hsound
    have hused : (mid.processTable i).state ≠ .unused := by simp [hsp.process]
    obtain ⟨phoff, phnum, start, page, maxEnd, q1, q2, hl⟩ := loadElf_true hl
    obtain ⟨pl, hpl, hreal, hstack⟩ := hl.placed hmid.owned (hmid.root hused)
    have huse1 := hboot.inUse f huse
    have huse2 := hsp.memory.inUse f huse1
    -- the trees are made of frames above
    have hnot : ∀ p, Owned L.protectedEnd (trees mid) p → ∀ path : List (Fin 512),
        path.length ≤ 2 → held p (trees mid) (.node i path) ≠ some f := by
      intro p ho path _ hf
      have hle := (ho.inUse _ f hf).2
      omega
    obtain ⟨T, n, hg⟩ := hstack.grows
    have h1 : p2.mem f = ram f := hboot.mem f huse
    have h2 : mid.phys.mem f = p2.mem f := hsp.memory.mem f huse1
    have h3 := hreal.grows.mem f huse2 (hnot _ hmid.owned)
    have h4 := hg.mem f (hreal.grows.inUse f huse2) (hnot _ hreal.grows.owned)
    exact h4.trans (h3.trans (h2.trans h1))

theorem image_kept (h : Reachable L ram st) {f : ℕ} (hram : InRam f) (hlo : f < L.protectedEnd) :
    st.phys.mem f = ram f := by
  apply h.keeps (P := fun s => s.phys.mem f = ram f)
  · intro s hs
    exact booted_image hs hram hlo
  · intro s s' ls hs ha hp
    exact (ha.image hs hram hlo).trans hp
  · intro s s' ha hp
    rw [ha.phys]
    exact hp

end Contents

section Mapping

/-- The pages of RAM the kernel uses, which `vmm_map_kernel` maps to themselves. -/
def KernelRam (q : PageNo) : Prop := textStart ≤ q.number ∧ q.number < ramLast

/-- The kernel finds its memory in the address space of process `i`. -/
def RamKept (L : Layout) (st : KState) (i : Slot) : Prop :=
  ∀ q, KernelRam q → entryOf st i q = (kernelEntry L q).getD 0

/-- The runs none of whose images has a page in the kernel's RAM. Neither the loader nor `csrw satp`
sees to that; with such a page the kernel no longer works on the memory it means. -/
def ramClear : Conduct where
  file elf := SegmentsAvoid elf KernelRam
  growth _ := True

theorem RamKept.mapsRam (h : RamKept L st i) (hs : Sound L st)
    (hu : (st.processTable i).state ≠ .unused) : MapsRam L st.phys.mem (st.rootOf i) := by
  intro q h1 h2
  rw [← hs.root hu]
  exact h q ⟨h1, h2⟩

theorem KernelRam.ne_stack (h : KernelRam q) : q ≠ pageNo userStackBase := by
  apply kernelSpace_ne_stack
  right
  have hlow := h.1
  simp only [textStart] at hlow
  omega

/-- Neither a heap nor a copy reaches the kernel's RAM, nor does an image that keeps clear of it. -/
theorem Footprint.ramKept (h : Footprint L st st') (hs : Sound L st)
    (hst : Steady st.currentProc st)
    (hfile : ∀ elf, st.a7 = sysExec → ExecFile L st.currentProc st elf → ramClear.file elf)
    (hk : ∀ i, (st.processTable i).state ≠ .unused → RamKept L st i)
    (hu : (st'.processTable i).state ≠ .unused) : RamKept L st' i := by
  intro q hq
  have hhigh : 2 ^ 19 ≤ q.number := by
    have hlow := hq.1
    simp only [textStart] at hlow
    omega
  cases h.fate hs hst hu with
  | kept hold he f fs hp =>
    rw [he]
    exact hk i hold q hq
  | grown ok phys h7 hg hi hm =>
    subst hi hm
    obtain ⟨halign, hbound⟩ := hg.steps hs
    rcases hg.entry_cases hs hst q with he | ⟨hin, -⟩
    · rw [he]
      exact hk _ hst.used q hq
    · have hlow := (mem_heapSteps halign hbound).mp hin
      omega
  | forked m phys ha hne hc hm =>
    subst hm
    rcases child_entry hs hst ha hne hc q with ⟨hlow, -⟩ | ⟨-, he⟩
    · omega
    · exact he
  | execed newPt start pl maxEnd elf phoff phnum h7 hf hp hr hi =>
    subst hi
    rcases hr.entry_cases hst q with he | ⟨n, flags, -, ⟨hstack, -⟩ | ⟨y, hy, hpage, -⟩⟩
    · exact he
    · exact absurd hstack hq.ne_stack
    · exact absurd (hpage ▸ hq) ((hp.avoids_iff KernelRam).mp (hfile elf h7 hf) y hy)

/-- Where images keep clear of it every process finds the kernel's memory in its address space. -/
theorem Conducted.ram_kept (h : Conducted L ram ramClear st)
    (hu : (st.processTable i).state ≠ .unused) : RamKept L st i := by
  refine h.keeps (P := fun s => ∀ i, (s.processTable i).state ≠ .unused → RamKept L s i)
    ?_ ?_ ?_ i hu
  · intro s elf phoff phnum start pl maxEnd hboot hf hplan hinst i hi q hq
    obtain rfl : i = s.currentProc := by
      by_contra hne
      exact hi (booted_alone hboot hne)
    rcases hinst.entry_cases q with he | ⟨n, flags, -, ⟨hstack, -⟩ | ⟨y, hy, hpage, -⟩⟩
    · exact he
    · exact absurd hstack hq.ne_stack
    · exact absurd (hpage ▸ hq) ((hplan.avoids_iff KernelRam).mp hf y hy)
  · intro s s' hp hk i hi q hq
    rw [hp.entry_eq]
    exact hk i (fun h0 => hi ((hp.used i).mpr h0)) q hq
  · intro s s' hs hst hf hfile _ hk i hi
    exact hf.ramKept hs hst (fun elf h7 he => hfile elf h7 he) hk hi

end Mapping

section Disk

/-- Where the running process has the kernel's entries for the kernel image, the kernel reads the
RAMDISK that was loaded, also while it takes new frames. -/
theorem diskByte_below (h : Reachable L ram st)
    (hk : ∀ q : PageNo, textStart ≤ q.number → q.number < L.protectedEnd →
      entryOf st st.currentProc q = (kernelEntry L q).getD 0)
    {s : KState} (hsatp : s.satp = st.satp) (hu : ∀ f, InUse st.phys f → InUse s.phys f)
    (hm : ∀ f, InUse st.phys f → s.phys.mem f = st.phys.mem f) (a : Addr) :
    Below (imageReader L ram a) (diskByte L s a) := by
  have hset := reachable_settled h
  have hroot := hset.steady.root hset.sound
  obtain ⟨hext, -, hentries⟩ := hset.sound.owned.extend hu hm
  refine imageReader_below hext hroot hsatp (fun q h1 h2 => ?_) (fun f hf => ?_) a
  · have he := hentries st.currentProc q
    rw [hroot] at he
    rw [he, ← hroot]
    exact hk q h1 h2
  · obtain ⟨hram, hlo⟩ := (inUse_initPmm L ram f).mp hf
    rw [hm f (hset.sound.owned.guard f hram hlo)]
    exact image_kept h hram hlo

theorem diskByte_image (h : Conducted L ram ramClear st) {s : KState} (hsatp : s.satp = st.satp)
    (hu : ∀ f, InUse st.phys f → InUse s.phys f)
    (hm : ∀ f, InUse st.phys f → s.phys.mem f = st.phys.mem f) (a : Addr) :
    Below (imageReader L ram a) (diskByte L s a) := by
  have h4 := L.end_lt
  refine diskByte_below h.reachable (fun q h1 h2 => ?_) hsatp hu hm a
  apply h.ram_kept (reachable_settled h.reachable).steady.used q ⟨h1, ?_⟩
  simp only [Layout.protectedEnd] at h2
  omega

end Disk

end Lazux

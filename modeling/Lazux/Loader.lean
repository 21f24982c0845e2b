import Lazux.Fork

/-! # What `load_elf` makes of a file

The loader is called for a page table that `vmm_map_kernel` has just filled. It puts the pages
of the file where the program headers say, whatever was there. -/
namespace Lazux

open PagedMemory RadixForest Run

variable {L : Layout} {ram : Memory} {st st' mid : KState} {i : Slot} {q : PageNo}
  {elf : Addr → Except Stop Byte} {phoff phnum start : ℕ} {pl : List Placement} {maxEnd : Addr}

section KernelSpace

/-- The pages the kernel needs in every address space: those of its devices, and all from 2 GB
on. -/
def KernelSpace (q : PageNo) : Prop := DevicePage q.number ∨ 2 ^ 19 ≤ q.number

/-- No page of a `PT_LOAD` segment is one of `S`. -/
def SegmentsAvoid (elf : Addr → Except Stop Byte) (S : PageNo → Prop) : Prop :=
  ∀ phoff phnum, readLe elf 0x20 8 = .ok phoff → readLe elf 0x38 2 = .ok phnum →
    ∀ a ∈ phdrAddrs (BitVec.ofNat 64 phoff) phnum, ∀ ph, readPhdr elf a = .ok (some ph) →
      ∀ c ∈ pageSteps 0 ph.pMemsz, ¬ S (pageNo (ph.pVaddr + c))

/-- The kernel's part of an address space is as `vmm_map_kernel` made it: no user page lies in
it, and the kernel finds its memory. -/
structure KernelKept (L : Layout) (st : KState) (i : Slot) : Prop where
  entries : ∀ q, KernelSpace q → entryOf st i q = (kernelEntry L q).getD 0
  noUser : ∀ q, KernelSpace q → ¬ hasFlag (entryOf st i q) pteU
  mapped : KernelMapped st.phys.mem (st.rootOf i)

theorem Plan.avoids_iff (h : Plan elf phoff phnum start pl maxEnd) (S : PageNo → Prop) :
    SegmentsAvoid elf S ↔ ∀ x ∈ pl, ¬ S x.page := by
  obtain ⟨hplaced, hpages⟩ := planSegments_pages h.segments
  constructor
  · intro havoid x hx
    obtain ⟨a, ha, ph, hph, c, hc, hpage, -⟩ := hplaced x hx
    rw [hpage]
    exact havoid phoff phnum h.phoff_eq h.phnum_eq a ha ph hph c hc
  · intro hclear phoff' phnum' hoff hnum a ha ph hph c hc
    cases h.phoff_eq.symm.trans hoff
    cases h.phnum_eq.symm.trans hnum
    obtain ⟨x, hx, hpage⟩ := hpages a ha ph hph c hc
    rw [← hpage]
    exact hclear x hx

/-- A loaded image: what was planned has been placed in the bare table, then the stack. -/
structure Image (L : Layout) (st : KState) (i : Slot) (pl : List Placement) (st' : KState) :
    Prop where
  sound : Sound L st'
  used : (st'.processTable i).state ≠ .unused
  memory : ∃ p1 page, Realised L.protectedEnd (trees st) i pl st.phys p1 ∧
    StackPlaced L.protectedEnd (trees st) i page p1 st'.phys
  trees_eq : trees st' = trees st

theorem Bare.loaded (hb : Bare L st i) (h : loadElf st i elf = .ok (true, st')) :
    ∃ phoff phnum start pl maxEnd, Plan elf phoff phnum start pl maxEnd ∧ Image L st i pl st' ∧
      st'.processTable i = { st.processTable i with
        trapFrame := { (st.processTable i).trapFrame with
          sepc := BitVec.ofNat 64 start, sp := userStackTop }
        heapBreak := pageCeil maxEnd
        heapMax := userStackBase - 4096 } := by
  obtain ⟨phoff, phnum, start, page, maxEnd, p1, p2, hl⟩ := loadElf_true h
  obtain ⟨pl, hpl, hreal, hstack⟩ := hl.placed hb.sound.owned (hb.sound.root hb.used)
  refine ⟨phoff, phnum, start, pl, maxEnd,
    ⟨hl.magic, hl.phoff_eq, hl.phnum_eq, hl.entry_eq, hpl⟩, ?_, hl.process⟩
  refine ⟨hl.sound hb.sound hb.used, ?_, ⟨p1, page, hreal, hstack⟩, hl.trees_eq⟩
  rw [hl.process]
  exact hb.used

/-- A page that is not the stack's has the entry of the last placement, or the old one. -/
theorem Image.entry_none (h : Image L st i pl st') (hq : q ≠ pageNo userStackBase)
    (hl : lastAt pl q = none) : entryOf st' i q = entryOf st i q := by
  obtain ⟨p1, page, hreal, hstack⟩ := h.memory
  rw [entryOf, h.trees_eq, hstack.entry_of_ne hq]
  exact hreal.absent q hl

theorem Image.entry_some (h : Image L st i pl st') (hq : q ≠ pageNo userStackBase)
    {x : Placement} (hl : lastAt pl q = some x) : ∃ n, n < 2 ^ 44 ∧
      entryOf st' i q = userWord n x.flags ∧ st'.phys.mem n = x.content := by
  obtain ⟨p1, page, hreal, hstack⟩ := h.memory
  obtain ⟨n, hf, he⟩ := hreal.present q x hl
  obtain ⟨T, m, hg⟩ := hstack.grows
  have hfilled := hf.grow hg
  refine ⟨n, ?_, ?_, hfilled.content⟩
  · have hram := hfilled.inUse.1.2
    simp only [ramLast] at hram
    omega
  · rw [entryOf, h.trees_eq, hstack.entry_of_ne hq]
    exact he

theorem kernelSpace_ne_stack (hq : KernelSpace q) : q ≠ pageNo userStackBase := by
  rintro rfl
  have hnum : (pageNo userStackBase).number = 0x3FFFF := by
    rw [number_pageNo]
    decide
  rcases hq with hd | hlow
  · rw [hnum] at hd
    exact absurd hd (by decide)
  · rw [hnum] at hlow
    exact absurd hlow (by decide)

/-- `load_elf` leaves the kernel's part of the address space alone exactly when no segment has
a page there. -/
theorem kernel_kept_iff (hb : Bare L st i) (h : loadElf st i elf = .ok (true, st')) :
    KernelKept L st' i ↔ SegmentsAvoid elf KernelSpace := by
  obtain ⟨phoff, phnum, start, pl, maxEnd, hplan, himage, -⟩ := hb.loaded h
  rw [hplan.avoids_iff]
  constructor
  · intro hkept x hx hspace
    cases hl : lastAt pl x.page with
    | none => exact lastAt_none.mp hl x hx rfl
    | some y =>
      -- a user page stands where the kernel's mapping was
      obtain ⟨n, -, he, -⟩ := himage.entry_some (kernelSpace_ne_stack hspace) hl
      have hflags := planSegments_userFlags hplan.segments y (lastAt_some hl).1
      apply hkept.noUser x.page hspace
      rw [he]
      exact userWord_user hflags
  · intro hclear
    have hentries : ∀ q, KernelSpace q → entryOf st' i q = (kernelEntry L q).getD 0 := by
      intro q hspace
      rw [← hb.entries q]
      apply himage.entry_none (kernelSpace_ne_stack hspace)
      rw [lastAt_none]
      intro x hx hpage
      apply hclear x hx
      rw [hpage]
      exact hspace
    refine ⟨hentries, fun q hspace => ?_, ?_⟩
    · rw [hentries q hspace]
      cases hk : kernelEntry L q with
      | none => decide
      | some w =>
        obtain ⟨flags, hf, rfl⟩ := Option.map_eq_some_iff.mp hk
        rw [Option.getD_some, identity_user (kernelFlags_some hf).1]
        exact Bool.false_ne_true
    · have hroot := himage.sound.root himage.used
      have hram : MapsRam L st'.phys.mem (st'.rootOf i) := by
        intro q h1 h2
        rw [← hroot]
        apply hentries
        right
        simp only [textStart] at h1
        omega
      exact hram.kernelMapped himage.sound.owned hroot

/-- A page with bytes of the file has been loaded. -/
theorem kernel_kept_iff_self : ∃ st i elf st', Bare smallLayout st i ∧
    loadElf st i elf = .ok (true, st') ∧ KernelKept smallLayout st' i := by
  obtain ⟨st, h⟩ := boot_returns selfImage
  obtain ⟨mid, i, elf, fin, hb, -, hl, hfile⟩ := booted_loads h
  refine ⟨mid, i, elf, fin, hb, hl, (kernel_kept_iff hb hl).mpr ?_⟩
  rw [(selfImage.plan.below (hfile selfImage)).avoids_iff]
  rintro x hx (hdev | hhigh)
  all_goals obtain rfl := List.mem_singleton.mp hx
  · exact absurd hdev (by decide)
  · exact absurd hhigh (by decide)

/-- An `init.elf` with a segment where the PLIC is. -/
def plicImage : InitImage smallLayout (segmentRam 0x0C000000 0) where
  entry := ⟨48, 120⟩
  phoff := 64
  phnum := 1
  start := 0x400000
  placements := [⟨pageNo 0x0C000000, Page.zero, pteU ||| pteR ||| pteW⟩]
  maxEnd := 0x0C001000
  found := by rfl
  plan := ⟨by rfl, by rfl, by rfl, by rfl, segment_plan (by rfl) (by rfl) (by decide) (by decide)⟩
  fits := pages_fit _ (by decide)

/-- It is loaded over the mapping of the PLIC. -/
theorem load_over_plic : ∃ st i elf st', Bare smallLayout st i ∧
    loadElf st i elf = .ok (true, st') ∧ ¬ KernelKept smallLayout st' i := by
  obtain ⟨st, h⟩ := boot_returns plicImage
  obtain ⟨mid, i, elf, fin, hb, -, hl, hfile⟩ := booted_loads h
  refine ⟨mid, i, elf, fin, hb, hl, fun hkept => ?_⟩
  have havoid := (kernel_kept_iff hb hl).mp hkept
  rw [(plicImage.plan.below (hfile plicImage)).avoids_iff] at havoid
  apply havoid _ (List.mem_singleton_self _)
  left
  decide

end KernelSpace

end Lazux

import Lazux.Progress

/-! # The first process

What the image of `init.elf` leaves in memory when the machine has come up. -/
namespace Lazux

open PagedMemory RadixForest Run

variable {L : Layout} {ram : Memory} {st st' mid : KState} {i : Slot} {pl : List Placement}
  {phoff phnum start : ℕ} {maxEnd : Addr} {q : PageNo} {elf : Addr → Except Stop Byte}

section Bare

/-- Slot `i` has a page table of the kernel's mappings and nothing else. -/
structure Bare (L : Layout) (st : KState) (i : Slot) : Prop where
  sound : Sound L st
  used : (st.processTable i).state ≠ .unused
  entries : ∀ q, entryOf st i q = (kernelEntry L q).getD 0
  tables : tableSet st.phys (trees st) i = kernelTables

theorem AllocProc.bare (hs : Sound L st) (h : AllocProc L st (some i) mid) : Bare L mid i := by
  obtain ⟨root, stack, hsp⟩ := h.spawned hs
  have hroot : (trees mid).root i = some root := by
    rw [hsp.trees_eq, withExtra_root, withRoot_self]
  refine ⟨sound_allocProc hs h, by simp [hsp.process], fun q => ?_, ?_⟩
  · rw [entryOf, hroot]
    exact hsp.memory.entries q
  · rw [← hsp.memory.tables]
    apply tableSet_congr
    rw [hroot, withRoot_self]

theorem bare_execing {newPt : ℕ} {p1 p2 : Phys} {tf : Slot} (hs : Sound L st) (hst : Steady tf st)
    (ha : pmmAllocPage st.phys = (some newPt, p1))
    (hk : vmmMapKernel L newPt (p1.zeroPage newPt) = .ok p2) :
    Bare L (execing st newPt p2) st.currentProc := by
  have htree := execTree hs ha hk
  have hu := hst.used
  have hproc : (execing st newPt p2).processTable st.currentProc =
      { st.current with pageTable := some newPt } := modifyProc_self _ _ _
  have htrees : trees (execing st newPt p2) = withRoot (trees st) st.currentProc (some newPt) := by
    have hextra : (trees st).extra st.currentProc = (st.processTable st.currentProc).kernelStack :=
      if_neg hu
    have hother : trees { st with phys := p2 } = trees st := rfl
    rw [execing, trees_modifyProc, if_neg hu, if_neg hu, hother, ← hextra]
    simp only [withExtra, withRoot, Function.update_eq_self]
  have hroot : (trees (execing st newPt p2)).root st.currentProc = some newPt := by
    rw [htrees, withRoot_self]
  constructor
  · refine ⟨?_, fun j hj => ?_, fun j => ?_⟩
    · rw [htrees]
      exact owned_replaced (htree.owned.dropRoot (some st.currentProc))
    · by_cases hjc : j = st.currentProc
      · subst hjc
        rw [hproc]
        exact Option.some_ne_none newPt
      · rw [execing, modifyProc_of_ne _ hjc] at hj ⊢
        exact hs.table j hj
    · by_cases hjc : j = st.currentProc
      · subst hjc
        rw [hproc]
        exact hs.heap _
      · rw [execing, modifyProc_of_ne _ hjc]
        exact hs.heap j
  · rw [hproc]
    exact hu
  · intro q
    rw [entryOf, hroot]
    exact htree.entries q
  · rw [← htree.tables]
    apply tableSet_congr
    rw [hroot, withRoot_self]

end Bare

/-- The first process has a kernel tree in which the pages `pl` and then a stack were placed. -/
structure Installed (L : Layout) (st : KState) (pl : List Placement) (start : ℕ) (maxEnd : Addr) :
    Prop where
  memory : ∃ p0 p1 page, Owned L.protectedEnd (trees st) p0 ∧
    (∀ q, entry p0.mem ((trees st).root st.currentProc) q = (kernelEntry L q).getD 0) ∧
    tableSet p0 (trees st) st.currentProc = kernelTables ∧
    freeFrames p0 + 139 = ramLast - L.protectedEnd ∧
    Realised L.protectedEnd (trees st) st.currentProc pl p0 p1 ∧
    StackPlaced L.protectedEnd (trees st) st.currentProc page p1 st.phys
  start_eq : (st.frameOf st.currentProc).sepc = BitVec.ofNat 64 start
  heapBreak : st.current.heapBreak = pageCeil maxEnd
  heapMax : st.current.heapMax = userStackBase - 4096

theorem Plan.unique {phoff' phnum' start' : ℕ} {pl' : List Placement} {maxEnd' : Addr}
    (h : Plan elf phoff phnum start pl maxEnd) (h' : Plan elf phoff' phnum' start' pl' maxEnd') :
    pl = pl' ∧ start = start' ∧ maxEnd = maxEnd' := by
  cases h.phoff_eq.symm.trans h'.phoff_eq
  cases h.phnum_eq.symm.trans h'.phnum_eq
  cases h.start_eq.symm.trans h'.start_eq
  have hsame := h.segments.symm.trans h'.segments
  simp only [Except.ok.injEq, Prod.mk.injEq] at hsame
  exact ⟨hsame.1, rfl, hsame.2⟩

theorem InitImage.file_found {rootPt : ℕ} {p1 p2 : Phys} {c : List Byte} {entry : RamdiskEntry}
    (img : InitImage L ram) (ha : pmmAllocPage (initPmm L ram) = (some rootPt, p1))
    (hk : vmmMapKernel L rootPt (p1.zeroPage rootPt) = .ok p2)
    (hp : AllocProc L (mapped L ram rootPt p2 c) (some i) mid)
    (he : ramdiskGetEntry (diskByte L mid) (constByte initName) 0 9 = .ok (some entry)) (a : Addr) :
    Below (imageReader L ram (img.entry.offset.setWidth 64 + a))
      (diskByte L mid (entry.offset.setWidth 64 + a)) := by
  have hread := image_read ha hk hp
  have hfound := ramdiskGetEntry_below hread (fun a => .refl (constByte initName a)) 0 9 _
    img.found
  obtain rfl : entry = img.entry := by simpa using he.symm.trans hfound
  exact hread (img.entry.offset.setWidth 64 + a)

theorem booted_loads (h : kmain L ram = .ok st) : ∃ mid i elf fin, Bare L mid i ∧
    freeFrames mid.phys + 139 = ramLast - L.protectedEnd ∧
    loadElf mid i elf = .ok (true, fin) ∧ ∀ (img : InitImage L ram) (a : Addr),
      Below (imageReader L ram (img.entry.offset.setWidth 64 + a)) (elf a) := by
  obtain ⟨rootPt, p1, p2, c, ha, hk, hstart⟩ := kmain_result h
  cases hstart with
  | started i mid fin entry console hp he hl =>
    have hsound := sound_mapped ha hk c
    obtain ⟨root, stack, hsp⟩ := hp.spawned hsound
    have hcount1 := freeFrames_initPmm L ram
    have hcount2 := (bootTree ha hk).count
    have hcount3 : freeFrames mid.phys + 70 = freeFrames p2 := hsp.memory.count
    exact ⟨mid, i, _, fin, hp.bare hsound, by omega, hl, fun img => img.file_found ha hk hp he⟩

/-- The file `kmain` loads, as it can be read once there is a first process. -/
def BootFile (L : Layout) (ram : Memory) (elf : Addr → Except Stop Byte) : Prop :=
  ∃ rootPt p1 p2 c i mid entry, pmmAllocPage (initPmm L ram) = (some rootPt, p1) ∧
    vmmMapKernel L rootPt (p1.zeroPage rootPt) = .ok p2 ∧
    AllocProc L (mapped L ram rootPt p2 c) (some i) mid ∧
    ramdiskGetEntry (diskByte L mid) (constByte initName) 0 9 = .ok (some entry) ∧
    elf = fun a => diskByte L mid (entry.offset.setWidth 64 + a)

theorem InitImage.boot_file (img : InitImage L ram) (h : BootFile L ram elf) (a : Addr) :
    Below (imageReader L ram (img.entry.offset.setWidth 64 + a)) (elf a) := by
  obtain ⟨rootPt, p1, p2, c, i, mid, entry, ha, hk, hp, he, rfl⟩ := h
  exact img.file_found ha hk hp he a

theorem trees_running (hu : (st.processTable i).state ≠ .unused) (console : List Byte) :
    trees { ({ st with currentProc := i }.modifyProc i fun p => { p with state := .running }) with
      console := console, satp := st.rootOf i, sscratch := i, sstatus := bootStatus } =
      trees st := by
  have hmoved : Benign st { st with currentProc := i } := benign_same rfl rfl
  have hrun := hmoved.trans (benign_state { st with currentProc := i } i
    (f := fun p => { p with state := .running }) hu (by simp) rfl rfl rfl)
  exact hrun.trees_eq

theorem installed (h : kmain L ram = .ok st) : ∃ elf phoff phnum start pl maxEnd,
    Plan elf phoff phnum start pl maxEnd ∧ Installed L st pl start maxEnd ∧ BootFile L ram elf ∧
    ∀ img : InitImage L ram,
      pl = img.placements ∧ start = img.start ∧ maxEnd = img.maxEnd := by
  obtain ⟨rootPt, p1, p2, c, ha, hk, hstart⟩ := kmain_result h
  have hboot := bootTree ha hk
  have hsound := sound_mapped ha hk c
  cases hstart with
  | started i mid fin entry console hp he hl =>
    have hmid := sound_allocProc hsound hp
    obtain ⟨root, stack, hsp⟩ := hp.spawned hsound
    obtain ⟨phoff, phnum, start, page, maxEnd, q1, q2, hl⟩ := loadElf_true hl
    have hused : (mid.processTable i).state ≠ .unused := by simp [hsp.process]
    obtain ⟨pl, hpl, hreal, hstack⟩ := hl.placed hmid.owned (hmid.root hused)
    have hplan : Plan (fun a => diskByte L mid (entry.offset.setWidth 64 + a)) phoff phnum start
        pl maxEnd := ⟨hl.magic, hl.phoff_eq, hl.phnum_eq, hl.entry_eq, hpl⟩
    refine ⟨_, phoff, phnum, start, pl, maxEnd, hplan, ?_,
      ⟨rootPt, p1, p2, c, i, mid, entry, ha, hk, hp, he, rfl⟩, fun img => ?_⟩
    · have hready : (fin.processTable i).state ≠ .unused := by
        rw [hl.process]
        exact hused
      have htrees := (trees_running hready console).trans hl.trees_eq
      have hroot : (trees mid).root i = some root := by
        rw [hsp.trees_eq, withExtra_root, withRoot_self]
      have hcount1 := freeFrames_initPmm L ram
      have hcount2 := hboot.count
      have hcount3 : freeFrames mid.phys + 70 = freeFrames p2 := hsp.memory.count
      constructor
      · refine ⟨mid.phys, q1, page, ?_⟩
        rw [htrees]
        refine ⟨hmid.owned, fun q => ?_, ?_, by omega, hreal, hstack⟩
        · have hentry := hsp.memory.entries q
          rw [← hentry]
          exact congrArg (fun r => Lazux.entry mid.phys.mem r q) hroot
        · rw [← hsp.memory.tables]
          apply tableSet_congr
          exact hroot.trans (withRoot_self _ _ _).symm
      · simp [KState.frameOf, KState.modifyProc, hl.process]
      · simp [KState.current, KState.modifyProc, hl.process]
      · simp [KState.current, KState.modifyProc, hl.process]
    · exact hplan.unique (img.plan.below (img.file_found ha hk hp he))

theorem Installed.frames (h : Installed L st pl start maxEnd) :
    freeFrames st.phys + (tableSet st.phys (trees st) st.currentProc).card + pl.length + 140 =
      ramLast - L.protectedEnd + 68 := by
  obtain ⟨p0, p1, page, ho, -, htables, hcount, hreal, hstack⟩ := h.memory
  have hcard := kernelTables_card
  have h1 := hreal.grows.count
  rw [htables] at h1
  cases hstack with
  | mapped hp hf =>
    have h2 := hp.grows.count
    omega
  | lost T hT hp hfull =>
    have h2 := hp.grows.count
    omega

/-- The tables of the kernel, of the image and of the stack. -/
theorem Installed.tables (h : Installed L st pl start maxEnd) :
    tableSet st.phys (trees st) st.currentProc ⊆
      kernelTables ∪ tablesOf (pl.map (·.page)) ∪ (pageNo userStackBase).tables := by
  obtain ⟨p0, p1, page, ho, -, htables, hcount, hreal, hstack⟩ := h.memory
  have h1 := hreal.grows.tables
  rw [htables] at h1
  cases hstack with
  | mapped hp hf => rw [hp.grows.tables, h1]
  | lost T hT hp hfull =>
    rw [hp.grows.tables, h1]
    exact Finset.union_subset_union_right hT

/-- The tables of the image and of the stack are at most two for each of their pages. -/
theorem Installed.tables_card (h : Installed L st pl start maxEnd) :
    (tableSet st.phys (trees st) st.currentProc).card ≤ 2 * pl.length + 70 := by
  have hsub := Finset.card_le_card h.tables
  have h1 := Finset.card_union_le (kernelTables ∪ tablesOf (pl.map (·.page)))
    (pageNo userStackBase).tables
  have h2 := Finset.card_union_le kernelTables (tablesOf (pl.map (·.page)))
  have h3 := tablesOf_card (pl.map (·.page))
  have h4 : (pageNo userStackBase).tables.card ≤ 2 := Finset.card_le_two
  rw [List.length_map] at h3
  rw [kernelTables_card] at h2
  omega

theorem Installed.small_frames (h : Installed smallLayout st pl start maxEnd) :
    32110 ≤ freeFrames st.phys + 3 * pl.length := by
  have hframes := h.frames
  have hcard := h.tables_card
  rw [small_room] at hframes
  omega

theorem Installed.fits (h : Installed L st pl start maxEnd) {l : List Placement}
    (hroom : 3 * l.length + 3 * pl.length + 142 ≤ ramLast - L.protectedEnd) :
    Fits (trees st) st.currentProc l st.phys := by
  have hframes := h.frames
  have hcard := h.tables_card
  have h5 := tablesOf_card (l.map (·.page))
  have h6 := Finset.card_union_le (tableSet st.phys (trees st) st.currentProc)
    (tablesOf (l.map (·.page)))
  rw [List.length_map] at h5
  unfold Fits
  omega

theorem Installed.entry_cases (h : Installed L st pl start maxEnd) (q : PageNo) :
    entryOf st st.currentProc q = (kernelEntry L q).getD 0 ∨
      ∃ n flags, entryOf st st.currentProc q = userWord n flags ∧
        (q = pageNo userStackBase ∧ flags = pteU ||| pteR ||| pteW ∨
          ∃ x ∈ pl, x.page = q ∧ x.flags = flags) := by
  obtain ⟨p0, p1, page, ho, hkernel, htables, hcount, hreal, hstack⟩ := h.memory
  have hcases := loaded_entry hreal hstack q
  rw [hkernel] at hcases
  exact hcases

theorem Installed.entry_page (h : Installed L st pl start maxEnd) (hnd : (pl.map (·.page)).Nodup)
    {x : Placement} (hx : x ∈ pl) (hq : x.page ≠ pageNo userStackBase) :
    ∃ n, entryOf st st.currentProc x.page = userWord n x.flags := by
  obtain ⟨p0, p1, page, -, -, -, -, hreal, hstack⟩ := h.memory
  obtain ⟨n, -, he⟩ := hreal.present _ _ (lastAt_of_nodup hnd hx)
  refine ⟨n, ?_⟩
  rw [entryOf, hstack.entry_of_ne hq]
  exact he

theorem kernelEntry_leaf (h : hasFlag ((kernelEntry L q).getD 0) pteV) :
    isLeaf ((kernelEntry L q).getD 0) := by
  cases he : kernelEntry L q with
  | none =>
    rw [he] at h
    simp at h
  | some w =>
    obtain ⟨flags, hf, rfl⟩ := Option.map_eq_some_iff.mp he
    rw [Option.getD_some, isLeaf, identity_readable (kernelFlags_some hf).1]
    rfl

theorem Installed.accessible (h : Installed L st pl start maxEnd) (hpl : ∀ x ∈ pl, isLeaf x.flags)
    (hv : hasFlag (entryOf st st.currentProc q) pteV) : isLeaf (entryOf st st.currentProc q) := by
  rcases h.entry_cases q with hk | ⟨n, flags, he, hflags⟩
  · rw [hk] at hv ⊢
    exact kernelEntry_leaf hv
  · rw [he]
    apply isLeaf_userWord
    rcases hflags with ⟨-, rfl⟩ | ⟨x, hx, -, rfl⟩
    · decide
    · exact hpl x hx

/-! ## Images of one segment -/

def le8 (w : Word) : List Byte := (List.range 8).map fun k => (w >>> (8 * k)).setWidth 8

/-- A RAMDISK whose `init.elf` has one segment, of one page at `va`, of which `filesz` bytes
come from the start of the file. -/
def segmentDisk (va filesz : Word) : List Byte :=
  [0x55, 0x5A, 0x41, 0x4C, 1, 0, 0, 0] ++ initName ++ List.replicate 24 0 ++
    [48, 0, 0, 0, 120, 0, 0, 0] ++
    [0x7F, 0x45, 0x4C, 0x46] ++ List.replicate 20 0 ++ le8 0x400000 ++ le8 64 ++
    List.replicate 16 0 ++ [1, 0, 0, 0, 0, 0, 0, 0] ++
    [1, 0, 0, 0, 6, 0, 0, 0] ++ le8 0 ++ le8 va ++ le8 0 ++ le8 filesz ++ le8 4096 ++ le8 0

def segmentRam (va filesz : Word) : Memory :=
  fun f o => if f = 0x80201 then (segmentDisk va filesz).getD o.val 0 else 0

section OnePage

variable {perm off va filesz : Word} {content : Page} {flags : Word}

theorem page_plan (hc : copyIn elf off (copySize ⟨1, perm, off, va, filesz, 4096⟩ 0) = .ok content)
    (hflags : segmentFlags ⟨1, perm, 0, 0, 0, 0⟩ = flags) :
    planPages elf ⟨1, perm, off, va, filesz, 4096⟩ (pageSteps 0 4096) =
      .ok [⟨pageNo va, content, flags⟩] := by
  have hsteps : pageSteps 0 4096 = [0] := by decide
  have hsame : segmentFlags ⟨1, perm, off, va, filesz, 4096⟩ = flags := hflags
  have hzero : ∀ a : Word, a + 0 = a := BitVec.add_zero
  simp only [planPages, hsteps, hzero, hc, hsame, bind, Except.bind, pure, Except.pure]

theorem segments_plan {a m maxEnd : Addr} {as : List Addr} {pl : List Placement}
    (hph : readPhdr elf a = .ok (some ⟨1, perm, off, va, filesz, 4096⟩))
    (hc : copyIn elf off (copySize ⟨1, perm, off, va, filesz, 4096⟩ 0) = .ok content)
    (hflags : segmentFlags ⟨1, perm, 0, 0, 0, 0⟩ = flags) (hva : maxEnd < va + 4096)
    (hrest : planSegments elf as (va + 4096) = .ok (pl, m)) :
    planSegments elf (a :: as) maxEnd = .ok (⟨pageNo va, content, flags⟩ :: pl, m) := by
  simp only [planSegments, hph, page_plan hc hflags, bind, Except.bind, pure, Except.pure,
    if_pos hva,
    hrest, List.singleton_append]

theorem segment_plan (hph : readPhdr elf 64 = .ok (some ⟨1, perm, off, va, filesz, 4096⟩))
    (hc : copyIn elf off (copySize ⟨1, perm, off, va, filesz, 4096⟩ 0) = .ok content)
    (hflags : segmentFlags ⟨1, perm, 0, 0, 0, 0⟩ = flags) (hva : 0 < va + 4096) :
    planSegments elf (phdrAddrs 64 1) 0 = .ok ([⟨pageNo va, content, flags⟩], va + 4096) := by
  have haddrs : phdrAddrs 64 1 = [64] := by decide
  rw [haddrs]
  exact segments_plan hph hc hflags hva rfl

end OnePage

/-- A page needs two tables at most besides the kernel's. -/
theorem pages_fit (pl : List Placement) (h : pl.length ≤ 1000) :
    (kernelTables ∪ tablesOf (pl.map (·.page))).card + pl.length + 140 ≤
      ramLast - smallLayout.protectedEnd + 68 := by
  have hunion := Finset.card_union_le kernelTables (tablesOf (pl.map (·.page)))
  have htables := tablesOf_card (pl.map (·.page))
  rw [kernelTables_card] at hunion
  rw [List.length_map] at htables
  rw [small_room]
  omega

theorem small_read {a : Addr} (h : a.toNat < 4096) :
    imageReader smallLayout ram a = .ok (ram 0x80201 ⟨a.toNat, h⟩) := by
  have hstart : smallLayout.ramdiskStart.toNat = 0x80201000 := rfl
  have hsum : (smallLayout.ramdiskStart + a).toNat = 0x80201000 + a.toNat := by
    rw [BitVec.toNat_add, hstart]
    omega
  have hframe : frame (smallLayout.ramdiskStart + a) = 0x80201 := by
    rw [frame, hsum]
    omega
  have hoff : offset (smallLayout.ramdiskStart + a) = ⟨a.toNat, h⟩ := by
    apply Fin.ext
    show (smallLayout.ramdiskStart + a).toNat % 4096 = a.toNat
    omega
  have hin : textStart ≤ 0x80201 ∧ 0x80201 < smallLayout.protectedEnd := by decide
  rw [imageReader, hframe, if_pos hin, Memory.byte, hframe, hoff]

/-- The bytes of a file that lies behind a directory of one entry. -/
theorem small_file {disk : List Byte} (hram : ∀ o, ram 0x80201 o = disk.getD o.val 0) {a : Addr}
    (h : a.toNat < 4048) :
    imageReader smallLayout ram ((48 : BitVec 32).setWidth 64 + a) =
      .ok (disk.getD (48 + a.toNat) 0) := by
  have h48 : ((48 : BitVec 32).setWidth 64).toNat = 48 := rfl
  have hsum : ((48 : BitVec 32).setWidth 64 + a).toNat = 48 + a.toNat := by
    rw [BitVec.toNat_add, h48]
    omega
  rw [small_read (by omega), hram]
  simp only [hsum]

/-- A RAMDISK whose `init.elf` has its own name in the page it loads. -/
def selfDisk : List Byte :=
  [0x55, 0x5A, 0x41, 0x4C, 1, 0, 0, 0] ++ initName ++ List.replicate 24 0 ++
    [48, 0, 0, 0, 120, 0, 0, 0] ++
    [0x7F, 0x45, 0x4C, 0x46, 0, 0, 0, 0] ++ initName ++ List.replicate 8 0 ++
    le8 0x400000 ++ le8 64 ++
    List.replicate 16 0 ++ [1, 0, 0, 0, 0, 0, 0, 0] ++
    [1, 0, 0, 0, 6, 0, 0, 0] ++ le8 0 ++ le8 0x400000 ++ le8 0 ++ le8 24 ++ le8 4096 ++ le8 0

def selfRam : Memory := fun f o => if f = 0x80201 then selfDisk.getD o.val 0 else 0

def selfFile (a : Addr) : Except Stop Byte :=
  imageReader smallLayout selfRam ((48 : BitVec 32).setWidth 64 + a)

theorem selfFile_ok {k : ℕ} (hk : k < 24) : ∃ b, selfFile (0 + BitVec.ofNat 64 k) = .ok b := by
  have hall : ∀ k : Fin 24, (selfFile (0 + BitVec.ofNat 64 k.val)).isOk = true := by decide
  have hok := hall ⟨k, hk⟩
  cases hb : selfFile (0 + BitVec.ofNat 64 k) with
  | ok b => exact ⟨b, rfl⟩
  | error e =>
    dsimp only at hok
    rw [hb] at hok
    cases hok

def selfPage : Page := (copyIn selfFile 0 24).toOption.getD Page.zero

def selfName : Addr := 0x400008

def selfImage : InitImage smallLayout selfRam where
  entry := ⟨48, 120⟩
  phoff := 64
  phnum := 1
  start := 0x400000
  placements := [⟨pageNo 0x400000, selfPage, pteU ||| pteR ||| pteW⟩]
  maxEnd := 0x401000
  found := by rfl
  plan := ⟨by rfl, by rfl, by rfl, by rfl, segment_plan (by rfl) (by rfl) (by decide) (by decide)⟩
  fits := pages_fit _ (by decide)

end Lazux

import Lazux.Execute

/-! # The machine comes up

With enough memory and a proper RAMDISK `kmain` reaches the first process. -/
namespace Lazux

open PagedMemory RadixForest Run

section Identity

variable {ι : Type*} {H : Forest ι} {p p' : Phys} {lo : ℕ} {i : ι} {root : ℕ} {L : Layout}

theorem canonical_of_lt {va : Addr} (h : va.toNat < 2 ^ 38) : Canonical va := by
  apply BitVec.eq_of_toNat_eq
  have hm : (va.setWidth 39).toNat = va.toNat := by
    rw [BitVec.toNat_setWidth]
    exact Nat.mod_eq_of_lt (by omega)
  have hmsb : (va.setWidth 39).msb = false := by
    rw [BitVec.msb_eq_decide, hm]
    simpa using h
  rw [BitVec.signExtend_eq_setWidth_of_msb_false hmsb, BitVec.toNat_setWidth, hm]
  exact Nat.mod_eq_of_lt (by omega)

theorem identity_writable {n : ℕ} {flags : Word} :
    hasFlag (identity n flags) pteW = hasFlag flags pteW := by
  rw [hasFlag_identity (by norm_num) hasFlag_pteW, hasFlag_pteW, hasFlag_pteW, BitVec.getLsbD_or]
  have : pteV.getLsbD 2 = false := by decide
  rw [this, Bool.or_false]

theorem hardwareLeaf_identity {n : ℕ} {flags : Word} (hf : KernelFlags flags) :
    HardwareLeaf (identity n flags) :=
  ⟨identity_valid n flags, Or.inl (identity_readable hf), fun _ => identity_readable hf⟩

/-- The kernel reaches a page it has mapped to itself where it expects it. -/
theorem kernelTranslate_identity (ho : Owned lo H p) (hr : H.root i = some root) {va : Addr}
    (hva : va.toNat < 2 ^ 38) {flags : Word} (hf : KernelFlags flags)
    (he : entry p.mem (some root) (pageNo va) = identity (pageNo va).number flags) {acc : Access}
    (hacc : acc = .write → hasFlag flags pteW) (sum : Bool) :
    kernelTranslate p.mem root sum acc va = some va := by
  have hnum : (pageNo va).number = va.toNat / 4096 := by
    rw [number_pageNo]
    omega
  have hframe : frame (pteToPa (identity (pageNo va).number flags)) = va.toNat / 4096 := by
    rw [identity, BitVec.or_assoc, frame_pteToPa_or _ hf.small, hnum, frame_pageAddr (by omega)]
  rw [kernelTranslate_iff (ho.threeLevel hr), he]
  refine ⟨canonical_of_lt hva, hardwareLeaf_identity hf, fun hu => ?_, ?_, ?_⟩
  · rw [identity_user hf] at hu
    cases hu
  · cases acc with
    | read => exact identity_readable hf
    | write =>
      rw [permits, identity_writable]
      exact hacc rfl
  · apply BitVec.eq_of_toNat_eq
    rw [leafPa_toNat, hframe]
    omega

theorem kernelEntry_ram (L : Layout) {q : PageNo} (h1 : textStart ≤ q.number)
    (h2 : q.number < ramLast) :
    ∃ flags, KernelFlags flags ∧ kernelEntry L q = some (identity q.number flags) := by
  have hpage : KernelPage q.number := Or.inr (Or.inr ⟨h1, h2⟩)
  cases hf : kernelFlags L q.number with
  | none =>
    unfold kernelFlags at hf
    rw [if_pos hpage] at hf
    split_ifs at hf
  | some flags => exact ⟨flags, (kernelFlags_some hf).1, by rw [kernelEntry, hf]; rfl⟩

/-- The kernel reaches a page of RAM that has its own entry. -/
theorem kernelTranslate_ram (ho : Owned lo H p) (hr : H.root i = some root) {va : Addr}
    (h1 : textStart ≤ frame va) (h2 : frame va < ramLast)
    (he : entry p.mem (some root) (pageNo va) = (kernelEntry L (pageNo va)).getD 0) (sum : Bool) :
    kernelTranslate p.mem root sum .read va = some va := by
  have hva : va.toNat < 2 ^ 38 := by
    simp only [frame, ramLast] at h2
    omega
  have hnum : (pageNo va).number = frame va := by
    rw [number_pageNo, frame]
    omega
  obtain ⟨flags, hf, hk⟩ := kernelEntry_ram L (q := pageNo va) (by rwa [hnum]) (by rwa [hnum])
  rw [hk, Option.getD_some] at he
  exact kernelTranslate_identity ho hr hva hf he (by simp) sum

/-- The pages of RAM have the kernel's entries. -/
def MapsRam (L : Layout) (m : Memory) (root : ℕ) : Prop :=
  ∀ q : PageNo, textStart ≤ q.number → q.number < ramLast →
    entry m (some root) q = (kernelEntry L q).getD 0

theorem MapsRam.translate (h : MapsRam L p.mem root) (ho : Owned lo H p) (hr : H.root i = some root)
    {va : Addr} (h1 : textStart ≤ frame va) (h2 : frame va < ramLast) (sum : Bool) :
    kernelTranslate p.mem root sum .read va = some va := by
  have hnum : (pageNo va).number = frame va := by
    simp only [frame, ramLast] at h2
    rw [number_pageNo, frame]
    omega
  exact kernelTranslate_ram ho hr h1 h2 (h (pageNo va) (by rwa [hnum]) (by rwa [hnum])) sum

theorem MapsRam.kernelMapped (h : MapsRam L p.mem root) (ho : Owned lo H p)
    (hr : H.root i = some root) : KernelMapped p.mem root := by
  intro f h1 h2
  have hf : frame (pageAddr f) = f := frame_pageAddr (by simp only [ramLast] at h2; omega)
  exact h.translate ho hr (by rwa [hf]) (by rwa [hf]) false

end Identity

section Returns

variable {L : Layout} {ram : Memory} {st mid : KState} {child : Slot}

/-- The frames of RAM below `n` are in use, the others free. -/
def TakenBelow (n : ℕ) (p : Phys) : Prop := ∀ f, InRam f → (InUse p f ↔ f < n)

theorem takenBelow_init (L : Layout) (ram : Memory) :
    TakenBelow L.protectedEnd (initPmm L ram) := by
  intro f hf
  rw [inUse_initPmm]
  exact and_iff_right hf

theorem TakenBelow.count {p : Phys} {n : ℕ} (h : TakenBelow n p) (hn : ramFirst ≤ n) :
    freeFrames p = ramLast - n := by
  have hfree : ∀ i < totalPages, Bitset.test p.bitmap i = false ↔ n - ramFirst ≤ i := by
    intro i hi
    have hram : InRam (ramFirst + i) := by
      simp only [totalPages, physicalRamSize] at hi
      simp only [InRam, ramFirst, ramLast]
      omega
    have huse := h _ hram
    rw [InUse, Nat.add_sub_cancel_left] at huse
    simp only [hram, true_and] at huse
    rw [← Bool.not_eq_true, huse]
    omega
  have heq : (Finset.range totalPages).filter (fun i => Bitset.test p.bitmap i = false) =
      Finset.Ico (n - ramFirst) totalPages := by
    ext i
    rw [Finset.mem_filter, Finset.mem_range, Finset.mem_Ico, and_comm]
    exact and_congr_left fun hi => hfree i hi
  rw [freeFrames, Bitset.clearCount, heq, Nat.card_Ico]
  simp only [totalPages, physicalRamSize, ramFirst, ramLast] at hn ⊢
  omega

theorem ramFirst_le_protectedEnd (L : Layout) : ramFirst ≤ L.protectedEnd := by
  have h1 := L.text_le
  have h2 := L.rodata_le
  have h3 := L.data_le
  simp only [Layout.protectedEnd, textStart, ramFirst] at *
  omega

theorem freeFrames_initPmm (L : Layout) (ram : Memory) :
    freeFrames (initPmm L ram) = ramLast - L.protectedEnd :=
  (takenBelow_init L ram).count (ramFirst_le_protectedEnd L)

theorem pmmAllocPage_returns {p : Phys} (h : 0 < freeFrames p) :
    ∃ n p', pmmAllocPage p = (some n, p') := by
  rcases ha : pmmAllocPage p with ⟨_ | n, p'⟩
  · have := pmmAllocPage_none.mp (show (pmmAllocPage p).1 = none by rw [ha])
    omega
  · exact ⟨n, p', rfl⟩

theorem allocProc_returns (hs : Sound L st) (hslot : ∃ i, (st.processTable i).state = .unused)
    (hfree : 70 ≤ freeFrames st.phys) : ∃ child mid, allocProc L st = .ok (some child, mid) := by
  unfold allocProc
  cases hf : (List.finRange 64).find? fun i => (st.processTable i).state = .unused with
  | none =>
    obtain ⟨i, hi⟩ := hslot
    have := List.find?_eq_none.mp hf i (List.mem_finRange i)
    simp [hi] at this
  | some i =>
    have hu : (st.processTable i).state = .unused := by simpa using List.find?_some hf
    obtain ⟨root, p1, ha⟩ := pmmAllocPage_returns (p := st.phys) (by omega)
    have hmeets := kernelTree (L := L) hs.owned (trees_unused hu).1 ha
    obtain ⟨p2, hk⟩ := hmeets.returns (by omega)
    have hcount := (hmeets.ensures p2 hk).count
    obtain ⟨stack, p3, hb⟩ := pmmAllocPage_returns (p := p2) (by omega)
    simp only [KState.modifyProc, ha]
    rw [hk]
    simp only [ok_bind, hb]
    exact ⟨i, _, rfl⟩

end Returns

section Readers

variable {r r' s s' : Addr → Except Stop Byte}

theorem readLe_below (h : ∀ a, Below (r a) (r' a)) (a : Addr) (n : ℕ) :
    Below (readLe r a n) (readLe r' a n) := by
  induction n generalizing a with
  | zero => exact .refl _
  | succ n ih => exact (h a).bind fun low => (ih (a + 1)).bind fun high => .refl _

theorem streq_below (h : ∀ a, Below (r a) (r' a)) (h' : ∀ a, Below (s a) (s' a)) (a b : Addr)
    (n : ℕ) : Below (streq r s a b n) (streq r' s' a b n) := by
  induction n generalizing a b with
  | zero => exact .refl _
  | succ n ih =>
    exact (h a).bind fun x => (h' b).bind fun y =>
      below_ite (below_ite (.refl _) (ih (a + 1) (b + 1))) (.refl _)

theorem findEntry_below (h : ∀ a, Below (r a) (r' a)) (h' : ∀ a, Below (s a) (s' a)) (name : Addr)
    (len n i : ℕ) : Below (findEntry r s name len n i) (findEntry r' s' name len n i) := by
  induction n generalizing i with
  | zero => exact .refl _
  | succ n ih =>
    exact (streq_below h h' _ _ _).bind fun found => below_ite
      ((readLe_below h _ _).bind fun offset => (readLe_below h _ _).bind fun size => .refl _)
      (ih (i + 1))

theorem ramdiskGetEntry_below (h : ∀ a, Below (r a) (r' a)) (h' : ∀ a, Below (s a) (s' a))
    (name : Addr) (len : ℕ) :
    Below (ramdiskGetEntry r s name len) (ramdiskGetEntry r' s' name len) :=
  (readLe_below h _ _).bind fun _ => below_ite (.refl _)
    ((readLe_below h _ _).bind fun _ => findEntry_below h h' _ _ _ _)

theorem readPhdr_below (h : ∀ a, Below (r a) (r' a)) (a : Addr) :
    Below (readPhdr r a) (readPhdr r' a) :=
  (readLe_below h _ _).bind fun _ => below_ite (.refl _)
    ((readLe_below h _ _).bind fun _ => (readLe_below h _ _).bind fun _ =>
      (readLe_below h _ _).bind fun _ => (readLe_below h _ _).bind fun _ =>
        (readLe_below h _ _).bind fun _ => .refl _)

theorem copyIn_below (h : ∀ a, Below (r a) (r' a)) (src : Addr) (n : ℕ) :
    Below (copyIn r src n) (copyIn r' src n) := by
  induction n with
  | zero => exact .refl _
  | succ n ih => exact ih.bind fun page => (h _).bind fun b => .refl _

theorem planPages_below (h : ∀ a, Below (r a) (r' a)) (ph : Phdr) (cs : List Word) :
    Below (planPages r ph cs) (planPages r' ph cs) := by
  induction cs with
  | nil => exact .refl _
  | cons c rest ih => exact (copyIn_below h _ _).bind fun content => ih.bind fun later => .refl _

theorem planSegments_below (h : ∀ a, Below (r a) (r' a)) (as : List Addr) (maxEnd : Addr) :
    Below (planSegments r as maxEnd) (planSegments r' as maxEnd) := by
  induction as generalizing maxEnd with
  | nil => exact .refl _
  | cons a rest ih =>
    refine (readPhdr_below h a).bind fun o => ?_
    cases o with
    | none => exact ih maxEnd
    | some ph => exact (planPages_below h ph _).bind fun pages => (ih _).bind fun later => .refl _

end Readers

section Load

variable {ι : Type*} [DecidableEq ι] {K : Forest ι} {x : ι} {lo : ℕ} {st : KState} {i : Slot}
  {elf : Addr → Except Stop Byte} {phoff phnum start : ℕ} {pl : List Placement} {maxEnd : Addr}

theorem Plan.below {elf' : Addr → Except Stop Byte} (h : ∀ a, Below (elf a) (elf' a))
    (hp : Plan elf phoff phnum start pl maxEnd) : Plan elf' phoff phnum start pl maxEnd :=
  ⟨readLe_below h _ _ _ hp.magic, readLe_below h _ _ _ hp.phoff_eq,
    readLe_below h _ _ _ hp.phnum_eq,
    readLe_below h _ _ _ hp.start_eq, planSegments_below h _ _ _ hp.segments⟩

/-- An image that can be read is loaded if its pages and one for the stack are there. -/
theorem loadElf_returns (hp : Plan elf phoff phnum start pl maxEnd) (ho : Owned lo K st.phys)
    (hr : K.root x = some (st.rootOf i))
    (hfree : (tableSet st.phys K x ∪ tablesOf (pl.map (·.page))).card + pl.length + 1 ≤
      freeFrames st.phys + (tableSet st.phys K x).card) :
    ∃ st', loadElf st i elf = .ok (true, st') := by
  have hfit : Fits K x pl st.phys := by
    unfold Fits
    omega
  obtain ⟨p1, hseg⟩ := loadSegments_returns ho hr hp.segments hfit
  obtain ⟨pl', hpl', hreal⟩ := loadSegments_ensures ho hr _ 0 _ hseg rfl
  obtain rfl : pl = pl' := by
    have := hp.segments.symm.trans hpl'
    simp only [Except.ok.injEq, Prod.mk.injEq] at this
    exact this.1
  have hcount := hreal.grows.count
  rw [hreal.grows.tables] at hcount
  obtain ⟨page, p2, ha⟩ := pmmAllocPage_returns (p := p1) (by dsimp only at hcount; omega)
  have hload : Succeeds (loadElf st i elf) fun r => r.1 = true := by
    unfold loadElf
    refine succeeds_bind hp.magic ?_
    rw [if_neg (by simp)]
    refine succeeds_bind hp.phoff_eq (succeeds_bind hp.phnum_eq (succeeds_bind hseg
      (succeeds_bind hp.start_eq ?_)))
    simp only [KState.setFrame, KState.modifyProc, ha]
    exact ⟨_, rfl, rfl⟩
  obtain ⟨⟨ok, st'⟩, hok, rfl⟩ := hload
  exact ⟨st', hok⟩

end Load

section Boot

variable {L : Layout} {ram : Memory} {st mid : KState}

/-- The RAMDISK as the boot loader left it, as far as it lies in the kernel image. -/
def imageReader (L : Layout) (ram : Memory) (a : Addr) : Except Stop Byte :=
  if textStart ≤ frame (L.ramdiskStart + a) ∧ frame (L.ramdiskStart + a) < L.protectedEnd then
    .ok (ram.byte (L.ramdiskStart + a))
  else .error (.fault (L.ramdiskStart + a))

/-- An `init.elf` that can be read as an image, with frames for its pages and their tables. -/
structure InitImage (L : Layout) (ram : Memory) where
  entry : RamdiskEntry
  phoff : ℕ
  phnum : ℕ
  start : ℕ
  placements : List Placement
  maxEnd : Addr
  found : ramdiskGetEntry (imageReader L ram) (constByte initName) 0 9 = .ok (some entry)
  plan : Plan (fun a => imageReader L ram (entry.offset.setWidth 64 + a)) phoff phnum start
    placements maxEnd
  fits : (kernelTables ∪ tablesOf (placements.map (·.page))).card + placements.length + 140 ≤
    ramLast - L.protectedEnd + 68

theorem Owned.extend {ι : Type*} {H : Forest ι} {p p' : Phys} {lo : ℕ} (h : Owned lo H p)
    (hu : ∀ f, InUse p f → InUse p' f) (hm : ∀ f, InUse p f → p'.mem f = p.mem f) :
    Owned lo H p' ∧ held p' H = held p H ∧
      ∀ i q, entry p'.mem (H.root i) q = entry p.mem (H.root i) q := by
  have htab : ∀ f, ¬ NotTable p H f → p'.mem f = p.mem f := by
    intro f hf
    simp only [NotTable, not_forall, not_not] at hf
    obtain ⟨i, path, -, hpath⟩ := hf
    exact hm f (h.inUse _ f hpath).1
  exact ⟨h.congr htab hu, held_congr htab, entry_congr htab⟩

theorem Owned.translate_extend {ι : Type*} {H : Forest ι} {p p' : Phys} {lo root : ℕ} {i : ι}
    (h : Owned lo H p) (hr : H.root i = some root) (hu : ∀ f, InUse p f → InUse p' f)
    (hm : ∀ f, InUse p f → p'.mem f = p.mem f) (sum : Bool) (acc : Access) (va : Addr) :
    kernelTranslate p'.mem root sum acc va = kernelTranslate p.mem root sum acc va := by
  obtain ⟨hext, -, hentries⟩ := h.extend hu hm
  have he := hentries i (pageNo va)
  rw [hr] at he
  ext pa
  rw [kernelTranslate_iff (hext.threeLevel hr), kernelTranslate_iff (h.threeLevel hr), he]

theorem AllocProc.fields {r : Option Slot} (h : AllocProc L st r mid) :
    mid.satp = st.satp ∧ mid.sstatus = st.sstatus ∧ mid.currentProc = st.currentProc := by
  cases h <;> exact ⟨rfl, rfl, rfl⟩

theorem enableMmu_returns {rootPt : ℕ} {p1 p2 : Phys}
    (ha : pmmAllocPage st.phys = (some rootPt, p1))
    (hk : vmmMapKernel L rootPt (p1.zeroPage rootPt) = .ok p2) :
    ∃ c, enableMmu L st = .ok { st with phys := p2, satp := rootPt, console := c } := by
  have hrun : Succeeds (enableMmu L st) fun _ => True := by
    unfold enableMmu
    rw [ha]
    refine succeeds_bind hk ?_
    obtain ⟨c1, h1⟩ := puts_eq { st with phys := p2 } "Kernel mapped successfully!\n"
    obtain ⟨c2, h2⟩ := puts_eq { st with phys := p2, console := c1 } "Flipping the MMU switch...\n"
    rw [h1, h2]
    exact ⟨_, rfl, trivial⟩
  obtain ⟨s, hs, -⟩ := hrun
  obtain ⟨rootPt', p1', p2', c, ha', hk', rfl⟩ := enableMmu_result hs
  rw [ha] at ha'
  cases ha'
  rw [hk] at hk'
  cases hk'
  exact ⟨c, hs⟩

/-- The RAMDISK is read through the kernel's mapping of itself. -/
theorem imageReader_below {H : Forest Slot} {lo root : ℕ} {i : Slot} (ho : Owned lo H st.phys)
    (hr : H.root i = some root) (hsatp : st.satp = root)
    (hm : ∀ q : PageNo, textStart ≤ q.number → q.number < L.protectedEnd →
      entry st.phys.mem (some root) q = (kernelEntry L q).getD 0)
    (hmem : ∀ f, InUse (initPmm L ram) f → st.phys.mem f = ram f) (a : Addr) :
    Below (imageReader L ram a) (diskByte L st a) := by
  intro b hb
  unfold imageReader at hb
  split_ifs at hb with hc
  cases hb
  have h4 := L.end_lt
  have hlast : frame (L.ramdiskStart + a) < ramLast := by
    simp only [Layout.protectedEnd] at hc
    omega
  have hnum : (pageNo (L.ramdiskStart + a)).number = frame (L.ramdiskStart + a) := by
    rw [number_pageNo, frame]
    simp only [frame, ramLast] at hlast
    omega
  have hentry :=
    hm (pageNo (L.ramdiskStart + a)) (by rw [hnum]; exact hc.1) (by rw [hnum]; exact hc.2)
  have hpage := hmem (frame (L.ramdiskStart + a)) ((inUse_initPmm L ram _).mpr
    ⟨⟨by simp only [ramFirst, textStart] at *; omega, hlast⟩, hc.2⟩)
  rw [diskByte, KState.load, kernelLoad, hsatp, kernelTranslate_ram ho hr hc.1 hlast hentry]
  simp only [Memory.byte, hpage]

theorem mapped_maps {rootPt : ℕ} {p1 p2 p : Phys}
    (ha : pmmAllocPage (initPmm L ram) = (some rootPt, p1))
    (hk : vmmMapKernel L rootPt (p1.zeroPage rootPt) = .ok p2)
    (hu : ∀ f, InUse p2 f → InUse p f) (hm : ∀ f, InUse p2 f → p.mem f = p2.mem f) :
    Owned L.protectedEnd
        (withRoot (⟨fun _ => none, fun _ => none⟩ : Forest Slot) 0 (some rootPt)) p ∧
      MapsRam L p.mem rootPt := by
  have hboot := bootTree ha hk
  obtain ⟨hext, -, hent⟩ := hboot.owned.extend hu hm
  refine ⟨hext, fun q _ _ => ?_⟩
  have := hent 0 q
  rw [withRoot_self] at this
  rw [this]
  exact hboot.entries q

/-- On the kernel's own table the image can be read, also while it takes new frames. -/
theorem mapped_image {rootPt : ℕ} {p1 p2 : Phys} {s : KState}
    (ha : pmmAllocPage (initPmm L ram) = (some rootPt, p1))
    (hk : vmmMapKernel L rootPt (p1.zeroPage rootPt) = .ok p2) (hsatp : s.satp = rootPt)
    (hu : ∀ f, InUse p2 f → InUse s.phys f) (hm : ∀ f, InUse p2 f → s.phys.mem f = p2.mem f)
    (a : Addr) : Below (imageReader L ram a) (diskByte L s a) := by
  have hboot := bootTree ha hk
  obtain ⟨hext, hram⟩ := mapped_maps ha hk hu hm
  have h4 := L.end_lt
  refine imageReader_below hext (withRoot_self _ _ _) hsatp (fun q h1 h2 => hram q h1 ?_)
    (fun f hf => ?_) a
  · simp only [Layout.protectedEnd] at h2
    omega
  rw [hm f (hboot.inUse f hf)]
  exact hboot.mem f hf

theorem mapped_returns (L : Layout) (ram : Memory) (hroom : 70 ≤ ramLast - L.protectedEnd) :
    ∃ rootPt p1 p2 c, pmmAllocPage (initPmm L ram) = (some rootPt, p1) ∧
      vmmMapKernel L rootPt (p1.zeroPage rootPt) = .ok p2 ∧
      enableMmu L ((early L ram).puts "Setting up Virtual Memory...\n") =
        .ok (mapped L ram rootPt p2 c) := by
  have hfree := freeFrames_initPmm L ram
  obtain ⟨rootPt, p1, ha⟩ := pmmAllocPage_returns (p := initPmm L ram) (by omega)
  obtain ⟨p2, hk⟩ := (kernelTree (L := L) (owned_initPmm (ι := Slot) L ram) (i := 0) rfl ha).returns
    (by omega)
  obtain ⟨c, hmmu⟩ :=
    @enableMmu_returns _ ((early L ram).puts "Setting up Virtual Memory...\n") _ _ _
    ha hk
  exact ⟨rootPt, p1, p2, c, ha, hk, hmmu⟩

theorem image_read {rootPt : ℕ} {p1 p2 : Phys} {child : Slot} {c : List Byte}
    (ha : pmmAllocPage (initPmm L ram) = (some rootPt, p1))
    (hk : vmmMapKernel L rootPt (p1.zeroPage rootPt) = .ok p2)
    (hp : AllocProc L (mapped L ram rootPt p2 c) (some child) mid) (a : Addr) :
    Below (imageReader L ram a) (diskByte L mid a) := by
  obtain ⟨root, stack, hsp⟩ := hp.spawned (sound_mapped ha hk c)
  exact mapped_image ha hk hp.fields.1 hsp.memory.inUse hsp.memory.mem a

theorem boot_returns (img : InitImage L ram) : ∃ st, kmain L ram = .ok st := by
  have hfit := img.fits
  have hle : kernelTables.card ≤ (kernelTables ∪ tablesOf (img.placements.map (·.page))).card :=
    Finset.card_le_card Finset.subset_union_left
  rw [kernelTables_card] at hle
  -- the kernel's own table
  have hfree := freeFrames_initPmm L ram
  obtain ⟨rootPt, p1, p2, c, ha, hk, hmmu⟩ := mapped_returns L ram (by omega)
  have hboot := bootTree ha hk
  obtain ⟨c1, h1⟩ := puts_eq (mapped L ram rootPt p2 c) "Initializing Process Subsystem...\n"
  -- the first process
  have hsound := sound_mapped ha hk c1
  have hcount := hboot.count
  obtain ⟨child, mid, hp⟩ := allocProc_returns hsound ⟨0, rfl⟩ (by
    show 70 ≤ freeFrames p2
    omega)
  have hp' := allocProc_result hp
  obtain ⟨root, stack, hsp⟩ := hp'.spawned hsound
  have hmid := hsp.sound hsound hp'
  have hread := image_read ha hk hp'
  have hentry := ramdiskGetEntry_below hread (fun a => .refl (constByte initName a)) 0 9 _ img.found
  have hplan := img.plan.below fun a => hread (img.entry.offset.setWidth 64 + a)
  -- its image
  have hused : (mid.processTable child).state ≠ .unused := by simp [hsp.process]
  have hroot := hmid.root hused
  have hmr : mid.rootOf child = root := by simp [KState.rootOf, hsp.process]
  have htables : tableSet mid.phys (trees mid) child = kernelTables := by
    have := hsp.memory.tables
    rw [hsp.trees_eq, ← this]
    exact tableSet_congr rfl
  have hcount2 := hsp.memory.count
  obtain ⟨fin, hload⟩ := loadElf_returns (i := child) hplan hmid.owned hroot (by
    rw [htables, kernelTables_card]
    have h3 : freeFrames (mapped L ram rootPt p2 c1).phys = freeFrames p2 := rfl
    omega)
  have hrun : Succeeds (kmain L ram) fun _ => True := by
    unfold kmain
    refine succeeds_bind hmmu ?_
    show Succeeds
      (startInit L ((mapped L ram rootPt p2 c).puts "Initializing Process Subsystem...\n")) _
    rw [h1]
    unfold startInit
    refine succeeds_bind hp (succeeds_bind hentry (succeeds_bind hload ?_))
    dsimp only
    set run := { fin with currentProc := child }.modifyProc child fun p =>
      { p with state := .running }
    obtain ⟨c2, h2⟩ := puts_eq run "Timer interrupt armed for 10ms in the future!\n"
    obtain ⟨c3, h3⟩ := puts_eq { run with console := c2 }
      "Jumping to isolated user space at 0x400000...\n"
    rw [h2, h3]
    exact ⟨_, rfl, trivial⟩
  obtain ⟨st, hst, -⟩ := hrun
  exact ⟨st, hst⟩

end Boot

section Small

/-- A kernel image with one page of code and the RAMDISK behind it. -/
def pageLayout (rodataEnd : ℕ) (h : 0x80201 < rodataEnd ∧ rodataEnd + 142 ≤ ramLast) : Layout where
  textEnd := 0x80201
  rodataEnd := rodataEnd
  kernelEnd := rodataEnd + 1
  ramdiskStart := 0x80201000
  text_le := by decide
  rodata_le := le_of_lt h.1
  data_le := Nat.le_succ rodataEnd
  end_lt := lt_of_lt_of_le (Nat.add_lt_add_left (by decide) rodataEnd) h.2
  ramdisk_ge := by decide
  ramdisk_lt := h.1

def smallLayout : Layout := pageLayout 0x80202 (by decide)

theorem small_room : ramLast - smallLayout.protectedEnd = 32252 := by decide

/-- A RAMDISK with an `init.elf` that has no segments. -/
def smallDisk : List Byte :=
  [0x55, 0x5A, 0x41, 0x4C, 1, 0, 0, 0] ++ initName ++ List.replicate 24 0 ++
    [48, 0, 0, 0, 64, 0, 0, 0] ++ [0x7F, 0x45, 0x4C, 0x46] ++ List.replicate 20 0 ++ [0, 0, 0x40]

def smallRam : Memory := fun f o => if f = 0x80201 then smallDisk.getD o.val 0 else 0

def smallImage : InitImage smallLayout smallRam where
  entry := ⟨48, 64⟩
  phoff := 0
  phnum := 0
  start := 0x400000
  placements := []
  maxEnd := 0
  found := by rfl
  plan := ⟨by rfl, by rfl, by rfl, by rfl, by rfl⟩
  fits := by
    simp [tablesOf, kernelTables_card]
    decide

theorem small_boots : ∃ st, Reachable smallLayout smallRam st ∧ st.nextPid = 2 := by
  obtain ⟨st, h⟩ := boot_returns smallImage
  exact ⟨st, .boot st h, congrArg Coord.nextPid (booted h).2⟩

end Small

end Lazux

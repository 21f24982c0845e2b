import Lazux.Calls

/-! # New images (`load_elf`, `SYS_EXEC` and the first process)

While an image is being built its tree belongs to no slot yet: the forest has one index
more, `none`, for it. -/
namespace Lazux

open PagedMemory RadixForest Run

section Load

variable {ι : Type*} {K : Forest ι} {x : ι} {lo : ℕ} {st st' : KState} {i : Slot}
  {elf : Addr → Except Stop Byte} {phoff phnum start page : ℕ} {maxEnd : Addr} {p1 p2 : Phys}

/-- What the loader does with the page for the stack: it is mapped, or no frame is left for
its table and it is lost. -/
inductive StackPlaced (lo : ℕ) (K : Forest ι) (x : ι) (page : ℕ) (p p' : Phys) : Prop where
  | mapped (hp : Placed lo K x (pageNo userStackBase).tables 1 (fun q =>
        if q = pageNo userStackBase then some (userWord page (pteU ||| pteR ||| pteW))
        else none) p p')
      (hf : Filled K p p' page Page.zero) : StackPlaced lo K x page p p'
  | lost (T : Finset (List (Fin 512))) (hT : T ⊆ (pageNo userStackBase).tables)
      (hp : Placed lo K x T 1 (fun _ => none) p p') (hfull : freeFrames p' = 0) :
      StackPlaced lo K x page p p'

theorem StackPlaced.grows {p p' : Phys} (h : StackPlaced lo K x page p p') :
    ∃ T n, Grows lo K x T n p p' := by
  cases h with
  | mapped hp _ => exact ⟨_, _, hp.grows⟩
  | lost T hT hp => exact ⟨_, _, hp.grows⟩

theorem StackPlaced.owned {p p' : Phys} (h : StackPlaced lo K x page p p') : Owned lo K p' := by
  obtain ⟨T, n, hg⟩ := h.grows
  exact hg.owned

theorem StackPlaced.entry_of_ne {p p' : Phys} (h : StackPlaced lo K x page p p') {q : PageNo}
    (hq : q ≠ pageNo userStackBase) :
    entry p'.mem (K.root x) q = entry p.mem (K.root x) q := by
  cases h with
  | mapped hp _ => rw [hp.entries, if_neg hq, Option.getD_none]
  | lost T hT hp => rw [hp.entries, Option.getD_none]

/-- An entry of a loaded tree is an old one, that of the stack or that of a page of the image. -/
theorem loaded_entry {p p' p'' : Phys} {pl : List Placement} (hreal : Realised lo K x pl p p')
    (hstack : StackPlaced lo K x page p' p'') (q : PageNo) :
    entry p''.mem (K.root x) q = entry p.mem (K.root x) q ∨
      ∃ n flags, entry p''.mem (K.root x) q = userWord n flags ∧
        (q = pageNo userStackBase ∧ flags = pteU ||| pteR ||| pteW ∨
          ∃ y ∈ pl, y.page = q ∧ y.flags = flags) := by
  have hplaced : entry p'.mem (K.root x) q = entry p.mem (K.root x) q ∨
      ∃ n, ∃ y ∈ pl, entry p'.mem (K.root x) q = userWord n y.flags ∧ y.page = q := by
    cases hlast : lastAt pl q with
    | none => exact Or.inl (hreal.absent q hlast)
    | some y =>
      obtain ⟨n, -, he⟩ := hreal.present q y hlast
      exact Or.inr ⟨n, y, (lastAt_some hlast).1, he, (lastAt_some hlast).2⟩
  have hkept : entry p''.mem (K.root x) q = entry p'.mem (K.root x) q →
      entry p''.mem (K.root x) q = entry p.mem (K.root x) q ∨
      ∃ n flags, entry p''.mem (K.root x) q = userWord n flags ∧
        (q = pageNo userStackBase ∧ flags = pteU ||| pteR ||| pteW ∨
          ∃ y ∈ pl, y.page = q ∧ y.flags = flags) := by
    intro he
    rw [he]
    rcases hplaced with hk | ⟨n, y, hy, hn, hyq⟩
    · exact Or.inl hk
    · exact Or.inr ⟨n, y.flags, hn, Or.inr ⟨y, hy, hyq, rfl⟩⟩
  by_cases hq : q = pageNo userStackBase
  · cases hstack with
    | mapped hp hf =>
      right
      refine ⟨page, _, ?_, Or.inl ⟨hq, rfl⟩⟩
      rw [hp.entries, if_pos hq, Option.getD_some]
    | lost T hT hp hfull =>
      apply hkept
      rw [hp.entries, Option.getD_none]
  · exact hkept (hstack.entry_of_ne hq)

variable [DecidableEq ι]

theorem stackPlaced {p : Phys} {root : ℕ} (ho : Owned lo K p) (hr : K.root x = some root)
    (ha : pmmAllocPage p = (some page, p2)) :
    StackPlaced lo K x page p (mapPage (p2.zeroPage page) root userStackBase (pageAddr page)
      (pteU ||| pteR ||| pteW)).2 := by
  rcases hm : mapPage (p2.zeroPage page) root userStackBase (pageAddr page)
    (pteU ||| pteR ||| pteW) with ⟨_ | _, p3⟩
  · obtain ⟨hp, -⟩ := placed_alloc (i := x) ho ha Page.zero
    obtain ⟨h0, T, hsub, hT⟩ := mapPage_false hp.owned hr hm
    exact .lost T hsub ((hp.trans hT).of_eq (Finset.empty_union T) fun _ => rfl) h0
  · obtain ⟨hp, hf⟩ := placeUserPage ho hr userFlags_heap ha Page.zero hm
    exact .mapped hp hf

theorem Loaded.placed (h : Loaded st i elf st' phoff phnum start page maxEnd p1 p2)
    (ho : Owned lo K st.phys) (hr : K.root x = some (st.rootOf i)) :
    ∃ pl, planSegments elf (phdrAddrs (BitVec.ofNat 64 phoff) phnum) 0 = .ok (pl, maxEnd) ∧
      Realised lo K x pl st.phys p1 ∧ StackPlaced lo K x page p1 st'.phys := by
  obtain ⟨pl, hpl, hreal⟩ := loadSegments_ensures ho hr _ 0 _ h.segments rfl
  refine ⟨pl, hpl, hreal, ?_⟩
  have hphys : st'.phys = (mapPage (p2.zeroPage page) (st.rootOf i) userStackBase (pageAddr page)
      (pteU ||| pteR ||| pteW)).2 := by rw [h.result]; rfl
  rw [hphys]
  exact stackPlaced hreal.grows.owned hr h.stack

theorem Loaded.processTable_of_ne (h : Loaded st i elf st' phoff phnum start page maxEnd p1 p2)
    {j : Slot} (hj : j ≠ i) : st'.processTable j = st.processTable j := by
  rw [h.result, modifyProc_of_ne _ hj]

theorem Loaded.process (h : Loaded st i elf st' phoff phnum start page maxEnd p1 p2) :
    st'.processTable i = { st.processTable i with
      trapFrame := { (st.processTable i).trapFrame with
        sepc := BitVec.ofNat 64 start, sp := userStackTop }
      heapBreak := pageCeil maxEnd
      heapMax := userStackBase - 4096 } := by
  rw [h.result, modifyProc_self]

theorem Loaded.trees_eq (h : Loaded st i elf st' phoff phnum start page maxEnd p1 p2) :
    trees st' = trees st := by
  have hfields : ∀ j, (st'.processTable j).state = (st.processTable j).state ∧
      (st'.processTable j).pageTable = (st.processTable j).pageTable ∧
      (st'.processTable j).kernelStack = (st.processTable j).kernelStack := by
    intro j
    by_cases hj : j = i
    · subst hj
      rw [h.process]
      exact ⟨rfl, rfl, rfl⟩
    · rw [h.processTable_of_ne hj]
      exact ⟨rfl, rfl, rfl⟩
  simp only [trees, (hfields _).1, (hfields _).2.1, (hfields _).2.2]

end Load

section Exec

variable {L : Layout} {st st' : KState} {tf : Slot}

/-- The address spaces of all slots, and room for one more. -/
def spare (H : Forest Slot) : Forest (Option Slot) where
  root := fun o => o.bind H.root
  extra := fun o => o.bind H.extra

theorem owned_spare {lo : ℕ} {H : Forest Slot} {p : Phys} (h : Owned lo H p) (i : Slot) :
    Owned lo (spare H) p := by
  have hsome : ∀ o : Option Slot, (spare H).root o ≠ none → ∃ j, o = some j := by
    intro o ho
    cases o with
    | none => exact absurd rfl ho
    | some j => exact ⟨j, rfl⟩
  have hsome' : ∀ o : Option Slot, (spare H).extra o ≠ none → ∃ j, o = some j := by
    intro o ho
    cases o with
    | none => exact absurd rfl ho
    | some j => exact ⟨j, rfl⟩
  refine h.reindex (fun o => o.getD i) (fun o => o.getD i) ?_ ?_ ?_ ?_
  · intro o f hf
    cases o with
    | none => cases hf
    | some j => exact hf
  · intro o f hf
    cases o with
    | none => cases hf
    | some j => exact hf
  · intro o o' ho ho' he
    obtain ⟨j, rfl⟩ := hsome o ho
    obtain ⟨j', rfl⟩ := hsome o' ho'
    exact congrArg some he
  · intro o o' ho ho' he
    obtain ⟨j, rfl⟩ := hsome' o ho
    obtain ⟨j', rfl⟩ := hsome' o' ho'
    exact congrArg some he

theorem owned_replaced {lo : ℕ} {H : Forest Slot} {p : Phys} {i : Slot} {root : ℕ}
    (h : Owned lo (withRoot (withRoot (spare H) none (some root)) (some i) none) p) :
    Owned lo (withRoot H i (some root)) p := by
  refine h.reindex (fun j => if j = i then none else some j) some ?_ ?_ ?_ ?_
  · intro j f hf
    by_cases hj : j = i
    · subst j
      rw [withRoot_self] at hf
      rw [if_pos rfl, withRoot_of_ne (by simp), withRoot_self, hf]
    · rw [withRoot_of_ne hj] at hf
      rw [if_neg hj, withRoot_of_ne (by simpa using hj), withRoot_of_ne (by simp)]
      exact hf
  · intro j f hf
    exact hf
  · intro j j' _ _ he
    by_cases hj : j = i
    · by_cases hj' : j' = i
      · rw [hj, hj']
      · rw [if_pos hj, if_neg hj'] at he
        cases he
    · by_cases hj' : j' = i
      · rw [if_neg hj, if_pos hj'] at he
        cases he
      · rw [if_neg hj, if_neg hj'] at he
        exact Option.some.inj he
  · intro j j' _ _ he
    exact Option.some.inj he

theorem execTree {newPt : ℕ} {p1 p2 : Phys} (hs : Sound L st)
    (ha : pmmAllocPage st.phys = (some newPt, p1))
    (hk : vmmMapKernel L newPt (p1.zeroPage newPt) = .ok p2) :
    KernelTree L L.protectedEnd (spare (trees st)) none newPt st.phys p2 :=
  (kernelTree (L := L) (owned_spare hs.owned st.currentProc) rfl ha).ensures p2 hk

def execing (st : KState) (newPt : ℕ) (p2 : Phys) : KState :=
  { st with phys := p2 }.modifyProc st.currentProc fun p => { p with pageTable := some newPt }

theorem execing_root (st : KState) (newPt : ℕ) (p2 : Phys) :
    (execing st newPt p2).rootOf st.currentProc = newPt := by
  simp [execing, KState.rootOf]

/-- The image a successful `SYS_EXEC` installs: its pages and its stack are placed in a new
kernel tree, then the old tree is given back. -/
structure Replaced (L : Layout) (st st' : KState) (newPt start : ℕ) (pl : List Placement)
    (maxEnd : Addr) : Prop where
  memory : ∃ p2 q1 q2 page,
    KernelTree L L.protectedEnd (spare (trees st)) none newPt st.phys p2 ∧
    Realised L.protectedEnd (withRoot (spare (trees st)) none (some newPt)) none pl p2 q1 ∧
    StackPlaced L.protectedEnd (withRoot (spare (trees st)) none (some newPt)) none page q1 q2 ∧
    st'.phys = vmmFreePt (st.rootOf st.currentProc) q2
  flags : ∀ x ∈ pl, UserFlags x.flags
  process : st'.processTable st.currentProc = { st.current with
    pageTable := some newPt
    trapFrame := { st.current.trapFrame with sepc := BitVec.ofNat 64 start, sp := userStackTop }
    heapBreak := pageCeil maxEnd
    heapMax := userStackBase - 4096 }
  other : ∀ j, j ≠ st.currentProc → st'.processTable j = st.processTable j

/-- The file `SYS_EXEC` loads, as it can be read once the new table has the kernel's mappings. -/
def ExecFile (L : Layout) (tf : Slot) (st : KState) (elf : Addr → Except Stop Byte) : Prop :=
  ∃ entry newPt p1 p2, ramdiskGetEntry (diskByte L st) st.load (st.frameOf tf).a0 (nameMax + 1) =
    .ok (some entry) ∧ pmmAllocPage st.phys = (some newPt, p1) ∧
    vmmMapKernel L newPt (p1.zeroPage newPt) = .ok p2 ∧
    elf = fun a => diskByte L (execing st newPt p2) (entry.offset.setWidth 64 + a)

theorem replaced_of_load {elf : Addr → Except Stop Byte} {newPt : ℕ} {p1 p2 : Phys} {mid : KState}
    (hs : Sound L st) (ha : pmmAllocPage st.phys = (some newPt, p1))
    (hk : vmmMapKernel L newPt (p1.zeroPage newPt) = .ok p2)
    (hl : loadElf (execing st newPt p2) st.currentProc elf = .ok (true, mid)) :
    ∃ start pl maxEnd phoff phnum,
      Replaced L st { mid with
        satp := newPt, phys := vmmFreePt (st.rootOf st.currentProc) mid.phys }
        newPt start pl maxEnd ∧
      Plan elf phoff phnum start pl maxEnd := by
  obtain ⟨phoff, phnum, start, page, maxEnd, q1, q2, hl⟩ := loadElf_true hl
  have htree := execTree hs ha hk
  obtain ⟨pl, hpl, hreal, hstack⟩ := hl.placed (x := none) htree.owned
    ((withRoot_self _ _ _).trans (congrArg some (execing_root st newPt p2).symm))
  refine ⟨start, pl, maxEnd, phoff, phnum, ⟨?_, ?_, ?_, ?_⟩,
    ⟨hl.magic, hl.phoff_eq, hl.phnum_eq, hl.entry_eq, hpl⟩⟩
  · exact ⟨p2, q1, mid.phys, page, htree, hreal, hstack, rfl⟩
  · exact planSegments_userFlags hpl
  · have hproc := hl.process
    simpa [execing, KState.current] using hproc
  · intro j hj
    exact (hl.processTable_of_ne hj).trans (modifyProc_of_ne _ hj _)

theorem ExecCall.answers (hs : Sound L st) (h : ExecCall L tf st st') :
    (∃ w, st' = st.setA0 tf w) ∨
    ∃ newPt start pl maxEnd elf phoff phnum, Replaced L st st' newPt start pl maxEnd ∧
      Plan elf phoff phnum start pl maxEnd ∧ ExecFile L tf st elf := by
  cases h with
  | badName hn => exact Or.inl ⟨_, rfl⟩
  | noEntry hn he => exact Or.inl ⟨_, rfl⟩
  | replaced entry newPt p1 p2 mid hn he ha hk hl =>
    obtain ⟨start, pl, maxEnd, phoff, phnum, hrep, hplan⟩ := replaced_of_load hs ha hk hl
    exact Or.inr ⟨newPt, start, pl, maxEnd, _, phoff, phnum, hrep, hplan,
      ⟨entry, newPt, p1, p2, he, ha, hk, rfl⟩⟩

theorem Replaced.trees_eq {newPt start : ℕ} {pl : List Placement} {maxEnd : Addr}
    (h : Replaced L st st' newPt start pl maxEnd) (hst : Steady tf st) :
    trees st' = withRoot (trees st) st.currentProc (some newPt) := by
  have hu := hst.used
  simp only [trees, withRoot, Forest.mk.injEq]
  constructor
  · funext j
    by_cases hj : j = st.currentProc
    · subst hj
      simp [h.process, KState.current, hu]
    · rw [Function.update_of_ne hj, h.other j hj]
  · funext j
    by_cases hj : j = st.currentProc
    · subst hj
      simp [h.process, KState.current]
    · rw [h.other j hj]

theorem Replaced.sound {newPt start : ℕ} {pl : List Placement} {maxEnd : Addr}
    (hs : Sound L st) (hst : Steady tf st) (h : Replaced L st st' newPt start pl maxEnd) :
    Sound L st' := by
  obtain ⟨p2, q1, q2, page, htree, hreal, hstack, hphys⟩ := h.memory
  refine ⟨?_, fun j hj => ?_, fun j => ?_⟩
  · -- the old tree is given back
    have hold : (withRoot (spare (trees st)) none (some newPt)).root (some st.currentProc) =
        some (st.rootOf st.currentProc) := by
      rw [withRoot_of_ne (by simp)]
      exact hs.root hst.used
    rw [h.trees_eq hst, hphys]
    exact owned_replaced (hstack.owned.freeTree hold)
  · by_cases hjc : j = st.currentProc
    · subst hjc
      simp [h.process]
    · rw [h.other j hjc] at hj ⊢
      exact hs.table j hj
  · by_cases hjc : j = st.currentProc
    · subst hjc
      rw [h.process]
      exact (by decide : (userStackBase - 4096 : Addr).toNat ≤ 0x3FFFE000)
    · rw [h.other j hjc]
      exact hs.heap j

theorem ExecCall.sound (hs : Sound L st) (hst : Steady tf st) (h : ExecCall L tf st st') :
    Sound L st' := by
  rcases h.answers hs with ⟨w, rfl⟩ | ⟨newPt, start, pl, maxEnd, elf, phoff, phnum, hrep, -⟩
  · exact (benign_setA0 st tf w).sound hs
  · exact hrep.sound hs hst

end Exec

section Boot

variable {L : Layout} {ram : Memory} {st st' : KState}

theorem owned_initPmm {ι : Type*} (L : Layout) (ram : Memory) :
    Owned L.protectedEnd (⟨fun _ => none, fun _ => none⟩ : Forest ι) (initPmm L ram) := by
  have hnone : ∀ r, held (initPmm L ram) (⟨fun _ => none, fun _ => none⟩ : Forest ι) r = none := by
    intro r
    cases r with
    | extra i => rfl
    | node i path => exact tableAt_none _ _
  refine ⟨fun r s f hr => ?_, fun r f hr => ?_, fun i path f _ hr => ?_, fun i q => ?_,
    fun f hf hlt => (inUse_initPmm L ram f).mpr ⟨hf, hlt⟩⟩
  · rw [hnone] at hr
    cases hr
  · rw [hnone] at hr
    cases hr
  · rw [hnone] at hr
    cases hr
  · rw [entry_none]
    exact leafWord_zero q

/-- The kernel's state when it runs on its own table, before there is a process. -/
def mapped (L : Layout) (ram : Memory) (rootPt : ℕ) (p2 : Phys) (console : List Byte) : KState :=
  { early L ram with phys := p2, satp := rootPt, console := console }

theorem trees_mapped (L : Layout) (ram : Memory) (rootPt : ℕ) (p2 : Phys) (console : List Byte) :
    trees (mapped L ram rootPt p2 console) = ⟨fun _ => none, fun _ => none⟩ := by
  simp [trees, mapped, early, Process.zero]

theorem bootTree {rootPt : ℕ} {p1 p2 : Phys} (ha : pmmAllocPage (initPmm L ram) = (some rootPt, p1))
    (hk : vmmMapKernel L rootPt (p1.zeroPage rootPt) = .ok p2) :
    KernelTree L L.protectedEnd (⟨fun _ => none, fun _ => none⟩ : Forest Slot) 0 rootPt
      (initPmm L ram) p2 := (kernelTree (L := L) (owned_initPmm L ram) rfl ha).ensures p2 hk

theorem sound_mapped {rootPt : ℕ} {p1 p2 : Phys}
    (ha : pmmAllocPage (initPmm L ram) = (some rootPt, p1))
    (hk : vmmMapKernel L rootPt (p1.zeroPage rootPt) = .ok p2) (console : List Byte) :
    Sound L (mapped L ram rootPt p2 console) := by
  refine ⟨?_, fun i hi => absurd rfl hi, fun i => Nat.zero_le _⟩
  rw [trees_mapped]
  refine (bootTree ha hk).owned.shrink (fun i f hf => ?_) fun i f hf => ?_
  · cases hf
  · cases hf

theorem Loaded.sound {elf : Addr → Except Stop Byte} {i : Slot} {phoff phnum start page : ℕ}
    {maxEnd : Addr} {p1 p2 : Phys} (hs : Sound L st) (hu : (st.processTable i).state ≠ .unused)
    (h : Loaded st i elf st' phoff phnum start page maxEnd p1 p2) : Sound L st' := by
  obtain ⟨pl, -, -, hstack⟩ := h.placed hs.owned (hs.root hu)
  have hfields : ∀ j, (st'.processTable j).state = (st.processTable j).state ∧
      (st'.processTable j).pageTable = (st.processTable j).pageTable ∧
      (st'.processTable j).heapMax.toNat ≤ 0x3FFFE000 := by
    intro j
    by_cases hj : j = i
    · subst hj
      rw [h.process]
      exact ⟨rfl, rfl, (by decide : (userStackBase - 4096 : Addr).toNat ≤ 0x3FFFE000)⟩
    · rw [h.processTable_of_ne hj]
      exact ⟨rfl, rfl, hs.heap j⟩
  refine ⟨?_, fun j hj => ?_, fun j => (hfields j).2.2⟩
  · rw [h.trees_eq]
    exact hstack.owned
  · rw [(hfields j).1] at hj
    rw [(hfields j).2.1]
    exact hs.table j hj

theorem sound_startInit (hs : Sound L st) (h : StartInit L st st') : Sound L st' := by
  cases h with
  | started i mid fin entry console hp he hl =>
    have hmid := sound_allocProc hs hp
    obtain ⟨root, stack, hsp⟩ := hp.spawned hs
    obtain ⟨phoff, phnum, start, page, maxEnd, q1, q2, hl⟩ := loadElf_true hl
    have hused : (mid.processTable i).state ≠ .unused := by simp [hsp.process]
    have hfin := hl.sound hmid hused
    have hrunning : Benign fin ({ fin with currentProc := i }.modifyProc i fun p =>
        { p with state := .running }) := by
      have ha : Benign fin { fin with currentProc := i } := benign_same rfl rfl
      refine ha.trans (benign_state _ i ?_ (by simp) rfl rfl rfl)
      have hstate := congrArg Process.state hl.process
      exact fun hf => hused (hstate.symm.trans hf)
    have hrun := hrunning.sound hfin
    exact hrun.withPhys rfl hrun.owned

theorem sound_boot (h : kmain L ram = .ok st) : Sound L st := by
  obtain ⟨rootPt, p1, p2, c, ha, hk, hstart⟩ := kmain_result h
  exact sound_startInit (sound_mapped ha hk c) hstart

end Boot

end Lazux

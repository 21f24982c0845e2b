import Lazux.Lib.Lockstep
import Lazux.Names

/-! # What `SYS_EXEC` replaces

The handler writes neither `sepc` nor `sp` itself, and it frees the old page table while it runs on
the kernel stack of the process. -/
namespace Lazux

open PagedMemory RadixForest Run

variable {L : Layout} {ram : Memory} {st st' mid : KState} {tf : Slot} {regs : TrapFrame}
  {input : Input} {elf : Addr → Except Stop Byte}

section Calls

theorem syscall_exec (h7 : (st.frameOf tf).a7 = sysExec) :
    syscall L input tf st = sysExecCall L tf st := by
  unfold syscall
  dsimp only
  rw [h7, if_neg (by decide), if_neg (by decide), if_neg (by decide), if_pos rfl]

theorem trapHandler_exec (hset : Settled L st) (h8 : regs.scause = 8) (h7 : regs.a7 = sysExec) :
    trapHandler L input st.sscratch (saveFrame regs st) =
      sysExecCall L st.sscratch (entered (saveFrame regs st)) := by
  rw [trapHandler_ecall hset.steady h8]
  apply syscall_exec
  rw [frameOf_entered hset.steady]
  exact h7

theorem exec_call (hset : Settled L st) (h8 : regs.scause = 8) (h7 : regs.a7 = sysExec)
    (ht : takeTrap L regs input st = .ok st') :
    ∃ s, ExecCall L st.sscratch (entered (saveFrame regs st)) s ∧ st' = resume st.sscratch s := by
  obtain ⟨⟨tf, s⟩, hret, hres⟩ := bind_eq_ok.mp ht
  rw [trapHandler_exec hset h8 h7] at hret
  obtain ⟨rfl, hcall⟩ := sysExecCall_result hret
  cases hres
  exact ⟨s, hcall, rfl⟩

theorem ExecFile.unique {elf' : Addr → Except Stop Byte} (h : ExecFile L tf st elf)
    (h' : ExecFile L tf st elf') : elf = elf' := by
  obtain ⟨entry, newPt, p1, p2, he, ha, hk, rfl⟩ := h
  obtain ⟨entry', newPt', p1', p2', he', ha', hk', rfl⟩ := h'
  cases he.symm.trans he'
  cases ha.symm.trans ha'
  cases hk.symm.trans hk'
  rfl

/-- A stack of zeroes is mapped exactly when there are frames for all pages of the image and it. -/
theorem Bare.stack_iff {i : Slot} {phoff phnum start : ℕ} {pl : List Placement} {maxEnd : Addr}
    (hb : Bare L st i) (h : loadElf st i elf = .ok (true, st'))
    (hplan : Plan elf phoff phnum start pl maxEnd) :
    (∃ n, entryOf st' i (pageNo userStackBase) = userWord n (pteU ||| pteR ||| pteW) ∧
      st'.phys.mem n = Page.zero) ↔ Fits (trees st) i (pl ++ [stackPlacement]) st.phys := by
  have hroot := hb.sound.root hb.used
  obtain ⟨phoff', phnum', start', page, maxEnd', p1, p2, hl⟩ := loadElf_true h
  obtain ⟨pl', hpl, hreal⟩ := loadSegments_ensures hb.sound.owned hroot _ 0 _ hl.segments rfl
  have hplan' : Plan elf phoff' phnum' start' pl' maxEnd' :=
    ⟨hl.magic, hl.phoff_eq, hl.phnum_eq, hl.entry_eq, hpl⟩
  obtain ⟨rfl, -, -⟩ := hplan.unique hplan'
  have hlast : lastAt [stackPlacement] (pageNo userStackBase) = some stackPlacement := by
    rw [lastAt, List.reverse_singleton, List.find?_cons_of_pos]
    exact decide_eq_true rfl
  rcases hl.stack_cases hreal.grows.owned hroot with hstack | ⟨hfull, T, hgrows, hentries⟩
  · apply iff_of_true
    · obtain ⟨n, hf, he⟩ := hstack.present _ _ hlast
      refine ⟨n, ?_, hf.content⟩
      rw [entryOf, hl.trees_eq]
      exact he
    · exact (hreal.append hstack).fits
  · -- a segment at the stack's page would have its tables
    have hclear : lastAt pl (pageNo userStackBase) = none := by
      cases hx : lastAt pl (pageNo userStackBase) with
      | none => rfl
      | some x =>
        obtain ⟨hmem, hpage⟩ := lastAt_some hx
        have hsub : tablesOf ([stackPlacement].map (·.page)) ⊆ tableSet p1 (trees st) i := by
          rw [hreal.grows.tables, List.map_singleton]
          intro path hpath
          obtain ⟨q, hq, hcases⟩ := mem_tablesOf.mp hpath
          obtain rfl := List.mem_singleton.mp hq
          apply Finset.mem_union_right
          exact mem_tablesOf.mpr ⟨_, List.mem_map.mpr ⟨x, hmem, hpage⟩, hcases⟩
        have hpos : freeFrames p1 ≠ 0 := by
          intro h0
          have hnone := pmmAllocPage_none.mpr h0
          rw [hl.stack] at hnone
          cases hnone
        refine absurd ?_ hfull
        show (tableSet p1 (trees st) i ∪ tablesOf ([stackPlacement].map (·.page))).card + 1 ≤
          freeFrames p1 + (tableSet p1 (trees st) i).card
        rw [Finset.union_eq_left.mpr hsub]
        omega
    apply iff_of_false
    · rintro ⟨n, he, -⟩
      have hbare : entry st.phys.mem ((trees st).root i) (pageNo userStackBase) =
        (kernelEntry L (pageNo userStackBase)).getD 0 := hb.entries _
      rw [entryOf, hl.trees_eq, hentries, hreal.absent _ hclear, hbare] at he
      have hzero : (kernelEntry L (pageNo userStackBase)).getD 0 = 0 := by
        cases hk : kernelEntry L (pageNo userStackBase) with
        | none => rfl
        | some w => exact absurd (devicePage_of_kernelEntry hk (by decide)) (by decide)
      rw [hzero] at he
      have hvalid := userWord_valid n (pteU ||| pteR ||| pteW)
      rw [← he] at hvalid
      exact absurd hvalid (by decide)
    · intro hfit
      exact hfull (hreal.room hfit)

end Calls

section Program

/-- There are frames for the new table, the pages of the file, the stack and their tables. -/
def StackFits (elf : Addr → Except Stop Byte) (p : Phys) : Prop :=
  ∀ phoff phnum start pl maxEnd, Plan elf phoff phnum start pl maxEnd →
    (kernelTables ∪ tablesOf ((pl ++ [stackPlacement]).map (·.page))).card + pl.length + 2 ≤
      freeFrames p

/-- The pages of an address space besides that of the stack are those the headers of the file ask
for, and the kernel's. -/
def HoldsImage (L : Layout) (elf : Addr → Except Stop Byte) (st : KState) (i : Slot) : Prop :=
  ∃ phoff phnum start pl maxEnd, Plan elf phoff phnum start pl maxEnd ∧
    ∀ q, q ≠ pageNo userStackBase →
      (lastAt pl q = none → entryOf st i q = (kernelEntry L q).getD 0) ∧
      ∀ x, lastAt pl q = some x →
        ∃ n, entryOf st i q = userWord n x.flags ∧ st.phys.mem n = x.content

/-- The running program has been replaced by the file's: it resumes at the entry point with an empty
stack of its own on a new page table, the frames of the old one are free, and of its record only
what belongs to the program has changed. Nothing of any other process has. -/
structure ProgramReplaced (L : Layout) (st st' : KState)
    (elf : Addr → Except Stop Byte) : Prop where
  resumed : st'.currentProc = st.currentProc ∧ st'.sscratch = st.currentProc ∧
    (st'.processTable st.currentProc).pageTable = some st'.satp
  entry : ∃ e, readLe elf 0x18 8 = .ok e ∧
    (st'.frameOf st.currentProc).sepc = BitVec.ofNat 64 e
  stackPointer : (st'.frameOf st.currentProc).sp = 0x40000000
  image : HoldsImage L elf st' st.currentProc
  stack : ∃ n, entryOf st' st.currentProc (pageNo userStackBase) =
    userWord n (pteU ||| pteR ||| pteW) ∧ st'.phys.mem n = Page.zero
  released : ∀ path f, held st.phys (trees st) (.node st.currentProc path) = some f →
    ¬ InUse st'.phys f
  fresh : ∀ path f, held st'.phys (trees st') (.node st.currentProc path) = some f →
    ¬ InUse st.phys f
  process : ∃ root frame brk max, st'.processTable st.currentProc = { st.current with
    pageTable := root, trapFrame := frame, heapBreak := brk, heapMax := max }
  kernelSp : (st'.frameOf st.currentProc).kernelSp = (st.frameOf st.currentProc).kernelSp
  others : ∀ j, j ≠ st.currentProc → st'.processTable j = st.processTable j
  kept : ∀ r, (∀ path, r ≠ .node st.currentProc path) →
    held st'.phys (trees st') r = held st.phys (trees st) r
  memory : ∀ r f, (∀ path, r ≠ .node st.currentProc path) → held st.phys (trees st) r = some f →
    InUse st'.phys f ∧ st'.phys.mem f = st.phys.mem f

/-- A call that has come back with another page table has loaded the file. -/
theorem ExecCall.installed {s : KState} (hs : Sound L st) (hst : Steady tf st)
    (h : ExecCall L tf st s)
    (hnew : (s.processTable st.currentProc).pageTable ≠ st.current.pageTable) :
    ∃ elf newPt p2 fin, ExecFile L tf st elf ∧ Bare L (execing st newPt p2) st.currentProc ∧
      freeFrames p2 + 69 = freeFrames st.phys ∧
      loadElf (execing st newPt p2) st.currentProc elf = .ok (true, fin) ∧
      s = { fin with satp := newPt, phys := vmmFreePt (st.rootOf st.currentProc) fin.phys } ∧
      Swapped st s := by
  have hsame : ∀ w, ((st.setA0 tf w).processTable st.currentProc).pageTable =
      st.current.pageTable := by
    intro w
    rw [KState.setA0, KState.setFrame, hst.frame, modifyProc_self]
    rfl
  cases h with
  | badName hn => exact absurd (hsame _) hnew
  | noEntry hn he => exact absurd (hsame _) hnew
  | replaced entry newPt p1 p2 mid hn he ha hk hl =>
    obtain ⟨start, pl, maxEnd, phoff, phnum, hrep, -⟩ := replaced_of_load hs ha hk hl
    exact ⟨_, newPt, p2, mid, ⟨entry, newPt, p1, p2, he, ha, hk, rfl⟩, bare_execing hs hst ha hk,
      (execTree hs ha hk).count, hl, rfl, hrep.swapped hs hst⟩

/-- The frames a bare table leaves are counted before the call. -/
theorem stackFits_iff {i : Slot} {p2 : Phys} {phoff phnum start : ℕ} {pl : List Placement}
    {maxEnd : Addr} (hb : Bare L st i) (hplan : Plan elf phoff phnum start pl maxEnd)
    (hcount : freeFrames st.phys + 69 = freeFrames p2) :
    Fits (trees st) i (pl ++ [stackPlacement]) st.phys ↔ StackFits elf p2 := by
  have hcard := kernelTables_card
  have hlen : (pl ++ [stackPlacement]).length = pl.length + 1 := List.length_append
  unfold Fits StackFits
  rw [hb.tables, hlen]
  constructor
  · intro hfit phoff' phnum' start' pl' maxEnd' hplan'
    obtain ⟨rfl, -, -⟩ := hplan.unique hplan'
    omega
  · intro hfit
    have := hfit _ _ _ _ _ hplan
    omega

theorem process_execed {newPt start : ℕ} {p2 : Phys} {maxEnd : Addr} {fin : KState}
    (hset : Settled L st)
    (hproc : fin.processTable st.currentProc =
      { (execing (entered (saveFrame regs st)) newPt p2).processTable st.currentProc with
        trapFrame := { ((execing (entered (saveFrame regs st)) newPt p2).processTable
          st.currentProc).trapFrame with sepc := BitVec.ofNat 64 start, sp := userStackTop }
        heapBreak := pageCeil maxEnd
        heapMax := userStackBase - 4096 }) :
    fin.processTable st.currentProc = { st.current with
      pageTable := some newPt
      trapFrame := { regs with
        sepc := BitVec.ofNat 64 start
        sp := userStackTop
        sstatus := trapStatus st.sstatus
        kernelSp := (st.frameOf st.currentProc).kernelSp }
      heapBreak := pageCeil maxEnd
      heapMax := userStackBase - 4096 } := by
  have hframe := frameOf_entered hset.steady regs
  rw [hset.steady.frame] at hframe
  obtain ⟨f, hp, -⟩ := process_entered hset.steady regs st.currentProc
  have hf : f = (entered (saveFrame regs st)).frameOf st.currentProc := by
    rw [KState.frameOf, hp]
  have hexec : (execing (entered (saveFrame regs st)) newPt p2).processTable st.currentProc =
      { (entered (saveFrame regs st)).processTable st.currentProc with pageTable := some newPt } :=
    modifyProc_self _ _ _
  rw [hproc, hexec, hp, hf, hframe]
  rfl

theorem exec_installed (h : Reachable L ram st) (h8 : regs.scause = 8)
    (h7 : regs.a7 = sysExec) (ht : takeTrap L regs input st = .ok st')
    (hnew : (st'.processTable st.currentProc).pageTable ≠ st.current.pageTable)
    (hfile : ExecFile L st.currentProc (entered (saveFrame regs st)) elf) :
    ∃ newPt p2 fin, Bare L (execing (entered (saveFrame regs st)) newPt p2) st.currentProc ∧
      freeFrames p2 + 69 = freeFrames st.phys ∧
      loadElf (execing (entered (saveFrame regs st)) newPt p2) st.currentProc elf =
        .ok (true, fin) ∧
      Swapped (entered (saveFrame regs st)) st' ∧ st'.phys.mem = fin.phys.mem ∧
      st'.processTable = fin.processTable ∧ st'.currentProc = st.currentProc ∧
      st'.sscratch = st.currentProc ∧ st'.satp = newPt := by
  have hset := reachable_settled h
  obtain ⟨hs, hst⟩ := hset.called regs
  have hcp := hset.steady.frame
  obtain ⟨s, hcall, rfl⟩ := exec_call hset h8 h7 ht
  have hnew' : (s.processTable (entered (saveFrame regs st)).currentProc).pageTable ≠
      (entered (saveFrame regs st)).current.pageTable := by
    obtain ⟨f, hcur⟩ := current_entered hset.steady regs
    rw [hcur]
    exact hnew
  obtain ⟨elf', newPt, p2, fin, hfile', hb, hcount, hload, rfl, hsw⟩ := hcall.installed hs hst hnew'
  rw [hcp] at hfile'
  obtain rfl := hfile.unique hfile'
  obtain ⟨_, _, _, _, _, _, _, hld⟩ := loadElf_true hload
  refine ⟨newPt, p2, fin, hb, hcount, hload, ⟨hsw.others, hsw.inUse, hsw.mem, hsw.fresh⟩, ?_,
    rfl, ?_,
    hcp, rfl⟩
  · -- the old table goes after the load
    show (vmmFreePt _ fin.phys).mem = fin.phys.mem
    rw [vmmFreePt, mem_pmmFreePage, mem_freePageTable]
  · show fin.currentProc = st.currentProc
    rw [hld.result]
    rfl

theorem entryOf_congr {i : Slot} (hm : st'.phys.mem = st.phys.mem)
    (hp : st'.processTable = st.processTable) (q : PageNo) : entryOf st' i q = entryOf st i q := by
  simp only [entryOf, trees, hm, hp]

/-- Such a call has mapped a stack if there were frames for all of the image, the stack's tables
among them. -/
theorem stack_mapped_iff (h : Reachable L ram st) (h8 : regs.scause = 8)
    (h7 : regs.a7 = sysExec) (ht : takeTrap L regs input st = .ok st')
    (hnew : (st'.processTable st.currentProc).pageTable ≠ st.current.pageTable)
    (hfile : ExecFile L st.currentProc (entered (saveFrame regs st)) elf) :
    (∃ n, entryOf st' st.currentProc (pageNo userStackBase) =
      userWord n (pteU ||| pteR ||| pteW) ∧ st'.phys.mem n = Page.zero) ↔
        StackFits elf st.phys := by
  obtain ⟨newPt, p2, fin, hb, hcount, hload, -, hmem, htable, -⟩ :=
    exec_installed h h8 h7 ht hnew hfile
  obtain ⟨phoff, phnum, start, pl, maxEnd, hplan, -⟩ := hb.loaded hload
  rw [← stackFits_iff hb hplan hcount, ← hb.stack_iff hload hplan, entryOf_congr hmem htable, hmem]

/-- `SYS_EXEC` replaces exactly the program when there are frames for all of the image, the stack's
tables among them. -/
theorem program_replaced_iff (h : Reachable L ram st) (h8 : regs.scause = 8)
    (h7 : regs.a7 = sysExec) (ht : takeTrap L regs input st = .ok st')
    (hnew : (st'.processTable st.currentProc).pageTable ≠ st.current.pageTable)
    (hfile : ExecFile L st.currentProc (entered (saveFrame regs st)) elf) :
    ProgramReplaced L st st' elf ↔ StackFits elf st.phys := by
  have hset := reachable_settled h
  have hstack := stack_mapped_iff h h8 h7 ht hnew hfile
  obtain ⟨newPt, p2, fin, hb, hcount, hload, hsw, hmem, htable, hcur, hres, hsatp⟩ :=
    exec_installed h h8 h7 ht hnew hfile
  obtain ⟨phoff, phnum, start, pl, maxEnd, hplan, himage, hproc⟩ := hb.loaded hload
  obtain ⟨_, _, _, _, _, _, _, hld⟩ := loadElf_true hload
  have hrecord := process_execed hset hproc
  rw [← htable] at hrecord
  constructor
  · intro hrep
    exact hstack.mp hrep.stack
  · intro hfit
    have hinUse : ∀ r f, held st.phys (trees st) r = some f → InUse st.phys f := by
      intro r f hr
      exact (hset.sound.owned.inUse r f hr).1
    have hothers := hsw.others
    have hfresh := hsw.fresh
    rw [trees_entered] at hothers
    refine ⟨⟨hcur, hres, ?_⟩, ⟨start, hplan.start_eq, ?_⟩, ?_,
      ⟨phoff, phnum, start, pl, maxEnd, hplan, fun q hq => ⟨fun hno => ?_, fun x hx => ?_⟩⟩,
      hstack.mpr hfit, ?_, ?_, ?_, ?_, ?_, hothers, ?_⟩
    · rw [hsatp]
      exact congrArg Process.pageTable hrecord
    · exact congrArg (fun p => p.trapFrame.sepc) hrecord
    · exact congrArg (fun p => p.trapFrame.sp) hrecord
    · rw [entryOf_congr hmem htable, himage.entry_none hq hno]
      exact hb.entries q
    · obtain ⟨n, -, hn, hc⟩ := himage.entry_some hq hx
      rw [entryOf_congr hmem htable, hmem]
      exact ⟨n, hn, hc⟩
    · intro path f hf hu
      have huse := (hsw.inUse f (hinUse _ f hf)).mp hu path
      rw [trees_entered] at huse
      exact huse hf
    · intro path f hf hu
      exact hfresh f hu path hf
    · exact ⟨_, _, _, _, hrecord⟩
    · exact congrArg (fun p => p.trapFrame.kernelSp) hrecord
    · intro j hj
      have hother := (hld.processTable_of_ne hj).trans (modifyProc_of_ne _ hj _)
      rw [htable]
      exact hother.trans (entered_other hset.steady regs hj)
    · intro r f hr hf
      have hu := hinUse r f hf
      refine ⟨(hsw.inUse f hu).mpr fun path hpath => ?_, hsw.mem f hu⟩
      rw [trees_entered] at hpath
      exact hr path (hset.sound.owned.distinct r (.node st.currentProc path) f hf hpath)

end Program

section Readers

variable {r r' : Addr → Except Stop Byte} {phoff phnum start : ℕ} {pl : List Placement}
  {maxEnd : Addr} {S : PageNo → Prop}

/-- The addresses the headers of an image take up. -/
def HeaderByte (elf : Addr → Except Stop Byte) (a : Addr) : Prop :=
  a.toNat < 64 ∨ ∃ phoff phnum, readLe elf 0x20 8 = .ok phoff ∧ readLe elf 0x38 2 = .ok phnum ∧
    ∃ ph ∈ phdrAddrs (BitVec.ofNat 64 phoff) phnum, ∃ k < 56, a = ph + BitVec.ofNat 64 k

/-- Two images with the same headers, of which the same bytes can be read. -/
structure SameHeaders (r r' : Addr → Except Stop Byte) : Prop where
  headers : ∀ a, HeaderByte r a → r' a = r a
  reads : ∀ a, Lockstep (fun _ _ => True) (r a) (r' a)

theorem readLe_congr {a : Addr} {n : ℕ}
    (h : ∀ k < n, r' (a + BitVec.ofNat 64 k) = r (a + BitVec.ofNat 64 k)) :
    readLe r' a n = readLe r a n := by
  induction n generalizing a with
  | zero => rfl
  | succ n ih =>
    have h0 := h 0 (Nat.succ_pos n)
    rw [show a + BitVec.ofNat 64 0 = a from BitVec.add_zero a] at h0
    have hnext := @ih (a + 1) fun k hk => by
      have hstep := h (k + 1) (Nat.succ_lt_succ hk)
      have hshift : a + BitVec.ofNat 64 (k + 1) = a + 1 + BitVec.ofNat 64 k := by
        rw [Nat.add_comm k 1, BitVec.ofNat_add, ← BitVec.add_assoc]
        rfl
      rwa [hshift] at hstep
    rw [readLe, readLe, h0, hnext]

theorem SameHeaders.field (h : SameHeaders r r') {a : Addr} {n : ℕ} (ha : a.toNat + n ≤ 64) :
    readLe r' a n = readLe r a n := by
  apply readLe_congr
  intro k hk
  apply h.headers
  left
  rw [BitVec.toNat_add, BitVec.toNat_ofNat]
  omega

theorem SameHeaders.phdr (h : SameHeaders r r') (hoff : readLe r 0x20 8 = .ok phoff)
    (hnum : readLe r 0x38 2 = .ok phnum) {a : Addr}
    (ha : a ∈ phdrAddrs (BitVec.ofNat 64 phoff) phnum) : readPhdr r' a = readPhdr r a := by
  have part : ∀ k n, k + n ≤ 56 →
      readLe r' (a + BitVec.ofNat 64 k) n = readLe r (a + BitVec.ofNat 64 k) n := by
    intro k n hkn
    apply readLe_congr
    intro j hj
    apply h.headers
    refine Or.inr ⟨phoff, phnum, hoff, hnum, a, ha, k + j, by omega, ?_⟩
    rw [BitVec.ofNat_add, BitVec.add_assoc]
  have h0 := part 0 4 (by omega)
  rw [show a + BitVec.ofNat 64 0 = a from BitVec.add_zero a] at h0
  have h4 : readLe r' (a + 4) 4 = readLe r (a + 4) 4 := part 4 4 (by omega)
  have h8 : readLe r' (a + 8) 8 = readLe r (a + 8) 8 := part 8 8 (by omega)
  have h16 : readLe r' (a + 16) 8 = readLe r (a + 16) 8 := part 16 8 (by omega)
  have h32 : readLe r' (a + 32) 8 = readLe r (a + 32) 8 := part 32 8 (by omega)
  have h40 : readLe r' (a + 40) 8 = readLe r (a + 40) 8 := part 40 8 (by omega)
  unfold readPhdr
  rw [h0, h4, h8, h16, h32, h40]

theorem lockstep_copyIn (h : ∀ a, Lockstep (fun _ _ => True) (r a) (r' a)) (src : Addr) (n : ℕ) :
    Lockstep (fun _ _ => True) (copyIn r src n) (copyIn r' src n) := by
  induction n with
  | zero => exact .ok trivial
  | succ n ih =>
    exact ih.bind fun page page' _ => (h _).bind fun b b' _ => .ok trivial

def SamePages (pl pl' : List Placement) : Prop := pl'.map (·.page) = pl.map (·.page)

theorem lockstep_planPages (h : ∀ a, Lockstep (fun _ _ => True) (r a) (r' a)) (ph : Phdr)
    (cs : List Word) : Lockstep SamePages (planPages r ph cs) (planPages r' ph cs) := by
  induction cs with
  | nil => exact .ok rfl
  | cons c cs ih =>
    refine (lockstep_copyIn h _ _).bind fun content content' _ =>
      ih.bind fun later later' hl => .ok ?_
    exact congrArg (pageNo (ph.pVaddr + c) :: ·) hl

theorem lockstep_planSegments {as : List Addr} {m : Addr}
    (h : ∀ a, Lockstep (fun _ _ => True) (r a) (r' a))
    (hph : ∀ a ∈ as, readPhdr r' a = readPhdr r a) :
    Lockstep (fun x x' => SamePages x.1 x'.1 ∧ x'.2 = x.2) (planSegments r as m)
      (planSegments r' as m) := by
  induction as generalizing m with
  | nil => exact .ok ⟨rfl, rfl⟩
  | cons a as ih =>
    have hrest := fun {m : Addr} => @ih m fun b hb => hph b (List.mem_cons_of_mem a hb)
    unfold planSegments
    rw [hph a List.mem_cons_self]
    refine (lockstep_refl _).bind ?_
    rintro o o' rfl
    cases o with
    | none => exact hrest
    | some ph =>
      refine (lockstep_planPages h ph _).bind fun pages pages' hp => hrest.bind ?_
      rintro ⟨later, m1⟩ ⟨later', m2⟩ ⟨hl, hm⟩
      refine .ok ⟨?_, hm⟩
      rw [SamePages, List.map_append, List.map_append, hp, hl]

theorem SameHeaders.plan (h : SameHeaders r r') (hp : Plan r phoff phnum start pl maxEnd) :
    ∃ pl', Plan r' phoff phnum start pl' maxEnd ∧ SamePages pl pl' := by
  have hlock := lockstep_planSegments (m := 0) h.reads fun a ha => h.phdr hp.phoff_eq hp.phnum_eq ha
  rw [hp.segments] at hlock
  cases hs : planSegments r' (phdrAddrs (BitVec.ofNat 64 phoff) phnum) 0 with
  | error e =>
    rw [hs] at hlock
    cases hlock
  | ok x =>
    rw [hs] at hlock
    cases hlock with
    | ok hx =>
      obtain ⟨pl', m'⟩ := x
      obtain ⟨hpages, hm⟩ := hx
      dsimp only at hm
      subst hm
      refine ⟨pl', ⟨?_, ?_, ?_, ?_, hs⟩, hpages⟩
      · exact (h.field (by decide)).trans hp.magic
      · exact (h.field (by decide)).trans hp.phoff_eq
      · exact (h.field (by decide)).trans hp.phnum_eq
      · exact (h.field (by decide)).trans hp.start_eq

theorem SameHeaders.symm (h : SameHeaders r r') : SameHeaders r' r := by
  refine ⟨fun a ha => (h.headers a ?_).symm, fun a => ?_⟩
  · rcases ha with hlow | ⟨phoff, phnum, hoff, hnum, hrest⟩
    · exact Or.inl hlow
    · exact Or.inr ⟨phoff, phnum, (h.field (by decide)).symm.trans hoff,
        (h.field (by decide)).symm.trans hnum, hrest⟩
  · cases hr : r a with
    | ok b =>
      have hb := h.reads a
      rw [hr] at hb
      cases hr' : r' a with
      | ok b' => exact .ok trivial
      | error e =>
        rw [hr'] at hb
        cases hb
    | error e =>
      have hb := h.reads a
      rw [hr] at hb
      rw [hb.of_error]
      exact .error e

theorem SameHeaders.avoids (h : SameHeaders r r') (hc : SegmentsAvoid r S) :
    SegmentsAvoid r' S := by
  intro phoff phnum hoff hnum a ha ph hph
  have hoff' := (h.field (a := 0x20) (n := 8) (by decide)).symm.trans hoff
  have hnum' := (h.field (a := 0x38) (n := 2) (by decide)).symm.trans hnum
  exact hc phoff phnum hoff' hnum' a ha ph ((h.phdr hoff' hnum' ha).symm.trans hph)

end Readers

section Atomic

/-- The directory entry of the name, as the kernel finds it when the call comes. -/
def FindsFile (L : Layout) (st : KState) (e : RamdiskEntry) : Prop :=
  ramdiskGetEntry (diskByte L st) st.load (st.frameOf st.currentProc).a0 (nameMax + 1) =
    .ok (some e)

/-- The bytes from the start of the file on, at that time. -/
def namedElf (L : Layout) (st : KState) (e : RamdiskEntry) (a : Addr) : Except Stop Byte :=
  diskByte L st (e.offset.setWidth 64 + a)

/-- The headers of the file do not lie in free frames; those of a file inside the RAMDISK never
do. -/
def HeadersHeld (L : Layout) (st : KState) (e : RamdiskEntry) : Prop :=
  ∀ a pa, HeaderByte (namedElf L st e) a →
    kernelTranslate st.phys.mem st.satp st.sum .read
      (L.ramdiskStart + (e.offset.setWidth 64 + a)) = some pa → InUse st.phys (frame pa)

/-- The pages of RAM the kernel has in use. -/
def UsedRam (st : KState) (q : PageNo) : Prop := KernelRam q ∧ InUse st.phys q.number

/-- A file whose headers the call does not overwrite, and none of whose pages covers memory that
the kernel still needs on the new table. -/
structure Proper (L : Layout) (st : KState) (e : RamdiskEntry) : Prop where
  held : HeadersHeld L st e
  clear : SegmentsAvoid (namedElf L st e) (UsedRam st)

/-- The call has gone through: the process runs on a new page table, has a stack there, and the
kernel finds there all it had in use. -/
structure ExecDone (L : Layout) (st : KState) (r : Slot × KState) : Prop where
  resumed : r.1 = st.currentProc ∧ r.2.currentProc = st.currentProc
  table : (r.2.processTable st.currentProc).pageTable = some r.2.satp ∧
    (r.2.processTable st.currentProc).pageTable ≠ st.current.pageTable
  stack : ∃ n, entryOf r.2 st.currentProc (pageNo userStackBase) =
    userWord n (pteU ||| pteR ||| pteW) ∧ r.2.phys.mem n = Page.zero
  kernel : ∀ q, UsedRam st q → entryOf r.2 st.currentProc q = (kernelEntry L q).getD 0

/-- The call has answered with an error and changed nothing else. -/
def ExecRefused (st : KState) (r : Slot × KState) : Prop :=
  ∃ w : Word, w.msb = true ∧ r = (st.currentProc, st.setA0 st.currentProc w)

/-- The name is rejected, or there is no such file, or the file can be read as an image for which
there are frames. -/
inductive ExecSettled (L : Layout) (st : KState) : Prop
  | badName (hn : userStrOk st.phys.mem (st.rootOf st.currentProc) st.load
      (st.frameOf st.currentProc).a0 nameMax = .ok false)
  | noEntry (hn : userStrOk st.phys.mem (st.rootOf st.currentProc) st.load
      (st.frameOf st.currentProc).a0 nameMax = .ok true)
      (he : ramdiskGetEntry (diskByte L st) st.load (st.frameOf st.currentProc).a0 (nameMax + 1) =
        .ok none)
  | loads (hn : userStrOk st.phys.mem (st.rootOf st.currentProc) st.load
      (st.frameOf st.currentProc).a0 nameMax = .ok true)
      (e : RamdiskEntry) (he : FindsFile L st e) (phoff phnum start : ℕ) (pl : List Placement)
      (maxEnd : Addr) (hp : Plan (namedElf L st e) phoff phnum start pl maxEnd)
      (hfit : StackFits (namedElf L st e) st.phys)

theorem SameHeaders.stackFits {r r' : Addr → Except Stop Byte} {p : Phys} (h : SameHeaders r r')
    (hfit : StackFits r p) : StackFits r' p := by
  intro phoff phnum start pl maxEnd hplan
  obtain ⟨pl', hplan', hpages⟩ := h.symm.plan hplan
  have hlen := congrArg List.length hpages
  rw [List.length_map, List.length_map] at hlen
  have hle := hfit _ _ _ _ _ hplan'
  rwa [List.map_append, hpages, ← List.map_append, hlen] at hle

theorem named_same {e : RamdiskEntry} {newPt : ℕ} {p1 p2 : Phys} (hs : Sound L st)
    (hst : Steady tf st) (ha : pmmAllocPage st.phys = (some newPt, p1))
    (hk : vmmMapKernel L newPt (p1.zeroPage newPt) = .ok p2) (hheld : HeadersHeld L st e) :
    SameHeaders (namedElf L st e)
      (fun a => diskByte L (execing st newPt p2) (e.offset.setWidth 64 + a)) := by
  have htree := execTree hs ha hk
  have htrans : ∀ va, kernelTranslate (execing st newPt p2).phys.mem (execing st newPt p2).satp
      (execing st newPt p2).sum .read va =
      kernelTranslate st.phys.mem st.satp st.sum .read va :=
    fun va => hs.owned.translate_extend (hst.root hs) htree.inUse htree.mem st.sum .read va
  constructor
  · intro a hbyte
    dsimp only [namedElf, diskByte, KState.load, kernelLoad]
    rw [htrans]
    cases hpa : kernelTranslate st.phys.mem st.satp st.sum .read
        (L.ramdiskStart + (e.offset.setWidth 64 + a)) with
    | none => rfl
    | some pa =>
      have hmem : (execing st newPt p2).phys.mem (frame pa) = st.phys.mem (frame pa) :=
        htree.mem _ (hheld a pa hbyte hpa)
      dsimp only
      rw [Memory.byte, Memory.byte, hmem]
  · intro a
    dsimp only [namedElf, diskByte, KState.load, kernelLoad]
    rw [htrans]
    cases kernelTranslate st.phys.mem st.satp st.sum .read
        (L.ramdiskStart + (e.offset.setWidth 64 + a)) with
    | none => exact .error _
    | some pa => exact .ok trivial

theorem Swapped.table_ne {s : KState} (hs : Sound L st) (hst : Steady tf st) (h : Swapped st s)
    {root : ℕ} (hroot : (trees s).root st.currentProc = some root) :
    some root ≠ st.current.pageTable := by
  intro heq
  have hold := hs.root hst.used
  have hold' : st.current.pageTable = some (st.rootOf st.currentProc) := by
    obtain ⟨r, hr⟩ := Option.ne_none_iff_exists'.mp (hs.table _ hst.used)
    rw [KState.current, KState.rootOf, hr]
    rfl
  rw [hold'] at heq
  cases heq
  exact h.fresh _ (hs.owned.inUse (.node st.currentProc []) _ hold).1 [] hroot

theorem ExecCall.settled {s : KState} (hs : Sound L st) (hst : Steady tf st)
    (hheld : ∀ e, FindsFile L st e → HeadersHeld L st e) (h : ExecCall L tf st s)
    (hdone : ExecDone L st (tf, s) ∨ ExecRefused st (tf, s)) : ExecSettled L st := by
  obtain rfl := hst.frame
  cases h with
  | badName hn => exact .badName hn
  | noEntry hn he => exact .noEntry hn he
  | replaced file newPt p1 p2 mid hn he ha hk hl =>
    have hb := bare_execing hs hst ha hk
    obtain ⟨phoff, phnum, start, pl, maxEnd, hplan, himage, hproc⟩ := hb.loaded hl
    have hcount := (execTree hs ha hk).count
    have hroot : (trees mid).root st.currentProc = some newPt := by
      rw [himage.trees_eq, hb.sound.root hb.used, execing_root]
    have hsame := (named_same hs hst ha hk (hheld file he)).symm
    obtain ⟨pl', hplan', -⟩ := hsame.plan hplan
    refine .loads hn file he phoff phnum start pl' maxEnd hplan' (hsame.stackFits ?_)
    rcases hdone with hdone | ⟨w, -, heq⟩
    · obtain ⟨n, hn, hz⟩ := hdone.stack
      have hmem : (vmmFreePt (st.rootOf st.currentProc) mid.phys).mem = mid.phys.mem := by
        rw [vmmFreePt, mem_pmmFreePage, mem_freePageTable]
      refine (stackFits_iff hb hplan hcount).mp ((hb.stack_iff hl hplan).mp ⟨n, ?_, ?_⟩)
      · exact (congrArg (fun m => entry m ((trees mid).root st.currentProc) _) hmem).symm.trans hn
      · exact (congrFun hmem n).symm.trans hz
    · obtain ⟨start', pl', maxEnd', phoff', phnum', hrep, -⟩ := replaced_of_load hs ha hk hl
      have hne := (hrep.swapped hs hst).table_ne hs hst hroot
      have htable := congrArg (fun r => (r.2.processTable st.currentProc).pageTable) heq
      dsimp only at htable
      rw [hproc, KState.setA0, KState.setFrame, modifyProc_self] at htable
      have hexec : (execing st newPt p2).processTable st.currentProc =
        { st.current with pageTable := some newPt } := modifyProc_self _ _ _
      rw [hexec] at htable
      exact absurd htable hne

theorem sysExecCall_replaced {file : RamdiskEntry} {newPt : ℕ} {p1 p2 : Phys}
    (hn : userStrOk st.phys.mem (st.rootOf st.currentProc) st.load (st.frameOf tf).a0 nameMax =
      .ok true)
    (he : ramdiskGetEntry (diskByte L st) st.load (st.frameOf tf).a0 (nameMax + 1) =
      .ok (some file))
    (ha : pmmAllocPage st.phys = (some newPt, p1))
    (hk : vmmMapKernel L newPt (p1.zeroPage newPt) = .ok p2)
    (hl : loadElf (execing st newPt p2) st.currentProc (fun a => diskByte L (execing st newPt p2)
      (file.offset.setWidth 64 + a)) = .ok (true, mid)) :
    sysExecCall L tf st = .ok (tf, { mid with
      satp := newPt, phys := vmmFreePt (st.rootOf st.currentProc) mid.phys }) := by
  unfold sysExecCall
  refine bind_eq_ok.mpr ⟨true, hn, ?_⟩
  rw [if_neg (by decide)]
  refine bind_eq_ok.mpr ⟨some file, he, ?_⟩
  dsimp only
  rw [ha]
  refine bind_eq_ok.mpr ⟨p2, hk, ?_⟩
  exact bind_eq_ok.mpr ⟨(true, mid), hl, rfl⟩

/-- A file that can be read is loaded if there are frames for its pages and one for a stack. -/
theorem exec_loads (hs : Sound L st) (hst : Steady tf st)
    (hn : userStrOk st.phys.mem (st.rootOf st.currentProc) st.load (st.frameOf tf).a0 nameMax =
      .ok true) (hf : ExecFile L tf st elf) {phoff phnum start : ℕ} {pl : List Placement}
    {maxEnd : Addr} (hplan : Plan elf phoff phnum start pl maxEnd)
    (hroom : (kernelTables ∪ tablesOf (pl.map (·.page))).card + pl.length + 2 ≤
      freeFrames st.phys) :
    ∃ newPt p1 p2 mid,
      pmmAllocPage st.phys = (some newPt, p1) ∧ vmmMapKernel L newPt (p1.zeroPage newPt) = .ok p2 ∧
      loadElf (execing st newPt p2) st.currentProc elf = .ok (true, mid) ∧
      sysExecCall L tf st = .ok (tf, { mid with
        satp := newPt, phys := vmmFreePt (st.rootOf st.currentProc) mid.phys }) := by
  obtain ⟨file, newPt, p1, p2, he, ha, hk, rfl⟩ := hf
  have hb := bare_execing hs hst ha hk
  have hcount := (execTree hs ha hk).count
  have hcard := kernelTables_card
  obtain ⟨mid, hl⟩ := loadElf_returns hplan hb.sound.owned (hb.sound.root hb.used) (by
    rw [hb.tables]
    have hphys : freeFrames (execing st newPt p2).phys = freeFrames p2 := rfl
    omega)
  exact ⟨newPt, p1, p2, mid, ha, hk, hl, sysExecCall_replaced hn he ha hk hl⟩

theorem StackFits.room (h : StackFits elf st.phys) {phoff phnum start : ℕ} {pl : List Placement}
    {maxEnd : Addr} (hplan : Plan elf phoff phnum start pl maxEnd) :
    (kernelTables ∪ tablesOf (pl.map (·.page))).card + pl.length + 2 ≤ freeFrames st.phys := by
  have hfit := h _ _ _ _ _ hplan
  rw [List.map_append, tablesOf_append] at hfit
  have hsub := Finset.card_le_card (Finset.union_subset_union_right (s := kernelTables)
    (@Finset.subset_union_left _ _ (tablesOf (pl.map (·.page)))
      (tablesOf ([stackPlacement].map (·.page)))))
  omega

theorem execDone_of_load {newPt : ℕ} {p1 p2 : Phys} (hs : Sound L st) (hst : Steady tf st)
    (ha : pmmAllocPage st.phys = (some newPt, p1))
    (hk : vmmMapKernel L newPt (p1.zeroPage newPt) = .ok p2)
    (hl : loadElf (execing st newPt p2) st.currentProc elf = .ok (true, mid))
    (hfit : StackFits elf st.phys) (hclear : SegmentsAvoid elf (UsedRam st)) :
    ExecDone L st (tf, { mid with
      satp := newPt, phys := vmmFreePt (st.rootOf st.currentProc) mid.phys }) := by
  have hb := bare_execing hs hst ha hk
  obtain ⟨phoff, phnum, start, pl, maxEnd, hplan, himage, -⟩ := hb.loaded hl
  obtain ⟨_, _, _, _, _, hrep, -⟩ := replaced_of_load hs ha hk hl
  obtain ⟨n, hstack, hz⟩ := (hb.stack_iff hl hplan).mpr
    ((stackFits_iff hb hplan (execTree hs ha hk).count).mpr hfit)
  have hmem : (vmmFreePt (st.rootOf st.currentProc) mid.phys).mem = mid.phys.mem := by
    rw [vmmFreePt, mem_pmmFreePage, mem_freePageTable]
  have htable : (mid.processTable st.currentProc).pageTable = some newPt :=
    congrArg Process.pageTable hrep.process
  have hroot : (trees mid).root st.currentProc = some newPt := by
    rw [himage.trees_eq, hb.sound.root hb.used, execing_root]
  obtain ⟨_, _, _, _, _, _, _, hld⟩ := loadElf_true hl
  have hcur : mid.currentProc = st.currentProc := by
    rw [hld.result]
    rfl
  have hentry : ∀ q, entryOf { mid with
      satp := newPt, phys := vmmFreePt (st.rootOf st.currentProc) mid.phys } st.currentProc q =
      entryOf mid st.currentProc q :=
    fun q => congrArg (fun m => entry m ((trees mid).root st.currentProc) q) hmem
  refine ⟨⟨hst.frame, hcur⟩, ⟨htable, fun heq => ?_⟩, ⟨n, ?_, ?_⟩, fun q hq => ?_⟩
  · exact (hrep.swapped hs hst).table_ne hs hst hroot (htable.symm.trans heq)
  · exact (hentry _).trans hstack
  · exact (congrFun hmem n).trans hz
  · have hno : lastAt pl q = none := by
      rw [lastAt_none]
      intro x hx hpage
      exact (hplan.avoids_iff _).mp hclear x hx (hpage ▸ hq)
    exact (hentry q).trans ((himage.entry_none hq.1.ne_stack hno).trans (hb.entries q))

theorem sysExecCall_badName
    (hn : userStrOk st.phys.mem (st.rootOf st.currentProc) st.load (st.frameOf tf).a0 nameMax =
      .ok false) : sysExecCall L tf st = .ok (tf, st.setA0 tf eFault) := by
  unfold sysExecCall
  exact bind_eq_ok.mpr ⟨false, hn, if_pos rfl⟩

theorem sysExecCall_noEntry
    (hn : userStrOk st.phys.mem (st.rootOf st.currentProc) st.load (st.frameOf tf).a0 nameMax =
      .ok true)
    (he : ramdiskGetEntry (diskByte L st) st.load (st.frameOf tf).a0 (nameMax + 1) = .ok none) :
    sysExecCall L tf st = .ok (tf, st.setA0 tf eNoent) := by
  unfold sysExecCall
  refine bind_eq_ok.mpr ⟨true, hn, ?_⟩
  rw [if_neg (by decide)]
  exact bind_eq_ok.mpr ⟨none, he, rfl⟩

theorem exec_settled (hs : Sound L st) (hst : Steady tf st)
    (hfile : ∀ e, FindsFile L st e → Proper L st e) (h : ExecSettled L st) :
    ∃ r, sysExecCall L tf st = .ok r ∧ (ExecDone L st r ∨ ExecRefused st r) := by
  obtain rfl := hst.frame
  cases h with
  | badName hn => exact ⟨_, sysExecCall_badName hn, Or.inr ⟨eFault, by decide, rfl⟩⟩
  | noEntry hn he => exact ⟨_, sysExecCall_noEntry hn he, Or.inr ⟨eNoent, by decide, rfl⟩⟩
  | loads hn e he phoff phnum start pl maxEnd hplan hfit =>
    -- the frames suffice for the kernel's part of the new table
    have hroom := hfit.room hplan
    have hkernel := Finset.card_le_card (@Finset.subset_union_left _ _ kernelTables
      (tablesOf (pl.map (·.page))))
    rw [kernelTables_card] at hkernel
    obtain ⟨newPt, p1, ha⟩ := pmmAllocPage_returns (p := st.phys) (by omega)
    have hnone : (spare (trees st)).root none = none := rfl
    obtain ⟨p2, hk⟩ := (kernelTree (L := L) (owned_spare hs.owned st.currentProc) hnone ha).returns
      (by omega)
    have hsame := named_same hs hst ha hk (hfile e he).held
    obtain ⟨pl', hplan', -⟩ := hsame.plan hplan
    have hfit' := hsame.stackFits hfit
    obtain ⟨newPt', p1', p2', mid, ha', hk', hl, hret⟩ :=
      exec_loads hs hst hn ⟨e, newPt, p1, p2, he, ha, hk, rfl⟩ hplan' (hfit'.room hplan')
    exact ⟨_, hret, Or.inl (execDone_of_load hs hst ha' hk' hl hfit'
      (hsame.avoids (hfile e he).clear))⟩

/-- In a run whose images keep clear of the kernel's RAM, and for a file that keeps clear of what
the kernel has in use, `SYS_EXEC` succeeds or fails without a trace exactly when the name is
rejected, there is no such file, or the file can be read as an image for which there are frames. -/
theorem exec_atomic_iff (h : Conducted L ram ramClear st) (h8 : regs.scause = 8)
    (h7 : regs.a7 = sysExec)
    (hfile : ∀ e, FindsFile L (entered (saveFrame regs st)) e →
      Proper L (entered (saveFrame regs st)) e) :
    (∃ r, trapHandler L input st.sscratch (saveFrame regs st) = .ok r ∧
      (ExecDone L (entered (saveFrame regs st)) r ∨
        ExecRefused (entered (saveFrame regs st)) r)) ↔
    ExecSettled L (entered (saveFrame regs st)) := by
  have hset := reachable_settled h.reachable
  obtain ⟨hs, hst⟩ := hset.called regs
  rw [trapHandler_exec hset h8 h7]
  constructor
  · rintro ⟨⟨tf, s⟩, hret, hr⟩
    obtain ⟨rfl, hcall⟩ := sysExecCall_result hret
    exact hcall.settled hs hst (fun e he => (hfile e he).held) hr
  · exact exec_settled hs hst hfile

end Atomic

section Again

variable {L : Layout} {st : KState}

def execCall : TrapFrame := { TrapFrame.zero with scause := 8, a7 := sysExec, a0 := selfName }

theorem self_conducted (hr : L.ramdiskStart = smallLayout.ramdiskStart)
    (hle : smallLayout.protectedEnd ≤ L.protectedEnd) (hn : 143 ≤ ramLast - L.protectedEnd)
    (h : kmain L selfRam = .ok st) : Conducted L selfRam ramClear st :=
  (selfImage.widen L hr hle (self_fits hn)).conducted self_clear h

theorem self_call (hr : L.ramdiskStart = smallLayout.ramdiskStart)
    (hle : smallLayout.protectedEnd ≤ L.protectedEnd) (hn : 144 ≤ ramLast - L.protectedEnd)
    (h : kmain L selfRam = .ok st) (hrun : Conducted L selfRam ramClear st) :
    freeFrames st.phys + 143 = ramLast - L.protectedEnd ∧
    userStrOk (entered (saveFrame execCall st)).phys.mem
      ((entered (saveFrame execCall st)).rootOf st.currentProc)
      (entered (saveFrame execCall st)).load
      ((entered (saveFrame execCall st)).frameOf st.currentProc).a0 nameMax = .ok true ∧
    ramdiskGetEntry (diskByte L (entered (saveFrame execCall st)))
      (entered (saveFrame execCall st)).load
      ((entered (saveFrame execCall st)).frameOf st.currentProc).a0 (nameMax + 1) =
      .ok (some ⟨48, 120⟩) := by
  obtain ⟨elf, phoff, phnum, start, pl, maxEnd, -, hinst, -, himg⟩ := installed h
  obtain ⟨rfl, -, -⟩ := himg (selfImage.widen L hr hle (self_fits (by omega)))
  have hset := reachable_settled (.boot st h)
  have hframe := frameOf_entered hset.steady execCall
  rw [hset.steady.frame] at hframe
  have ha0 : ((entered (saveFrame execCall st)).frameOf st.currentProc).a0 = selfName := by
    rw [hframe]
    rfl
  rw [ha0]
  exact ⟨self_frames hinst hn, self_named hr hle h hrun ⟨start, maxEnd, hinst⟩ execCall⟩

theorem named_file {e : RamdiskEntry} (h : Conducted L ram ramClear st)
    (hlook : ramdiskGetEntry (diskByte L (entered (saveFrame regs st)))
      (entered (saveFrame regs st)).load
      ((entered (saveFrame regs st)).frameOf st.currentProc).a0 (nameMax + 1) = .ok (some e))
    (hfree : 69 ≤ freeFrames st.phys) :
    ∃ elf, ExecFile L st.currentProc (entered (saveFrame regs st)) elf ∧
      ∀ a, Below (imageReader L ram (e.offset.setWidth 64 + a)) (elf a) := by
  have hset := reachable_settled h.reachable
  obtain ⟨hs, hst⟩ := hset.called regs
  obtain ⟨newPt, p1, ha⟩ := pmmAllocPage_returns (p := st.phys) (by omega)
  have hnone : (spare (trees (entered (saveFrame regs st)))).root none = none := rfl
  obtain ⟨p2, hk⟩ := (kernelTree (L := L) (owned_spare hs.owned st.currentProc) hnone ha).returns
    (by
      have hphys : freeFrames (entered (saveFrame regs st)).phys = freeFrames st.phys := rfl
      omega)
  have htree := @execTree _ (entered (saveFrame regs st)) _ _ _ hs ha hk
  refine ⟨_, ⟨e, newPt, p1, p2, hlook, ha, hk, rfl⟩, fun a => ?_⟩
  exact diskByte_image h (s := execing (entered (saveFrame regs st)) newPt p2) rfl htree.inUse
    htree.mem _

theorem self_file (hr : L.ramdiskStart = smallLayout.ramdiskStart)
    (hle : smallLayout.protectedEnd ≤ L.protectedEnd) (hn : 212 ≤ ramLast - L.protectedEnd)
    (h : kmain L selfRam = .ok st) (hrun : Conducted L selfRam ramClear st) :
    ∃ elf, ExecFile L st.currentProc (entered (saveFrame execCall st)) elf ∧
      ∀ a, Below (selfFile a) (elf a) := by
  obtain ⟨hfree, -, hlook⟩ := self_call hr hle (by omega) h hrun
  obtain ⟨elf, hfile, hread⟩ := named_file hrun hlook (by omega)
  exact ⟨elf, hfile, fun a b hb => hread a b (imageReader_widen hr hle _ b hb)⟩

theorem self_avoids {elf : Addr → Except Stop Byte} (hread : ∀ a, Below (selfFile a) (elf a)) :
    Plan elf 64 1 0x400000 selfImage.placements 0x401000 ∧ SegmentsAvoid elf KernelRam := by
  have hplan : Plan elf 64 1 0x400000 selfImage.placements 0x401000 := selfImage.plan.below hread
  refine ⟨hplan, hplan.avoids_iff KernelRam |>.mpr fun x hx hram => ?_⟩
  exact self_clear x hx hram

theorem self_stackFits {elf : Addr → Except Stop Byte} {p : Phys}
    (hplan : Plan elf 64 1 0x400000 selfImage.placements 0x401000) :
    StackFits elf p ↔ 73 ≤ freeFrames p := by
  have hcard : (kernelTables ∪
      tablesOf ((selfImage.placements ++ [stackPlacement]).map (·.page))).card = 70 := by
    have hone : tablesOf ([stackPlacement].map (·.page)) = (pageNo userStackBase).tables :=
      tablesOf_singleton _
    rw [List.map_append, tablesOf_append, hone, ← Finset.union_assoc, self_tables.2]
  have hlen : selfImage.placements.length = 1 := rfl
  constructor
  · intro h
    have hfit := h _ _ _ _ _ hplan
    rw [hcard, hlen] at hfit
    exact hfit
  · intro h phoff phnum start pl maxEnd hplan'
    obtain ⟨rfl, -, -⟩ := hplan.unique hplan'
    rw [hcard, hlen]
    exact h

theorem self_execs (hr : L.ramdiskStart = smallLayout.ramdiskStart)
    (hle : smallLayout.protectedEnd ≤ L.protectedEnd) (hn : 215 ≤ ramLast - L.protectedEnd)
    (h : kmain L selfRam = .ok st) (hrun : Conducted L selfRam ramClear st) :
    ∃ st' elf, takeTrap L execCall ⟨⟨0, []⟩, []⟩ st = .ok st' ∧
      (st'.processTable st.currentProc).pageTable ≠ st.current.pageTable ∧
      ExecFile L st.currentProc (entered (saveFrame execCall st)) elf ∧
      ∀ a, Below (selfFile a) (elf a) := by
  have hset := reachable_settled (.boot st h)
  obtain ⟨hs, hst⟩ := hset.called execCall
  have hcp := hset.steady.frame
  obtain ⟨hfree, hname, -⟩ := self_call hr hle (by omega) h hrun
  obtain ⟨elf, hfile, hread⟩ := self_file hr hle (by omega) h hrun
  obtain ⟨hplan, -⟩ := self_avoids hread
  rw [← hcp] at hfile hname
  have hname' : userStrOk (entered (saveFrame execCall st)).phys.mem
      ((entered (saveFrame execCall st)).rootOf (entered (saveFrame execCall st)).currentProc)
      (entered (saveFrame execCall st)).load
      ((entered (saveFrame execCall st)).frameOf st.sscratch).a0 nameMax = .ok true := by
    rw [← hst.frame]
    exact hname
  obtain ⟨newPt, p1, p2, mid, ha, hk, hl, hret⟩ := exec_loads hs hst hname' hfile hplan (by
    have hlen : selfImage.placements.length = 1 := rfl
    rw [self_tables.1, hlen]
    show _ ≤ freeFrames st.phys
    omega)
  obtain ⟨start, pl, maxEnd, phoff, phnum, hrep, -⟩ := replaced_of_load hs ha hk hl
  refine ⟨_, elf, bind_eq_ok.mpr ⟨_, (trapHandler_exec hset rfl rfl).trans hret, rfl⟩, ?_,
    by rw [← hcp]; exact hfile, hread⟩
  intro hsame
  have hroot := hrep.trees_eq hst
  have hne := @Swapped.table_ne _ _ _ _ hs hst (hrep.swapped hs hst) newPt (by
    rw [hroot, withRoot_self])
  have htable := congrArg Process.pageTable hrep.process
  obtain ⟨f, hcur⟩ := current_entered hset.steady execCall
  rw [hcur] at hne
  exact hne (htable.symm.trans hsame)

/-- On the small image all of it is replaced. -/
theorem program_replaced_iff_self : ∃ st st' elf, Reachable smallLayout selfRam st ∧
    takeTrap smallLayout execCall ⟨⟨0, []⟩, []⟩ st = .ok st' ∧
    ProgramReplaced smallLayout st st' elf := by
  obtain ⟨st, h⟩ := boot_returns selfImage
  have hrun := self_conducted rfl le_rfl (by decide) h
  obtain ⟨st', elf, hret, hnew, hfile, hread⟩ := self_execs rfl le_rfl (by decide) h hrun
  have hroom := small_room
  obtain ⟨hfree, -⟩ := self_call rfl le_rfl (by decide) h hrun
  refine ⟨st, st', elf, .boot st h, hret, ?_⟩
  refine (program_replaced_iff (.boot st h) rfl rfl hret hnew hfile).mpr ?_
  rw [self_stackFits (self_avoids hread).1]
  omega

/-- A kernel image that leaves 215 frames of RAM. -/
def crampedLayout : Layout := pageLayout 0x87F27 (by decide)

/-- There the program is started again without a stack. -/
theorem stack_not_replaced : ∃ st st' elf, Reachable crampedLayout selfRam st ∧
    takeTrap crampedLayout execCall ⟨⟨0, []⟩, []⟩ st = .ok st' ∧
    (st'.processTable st.currentProc).pageTable ≠ st.current.pageTable ∧
    ExecFile crampedLayout st.currentProc (entered (saveFrame execCall st)) elf ∧ WellFormed elf ∧
    ¬ ProgramReplaced crampedLayout st st' elf := by
  have hroom : ramLast - crampedLayout.protectedEnd = 215 := by decide
  obtain ⟨st, h⟩ := boot_returns
    (selfImage.widen crampedLayout rfl (by decide) (self_fits (by omega)))
  have hrun := self_conducted (L := crampedLayout) rfl (by decide) (by omega) h
  obtain ⟨st', elf, hret, hnew, hfile, hread⟩ :=
    self_execs (L := crampedLayout) rfl (by decide) (by omega) h hrun
  obtain ⟨hfree, -⟩ := self_call (L := crampedLayout) rfl (by decide) (by omega) h hrun
  refine ⟨st, st', elf, .boot st h, hret, hnew, hfile, ?_, fun hrep => ?_⟩
  · have hseg : segments elf = [⟨1, 6, 0, 0x400000, 24, 4096⟩] :=
      segments_single (readLe_below hread _ _ _ (by rfl)) (readLe_below hread _ _ _ (by rfl))
        (readPhdr_below hread _ _ (by rfl))
    refine wellFormed_single hseg (by decide) (fun k hk => ?_) (by decide) (by decide)
    obtain ⟨b, hb⟩ := selfFile_ok hk
    exact ⟨b, hread _ b hb⟩
  · have hfit := (stack_mapped_iff (.boot st h) rfl rfl hret hnew hfile).mp hrep.stack
    rw [self_stackFits (self_avoids hread).1] at hfit
    omega

theorem self_proper (hr : L.ramdiskStart = smallLayout.ramdiskStart)
    (hle : smallLayout.protectedEnd ≤ L.protectedEnd) (h : Conducted L selfRam ramClear st) :
    Proper L (entered (saveFrame execCall st)) ⟨48, 120⟩ := by
  have hset := reachable_settled h.reachable
  obtain ⟨hs, hst⟩ := hset.called execCall
  have hread : ∀ a,
      Below (selfFile a) (namedElf L (entered (saveFrame execCall st)) ⟨48, 120⟩ a) := by
    intro a b hb
    exact diskByte_image h (s := entered (saveFrame execCall st)) rfl (fun _ hf => hf)
      (fun _ _ => rfl) _ b (imageReader_widen hr hle _ b hb)
  refine ⟨fun a pa hbyte hpa => ?_, ?_⟩
  · -- the headers are the first 120 bytes
    have ha : a.toNat < 120 := by
      rcases hbyte with hlow | ⟨phoff, phnum, hoff, hnum, ph, hph, k, hk, rfl⟩
      · omega
      · cases hoff.symm.trans (readLe_below hread 0x20 8 64 (by rfl))
        cases hnum.symm.trans (readLe_below hread 0x38 2 1 (by rfl))
        obtain rfl : ph = 64 := List.mem_singleton.mp hph
        rw [BitVec.toNat_add, BitVec.toNat_ofNat]
        have h64 : (64 : Addr).toNat = 64 := rfl
        omega
    have hframe : frame (L.ramdiskStart + ((48 : BitVec 32).setWidth 64 + a)) = 0x80201 := by
      have hstart : smallLayout.ramdiskStart.toNat = 0x80201000 := rfl
      have h48 : ((48 : BitVec 32).setWidth 64).toNat = 48 := rfl
      rw [hr, frame, BitVec.toNat_add, BitVec.toNat_add, hstart, h48]
      omega
    have hsmall : smallLayout.protectedEnd = 0x80204 := by decide
    have hram : KernelRam (pageNo (L.ramdiskStart + ((48 : BitVec 32).setWidth 64 + a))) := by
      rw [KernelRam, number_pageNo]
      rw [frame] at hframe
      simp only [textStart, ramLast]
      omega
    have hkept := h.ram_kept hset.steady.used _ hram
    rw [entryOf, hset.steady.root hset.sound] at hkept
    have hid := kernelTranslate_ram hs.owned (hst.root hs) (by rw [hframe]; decide)
      (by rw [hframe]; decide) hkept (entered (saveFrame execCall st)).sum
    obtain rfl : _ = pa := Option.some.inj (hid.symm.trans hpa)
    rw [hframe]
    exact hs.owned.guard _ (by decide) (by omega)
  · have hplan := (self_avoids hread).1
    exact (hplan.avoids_iff _).mpr fun x hx hq => self_clear x hx hq.1

/-- The first program starts itself again. -/
theorem exec_atomic_iff_self : ∃ st r, Conducted smallLayout selfRam ramClear st ∧
    (∀ e, FindsFile smallLayout (entered (saveFrame execCall st)) e →
      Proper smallLayout (entered (saveFrame execCall st)) e) ∧
    trapHandler smallLayout ⟨⟨0, []⟩, []⟩ st.sscratch (saveFrame execCall st) = .ok r ∧
    (ExecDone smallLayout (entered (saveFrame execCall st)) r ∨
      ExecRefused (entered (saveFrame execCall st)) r) := by
  obtain ⟨st, h⟩ := boot_returns selfImage
  have hrun := self_conducted rfl le_rfl (by decide) h
  have hroom := small_room
  obtain ⟨hfree, hname, hlook⟩ := self_call rfl le_rfl (by decide) h hrun
  have hproper : ∀ e, FindsFile smallLayout (entered (saveFrame execCall st)) e →
      Proper smallLayout (entered (saveFrame execCall st)) e := by
    intro e he
    cases hlook.symm.trans he
    exact self_proper rfl le_rfl hrun
  have hread : ∀ a, Below (selfFile a)
      (namedElf smallLayout (entered (saveFrame execCall st)) ⟨48, 120⟩ a) :=
    fun a => diskByte_image hrun (s := entered (saveFrame execCall st)) rfl (fun _ hf => hf)
      (fun _ _ => rfl) _
  obtain ⟨hplan, -⟩ := self_avoids hread
  have hfit : StackFits (namedElf smallLayout (entered (saveFrame execCall st)) ⟨48, 120⟩)
      (entered (saveFrame execCall st)).phys := by
    rw [self_stackFits hplan]
    show 73 ≤ freeFrames st.phys
    omega
  obtain ⟨r, hret, hr⟩ := (@exec_atomic_iff _ _ _ execCall _ hrun rfl rfl hproper).mpr
    (.loads hname ⟨48, 120⟩ hlook _ _ _ _ _ hplan hfit)
  exact ⟨st, r, hrun, hproper, hret, hr⟩

/-- Where less than the 69 frames of a kernel table are left, the kernel halts. -/
theorem exec_halts_tight : ∃ st, Conducted tightLayout selfRam ramClear st ∧
    (∀ e, FindsFile tightLayout (entered (saveFrame execCall st)) e →
      Proper tightLayout (entered (saveFrame execCall st)) e) ∧
    ¬ ∃ r, trapHandler tightLayout ⟨⟨0, []⟩, []⟩ st.sscratch (saveFrame execCall st) = .ok r ∧
      (ExecDone tightLayout (entered (saveFrame execCall st)) r ∨
        ExecRefused (entered (saveFrame execCall st)) r) := by
  have hroom : ramLast - tightLayout.protectedEnd = 200 := by decide
  obtain ⟨st, h⟩ := boot_returns
    (selfImage.widen tightLayout rfl (by decide) (self_fits (by omega)))
  have hrun := self_conducted (L := tightLayout) rfl (by decide) (by omega) h
  have hset := reachable_settled hrun.reachable
  obtain ⟨hs, hst⟩ := hset.called execCall
  obtain ⟨hfree, hname, hlook⟩ := self_call (L := tightLayout) rfl (by decide) (by omega) h hrun
  have hproper : ∀ e, FindsFile tightLayout (entered (saveFrame execCall st)) e →
      Proper tightLayout (entered (saveFrame execCall st)) e := by
    intro e he
    cases hlook.symm.trans he
    exact self_proper (L := tightLayout) rfl (by decide) hrun
  refine ⟨st, hrun, hproper, ?_⟩
  rintro ⟨⟨tf, s⟩, hret, hr⟩
  rw [trapHandler_exec hset rfl rfl] at hret
  obtain ⟨rfl, hcall⟩ := sysExecCall_result hret
  cases hcall.settled hs hst (fun e he => (hproper e he).held) hr with
  | badName hn => cases hname.symm.trans hn
  | noEntry hn he => cases hlook.symm.trans he
  | loads hn e he phoff phnum start pl maxEnd hp hfit =>
    have hle := hfit.room hp
    have hcard := Finset.card_le_card (@Finset.subset_union_left _ _ kernelTables
      (tablesOf (pl.map (·.page))))
    have hphys : freeFrames (entered (saveFrame execCall st)).phys = freeFrames st.phys := rfl
    rw [kernelTables_card] at hcard
    omega

end Again

end Lazux

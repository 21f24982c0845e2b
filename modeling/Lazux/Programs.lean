import Lazux.HeapExact
import Lazux.Lifetime
import Lazux.Refinement

/-! # What a program can reach

The pages of its image, of its heap and of its stack, with the permissions they were given, and
nothing else: in whole runs, through forks and new images. -/
namespace Lazux

open PagedMemory RadixForest Run

/-- A program in memory: the pages its file asked for, where its heap starts, and whether there
was a frame for its stack. -/
structure Program where
  image : List Placement
  base : Addr
  stack : Bool

def dataFlags : Word := pteV ||| pteU ||| pteR ||| pteW

/-- The flags of a page of the program when its heap ends at `brk`. -/
def Program.page (P : Program) (brk : Addr) (q : PageNo) : Option Word :=
  if q = pageNo userStackBase then if P.stack then some dataFlags else none
  else if P.base.toNat ≤ q.number * 4096 ∧ q.number * 4096 < (pageCeil brk).toNat then
    some dataFlags
  else (lastAt P.image q).map fun x => x.flags ||| pteV

/-- The flags of a page as its process has it. -/
def pageFlags (st : KState) (i : Slot) (q : PageNo) : Option Word :=
  (memoryOf st i q).map UserPage.flags

/-- The pages an ELF file asks for, and where they end. -/
def planOf (elf : Addr → Except Stop Byte) : Except Stop (List Placement × Addr) := do
  let phoff ← readLe elf 0x20 8
  let phnum ← readLe elf 0x38 2
  planSegments elf (phdrAddrs (BitVec.ofNat 64 phoff) phnum) 0

/-- A byte of the file `SYS_EXEC` loads, as it is read once the new table is there. -/
def execFile (L : Layout) (st : KState) (a : Addr) : Except Stop Byte := do
  match ← ramdiskGetEntry (diskByte L st) st.load (st.frameOf st.currentProc).a0 (nameMax + 1) with
  | none => .error (.fault a)
  | some entry =>
    match pmmAllocPage st.phys with
    | (none, _) => .error (.fault a)
    | (some newPt, p1) =>
      let p2 ← vmmMapKernel L newPt (p1.zeroPage newPt)
      diskByte L (execing st newPt p2) (entry.offset.setWidth 64 + a)

def execProgram (L : Layout) (st st' : KState) (i : Slot) : Program where
  image := match planOf (execFile L st) with
    | .ok (pl, _) => pl
    | .error _ => []
  base := (st'.processTable i).heapBreak
  stack := (memoryOf st' i (pageNo userStackBase)).isSome

/-- The program of each process: that of the first file, of the file of the last `SYS_EXEC`, or of
the parent at the time of the fork. -/
def programs (L : Layout) (pl : List Placement) : Watch (Slot → Program) where
  first st := fun _ =>
    ⟨pl, st.current.heapBreak, (memoryOf st st.currentProc (pageNo userStackBase)).isSome⟩
  next P st regs st' := fun i =>
    if (st.processTable i).state = .unused then P st.currentProc
    else if (st'.processTable i).pageTable = (st.processTable i).pageTable then P i
    else execProgram L (entered (saveFrame regs st)) st' i

/-- The runs whose images are laid out and whose heaps stay clear of the devices. -/
def tidy : Conduct where
  file := LaidOut
  growth st := ∀ a ∈ pageSteps (pageCeil st.current.heapBreak)
    (pageCeil (st.current.heapBreak + (st.frameOf st.currentProc).a0)),
    ¬ DevicePage (pageNo a).number

variable {L : Layout} {ram : Memory} {st st' mid : KState} {i : Slot} {q : PageNo}
  {P : Slot → Program}
  {pl : List Placement} {regs : TrapFrame} {elf : Addr → Except Stop Byte}

section Files

variable {phoff phnum start : ℕ} {maxEnd : Addr}

theorem Plan.planOf_eq (h : Plan elf phoff phnum start pl maxEnd) :
    planOf elf = .ok (pl, maxEnd) := by
  rw [planOf, h.phoff_eq, ok_bind, h.phnum_eq, ok_bind, h.segments]

theorem ExecFile.eq (h : ExecFile L st.currentProc st elf) : elf = execFile L st := by
  obtain ⟨entry, newPt, p1, p2, he, ha, hk, rfl⟩ := h
  funext a
  rw [execFile, he, ok_bind]
  dsimp only
  rw [ha]
  dsimp only
  rw [hk, ok_bind]

end Files

section Flags

variable {w : Word} {n : ℕ} {flags : Word}

def wordFlags (w : Word) : Option Word := if UserLeaf w then some (w &&& 0x3FF) else none

theorem pageFlags_eq (st : KState) (i : Slot) (q : PageNo) :
    pageFlags st i q = wordFlags (entryOf st i q) := by
  rw [pageFlags, memoryOf, seenPage, wordFlags]
  split_ifs with h
  · rfl
  · rfl

theorem wordFlags_of_not (h : ¬ UserLeaf w) : wordFlags w = none := if_neg h

theorem wordFlags_userWord (hf : UserFlags flags) (hn : n < 2 ^ 44) (hl : isLeaf flags) :
    wordFlags (userWord n flags) = some (flags ||| pteV) := by
  have hseen := seenPage_userWord (fun _ => Page.zero) hf hn
  rw [if_pos hl, seenPage] at hseen
  rw [wordFlags]
  by_cases hu : UserLeaf (userWord n flags)
  · rw [if_pos hu, Option.some_inj] at hseen
    rw [if_pos hu]
    exact congrArg (fun pg => some (UserPage.flags pg)) hseen
  · rw [if_neg hu] at hseen
    cases hseen

theorem wordFlags_copied : wordFlags (copiedWord n w) = wordFlags w := by
  have hbits : copiedWord n w &&& 0x3FF = w &&& 0x3FF := low_bits fun k hk => getLsbD_copiedWord hk
  rw [wordFlags, wordFlags, hbits, if_congr userLeaf_copiedWord rfl rfl]

theorem wordFlags_data (hn : n < 2 ^ 44) :
    wordFlags (userWord n (pteU ||| pteR ||| pteW)) = some dataFlags := by
  rw [wordFlags_userWord userFlags_heap hn (by decide)]
  decide

theorem pageFlags_isSome : (memoryOf st i q).isSome = (pageFlags st i q).isSome :=
  Option.isSome_map.symm

end Flags

section Loads

variable {ι : Type*} {lo : ℕ} {K : Forest ι} {x : ι} {p0 p1 p2 : Phys} {page : ℕ}

/-- A loaded tree has the pages of the image and perhaps a stack, if the image leaves that page
alone. -/
theorem loaded_flags (h0 : ∀ q, entry p0.mem (K.root x) q = (kernelEntry L q).getD 0)
    (hreal : Realised lo K x pl p0 p1) (hplaced : StackPlaced lo K x page p1 p2)
    (hflags : ∀ y ∈ pl, UserFlags y.flags ∧ isLeaf y.flags) :
    (∀ q, q ≠ pageNo userStackBase → wordFlags (entry p2.mem (K.root x) q) =
      (lastAt pl q).map fun y => y.flags ||| pteV) ∧
    ((∀ y ∈ pl, y.page ≠ pageNo userStackBase) →
      wordFlags (entry p2.mem (K.root x) (pageNo userStackBase)) = none ∨
      wordFlags (entry p2.mem (K.root x) (pageNo userStackBase)) = some dataFlags) := by
  have hsize : ∀ {p p' : Phys} {n : ℕ} {c : Page}, Filled K p p' n c → n < 2 ^ 44 := by
    intro p p' n c hf
    have hram := hf.inUse.1.2
    simp only [ramLast] at hram
    omega
  have hfile : ∀ q, wordFlags (entry p1.mem (K.root x) q) =
      (lastAt pl q).map fun y => y.flags ||| pteV := by
    intro q
    cases hl : lastAt pl q with
    | none =>
      rw [hreal.absent q hl, h0]
      exact wordFlags_of_not (userLeaf_kernelEntry q)
    | some y =>
      obtain ⟨n, hf, he⟩ := hreal.present q y hl
      obtain ⟨huser, hleaf⟩ := hflags y (lastAt_some hl).1
      rw [he, wordFlags_userWord huser (hsize hf) hleaf, Option.map_some]
  refine ⟨fun q hq => ?_, fun hclear => ?_⟩
  · rw [hplaced.entry_of_ne hq]
    exact hfile q
  · cases hplaced with
    | mapped hp hfill =>
      right
      rw [hp.entries, if_pos rfl, Option.getD_some]
      exact wordFlags_data (hsize hfill)
    | lost T hT hp hfull =>
      left
      have hnone : lastAt pl (pageNo userStackBase) = none :=
        lastAt_none.mpr fun y hy => hclear y hy
      rw [hp.entries, Option.getD_none, hfile, hnone, Option.map_none]

end Loads

section Shapes

variable {phoff phnum start : ℕ} {maxEnd : Addr} {A : Program}

/-- The pages of process `i` are those of the program `A`. -/
structure Shaped (L : Layout) (A : Program) (st : KState) (i : Slot) : Prop where
  heap : HeapKept L A.base st i
  base : A.base.toNat ≤ 0x3FFFE000
  image : ∀ x ∈ A.image, x.page.number * 4096 < A.base.toNat
  pages : ∀ q, pageFlags st i q = A.page (st.processTable i).heapBreak q

theorem Shaped.congr (h : Shaped L A st i) (he : ∀ q, entryOf st' i q = entryOf st i q)
    (hb : (st'.processTable i).heapBreak = (st.processTable i).heapBreak)
    (hm : (st'.processTable i).heapMax = (st.processTable i).heapMax) : Shaped L A st' i := by
  refine ⟨h.heap.congr he hb hm, h.base, h.image, fun q => ?_⟩
  rw [hb, ← h.pages q, pageFlags_eq, pageFlags_eq, he]

theorem Shaped.plain (h : Shaped L A st i) (hp : Plain st st') : Shaped L A st' i := by
  obtain ⟨f, s, c, hproc⟩ := hp.process i
  refine h.congr (hp.entry_eq i) ?_ ?_
  · rw [hproc]
  · rw [hproc]

theorem Shaped.break_le (h : Shaped L A st i) :
    (st.processTable i).heapBreak.toNat ≤ 0x3FFFE000 := by
  rcases h.heap.bounded with hb | hb
  · rw [hb]
    exact h.base
  · exact hb

theorem shaped_loaded (hf : LaidOut elf) (hplan : Plan elf phoff phnum start pl maxEnd)
    (hb : (st.processTable i).heapBreak = pageCeil maxEnd)
    (hm : (st.processTable i).heapMax = userStackBase - 4096)
    (he : ∀ q, entryOf st i q = (kernelEntry L q).getD 0 ∨
      ∃ n flags, entryOf st i q = userWord n flags ∧
        (q = pageNo userStackBase ∧ flags = pteU ||| pteR ||| pteW ∨
          ∃ x ∈ pl, x.page = q ∧ x.flags = flags))
    (himage : ∀ q, q ≠ pageNo userStackBase → wordFlags (entryOf st i q) =
      (lastAt pl q).map fun y => y.flags ||| pteV)
    (hstack : wordFlags (entryOf st i (pageNo userStackBase)) = none ∨
      wordFlags (entryOf st i (pageNo userStackBase)) = some dataFlags) :
    Shaped L ⟨pl, pageCeil maxEnd, (memoryOf st i (pageNo userStackBase)).isSome⟩ st i := by
  obtain ⟨hend, hpages⟩ := hf.low hplan
  have hceil := @pageCeil_toNat maxEnd (by omega)
  have hbelow : ∀ x ∈ pl, x.page.number * 4096 < (pageCeil maxEnd).toNat := by
    intro x hx
    have := hpages x hx
    omega
  have haligned : (pageCeil maxEnd).toNat % 4096 = 0 := by omega
  refine ⟨heapKept_loaded hplan hbelow ?_ hb hm he, ?_, hbelow, fun q => ?_⟩
  · rw [hplan.avoids_iff]
    intro x hx hguard
    have := hpages x hx
    rw [hguard] at this
    unfold guardPage at this
    omega
  · show (pageCeil maxEnd).toNat ≤ _
    omega
  · rw [pageFlags_eq, Program.page, hb, pageCeil_of_aligned haligned]
    by_cases hq : q = pageNo userStackBase
    · subst hq
      rw [if_pos rfl, pageFlags_isSome, pageFlags_eq]
      rcases hstack with hs | hs
      · rw [hs]
        rfl
      · rw [hs]
        rfl
    · rw [if_neg hq, if_neg fun h => absurd h.2 (Nat.not_lt.mpr h.1)]
      exact himage q hq

theorem LaidOut.off_stackPage (hf : LaidOut elf) (hplan : Plan elf phoff phnum start pl maxEnd) :
    ∀ x ∈ pl, x.page ≠ pageNo userStackBase := by
  intro x hx he
  obtain ⟨hend, hpages⟩ := hf.low hplan
  have hlt := hpages x hx
  rw [he] at hlt
  have hstack : (pageNo userStackBase).number * 4096 = 0x3FFFF000 := by decide
  omega

theorem LaidOut.placed_flags (hf : LaidOut elf) (hplan : Plan elf phoff phnum start pl maxEnd) :
    ∀ x ∈ pl, UserFlags x.flags ∧ isLeaf x.flags := fun x hx =>
  ⟨planSegments_userFlags hplan.segments x hx, (hf.laid hplan).accessible x hx⟩

theorem Installed.shaped (hf : LaidOut elf) (hplan : Plan elf phoff phnum start pl maxEnd)
    (h : Installed L st pl start maxEnd) :
    Shaped L ⟨pl, st.current.heapBreak,
      (memoryOf st st.currentProc (pageNo userStackBase)).isSome⟩ st st.currentProc := by
  obtain ⟨p0, p1, page, ho, hkernel, htables, hcount, hreal, hstack⟩ := h.memory
  obtain ⟨himage, hpage⟩ := loaded_flags hkernel hreal hstack (hf.placed_flags hplan)
  rw [h.heapBreak]
  exact shaped_loaded hf hplan h.heapBreak h.heapMax h.entry_cases himage
    (hpage (hf.off_stackPage hplan))

theorem Replaced.shaped {newPt : ℕ} {tf : Slot} (hst : Steady tf st) (hf : LaidOut elf)
    (hplan : Plan elf phoff phnum start pl maxEnd) (h : Replaced L st st' newPt start pl maxEnd) :
    Shaped L ⟨pl, pageCeil maxEnd,
      (memoryOf st' st.currentProc (pageNo userStackBase)).isSome⟩ st' st.currentProc := by
  have hentries := h.entry_cases hst
  obtain ⟨p2, q1, q2, page, htree, hreal, hplaced, hphys⟩ := h.memory
  set K := withRoot (spare (trees st)) none (some newPt) with hK
  have hmem : st'.phys.mem = q2.mem := by
    rw [hphys, vmmFreePt, mem_pmmFreePage, mem_freePageTable]
  have hentry : ∀ q, entryOf st' st.currentProc q = entry q2.mem (K.root none) q := by
    intro q
    rw [entryOf, hmem, h.trees_eq hst, withRoot_self, hK, withRoot_self]
  have hkernel : ∀ q, entry p2.mem (K.root none) q = (kernelEntry L q).getD 0 := by
    intro q
    rw [hK, withRoot_self]
    exact htree.entries q
  obtain ⟨himage, hpage⟩ := loaded_flags hkernel hreal hplaced (hf.placed_flags hplan)
  refine shaped_loaded hf hplan ?_ ?_ hentries ?_ ?_
  · rw [h.process]
  · rw [h.process]
  · intro q hq
    rw [hentry]
    exact himage q hq
  · rw [hentry]
    exact hpage (hf.off_stackPage hplan)

variable {increment : Word} {ok : Bool} {phys : Phys} {child tf : Slot}

theorem Shaped.clear (h : Shaped L A st st.currentProc)
    (hgrow : ∀ a ∈ pageSteps (pageCeil st.current.heapBreak)
      (pageCeil (st.current.heapBreak + increment)), ¬ DevicePage (pageNo a).number) :
    Clear st increment := by
  have hbreak : st.current.heapBreak.toNat ≤ 0x3FFFE000 := h.break_le
  refine ⟨fun hmsb _ => ?_, fun _ => hgrow⟩
  have hinc := BitVec.msb_eq_false_iff_two_mul_lt.mp hmsb
  omega

theorem Shaped.grown (h : Shaped L A st st.currentProc) (hs : Sound L st) (hst : Steady tf st)
    (hg : Grow st increment ok phys) (hc : Clear st increment) :
    Shaped L A (Lazux.grown st increment ok phys) st.currentProc := by
  cases ok with
  | false => exact h.congr (hg.entry_failed hs hst hc h.heap _) rfl rfl
  | true =>
    refine ⟨h.heap.grown hs hst hg hc, h.base, h.image, fun q => ?_⟩
    have hb : ((Lazux.grown st increment true phys).processTable st.currentProc).heapBreak =
        st.current.heapBreak + increment := by
      rw [process_grown_self]
      rfl
    have hold := h.pages q
    have hbase : A.base.toNat ≤ st.current.heapBreak.toNat := h.heap.le_break
    have hspan := hg.span hs hc
    have hsum := hspan.sum
    have hhigh := hspan.high
    have hnewCeil := hspan.new
    have holdCeil := hspan.old
    obtain ⟨halign, hbound⟩ := hg.steps hs
    obtain ⟨hnew, hkept⟩ := hg.entry_done hs hst
    have hceil : (pageCeil (st.processTable st.currentProc).heapBreak).toNat =
        (pageCeil st.current.heapBreak).toNat := rfl
    rw [pageFlags_eq] at hold ⊢
    rw [hb, Program.page]
    rw [Program.page] at hold
    by_cases hin : ∃ a ∈ pageSteps (pageCeil st.current.heapBreak)
        (pageCeil (st.current.heapBreak + increment)), q = pageNo a
    · -- a page that is new
      obtain ⟨n, -, -, hn, he⟩ := hnew q hin
      obtain ⟨h1, h2⟩ := (mem_heapSteps halign hbound).mp hin
      have hstack : q ≠ pageNo userStackBase := by
        rintro rfl
        have : (pageNo userStackBase).number * 4096 = 0x3FFFF000 := by decide
        omega
      rw [he, wordFlags_data hn, if_neg hstack, if_pos ⟨by omega, h2⟩]
    · rw [hkept _ q fun _ => hin, hold]
      by_cases hstack : q = pageNo userStackBase
      · rw [if_pos hstack, if_pos hstack]
      · have hiff : (A.base.toNat ≤ q.number * 4096 ∧ q.number * 4096 <
              (pageCeil (st.processTable st.currentProc).heapBreak).toNat) ↔
            (A.base.toNat ≤ q.number * 4096 ∧ q.number * 4096 <
              (pageCeil (st.current.heapBreak + increment)).toNat) := by
          have hnot : ¬ ((pageCeil st.current.heapBreak).toNat ≤ q.number * 4096 ∧
              q.number * 4096 < (pageCeil (st.current.heapBreak + increment)).toNat) :=
            fun h1 => hin ((mem_heapSteps halign hbound).mpr h1)
          omega
        rw [if_neg hstack, if_neg hstack, if_congr hiff rfl rfl]

theorem Shaped.forked (h : Shaped L A st st.currentProc) (hs : Sound L st) (hst : Steady tf st)
    (ha : AllocProc L st (some child) mid) (hne : child ≠ st.currentProc)
    (hc : vmmCopyUvm 2 (mid.rootOf st.currentProc) (mid.rootOf child) mid.phys = .ok phys) :
    Shaped L A (Lazux.forked st mid child phys) child := by
  have hb : ((Lazux.forked st mid child phys).processTable child).heapBreak =
      st.current.heapBreak := by
    rw [Lazux.forked, modifyProc_self]
    rfl
  refine ⟨h.heap.forked hs hst ha hne hc, h.base, h.image, fun q => ?_⟩
  have hold : wordFlags (entryOf st st.currentProc q) = A.page st.current.heapBreak q := by
    rw [← pageFlags_eq]
    exact h.pages q
  rw [pageFlags_eq, hb, ← hold]
  rcases child_entry hs hst ha hne hc q with ⟨-, -, n, -, he, -⟩ | ⟨hnot, he⟩
  · rw [he, wordFlags_copied]
  · rw [he, wordFlags_of_not (userLeaf_kernelEntry q)]
    by_cases hlow : q.number < 2 ^ 19
    · rw [wordFlags_of_not (hnot hlow)]
    · -- nothing of a program lies that high
      have hbreak : st.current.heapBreak.toNat ≤ 0x3FFFE000 := h.break_le
      have hceil := @pageCeil_toNat st.current.heapBreak (by omega)
      have hstack : q ≠ pageNo userStackBase := by
        rintro rfl
        exact hlow (by decide)
      have hbase := h.base
      have hnone : lastAt A.image q = none := by
        apply lastAt_none.mpr
        rintro x hx rfl
        have := h.image x hx
        omega
      rw [hold, Program.page, if_neg hstack, if_neg fun hin => absurd hin.2 (by omega), hnone,
        Option.map_none]

end Shapes

section Runs

theorem BootFile.unique {elf' : Addr → Except Stop Byte} (h : BootFile L ram elf)
    (h' : BootFile L ram elf') : elf = elf' := by
  obtain ⟨rootPt, p1, p2, c, i, mid, entry, ha, hk, hp, he, rfl⟩ := h
  obtain ⟨rootPt', p1', p2', c', i', mid', entry', ha', hk', hp', he', rfl⟩ := h'
  rw [ha] at ha'
  cases ha'
  rw [hk] at hk'
  cases hk'
  have hdisk : ∀ a, diskByte L mid a = diskByte L mid' a := by
    cases hp with
    | created _ hu root stack q1 q2 q3 hroot hmap hstack =>
      cases hp' with
      | created _ hu' root' stack' q1' q2' q3' hroot' hmap' hstack' =>
        have hphys : (mapped L ram rootPt p2 c').phys = (mapped L ram rootPt p2 c).phys := rfl
        rw [hphys, hroot] at hroot'
        cases hroot'
        rw [hmap] at hmap'
        cases hmap'
        rw [hstack] at hstack'
        cases hstack'
        exact fun a => rfl
  have hentry : entry = entry' := by
    rw [funext hdisk, he'] at he
    cases he
    rfl
  funext a
  rw [hdisk, hentry]

theorem shapes_footprint (hs : Sound L st) (hst : Steady st.currentProc st)
    (h : Footprint L st mid)
    (hfile : ∀ elf, st.a7 = sysExec → ExecFile L st.currentProc st elf → tidy.file elf)
    (hgrow : st.a7 = sysSbrk → tidy.growth st)
    (hk : ∀ i, (st.processTable i).state ≠ .unused → Shaped L (P i) st i)
    (hi : (mid.processTable i).state ≠ .unused) :
    Shaped L (if (st.processTable i).state = .unused then P st.currentProc
      else if (mid.processTable i).pageTable = (st.processTable i).pageTable then P i
      else execProgram L st mid i) mid i := by
  cases h.fate hs hst hi with
  | kept hu he f fs hp =>
    rw [if_neg hu, if_pos (by rw [hp])]
    refine (hk i hu).congr he ?_ ?_
    · rw [hp]
    · rw [hp]
  | grown ok phys h7 hg hc hm =>
    subst hc hm
    have hshape := hk _ hst.used
    have hsame : ((grown st (st.frameOf st.currentProc).a0 ok phys).processTable
        st.currentProc).pageTable = (st.processTable st.currentProc).pageTable := by
      rw [process_grown_self]
    rw [if_neg hst.used, if_pos hsame]
    exact hshape.grown hs hst hg (hshape.clear (hgrow h7))
  | forked m phys ha hne hc hm =>
    subst hm
    obtain ⟨hu, -, -⟩ := ha.of_some
    rw [if_pos hu]
    exact (hk _ hst.used).forked hs hst ha hne hc
  | execed newPt entryPc pl maxEnd elf phoff phnum h7 hf hp hr hc =>
    subst hc
    have hplan := hp.planOf_eq
    rw [hf.eq] at hplan
    have hbreak : (mid.processTable st.currentProc).heapBreak = pageCeil maxEnd := by
      rw [hr.process]
    rw [if_neg hst.used, if_neg (hr.new_root hs hst), execProgram, hplan, hbreak]
    exact hr.shaped hst (hfile elf h7 hf) hp

theorem execProgram_congr {s : KState} (hi : (st'.processTable i).heapBreak =
    (mid.processTable i).heapBreak) (he : ∀ q, entryOf st' i q = entryOf mid i q) :
    execProgram L s st' i = execProgram L s mid i := by
  rw [execProgram, execProgram, hi, pageFlags_isSome, pageFlags_isSome, pageFlags_eq, pageFlags_eq,
    he]

theorem Trapped.shaped (h : Trapped L tidy st regs st')
    (hk : ∀ i, (st.processTable i).state ≠ .unused → Shaped L (P i) st i)
    (hi : (st'.processTable i).state ≠ .unused) :
    Shaped L ((programs L pl).next P st regs st' i) st' i := by
  cases h with
  | call mid h8 hs hst hfoot hplain hfile hgrow =>
    have hcalled := plain_called regs st
    have hmid : (mid.processTable i).state ≠ .unused := fun h0 => hi ((hplain.used i).mpr h0)
    have hk' : ∀ j, ((entered (saveFrame regs st)).processTable j).state ≠ .unused →
        Shaped L (P j) (entered (saveFrame regs st)) j := by
      intro j hj
      have hu := fun h0 => hj ((hcalled.used j).mpr h0)
      exact (hk j hu).plain hcalled
    have hshape := (shapes_footprint hs hst hfoot hfile hgrow hk' hmid).plain hplain
    obtain ⟨f, u, c, hrec⟩ := hplain.process i
    obtain ⟨f', u', c', hrec'⟩ := hcalled.process i
    have hprogram : execProgram L (entered (saveFrame regs st)) st' i =
        execProgram L (entered (saveFrame regs st)) mid i := by
      apply execProgram_congr _ (hplain.entry_eq i)
      rw [hrec]
    have hnext : (programs L pl).next P st regs st' i =
        if ((entered (saveFrame regs st)).processTable i).state = .unused then
          P (entered (saveFrame regs st)).currentProc
        else if (mid.processTable i).pageTable =
          ((entered (saveFrame regs st)).processTable i).pageTable then P i
        else execProgram L (entered (saveFrame regs st)) mid i := by
      rw [if_congr (hcalled.used i) rfl rfl, ← hprogram]
      simp only [programs, hrec, hrec']
      rfl
    rw [hnext]
    exact hshape
  | other h8 hplain =>
    have hu := fun h0 => hi ((hplain.used i).mpr h0)
    obtain ⟨f, u, c, hrec⟩ := hplain.process i
    have hnext : (programs L pl).next P st regs st' i = P i := by
      simp only [programs]
      rw [if_neg hu, if_pos (by rw [hrec])]
    rw [hnext]
    exact (hk i hu).plain hplain

theorem watched_shapes {phoff phnum start : ℕ} {maxEnd : Addr} (hb : BootFile L ram elf)
    (hp : Plan elf phoff phnum start pl maxEnd) (h : Watched L ram tidy (programs L pl) P st)
    (hi : (st.processTable i).state ≠ .unused) : Shaped L (P i) st i := by
  induction h generalizing i with
  | boot s h hfile =>
    obtain ⟨elf', phoff', phnum', start', pl', maxEnd', hplan, hinst, hf, -⟩ := installed h
    obtain rfl := hf.unique hb
    obtain ⟨rfl, -, -⟩ := hplan.unique hp
    have hone : i = s.currentProc := by
      by_contra hne
      exact hi (booted_alone h hne)
    subst hone
    exact hinst.shaped (hfile elf' hf) hplan
  | @store P s s' va b h hs ih =>
    have hset := reachable_settled h.conducted.reachable
    cases hs with
    | store _ _ pa hpa =>
      have hplain := plain_store hset hpa b
      have hu := fun h0 => hi ((hplain.used i).mpr h0)
      exact (ih hu).plain hplain
  | @trap P s s' regs input h hs hexec hgrow ih =>
    have hset := reachable_settled h.conducted.reachable
    exact (hs.trapped hset hexec hgrow).shaped (fun j hj => ih hj) hi

variable {acc : Access} {va : Addr}

theorem translate_iff (hs : Sound L st) (hi : (st.processTable i).state ≠ .unused) :
    (userTranslate st.phys.mem (st.rootOf i) acc va).isSome ↔ Canonical va ∧
      ∃ w, pageFlags st i (pageNo va) = some w ∧ HardwareLeaf w ∧ permits w acc := by
  have hroot := hs.root hi
  have hthree := hs.owned.threeLevel hroot
  have hentry : entryOf st i (pageNo va) = entry st.phys.mem (some (st.rootOf i)) (pageNo va) := by
    rw [entryOf, hroot]
  have hbit : ∀ k < 10, (entryOf st i (pageNo va) &&& 0x3FF).getLsbD k =
      (entryOf st i (pageNo va)).getLsbD k := by
    intro k hk
    have hm : ∀ k : Fin 10, (0x3FF : Word).getLsbD k.val = true := by decide
    rw [BitVec.getLsbD_and, hm ⟨k, hk⟩, Bool.and_true]
  have hleaf : HardwareLeaf (entryOf st i (pageNo va) &&& 0x3FF) ↔
      HardwareLeaf (entryOf st i (pageNo va)) := by
    simp only [HardwareLeaf, hasFlag_pteV, hasFlag_pteR, hasFlag_pteW, hasFlag_pteX,
      hbit 0 (by decide), hbit 1 (by decide), hbit 2 (by decide), hbit 3 (by decide)]
  have hperm : permits (entryOf st i (pageNo va) &&& 0x3FF) acc =
      permits (entryOf st i (pageNo va)) acc := by
    cases acc with
    | read => simp only [permits, hasFlag_pteR, hbit 1 (by decide)]
    | write => simp only [permits, hasFlag_pteW, hbit 2 (by decide)]
  rw [Option.isSome_iff_exists, pageFlags_eq, wordFlags]
  constructor
  · rintro ⟨pa, hpa⟩
    obtain ⟨hc, hl, hu, hp, -⟩ := (userTranslate_iff hthree).mp hpa
    rw [← hentry] at hl hu hp
    refine ⟨hc, _, if_pos ⟨hl.1, hardwareLeaf_isLeaf hl, hu⟩, hleaf.mpr hl, ?_⟩
    rw [hperm]
    exact hp
  · rintro ⟨hc, w, hw, hl, hp⟩
    by_cases hu : UserLeaf (entryOf st i (pageNo va))
    · rw [if_pos hu, Option.some_inj] at hw
      subst hw
      rw [hperm] at hp
      rw [hleaf] at hl
      rw [hentry] at hl hp hu
      exact ⟨_, (userTranslate_iff hthree).mpr ⟨hc, hl, hu.2.2, hp, rfl⟩⟩
    · rw [if_neg hu] at hw
      cases hw

/-- In every run a process can read and write exactly the addresses of its program, to the page:
those of segments with the permission, of the heap up to the page of the break and of the stack. -/
theorem address_space_exact {phoff phnum start : ℕ} {maxEnd : Addr} (hb : BootFile L ram elf)
    (hp : Plan elf phoff phnum start pl maxEnd) (h : Watched L ram tidy (programs L pl) P st)
    (hi : (st.processTable i).state ≠ .unused) (acc : Access) (va : Addr) :
    (userTranslate st.phys.mem (st.rootOf i) acc va).isSome ↔ Canonical va ∧
      ∃ w, (P i).page (st.processTable i).heapBreak (pageNo va) = some w ∧ HardwareLeaf w ∧
        permits w acc := by
  have hset := reachable_settled h.conducted.reachable
  rw [← (watched_shapes hb hp h hi).pages]
  exact translate_iff hset.sound hi

/-- A file of one page that can be read and written is laid out. -/
theorem aligned_laidOut (hf : BootFile smallLayout (segmentRam 0x400000 0) elf) : LaidOut elf := by
  have hread := alignedImage.boot_file hf
  have hseg : segments elf = [⟨1, 6, 0, 0x400000, 0, 4096⟩] :=
    segments_single (readLe_below hread _ _ _ (by rfl)) (readLe_below hread _ _ _ (by rfl))
      (readPhdr_below hread _ _ (by rfl))
  constructor
  · intro ph hph
    rw [hseg] at hph
    obtain rfl := List.mem_singleton.mp hph
    decide
  · rw [hseg]
    exact List.pairwise_singleton _ _
  · intro ph hph
    rw [hseg] at hph
    obtain rfl := List.mem_singleton.mp hph
    exact Or.inl (by decide)

/-- After boot the first program can write to its page and to nothing behind it. -/
theorem address_space_exact_aligned : ∃ pl P st,
    Watched smallLayout (segmentRam 0x400000 0) tidy (programs smallLayout pl) P st ∧
    (userTranslate st.phys.mem (st.rootOf st.currentProc) .write 0x400123).isSome ∧
    ¬ (userTranslate st.phys.mem (st.rootOf st.currentProc) .read 0x401000).isSome := by
  obtain ⟨st, h⟩ := boot_returns alignedImage
  obtain ⟨elf, phoff, phnum, start, pl, maxEnd, hplan, hinst, hf, himg⟩ := installed h
  obtain ⟨rfl, -, rfl⟩ := himg alignedImage
  have hrun := Watched.boot (C := tidy) (W := programs smallLayout alignedImage.placements) st h
    fun elf hf => aligned_laidOut hf
  have hused := (reachable_settled hrun.conducted.reachable).steady.used
  have hb : st.current.heapBreak = 0x401000 := hinst.heapBreak
  have hpage : ∀ q, q ≠ pageNo userStackBase →
      ((programs smallLayout alignedImage.placements).first st st.currentProc).page
        (st.processTable st.currentProc).heapBreak q =
      if (0x401000 : Addr).toNat ≤ q.number * 4096 ∧ q.number * 4096 < 0x401000 then some dataFlags
      else (lastAt alignedImage.placements q).map fun x => x.flags ||| pteV := by
    intro q hq
    have hceil : (pageCeil 0x401000).toNat = 0x401000 := by decide
    have hb' : (st.processTable st.currentProc).heapBreak = 0x401000 := hb
    simp only [programs]
    rw [hb, hb', Program.page, if_neg hq, hceil]
  refine ⟨_, _, st, hrun, (address_space_exact hf hplan hrun hused .write 0x400123).mpr ?_,
    fun hsome => ?_⟩
  · refine ⟨by decide, dataFlags, ?_, by decide, by decide⟩
    rw [hpage _ (by decide), if_neg (by decide)]
    rfl
  · obtain ⟨-, w, hw, -⟩ := (address_space_exact hf hplan hrun hused .read 0x401000).mp hsome
    rw [hpage _ (by decide), if_neg (by decide)] at hw
    cases hw

end Runs

end Lazux

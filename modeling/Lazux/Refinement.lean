import Lazux.Console
import Lazux.HeapExact
import Lazux.Orphans
import Lazux.Preempt
import Lazux.Tasks
import Lazux.Translation

/-! # The kernel gives every process a memory of its own

What the page tables of the kernel make of physical memory is one memory for each process, and
whatever the kernel does is something the machine of such processes does. -/
namespace Lazux

open PagedMemory RadixForest Run Trace

variable {L : Layout} {ram : Memory} {st st' mid : KState} {tf i j : Slot} {regs : TrapFrame}
  {input : Input} {ls : List Label}

def seenPage (m : Memory) (w : Word) : Option UserPage :=
  if UserLeaf w then some ⟨w &&& 0x3FF, m (frame (pteToPa w))⟩ else none

def memoryOf (st : KState) (i : Slot) (q : PageNo) : Option UserPage :=
  seenPage st.phys.mem (entryOf st i q)

/-- What a record says of a process. Kernel stacks are not its business, and a channel matters
only to a process that sleeps. -/
def Process.task (p : Process) (memory : PageNo → Option UserPage) : Task where
  pid := p.pid
  parent := p.parentPid
  state := p.state
  chan := if p.state = .blocked then p.chan else none
  regs := { p.trapFrame with kernelSp := 0 }
  memory := memory
  heapBreak := p.heapBreak
  heapMax := p.heapMax
  files := p.openFiles

def tasks (st : KState) : Tasks where
  task i := if (st.processTable i).state = .unused then none
    else some ((st.processTable i).task (memoryOf st i))
  current := st.currentProc
  nextPid := st.nextPid
  uart := st.uart
  console := st.console

section Records

theorem task_used (h : (st.processTable i).state ≠ .unused) :
    (tasks st).task i = some ((st.processTable i).task (memoryOf st i)) := if_neg h

theorem task_unused (h : (st.processTable i).state = .unused) : (tasks st).task i = none := if_pos h

theorem tasks_task (hu : (st'.processTable i).state = .unused ↔ (st.processTable i).state = .unused)
    (h : (st.processTable i).state ≠ .unused →
      (st'.processTable i).task (memoryOf st' i) = (st.processTable i).task (memoryOf st i)) :
    (tasks st').task i = (tasks st).task i := by
  by_cases h0 : (st.processTable i).state = .unused
  · rw [task_unused h0, task_unused (hu.mpr h0)]
  · rw [task_used h0, task_used (fun h1 => h0 (hu.mp h1)), h h0]

/-- Memory depends on physical memory and the root. -/
theorem memoryOf_congr (hm : st'.phys.mem = st.phys.mem)
    (hr : (trees st').root i = (trees st).root i) : memoryOf st' i = memoryOf st i := by
  funext q
  rw [memoryOf, memoryOf, entryOf, entryOf, hm, hr]

theorem root_congr (hu : (st'.processTable i).state = .unused ↔ (st.processTable i).state = .unused)
    (ht : (st'.processTable i).pageTable = (st.processTable i).pageTable) :
    (trees st').root i = (trees st).root i := by
  simp only [trees, hu, ht]

theorem tasks_modify {f : Task → Task} (hcur : st'.currentProc = st.currentProc)
    (hnext : st'.nextPid = st.nextPid) (huart : st'.uart = st.uart)
    (hconsole : st'.console = st.console)
    (hother : ∀ j, j ≠ st.currentProc → (tasks st').task j = (tasks st).task j)
    (hself : (tasks st').task st.currentProc = ((tasks st).task st.currentProc).map f) :
    tasks st' = (tasks st).modify f := by
  have htask : (tasks st').task = ((tasks st).modify f).task := by
    funext j
    by_cases hj : j = st.currentProc
    · subst hj
      have hmod : ((tasks st).modify f).task st.currentProc =
          ((tasks st).task st.currentProc).map f := Function.update_self ..
      rw [hself, hmod]
    · have hmod : ((tasks st).modify f).task j = (tasks st).task j := Function.update_of_ne hj ..
      rw [hother j hj, hmod]
  have hall : tasks st' = { (tasks st).modify f with task := (tasks st').task } := by
    simp only [tasks, Tasks.modify, hcur, hnext, huart, hconsole]
  rw [hall, htask]

theorem tasks_modifyProc {g : Process → Process} {f : Task → Task}
    (hu : st.current.state ≠ .unused) (hu' : (g st.current).state ≠ .unused)
    (ht : (g st.current).pageTable = st.current.pageTable)
    (hf : ∀ m, f (st.current.task m) = (g st.current).task m) :
    tasks (st.modifyProc st.currentProc g) = (tasks st).modify f := by
  have hrec : (st.modifyProc st.currentProc g).processTable st.currentProc = g st.current :=
    modifyProc_self _ _ _
  have hroot : ∀ j, (trees (st.modifyProc st.currentProc g)).root j = (trees st).root j := by
    intro j
    by_cases hj : j = st.currentProc
    · subst hj
      apply root_congr
      · rw [hrec]
        exact iff_of_false hu' hu
      · rw [hrec]
        exact ht
    · apply root_congr <;> rw [modifyProc_of_ne _ hj]
  have hmem : ∀ j, memoryOf (st.modifyProc st.currentProc g) j = memoryOf st j := fun j =>
    memoryOf_congr rfl (hroot j)
  refine tasks_modify rfl rfl rfl rfl (fun j hj => ?_) ?_
  · apply tasks_task
    · rw [modifyProc_of_ne _ hj]
    · intro _
      rw [hmem, modifyProc_of_ne _ hj]
  · have hused :
        ((st.modifyProc st.currentProc g).processTable st.currentProc).state ≠ .unused := by
      rw [hrec]
      exact hu'
    rw [task_used hused, hmem, hrec, task_used hu]
    exact congrArg some (hf _).symm

/-- Sleepers are woken. -/
theorem tasks_wakeup (st : KState) (ch : Chan) : tasks (wakeup st ch) = (tasks st).wake ch := by
  have hstate : ∀ i, ((wakeup st ch).processTable i).state = .unused ↔
      (st.processTable i).state = .unused := fun i => (benign_wakeup st ch).used i
  have htask : (tasks (wakeup st ch)).task = ((tasks st).wake ch).task := by
    funext i
    have hwake : ((tasks st).wake ch).task i = ((tasks st).task i).map fun t => t.wake ch := rfl
    rw [hwake]
    by_cases hu : (st.processTable i).state = .unused
    · rw [task_unused hu, task_unused ((hstate i).mpr hu)]
      rfl
    · have hmem : memoryOf (wakeup st ch) i = memoryOf st i :=
        memoryOf_congr rfl (root_congr (hstate i) ((benign_wakeup st ch).table i hu))
      rw [task_used hu, task_used (fun h => hu ((hstate i).mp h)), hmem, Option.map_some,
        Option.some_inj]
      have hrec : (wakeup st ch).processTable i = if (st.processTable i).state = .blocked ∧
          (st.processTable i).chan = some ch then
          { st.processTable i with state := .ready, chan := none } else st.processTable i := rfl
      rw [hrec, Task.wake]
      by_cases hb : (st.processTable i).state = .blocked
      · by_cases hc : (st.processTable i).chan = some ch
        · rw [if_pos ⟨hb, hc⟩, if_pos]
          · simp [Process.task]
          · exact ⟨hb, by rw [Process.task, if_pos hb, hc]⟩
        · rw [if_neg (fun h => hc h.2), if_neg]
          intro h
          apply hc
          rw [← h.2, Process.task, if_pos hb]
      · rw [if_neg (fun h => hb h.1), if_neg (fun h => hb h.1)]
  have hall : tasks (wakeup st ch) =
      { (tasks st).wake ch with task := (tasks (wakeup st ch)).task } :=
    rfl
  rw [hall, htask]

theorem tasks_uartByte (st : KState) (b : Byte) : tasks (uartByte st b) = (tasks st).receive b := by
  have hwake : uartByte st b = if (uartReceive st.uart b).wake then
      wakeup { st with
        uart := (uartReceive st.uart b).uart
        console := st.console ++ (uartReceive st.uart b).echo } .uartRx
      else { st with
        uart := (uartReceive st.uart b).uart
        console := st.console ++ (uartReceive st.uart b).echo } := rfl
  have hsame : (tasks st).receive b = if (uartReceive st.uart b).wake then
      (tasks { st with
        uart := (uartReceive st.uart b).uart
        console := st.console ++ (uartReceive st.uart b).echo }).wake .uartRx
      else tasks { st with
        uart := (uartReceive st.uart b).uart
        console := st.console ++ (uartReceive st.uart b).echo } := rfl
  rw [hwake, hsame]
  split_ifs
  · exact tasks_wakeup _ _
  · rfl

end Records

section Memories

variable {w : Word} {q : PageNo} {n : ℕ} {flags : Word}

theorem decode_userLeaf (h : UserLeaf w) : decodePte 2 w = some (frame (pteToPa w)) := by
  rw [decodePte, if_neg (by norm_num), if_pos ⟨rfl, h.1, h.2.2, h.2.1⟩]

theorem held_userLeaf (h : UserLeaf (entryOf st i q)) :
    held st.phys (trees st) (.node i q.leaf) = some (frame (pteToPa (entryOf st i q))) := by
  rw [held_leaf]
  exact decode_userLeaf h

theorem seenPage_of_not (m : Memory) (h : ¬ UserLeaf w) : seenPage m w = none := if_neg h

theorem seenPage_userWord (m : Memory) (hf : UserFlags flags) (hn : n < 2 ^ 44) :
    seenPage m (userWord n flags) =
      if isLeaf flags then some ⟨flags ||| pteV, m n⟩ else none := by
  by_cases hl : isLeaf flags = true
  · have hsmall : flags.toNat < 1024 := by
      have hor : (flags ||| pteV).toNat < 1024 := hf.small
      rw [BitVec.toNat_or] at hor
      exact lt_of_le_of_lt Nat.left_le_or hor
    have huser : UserLeaf (userWord n flags) :=
      ⟨userWord_valid n flags, isLeaf_userWord hl, userWord_user hf⟩
    rw [seenPage, if_pos huser, if_pos hl, frame_userWord hf hn, userWord,
      low_bits_or (pageAddr n) hsmall]
  · rw [seenPage, if_neg, if_neg hl]
    intro huser
    exact hl (isLeaf_userWord_iff.mp huser.2.1)

theorem seenPage_heap (m : Memory) (hn : n < 2 ^ 44) (hz : m n = Page.zero) :
    seenPage m (userWord n (pteU ||| pteR ||| pteW)) = some Task.blankPage := by
  rw [seenPage_userWord m userFlags_heap hn, if_pos (by decide), hz]
  rfl

theorem memoryOf_other (hs : Sound L st) (hw : Within i st st') (hj : j ≠ i) :
    memoryOf st' j = memoryOf st j := by
  funext q
  have he : entryOf st' j q = entryOf st j q := hw.entry_other hs.owned hj q
  rw [memoryOf, memoryOf, he]
  by_cases hu : UserLeaf (entryOf st j q)
  · have hm := hw.mem_other hs.owned (r := .node j q.leaf) hj (held_userLeaf hu)
    rw [seenPage, seenPage, if_pos hu, if_pos hu, hm]
  · rw [seenPage_of_not _ hu, seenPage_of_not _ hu]

theorem memoryOf_kept (he : entryOf st' i q = entryOf st i q)
    (hm : ∀ f, held st.phys (trees st) (.node i q.leaf) = some f → st'.phys.mem f = st.phys.mem f) :
    memoryOf st' i q = memoryOf st i q := by
  rw [memoryOf, memoryOf, he]
  by_cases hu : UserLeaf (entryOf st i q)
  · rw [seenPage, seenPage, if_pos hu, if_pos hu, hm _ (held_userLeaf hu)]
  · rw [seenPage_of_not _ hu, seenPage_of_not _ hu]

theorem memoryOf_poke (hs : Sound L st) {pa : Addr} {b : Byte}
    (h : held st.phys (trees st) (.node i q.leaf) = some (frame pa)) {s : KState}
    (hs' : s = { st with phys := { st.phys with mem := st.phys.mem.setByte pa b } }) :
    (∀ j, j ≠ i → memoryOf s j = memoryOf st j) ∧
      memoryOf s i = Function.update (memoryOf st i) q
        ((memoryOf st i q).map fun pg =>
          { pg with content := Function.update pg.content (offset pa) b }) := by
  subst hs'
  have hwrites : UserWrites (trees st) st.phys { st.phys with mem := st.phys.mem.setByte pa b } :=
    .setByte hs.owned h (leaf_ne_table _ q) b
  have hentry : ∀ j q', entryOf { st with phys := { st.phys with mem := st.phys.mem.setByte pa b } }
      j q' = entryOf st j q' := fun j q' => hwrites.entry_eq j q'
  -- only one role has the frame
  have hsame : ∀ j q', .node j q'.leaf ≠ (.node i q.leaf : Role Slot (Fin 512)) →
      memoryOf { st with phys := { st.phys with mem := st.phys.mem.setByte pa b } } j q' =
        memoryOf st j q' := by
    intro j q' hne
    apply memoryOf_kept (hentry j q')
    intro f hf
    apply setByte_of_ne
    rintro rfl
    exact hne (hs.owned.distinct _ _ _ hf h)
  constructor
  · intro j hj
    funext q'
    apply hsame
    intro he
    simp only [Role.node.injEq] at he
    exact hj he.1
  · funext q'
    by_cases hq : q' = q
    · subst hq
      have hu : UserLeaf (entryOf st i q') := by
        rw [userLeaf_iff]
        rw [held_leaf] at h
        intro h0
        have h0' : decodePte 2 (entry st.phys.mem ((trees st).root i) q') = none := h0
        rw [h0'] at h
        cases h
      have hframe : frame (pteToPa (entryOf st i q')) = frame pa := by
        have hheld := held_userLeaf hu
        rw [h] at hheld
        exact (Option.some_inj.mp hheld).symm
      rw [Function.update_self, memoryOf, memoryOf, hentry, seenPage, seenPage,
        if_pos hu, if_pos hu,
        hframe, Option.map_some]
      have hbyte : st.phys.mem.setByte pa b (frame pa) =
          Function.update (st.phys.mem (frame pa)) (offset pa) b := Function.update_self ..
      exact congrArg some (congrArg (UserPage.mk _) hbyte)
    · rw [Function.update_of_ne hq]
      apply hsame
      intro he
      simp only [Role.node.injEq, true_and] at he
      apply hq
      obtain ⟨a, c, d⟩ := q
      obtain ⟨a', c', d'⟩ := q'
      simp only [PageNo.leaf, List.cons.injEq, and_true] at he
      obtain ⟨rfl, rfl, rfl⟩ := he
      rfl

variable {increment : Word} {ok : Bool} {phys : Phys}

theorem page_not_table (hs : Sound L st) {f : ℕ}
    (hf : held st.phys (trees st) (.node i q.leaf) = some f) :
    InUse st.phys f ∧ ∀ path : List (Fin 512), path.length ≤ 2 →
      held st.phys (trees st) (.node i path) ≠ some f := by
  refine ⟨(hs.owned.inUse _ f hf).1, fun path hp hpath => ?_⟩
  exact leaf_ne_table i q i path hp (hs.owned.distinct _ _ _ hf hpath)

theorem mem_heapPages : q ∈ ((st.processTable i).task (memoryOf st i)).heapPages increment ↔
    ∃ a ∈ pageSteps (pageCeil (st.processTable i).heapBreak)
      (pageCeil ((st.processTable i).heapBreak + increment)), q = pageNo a := by
  rw [Task.heapPages, List.mem_map]
  constructor
  · rintro ⟨a, ha, rfl⟩
    exact ⟨a, ha, rfl⟩
  · rintro ⟨a, ha, rfl⟩
    exact ⟨a, ha, rfl⟩

theorem memoryOf_grown (hs : Sound L st) (hst : Steady tf st) (h : Grow st increment true phys) :
    memoryOf (grown st increment true phys) st.currentProc =
      ((st.current.task (memoryOf st st.currentProc)).grow increment).memory := by
  obtain ⟨hnew, hold⟩ := h.entry_done hs hst
  have hreal : Realised L.protectedEnd (trees st) st.currentProc _ st.phys phys := h.result hs hst
  have hphys : (grown st increment true phys).phys = phys := rfl
  funext q
  by_cases hq : q ∈ (st.current.task (memoryOf st st.currentProc)).heapPages increment
  · obtain ⟨n, -, hz, hn, he⟩ := hnew q (mem_heapPages.mp hq)
    rw [Task.grow_mem hq, memoryOf, he, hphys]
    exact seenPage_heap _ hn hz
  · rw [Task.grow_not_mem hq]
    apply memoryOf_kept (hold _ q fun _ hin => hq (mem_heapPages.mpr hin))
    intro f hf
    obtain ⟨hu, htable⟩ := page_not_table hs hf
    exact hreal.grows.mem f hu htable

theorem memoryOf_shrunk (hs : Sound L st) (hst : Steady tf st) (h : Grow st increment false phys) :
    ∃ l, l <+: (st.current.task (memoryOf st st.currentProc)).heapPages increment ∧
      memoryOf (grown st increment false phys) st.currentProc =
        ((st.current.task (memoryOf st st.currentProc)).drop l).memory := by
  obtain ⟨done, a, rest, hsteps, hback⟩ := h.result hs hst
  refine ⟨done.map pageNo, ?_, ?_⟩
  · have hpages : (st.current.task (memoryOf st st.currentProc)).heapPages increment =
        (done ++ a :: rest).map pageNo := congrArg (List.map pageNo) hsteps
    rw [hpages, List.map_append]
    exact List.prefix_append _ _
  · funext q
    by_cases hq : q ∈ done.map pageNo
    · obtain ⟨b, hb, rfl⟩ := List.mem_map.mp hq
      have hgone : entryOf (grown st increment false phys) st.currentProc (pageNo b) = 0 :=
        hback.gone b hb
      rw [Task.drop_mem hq, memoryOf, hgone]
      apply seenPage_of_not
      exact fun hu => absurd hu.1 (by decide)
    · rw [Task.drop_not_mem hq]
      apply memoryOf_kept
      · apply hback.remapped.outside
        rintro b hb rfl
        exact hq (List.mem_map_of_mem hb)
      · intro f hf
        obtain ⟨hu, htable⟩ := page_not_table hs hf
        exact hback.mem f hu htable

/-- A child has what its parent has below 2 GB. -/
theorem memoryOf_child {child : Slot} (hs : Sound L st) (hst : Steady tf st)
    (ha : AllocProc L st (some child) mid) (hne : child ≠ st.currentProc)
    (hc : vmmCopyUvm 2 (mid.rootOf st.currentProc) (mid.rootOf child) mid.phys = .ok phys) :
    memoryOf (forked st mid child phys) child = fun q =>
      if q.number < 2 ^ 19 then memoryOf st st.currentProc q else none := by
  have hphys : (forked st mid child phys).phys = phys := rfl
  funext q
  rcases child_entry hs hst ha hne hc q with ⟨hlow, hu, n, hn, he, hm⟩ | ⟨hno, he⟩
  · have hflags : copiedWord n (entryOf st st.currentProc q) &&& 0x3FF =
        entryOf st st.currentProc q &&& 0x3FF := low_bits fun k hk => getLsbD_copiedWord hk
    rw [if_pos hlow, memoryOf, memoryOf, he, hphys, seenPage, seenPage,
      if_pos (userLeaf_copiedWord.mpr hu), if_pos hu, frame_copiedWord hn, hm, hflags]
  · have hnone : memoryOf (forked st mid child phys) child q = none := by
      rw [memoryOf, he]
      exact seenPage_of_not _ (userLeaf_kernelEntry q)
    rw [hnone]
    split_ifs with hlow
    · exact (seenPage_of_not _ (hno hlow)).symm
    · rfl

/-- A new program has the pages of its file, and a stack if a frame was left for it. -/
theorem memoryOf_loaded {newPt start : ℕ} {pl : List Placement} {maxEnd : Addr}
    (hst : Steady tf st) (h : Replaced L st st' newPt start pl maxEnd) :
    ∃ stack, memoryOf st' st.currentProc =
      ((st.current.task (memoryOf st st.currentProc)).load pl stack start maxEnd).memory := by
  obtain ⟨p2, q1, q2, page, htree, hreal, hplaced, hphys⟩ := h.memory
  set K := withRoot (spare (trees st)) none (some newPt) with hK
  have hmem : st'.phys.mem = q2.mem := by
    rw [hphys, vmmFreePt, mem_pmmFreePage, mem_freePageTable]
  have hentry : ∀ q, entryOf st' st.currentProc q = entry q2.mem (K.root none) q := by
    intro q
    rw [entryOf, hmem, h.trees_eq hst, withRoot_self, hK, withRoot_self]
  have hsize : ∀ {p p' : Phys} {n : ℕ} {c : Page}, Filled K p p' n c → n < 2 ^ 44 := by
    intro p p' n c hf
    have hram := hf.inUse.1.2
    simp only [ramLast] at hram
    omega
  -- the pages of the file, in a memory that has grown since
  have hfile : ∀ (T : Finset (List (Fin 512))) (m : ℕ), Grows L.protectedEnd K none T m q1 q2 →
      ∀ q, seenPage q2.mem (entry q1.mem (K.root none) q) = (lastAt pl q).bind Task.imagePage := by
    intro T m hgrows q
    cases hl : lastAt pl q with
    | none =>
      rw [hreal.absent q hl, hK, withRoot_self, htree.entries]
      exact seenPage_of_not _ (userLeaf_kernelEntry q)
    | some x =>
      obtain ⟨n, hf, he⟩ := hreal.present q x hl
      rw [he, seenPage_userWord _ (h.flags x (lastAt_some hl).1) (hsize hf), Option.bind_some,
        Task.imagePage, (hf.grow hgrows).content]
  cases hplaced with
  | mapped hp hfill =>
    refine ⟨true, ?_⟩
    funext q
    have hnew :
      ((st.current.task (memoryOf st st.currentProc)).load pl true start maxEnd).memory q =
        if q = pageNo userStackBase then some Task.blankPage
        else (lastAt pl q).bind Task.imagePage := by
      simp [Task.load]
    rw [hnew, memoryOf, hentry, hmem, hp.entries]
    by_cases hq : q = pageNo userStackBase
    · rw [if_pos hq, if_pos hq, Option.getD_some]
      exact seenPage_heap _ (hsize hfill) hfill.content
    · rw [if_neg hq, if_neg hq, Option.getD_none]
      exact hfile _ _ hp.grows q
  | lost T hT hp =>
    refine ⟨false, ?_⟩
    funext q
    have hnew :
      ((st.current.task (memoryOf st st.currentProc)).load pl false start maxEnd).memory q =
        (lastAt pl q).bind Task.imagePage := by
      simp [Task.load]
    rw [hnew, memoryOf, hentry, hmem, hp.entries, Option.getD_none]
    exact hfile _ _ hp.grows q

end Memories

section Actions

theorem ExecCall.console {tf : Slot} (h : ExecCall L tf st st') : st'.console = st.console := by
  cases h with
  | badName => rfl
  | noEntry => rfl
  | replaced entry newPt p1 p2 mid hn he ha hk hl =>
    obtain ⟨phoff, phnum, start, page, maxEnd, q1, q2, hl⟩ := loadElf_true hl
    rw [hl.result]
    rfl

theorem refines_setFrame (hu : st.current.state ≠ .unused) (f : TrapFrame → TrapFrame) :
    Action (tasks st) [] (tasks (st.setFrame st.currentProc f)) := by
  have hmod : tasks (st.setFrame st.currentProc f) = (tasks st).modify fun t =>
      { t with regs := { f (st.frameOf st.currentProc) with kernelSp := 0 } } :=
    tasks_modifyProc hu hu rfl fun _ => rfl
  rw [hmod]
  exact .regs _

theorem refines_grown {increment : Word} {ok : Bool} {phys : Phys} (hs : Sound L st)
    (hst : Steady tf st) (h : Grow st increment ok phys) :
    Action (tasks st) [] (tasks (grown st increment ok phys)) := by
  have hother : ∀ j, j ≠ st.currentProc →
      (tasks (grown st increment ok phys)).task j = (tasks st).task j := by
    intro j hj
    apply tasks_task
    · rw [process_grown hj]
    · intro _
      rw [memoryOf_other hs (within_grown hs hst h) hj, process_grown hj]
  have hused : ((grown st increment ok phys).processTable st.currentProc).state ≠ .unused := by
    rw [process_grown_self]
    exact hst.used
  cases ok with
  | true =>
    have hmod : tasks (grown st increment true phys) = (tasks st).modify fun t =>
        t.grow increment := by
      refine tasks_modify rfl rfl rfl rfl hother ?_
      rw [task_used hused, memoryOf_grown hs hst h, task_used hst.used, process_grown_self]
      rfl
    rw [hmod]
    exact .grow increment
  | false =>
    obtain ⟨l, hl, hmem⟩ := memoryOf_shrunk hs hst h
    have hmod : tasks (grown st increment false phys) = (tasks st).modify fun t => t.drop l := by
      refine tasks_modify rfl rfl rfl rfl hother ?_
      rw [task_used hused, hmem, task_used hst.used, process_grown_self]
      rfl
    rw [hmod]
    exact .growFailed _ (task_used hst.used) increment l hl

/-- A process that could not be created is nobody. -/
theorem refines_forkFailed (hs : Sound L st) (h : AllocProc L st none mid) :
    Action (tasks st) [] (tasks mid) := by
  have htask : (tasks mid).task = (tasks st).task := by
    funext j
    have hstate : (mid.processTable j).state = .unused ↔ (st.processTable j).state = .unused := by
      cases h with
      | full hu => rfl
      | noRoot i hu ha =>
        by_cases hj : j = i
        · subst hj
          rw [modifyProc_self]
          exact iff_of_true rfl hu
        · rw [modifyProc_of_ne _ hj]
      | noStack i hu root p1 p2 ha hk hb =>
        by_cases hj : j = i
        · subst hj
          rw [modifyProc_self]
          exact iff_of_true rfl hu
        · rw [modifyProc_of_ne _ hj]
    apply tasks_task hstate
    intro hu
    have hmem : memoryOf mid j = memoryOf st j := by
      rcases within_allocProc_none hs h with hall | ⟨i, hi, hw⟩
      · exact memoryOf_other hs (hall (j + 1)) (by simp)
      · apply memoryOf_other hs hw
        rintro rfl
        exact hu hi
    rw [hmem, h.refused_process fun h0 => hu (hstate.mp h0)]
  have hall : tasks mid = { tasks st with console := mid.console, nextPid := mid.nextPid } := by
    have hfields : mid.currentProc = st.currentProc ∧ mid.uart = st.uart := by
      cases h <;> exact ⟨rfl, rfl⟩
    have he : tasks mid = { tasks st with
        task := (tasks mid).task, console := mid.console, nextPid := mid.nextPid } := by
      simp only [tasks, hfields.1, hfields.2]
    rw [he, htask]
  rw [hall]
  apply Action.forkFailed
  cases h with
  | full hu => exact Nat.le_succ _
  | noRoot i hu ha => exact le_refl _
  | noStack i hu root p1 p2 ha hk hb => exact le_refl _

theorem refines_forked {child : Slot} {phys : Phys} (hs : Sound L st) (hst : Steady tf st)
    (ha : AllocProc L st (some child) mid) (hne : child ≠ st.currentProc)
    (hc : vmmCopyUvm 2 (mid.rootOf st.currentProc) (mid.rootOf child) mid.phys = .ok phys) :
    Action (tasks st) [.forked st.current.pid (BitVec.ofNat 32 st.nextPid)]
      (tasks (forked st mid child phys)) := by
  obtain ⟨hfree, hcurrent, hsame⟩ := ha.of_some
  have hmem : ∀ j, j ≠ child → memoryOf (forked st mid child phys) j = memoryOf st j := fun j hj =>
    memoryOf_other hs (within_forked hs hst ha hne hc) hj
  have hchild := memoryOf_child hs hst ha hne hc
  have hmade : mid.nextPid = st.nextPid + 1 ∧ mid.uart = st.uart ∧ mid.console = st.console ∧
      (mid.processTable child).pid = BitVec.ofNat 32 st.nextPid ∧
      (mid.processTable child).state ≠ .blocked := by
    cases ha with
    | created _ hu root stack p1 p2 p3 ha hk hb =>
      refine ⟨rfl, rfl, rfl, ?_, ?_⟩
      · rw [modifyProc_self]
      · rw [modifyProc_self]
        exact fun h => by cases h
  obtain ⟨hnext, huart, hconsole, hpid, -⟩ := hmade
  -- the three kinds of slots
  have hrecChild : (forked st mid child phys).processTable child =
      inherit st.current (st.frameOf st.currentProc) (mid.processTable child) := by
    rw [forked, modifyProc_self, setA0_of_ne _ hne]
  have hrecSelf : (forked st mid child phys).processTable st.currentProc = { st.current with
      trapFrame := { st.current.trapFrame with
        a0 := (BitVec.ofNat 32 st.nextPid).signExtend 64 } } := by
    rw [forked, modifyProc_of_ne _ hne.symm, KState.setA0, KState.setFrame, modifyProc_self, hpid]
    have hold : ({ mid with phys := phys } : KState).processTable st.currentProc = st.current :=
      hsame _ hne.symm
    rw [hold]
  have hrecOther : ∀ j, j ≠ child → j ≠ st.currentProc →
      (forked st mid child phys).processTable j = st.processTable j := by
    intro j hj hjc
    rw [forked, modifyProc_of_ne _ hj, setA0_of_ne _ hjc]
    exact hsame j hj
  have hall : tasks (forked st mid child phys) = { tasks st with
      task := (tasks (forked st mid child phys)).task, nextPid := st.nextPid + 1 } := by
    have h1 : (forked st mid child phys).currentProc = st.currentProc := hcurrent
    have h2 : (forked st mid child phys).nextPid = st.nextPid + 1 := hnext
    have h3 : (forked st mid child phys).uart = st.uart := huart
    have h4 : (forked st mid child phys).console = st.console := hconsole
    simp only [tasks, h1, h2, h3, h4]
  have htask : (tasks (forked st mid child phys)).task =
      Function.update (Function.update (tasks st).task (tasks st).current
        (some { st.current.task (memoryOf st st.currentProc) with
          regs := { (st.current.task (memoryOf st st.currentProc)).regs with
            a0 := (BitVec.ofNat 32 (tasks st).nextPid).signExtend 64 } })) child
        (some ((st.current.task (memoryOf st st.currentProc)).child
          (BitVec.ofNat 32 (tasks st).nextPid))) := by
    funext j
    have hcur : (tasks st).current = st.currentProc := rfl
    rw [hcur]
    by_cases hj : j = child
    · subst hj
      have hused : ((forked st mid j phys).processTable j).state ≠ .unused := by
        rw [hrecChild]
        exact fun h => by cases h
      rw [Function.update_self, task_used hused, hchild, hrecChild]
      have hpid' : (inherit st.current (st.frameOf st.currentProc) (mid.processTable j)).pid =
          BitVec.ofNat 32 st.nextPid := hpid
      simp only [Process.task, Task.child, hpid', Option.some_inj]
      rfl
    · rw [Function.update_of_ne hj]
      by_cases hjc : j = st.currentProc
      · subst hjc
        have hused : ((forked st mid child phys).processTable st.currentProc).state ≠ .unused := by
          rw [hrecSelf]
          exact hst.used
        rw [Function.update_self, task_used hused, hmem _ hj, hrecSelf]
        rfl
      · rw [Function.update_of_ne hjc]
        apply tasks_task
        · rw [hrecOther j hj hjc]
        · intro _
          rw [hmem j hj, hrecOther j hj hjc]
  rw [hall, htask]
  exact .fork _ (task_used hst.used) child (task_unused hfree)

theorem refines_exec (hs : Sound L st) (hst : Steady st.currentProc st)
    (h : ExecCall L st.currentProc st st') : Action (tasks st) [] (tasks st') := by
  rcases h.answers hs with ⟨w, rfl⟩ |
    ⟨newPt, start, pl, maxEnd, elf, phoff, phnum, hrep, hplan, -⟩
  · exact refines_setFrame hst.used _
  · obtain ⟨stack, hmem⟩ := memoryOf_loaded hst hrep
    have hcoord := (h.control hst).1
    have hmod : tasks st' = (tasks st).modify fun t => t.load pl stack start maxEnd := by
      apply tasks_modify (congrArg Coord.current hcoord) (congrArg Coord.nextPid hcoord) h.uart
        h.console
      · intro j hj
        apply tasks_task
        · rw [hrep.other j hj]
        · intro _
          rw [memoryOf_other hs (hrep.within hs hst) hj, hrep.other j hj]
      · have hused : (st'.processTable st.currentProc).state ≠ .unused := by
          rw [hrep.process]
          exact hst.used
        rw [task_used hused, hmem, task_used hst.used, hrep.process]
        rfl
    rw [hmod]
    exact .exec elf phoff phnum start pl maxEnd stack hplan

theorem refines_freeProc (hs : Sound L st) (hst : Steady tf st)
    (hz : (st.processTable i).state = .zombie)
    (hp : (st.processTable i).parentPid = st.current.pid) :
    Action (tasks st) [.reaped st.current.pid (st.processTable i).pid] (tasks (freeProc st i)) := by
  have hu : (st.processTable i).state ≠ .unused := by
    rw [hz]
    decide
  have htask : (tasks (freeProc st i)).task = Function.update (tasks st).task i none := by
    funext j
    by_cases hj : j = i
    · subst hj
      rw [Function.update_self, task_unused (freeProc_gone hu)]
    · rw [Function.update_of_ne hj]
      apply tasks_task
      · rw [freeProc_of_ne hj]
      · intro _
        rw [memoryOf_other hs (within_freeProc hs hu) hj, freeProc_of_ne hj]
  have hall : tasks (freeProc st i) = { tasks st with task := (tasks (freeProc st i)).task } := by
    have hfields : (freeProc st i).currentProc = st.currentProc ∧
        (freeProc st i).nextPid = st.nextPid ∧ (freeProc st i).uart = st.uart ∧
        (freeProc st i).console = st.console := by
      unfold freeProc
      dsimp only
      split_ifs <;> exact ⟨rfl, rfl, rfl, rfl⟩
    obtain ⟨h1, h2, h3, h4⟩ := hfields
    simp only [tasks, h1, h2, h3, h4]
  rw [hall, htask]
  exact .reap _ _ (task_used hst.used) i (task_used hu) hz hp

theorem tasks_withPid (st : KState) (pid : BitVec 32) : (tasks st).withPid pid =
    (List.finRange 64).find? fun i =>
      (st.processTable i).pid = pid ∧ (st.processTable i).state ≠ .unused := by
  unfold Tasks.withPid
  congr 1
  funext i
  by_cases hu : (st.processTable i).state = .unused
  · rw [task_unused hu]
    simp [hu]
  · rw [task_used hu]
    simp [hu, Process.task]

theorem refines_exiting (hst : Steady tf st) :
    Action (tasks st) [.died st.current.pid] (tasks (exiting st)) := by
  set s := st.modifyProc st.currentProc fun p => { p with state := .zombie } with hs
  have hmod : tasks s = (tasks st).modify fun t => { t with state := .zombie } := by
    apply tasks_modifyProc hst.used (fun h => by cases h) rfl
    intro m
    simp [Process.task, show st.current.state = .running from hst.running]
  have hparent : parentOf s = (tasks s).withPid st.current.parentPid := by
    have hself : s.current = { st.current with state := .zombie } := modifyProc_self _ _ _
    rw [tasks_withPid, parentOf, hself]
  have hexit : tasks (exiting st) = (tasks st).exit st.current.parentPid := by
    unfold exiting Tasks.exit
    dsimp only
    rw [← hs, ← hmod, hparent]
    cases (tasks s).withPid st.current.parentPid with
    | none => rfl
    | some i => exact tasks_wakeup s _
  rw [hexit]
  exact .exit _ (task_used hst.used)

theorem refines_sleeping (hst : Steady tf st) (ch : Chan) :
    Action (tasks st) [] (tasks (sleeping st ch)) := by
  have hone : sleeping st ch = st.modifyProc st.currentProc fun p =>
      { p with
        state := .blocked
        chan := some ch
        trapFrame := { p.trapFrame with sepc := p.trapFrame.sepc - 4 } } := by
    simp [sleeping, sleepOn, KState.setFrame, KState.modifyProc]
  have hmod : tasks (sleeping st ch) = (tasks st).modify fun t =>
      { t with
        state := .blocked
        chan := some ch
        regs := { t.regs with sepc := t.regs.sepc - 4 } } := by
    rw [hone]
    exact tasks_modifyProc hst.used (fun h => by cases h) rfl fun _ => rfl
  rw [hmod]
  exact .sleep ch

/-- Whatever the kernel does for the current process is done by the machine of processes. -/
theorem Act.refines (h : Act L st ls st') (hs : Sound L st) :
    Path Action (tasks st) ls (tasks st') := by
  cases h with
  | console c => exact .single (.console c)
  | status w => exact .refl _
  | regs hst f hf => exact .single (refines_setFrame hst.used f)
  | file hst fd f =>
    have hmod : tasks (st.setFile fd f) = (tasks st).modify fun t =>
        { t with files := Function.update t.files fd f } :=
      tasks_modifyProc hst.used hst.used rfl fun _ => rfl
    rw [hmod]
    exact .single (.file fd f)
  | take hst b u h => exact .single (.take b u h)
  | store hst q pa b h =>
    obtain ⟨hother, hself⟩ := memoryOf_poke hs h rfl
    have hmod : tasks { st with phys := { st.phys with mem := st.phys.mem.setByte pa b } } =
        (tasks st).modify fun t => t.poke q (offset pa) b := by
      refine tasks_modify rfl rfl rfl rfl (fun j hj => ?_) ?_
      · exact tasks_task Iff.rfl fun _ => by rw [hother j hj]
      · have hused : (({ st with phys :=
            { st.phys with mem := st.phys.mem.setByte pa b } } : KState).processTable
            st.currentProc).state ≠ .unused := hst.used
        rw [task_used hused, hself, task_used hst.used]
        rfl
    have hseen : memoryOf st st.currentProc q ≠ none := by
      have hu : UserLeaf (entryOf st st.currentProc q) := by
        rw [held_leaf] at h
        rw [userLeaf_iff, entryOf, h]
        exact Option.some_ne_none _
      rw [memoryOf, seenPage, if_pos hu]
      exact Option.some_ne_none _
    rw [hmod]
    exact .single (.poke _ (task_used hst.used) q hseen (offset pa) b)
  | receive b =>
    rw [tasks_uartByte]
    exact .single (.receive b)
  | grow hst increment ok phys h => exact .single (refines_grown hs hst h)
  | forkFailed hst mid h => exact .single (refines_forkFailed hs h)
  | fork hst child mid phys ha hne hc => exact .single (refines_forked hs hst ha hne hc)
  | exec hst st' h => exact .single (refines_exec hs hst h)
  | reap hst i hz hp => exact .single (refines_freeProc hs hst hz hp)
  | sleep hst ch hp => exact .single (refines_sleeping hst ch)
  | exit hst => exact .single (refines_exiting hst)
  | yield hst =>
    have hmod : tasks (st.modifyProc st.currentProc fun p => { p with state := .ready }) =
        (tasks st).modify fun t => { t with state := .ready } := by
      apply tasks_modifyProc hst.used (fun h => by cases h) rfl
      intro m
      simp [Process.task, show st.current.state = .running from hst.running]
    rw [hmod]
    exact .single .yield

theorem Acts.refines (h : Acts L st ls st') (hs : Sound L st) :
    Path Action (tasks st) ls (tasks st') := by
  induction h with
  | refl => exact .refl _
  | tail hpath hact ih => exact ih.trans (hact.refines (Acts.sound hpath hs))

theorem Does.refines {r : Slot × KState} (h : Does L st ls r) (hs : Sound L st) :
    Stint (tasks st) ls (tasks r.2) := by
  cases h with
  | stays h => exact .stays (h.refines hs)
  | @switches ls mid next h hc hr =>
    have hready :
      (({ mid with currentProc := next, satp := mid.rootOf next } : KState).current).state =
        .ready := hr
    have hmod : tasks (dispatched next mid) =
        ({ tasks mid with current := next } : Tasks).modify fun t =>
          { t with state := .running } := by
      refine @tasks_modifyProc { mid with currentProc := next, satp := mid.rootOf next } _ _
        ?_ (fun h => by cases h) rfl ?_
      · rw [hready]
        decide
      · intro m
        simp [Process.task, hready]
    rw [hmod]
    refine .switches (h.refines hs) ?_ next _ (task_used ?_) hr
    · intro t ht hrun
      by_cases hu : mid.current.state = .unused
      · have hnone := (task_unused hu).symm.trans ht
        cases hnone
      · have hsome := (task_used hu).symm.trans ht
        cases hsome
        exact hc hrun
    · rw [hr]
      decide

end Actions

section Runs

theorem refines_saveFrame (hst : Steady st.sscratch st) (regs : TrapFrame) :
    Action (tasks st) [] (tasks (saveFrame regs st)) := by
  let s : KState := { st with sstatus := trapStatus st.sstatus }
  let f : TrapFrame → TrapFrame := fun old =>
    { regs with sstatus := trapStatus st.sstatus, kernelSp := old.kernelSp }
  have hslot : saveFrame regs st = s.setFrame st.currentProc f :=
    congrArg (fun i => s.setFrame i f) hst.frame
  rw [hslot]
  exact @refines_setFrame s hst.used f

/-- A step of the kernel with what is seen of it: nothing of a store, of a trap what the handler
does. -/
inductive Shown (L : Layout) : KState → Event → List Label → KState → Prop where
  | store {st st' : KState} {va : Addr} {b : Byte} (h : Step L st (.store va b) st') :
      Shown L st (.store va b) [] st'
  | trap {st st' : KState} {regs : TrapFrame} {input : Input} {ls : List Label}
      {r : Slot × KState} (h : Step L st (.trap regs input) st')
      (hd : Does L (saveFrame regs st) ls r) (hr : st' = resume r.1 r.2) :
      Shown L st (.trap regs input) ls st'

/-- A step of the machine is a stint of its current process, seen in the same way. -/
theorem Step.refines {e : Event} (hset : Settled L st) (hs : Step L st e st') :
    ∃ ls, Shown L st e ls st' ∧ Stint (tasks st) ls (tasks st') := by
  cases e with
  | store va b =>
    refine ⟨[], .store hs, ?_⟩
    cases hs with
    | store _ _ pa hpa =>
      exact .stays ((store_act hset.sound hset.steady hpa b).refines hset.sound)
  | trap regs input =>
    have hstep := hs
    cases hs with
    | trap _ _ _ hd ht =>
      have hst := hset.steady
      have hsound := (benign_saveFrame regs st).sound hset.sound
      obtain ⟨ls, r, hdoes, -, -, rfl⟩ := takeTrap_does hset.sound hst ht
      exact ⟨ls, .trap hstep hdoes rfl,
        (hdoes.refines hsound).head (refines_saveFrame hst regs)⟩

end Runs

end Lazux

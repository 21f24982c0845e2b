import Mathlib.Logic.Relation
import Mathlib.Algebra.Group.Fin.Basic
import Lazux.System
import Lazux.Lib.Run

/-! # What each operation can do

One inversion for every operation that can stop: the states it can end in, with the
conditions that held on the way. -/
namespace Lazux

open PagedMemory Run

@[simp] theorem modifyProc_self (st : KState) (i : Slot) (f : Process → Process) :
    (st.modifyProc i f).processTable i = f (st.processTable i) := Function.update_self ..

theorem modifyProc_of_ne (st : KState) {i j : Slot} (h : j ≠ i) (f : Process → Process) :
    (st.modifyProc i f).processTable j = st.processTable j := Function.update_of_ne h ..

theorem setA0_of_ne (st : KState) {i j : Slot} (h : j ≠ i) (w : Word) :
    (st.setA0 i w).processTable j = st.processTable j := by
  rw [KState.setA0, KState.setFrame, modifyProc_of_ne _ h]

/-- What `alloc_proc` can do, with the memory it leaves. -/
inductive AllocProc (L : Layout) (st : KState) : Option Slot → KState → Prop where
  | full (hu : ∀ i, (st.processTable i).state ≠ .unused) :
      AllocProc L st none (st.puts "alloc_proc: Process table is full!\n")
  | noRoot (i : Slot) (hu : (st.processTable i).state = .unused)
      (ha : pmmAllocPage st.phys = (none, st.phys)) :
      AllocProc L st none ({ st with nextPid := st.nextPid + 1 }.modifyProc i fun p =>
        { p with
          pid := BitVec.ofNat 32 st.nextPid, openFiles := initProcessFds, state := .unused
          pageTable := none })
  | noStack (i : Slot) (hu : (st.processTable i).state = .unused) (root : ℕ) (p1 p2 : Phys)
      (ha : pmmAllocPage st.phys = (some root, p1))
      (hk : vmmMapKernel L root (p1.zeroPage root) = .ok p2)
      (hs : pmmAllocPage p2 = (none, p2)) :
      AllocProc L st none ({ st with nextPid := st.nextPid + 1, phys := p2 }.modifyProc i fun p =>
        { p with
          pid := BitVec.ofNat 32 st.nextPid, openFiles := initProcessFds, state := .unused
          pageTable := some root, kernelStack := none })
  | created (i : Slot) (hu : (st.processTable i).state = .unused) (root stack : ℕ)
      (p1 p2 p3 : Phys)
      (ha : pmmAllocPage st.phys = (some root, p1))
      (hk : vmmMapKernel L root (p1.zeroPage root) = .ok p2)
      (hs : pmmAllocPage p2 = (some stack, p3)) :
      AllocProc L st (some i) ({ st with
          nextPid := st.nextPid + 1
          phys := (mapPage (p3.zeroPage stack) root (pageAddr stack) (pageAddr stack)
            (pteR ||| pteW)).2 }.modifyProc i fun p =>
        { p with
          pid := BitVec.ofNat 32 st.nextPid, openFiles := initProcessFds, state := .ready
          pageTable := some root, kernelStack := some stack
          trapFrame := { TrapFrame.zero with kernelSp := pageAddr stack + 4096 } })

theorem allocProc_result {L : Layout} {st st' : KState} {r : Option Slot}
    (h : allocProc L st = .ok (r, st')) : AllocProc L st r st' := by
  unfold allocProc at h
  cases hs : (List.finRange 64).find? fun i => (st.processTable i).state = .unused with
  | none =>
    rw [hs] at h
    cases h
    refine .full fun i hi => ?_
    have := List.find?_eq_none.mp hs i (List.mem_finRange i)
    simp [hi] at this
  | some i =>
    have hu : (st.processTable i).state = .unused := by simpa using List.find?_some hs
    simp only [hs] at h
    rcases ha : pmmAllocPage st.phys with ⟨_ | root, p1⟩
    · have he := pmmAllocPage_none_eq ha
      subst he
      simp only [KState.modifyProc, ha] at h
      cases h
      have := AllocProc.noRoot i hu ha (L := L)
      simpa [KState.modifyProc] using this
    · simp only [KState.modifyProc, ha] at h
      obtain ⟨p2, hk, h⟩ := bind_eq_ok.mp h
      rcases hb : pmmAllocPage p2 with ⟨_ | stack, p3⟩
      · have he := pmmAllocPage_none_eq hb
        subst he
        simp only [hb] at h
        cases h
        have := AllocProc.noStack i hu root p1 p3 ha hk hb
        simpa [KState.modifyProc] using this
      · simp only [hb] at h
        cases h
        have := AllocProc.created i hu root stack p1 p2 p3 ha hk hb
        simpa [KState.modifyProc] using this

section Idle

/-- What one `plic_dispatch` can do. Where a page hides the claim register it writes back
the word it has read there. -/
inductive PlicDispatch (st : KState) : KState → Prop where
  | nothing : PlicDispatch st st
  | served (bytes : List Byte) (console : List Byte) :
      PlicDispatch st { bytes.foldl uartByte st with console := console }

/-- Received bytes change the ring, the console and who is awake. -/
structure OnlyWakes (st st' : KState) : Prop where
  phys : st'.phys = st.phys
  satp : st'.satp = st.satp
  sstatus : st'.sstatus = st.sstatus
  sscratch : st'.sscratch = st.sscratch
  nextPid : st'.nextPid = st.nextPid
  currentProc : st'.currentProc = st.currentProc
  process : ∀ i, ∃ s c, st'.processTable i = { st.processTable i with state := s, chan := c }

theorem OnlyWakes.refl (st : KState) : OnlyWakes st st :=
  ⟨rfl, rfl, rfl, rfl, rfl, rfl, fun _ => ⟨_, _, rfl⟩⟩

theorem OnlyWakes.trans {a b c : KState} (h : OnlyWakes a b) (h' : OnlyWakes b c) :
    OnlyWakes a c := by
  refine ⟨h'.phys.trans h.phys, h'.satp.trans h.satp, h'.sstatus.trans h.sstatus,
    h'.sscratch.trans h.sscratch, h'.nextPid.trans h.nextPid,
    h'.currentProc.trans h.currentProc, fun i => ?_⟩
  obtain ⟨s, x, he⟩ := h.process i
  obtain ⟨s', x', he'⟩ := h'.process i
  exact ⟨s', x', by rw [he', he]⟩

theorem onlyWakes_wakeup (st : KState) (ch : Chan) : OnlyWakes st (wakeup st ch) := by
  refine ⟨rfl, rfl, rfl, rfl, rfl, rfl, fun i => ?_⟩
  simp only [wakeup]
  split_ifs
  · exact ⟨_, _, rfl⟩
  · exact ⟨_, _, rfl⟩

theorem onlyWakes_uartByte (st : KState) (b : Byte) : OnlyWakes st (uartByte st b) := by
  unfold uartByte
  dsimp only
  split_ifs
  · obtain ⟨h1, h2, h3, h4, h5, h6, h7⟩ := onlyWakes_wakeup
      { st with uart := (uartReceive st.uart b).uart,
                console := st.console ++ (uartReceive st.uart b).echo } .uartRx
    exact ⟨h1, h2, h3, h4, h5, h6, h7⟩
  · exact ⟨rfl, rfl, rfl, rfl, rfl, rfl, fun _ => ⟨_, _, rfl⟩⟩

theorem onlyWakes_bytes (bytes : List Byte) (st : KState) :
    OnlyWakes st (bytes.foldl uartByte st) := by
  induction bytes generalizing st with
  | nil => exact .refl st
  | cons b bs ih => exact (onlyWakes_uartByte st b).trans (ih _)

theorem uartInterrupt_result {bytes : List Byte} {st st' : KState}
    (h : uartInterrupt bytes st = .ok st') : ∃ bs : List Byte, st' = bs.foldl uartByte st := by
  unfold uartInterrupt at h
  split at h
  · cases h
  · split_ifs at h
    · cases h; exact ⟨bytes, rfl⟩
    · cases h; exact ⟨[], rfl⟩

theorem routeIrq_result {dev : Device} {irq : BitVec 32} {st st' : KState}
    (h : routeIrq dev irq st = .ok st') :
    ∃ (bs : List Byte) (console : List Byte),
      st' = { bs.foldl uartByte st with console := console } := by
  unfold routeIrq at h
  split_ifs at h
  · obtain ⟨bs, rfl⟩ := uartInterrupt_result h
    exact ⟨bs, _, rfl⟩
  · cases h
    exact ⟨[], _, rfl⟩

theorem extract_loadWord32 (m : Memory) (pa : Addr) (k : Fin 4) :
    (loadWord32 m pa).extractLsb' (8 * k.val) 8 = m.byte (pa + BitVec.ofNat 64 k.val) := by
  have h0 : m.byte (pa + BitVec.ofNat 64 0) = m.byte pa := by simp
  unfold loadWord32
  apply BitVec.eq_of_getLsbD_eq
  intro j hj
  rcases k with ⟨_ | _ | _ | _ | k, hk⟩
  · rw [h0]
    simp
    grind
  · simp
    grind
  · simp
    grind
  · simp
    grind
  · omega

theorem storeWord32_self (m : Memory) (pa : Addr) : storeWord32 m pa (loadWord32 m pa) = m := by
  refine foldl_rule (I := fun _ (t : Memory) => t = m) rfl fun done k rest hk t ht => ?_
  have hmem : k ∈ List.range 4 := by rw [hk]; simp
  rw [ht, extract_loadWord32 m pa ⟨k, List.mem_range.mp hmem⟩, setByte_self]

theorem kernelTranslate_unique {m : Memory} {root : ℕ} {sum : Bool} {acc acc' : Access}
    {va pa pa' : Addr} (h : kernelTranslate m root sum acc va = some pa)
    (h' : kernelTranslate m root sum acc' va = some pa') : pa = pa' := by
  unfold kernelTranslate at h h'
  rcases hw : sv39 m root va with _ | ⟨pte, level⟩
  · rw [hw] at h
    cases h
  · rw [hw, Option.bind_some] at h h'
    dsimp only at h h'
    split_ifs at h h'
    rw [← Option.some.inj h, ← Option.some.inj h']

theorem claimIrq_result {dev : Device} {irq : BitVec 32} {st : KState}
    (h : claimIrq dev st = .ok irq) : ∃ pa,
    kernelTranslate st.phys.mem st.satp st.sum .read plicClaim = some pa ∧
      (pa = plicClaim ∨ irq = loadWord32 st.phys.mem pa) := by
  unfold claimIrq at h
  split at h
  · cases h
  · rename_i pa hpa
    refine ⟨pa, hpa, ?_⟩
    cases h
    by_cases hdev : pa = plicClaim
    · exact Or.inl hdev
    · exact Or.inr (if_neg hdev)

theorem plicDispatch_result {dev : Device} {st st' : KState} (h : plicDispatch dev st = .ok st') :
    PlicDispatch st st' := by
  obtain ⟨irq, hirq, h⟩ := bind_eq_ok.mp h
  obtain ⟨pa, hpa, hread⟩ := claimIrq_result hirq
  split_ifs at h
  · cases h
    exact .nothing
  obtain ⟨mid, hmid, h⟩ := bind_eq_ok.mp h
  obtain ⟨bs, console, rfl⟩ := routeIrq_result hmid
  have hw := onlyWakes_bytes bs st
  have hserved := @PlicDispatch.served st bs console
  unfold completeIrq at h
  simp only [KState.sum, hw.phys, hw.satp, hw.sstatus] at h
  split at h
  · cases h
  · rename_i pa' hpa'
    have hsame : pa' = pa := kernelTranslate_unique hpa' hpa
    split_ifs at h with hdev
    · cases h
      simpa only [hw.phys, hw.satp, hw.sstatus] using hserved
    · cases h
      -- the word read is the word written
      rw [hsame] at hdev ⊢
      rw [hread.resolve_left hdev, storeWord32_self]
      simpa only [hw.phys, hw.satp, hw.sstatus] using hserved

/-- A sequence of services while every process sleeps. -/
abbrev Idles : KState → KState → Prop := Relation.ReflTransGen PlicDispatch

theorem idleService_result {w : Wakeup} {st st' : KState} (h : idleService w st = .ok st') :
    Idles st st' := by
  unfold idleService at h
  split_ifs at h
  · exact .single (plicDispatch_result h)
  · cases h; exact .refl

end Idle

section Schedule

/-- The state `schedule` looks for a successor in: the frame saved, the running process
put back among the ready ones. -/
def parked (tf : Slot) (st : KState) : KState :=
  st.modifyProc st.currentProc fun p =>
    { p with
      trapFrame := st.frameOf tf
      state := if p.state = .running then .ready else p.state }

theorem currentProc_of_idles {st st' : KState} (h : Idles st st') :
    st'.currentProc = st.currentProc := by
  induction h with
  | refl => rfl
  | tail _ hs ih =>
    cases hs with
    | nothing => exact ih
    | served bytes console => exact (onlyWakes_bytes bytes _).currentProc.trans ih

theorem uartByte_running {st : KState} {b : Byte} {i : Slot}
    (h : ((uartByte st b).processTable i).state = .running) :
    (st.processTable i).state = .running := by
  unfold uartByte at h
  dsimp only at h
  by_cases hw : (uartReceive st.uart b).wake = true
  · rw [if_pos hw] at h
    simp only [wakeup] at h
    by_cases hc : (st.processTable i).state = .blocked ∧ (st.processTable i).chan = some .uartRx
    · rw [if_pos hc] at h
      cases h
    · rwa [if_neg hc] at h
  · rwa [if_neg hw] at h

/-- Nobody starts running while the kernel idles. -/
theorem running_of_idles {st st' : KState} (h : Idles st st') {i : Slot}
    (hr : (st'.processTable i).state = .running) : (st.processTable i).state = .running := by
  induction h with
  | refl => exact hr
  | tail _ hs ih =>
    cases hs with
    | nothing => exact ih hr
    | served bytes console =>
      apply ih
      have hb : ∀ (bs : List Byte) (s : KState),
          ((bs.foldl uartByte s).processTable i).state = .running →
            (s.processTable i).state = .running := by
        intro bs
        induction bs with
        | nil => exact fun s h => h
        | cons b bs ihb => exact fun s h => uartByte_running (ihb _ h)
      exact hb bytes _ hr

theorem findReady_some {st : KState} {start i : Slot} (h : findReady st start = some i) :
    (st.processTable i).state = .ready := by simpa using List.find?_some h

/-- The scan comes back to where it started. -/
theorem findReady_none {st : KState} {start : Slot} (h : findReady st start = none) (i : Slot) :
    (st.processTable i).state ≠ .ready := by
  intro hi
  have hmem : i ∈ (List.finRange 64).map fun k => start + 1 + k :=
    List.mem_map.mpr ⟨i - (start + 1), List.mem_finRange _, add_sub_cancel _ _⟩
  have := List.find?_eq_none.mp h i hmem
  simp [hi] at this

/-- Unless the current process still runs, another one is chosen. -/
theorem awaitReady_result {idle : List Wakeup} {st st' : KState} {r : Option Slot}
    (h : awaitReady st.currentProc idle st = .ok (r, st'))
    (hr : st.current.state ≠ .running) :
    ∃ next, r = some next ∧ Idles st st' ∧ findReady st' st.currentProc = some next := by
  have key : ∀ (idle : List Wakeup) (s : KState), Idles st s →
      awaitReady st.currentProc idle s = .ok (r, st') →
        ∃ next, r = some next ∧ Idles st st' ∧ findReady st' st.currentProc = some next := by
    intro idle
    induction idle with
    | nil =>
      intro s hs h
      unfold awaitReady at h
      split at h
      · rename_i i hi
        cases h
        exact ⟨i, rfl, hs, hi⟩
      · rename_i hnone
        split_ifs at h with hc
        rw [KState.current, currentProc_of_idles hs] at hc
        rcases hc with hc | hc
        · exact absurd hc (findReady_none hnone _)
        · exact absurd (running_of_idles hs hc) hr
    | cons w ws ih =>
      intro s hs h
      unfold awaitReady at h
      split at h
      · rename_i i hi
        cases h
        exact ⟨i, rfl, hs, hi⟩
      · rename_i hnone
        split_ifs at h with hc
        · rw [KState.current, currentProc_of_idles hs] at hc
          rcases hc with hc | hc
          · exact absurd hc (findReady_none hnone _)
          · exact absurd (running_of_idles hs hc) hr
        · obtain ⟨t, ht, h⟩ := bind_eq_ok.mp h
          exact ih t (hs.trans (idleService_result ht)) h
  exact key idle st .refl h

/-- The kernel can run on `root`: RAM from the load address on is mapped to itself. -/
def KernelMapped (m : Memory) (root : ℕ) : Prop :=
  ∀ f, textStart ≤ f → f < ramLast →
    kernelTranslate m root false .read (pageAddr f) = some (pageAddr f)

def dispatched (next : Slot) (st : KState) : KState :=
  { st with currentProc := next, satp := st.rootOf next }.modifyProc next fun p =>
    { p with state := .running }

theorem schedule_eq (idle : List Wakeup) (tf : Slot) (st : KState) :
    ∃ handOver : Option Slot × KState → Except Stop (Slot × KState),
      (∀ next s, handOver (some next, s) = .ok (next, dispatched next s)) ∧
      schedule idle tf st = awaitReady st.currentProc idle (parked tf st) >>= handOver := by
  have hpark : (let s := st.modifyProc st.currentProc fun p => { p with trapFrame := st.frameOf tf }
      if s.current.state = .running then
        s.modifyProc s.currentProc fun p => { p with state := .ready } else s) = parked tf st := by
    simp only [parked, KState.modifyProc, KState.current, Function.update_self]
    split_ifs with hs
    · simp
    · rfl
  unfold schedule
  simp only at hpark ⊢
  rw [hpark]
  refine ⟨_, fun next s => ?_, rfl⟩
  have hroot : (({ s with currentProc := next }).modifyProc next fun p =>
      { p with state := .running }).current.pageTable.getD 0 = s.rootOf next := by
    simp [KState.current, KState.rootOf, KState.modifyProc]
  dsimp only
  rw [hroot]
  rfl

theorem schedule_found {idle : List Wakeup} {tf tf' : Slot} {st st' : KState}
    (h : schedule idle tf st = .ok (tf', st')) :
    ∃ mid, Idles (parked tf st) mid ∧ findReady mid st.currentProc = some tf' ∧
      st' = dispatched tf' mid := by
  obtain ⟨handOver, hnext, heq⟩ := schedule_eq idle tf st
  rw [heq] at h
  obtain ⟨⟨r, mid⟩, haw, h⟩ := bind_eq_ok.mp h
  have hnr : (parked tf st).current.state ≠ .running := by
    simp only [parked, KState.current, KState.modifyProc, Function.update_self]
    split_ifs with hs
    · decide
    · exact hs
  obtain ⟨next, rfl, hid, hfound⟩ := @awaitReady_result idle (parked tf st) mid r haw hnr
  rw [hnext] at h
  cases h
  exact ⟨mid, hid, hfound, rfl⟩

/-- The process found is ready and resumes on its own table. -/
theorem schedule_result {idle : List Wakeup} {tf tf' : Slot} {st st' : KState}
    (h : schedule idle tf st = .ok (tf', st')) :
    ∃ mid, Idles (parked tf st) mid ∧ (mid.processTable tf').state = .ready ∧
      st' = dispatched tf' mid := by
  obtain ⟨mid, hid, hfound, hst⟩ := schedule_found h
  exact ⟨mid, hid, findReady_some hfound, hst⟩

end Schedule

section Exec

/-- A load that returned 0: the segments were loaded, then the stack page was taken. -/
structure Loaded (st : KState) (i : Slot) (elf : Addr → Except Stop Byte) (st' : KState)
    (phoff phnum entry page : ℕ) (maxEnd : Addr) (p1 p2 : Phys) : Prop where
  magic : readLe elf 0 4 = .ok elfNum
  phoff_eq : readLe elf 0x20 8 = .ok phoff
  phnum_eq : readLe elf 0x38 2 = .ok phnum
  segments : loadSegments elf (st.rootOf i) (phdrAddrs (BitVec.ofNat 64 phoff) phnum) 0 st.phys =
    .ok (none, maxEnd, p1)
  entry_eq : readLe elf 0x18 8 = .ok entry
  stack : pmmAllocPage p1 = (some page, p2)
  result : st' = { st with
      phys := (mapPage (p2.zeroPage page) (st.rootOf i) userStackBase (pageAddr page)
        (pteU ||| pteR ||| pteW)).2 }.modifyProc i fun p =>
    { p with
      trapFrame := { p.trapFrame with sepc := BitVec.ofNat 64 entry, sp := userStackTop }
      heapBreak := pageCeil maxEnd
      heapMax := userStackBase - 4096 }

theorem loadElf_true {st st' : KState} {i : Slot} {elf : Addr → Except Stop Byte}
    (h : loadElf st i elf = .ok (true, st')) :
    ∃ phoff phnum entry page maxEnd p1 p2,
      Loaded st i elf st' phoff phnum entry page maxEnd p1 p2 := by
  unfold loadElf at h
  obtain ⟨magic, hmagic, h⟩ := bind_eq_ok.mp h
  split_ifs at h with hm
  · cases h
  rw [not_not] at hm
  subst hm
  obtain ⟨phoff, hphoff, h⟩ := bind_eq_ok.mp h
  obtain ⟨phnum, hphnum, h⟩ := bind_eq_ok.mp h
  obtain ⟨⟨message, maxEnd, p1⟩, hseg, h⟩ := bind_eq_ok.mp h
  cases message with
  | some m => cases h
  | none =>
    obtain ⟨entry, hentry, h⟩ := bind_eq_ok.mp h
    simp only at h
    rcases ha : pmmAllocPage p1 with ⟨_ | page, p2⟩
    · simp only [KState.setFrame, KState.modifyProc, ha] at h
      cases h
    · simp only [KState.setFrame, KState.modifyProc, ha] at h
      cases h
      refine ⟨phoff, phnum, entry, page, maxEnd, p1, p2, hmagic, hphoff, hphnum, hseg,
        hentry, ha, ?_⟩
      simp [KState.modifyProc, KState.rootOf]

/-- What `SYS_EXEC` can do without halting. -/
inductive ExecCall (L : Layout) (tf : Slot) (st : KState) : KState → Prop where
  | badName
      (hn : userStrOk st.phys.mem (st.rootOf st.currentProc) st.load (st.frameOf tf).a0 nameMax =
        .ok false) : ExecCall L tf st (st.setA0 tf eFault)
  | noEntry
      (hn : userStrOk st.phys.mem (st.rootOf st.currentProc) st.load (st.frameOf tf).a0 nameMax =
        .ok true)
      (he : ramdiskGetEntry (diskByte L st) st.load (st.frameOf tf).a0 (nameMax + 1) = .ok none) :
      ExecCall L tf st (st.setA0 tf eNoent)
  | replaced (entry : RamdiskEntry) (newPt : ℕ) (p1 p2 : Phys) (st' : KState)
      (hn : userStrOk st.phys.mem (st.rootOf st.currentProc) st.load (st.frameOf tf).a0 nameMax =
        .ok true)
      (he : ramdiskGetEntry (diskByte L st) st.load (st.frameOf tf).a0 (nameMax + 1) =
        .ok (some entry))
      (ha : pmmAllocPage st.phys = (some newPt, p1))
      (hk : vmmMapKernel L newPt (p1.zeroPage newPt) = .ok p2)
      (hl : loadElf ({ st with phys := p2 }.modifyProc st.currentProc fun p =>
          { p with pageTable := some newPt }) st.currentProc
        (fun a => diskByte L ({ st with phys := p2 }.modifyProc st.currentProc fun p =>
          { p with pageTable := some newPt }) (entry.offset.setWidth 64 + a)) = .ok (true, st')) :
      ExecCall L tf st { st' with
        satp := newPt
        phys := vmmFreePt (st.rootOf st.currentProc) st'.phys }

theorem sysExecCall_result {L : Layout} {tf tf' : Slot} {st st' : KState}
    (h : sysExecCall L tf st = .ok (tf', st')) : tf' = tf ∧ ExecCall L tf st st' := by
  unfold sysExecCall at h
  obtain ⟨ok, hn, h⟩ := bind_eq_ok.mp h
  cases ok with
  | false =>
    cases h
    exact ⟨rfl, .badName hn⟩
  | true =>
    obtain ⟨entry, he, h⟩ := bind_eq_ok.mp h
    cases entry with
    | none =>
      cases h
      exact ⟨rfl, .noEntry hn he⟩
    | some entry =>
      simp only at h
      rcases ha : pmmAllocPage st.phys with ⟨_ | newPt, p1⟩
      · simp only [ha] at h
        cases h
      · simp only [ha] at h
        obtain ⟨p2, hk, h⟩ := bind_eq_ok.mp h
        obtain ⟨⟨ok, mid⟩, hl, h⟩ := bind_eq_ok.mp h
        cases ok with
        | false => cases h
        | true =>
          cases h
          exact ⟨rfl, .replaced entry newPt p1 p2 mid hn he ha hk hl⟩

end Exec

section Fork

/-- The child's control block before it becomes ready, from the parent's. -/
def inherit (parent : Process) (frame : TrapFrame) (p : Process) : Process :=
  { p with
    parentPid := parent.pid
    heapBreak := parent.heapBreak
    heapMax := parent.heapMax
    openFiles := parent.openFiles
    trapFrame := { frame with kernelSp := p.trapFrame.kernelSp, a0 := 0 }
    state := .ready }

/-- What `SYS_FORK` can do without halting when the running process asks for it. -/
inductive ForkCall (L : Layout) (st : KState) : KState → Prop where
  | failed (mid : KState) (ha : AllocProc L st none mid) :
      ForkCall L st (mid.setA0 st.currentProc eAgain)
  | forked (child : Slot) (mid : KState) (phys : Phys) (ha : AllocProc L st (some child) mid)
      (hne : child ≠ st.currentProc)
      (hc : vmmCopyUvm 2 (mid.rootOf st.currentProc) (mid.rootOf child) mid.phys = .ok phys) :
      ForkCall L st (({ mid with phys := phys }.setA0 st.currentProc
          ((mid.processTable child).pid.signExtend 64)).modifyProc child
        (inherit st.current (st.frameOf st.currentProc)))

theorem modifyProc_eq_self {st : KState} {i : Slot} {f : Process → Process}
    (h : f (st.processTable i) = st.processTable i) : st.modifyProc i f = st := by
  simp only [KState.modifyProc, h, Function.update_eq_self]

theorem AllocProc.of_some {L : Layout} {st mid : KState} {child : Slot}
    (h : AllocProc L st (some child) mid) : (st.processTable child).state = .unused ∧
      mid.currentProc = st.currentProc ∧
      ∀ j, j ≠ child → mid.processTable j = st.processTable j := by
  cases h with
  | created _ hu => exact ⟨hu, rfl, fun j hj => modifyProc_of_ne _ hj _⟩

theorem sysForkCall_result {L : Layout} {tf tf' : Slot} {st st' : KState}
    (htf : tf = st.currentProc) (hr : st.current.state = .running)
    (h : sysForkCall L tf st = .ok (tf', st')) : tf' = tf ∧ ForkCall L st st' := by
  subst htf
  unfold sysForkCall at h
  rw [modifyProc_eq_self (f := fun p => { p with trapFrame := st.frameOf st.currentProc }) rfl] at h
  obtain ⟨⟨r, mid⟩, ha, h⟩ := bind_eq_ok.mp h
  have ha := allocProc_result ha
  cases r with
  | none =>
    cases h
    exact ⟨rfl, .failed mid ha⟩
  | some child =>
    obtain ⟨hu, hcur, hother⟩ := ha.of_some
    have hne : child ≠ st.currentProc := by
      rintro rfl
      rw [KState.current, hu] at hr
      cases hr
    have hsame := hother _ hne.symm
    obtain ⟨phys, hc, h⟩ := bind_eq_ok.mp h
    cases h
    refine ⟨rfl, ?_⟩
    have hroots : vmmCopyUvm 2 (mid.rootOf st.currentProc) (mid.rootOf child) mid.phys =
        .ok phys := by
      simpa [KState.setA0, KState.setFrame, KState.modifyProc, KState.rootOf, hcur, hne.symm,
        hne] using hc
    clear hc
    convert ForkCall.forked child mid phys ha hne hroots using 1
    simp only [KState.setA0, KState.setFrame, KState.modifyProc, KState.current, KState.frameOf,
      hcur, hsame, KState.mk.injEq, true_and, and_true]
    funext j
    by_cases hj : j = child
    · subst hj
      simp [hne, inherit]
    · by_cases hj' : j = st.currentProc
      · subst hj'
        simp [hj, hne, hsame]
      · simp [hj, hj']

end Fork

section Boot

theorem puts_eq (st : KState) (s : String) : ∃ c, st.puts s = { st with console := c } := ⟨_, rfl⟩

theorem enableMmu_result {L : Layout} {st st' : KState} (h : enableMmu L st = .ok st') :
    ∃ rootPt p1 p2 c, pmmAllocPage st.phys = (some rootPt, p1) ∧
      vmmMapKernel L rootPt (p1.zeroPage rootPt) = .ok p2 ∧
      st' = { st with phys := p2, satp := rootPt, console := c } := by
  unfold enableMmu at h
  split at h
  · cases h
  · rename_i rootPt p1 ha
    obtain ⟨p2, hk, h⟩ := bind_eq_ok.mp h
    obtain ⟨c1, h1⟩ := puts_eq { st with phys := p2 } "Kernel mapped successfully!\n"
    rw [h1] at h
    obtain ⟨c2, h2⟩ := puts_eq { st with phys := p2, console := c1 } "Flipping the MMU switch...\n"
    rw [h2] at h
    obtain ⟨c3, h3⟩ := puts_eq { st with phys := p2, console := c2, satp := rootPt }
      "MMU IS ON! Welcome to Sv39 Virtual Memory.\n"
    cases h
    exact ⟨rootPt, p1, p2, c3, ha, hk, h3⟩

/-- How the first process comes to run in `st`. -/
inductive StartInit (L : Layout) (st : KState) : KState → Prop where
  | started (procA : Slot) (mid st' : KState) (entry : RamdiskEntry) (console : List Byte)
      (hp : AllocProc L st (some procA) mid)
      (he : ramdiskGetEntry (diskByte L mid) (constByte initName) 0 9 = .ok (some entry))
      (hl : loadElf mid procA (fun a => diskByte L mid (entry.offset.setWidth 64 + a)) =
        .ok (true, st')) :
      StartInit L st { ({ st' with currentProc := procA }.modifyProc procA fun p =>
          { p with state := .running }) with
        console := console, satp := st'.rootOf procA, sscratch := procA, sstatus := bootStatus }

theorem startInit_result {L : Layout} {st st' : KState} (h : startInit L st = .ok st') :
    StartInit L st st' := by
  obtain ⟨⟨r, mid⟩, hp, h⟩ := bind_eq_ok.mp h
  cases r with
  | none => cases h
  | some procA =>
    obtain ⟨entry, he, h⟩ := bind_eq_ok.mp h
    cases entry with
    | none => cases h
    | some entry =>
      obtain ⟨⟨ok, mid'⟩, hl, h⟩ := bind_eq_ok.mp h
      cases ok with
      | false => cases h
      | true =>
        dsimp only at h
        set run := { mid' with currentProc := procA }.modifyProc procA fun p =>
          { p with state := .running } with hrun
        obtain ⟨c1, h1⟩ := puts_eq run "Timer interrupt armed for 10ms in the future!\n"
        rw [h1] at h
        obtain ⟨c2, h2⟩ := puts_eq { run with console := c1 }
          "Jumping to isolated user space at 0x400000...\n"
        rw [h2] at h
        cases h
        have hroot : run.rootOf procA = mid'.rootOf procA := by
          simp [hrun, KState.rootOf, KState.modifyProc]
        have hst := StartInit.started procA mid mid' entry c2 (allocProc_result hp) he hl
        rw [← hroot] at hst
        exact hst

theorem kmain_result {L : Layout} {ram : Memory} {st : KState} (h : kmain L ram = .ok st) :
    ∃ rootPt p1 p2 c, pmmAllocPage (initPmm L ram) = (some rootPt, p1) ∧
      vmmMapKernel L rootPt (p1.zeroPage rootPt) = .ok p2 ∧
      StartInit L { early L ram with phys := p2, satp := rootPt, console := c } st := by
  obtain ⟨s, hs, h⟩ := bind_eq_ok.mp h
  obtain ⟨rootPt, p1, p2, c, ha, hk, rfl⟩ := enableMmu_result hs
  obtain ⟨c1, h1⟩ := puts_eq (early L ram) "Setting up Virtual Memory...\n"
  rw [h1] at h ha
  obtain ⟨c2, h2⟩ := puts_eq { early L ram with phys := p2, satp := rootPt, console := c }
    "Initializing Process Subsystem...\n"
  dsimp only at h
  rw [h2] at h
  exact ⟨rootPt, p1, p2, c2, ha, hk, startInit_result h⟩

end Boot

end Lazux

import Lazux.Preempt
import Lazux.Resume

/-! # The kernel on its processor (`trap.S`, `switch.S`)

The trap frames lie in memory, `sscratch` holds an address, and what C sees of a trap is what the
instructions before its call have stored. -/
namespace Lazux

open PagedMemory Reg Csr

/-- The instructions of `switch_to_user`; its loads are relative to `a0`. -/
inductive SwitchInstr where
  | csrw (c : Csr) (r : Reg)
  | csrr (r : Reg) (c : Csr)
  | li (r : Reg) (w : Word)
  | and (d a b : Reg)
  | or (d a b : Reg)
  | satp (r : Reg)
  | sfence
  | ld (r : Reg) (offset : ℕ)

/-- A hart and the register that selects its page table. -/
structure Core where
  hart : Hart
  satp : Word

def Hart.setReg (m : Hart) (r : Reg) (w : Word) : Hart := { m with x := Function.update m.x r w }

def Hart.setCsr (m : Hart) (c : Csr) (w : Word) : Hart :=
  { m with csr := Function.update m.csr c w }

/-- A fence has no effect here, as there are no cached translations. -/
def SwitchInstr.exec (c : Core) : SwitchInstr → Core
  | .csrw s r => { c with hart := c.hart.setCsr s (c.hart.x r) }
  | .csrr r s => { c with hart := c.hart.setReg r (c.hart.csr s) }
  | .li r w => { c with hart := c.hart.setReg r w }
  | .and d a b => { c with hart := c.hart.setReg d (c.hart.x a &&& c.hart.x b) }
  | .or d a b => { c with hart := c.hart.setReg d (c.hart.x a ||| c.hart.x b) }
  | .satp r => { c with satp := c.hart.x r }
  | .sfence => c
  | .ld r offset => { c with hart := c.hart.setReg r (c.hart.mem (c.hart.x a0) offset) }

def execSwitch (l : List SwitchInstr) (c : Core) : Core := l.foldl SwitchInstr.exec c

/-- `switch_to_user` up to its loads. -/
def switchPrepare : List SwitchInstr :=
  [.csrw sscratch a0,
    .ld t0 248, .csrw sepc t0,
    .csrr t0 sstatus,
    .li t1 (~~~0x100), .and t0 t0 t1,
    .li t1 0x20, .or t0 t0 t1,
    .li t1 (~~~(1 <<< 18)), .and t0 t0 t1,
    .csrw sstatus t0,
    .satp a1,
    .sfence]

/-- The registers in the order `switch_to_user` loads them, with their places in the frame. -/
def switchLoads : List (Reg × ℕ) :=
  [(ra, 0), (sp, 8), (gp, 16), (tp, 24), (t0, 32), (t1, 40), (t2, 48), (s0, 56), (s1, 64),
    (a1, 80), (a2, 88), (a3, 96), (a4, 104), (a5, 112), (a6, 120), (a7, 128),
    (s2, 136), (s3, 144), (s4, 152), (s5, 160), (s6, 168), (s7, 176), (s8, 184), (s9, 192),
    (s10, 200), (s11, 208),
    (t3, 216), (t4, 224), (t5, 232), (t6, 240)]

/-- `switch_to_user` from its first instruction to `sret`. -/
def switchToUser : List SwitchInstr :=
  switchPrepare ++ switchLoads.map (fun p => .ld p.1 p.2) ++ [.ld a0 72]

/-- `sret`, as far as the status goes. -/
def sret (m : Hart) : Hart := m.setCsr sstatus (sretStatus (m.csr sstatus))

/-- The status `switch_to_user` writes: SPP clear, SPIE set, SUM clear. -/
def switchStatus (s : Word) : Word := (s &&& ~~~(0x100 : Word) ||| 0x20) &&& ~~~(1 <<< 18 : Word)

/-- `MAKE_SATP`. -/
def makeSatp (root : ℕ) : Word := 8 <<< 60 ||| pageAddr root >>> 12

/-- Where the trap frames of the process table are. -/
structure FrameTable where
  addr : Slot → Word
  inj : Function.Injective addr

def TrapFrame.read (f : ℕ → Word) : TrapFrame :=
  ⟨f 0, f 8, f 16, f 24, f 32, f 40, f 48, f 56, f 64, f 72, f 80, f 88, f 96, f 104, f 112,
    f 120, f 128, f 136, f 144, f 152, f 160, f 168, f 176, f 184, f 192, f 200, f 208, f 216,
    f 224, f 232, f 240, f 248, f 256, f 264, f 272, f 280⟩

/-- The processor and what else the kernel keeps. What `kernel` has for the trap frames,
`sscratch` and the status is never looked at. -/
structure Machine where
  core : Core
  kernel : KState

/-- The kernel's data with the frames and the status as they are on the hart. -/
def Machine.view (T : FrameTable) (tf : Slot) (s : Machine) : KState :=
  { s.kernel with
    sscratch := tf
    sstatus := s.core.hart.csr sstatus
    processTable := fun i =>
      { s.kernel.processTable i with trapFrame := .read (s.core.hart.mem (T.addr i)) } }

/-- A hart that has just entered `trap_entry`: an interrupt or exception has come to a program
whose registers hold anything. -/
structure Entering (m m' : Hart) (regs : TrapFrame) : Prop where
  mem : m'.mem = m.mem
  scratch : m'.csr sscratch = m.csr sscratch
  status : m'.csr sstatus = trapStatus (m.csr sstatus)
  context : { m'.context with sstatus := regs.sstatus, kernelSp := regs.kernelSp } = regs
  delivered : Delivered regs.scause

/-- How C leaves the hart that returns to `trap_entry`. -/
structure Left (T : FrameTable) (tf : Slot) (st : KState) (c : Core) : Prop where
  a0 : c.hart.x a0 = T.addr tf
  frames : ∀ i, Holds (c.hart.mem (T.addr i)) (st.frameOf i)
  status : c.hart.csr sstatus = st.sstatus
  satp : c.satp = makeSatp st.satp

inductive MachineStep (L : Layout) (T : FrameTable) : Machine → Event → Machine → Prop where
  | store (s : Machine) (x : Reg → Word) (va : Addr) (b : Byte) (pa : Addr)
      (h : userTranslate s.kernel.phys.mem s.kernel.satp .write va = some pa) :
      MachineStep L T s (.store va b) ⟨{ s.core with hart := { s.core.hart with x := x } },
        { s.kernel with
          phys := { s.kernel.phys with mem := s.kernel.phys.mem.setByte pa b } }⟩
  | trap (s : Machine) (m : Hart) (c : Core) (regs : TrapFrame) (input : Input) (tf tf' : Slot)
      (st : KState) (ht : Entering s.core.hart m regs) (ha : (exec trapEntry m).x a0 = T.addr tf)
      (hc : trapHandler L input tf
        (Machine.view T tf ⟨{ s.core with hart := exec trapEntry m }, s.kernel⟩) = .ok (tf', st))
      (hl : Left T tf' st c) : MachineStep L T s (.trap regs input)
        ⟨{ c with hart := sret (exec trapReturn c.hart) }, st⟩

/-- How `kmain` leaves the hart that jumps to `switch_to_user`. -/
structure Booted (T : FrameTable) (st : KState) (c : Core) : Prop where
  a0 : c.hart.x a0 = T.addr st.currentProc
  a1 : c.hart.x a1 = makeSatp (st.rootOf st.currentProc)
  frames : ∀ i, Holds (c.hart.mem (T.addr i)) (st.frameOf i)
  status : c.hart.csr sstatus = 0

def switched (c : Core) : Core :=
  { execSwitch switchToUser c with hart := sret (execSwitch switchToUser c).hart }

inductive MachineReachable (L : Layout) (ram : Memory) (T : FrameTable) : Machine → Prop where
  | boot (st : KState) (c : Core) (h : kmain L ram = .ok st) (hb : Booted T st c) :
      MachineReachable L ram T ⟨switched c, st⟩
  | step {s s' e} (h : MachineReachable L ram T s) (hs : MachineStep L T s e s') :
      MachineReachable L ram T s'

/-- The kernel state a machine stands for while a program runs. -/
structure Mirrors (T : FrameTable) (st : KState) (s : Machine) : Prop where
  scratch : s.core.hart.csr sscratch = T.addr st.sscratch
  satp : s.core.satp = makeSatp st.satp
  view : s.view T st.sscratch = st

/-- The program finds what its frame holds in every register, and the program counter. -/
structure RunsOn (m : Hart) (tf : TrapFrame) : Prop where
  regs : ∀ r : Reg, r ≠ 0 → m.x r = tf.words.getD (r - 1) 0
  pc : m.csr sepc = tf.sepc

variable {L : Layout} {ram : Memory} {T : FrameTable} {st st' : KState} {s s' : Machine}
  {m m' : Hart} {regs frame : TrapFrame} {tf : Slot} {e : Event} {c : Core}

section Frames

variable {f : ℕ → Word}

theorem holds_read : Holds f (TrapFrame.read f) := by
  intro k
  fin_cases k <;> rfl

theorem Holds.read_eq (h : Holds f frame) : TrapFrame.read f = frame := by
  have hk : ∀ k : Fin 36, f (8 * k) = frame.words.getD k 0 := h
  cases frame
  simp only [TrapFrame.read, TrapFrame.mk.injEq]
  exact ⟨hk 0, hk 1, hk 2, hk 3, hk 4, hk 5, hk 6, hk 7, hk 8, hk 9, hk 10, hk 11, hk 12, hk 13,
    hk 14, hk 15, hk 16, hk 17, hk 18, hk 19, hk 20, hk 21, hk 22, hk 23, hk 24, hk 25, hk 26,
    hk 27, hk 28, hk 29, hk 30, hk 31, hk 32, hk 33, hk 34, hk 35⟩

end Frames

section Switch

theorem execSwitch_append (k l : List SwitchInstr) :
    execSwitch (k ++ l) c = execSwitch l (execSwitch k c) := List.foldl_append

theorem prepare_effect (c : Core) : let c' := execSwitch switchPrepare c
    c'.hart.csr sscratch = c.hart.x a0 ∧ c'.hart.csr sepc = c.hart.mem (c.hart.x a0) 248 ∧
      c'.hart.csr sstatus = switchStatus (c.hart.csr sstatus) ∧
      c'.satp = c.hart.x a1 ∧ c'.hart.x a0 = c.hart.x a0 ∧ c'.hart.mem = c.hart.mem :=
  ⟨rfl, rfl, rfl, rfl, rfl, rfl⟩

theorem ld_self {r : Reg} {offset : ℕ} :
    (SwitchInstr.exec c (.ld r offset)).hart.x r = c.hart.mem (c.hart.x a0) offset :=
  Function.update_self _ _ _

theorem ld_of_ne {r r' : Reg} {offset : ℕ} (h : r' ≠ r) :
    (SwitchInstr.exec c (.ld r offset)).hart.x r' = c.hart.x r' :=
  Function.update_of_ne h _ _

theorem loads_effect {l : List (Reg × ℕ)} (h : ∀ p ∈ l, p.1 ≠ a0) (hn : (l.map Prod.fst).Nodup) :
    let c' := execSwitch (l.map fun p => .ld p.1 p.2) c
    (∀ p ∈ l, c'.hart.x p.1 = c.hart.mem (c.hart.x a0) p.2) ∧
      (∀ r, r ∉ l.map Prod.fst → c'.hart.x r = c.hart.x r) ∧
      c'.hart.csr = c.hart.csr ∧ c'.hart.mem = c.hart.mem ∧ c'.satp = c.satp := by
  induction l generalizing c with
  | nil => exact ⟨fun p hp => absurd hp List.not_mem_nil, fun r hr => rfl, rfl, rfl, rfl⟩
  | cons q l ih =>
    rw [List.map_cons, List.nodup_cons] at hn
    have hq : a0 ≠ q.1 := (h q List.mem_cons_self).symm
    obtain ⟨hin, hout, hcsr, hmem, hsatp⟩ := ih (c := SwitchInstr.exec c (.ld q.1 q.2))
      (fun p hp => h p (List.mem_cons_of_mem _ hp)) hn.2
    rw [ld_of_ne hq] at hin
    refine ⟨fun p hp => ?_, fun r hr => ?_, hcsr, hmem, hsatp⟩
    · rcases List.mem_cons.mp hp with rfl | hp
      · exact (hout p.1 hn.1).trans ld_self
      · exact hin p hp
    · rw [List.map_cons, List.mem_cons, not_or] at hr
      exact (hout r hr.2).trans (ld_of_ne hr.1)

theorem loads_spare : (∀ p ∈ switchLoads, p.1 ≠ a0) ∧ (switchLoads.map Prod.fst).Nodup := by
  decide

theorem loads_cover : ∀ r : Reg, r ≠ 0 → r ≠ a0 → (r, 8 * ((r : ℕ) - 1)) ∈ switchLoads := by
  decide

/-- The jump to the first program: its registers and program counter are loaded from the frame, the
page table is the one given, and the next trap will find the frame. -/
theorem switch_effect (h : Holds (c.hart.mem (c.hart.x a0)) frame) :
    let c' := execSwitch switchToUser c
    RunsOn c'.hart frame ∧ c'.hart.csr sscratch = c.hart.x a0 ∧
      c'.hart.csr sstatus = switchStatus (c.hart.csr sstatus) ∧
      c'.satp = c.hart.x a1 ∧ c'.hart.mem = c.hart.mem := by
  obtain ⟨p1, p2, p3, p4, p5, p6⟩ := prepare_effect c
  obtain ⟨hin, hout, hcsr, hmem, hsatp⟩ :=
    loads_effect (c := execSwitch switchPrepare c) loads_spare.1 loads_spare.2
  have hsplit : execSwitch switchToUser c = SwitchInstr.exec (execSwitch
      (switchLoads.map fun p => .ld p.1 p.2) (execSwitch switchPrepare c)) (.ld a0 72) := by
    rw [switchToUser, execSwitch_append, execSwitch_append]
    rfl
  rw [p5, p6] at hin
  rw [p6] at hmem
  have ha0 := hout a0 (by decide)
  rw [p5] at ha0
  dsimp only
  rw [hsplit]
  refine ⟨⟨fun r hr => ?_, ?_⟩, ?_, ?_, hsatp.trans p4, hmem⟩
  · by_cases ha : r = a0
    · subst ha
      rw [ld_self, hmem, ha0]
      exact h 9
    · rw [ld_of_ne ha]
      have hslot : (r : ℕ) - 1 < 36 := by omega
      exact (hin _ (loads_cover r hr ha)).trans (h ⟨r - 1, hslot⟩)
  · exact (congrFun hcsr sepc).trans (p2.trans (h 31))
  · exact (congrFun hcsr sscratch).trans p1
  · exact (congrFun hcsr sstatus).trans p3

end Switch

section Traps

theorem sret_csr (m : Hart) {k : Csr} (h : k ≠ sstatus) : (sret m).csr k = m.csr k := by
  simp [sret, Hart.setCsr, h]

theorem sret_status (m : Hart) : (sret m).csr sstatus = sretStatus (m.csr sstatus) := by
  simp [sret, Hart.setCsr]

theorem Mirrors.holds (h : Mirrors T st s) (i : Slot) :
    Holds (s.core.hart.mem (T.addr i)) (st.frameOf i) := by
  have hi : TrapFrame.read (s.core.hart.mem (T.addr i)) = st.frameOf i :=
    congrArg (fun st => KState.frameOf st i) h.view
  rw [← hi]
  exact holds_read

theorem entry_status : (exec trapEntry m).csr sstatus = m.csr sstatus := by
  have hcsr := (exec_sources (m := (Instr.csrrw t0 sscratch t0).exec m) entry_leaves_t0).2.1
  rw [trapEntry_cons, exec_cons, hcsr]
  rfl

theorem Mirrors.entered (h : Mirrors T st s) (ht : Entering s.core.hart m regs) :
    (exec trapEntry m).x a0 = T.addr st.sscratch ∧
      (exec trapEntry m).x sp = (st.frameOf st.sscratch).kernelSp ∧
      Machine.view T st.sscratch ⟨{ s.core with hart := exec trapEntry m }, s.kernel⟩ =
        saveFrame regs st := by
  have hptr : m.csr sscratch = T.addr st.sscratch := ht.scratch.trans h.scratch
  have hold := h.holds st.sscratch
  rw [← ht.mem, ← hptr] at hold
  obtain ⟨hsaved, ha0, hsp, hmem⟩ := trapEntry_saves hold
  rw [hptr] at hsaved hmem
  refine ⟨ha0.trans hptr, hsp, ?_⟩
  have hstatus : (exec trapEntry m).csr sstatus = trapStatus st.sstatus := by
    have hsst : s.core.hart.csr sstatus = st.sstatus := congrArg KState.sstatus h.view
    rw [entry_status, ht.status, hsst]
  have hcontext : { m.context with kernelSp := (st.frameOf st.sscratch).kernelSp } =
      { regs with
        sstatus := trapStatus st.sstatus
        kernelSp := (st.frameOf st.sscratch).kernelSp } := by
    have hm : m.context.sstatus = trapStatus st.sstatus := entry_status.symm.trans hstatus
    rw [← ht.context, ← hm]
  rw [hcontext] at hsaved
  have hframe : ∀ i, TrapFrame.read ((exec trapEntry m).mem (T.addr i)) =
      (saveFrame regs st).frameOf i := by
    intro i
    by_cases hi : i = st.sscratch
    · subst hi
      rw [hsaved.read_eq, frameOf_saveFrame]
    · have hother : (saveFrame regs st).frameOf i = st.frameOf i := by
        rw [KState.frameOf, saveFrame, KState.setFrame, modifyProc_of_ne _ hi]
        rfl
      rw [hmem _ fun he => hi (T.inj he), ht.mem, hother]
      exact (h.holds i).read_eq
  have hproc : ∀ i, { s.kernel.processTable i with
      trapFrame := (saveFrame regs st).frameOf i } = (saveFrame regs st).processTable i := by
    intro i
    have hk : { s.kernel.processTable i with trapFrame := st.frameOf i } = st.processTable i := by
      rw [← (h.holds i).read_eq]
      exact congrArg (fun st => KState.processTable st i) h.view
    rw [KState.frameOf, saveFrame, KState.setFrame]
    by_cases hi : i = st.sscratch
    · subst hi
      rw [modifyProc_self, ← hk]
    · rw [modifyProc_of_ne _ hi]
      exact hk
  rw [Machine.view, hstatus]
  simp only [hframe, hproc]
  conv_rhs => rw [saveFrame, KState.setFrame, KState.modifyProc]
  rw [← h.view]
  rfl

theorem Left.resumed (h : Left T tf st c) :
    Mirrors T (resume tf st) ⟨{ c with hart := sret (exec trapReturn c.hart) }, st⟩ ∧
      RunsOn (sret (exec trapReturn c.hart)) (st.frameOf tf) := by
  have hold := h.frames tf
  rw [← h.a0] at hold
  obtain ⟨hx, hpc, hstatus, hscratch, hmem⟩ := trapReturn_restores hold
  have hproc : ∀ i, { st.processTable i with
      trapFrame := TrapFrame.read ((exec trapReturn c.hart).mem (T.addr i)) } =
        st.processTable i := by
    intro i
    rw [hmem, (h.frames i).read_eq]
    rfl
  refine ⟨⟨?_, h.satp, ?_⟩, hx, ?_⟩
  · rw [sret_csr _ (by decide), hscratch, h.a0]
    rfl
  · have hview : Machine.view T tf ⟨{ c with hart := sret (exec trapReturn c.hart) }, st⟩ =
        resume tf st := by
      rw [Machine.view, sret_status, hstatus]
      exact congrArg (fun table => { resume tf st with processTable := table }) (funext hproc)
    exact hview
  · rw [sret_csr _ (by decide), hpc]

end Traps

section Bisimulation

theorem kmain_status (h : kmain L ram = .ok st) : st.sstatus = bootStatus := by
  obtain ⟨rootPt, p1, p2, c, -, -, hstart⟩ := kmain_result h
  cases hstart with
  | started i mid fin entry console hp he hl => rfl

theorem Booted.mirrors (h : kmain L ram = .ok st) (hb : Booted T st c) :
    Mirrors T st ⟨switched c, st⟩ ∧ RunsOn (switched c).hart (st.frameOf st.currentProc) := by
  have hsteady := (reachable_settled (.boot st h)).steady
  have hold := hb.frames st.currentProc
  rw [← hb.a0] at hold
  obtain ⟨hruns, hscratch, hstatus, hsatp, hmem⟩ := switch_effect hold
  have hproc : ∀ i, { st.processTable i with
      trapFrame := TrapFrame.read ((execSwitch switchToUser c).hart.mem (T.addr i)) } =
        st.processTable i := by
    intro i
    rw [hmem, (hb.frames i).read_eq]
    rfl
  refine ⟨⟨?_, ?_, ?_⟩, hruns.regs, ?_⟩
  · rw [hsteady.frame]
    exact (sret_csr _ (by decide)).trans (hscratch.trans hb.a0)
  · rw [hsteady.satp]
    exact hsatp.trans hb.a1
  · have hview : (switched c).hart.csr sstatus = st.sstatus := by
      rw [kmain_status h, switched, sret_status, hstatus, hb.status]
      rfl
    rw [Machine.view, hview]
    exact congrArg (fun table => { st with processTable := table }) (funext hproc)
  · exact (sret_csr _ (by decide)).trans hruns.pc

theorem Mirrors.unique (h : Mirrors T st s) (h' : Mirrors T st' s) : st = st' := by
  have hs : st.sscratch = st'.sscratch := T.inj (h.scratch.symm.trans h'.scratch)
  rw [← h.view, ← h'.view, hs]

theorem Mirrors.stored (h : Mirrors T st s) (x : Reg → Word) (pa : Addr) (b : Byte) :
    Mirrors T { st with phys := { st.phys with mem := st.phys.mem.setByte pa b } }
      ⟨{ s.core with hart := { s.core.hart with x := x } },
        { s.kernel with phys := { s.kernel.phys with mem := s.kernel.phys.mem.setByte pa b } }⟩ :=
  ⟨h.scratch, h.satp, congrArg (fun st : KState => { st with
    phys := { st.phys with mem := st.phys.mem.setByte pa b } }) h.view⟩

/-- A step of the processor is a step of the kernel. -/
theorem Mirrors.step (h : Mirrors T st s) (hs : MachineStep L T s e s') :
    ∃ st', Step L st e st' ∧ Mirrors T st' s' ∧ ∀ regs input, e = .trap regs input →
      RunsOn s'.core.hart (st'.frameOf st'.sscratch) := by
  cases hs with
  | store x va b pa ht =>
    have ht' : userTranslate st.phys.mem st.satp .write va = some pa := by
      rw [← h.view]
      exact ht
    refine ⟨_, .store st va b pa ht', h.stored x pa b, fun regs input he => ?_⟩
    cases he
  | trap m c regs input tf tf' st' ht ha hc hl =>
    obtain ⟨ha0, -, hview⟩ := h.entered ht
    have htf : tf = st.sscratch := T.inj (ha.symm.trans ha0)
    subst htf
    rw [hview] at hc
    obtain ⟨hmirrors, hruns⟩ := hl.resumed
    have htake : takeTrap L regs input st = .ok (resume tf' st') := by
      rw [takeTrap, hc]
      rfl
    exact ⟨_, .trap st regs input _ ht.delivered htake, hmirrors, fun _ _ _ => hruns⟩

def Hart.holding (m : Hart) (regs : TrapFrame) : Hart where
  x r := regs.words.getD (r - 1) 0
  csr
    | .sscratch => m.csr sscratch
    | .sepc => regs.sepc
    | .sstatus => trapStatus (m.csr sstatus)
    | .scause => regs.scause
    | .stval => regs.stval
  mem := m.mem

theorem entering_holding (m : Hart) (hd : Delivered regs.scause) :
    Entering m (m.holding regs) regs := by
  refine ⟨rfl, rfl, rfl, ?_, hd⟩
  cases regs
  rfl

/-- A memory with the trap frames of a kernel state. -/
def layFrames (T : FrameTable) (st : KState) (a : Word) (n : ℕ) : Word :=
  match (List.finRange 64).find? fun i => T.addr i = a with
  | some i => (st.frameOf i).words.getD (n / 8) 0
  | none => 0

theorem holds_layFrames (i : Slot) : Holds (layFrames T st (T.addr i)) (st.frameOf i) := by
  have hfind : (List.finRange 64).find? (fun j => T.addr j = T.addr i) = some i := by
    cases hf : (List.finRange 64).find? (fun j => T.addr j = T.addr i) with
    | none =>
      have hno := List.find?_eq_none.mp hf i (List.mem_finRange i)
      exact absurd (decide_eq_true rfl) hno
    | some j =>
      have hj := List.find?_some hf
      rw [T.inj (of_decide_eq_true hj)]
  intro k
  rw [layFrames, hfind, Nat.mul_div_cancel_left _ (by decide)]

def leftCore (T : FrameTable) (tf : Slot) (st : KState) : Core :=
  ⟨⟨fun _ => T.addr tf, fun _ => st.sstatus, layFrames T st⟩, makeSatp st.satp⟩

theorem left_leftCore : Left T tf st (leftCore T tf st) := ⟨rfl, holds_layFrames, rfl, rfl⟩

theorem Mirrors.performs (h : Mirrors T st s) (hs : Step L st e st') :
    ∃ s', MachineStep L T s e s' ∧ Mirrors T st' s' := by
  cases hs with
  | store va b pa ht =>
    have ht' : userTranslate s.kernel.phys.mem s.kernel.satp .write va = some pa := by
      rw [← h.view] at ht
      exact ht
    exact ⟨_, .store s s.core.hart.x va b pa ht', h.stored _ pa b⟩
  | trap regs input st' hd ht =>
    have hent := entering_holding s.core.hart hd
    obtain ⟨ha0, -, hview⟩ := h.entered hent
    obtain ⟨⟨tf', mid⟩, hc, hr⟩ := Run.bind_eq_ok.mp ht
    cases hr
    rw [← hview] at hc
    exact ⟨_, .trap s _ (leftCore T tf' mid) regs input _ tf' mid hent ha0 hc left_leftCore,
      left_leftCore.resumed.1⟩

/-- The instructions around `trap_handler` do what the kernel's model takes them to do, in every
run: `switch_to_user` and a trap's return enter a program that has the registers of its own
frame, the machine and the kernel take the same steps, and C always runs on top of the current
process's own stack. -/
theorem processor_runs_kernel (L : Layout) (ram : Memory) (T : FrameTable) :
    (∀ st c, kmain L ram = .ok st → Booted T st c →
      Mirrors T st ⟨switched c, st⟩ ∧ RunsOn (switched c).hart (st.frameOf st.currentProc)) ∧
    ∀ s, MachineReachable L ram T s → ∃ st, Reachable L ram st ∧ Mirrors T st s ∧
      (∀ e s', MachineStep L T s e s' → ∃ st', Step L st e st' ∧ Mirrors T st' s' ∧
        ∀ regs input, e = .trap regs input →
          RunsOn s'.core.hart (st'.frameOf st'.currentProc)) ∧
      (∀ e st', Step L st e st' → ∃ s', MachineStep L T s e s' ∧ Mirrors T st' s') ∧
      ∀ m regs, Entering s.core.hart m regs → ∃ stack, st.current.kernelStack = some stack ∧
        (exec trapEntry m).x sp = pageAddr stack + 4096 := by
  refine ⟨fun st c hk hb => hb.mirrors hk, fun s h => ?_⟩
  have hmirrors : ∃ st, Reachable L ram st ∧ Mirrors T st s := by
    induction h with
    | boot st c hk hb => exact ⟨st, .boot st hk, (hb.mirrors hk).1⟩
    | step h hs ih =>
      obtain ⟨st, hr, hm⟩ := ih
      obtain ⟨st', hs', hm', -⟩ := hm.step hs
      exact ⟨st', .step hr hs', hm'⟩
  obtain ⟨st, hr, hm⟩ := hmirrors
  refine ⟨st, hr, hm, fun e s' hs => ?_, fun e st' hs => hm.performs hs, fun m regs ht => ?_⟩
  · obtain ⟨st', hs', hm', hruns⟩ := hm.step hs
    refine ⟨st', hs', hm', fun regs input he => ?_⟩
    rw [← (reachable_settled (.step hr hs')).steady.frame]
    exact hruns regs input he
  · have hsteady := (reachable_settled hr).steady
    obtain ⟨-, hsp, -⟩ := hm.entered ht
    obtain ⟨stack, h1, h2⟩ := (reachable_inUser hr).stack _ hsteady.used
    rw [hsteady.frame] at hsp
    exact ⟨stack, h1, hsp.trans h2⟩

def smallTable : FrameTable where
  addr i := BitVec.ofNat 64 (0x80220000 + 1024 * i)
  inj i j h := by
    have hn := congrArg BitVec.toNat h
    rw [BitVec.toNat_ofNat, BitVec.toNat_ofNat] at hn
    apply Fin.ext
    omega

def bootCore (T : FrameTable) (st : KState) : Core :=
  ⟨⟨fun r => if r = a0 then T.addr st.currentProc else makeSatp (st.rootOf st.currentProc),
    fun _ => 0, layFrames T st⟩, 0⟩

theorem booted_bootCore : Booted T st (bootCore T st) := ⟨rfl, rfl, holds_layFrames, rfl⟩

/-- The first process is entered with the registers of its frame, forks, and is entered again. -/
theorem processor_runs_kernel_small : ∃ s s' st st',
    MachineReachable smallLayout smallRam smallTable s ∧ Mirrors smallTable st s ∧
      RunsOn s.core.hart (st.frameOf st.currentProc) ∧
      MachineStep smallLayout smallTable s (.trap forkCall ⟨⟨0, []⟩, []⟩) s' ∧
      Step smallLayout st (.trap forkCall ⟨⟨0, []⟩, []⟩) st' ∧ Mirrors smallTable st' s' ∧
      RunsOn s'.core.hart (st'.frameOf st'.currentProc) := by
  obtain ⟨hentered, hall⟩ := processor_runs_kernel smallLayout smallRam smallTable
  obtain ⟨st, hb⟩ := boot_returns smallImage
  obtain ⟨hm, hruns⟩ := hentered st _ hb booted_bootCore
  have h := MachineReachable.boot st _ hb (booted_bootCore (T := smallTable))
  obtain ⟨b, st1, -, ht, -⟩ := first_forks hb
  have hfork : Step smallLayout st (.trap forkCall ⟨⟨0, []⟩, []⟩) st1 :=
    .trap _ _ _ _ delivered_fork ht
  obtain ⟨s', hs', -⟩ := hm.performs hfork
  obtain ⟨st0, -, hm0, hsteps, -, -⟩ := hall _ h
  obtain ⟨st', hs, hm', hruns'⟩ := hsteps _ s' hs'
  obtain rfl : st0 = st := hm0.unique hm
  exact ⟨_, s', st0, st', h, hm, hruns, hs', hs, hm', hruns' _ _ rfl⟩

end Bisimulation

end Lazux

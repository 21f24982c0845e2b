import Lazux.Boot
import Lazux.Runs

/-! # What a program finds when it is resumed

The kernel stack and the saved status of every process, through the actions of a trap and
from trap to trap. -/
namespace Lazux

open PagedMemory Run Trace

/-- The saved status of a user program: SPP clear, SPIE set, SUM clear. -/
structure UserStatus (w : Word) : Prop where
  spp : w.getLsbD 8 = false
  spie : w.getLsbD 5 = true
  sum : w.getLsbD 18 = false

/-- The kernel stack pointer in the frame of a process is the top of its own stack. -/
def OwnStack (p : Process) : Prop :=
  ∃ stack, p.kernelStack = some stack ∧ p.trapFrame.kernelSp = pageAddr stack + 4096

/-- Inside the kernel every process has its stack and can be resumed in U-mode. -/
structure InKernel (st : KState) : Prop where
  stack : ∀ i, (st.processTable i).state ≠ .unused → OwnStack (st.processTable i)
  status : ∀ i, (st.processTable i).state ≠ .unused → UserStatus (st.frameOf i).sstatus

/-- While a program runs its frame is out of date; the processor holds its status. -/
structure InUser (st : KState) : Prop where
  stack : ∀ i, (st.processTable i).state ≠ .unused → OwnStack (st.processTable i)
  status : ∀ i, (st.processTable i).state ≠ .unused → i ≠ st.sscratch →
    UserStatus (st.frameOf i).sstatus
  sie : st.sstatus.getLsbD 1 = true
  sum : st.sstatus.getLsbD 18 = false

/-- A slot in use afterwards was in use before, with the same stack and saved status. -/
def SameFrame (p p' : Process) : Prop :=
  p'.state ≠ .unused → p.state ≠ .unused ∧ p'.kernelStack = p.kernelStack ∧
    p'.trapFrame.kernelSp = p.trapFrame.kernelSp ∧ p'.trapFrame.sstatus = p.trapFrame.sstatus

variable {L : Layout} {ram : Memory} {st st' mid : KState} {ls : List Label} {tf : Slot}
  {regs : TrapFrame} {input : Input}

theorem SameFrame.refl (p : Process) : SameFrame p p := fun h => ⟨h, rfl, rfl, rfl⟩

theorem SameFrame.ownStack {p p' : Process} (h : SameFrame p p') (hu : p'.state ≠ .unused)
    (hp : OwnStack p) : OwnStack p' := by
  obtain ⟨-, hstack, hsp, -⟩ := h hu
  obtain ⟨stack, h1, h2⟩ := hp
  exact ⟨stack, hstack.trans h1, hsp.trans h2⟩

theorem InKernel.same (h : InKernel st)
    (hs : ∀ i, SameFrame (st.processTable i) (st'.processTable i)) : InKernel st' := by
  constructor
  · intro i hu
    exact (hs i).ownStack hu (h.stack i (hs i hu).1)
  · intro i hu
    have he : (st'.frameOf i).sstatus = (st.frameOf i).sstatus := (hs i hu).2.2.2
    rw [he]
    exact h.status i (hs i hu).1

theorem sameFrame_modifyProc (st : KState) (i : Slot) {f : Process → Process}
    (hf : SameFrame (st.processTable i) (f (st.processTable i))) (j : Slot) :
    SameFrame (st.processTable j) ((st.modifyProc i f).processTable j) := by
  by_cases hj : j = i
  · subst hj
    rw [modifyProc_self]
    exact hf
  · rw [modifyProc_of_ne _ hj]
    exact .refl _

theorem sameFrame_setA0 (st : KState) (i : Slot) (w : Word) (j : Slot) :
    SameFrame (st.processTable j) ((st.setA0 i w).processTable j) := by
  rw [KState.setA0, KState.setFrame]
  refine sameFrame_modifyProc st i ?_ j
  exact fun h => ⟨h, rfl, rfl, rfl⟩

theorem sameFrame_wakeup (st : KState) (ch : Chan) (j : Slot) :
    SameFrame (st.processTable j) ((wakeup st ch).processTable j) := by
  simp only [wakeup]
  split_ifs with h
  · intro _
    rw [h.1]
    exact ⟨by decide, rfl, rfl, rfl⟩
  · exact .refl _

section Actions

theorem inKernel_forked {child : Slot} {phys : Phys} (hst : Steady tf st) (h : InKernel st)
    (ha : AllocProc L st (some child) mid) (hne : child ≠ st.currentProc) :
    InKernel (forked st mid child phys) := by
  obtain ⟨-, -, hother⟩ := ha.of_some
  have hold : ∀ j, j ≠ child →
      SameFrame (st.processTable j) ((forked st mid child phys).processTable j) := by
    intro j hj
    have hset := sameFrame_setA0 { mid with phys := phys } st.currentProc
      ((mid.processTable child).pid.signExtend 64) j
    rw [forked, modifyProc_of_ne _ hj, ← hother j hj]
    exact hset
  have hchild : (forked st mid child phys).processTable child =
      inherit st.current (st.frameOf st.currentProc) (mid.processTable child) := by
    rw [forked, modifyProc_self, setA0_of_ne _ hne]
  constructor
  · intro j hu
    by_cases hj : j = child
    · subst hj
      rw [hchild]
      cases ha with
      | created _ hu' root stack p1 p2 p3 _ hk hb =>
          exact ⟨stack, by simp [inherit], by simp [inherit]⟩
    · exact (hold j hj).ownStack hu (h.stack j (hold j hj hu).1)
  · intro j hu
    by_cases hj : j = child
    · subst hj
      rw [KState.frameOf, hchild]
      exact h.status st.currentProc hst.used
    · have he : ((forked st mid child phys).frameOf j).sstatus = (st.frameOf j).sstatus :=
        (hold j hj hu).2.2.2
      rw [he]
      exact h.status j (hold j hj hu).1

theorem sameFrame_exec (hc : ExecCall L st.currentProc st st') (j : Slot) :
    SameFrame (st.processTable j) (st'.processTable j) := by
  cases hc with
  | badName hn => exact sameFrame_setA0 st _ _ j
  | noEntry hn he => exact sameFrame_setA0 st _ _ j
  | replaced entry newPt p1 p2 mid hn he ha hk hl =>
    obtain ⟨phoff, phnum, start, page, maxEnd, q1, q2, hl⟩ := loadElf_true hl
    by_cases hj : j = st.currentProc
    · subst hj
      have hp := hl.process
      rw [modifyProc_self] at hp
      dsimp only
      rw [hp]
      exact fun h => ⟨h, rfl, rfl, rfl⟩
    · have hp := (hl.processTable_of_ne hj).trans (modifyProc_of_ne _ hj _)
      dsimp only
      rw [hp]
      exact .refl _

theorem sameFrame_allocProc_none (h : AllocProc L st none mid) (j : Slot) :
    SameFrame (st.processTable j) (mid.processTable j) := by
  cases h with
  | full hu => exact .refl _
  | noRoot i hu ha =>
    refine sameFrame_modifyProc { st with nextPid := st.nextPid + 1 } i ?_ j
    exact fun h => absurd rfl h
  | noStack i hu root p1 p2 ha hk hb =>
    refine sameFrame_modifyProc { st with nextPid := st.nextPid + 1, phys := p2 } i ?_ j
    exact fun h => absurd rfl h

theorem sameFrame_freeProc (st : KState) (i j : Slot) :
    SameFrame (st.processTable j) ((freeProc st i).processTable j) := by
  unfold freeProc
  dsimp only
  split_ifs
  · exact .refl _
  · refine sameFrame_modifyProc _ i ?_ j
    exact fun h => absurd rfl h

theorem sameFrame_exiting (hst : Steady tf st) (j : Slot) :
    SameFrame (st.processTable j) ((exiting st).processTable j) := by
  have hz : SameFrame (st.processTable j) ((st.modifyProc st.currentProc fun p =>
      { p with state := .zombie }).processTable j) := by
    refine sameFrame_modifyProc st _ ?_ j
    exact fun _ => ⟨hst.used, rfl, rfl, rfl⟩
  unfold exiting
  dsimp only
  split
  · intro hu
    have hw := sameFrame_wakeup _ _ j hu
    obtain ⟨h1, h2, h3, h4⟩ := hz hw.1
    exact ⟨h1, hw.2.1.trans h2, hw.2.2.1.trans h3, hw.2.2.2.trans h4⟩
  · exact hz

theorem sameFrame_sleeping (hst : Steady tf st) (ch : Chan) (j : Slot) :
    SameFrame (st.processTable j) ((sleeping st ch).processTable j) := by
  have he : sleeping st ch = st.modifyProc st.currentProc fun p =>
      { p with
        state := .blocked, chan := some ch
        trapFrame := { p.trapFrame with sepc := p.trapFrame.sepc - 4 } } := by
    simp [sleeping, sleepOn, KState.setFrame, KState.modifyProc]
  rw [he]
  refine sameFrame_modifyProc st _ ?_ j
  exact fun _ => ⟨hst.used, rfl, rfl, rfl⟩

/-- Every action leaves the processes fit to be resumed. -/
theorem Act.inKernel (h : Act L st ls st') (hk : InKernel st) : InKernel st' := by
  cases h with
  | console c => exact ⟨hk.stack, hk.status⟩
  | status w => exact ⟨hk.stack, hk.status⟩
  | regs hst f hf =>
    have hcur := hf (st.frameOf st.currentProc)
    apply hk.same
    intro j
    refine sameFrame_modifyProc st _ ?_ j
    exact fun h => ⟨h, rfl, hcur.1, hcur.2⟩
  | file hst fd f =>
    apply hk.same
    intro j
    refine sameFrame_modifyProc st _ ?_ j
    exact fun h => ⟨h, rfl, rfl, rfl⟩
  | take hst b u h => exact ⟨hk.stack, hk.status⟩
  | store hst q pa b h => exact ⟨hk.stack, hk.status⟩
  | receive b =>
    apply hk.same
    intro j
    unfold uartByte
    dsimp only
    split_ifs
    · exact sameFrame_wakeup { st with
        uart := (uartReceive st.uart b).uart
        console := st.console ++ (uartReceive st.uart b).echo } .uartRx j
    · exact .refl _
  | grow hst increment ok phys h =>
    apply hk.same
    intro j
    cases ok with
    | false => exact .refl _
    | true =>
      rw [grown, if_pos rfl]
      refine sameFrame_modifyProc { st with phys := phys } _ ?_ j
      exact fun h => ⟨h, rfl, rfl, rfl⟩
  | forkFailed hst mid h => exact hk.same (sameFrame_allocProc_none h)
  | fork hst child mid phys ha hne hc => exact inKernel_forked hst hk ha hne
  | exec hst st' h => exact hk.same (sameFrame_exec h)
  | reap hst i hz hp => exact hk.same (sameFrame_freeProc st i)
  | sleep hst ch hp => exact hk.same (sameFrame_sleeping hst ch)
  | exit hst => exact hk.same (sameFrame_exiting hst)
  | yield hst =>
    apply hk.same
    intro j
    refine sameFrame_modifyProc st _ ?_ j
    exact fun _ => ⟨hst.used, rfl, rfl, rfl⟩

theorem Acts.inKernel (h : Acts L st ls st') (hk : InKernel st) : InKernel st' :=
  h.preserves (fun _ _ _ hk h => h.inKernel hk) hk

theorem sameFrame_dispatched {next : Slot} (hr : (st.processTable next).state = .ready) (j : Slot) :
    SameFrame (st.processTable j) ((dispatched next st).processTable j) := by
  unfold dispatched
  refine sameFrame_modifyProc { st with currentProc := next, satp := st.rootOf next } next ?_ j
  intro _
  exact ⟨by rw [hr]; decide, rfl, rfl, rfl⟩

theorem Does.inKernel {r : Slot × KState} (h : Does L st ls r) (hk : InKernel st) :
    InKernel r.2 := by
  cases h with
  | stays h => exact h.inKernel hk
  | switches next h hc hr =>
    have hmid := h.inKernel hk
    exact hmid.same (sameFrame_dispatched hr)

end Actions

section Traps

theorem userStatus_trapStatus {w : Word} (hsie : w.getLsbD 1 = true) (hsum : w.getLsbD 18 = false) :
    UserStatus (trapStatus w) := by
  unfold trapStatus
  rw [if_pos hsie]
  refine ⟨by simp, by simp, ?_⟩
  simpa using hsum

theorem sretStatus_user {w : Word} (h : UserStatus w) :
    (sretStatus w).getLsbD 1 = true ∧ (sretStatus w).getLsbD 18 = false := by
  unfold sretStatus
  rw [if_pos h.spie]
  constructor
  · simp
  · simpa using h.sum

theorem InUser.saved (h : InUser st) (regs : TrapFrame) : InKernel (saveFrame regs st) := by
  have hother : ∀ i, i ≠ st.sscratch →
      (saveFrame regs st).processTable i = st.processTable i := by
    intro i hi
    rw [saveFrame, KState.setFrame, modifyProc_of_ne _ hi]
  have hself : (saveFrame regs st).processTable st.sscratch = { st.processTable st.sscratch with
      trapFrame := { regs with
        sstatus := trapStatus st.sstatus
        kernelSp := (st.processTable st.sscratch).trapFrame.kernelSp } } := by
    rw [saveFrame, KState.setFrame, modifyProc_self]
  constructor
  · intro i hu
    by_cases hi : i = st.sscratch
    · subst hi
      rw [hself] at hu ⊢
      exact h.stack _ hu
    · rw [hother i hi] at hu ⊢
      exact h.stack i hu
  · intro i hu
    by_cases hi : i = st.sscratch
    · subst hi
      rw [KState.frameOf, hself]
      exact userStatus_trapStatus h.sie h.sum
    · rw [hother i hi] at hu
      rw [KState.frameOf, hother i hi]
      exact h.status i hu hi

theorem InKernel.resumed (h : InKernel st) (hst : Steady tf st) : InUser (resume tf st) := by
  have hu : (st.processTable tf).state ≠ .unused := by
    rw [hst.frame]
    exact hst.used
  have hstatus := sretStatus_user (h.status tf hu)
  refine ⟨h.stack, ?_, hstatus.1, hstatus.2⟩
  intro i hi _
  exact h.status i hi

theorem inUser_boot (h : kmain L ram = .ok st) : InUser st := by
  obtain ⟨rootPt, p1, p2, c, ha, hk, hstart⟩ := kmain_result h
  cases hstart with
  | started i mid fin entry console hp he hl =>
    obtain ⟨phoff, phnum, start, page, maxEnd, q1, q2, hl⟩ := loadElf_true hl
    cases hp with
    | created _ hu root stack r1 r2 r3 ha' hk' hs' =>
    rw [hl.result]
    refine ⟨fun j hj => ?_, fun j hj hne => ?_, by simp [bootStatus], by simp [bootStatus]⟩
    · by_cases hji : j = i
      · subst hji
        exact ⟨stack, by simp [KState.modifyProc], by simp [KState.modifyProc]⟩
      · simp [KState.modifyProc, hji, early, Process.zero] at hj
    · have hji : j ≠ i := hne
      simp [KState.modifyProc, hji, early, Process.zero] at hj

theorem reachable_inUser (h : Reachable L ram st) : InUser st := by
  induction h with
  | boot st h => exact inUser_boot h
  | step hr hs ih =>
    have hsound := reachable_sound hr
    have hst := reachable_steady hr
    cases hs with
    | store va b pa hpa => exact ⟨ih.stack, ih.status, ih.sie, ih.sum⟩
    | trap regs input _ hd ht =>
      obtain ⟨ls, ⟨tf, mid⟩, hacts, hsteady, -, rfl⟩ := takeTrap_does hsound hst ht
      exact (hacts.inKernel (ih.saved regs)).resumed hsteady

end Traps

section Results

/-- What holds whenever the trap handler returns the frame `tf` in `st`. -/
structure Resumable (tf : Slot) (st : KState) : Prop where
  running : ∀ i, (st.processTable i).state = .running ↔ i = st.currentProc
  frame : tf = st.currentProc
  satp : st.current.pageTable = some st.satp
  stack : ∃ stack, st.current.kernelStack = some stack ∧
    (st.frameOf tf).kernelSp = pageAddr stack + 4096
  status : UserStatus (st.frameOf tf).sstatus
  sscratch : (resume tf st).sscratch = st.currentProc
  sie : (resume tf st).sstatus.getLsbD 1 = true
  sum : (resume tf st).sstatus.getLsbD 18 = false

/-- Whatever the trap, the frame returned is the current process's own, on its own table and
stack, and leads to U-mode with interrupts on. -/
theorem resume_invariant (h : Reachable L ram st)
    (ht : trapHandler L input st.sscratch (saveFrame regs st) = .ok (tf, st')) :
    Resumable tf st' := by
  have hsound := reachable_sound h
  have hst := reachable_steady h
  have hu : fromSupervisor ((saveFrame regs st).frameOf st.sscratch) = false := by
    rw [frameOf_saveFrame]
    exact fromSupervisor_trapStatus _
  obtain ⟨ls, hacts, hsteady, -⟩ := does_trapHandler ((benign_saveFrame regs st).sound hsound)
    ((calm_saveFrame regs st).steady hst) hu _ ht
  have hkernel := hacts.inKernel ((reachable_inUser h).saved regs)
  dsimp only at hacts hsteady hkernel
  have hframe := hsteady.frame
  subst hframe
  have hused := hsteady.used
  have hs' := hacts.sound ((benign_saveFrame regs st).sound hsound)
  have hresumed := hkernel.resumed hsteady
  obtain ⟨i, hrun⟩ := (reachable_settled h).run
  have hall : Coord.Run (Coord.first i) (coord st') := by
    have := hacts.run
    rw [(calm_saveFrame regs st).coord] at this
    exact hrun.trans this
  refine ⟨fun j => ⟨fun hj => ?_, ?_⟩, rfl, ?_, ?_, hkernel.status _ hused,
    rfl, hresumed.sie, hresumed.sum⟩
  · exact Coord.run_running hall (Coord.invariant_first i).running j hj
  · rintro rfl
    exact hsteady.running
  · obtain ⟨root, hroot⟩ := Option.ne_none_iff_exists'.mp (hs'.table _ hsteady.used)
    have hsatp := hsteady.satp
    rw [KState.rootOf, hroot] at hsatp
    rw [KState.current, hroot, hsatp]
    rfl
  · exact hkernel.stack _ hused

theorem putchar_returns (input : Input) (hst : Steady st.sscratch st) :
    ∃ tf st', trapHandler L input st.sscratch (saveFrame { TrapFrame.zero with
      scause := 8, a7 := sysPutchar } st) = .ok (tf, st') := by
  rw [trapHandler_ecall hst rfl, syscall, frameOf_entered hst, if_pos rfl]
  exact ⟨_, _, rfl⟩

theorem resume_invariant_small : ∃ st tf st', Reachable smallLayout smallRam st ∧
    trapHandler smallLayout ⟨⟨0, []⟩, []⟩ st.sscratch (saveFrame { TrapFrame.zero with
      scause := 8, a7 := sysPutchar } st) = .ok (tf, st') ∧ Resumable tf st' := by
  obtain ⟨st, h, -⟩ := small_boots
  obtain ⟨tf, st', ht⟩ := putchar_returns (L := smallLayout) ⟨⟨0, []⟩, []⟩ (reachable_steady h)
  exact ⟨st, tf, st', h, ht, resume_invariant h ht⟩

end Results

end Lazux

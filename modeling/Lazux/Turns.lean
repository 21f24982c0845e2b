import Lazux.Deadlock
import Lazux.Fork
import Lazux.Lib.Cyclic

/-! # Passing the processor on

With somebody ready a tick, an exit and a call that blocks give the processor to another process,
and nothing else changes in who may run. -/
namespace Lazux

open PagedMemory RadixForest Run Trace

variable {c c' : Coord} {L : Layout} {ram : Memory} {st st' s : KState} {regs : TrapFrame}
  {input : Input} {i next start tf : Slot}

section Scans

theorem findReady_scan (st : KState) (start : Slot) : findReady st start =
    (Cyclic.scan start).find? fun i => decide ((st.processTable i).state = .ready) := rfl

/-- A scan comes to the place it starts from last. -/
theorem findReady_other (h : findReady st start = some next) (hi : i ≠ start)
    (hr : (st.processTable i).state = .ready) : next ≠ start := by
  rintro rfl
  rw [findReady_scan] at h
  have hle := Cyclic.distance_le_of_find h (decide_eq_true hr)
  exact hi (Cyclic.distance_injective (le_antisymm (Cyclic.distance_self_max _ _) hle))

end Scans

section Handover

theorem Schedules.handler (h : Schedules tf st s) (L : Layout) (input : Input)
    (hst : Steady tf st) (hu : fromSupervisor (st.frameOf tf) = false) :
    trapHandler L input tf st = schedule input.idle tf s := by
  have hcall : (st.frameOf tf).scause = 8 →
      trapHandler L input tf st = syscall L input tf (entered st) := by
    intro h8
    apply trapHandler_call hst _ hu
    rw [KState.scause, ← hst.frame]
    exact h8
  cases h with
  | tick hm h5 =>
    unfold trapHandler
    dsimp only
    rw [if_pos hm, if_pos h5]
  | fault hm h8 =>
    unfold trapHandler
    dsimp only
    rw [if_neg (by rw [hm]; decide), if_neg (by rw [hu]; decide), if_neg h8, exitCurrent_eq]
  | exit h8 h7 =>
    rw [hcall h8, syscall, h7, if_neg (by decide), if_pos rfl, exitCurrent_eq]
  | wait h8 h7 hz hk =>
    rw [hcall h8, syscall, h7, if_neg (by decide), if_neg (by decide), if_neg (by decide),
      if_neg (by decide), if_pos rfl]
    unfold sysWaitCall
    rw [hz]
    dsimp only
    rw [hk, hst.frame]
    rfl
  | read h8 h7 hb fd hfd hs he =>
    rw [hcall h8, syscall, h7, if_neg (by decide), if_neg (by decide), if_neg (by decide),
      if_neg (by decide), if_neg (by decide), if_neg (by decide), if_neg (by decide), if_pos rfl]
    have hok : userRangeOk (entered st).phys.mem ((entered st).rootOf (entered st).currentProc)
        ((entered st).frameOf tf).a1 ((((entered st).frameOf tf).a2.setWidth 32).setWidth 64)
        pteW = true := by
      rw [hst.frame]
      exact hb
    have hsize : ((entered st).frameOf tf).a2.setWidth 32 ≠ 0 := by
      rw [hst.frame]
      exact hs
    have hnumber : fdOf ((entered st).frameOf tf).a0 = some fd := by
      rw [hst.frame]
      exact hfd.1
    have hconsole : ((entered st).current.openFiles fd).type = .console := hfd.2
    have hempty : uartGetc (entered st).uart = (none, (uartGetc (entered st).uart).2) :=
      Prod.ext he rfl
    unfold sysReadCall
    dsimp only
    rw [hok, if_neg (by decide), hnumber]
    simp only [hconsole]
    rw [if_neg hsize, hempty, hst.frame]
    rfl

theorem openFiles_modifyProc {f : Process → Process} (hf : ∀ p, (f p).openFiles = p.openFiles)
    (st : KState) (j i : Slot) :
    ((st.modifyProc j f).processTable i).openFiles = (st.processTable i).openFiles := by
  by_cases hi : i = j
  · subst hi
    rw [modifyProc_self, hf]
  · rw [modifyProc_of_ne _ hi]

theorem openFiles_setFrame (st : KState) (j : Slot) (f : TrapFrame → TrapFrame) (i : Slot) :
    ((st.setFrame j f).processTable i).openFiles = (st.processTable i).openFiles :=
  openFiles_modifyProc (f := fun p => { p with trapFrame := f p.trapFrame }) (fun _ => rfl) st j i

theorem openFiles_called (regs : TrapFrame) (st : KState) (i : Slot) :
    ((entered (saveFrame regs st)).processTable i).openFiles = (st.processTable i).openFiles := by
  have hentered : (entered (saveFrame regs st)).processTable i = ((saveFrame regs st).setFrame
      (saveFrame regs st).currentProc fun f => { f with sepc := f.sepc + 4 }).processTable i := rfl
  rw [hentered, openFiles_setFrame, saveFrame, openFiles_setFrame]

/-- A trap that gives up the processor passes it on, with somebody ready. -/
theorem Schedules.hands (h : Schedules st.sscratch (saveFrame regs st) s) (L : Layout)
    (input : Input) (hst : Steady st.sscratch st)
    (hready : ∃ i, ((parked st.sscratch s).processTable i).state = .ready) :
    ∃ next st', findReady (parked st.sscratch s) s.currentProc = some next ∧
      ((parked st.sscratch s).processTable next).state = .ready ∧
      takeTrap L regs input st = .ok st' ∧
      (∀ i, (st'.processTable i).openFiles = (s.processTable i).openFiles) ∧
      coord st' =
        { (coord (parked st.sscratch s)).setState next .running with current := next } := by
  have hfound : findReady (parked st.sscratch s) s.currentProc ≠ none := by
    intro hnone
    obtain ⟨i, hi⟩ := hready
    exact findReady_none hnone i hi
  obtain ⟨next, hnext⟩ := Option.ne_none_iff_exists'.mp hfound
  have hu : fromSupervisor ((saveFrame regs st).frameOf st.sscratch) = false := by
    rw [frameOf_saveFrame]
    exact fromSupervisor_trapStatus _
  have hret := h.handler L input ((calm_saveFrame regs st).steady hst) hu
  rw [schedule_returns hnext] at hret
  refine ⟨next, resume next (dispatched next (parked st.sscratch s)), hnext, findReady_some hnext,
    ?_, fun i => ?_, ?_⟩
  · rw [takeTrap, hret]
    rfl
  · have hpark : ((parked st.sscratch s).processTable i).openFiles =
        (s.processTable i).openFiles := by
      rw [parked, openFiles_modifyProc]
      exact fun _ => rfl
    rw [← hpark]
    have hnext : ((dispatched next (parked st.sscratch s)).processTable i).openFiles =
        ((parked st.sscratch s).processTable i).openFiles := by
      rw [dispatched, openFiles_modifyProc]
      exact fun _ => rfl
    exact hnext
  · rw [(calm_resume _ _).coord, coord_dispatched]

theorem coord_parked_away (tf : Slot) (h : s.current.state ≠ .running) :
    coord (parked tf s) = coord s := by
  have hstate : (parked tf s).processTable s.currentProc =
      { s.processTable s.currentProc with trapFrame := s.frameOf tf } := by
    have hs : (s.processTable s.currentProc).state ≠ .running := h
    simp only [parked, modifyProc_self, if_neg hs]
  refine coord_eq (fun i => ?_) rfl rfl rfl
  by_cases hi : i = s.currentProc
  · rw [hi, hstate]
    exact ⟨rfl, rfl, rfl, rfl⟩
  · rw [parked, modifyProc_of_ne _ hi]
    exact ⟨rfl, rfl, rfl, rfl⟩

end Handover

section Handing

def tickTrap : TrapFrame := { TrapFrame.zero with scause := timerInterrupt }

def exitCall : TrapFrame := { TrapFrame.zero with scause := 8, a7 := sysExit }

def waitCall : TrapFrame := { TrapFrame.zero with scause := 8, a7 := sysWait }

/-- With somebody else ready a tick passes the processor on. -/
theorem tick_step (regs : TrapFrame) (input : Input) (hset : Settled L st)
    (hcause : regs.scause = timerInterrupt)
    (hi : i ≠ st.currentProc) (hready : (st.processTable i).state = .ready) :
    ∃ next st', next ≠ st.currentProc ∧ (st.processTable next).state = .ready ∧
      takeTrap L regs input st = .ok st' ∧
      coord st' = { ((coord st).setState st.currentProc .ready).setState next .running with
        current := next } := by
  have hst := (calm_saveFrame regs st).steady hset.steady
  set s := saveFrame regs st with hsdef
  have hback : coord (parked st.sscratch s) = (coord st).setState st.currentProc .ready := by
    have hrun : (s.processTable st.currentProc).state = .running := hst.running
    rw [← (calm_saveFrame regs st).coord]
    refine coord_setState (f := fun p => { p with
      trapFrame := s.frameOf st.sscratch
      state := if p.state = .running then .ready else p.state }) s st.currentProc
      (fun _ => ⟨rfl, rfl, rfl⟩) ?_
    rw [hrun, if_pos rfl]
  have hafter : ∀ j, ((parked st.sscratch s).processTable j).state =
      if j = st.currentProc then .ready else (st.processTable j).state := by
    intro j
    have hj := congrFun (congrArg Coord.state hback) j
    simp only [Coord.setState, Function.update_apply] at hj
    exact hj
  have hi' : ((parked st.sscratch s).processTable i).state = .ready := by
    rw [hafter, if_neg hi, hready]
  have htick : Schedules st.sscratch s s := by
    have hframe : (s.frameOf st.sscratch).scause = timerInterrupt := by
      rw [hsdef, frameOf_saveFrame]
      exact hcause
    refine .tick ?_ ?_
    · rw [hframe]
      decide
    · rw [hframe]
      decide
  obtain ⟨next, st', hnext, hr, ht, -, hnew⟩ := htick.hands L input hset.steady
    ⟨i, hi'⟩
  have hne : next ≠ st.currentProc := findReady_other hnext hi hi'
  rw [hafter, if_neg hne] at hr
  rw [hback] at hnew
  exact ⟨next, st', hne, hr, ht, hnew⟩

def Awake (st : KState) : Prop := ∀ i, (st.processTable i).state ≠ .blocked

theorem wakeup_awake (h : Awake st) (ch : Chan) : wakeup st ch = st := by
  have hsame : (wakeup st ch).processTable = st.processTable := by
    funext i
    simp only [wakeup, h i, false_and, if_false]
  exact congrArg (fun t => ({ st with processTable := t } : KState)) hsame

theorem exiting_awake (h : Awake st) : exiting st =
    st.modifyProc st.currentProc fun p => { p with state := .zombie } := by
  have hz : Awake (st.modifyProc st.currentProc fun p => { p with state := .zombie }) := by
    intro i
    by_cases hi : i = st.currentProc
    · subst hi
      simp
    · rw [modifyProc_of_ne _ hi]
      exact h i
  unfold exiting
  dsimp only
  split
  · exact wakeup_awake hz _
  · rfl

theorem exit_step (regs : TrapFrame) (input : Input) (hset : Settled L st) (h8 : regs.scause = 8)
    (h7 : regs.a7 = sysExit)
    (hawake : Awake st) (hready : ∃ i, (st.processTable i).state = .ready) :
    ∃ next st', (st.processTable next).state = .ready ∧
      takeTrap L regs input st = .ok st' ∧
      coord st' = { ((coord st).setState st.currentProc .zombie).setState next .running with
        current := next } := by
  set s := entered (saveFrame regs st) with hsdef
  have hstate : ∀ i, (s.processTable i).state = (st.processTable i).state :=
    fun i => (pid_entered regs st i).2.2
  have hcoord : coord s = coord st :=
    (calm_entered (saveFrame regs st)).coord.trans (calm_saveFrame regs st).coord
  have hexit : exiting s = s.modifyProc st.currentProc fun p => { p with state := .zombie } := by
    apply exiting_awake
    intro i
    rw [hstate]
    exact hawake i
  have hdead : coord (exiting s) = (coord st).setState st.currentProc .zombie := by
    rw [hexit, ← hcoord]
    exact coord_setState s st.currentProc (fun _ => ⟨rfl, rfl, rfl⟩) rfl
  have hafter : ∀ i, (coord (exiting s)).state i =
      if i = st.currentProc then .zombie else (st.processTable i).state := by
    intro i
    rw [hdead]
    simp only [Coord.setState, Function.update_apply]
    rfl
  have hcur : (exiting s).currentProc = st.currentProc := congrArg Coord.current hdead
  have haway : (exiting s).current.state ≠ .running := by
    have hzombie : (exiting s).current.state = .zombie := by
      have hz := hafter st.currentProc
      rw [if_pos rfl] at hz
      rw [KState.current, hcur]
      exact hz
    rw [hzombie]
    decide
  have hparked := coord_parked_away st.sscratch haway
  have hlives : ∀ i, ((parked st.sscratch (exiting s)).processTable i).state =
      if i = st.currentProc then .zombie else (st.processTable i).state := by
    intro i
    rw [← hafter, ← hparked]
    rfl
  have hexits : Schedules st.sscratch (saveFrame regs st) (exiting s) := by
    refine .exit ?_ ?_
    · rw [frameOf_saveFrame]
      exact h8
    · rw [frameOf_entered hset.steady]
      exact h7
  obtain ⟨next, st', -, hr, ht, -, hnew⟩ := hexits.hands L input hset.steady (by
    obtain ⟨i, hi⟩ := hready
    refine ⟨i, ?_⟩
    rw [hlives, if_neg]
    · exact hi
    · rintro rfl
      rw [show (st.processTable st.currentProc).state = .running from hset.steady.running] at hi
      cases hi)
  rw [hlives] at hr
  split_ifs at hr with hc
  rw [hparked, hdead] at hnew
  exact ⟨next, st', hr, ht, hnew⟩

theorem sleep_step {ch : Chan} (input : Input) (hset : Settled L st)
    (h : Schedules st.sscratch (saveFrame regs st) (sleeping (entered (saveFrame regs st)) ch))
    (hready : ∃ i, (st.processTable i).state = .ready) :
    ∃ next st', (st.processTable next).state = .ready ∧
      takeTrap L regs input st = .ok st' ∧
      (∀ i, (st'.processTable i).openFiles = (st.processTable i).openFiles) ∧
      coord st' = { ((coord st).setState st.currentProc .blocked).setState next .running with
        chan := Function.update (coord st).chan st.currentProc (some ch)
        current := next } := by
  set s := entered (saveFrame regs st) with hsdef
  have hcoord : coord s = coord st :=
    (calm_entered (saveFrame regs st)).coord.trans (calm_saveFrame regs st).coord
  have haway : (sleeping s ch).current.state ≠ .running := by
    simp [sleeping, sleepOn, KState.current, KState.setFrame, KState.modifyProc]
  have hparked : coord (parked st.sscratch (sleeping s ch)) =
      { (coord st).setState st.currentProc .blocked with
        chan := Function.update (coord st).chan st.currentProc (some ch) } := by
    rw [coord_parked_away _ haway, coord_sleeping, hcoord]
    rfl
  have hafter : ∀ i, ((parked st.sscratch (sleeping s ch)).processTable i).state =
      if i = st.currentProc then .blocked else (st.processTable i).state := by
    intro i
    have hi := congrFun (congrArg Coord.state hparked) i
    simp only [Coord.setState, Function.update_apply] at hi
    exact hi
  obtain ⟨next, st', -, hr, ht, hfiles, hnew⟩ := h.hands L input hset.steady (by
    obtain ⟨i, hi⟩ := hready
    refine ⟨i, ?_⟩
    rw [hafter, if_neg]
    · exact hi
    · rintro rfl
      rw [show (st.processTable st.currentProc).state = .running from hset.steady.running] at hi
      cases hi)
  rw [hafter] at hr
  split_ifs at hr with hc
  rw [hparked] at hnew
  have hsame : ∀ i, ((sleeping s ch).processTable i).openFiles = (st.processTable i).openFiles := by
    intro i
    rw [sleeping, openFiles_setFrame, sleepOn, openFiles_modifyProc]
    · exact openFiles_called regs st i
    · exact fun _ => rfl
  exact ⟨next, st', hr, ht, fun i => (hfiles i).trans (hsame i), hnew⟩

end Handing

section Families

/-- A wait of a process with a zombie child comes back with the pid of one and frees its slot. -/
theorem wait_step (regs : TrapFrame) (input : Input) (hset : Settled L st) (h8 : regs.scause = 8)
    (h7 : regs.a7 = sysWait)
    (hkid : (st.processTable i).parentPid = st.current.pid)
    (hzombie : (st.processTable i).state = .zombie) :
    ∃ k st', (st.processTable k).state = .zombie ∧ takeTrap L regs input st = .ok st' ∧
      (st'.frameOf st.currentProc).sepc = regs.sepc + 4 ∧
      (st'.frameOf st.currentProc).a0 = (st.processTable k).pid.signExtend 64 ∧
      coord st' = { (coord st).setState k .unused with
        pid := Function.update (coord st).pid k 0
        parent := Function.update (coord st).parent k 0
        chan := Function.update (coord st).chan k none } := by
  obtain ⟨hs, hst⟩ := hset.called regs
  have hpid := pid_entered regs st
  have hcoord : coord (entered (saveFrame regs st)) = coord st :=
    (calm_entered (saveFrame regs st)).coord.trans (calm_saveFrame regs st).coord
  set s := entered (saveFrame regs st) with hsdef
  have hcur : s.currentProc = st.currentProc := rfl
  have hfound : zombieKid s ≠ none := by
    intro hnone
    have hno := List.find?_eq_none.mp hnone i (List.mem_finRange i)
    apply hno
    simp only [decide_eq_true_eq]
    rw [(hpid i).2.1, (hpid i).2.2, KState.current, hcur, (hpid st.currentProc).1]
    exact ⟨hkid, hzombie⟩
  obtain ⟨k, hk⟩ := Option.ne_none_iff_exists'.mp hfound
  have hkz := (zombieKid_some hk).2
  have hcall : (s.frameOf st.sscratch).a7 = sysWait := by
    rw [hsdef, frameOf_entered hset.steady]
    exact h7
  have hret : trapHandler L input st.sscratch (saveFrame regs st) =
      (freeProc s k).answer st.sscratch (((s.processTable k).pid).signExtend 64) := by
    rw [trapHandler_ecall hset.steady h8, ← hsdef, syscall, hcall, if_neg (by decide),
      if_neg (by decide), if_neg (by decide), if_neg (by decide), if_pos rfl]
    unfold sysWaitCall
    rw [hk]
  have hne : st.currentProc ≠ k := by
    rintro rfl
    have hrun := hst.running
    rw [KState.current, hcur, hkz] at hrun
    cases hrun
  have hreturns : Returns s ((s.processTable k).pid.signExtend 64)
      (st.sscratch, (freeProc s k).setA0 st.sscratch ((s.processTable k).pid.signExtend 64)) := by
    refine returns_answer hst (freeProc_fields s k).1 ?_ _
    exact congrArg Process.trapFrame (freeProc_of_ne hne)
  have hframe := hreturns.frame hset.steady
  refine ⟨k, resume st.sscratch ((freeProc s k).setA0 st.sscratch
    ((s.processTable k).pid.signExtend 64)), ?_, ?_, ?_, ?_, ?_⟩
  · rw [← (hpid k).2.2]
    exact hkz
  · rw [takeTrap, hret]
    rfl
  · exact congrArg TrapFrame.sepc hframe
  · rw [← (hpid k).1]
    exact congrArg TrapFrame.a0 hframe
  · rw [(calm_resume _ _).coord, (calm_setA0 _ _ _).coord, coord_freeProc hkz, hcoord]

theorem wait_sleeps (hset : Settled L st) (h8 : regs.scause = 8) (h7 : regs.a7 = sysWait)
    (hkid : (coord st).parent i = (coord st).pid st.currentProc)
    (hused : (coord st).state i ≠ .unused)
    (halive : ∀ j, (coord st).state j = .zombie →
      (coord st).parent j ≠ (coord st).pid st.currentProc) :
    Schedules st.sscratch (saveFrame regs st)
      (sleeping (entered (saveFrame regs st)) (.pcb st.currentProc)) := by
  have hpid := pid_entered regs st
  have hself : (entered (saveFrame regs st)).current.pid = st.current.pid := (hpid st.currentProc).1
  refine .wait ?_ ?_ ?_ ?_
  · rw [frameOf_saveFrame]
    exact h8
  · rw [frameOf_entered hset.steady]
    exact h7
  · apply List.find?_eq_none.mpr
    intro j _ hj
    simp only [decide_eq_true_eq] at hj
    rw [(hpid j).2.1, (hpid j).2.2, hself] at hj
    exact halive j hj.2 hj.1
  · apply (hasKids_iff _).mpr
    refine ⟨i, ?_, ?_⟩
    · rw [(hpid i).2.1, hself]
      exact hkid
    · rw [(hpid i).2.2]
      exact hused

theorem read_sleeps (hset : Settled L st) (h8 : regs.scause = 8) (h7 : regs.a7 = sysRead)
    (hbuffer : userRangeOk st.phys.mem (st.rootOf st.currentProc) regs.a1
      ((regs.a2.setWidth 32).setWidth 64) pteW = true)
    {fd : Fin 16} (hfd : fdOf regs.a0 = some fd)
    (htype : (st.current.openFiles fd).type = .console)
    (hsize : regs.a2.setWidth 32 ≠ 0) (hempty : st.uart.rxCommit = st.uart.rxTail) :
    Schedules st.sscratch (saveFrame regs st)
      (sleeping (entered (saveFrame regs st)) .uartRx) := by
  have hframe := frameOf_entered hset.steady regs
  have hcur : (entered (saveFrame regs st)).currentProc = st.sscratch := hset.steady.frame.symm
  refine .read ?_ ?_ ?_ fd ⟨?_, ?_⟩ ?_ ?_
  · rw [frameOf_saveFrame]
    exact h8
  · rw [hframe]
    exact h7
  · rw [BufferOk, hcur, hframe, hset.steady.frame]
    have hroot : (entered (saveFrame regs st)).rootOf st.currentProc = st.rootOf st.currentProc :=
      congrArg (Option.getD · 0) (((calm_saveFrame regs st).trans (calm_entered _)).table _)
    rw [hroot]
    exact hbuffer
  · rw [hcur, hframe]
    exact hfd
  · have hfiles : (entered (saveFrame regs st)).current.openFiles = st.current.openFiles := by
      have hs := hset.steady.frame
      simp [entered, saveFrame, KState.setFrame, KState.modifyProc, KState.current, hs]
    rw [hfiles]
    exact htype
  · rw [KState.readSize, hcur, hframe]
    exact hsize
  · have hu : (saveFrame regs st).uart = st.uart := rfl
    rw [hu, uartGetc, if_pos hempty]

/-- Every page of the running process can be accessed somehow. -/
def Accessible (st : KState) : Prop :=
  ∀ q, hasFlag (entryOf st st.currentProc q) pteV → isLeaf (entryOf st st.currentProc q)

/-- Every process has the descriptors of a new one. -/
def Fresh (st : KState) : Prop :=
  ∀ i, (st.processTable i).state ≠ .unused → (st.processTable i).openFiles = initProcessFds

theorem fork_adds (regs : TrapFrame) (input : Input) (hset : Settled L st) (h8 : regs.scause = 8)
    (h7 : regs.a7 = sysFork)
    (hslot : freeSlot st ≠ none) (hfree : totalPages + 70 ≤ 2 * freeFrames st.phys)
    (haccess : Accessible st) :
    ∃ child st', (st.processTable child).state = .unused ∧
      takeTrap L regs input st = .ok st' ∧ Accessible st' ∧ (Fresh st → Fresh st') ∧
      2 * freeFrames st.phys ≤ freeFrames st'.phys + totalPages + 140 ∧
      (st'.frameOf st.currentProc).a0 = (BitVec.ofNat 32 st.nextPid).signExtend 64 ∧
      coord st' = { (coord st).setState child .ready with
        pid := Function.update (coord st).pid child (BitVec.ofNat 32 st.nextPid)
        parent := Function.update (coord st).parent child ((coord st).pid st.currentProc)
        nextPid := st.nextPid + 1 } := by
  obtain ⟨child, mid, phys, ha, hne, hc, hret⟩ := @fork_step _ _ regs input hset
    h8 h7 hslot (CopyFits.of_free hset.sound.owned hfree haccess)
  obtain ⟨hs, hst⟩ := hset.called regs
  have hcoord : coord (entered (saveFrame regs st)) = coord st :=
    (calm_entered (saveFrame regs st)).coord.trans (calm_saveFrame regs st).coord
  have hstate : ∀ i, ((entered (saveFrame regs st)).processTable i).state =
      (st.processTable i).state := fun i => (pid_entered regs st i).2.2
  refine ⟨child, _, ?_, hret, ?_, fun hfresh i hi => ?_, ?_, ?_, ?_⟩
  · rw [← hstate]
    exact ha.of_some.1
  · intro q
    have hsame := (within_forked hs hst ha hne hc).entry_other hs.owned hne.symm q
    rw [trees_entered] at hsame
    have hcur : (forked (entered (saveFrame regs st)) mid child phys).currentProc =
        st.currentProc := ha.of_some.2.1
    have hentry : entryOf (resume st.sscratch (forked (entered (saveFrame regs st)) mid child
        phys)) st.currentProc q = entryOf st st.currentProc q := hsame
    have haccess' := haccess q
    rw [← hentry] at haccess'
    simp only [resume, hcur]
    exact haccess'
  · have hold := openFiles_called regs st
    by_cases hic : i = child
    · subst hic
      have hfiles : ((forked (entered (saveFrame regs st)) mid i phys).processTable i).openFiles =
          ((entered (saveFrame regs st)).processTable st.currentProc).openFiles := by
        rw [forked, modifyProc_self]
        rfl
      exact hfiles.trans ((hold _).trans (hfresh _ hset.steady.used))
    · have hchild : ((forked (entered (saveFrame regs st)) mid child phys).processTable i).openFiles
          = (mid.processTable i).openFiles := by
        rw [forked, modifyProc_of_ne _ hic, KState.setA0, openFiles_setFrame]
      have hsame := ha.of_some.2.2 i hic
      have hused : (st.processTable i).state ≠ .unused := by
        have hc' := congrFun (congrArg Coord.state ((calm_resume st.sscratch _).coord.trans
          (coord_forked phys ha hne))) i
        rw [hcoord] at hc'
        simp only [Coord.setState, Function.update_of_ne hic] at hc'
        exact fun h0 => hi (hc'.trans h0)
      rw [show ((resume st.sscratch (forked (entered (saveFrame regs st)) mid child phys)
        ).processTable i).openFiles = _ from hchild, hsame]
      exact (hold i).trans (hfresh i hused)
  · have hframes := forked_frames hs hst ha hne hc
    exact hframes
  · exact congrArg TrapFrame.a0 ((returns_forked hst ha hne).frame hset.steady)
  · rw [(calm_resume _ _).coord, coord_forked phys ha hne, hcoord]
    rfl

theorem delivered_fork : Delivered forkCall.scause := fun h => absurd h (by decide)

theorem delivered_exit : Delivered exitCall.scause := fun h => absurd h (by decide)

theorem delivered_tick : Delivered tickTrap.scause := fun _ => Or.inl (by decide)

theorem delivered_wait : Delivered waitCall.scause := fun h => absurd h (by decide)

/-- Three processes: the first one runs, its two children wait for the processor. -/
structure Threesome (a b c : Slot) (k : Coord) : Prop where
  current : k.current = a
  ne : b ≠ a ∧ c ≠ a ∧ c ≠ b
  state : ∀ i, k.state i = if i = a then .running else if i = b ∨ i = c then .ready else .unused
  pid : ∀ i, k.pid i = if i = a then 1 else if i = b then 2 else if i = c then 3 else 0
  parent : ∀ i, k.parent i = if i = b ∨ i = c then 1 else 0
  nextPid : k.nextPid = 4
  readable : k.readable = false

/-- Two processes: `a` runs, `b` does not, and there is no third. -/
structure Twosome (a b : Slot) (s : ProcState) (k : Coord) : Prop where
  current : k.current = a
  ne : b ≠ a
  state : ∀ i, k.state i = if i = a then .running else if i = b then s else .unused

section Twosomes

variable {a b i : Slot} {s s' : ProcState} {k k' : Coord}

/-- The other one is known by its state. -/
theorem Twosome.other (h : Twosome a b s k) (hi : k.state i = s) (hr : s ≠ .running)
    (hu : s ≠ .unused) : i = b := by
  rw [h.state] at hi
  split_ifs at hi with h1 h2
  · exact absurd hi.symm hr
  · exact h2
  · exact absurd hi.symm hu

theorem Twosome.state_other (h : Twosome a b s k) : k.state b = s := by
  rw [h.state, if_neg h.ne, if_pos rfl]

theorem Twosome.awake {st : KState} (h : Twosome a b s (coord st)) (hs : s ≠ .blocked) :
    Awake st := by
  intro i
  have hi : (st.processTable i).state = _ := h.state i
  rw [hi]
  split_ifs with h1 h2
  · decide
  · exact hs
  · decide

theorem Twosome.handed (h : Twosome a b s k)
    (hk : k' = { (k.setState k.current s').setState b .running with current := b }) :
    Twosome b a s' k' := by
  subst hk
  refine ⟨rfl, h.ne.symm, fun i => ?_⟩
  simp only [Coord.setState, Function.update_apply, h.current]
  split_ifs with h1 h2
  · rfl
  · rfl
  · exact (h.state i).trans (by rw [if_neg h2, if_neg h1])

theorem Twosome.stay (h : Twosome a b s k) (h' : Twosome b a s' k') (hu : s' ≠ .unused)
    (hi : k.state i ≠ .unused) : k'.state i ≠ .unused := by
  rw [h.state] at hi
  rw [h'.state]
  by_cases hb : i = b
  · rw [if_pos hb]
    decide
  · rw [if_neg hb]
    by_cases ha : i = a
    · rw [if_pos ha]
      exact hu
    · rw [if_neg ha, if_neg hb] at hi
      exact absurd rfl hi

end Twosomes

theorem first_forks {st : KState} (hboot : kmain smallLayout smallRam = .ok st) : ∃ b st',
    (st.processTable b).state = .unused ∧
    takeTrap smallLayout forkCall ⟨⟨0, []⟩, []⟩ st = .ok st' ∧
    Accessible st' ∧ Fresh st' ∧ totalPages + 70 ≤ 2 * freeFrames st'.phys ∧
    (st'.frameOf st.currentProc).a0 = 2 ∧ (coord st').readable = false ∧
    Twosome st.currentProc b .ready (coord st') ∧ st'.nextPid = 3 ∧
    (∀ i, (coord st').pid i = if i = st.currentProc then 1 else if i = b then 2 else 0) ∧
    ∀ i, (coord st').parent i = if i = b then 1 else 0 := by
  have hset := reachable_settled (.boot st hboot)
  have hc := (booted hboot).2
  obtain ⟨hslot, hfree, haccess⟩ := small_fits hboot
  have htotal : totalPages = 32768 := by decide
  have hstate : ∀ i, (st.processTable i).state = if i = st.currentProc then .running else .unused :=
    congrFun (congrArg Coord.state hc)
  obtain ⟨b, st', hu, ht, haccess', hfresh, hfree', ha0, hc'⟩ :=
    fork_adds forkCall ⟨⟨0, []⟩, []⟩ hset
    rfl rfl hslot (by omega) haccess
  have hp : st.nextPid = 2 := congrArg Coord.nextPid hc
  have hne : b ≠ st.currentProc := by
    rintro rfl
    have hrun : (st.processTable st.currentProc).state = .running := hset.steady.running
    rw [hu] at hrun
    cases hrun
  rw [hp, hc] at hc'
  refine ⟨b, st', hu, ht, haccess', hfresh fun i hi => ?_, by omega, ?_, ?_,
    ⟨?_, hne, fun i => ?_⟩, ?_, fun i => ?_, fun i => ?_⟩
  · obtain rfl : i = st.currentProc := by
      by_contra hne
      exact hi ((hstate i).trans (if_neg hne))
    exact booted_files hboot
  · rw [ha0, hp]
    decide
  · rw [hc']
    rfl
  · rw [hc']
    rfl
  · rw [hc']
    by_cases hib : i = b
    · subst hib
      simp [Coord.setState, hne]
    · simp [Coord.setState, Coord.first, hib]
  · exact congrArg Coord.nextPid hc'
  · rw [hc']
    by_cases hib : i = b
    · subst hib
      simp [hne]
    · simp [Coord.first, hib]
  · rw [hc']
    by_cases hib : i = b
    · subst hib
      simp [Coord.first]
    · simp [Coord.first, hib]

theorem threesome_reachable : ∃ st a b c, Reachable smallLayout smallRam st ∧ Fresh st ∧
    Threesome a b c (coord st) := by
  obtain ⟨st0, hboot⟩ := boot_returns smallImage
  have hr0 : Reachable smallLayout smallRam st0 := .boot st0 hboot
  obtain ⟨b, st1, -, ht1, haccess1, hfresh1, hfree1, -, hread1, htwo, hp1, hpid1, hparent1⟩ :=
    first_forks hboot
  have hr1 : Reachable smallLayout smallRam st1 := hr0.step (.trap _ _ _ _ delivered_fork ht1)
  have hset1 := reachable_settled hr1
  generalize st0.currentProc = a at htwo hpid1
  have hba : b ≠ a := htwo.ne
  have hcur1 : st1.currentProc = a := htwo.current
  have hslot1 : freeSlot st1 ≠ none := by
    intro hnone
    obtain ⟨i, hi⟩ : ∃ i, i ∉ ({a, b} : Finset Slot) := by
      by_contra hall
      have hsub : (Finset.univ : Finset Slot) ⊆ {a, b} := by
        intro i _
        by_contra hi
        exact hall ⟨i, hi⟩
      have hcard := (Finset.card_le_card hsub).trans Finset.card_le_two
      simp at hcard
    obtain ⟨hia, hib⟩ : i ≠ a ∧ i ≠ b := by simpa using hi
    have hi := htwo.state i
    rw [if_neg hia, if_neg hib] at hi
    exact freeSlot_none.mp hnone i hi
  obtain ⟨c, st2, hu2, ht2, -, hfresh2, -, -, hc2⟩ := fork_adds forkCall ⟨⟨0, []⟩, []⟩ hset1
    rfl rfl hslot1 hfree1 haccess1
  have hr2 : Reachable smallLayout smallRam st2 := hr1.step (.trap _ _ _ _ delivered_fork ht2)
  have hu : (coord st1).state c = .unused := hu2
  rw [htwo.state] at hu
  have hca : c ≠ a := by
    rintro rfl
    simp at hu
  have hcb : c ≠ b := by
    rintro rfl
    simp [hba] at hu
  refine ⟨st2, a, b, c, hr2, hfresh2 hfresh1, ?_, ⟨hba, hca, hcb⟩, fun i => ?_, fun i => ?_,
    fun i => ?_, ?_, ?_⟩
  · rw [hc2]
    exact hcur1
  · rw [hc2]
    by_cases hic : i = c
    · subst hic
      simp [Coord.setState, hca]
    · simp [Coord.setState, hic, htwo.state]
  · rw [hc2, hp1]
    by_cases hic : i = c
    · subst hic
      simp [hca, hcb]
    · simp [hic, hpid1]
  · rw [hc2, hcur1]
    by_cases hic : i = c
    · subst hic
      simp [hpid1]
    · simp [hic, hparent1]
  · rw [hc2, hp1]
  · rw [hc2]
    exact hread1

/-- The first process forks, its child `b` exits on the next tick, and the first process waits
for it. -/
structure Reaping (st0 st1 st2 st3 st4 : KState) (b : Slot) : Prop where
  boots : kmain smallLayout smallRam = .ok st0
  forks : Step smallLayout st0 (.trap forkCall ⟨⟨0, []⟩, []⟩) st1
  ticks : Step smallLayout st1 (.trap tickTrap ⟨⟨0, []⟩, []⟩) st2
  exits : Step smallLayout st2 (.trap exitCall ⟨⟨0, []⟩, []⟩) st3
  waits : Step smallLayout st3 (.trap waitCall ⟨⟨0, []⟩, []⟩) st4
  unused : (st0.processTable b).state = .unused
  forked : Twosome st0.currentProc b .ready (coord st1)
  ticked : Twosome b st0.currentProc .ready (coord st2)
  exited : Twosome st0.currentProc b .zombie (coord st3)
  gone : (st4.processTable b).state = .unused
  /-- The pids from the fork to the wait. -/
  pid : ∀ st, st = st1 ∨ st = st2 ∨ st = st3 → st.nextPid = 3 ∧
    (∀ i, (coord st).pid i = if i = st0.currentProc then 1 else if i = b then 2 else 0) ∧
    ∀ i, (coord st).parent i = if i = b then 1 else 0
  /-- The fork and the wait answer the child's pid. -/
  forkAnswer : (st1.frameOf st0.currentProc).a0 = 2
  waitAnswer : (st4.frameOf st0.currentProc).sepc = 4 ∧ (st4.frameOf st0.currentProc).a0 = 2

theorem reaping_run : ∃ st0 st1 st2 st3 st4 b, Reaping st0 st1 st2 st3 st4 b := by
  obtain ⟨st0, hboot⟩ := boot_returns smallImage
  have hr0 : Reachable smallLayout smallRam st0 := .boot st0 hboot
  obtain ⟨b, st1, hu, ht1, -, -, -, ha0, -, htwo1, hnext1, hpid1, hparent1⟩ := first_forks hboot
  have hfork : Step smallLayout st0 (.trap forkCall ⟨⟨0, []⟩, []⟩) st1 :=
    .trap _ _ _ _ delivered_fork ht1
  have hr1 := hr0.step hfork
  have hcur1 : st1.currentProc = st0.currentProc := htwo1.current
  have hother1 : b ≠ st1.currentProc := by
    rw [hcur1]
    exact htwo1.ne
  -- a tick gives the child the processor
  obtain ⟨n1, st2, -, hready1, ht2, hc2⟩ := tick_step tickTrap ⟨⟨0, []⟩, []⟩
    (reachable_settled hr1) rfl hother1 htwo1.state_other
  obtain rfl : n1 = b := htwo1.other hready1 (by decide) (by decide)
  have htick : Step smallLayout st1 (.trap tickTrap ⟨⟨0, []⟩, []⟩) st2 :=
    .trap _ _ _ _ delivered_tick ht2
  have hr2 := hr1.step htick
  have htwo2 := htwo1.handed hc2
  -- it exits
  obtain ⟨n2, st3, hready2, ht3, hc3⟩ := exit_step exitCall ⟨⟨0, []⟩, []⟩ (reachable_settled hr2)
    rfl rfl (htwo2.awake (by decide)) ⟨_, htwo2.state_other⟩
  obtain rfl : st0.currentProc = n2 := (htwo2.other hready2 (by decide) (by decide)).symm
  have hexit : Step smallLayout st2 (.trap exitCall ⟨⟨0, []⟩, []⟩) st3 :=
    .trap _ _ _ _ delivered_exit ht3
  have htwo3 := htwo2.handed hc3
  have hcur3 : st3.currentProc = st0.currentProc := htwo3.current
  have hpids : ∀ st, st = st1 ∨ st = st2 ∨ st = st3 → st.nextPid = 3 ∧
      (∀ i, (coord st).pid i = if i = st0.currentProc then 1 else if i = n1 then 2 else 0) ∧
      ∀ i, (coord st).parent i = if i = n1 then 1 else 0 := by
    have hnext2 : st2.nextPid = st1.nextPid := congrArg Coord.nextPid hc2
    have hnext3 : st3.nextPid = st2.nextPid := congrArg Coord.nextPid hc3
    rintro st (rfl | rfl | rfl)
    · exact ⟨hnext1, hpid1, hparent1⟩
    · rw [hnext2, hc2]
      exact ⟨hnext1, hpid1, hparent1⟩
    · rw [hnext3, hnext2, hc3, hc2]
      exact ⟨hnext1, hpid1, hparent1⟩
  obtain ⟨-, hpid3, hparent3⟩ := hpids st3 (Or.inr (Or.inr rfl))
  -- and is waited for
  have hkid : (st3.processTable n1).parentPid = st3.current.pid := by
    show (coord st3).parent n1 = (coord st3).pid st3.currentProc
    rw [hcur3, hparent3, hpid3, if_pos rfl, if_pos rfl]
  obtain ⟨k, st4, hk, ht4, hsepc, hanswer, hc4⟩ := wait_step waitCall ⟨⟨0, []⟩, []⟩
    (reachable_settled (hr2.step hexit)) rfl rfl hkid htwo3.state_other
  obtain rfl : k = n1 := htwo3.other hk (by decide) (by decide)
  have hwait : Step smallLayout st3 (.trap waitCall ⟨⟨0, []⟩, []⟩) st4 :=
    .trap _ _ _ _ delivered_wait ht4
  have hdead : (st3.processTable k).pid = 2 := by
    show (coord st3).pid k = 2
    rw [hpid3, if_neg htwo3.ne, if_pos rfl]
  have hgone : (coord st4).state k = .unused := by
    rw [hc4]
    exact Function.update_self _ _ _
  rw [hcur3] at hsepc hanswer
  rw [hdead] at hanswer
  exact ⟨st0, st1, st2, st3, st4, k, hboot, hfork, htick, hexit, hwait, hu, htwo1, htwo2, htwo3,
    hgone, hpids, ha0, hsepc, hanswer⟩

/-- The first process `a` waits for its two children, of which `n` runs and `m` is ready. -/
structure ParentWaits (a n m : Slot) (k : Coord) : Prop where
  current : k.current = n
  waits : k.state a = .blocked
  running : k.state n = .running
  ready : k.state m = .ready
  chan : k.chan a = some (.pcb a)
  nextPid : k.nextPid = 4
  readable : k.readable = false

theorem parent_waits : ∃ st a n m, Reachable smallLayout smallRam st ∧
    (st.processTable n).openFiles = initProcessFds ∧ ParentWaits a n m (coord st) := by
  obtain ⟨st, a, b, c, hr, hfresh, hthree⟩ := threesome_reachable
  obtain ⟨hba, hca, hcb⟩ := hthree.ne
  have hset := reachable_settled hr
  have hcur : st.currentProc = a := hthree.current
  have hready : ∀ i, (coord st).state i = .ready ↔ i = b ∨ i = c := by
    intro i
    rw [hthree.state i]
    split_ifs with h1 h2
    · subst h1
      simp [hba.symm, hca.symm]
    · simp [h2]
    · simp [h2]
  have hnot : ∀ i, i = b ∨ i = c → i ≠ a := by
    rintro i (rfl | rfl)
    · exact hba
    · exact hca
  have hwaits := @wait_sleeps smallLayout st waitCall b hset rfl rfl
    (by rw [hcur, hthree.parent, hthree.pid, if_pos (Or.inl rfl), if_pos rfl])
    (by
      rw [(hready b).mpr (Or.inl rfl)]
      decide)
    (fun j hj => by
      rw [hthree.state] at hj
      split_ifs at hj)
  obtain ⟨n, st', hn, ht, hfiles, hc⟩ := sleep_step ⟨⟨0, []⟩, []⟩ hset hwaits
    ⟨b, (hready b).mpr (Or.inl rfl)⟩
  have hchild := (hready n).mp hn
  obtain ⟨m, hm, hmn⟩ : ∃ m, (m = b ∨ m = c) ∧ m ≠ n := by
    rcases hchild with rfl | rfl
    · exact ⟨c, Or.inr rfl, hcb⟩
    · exact ⟨b, Or.inl rfl, hcb.symm⟩
  have hna := hnot n hchild
  have hma := hnot m hm
  refine ⟨st', a, n, m, hr.step (.trap _ _ _ _ delivered_wait ht), ?_, ?_⟩
  · rw [hfiles]
    refine hfresh n ?_
    rw [hn]
    decide
  · rw [hc, hcur]
    refine ⟨rfl, ?_, ?_, ?_, ?_, hthree.nextPid, hthree.readable⟩
    · simp [Coord.setState, hna.symm]
    · simp [Coord.setState]
    · simp [Coord.setState, hmn, hma, (hready m).mpr hm]
    · simp

end Families

end Lazux

import Lazux.Coordination
import Lazux.Transitions

/-! # The kernel's state as processes see it

The part of the state that decides who runs, sleeps and waits, and what the operations do
to it. -/
namespace Lazux

open PagedMemory Run

def coord (st : KState) : Coord where
  pid i := (st.processTable i).pid
  parent i := (st.processTable i).parentPid
  state i := (st.processTable i).state
  chan i := (st.processTable i).chan
  nextPid := st.nextPid
  current := st.currentProc
  readable := decide (st.uart.rxCommit ≠ st.uart.rxTail)

theorem coord_eq {st : KState} {c : Coord}
    (hp : ∀ i, (st.processTable i).pid = c.pid i ∧ (st.processTable i).parentPid = c.parent i ∧
      (st.processTable i).state = c.state i ∧ (st.processTable i).chan = c.chan i)
    (hn : st.nextPid = c.nextPid) (hc : st.currentProc = c.current)
    (hr : decide (st.uart.rxCommit ≠ st.uart.rxTail) = c.readable) : coord st = c := by
  obtain ⟨pid, parent, state, chan, nextPid, current, readable⟩ := c
  simp only [coord, Coord.mk.injEq]
  exact ⟨funext fun i => (hp i).1, funext fun i => (hp i).2.1, funext fun i => (hp i).2.2.1,
    funext fun i => (hp i).2.2.2, hn, hc, hr⟩

theorem coord_wakeup (st : KState) (ch : Chan) : coord (wakeup st ch) = (coord st).wake ch := by
  refine coord_eq (fun i => ?_) rfl rfl rfl
  simp only [wakeup, Coord.wake]
  by_cases hb : (st.processTable i).state = .blocked ∧ (st.processTable i).chan = some ch
  · have hb' : (coord st).state i = .blocked ∧ (coord st).chan i = some ch := hb
    rw [if_pos hb, if_pos hb', if_pos hb']
    exact ⟨rfl, rfl, rfl, rfl⟩
  · have hb' : ¬ ((coord st).state i = .blocked ∧ (coord st).chan i = some ch) := hb
    rw [if_neg hb, if_neg hb', if_neg hb']
    exact ⟨rfl, rfl, rfl, rfl⟩

theorem coord_setState (st : KState) (i : Slot) {s : ProcState} {f : Process → Process}
    (hf : ∀ p, (f p).pid = p.pid ∧ (f p).parentPid = p.parentPid ∧ (f p).chan = p.chan)
    (hs : (f (st.processTable i)).state = s) :
    coord (st.modifyProc i f) = (coord st).setState i s := by
  refine coord_eq (fun j => ?_) rfl rfl rfl
  obtain ⟨h1, h2, h3⟩ := hf (st.processTable i)
  by_cases hj : j = i
  · subst j
    simp [Coord.setState, coord, h1, h2, h3, hs]
  · simp [Coord.setState, coord, hj, modifyProc_of_ne]

/-- The kernel works for the running process, on its table and its frame. -/
structure Steady (tf : Slot) (st : KState) : Prop where
  running : st.current.state = .running
  frame : tf = st.currentProc
  satp : st.satp = st.rootOf st.currentProc

/-- Nothing that matters for control changes. -/
structure Calm (st st' : KState) : Prop where
  coord : coord st' = coord st
  satp : st'.satp = st.satp
  table : ∀ i, (st'.processTable i).pageTable = (st.processTable i).pageTable

section Calm

variable {st st' st'' : KState} {tf : Slot}

theorem Calm.refl (st : KState) : Calm st st := ⟨rfl, rfl, fun _ => rfl⟩

theorem Calm.trans (h : Calm st st') (h' : Calm st' st'') : Calm st st'' :=
  ⟨h'.coord.trans h.coord, h'.satp.trans h.satp, fun i => (h'.table i).trans (h.table i)⟩

theorem Calm.currentProc (h : Calm st st') : st'.currentProc = st.currentProc :=
  congrArg Coord.current h.coord

theorem Calm.state (h : Calm st st') (i : Slot) :
    (st'.processTable i).state = (st.processTable i).state :=
  congrFun (congrArg Coord.state h.coord) i

theorem Steady.congr (hs : Steady tf st) (hc : st'.currentProc = st.currentProc)
    (hsatp : st'.satp = st.satp)
    (hstate : (st'.processTable st.currentProc).state = st.current.state)
    (htable : (st'.processTable st.currentProc).pageTable = st.current.pageTable) :
    Steady tf st' := by
  refine ⟨?_, hs.frame.trans hc.symm, ?_⟩
  · rw [KState.current, hc, hstate]
    exact hs.running
  · rw [hsatp, KState.rootOf, hc, htable]
    exact hs.satp

theorem Calm.steady (h : Calm st st') (hs : Steady tf st) : Steady tf st' :=
  hs.congr h.currentProc h.satp (h.state _) (h.table _)

theorem calm_modifyProc (st : KState) (i : Slot) {f : Process → Process}
    (hf : ∀ p, (f p).pid = p.pid ∧ (f p).parentPid = p.parentPid ∧ (f p).state = p.state ∧
      (f p).chan = p.chan ∧ (f p).pageTable = p.pageTable) : Calm st (st.modifyProc i f) := by
  have hp : ∀ j, (st.modifyProc i f).processTable j =
      if j = i then f (st.processTable i) else st.processTable j := by
    intro j
    by_cases hj : j = i
    · simp [hj]
    · simp [hj, modifyProc_of_ne]
  obtain ⟨h1, h2, h3, h4, h5⟩ := hf (st.processTable i)
  refine ⟨?_, rfl, fun j => ?_⟩
  · simp only [Lazux.coord, hp, Coord.mk.injEq]
    refine ⟨?_, ?_, ?_, ?_, rfl, rfl, rfl⟩ <;> funext j <;> by_cases hj : j = i
    all_goals simp [hj, h1, h2, h3, h4]
  · rw [hp]
    split_ifs with hj
    · rw [hj, h5]
    · rfl

theorem calm_setFrame (st : KState) (i : Slot) (f : TrapFrame → TrapFrame) :
    Calm st (st.setFrame i f) := calm_modifyProc st i fun _ => ⟨rfl, rfl, rfl, rfl, rfl⟩

theorem calm_setA0 (st : KState) (i : Slot) (w : Word) : Calm st (st.setA0 i w) :=
  calm_setFrame st i _

theorem calm_setFile (st : KState) (fd : Fin 16) (f : File) : Calm st (st.setFile fd f) :=
  calm_modifyProc st _ fun _ => ⟨rfl, rfl, rfl, rfl, rfl⟩

/-- Memory, console and saved status play no part. -/
theorem calm_fields (st : KState) (phys : Phys) (sstatus : Word) (sscratch : Slot)
    (console : List Byte) :
    Calm st
      { st with phys := phys, sstatus := sstatus, sscratch := sscratch, console := console } :=
  ⟨rfl, rfl, fun _ => rfl⟩

theorem answer_result {st st' : KState} {tf tf' : Slot} {w : Word}
    (h : st.answer tf w = .ok (tf', st')) : tf' = tf ∧ st' = st.setA0 tf w := by
  cases h
  exact ⟨rfl, rfl⟩

end Calm

section Devices

variable {st st' : KState}

theorem uartReceive_quiet {u : Uart} {b : Byte} (h : (uartReceive u b).wake = false) :
    (uartReceive u b).uart.rxCommit = u.rxCommit ∧ (uartReceive u b).uart.rxTail = u.rxTail := by
  unfold uartReceive at h ⊢
  generalize (if b = carriageReturn then newline else b) = c at h ⊢
  rcases hs : u.escState with _ | _ | _
  · simp only [hs] at h ⊢
    split_ifs at h ⊢ <;> exact ⟨rfl, rfl⟩
  · exact ⟨rfl, rfl⟩
  · dsimp only
    split_ifs <;> exact ⟨rfl, rfl⟩

theorem run_uartByte (st : KState) (b : Byte) :
    Coord.Run (coord st) (coord (uartByte st b)) := by
  unfold uartByte
  dsimp only
  by_cases hw : (uartReceive st.uart b).wake = true
  · rw [if_pos hw, coord_wakeup]
    exact .single (Coord.Step.commit (coord st) _)
  · obtain ⟨hc, ht⟩ := uartReceive_quiet (by simpa using hw)
    rw [if_neg hw]
    simp only [coord, hc, ht]
    exact .refl

theorem steady_plicDispatch {tf : Slot} (h : PlicDispatch st st') (hs : Steady tf st) :
    Steady tf st' := by
  cases h with
  | nothing => exact hs
  | served bytes console =>
    have hw := onlyWakes_bytes bytes st
    have hrun : ∀ (bs : List Byte) (s : KState), (s.processTable st.currentProc).state = .running →
        ((bs.foldl uartByte s).processTable st.currentProc).state = .running := by
      intro bs
      induction bs with
      | nil => exact fun s h => h
      | cons b bs ih =>
        intro s h
        refine ih _ ?_
        unfold uartByte
        dsimp only
        split_ifs
        · simp [wakeup, h]
        · exact h
    obtain ⟨s, c, hp⟩ := hw.process st.currentProc
    refine ⟨?_, hs.frame.trans hw.currentProc.symm, ?_⟩
    · show ((bytes.foldl uartByte st).processTable (bytes.foldl uartByte st).currentProc).state = _
      rw [hw.currentProc]
      exact hrun bytes st hs.running
    · show (bytes.foldl uartByte st).satp =
        ((bytes.foldl uartByte st).processTable
          (bytes.foldl uartByte st).currentProc).pageTable.getD 0
      rw [hw.satp, hw.currentProc, hp]
      exact hs.satp

end Devices

section Switch

variable {st st' : KState} {tf tf' : Slot} {idle : List Wakeup} {ch : Chan}

def parentOf (st : KState) : Option Slot :=
  (List.finRange 64).find? fun i =>
    (st.processTable i).pid = st.current.parentPid ∧ (st.processTable i).state ≠ .unused

/-- The current process is a zombie and its parent awake. -/
def exiting (st : KState) : KState :=
  let st := st.modifyProc st.currentProc fun p => { p with state := .zombie }
  match parentOf st with
  | some i => wakeup st (.pcb i)
  | none => st

/-- The current process sleeps, about to repeat its system call. -/
def sleeping (st : KState) (ch : Chan) : KState :=
  (sleepOn st ch).setFrame st.currentProc fun f => { f with sepc := f.sepc - 4 }

theorem parked_not_running (tf : Slot) (st : KState) :
    ((parked tf st).processTable st.currentProc).state ≠ .running := by
  simp only [parked, modifyProc_self]
  split_ifs with hs
  · decide
  · exact hs

theorem steady_schedule : Ensures (schedule idle tf st) fun r => Steady r.1 r.2 := by
  rintro ⟨tf', st'⟩ h
  obtain ⟨mid, -, -, rfl⟩ := schedule_result h
  refine ⟨?_, rfl, ?_⟩
  · simp [KState.current, dispatched, KState.modifyProc]
  · simp [dispatched, KState.rootOf, KState.modifyProc]

theorem coord_dispatched (st : KState) (next : Slot) : coord (dispatched next st) =
    { (coord st).setState next .running with current := next } := by
  refine coord_eq (fun i => ?_) rfl rfl rfl
  by_cases hi : i = next
  · subst i
    simp [dispatched, coord, Coord.setState]
  · simp [dispatched, coord, Coord.setState, hi, modifyProc_of_ne]

theorem coord_sleeping (st : KState) (ch : Chan) : coord (sleeping st ch) =
    { (coord st).setState st.currentProc .blocked with
      chan := Function.update (coord st).chan st.currentProc (some ch) } := by
  rw [sleeping, (calm_setFrame _ _ _).coord]
  refine coord_eq (fun i => ?_) rfl rfl rfl
  by_cases hi : i = st.currentProc
  · subst i
    simp [sleepOn, coord, Coord.setState]
  · simp [sleepOn, coord, Coord.setState, hi, modifyProc_of_ne]

theorem run_exiting (hs : Steady tf st) : Coord.Run (coord st) (coord (exiting st)) := by
  have hcz : coord (st.modifyProc st.currentProc fun p => { p with state := .zombie }) =
      (coord st).setState (coord st).current .zombie :=
    coord_setState st _ (fun _ => ⟨rfl, rfl, rfl⟩) rfl
  have hstep := Coord.Step.exit (coord st) hs.running
  rw [← hcz] at hstep
  have hf : (coord (st.modifyProc st.currentProc fun p => { p with state := .zombie })).parentSlot =
      parentOf (st.modifyProc st.currentProc fun p => { p with state := .zombie }) := rfl
  rw [hf] at hstep
  unfold exiting
  dsimp only
  split
  · rename_i i hi
    rw [hi] at hstep
    rw [coord_wakeup]
    exact .single hstep
  · rename_i hi
    rw [hi] at hstep
    exact .single hstep

end Switch

section Calls

variable {st st' mid : KState} {tf : Slot} {L : Layout} {input : Input}

/-- A failed creation uses up a pid at most. -/
theorem coord_allocProc_none (h : AllocProc L st none st') : coord st' = coord st ∨
    ∃ i, (st.processTable i).state = .unused ∧ coord st' = { coord st with
      pid := Function.update (coord st).pid i (BitVec.ofNat 32 st.nextPid)
      nextPid := st.nextPid + 1 } := by
  cases h with
  | full hu => exact Or.inl rfl
  | noRoot i hu ha =>
    refine Or.inr ⟨i, hu, coord_eq (fun j => ?_) rfl rfl rfl⟩
    by_cases hj : j = i
    · subst j; simp [coord, hu]
    · simp [coord, hj, modifyProc_of_ne]
  | noStack i hu root p1 p2 ha hk hs =>
    refine Or.inr ⟨i, hu, coord_eq (fun j => ?_) rfl rfl rfl⟩
    by_cases hj : j = i
    · subst j; simp [coord, hu]
    · simp [coord, hj, modifyProc_of_ne]

theorem run_allocProc_none (h : AllocProc L st none st') : Coord.Run (coord st) (coord st') := by
  rcases coord_allocProc_none h with he | ⟨i, hu, he⟩
  · rw [he]
  · rw [he]
    exact .single (Coord.Step.spawnFail (coord st) i hu)

/-- A failed creation leaves the running process alone. -/
theorem steady_allocProc_none (h : AllocProc L st none st') (hs : Steady tf st) :
    Steady tf st' := by
  have hother : st'.currentProc = st.currentProc ∧ st'.satp = st.satp ∧
      st'.processTable st.currentProc = st.processTable st.currentProc := by
    have hne : ∀ i, (st.processTable i).state = .unused → st.currentProc ≠ i := by
      rintro i hu rfl
      have := hs.running
      rw [KState.current, hu] at this
      cases this
    cases h with
    | full hu => exact ⟨rfl, rfl, rfl⟩
    | noRoot i hu ha => exact ⟨rfl, rfl, modifyProc_of_ne _ (hne i hu) _⟩
    | noStack i hu root p1 p2 ha hk hb => exact ⟨rfl, rfl, modifyProc_of_ne _ (hne i hu) _⟩
  obtain ⟨hc, hsatp, hp⟩ := hother
  exact hs.congr hc hsatp (congrArg Process.state hp) (congrArg Process.pageTable hp)

/-- The child of the running process, once its memory is copied to `phys`. -/
def forked (st mid : KState) (child : Slot) (phys : Phys) : KState :=
  ({ mid with phys := phys }.setA0 st.currentProc
    ((mid.processTable child).pid.signExtend 64)).modifyProc child
      (inherit st.current (st.frameOf st.currentProc))

theorem coord_forked {child : Slot} (phys : Phys) (ha : AllocProc L st (some child) mid)
    (hne : child ≠ st.currentProc) : coord (forked st mid child phys) =
      { (coord st).setState child .ready with
        pid := Function.update (coord st).pid child (BitVec.ofNat 32 st.nextPid)
        parent := Function.update (coord st).parent child ((coord st).pid st.currentProc)
        nextPid := st.nextPid + 1 } := by
  cases ha with
  | created _ hu root stack p1 p2 p3 ha hk hb =>
    refine coord_eq (fun j => ?_) rfl rfl rfl
    by_cases hj : j = child
    · subst j
      simp [forked, coord, Coord.setState, inherit, KState.setA0, KState.setFrame, hne,
        modifyProc_of_ne, KState.current]
    · by_cases hj' : j = st.currentProc
      · subst j
        simp [forked, coord, Coord.setState, KState.setA0, KState.setFrame, hj, modifyProc_of_ne]
      · simp [forked, coord, Coord.setState, KState.setA0, KState.setFrame, hj, hj',
          modifyProc_of_ne]

theorem steady_forked {child : Slot} {phys : Phys} (hs : Steady tf st)
    (ha : AllocProc L st (some child) mid) (hne : child ≠ st.currentProc) :
    Steady tf (forked st mid child phys) := by
  obtain ⟨-, hcur, hother⟩ := ha.of_some
  have hsatp : mid.satp = st.satp := by cases ha; rfl
  refine hs.congr hcur hsatp ?_ ?_
  · rw [forked, modifyProc_of_ne _ hne.symm]
    simp [KState.setA0, KState.setFrame, hother _ hne.symm, KState.current]
  · rw [forked, modifyProc_of_ne _ hne.symm]
    simp [KState.setA0, KState.setFrame, hother _ hne.symm, KState.current]

theorem ExecCall.control (hs : Steady tf st) (h : ExecCall L tf st st') :
    coord st' = coord st ∧ Steady tf st' := by
  cases h with
  | badName hn => exact ⟨(calm_setA0 st tf _).coord, (calm_setA0 st tf _).steady hs⟩
  | noEntry hn he => exact ⟨(calm_setA0 st tf _).coord, (calm_setA0 st tf _).steady hs⟩
  | replaced entry newPt p1 p2 mid hn he ha hk hl =>
    obtain ⟨phoff, phnum, start, page, maxEnd, q1, q2, hl⟩ := loadElf_true hl
    rw [hl.result]
    refine ⟨coord_eq (fun j => ?_) rfl rfl rfl, ?_, hs.frame, ?_⟩
    · by_cases hj : j = st.currentProc
      · subst j
        simp [coord, KState.modifyProc]
      · simp [coord, KState.modifyProc, hj]
    · simpa [KState.current, KState.modifyProc] using hs.running
    · simp [KState.rootOf, KState.modifyProc]

theorem coord_freeProc {i : Slot} (hz : (st.processTable i).state = .zombie) :
    coord (freeProc st i) = { (coord st).setState i .unused with
      pid := Function.update (coord st).pid i 0
      parent := Function.update (coord st).parent i 0
      chan := Function.update (coord st).chan i none } := by
  unfold freeProc
  rw [if_neg (by rw [hz]; decide)]
  refine coord_eq (fun j => ?_) rfl rfl rfl
  by_cases hj : j = i
  · subst j; simp [coord, Coord.setState]
  · simp [coord, Coord.setState, hj, modifyProc_of_ne]

theorem freeProc_of_ne {i j : Slot} (h : j ≠ i) :
    (freeProc st i).processTable j = st.processTable j := by
  unfold freeProc
  dsimp only
  split_ifs
  · rfl
  · exact modifyProc_of_ne _ h _

theorem freeProc_gone {i : Slot} (hu : (st.processTable i).state ≠ .unused) :
    ((freeProc st i).processTable i).state = .unused := by
  unfold freeProc
  dsimp only
  rw [if_neg hu, modifyProc_self]

theorem freeProc_fields (st : KState) (i : Slot) :
    (freeProc st i).currentProc = st.currentProc ∧ (freeProc st i).satp = st.satp := by
  unfold freeProc
  dsimp only
  split_ifs <;> exact ⟨rfl, rfl⟩

theorem zombieKid_some {i : Slot} (h : zombieKid st = some i) :
    (st.processTable i).parentPid = st.current.pid ∧ (st.processTable i).state = .zombie := by
  simpa using List.find?_some h

theorem calm_consoleWrite (buffer : Addr) (more n : ℕ) (st : KState) :
    Ensures (consoleWrite buffer more n st) (Calm st) := by
  induction more generalizing n st with
  | zero => exact ensures_ok.mpr (.refl st)
  | succ more ih =>
    refine Ensures.of_bind fun b _ => ?_
    exact (ih (n + 1) (st.putchar b)).mono fun st'' h =>
      (calm_fields st st.phys st.sstatus st.sscratch _).trans h

theorem calm_puts (st : KState) (s : String) : Calm st (st.puts s) := ⟨rfl, rfl, fun _ => rfl⟩

theorem calm_puthex (st : KState) (x : Word) : Calm st (st.puthex x) := ⟨rfl, rfl, fun _ => rfl⟩

theorem calm_reportFault (st : KState) (headline : String) (f : TrapFrame) :
    Calm st (reportFault st headline f) := by
  have line : ∀ (st : KState) (s : String) (x : Word), Calm st ((st.puts s).puthex x) :=
    fun st s x => (calm_puts st s).trans (calm_puthex _ x)
  unfold reportFault
  exact ((((calm_puts st headline).trans (line _ _ _)).trans (line _ _ _)).trans
    (line _ _ _)).trans (calm_puts _ _)

theorem calm_saveFrame (regs : TrapFrame) (st : KState) : Calm st (saveFrame regs st) :=
  (calm_fields st st.phys (trapStatus st.sstatus) st.sscratch st.console).trans
    (calm_setFrame _ _ _)

end Calls

section Boot

variable {L : Layout} {ram : Memory} {st : KState}

theorem booted (h : kmain L ram = .ok st) :
    Steady st.sscratch st ∧ coord st = Coord.first st.currentProc := by
  obtain ⟨rootPt, p1, p2, c, ha, hk, hstart⟩ := kmain_result h
  cases hstart with
  | started i mid fin entry console hp he hl =>
    obtain ⟨phoff, phnum, start, page, maxEnd, q1, q2, hl⟩ := loadElf_true hl
    cases hp with
    | created _ hu root stack r1 r2 r3 ha' hk' hs' =>
    rw [hl.result]
    refine ⟨⟨?_, rfl, ?_⟩, coord_eq (fun j => ?_) rfl rfl rfl⟩
    · simp [KState.current, KState.modifyProc]
    · simp [KState.rootOf, KState.modifyProc]
    · by_cases hj : j = i
      · subst j
        simp [KState.modifyProc, Coord.first, early, Process.zero]
      · simp [KState.modifyProc, Coord.first, early, Process.zero, hj]

end Boot

end Lazux

import Lazux.Progress

/-! # Nobody waits in a circle

When the kernel idles, a process waits for the terminal: a chain of parents that wait for
their children ends, since children have larger pids. -/
namespace Lazux

open PagedMemory RadixForest Run Trace

namespace Coord

/-- Parents were there before their children. -/
def Older (c : Coord) : Prop :=
  ∀ i, c.state i ≠ .unused → (c.parent i).toNat < (c.pid i).toNat

variable {c c' : Coord}

theorem older_first (i : Slot) : Older (first i) := by
  intro j hj
  by_cases hji : j = i
  · simp [first, hji]
  · simp [first, hji] at hj

theorem Older.same (h : Older c) (hu : ∀ i, c'.state i ≠ .unused → c.state i ≠ .unused ∧
    c'.parent i = c.parent i ∧ c'.pid i = c.pid i) : Older c' := by
  intro i hi
  obtain ⟨hi', hp, hk⟩ := hu i hi
  rw [hp, hk]
  exact h i hi'

theorem Older.wake (h : Older c) (ch : Chan) : Older (c.wake ch) := by
  apply h.same
  intro i hi
  exact ⟨fun hu => hi (wake_unused.mpr hu), rfl, rfl⟩

theorem Older.setState (h : Older c) {i : Slot} {s : ProcState} (hu : c.state i ≠ .unused) :
    Older (c.setState i s) := by
  apply h.same
  intro j hj
  refine ⟨?_, rfl, rfl⟩
  by_cases hji : j = i
  · rw [hji]
    exact hu
  · simpa [Coord.setState, hji] using hj

theorem step_preserves_older (hs : Step c c') (hlim : c'.nextPid ≤ 2 ^ 31) (hinv : Invariant c)
    (h : Older c) : Older c' := by
  cases hs with
  | commit b => exact h.wake .uartRx
  | consume b hr => exact h
  | sleep ch hr hp => exact h.setState (by rw [hr]; decide)
  | exit hr =>
    have hz : Older (c.setState c.current .zombie) := h.setState (by rw [hr]; decide)
    split
    · exact hz.wake _
    · exact hz
  | yield hr => exact h.setState (by rw [hr]; decide)
  | dispatch i hc hr => exact h.setState (by rw [hr]; decide)
  | spawn i hr hu =>
    intro j hj
    by_cases hji : j = i
    · subst hji
      have hlt : (c.pid c.current).toNat < c.nextPid := hinv.pid_lt _ (by rw [hr]; decide)
      have hlim' : c.nextPid + 1 ≤ 2 ^ 31 := hlim
      simp only [Function.update_self, BitVec.toNat_ofNat]
      omega
    · have hj' : c.state j ≠ .unused := by simpa [Coord.setState, hji] using hj
      simpa [Coord.setState, hji] using h j hj'
  | spawnFail i hu =>
    apply h.same
    intro j hj
    refine ⟨hj, rfl, ?_⟩
    apply Function.update_of_ne
    rintro rfl
    exact hj hu
  | reap i hr hz hk =>
    apply h.same
    intro j hj
    have hji : j ≠ i := by
      rintro rfl
      simp [Coord.setState] at hj
    refine ⟨?_, Function.update_of_ne hji _ _, Function.update_of_ne hji _ _⟩
    simpa [Coord.setState, hji] using hj

theorem run_preserves_older (hr : Run c c') (hlim : c'.nextPid ≤ 2 ^ 31) (hinv : Invariant c)
    (h : Older c) : Older c' := by
  induction hr with
  | refl => exact h
  | tail hrun hs ih =>
    have hlim' := hs.nextPid_le.trans hlim
    exact step_preserves_older hs hlim (run_preserves_invariant hrun hlim' hinv) (ih hlim')

/-- The youngest of the processes asleep waits for no child. -/
theorem someone_listens (hinv : Invariant c) (h : Older c) (hr : ∀ i, c.state i ≠ .ready)
    (hc : c.state c.current ≠ .running) {i : Slot} (hb : c.state i = .blocked) :
    ∃ j, c.state j = .blocked ∧ c.chan j = some .uartRx := by
  have hne : (Finset.univ.filter fun j => c.state j = .blocked).Nonempty := ⟨i, by simpa using hb⟩
  obtain ⟨k, hk, hmax⟩ := Finset.exists_max_image _ (fun j => (c.pid j).toNat) hne
  have hk : c.state k = .blocked := by simpa using hk
  refine ⟨k, hk, ?_⟩
  cases hch : c.chan k with
  | none => exact absurd hch ((hinv.chan_iff k).mpr hk)
  | some ch =>
    cases ch with
    | uartRx => rfl
    | pcb p =>
      have hp := hinv.own k p hch
      subst hp
      obtain ⟨j, hu, hpar⟩ := hinv.child p hch
      have hblocked : c.state j = .blocked := by
        cases hj : c.state j with
        | unused => exact absurd hj hu
        | ready => exact absurd hj (hr j)
        | running =>
          rw [hinv.running j hj] at hj
          exact absurd hj hc
        | blocked => rfl
        | zombie => exact absurd hpar (hinv.no_zombie p hch j hj)
      have hle := hmax j (by simpa using hblocked)
      have hlt := h j hu
      rw [hpar] at hlt
      omega

end Coord

variable {L : Layout} {ram : Memory} {st st' s : KState} {tf : Slot} {regs : TrapFrame}
  {idle : List Wakeup} {dev : Device}

section Idling

/-- The loop of `schedule` calls `idle_service` in the last state: nobody is ready, the current
process cannot run and somebody is blocked. -/
inductive AwaitIdles (start : Slot) : List Wakeup → KState → KState → Prop where
  | now {ws st} (hf : findReady st start = none)
      (hc : ¬ (st.current.state = .ready ∨ st.current.state = .running))
      (hb : anyBlocked st = true) : AwaitIdles start ws st st
  | later {w ws st st' s} (hf : findReady st start = none)
      (hc : ¬ (st.current.state = .ready ∨ st.current.state = .running))
      (hb : anyBlocked st = true) (hw : idleService w st = .ok st')
      (h : AwaitIdles start ws st' s) : AwaitIdles start (w :: ws) st s

/-- What `schedule` does before its loop. -/
def ScheduleIdles (idle : List Wakeup) (tf : Slot) (st s : KState) : Prop :=
  AwaitIdles st.currentProc idle (parked tf st) s

inductive Schedules (tf : Slot) (st : KState) : KState → Prop where
  | tick (h : (st.frameOf tf).scause.msb = true)
      (h5 : (st.frameOf tf).scause &&& 0x7FFFFFFFFFFFFFFF = 5) : Schedules tf st st
  | fault (h : (st.frameOf tf).scause.msb = false) (h8 : (st.frameOf tf).scause ≠ 8) :
      Schedules tf st (exiting (reportFault st "\n[TRAP] U-mode fault (kill)\n" (st.frameOf tf)))
  | exit (h8 : (st.frameOf tf).scause = 8) (h7 : ((entered st).frameOf tf).a7 = sysExit) :
      Schedules tf st (exiting (entered st))
  | wait (h8 : (st.frameOf tf).scause = 8) (h7 : ((entered st).frameOf tf).a7 = sysWait)
      (hz : zombieKid (entered st) = none) (hk : hasKids (entered st) = true) :
      Schedules tf st (sleeping (entered st) (.pcb st.currentProc))
  | read (h8 : (st.frameOf tf).scause = 8) (h7 : ((entered st).frameOf tf).a7 = sysRead)
      (hb : BufferOk (entered st)) (fd : Fin 16) (hfd : ReadsFrom (entered st) fd .console)
      (hs : (entered st).readSize ≠ 0) (he : (uartGetc st.uart).1 = none) :
      Schedules tf st (sleeping (entered st) .uartRx)

theorem AwaitIdles.idles {start : Slot} (h : AwaitIdles start idle st s) : Idles st s := by
  induction h with
  | now hf hc hb => exact .refl
  | later hf hc hb hw h ih => exact (idleService_result hw).trans ih

theorem AwaitIdles.stuck {start : Slot} (h : AwaitIdles start idle st s) :
    (∀ i, (s.processTable i).state ≠ .ready) ∧ s.current.state ≠ .running ∧
      ∃ i, (s.processTable i).state = .blocked := by
  induction h with
  | now hf hc hb =>
    refine ⟨findReady_none hf, fun hr => hc (Or.inr hr), ?_⟩
    simpa [anyBlocked, List.any_eq_true] using hb
  | later hf hc hb hw h ih => exact ih

/-- Either `f` sleeps in `st'` whatever wakeups come, or they play no part in it. -/
def SleepsIn (f : List Wakeup → Outcome) (tf : Slot) (st' : KState) : Prop :=
  ∀ idle, f idle = schedule idle tf st'

def IdleFree (f : List Wakeup → Outcome) : Prop := ∀ idle idle', f idle = f idle'

theorem sysWaitCall_sleeps (st : KState) (dev : Device) :
    (zombieKid st = none ∧ hasKids st = true ∧
      SleepsIn (fun idle => sysWaitCall ⟨dev, idle⟩ st.currentProc st) st.currentProc
        (sleeping st (.pcb st.currentProc))) ∨
    IdleFree fun idle => sysWaitCall ⟨dev, idle⟩ st.currentProc st := by
  unfold sysWaitCall
  cases hz : zombieKid st with
  | some i => exact Or.inr fun _ _ => rfl
  | none =>
    cases hk : hasKids st with
    | false => exact Or.inr fun _ _ => rfl
    | true => exact Or.inl ⟨rfl, rfl, fun _ => rfl⟩

theorem sysReadCall_sleeps (st : KState) (dev : Device) :
    (BufferOk st ∧ (∃ fd, ReadsFrom st fd .console) ∧ st.readSize ≠ 0 ∧
      (uartGetc st.uart).1 = none ∧
      SleepsIn (fun idle => sysReadCall ⟨dev, idle⟩ st.currentProc st) st.currentProc
        (sleeping st .uartRx)) ∨
    IdleFree fun idle => sysReadCall ⟨dev, idle⟩ st.currentProc st := by
  by_cases hb : BufferOk st
  swap
  · right
    intro _ _
    have hbad : userRangeOk st.phys.mem (st.rootOf st.currentProc) (st.frameOf st.currentProc).a1
        (((st.frameOf st.currentProc).a2.setWidth 32).setWidth 64) pteW = false := by
      simpa [BufferOk] using hb
    simp [sysReadCall, hbad]
  have hok : userRangeOk st.phys.mem (st.rootOf st.currentProc) (st.frameOf st.currentProc).a1
      (((st.frameOf st.currentProc).a2.setWidth 32).setWidth 64) pteW = true := hb
  unfold sysReadCall
  dsimp only
  rw [hok]
  simp only [Bool.not_true, Bool.false_eq_true, if_false]
  cases hfd : fdOf (st.frameOf st.currentProc).a0 with
  | none => exact Or.inr fun _ _ => rfl
  | some fd =>
    cases htype : (st.current.openFiles fd).type with
    | none => exact Or.inr fun _ _ => by simp only [htype]
    | ramdisk => exact Or.inr fun _ _ => by simp only [htype]
    | console =>
      simp only [htype]
      by_cases hs : (st.frameOf st.currentProc).a2.setWidth 32 = 0
      · exact Or.inr fun _ _ => by simp only [if_pos hs]
      · cases hg : uartGetc st.uart with
        | mk c u =>
          cases c with
          | none =>
            refine Or.inl ⟨hb, ⟨fd, hfd, htype⟩, hs, rfl, fun idle => ?_⟩
            simp only [if_neg hs]
            rfl
          | some c => exact Or.inr fun _ _ => rfl

/-- Those are all: a trap calls `schedule` in such a state, or no wakeup plays a part in it. -/
theorem trapHandler_schedules (L : Layout) (dev : Device) (hf : tf = st.currentProc)
    (hu : fromSupervisor (st.frameOf tf) = false) :
    (∃ st', Schedules tf st st' ∧
      SleepsIn (fun idle => trapHandler L ⟨dev, idle⟩ tf st) tf st') ∨
    IdleFree fun idle => trapHandler L ⟨dev, idle⟩ tf st := by
  subst hf
  by_cases hm : (st.frameOf st.currentProc).scause.msb = true
  · by_cases h5 : (st.frameOf st.currentProc).scause &&& 0x7FFFFFFFFFFFFFFF = 5
    · refine Or.inl ⟨st, .tick hm h5, fun idle => ?_⟩
      unfold trapHandler
      dsimp only
      rw [if_pos hm, if_pos h5]
    · refine Or.inr fun idle idle' => ?_
      unfold trapHandler
      dsimp only
      rw [if_pos hm, if_pos hm, if_neg h5, if_neg h5]
  have hm' : (st.frameOf st.currentProc).scause.msb = false := by simpa using hm
  by_cases h8 : (st.frameOf st.currentProc).scause = 8
  swap
  · refine Or.inl ⟨_, .fault hm' h8, fun idle => ?_⟩
    unfold trapHandler
    dsimp only
    rw [if_neg hm, if_neg (by rw [hu]; decide), if_neg h8, exitCurrent_eq]
  have hcall : ∀ idle, trapHandler L ⟨dev, idle⟩ st.currentProc st =
      syscall L ⟨dev, idle⟩ st.currentProc (entered st) := by
    intro idle
    unfold trapHandler
    dsimp only
    rw [if_neg hm, if_neg (by rw [hu]; decide), if_pos h8]
    rfl
  simp only [SleepsIn, IdleFree, hcall]
  by_cases hexit : ((entered st).frameOf st.currentProc).a7 = sysExit
  · refine Or.inl ⟨_, .exit h8 hexit, fun idle => ?_⟩
    rw [syscall, hexit, if_neg (by decide), if_pos rfl, exitCurrent_eq]
  by_cases hwait : ((entered st).frameOf st.currentProc).a7 = sysWait
  · have hsys : ∀ idle, syscall L ⟨dev, idle⟩ st.currentProc (entered st) =
        sysWaitCall ⟨dev, idle⟩ st.currentProc (entered st) := by
      intro idle
      rw [syscall, hwait, if_neg (by decide), if_neg (by decide), if_neg (by decide),
        if_neg (by decide), if_pos rfl]
    simp only [hsys]
    rcases sysWaitCall_sleeps (entered st) dev with ⟨hz, hk, hs⟩ | hfree
    · exact Or.inl ⟨_, .wait h8 hwait hz hk, hs⟩
    · exact Or.inr hfree
  by_cases hread : ((entered st).frameOf st.currentProc).a7 = sysRead
  · have hsys : ∀ idle, syscall L ⟨dev, idle⟩ st.currentProc (entered st) =
        sysReadCall ⟨dev, idle⟩ st.currentProc (entered st) := by
      intro idle
      rw [syscall, hread, if_neg (by decide), if_neg (by decide), if_neg (by decide),
        if_neg (by decide), if_neg (by decide), if_neg (by decide), if_neg (by decide), if_pos rfl]
    simp only [hsys]
    rcases sysReadCall_sleeps (entered st) dev with ⟨hb, ⟨fd, hfd⟩, hs, he, hsleep⟩ | hfree
    · exact Or.inl ⟨_, .read h8 hread hb fd hfd hs he, hsleep⟩
    · exact Or.inr hfree
  · refine Or.inr fun idle idle' => ?_
    unfold syscall
    dsimp only
    simp only [if_neg hexit, if_neg hwait, if_neg hread]

end Idling

section Results

theorem Schedules.acts (hst : Steady tf st) (h : Schedules tf st st') :
    ∃ ls, Acts L st ls (parked tf st') := by
  have hframe := hst.frame
  subst hframe
  -- a process that has given up the processor is parked as it is
  have away : ∀ {ls s} , Acts L st ls s → s.current.state ≠ .running →
      ∃ ls, Acts L st ls (parked st.currentProc s) := by
    intro ls s hacts hr
    exact ⟨_, hacts.trans (acts_parked hacts.currentProc.symm (Or.inr hr))⟩
  have asleep : ∀ {s : KState} (ch : Chan), (sleeping s ch).current.state ≠ .running := by
    intro s ch
    simp [sleeping, sleepOn, KState.current, KState.setFrame, KState.modifyProc]
  have hentered := acts_entered (L := L) hst
  have hst' : Steady (entered st).currentProc (entered st) := (calm_entered st).steady hst
  cases h with
  | tick h h5 => exact ⟨_, acts_parked rfl (Or.inl hst)⟩
  | fault h h8 =>
    have hacts := (acts_reportFault (L := L) st "\n[TRAP] U-mode fault (kill)\n"
      (st.frameOf st.currentProc)).1
    have hs := (calm_reportFault st "\n[TRAP] U-mode fault (kill)\n"
      (st.frameOf st.currentProc)).steady hst
    generalize reportFault st "\n[TRAP] U-mode fault (kill)\n" (st.frameOf st.currentProc) = s
      at hacts hs ⊢
    rw [← hacts.currentProc] at hs
    apply away (hacts.tail (.exit hs))
    rw [(exiting_fields _).2]
    decide
  | exit h8 h7 =>
    apply away (hentered.tail (.exit hst'))
    rw [(exiting_fields _).2]
    decide
  | wait h8 h7 hz hk => exact away (hentered.tail (.sleep hst' _ (pending_wait hz hk))) (asleep _)
  | read h8 h7 hb fd hfd hs he =>
    exact away (hentered.tail (.sleep hst' _ (pending_read he))) (asleep _)

/-- Whenever the kernel idles, some process waits for the terminal. -/
theorem idle_has_listener (h : Reachable L ram st)
    (hcall : Schedules st.sscratch (saveFrame regs st) st')
    (hidle : ScheduleIdles idle st.sscratch st' s) (hlim : s.nextPid ≤ 2 ^ 31) :
    ∃ i, (s.processTable i).state = .blocked ∧ (s.processTable i).chan = some .uartRx := by
  have hset := reachable_settled h
  have hst := (calm_saveFrame regs st).steady hset.steady
  obtain ⟨i, hrun⟩ := hset.run
  rw [← (calm_saveFrame regs st).coord] at hrun
  obtain ⟨ls, hacts⟩ := hcall.acts (L := L) hst
  obtain ⟨ms, hwait, -⟩ := acts_idles (L := L) hidle.idles
  have hall : Coord.Run (Coord.first i) (coord s) := (hrun.trans hacts.run).trans hwait.run
  have hinv := Coord.run_preserves_invariant hall hlim (Coord.invariant_first i)
  have hold := Coord.run_preserves_older hall hlim (Coord.invariant_first i) (Coord.older_first i)
  obtain ⟨hready, hcur, j, hb⟩ := hidle.stuck
  exact Coord.someone_listens hinv hold hready hcur hb

/-- A process that goes to sleep alone leaves the kernel idle. -/
theorem alone_idles {ch : Chan}
    (honly : ∀ i, i ≠ st.currentProc → (st.processTable i).state ≠ .ready) :
    ScheduleIdles idle tf (sleeping st ch) (parked tf (sleeping st ch)) := by
  have hself : ((parked tf (sleeping st ch)).processTable st.currentProc).state = .blocked := by
    simp [parked, sleeping, sleepOn, KState.setFrame, KState.modifyProc]
  have hready : ∀ i, ((parked tf (sleeping st ch)).processTable i).state ≠ .ready := by
    intro i
    by_cases hi : i = st.currentProc
    · rw [hi, hself]
      decide
    · have hsame : (parked tf (sleeping st ch)).processTable i = st.processTable i := by
        simp [parked, sleeping, sleepOn, KState.setFrame, KState.modifyProc, hi]
      rw [hsame]
      exact honly i hi
  have hcur : (parked tf (sleeping st ch)).current.state = .blocked := hself
  apply AwaitIdles.now
  · cases hf : findReady (parked tf (sleeping st ch)) (sleeping st ch).currentProc with
    | none => rfl
    | some i => exact absurd (findReady_some hf) (hready i)
  · rw [hcur]
    decide
  · simp only [anyBlocked, List.any_eq_true, decide_eq_true_eq]
    exact ⟨_, List.mem_finRange _, hself⟩

def readCall : TrapFrame :=
  { TrapFrame.zero with scause := 8, a7 := sysRead, a1 := 0xFFFFFFFFFFFFF000, a2 := 1 }

theorem readCall_accepted (m : Memory) (root : ℕ) :
    userRangeOk m root readCall.a1 ((readCall.a2.setWidth 32).setWidth 64) pteW = true := by
  have hnone : pageSteps (pageFloor readCall.a1)
      (pageCeil (readCall.a1 + (readCall.a2.setWidth 32).setWidth 64)) = [] := by decide
  rw [userRangeOk, if_neg (by decide), hnone]
  rfl

theorem idle_has_listener_small : ∃ st st' s, Reachable smallLayout smallRam st ∧
    Schedules st.sscratch (saveFrame readCall st) st' ∧
    ScheduleIdles [] st.sscratch st' s ∧
    ∃ i, (s.processTable i).state = .blocked ∧ (s.processTable i).chan = some .uartRx := by
  obtain ⟨st, hk⟩ := boot_returns smallImage
  have h : Reachable smallLayout smallRam st := .boot st hk
  have hst := reachable_steady h
  have hframe := frameOf_entered hst readCall
  have hcur : (entered (saveFrame readCall st)).currentProc = st.sscratch := hst.frame.symm
  have hempty : decide (st.uart.rxCommit ≠ st.uart.rxTail) = false :=
    congrArg Coord.readable (booted hk).2
  have hget : (uartGetc (saveFrame readCall st).uart).1 = none := by
    have he : st.uart.rxCommit = st.uart.rxTail := not_not.mp (of_decide_eq_false hempty)
    have hu : (saveFrame readCall st).uart = st.uart := rfl
    rw [hu, uartGetc, if_pos he]
  have hfiles : (entered (saveFrame readCall st)).current.openFiles = initProcessFds := by
    rw [← booted_files hk, KState.current, hcur, hst.frame]
    simp [entered, saveFrame, KState.setFrame, KState.modifyProc, KState.current, hst.frame]
  have hcall : Schedules st.sscratch (saveFrame readCall st)
      (sleeping (entered (saveFrame readCall st)) .uartRx) := by
    refine .read ?_ ?_ ?_ 0 ⟨?_, ?_⟩ ?_ hget
    · rw [frameOf_saveFrame]
      rfl
    · rw [hframe]
      rfl
    · rw [BufferOk, hcur, hframe]
      exact readCall_accepted _ _
    · have hfd : fdOf readCall.a0 = some 0 := by decide
      rw [hcur, hframe]
      exact hfd
    · rw [hfiles]
      rfl
    · have hsize : readCall.a2.setWidth 32 ≠ 0 := by decide
      rw [KState.readSize, hcur, hframe]
      exact hsize
  have hidle : ScheduleIdles [] st.sscratch (sleeping (entered (saveFrame readCall st)) .uartRx)
      (parked st.sscratch (sleeping (entered (saveFrame readCall st)) .uartRx)) := by
    apply alone_idles
    intro i hi
    rw [(calm_entered _).state, (calm_saveFrame readCall st).state, booted_alone hk]
    · decide
    · rw [← hst.frame]
      rw [hcur] at hi
      exact hi
  have hn : st.nextPid = 2 := congrArg Coord.nextPid (booted hk).2
  refine ⟨st, _, _, h, hcall, hidle, idle_has_listener h hcall hidle ?_⟩
  have hsame : (parked st.sscratch (sleeping (entered (saveFrame readCall st)) .uartRx)).nextPid =
      st.nextPid := rfl
  rw [hsame, hn]
  decide

end Results

end Lazux

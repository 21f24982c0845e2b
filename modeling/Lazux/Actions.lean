import Lazux.Execute
import Lazux.Lib.Trace

/-! # A trap as a sequence of actions

Whatever the handler of a trap does is a run of a few kinds of actions. A property of the
kernel's state is followed through a trap by following it through each kind; the labels
say what processes and terminals see of it. -/
namespace Lazux

open PagedMemory RadixForest Run Trace

/-- A byte enters or leaves the receive ring; a process begins, dies or is reaped; another one
gets the processor. -/
inductive Label where
  | received (b : Byte)
  | taken (b : Byte)
  | forked (parent child : BitVec 32)
  | died (pid : BitVec 32)
  | reaped (parent child : BitVec 32)
  | switched (next : Slot)
  deriving DecidableEq

inductive Act (L : Layout) (st : KState) : List Label → KState → Prop where
  | console (c : List Byte) : Act L st [] { st with console := c }
  | status (w : Word) : Act L st [] { st with sstatus := w }
  | regs (hst : Steady st.currentProc st) (f : TrapFrame → TrapFrame)
      (hf : ∀ tf, (f tf).kernelSp = tf.kernelSp ∧ (f tf).sstatus = tf.sstatus) :
      Act L st [] (st.setFrame st.currentProc f)
  | file (hst : Steady st.currentProc st) (fd : Fin 16) (f : File) : Act L st [] (st.setFile fd f)
  | take (hst : Steady st.currentProc st) (b : Byte) (u : Uart)
      (h : uartGetc st.uart = (some b, u)) : Act L st [.taken b] { st with uart := u }
  | store (hst : Steady st.currentProc st) (q : PageNo) (pa : Addr) (b : Byte)
      (h : held st.phys (trees st) (.node st.currentProc q.leaf) = some (frame pa)) :
      Act L st [] { st with phys := { st.phys with mem := st.phys.mem.setByte pa b } }
  | receive (b : Byte) : Act L st [.received b] (uartByte st b)
  | grow (hst : Steady st.currentProc st) (increment : Word) (ok : Bool) (phys : Phys)
      (h : Grow st increment ok phys) : Act L st [] (grown st increment ok phys)
  | forkFailed (hst : Steady st.currentProc st) (mid : KState) (h : AllocProc L st none mid) :
      Act L st [] mid
  | fork (hst : Steady st.currentProc st) (child : Slot) (mid : KState) (phys : Phys)
      (ha : AllocProc L st (some child) mid) (hne : child ≠ st.currentProc)
      (hc : vmmCopyUvm 2 (mid.rootOf st.currentProc) (mid.rootOf child) mid.phys = .ok phys) :
      Act L st [.forked st.current.pid (BitVec.ofNat 32 st.nextPid)] (forked st mid child phys)
  | exec (hst : Steady st.currentProc st) (st' : KState) (h : ExecCall L st.currentProc st st') :
      Act L st [] st'
  | reap (hst : Steady st.currentProc st) (i : Slot) (hz : (st.processTable i).state = .zombie)
      (hp : (st.processTable i).parentPid = st.current.pid) :
      Act L st [.reaped st.current.pid (st.processTable i).pid] (freeProc st i)
  | sleep (hst : Steady st.currentProc st) (ch : Chan) (hp : (coord st).Pending ch) :
      Act L st [] (sleeping st ch)
  | exit (hst : Steady st.currentProc st) : Act L st [.died st.current.pid] (exiting st)
  | yield (hst : Steady st.currentProc st) :
      Act L st [] (st.modifyProc st.currentProc fun p => { p with state := .ready })

abbrev Acts (L : Layout) : KState → List Label → KState → Prop := Path (Act L)

/-- Everything a trap does: actions for the current process, after which another one may get
the processor. -/
inductive Does (L : Layout) (st : KState) : List Label → Slot × KState → Prop where
  | stays {ls : List Label} {st' : KState} (h : Acts L st ls st') :
      Does L st ls (st.currentProc, st')
  | switches {ls : List Label} {mid : KState} (next : Slot) (h : Acts L st ls mid)
      (hc : mid.current.state ≠ .running) (hr : (mid.processTable next).state = .ready) :
      Does L st (ls ++ [.switched next]) (next, dispatched next mid)

variable {L : Layout} {st st' mid : KState} {ls : List Label} {tf : Slot} {idle : List Wakeup}

section Soundness

theorem wakeup_of_zombie {i : Slot} (ch : Chan) (h : (st.processTable i).state = .zombie) :
    (wakeup st ch).processTable i = st.processTable i := by
  simp [wakeup, h]

theorem exiting_fields (st : KState) :
    (exiting st).currentProc = st.currentProc ∧ (exiting st).current.state = .zombie := by
  have hz : ((st.modifyProc st.currentProc fun p =>
      { p with state := .zombie }).processTable st.currentProc).state = .zombie := by simp
  unfold exiting
  dsimp only
  split
  · refine ⟨rfl, ?_⟩
    exact (congrArg Process.state (wakeup_of_zombie _ hz)).trans hz
  · exact ⟨rfl, hz⟩

theorem benign_exiting (hst : Steady tf st) : Benign st (exiting st) := by
  have hb : Benign st (st.modifyProc st.currentProc fun p => { p with state := .zombie }) :=
    benign_state st _ hst.used (by simp) rfl rfl rfl
  unfold exiting
  dsimp only
  split
  · exact hb.trans (benign_wakeup _ _)
  · exact hb

theorem benign_sleeping (hst : Steady tf st) (ch : Chan) : Benign st (sleeping st ch) := by
  have hb : Benign st (sleepOn st ch) := benign_state st _ hst.used (by simp) rfl rfl rfl
  exact hb.trans (benign_setFrame _ _ _)

theorem Act.sound (h : Act L st ls st') (hs : Sound L st) : Sound L st' := by
  cases h with
  | console c => exact hs.withPhys rfl hs.owned
  | status w => exact hs.withPhys rfl hs.owned
  | regs hst f hf => exact (benign_setFrame st _ f).sound hs
  | file hst fd f => exact (benign_setFile st fd f).sound hs
  | take hst b u h => exact hs.withPhys rfl hs.owned
  | store hst q pa b h =>
    exact (benign_phys (.setByte hs.owned h (leaf_ne_table _ q) b)).sound hs
  | receive b => exact (benign_uartByte st b).sound hs
  | grow hst increment ok phys h => exact h.sound hs hst
  | forkFailed hst mid h => exact sound_allocProc hs h
  | fork hst child mid phys ha hne hc =>
    exact ForkCall.sound hs hst (ForkCall.forked child mid phys ha hne hc)
  | exec hst st' h => exact h.sound hs hst
  | reap hst i hz hp => exact sound_freeProc hs (by rw [hz]; decide)
  | sleep hst ch hp => exact (benign_sleeping hst ch).sound hs
  | exit hst => exact (benign_exiting hst).sound hs
  | yield hst => exact (benign_state st _ hst.used (by simp) rfl rfl rfl).sound hs

theorem Acts.sound (h : Acts L st ls st') (hs : Sound L st) : Sound L st' :=
  h.preserves (fun _ _ _ hs h => h.sound hs) hs

theorem Does.sound {r : Slot × KState} (h : Does L st ls r) (hs : Sound L st) : Sound L r.2 := by
  cases h with
  | stays h => exact h.sound hs
  | switches next h hc hr => exact (benign_dispatched hr).sound (h.sound hs)

theorem Act.run (h : Act L st ls st') : Coord.Run (coord st) (coord st') := by
  have calm : ∀ {s : KState}, Calm st s → Coord.Run (coord st) (coord s) := by
    intro s hc
    rw [hc.coord]
  cases h with
  | console c => exact calm (calm_fields st st.phys st.sstatus st.sscratch c)
  | status w => exact calm (calm_fields st st.phys w st.sscratch st.console)
  | regs hst f hf => exact calm (calm_setFrame st _ f)
  | file hst fd f => exact calm (calm_setFile st fd f)
  | take hst b u h =>
    unfold uartGetc at h
    split_ifs at h with hr
    · cases h
    · cases h
      exact .single (Coord.Step.consume (coord st) _ (decide_eq_true hr))
  | store hst q pa b h =>
    exact calm (calm_fields st { st.phys with mem := st.phys.mem.setByte pa b } st.sstatus
      st.sscratch st.console)
  | receive b => exact run_uartByte st b
  | grow hst increment ok phys h =>
    have hc := calm_fields st phys st.sstatus st.sscratch st.console
    cases ok with
    | false => exact calm hc
    | true =>
      exact calm (hc.trans (calm_modifyProc { st with phys := phys } st.currentProc (f := fun p =>
        { p with heapBreak := st.current.heapBreak + increment })
        fun _ => ⟨rfl, rfl, rfl, rfl, rfl⟩))
  | forkFailed hst mid h => exact run_allocProc_none h
  | fork hst child mid phys ha hne hc =>
    rw [coord_forked phys ha hne]
    exact .single (Coord.Step.spawn (coord st) child hst.running ha.of_some.1)
  | exec hst st' h => rw [(h.control hst).1]
  | reap hst i hz hp =>
    rw [coord_freeProc hz]
    exact .single (Coord.Step.reap (coord st) i hst.running hz hp)
  | sleep hst ch hp =>
    rw [coord_sleeping]
    exact .single (Coord.Step.sleep (coord st) ch hst.running hp)
  | exit hst => exact run_exiting hst
  | yield hst =>
    have hc : coord (st.modifyProc st.currentProc fun p => { p with state := .ready }) =
        (coord st).setState st.currentProc .ready :=
      coord_setState st _ (fun _ => ⟨rfl, rfl, rfl⟩) rfl
    rw [hc]
    exact .single (Coord.Step.yield (coord st) hst.running)

theorem Acts.run (h : Acts L st ls st') : Coord.Run (coord st) (coord st') := by
  induction h with
  | refl => exact .refl
  | tail _ hs ih => exact ih.trans hs.run

theorem Does.run {r : Slot × KState} (h : Does L st ls r) : Coord.Run (coord st) (coord r.2) := by
  cases h with
  | stays h => exact h.run
  | switches next h hc hr =>
    have hstep := Coord.Step.dispatch (coord _) next hc hr
    rw [← coord_dispatched] at hstep
    exact h.run.tail hstep

theorem Act.currentProc (h : Act L st ls st') : st'.currentProc = st.currentProc := by
  cases h with
  | receive b => exact (onlyWakes_uartByte st b).currentProc
  | grow hst increment ok phys h =>
    cases ok with
    | false => rfl
    | true => rfl
  | forkFailed hst mid h => cases h <;> rfl
  | fork hst child mid phys ha hne hc => exact ha.of_some.2.1
  | exec hst st' h => exact congrArg Coord.current (h.control hst).1
  | reap hst i hz hp => exact (freeProc_fields st i).1
  | exit hst => exact (exiting_fields st).1
  | _ => rfl

theorem Acts.currentProc (h : Acts L st ls st') : st'.currentProc = st.currentProc := by
  induction h with
  | refl => rfl
  | tail _ hs ih => exact hs.currentProc.trans ih

theorem Acts.does {ms : List Label} {r : Slot × KState} (h : Acts L st ls mid)
    (hd : Does L mid ms r) : Does L st (ls ++ ms) r := by
  cases hd with
  | stays h' =>
    rw [h.currentProc]
    exact .stays (h.trans h')
  | switches next h' hc hr =>
    rw [← List.append_assoc]
    exact .switches next (h.trans h') hc hr

end Soundness

section Schedule

theorem wakeup_of_ready {i : Slot} {ch : Chan} (h : (st.processTable i).state = .ready) :
    (wakeup st ch).processTable i = st.processTable i := by
  simp [wakeup, h]

theorem uartByte_of_ready {i : Slot} {b : Byte} (h : (st.processTable i).state = .ready) :
    (uartByte st b).processTable i = st.processTable i := by
  unfold uartByte
  dsimp only
  split_ifs
  · exact wakeup_of_ready h
  · rfl

theorem bytes_of_ready {i : Slot} (bytes : List Byte) (h : (st.processTable i).state = .ready) :
    (bytes.foldl uartByte st).processTable i = st.processTable i := by
  induction bytes generalizing st with
  | nil => rfl
  | cons b bs ih =>
    have hb := uartByte_of_ready (b := b) h
    exact (ih (by rw [hb]; exact h)).trans hb

theorem idles_ready {i : Slot} (h : Idles st st') (hr : (st.processTable i).state = .ready) :
    (st'.processTable i).state = .ready := by
  induction h with
  | refl => exact hr
  | tail _ hs ih =>
    cases hs with
    | nothing => exact ih
    | served bytes console =>
      have hb := bytes_of_ready bytes ih
      exact (congrArg Process.state hb).trans ih

/-- All that anyone sees is what arrives from the terminal. -/
def Heard (ls : List Label) : Prop := ∀ l ∈ ls, ∃ b, l = .received b

theorem heard_nil : Heard [] := fun _ h => by cases h

theorem Heard.append {ms : List Label} (h : Heard ls) (h' : Heard ms) : Heard (ls ++ ms) := by
  intro l hl
  rcases List.mem_append.mp hl with h1 | h2
  · exact h l h1
  · exact h' l h2

/-- Bytes arrive, then `next` runs. -/
def Passes (ls : List Label) (next : Slot) : Prop := ∃ ms, Heard ms ∧ ls = ms ++ [.switched next]

theorem acts_bytes (bytes : List Byte) (st : KState) :
    Acts L st (bytes.map .received) (bytes.foldl uartByte st) := by
  induction bytes generalizing st with
  | nil => exact .refl st
  | cons b bs ih => exact Path.head (.receive b) (ih (uartByte st b))

theorem acts_idles (h : Idles st st') : ∃ ls, Acts L st ls st' ∧ Heard ls := by
  induction h with
  | refl => exact ⟨[], .refl st, heard_nil⟩
  | tail _ hs ih =>
    obtain ⟨ls, hacts, hheard⟩ := ih
    cases hs with
    | nothing => exact ⟨ls, hacts, hheard⟩
    | served bytes console =>
      refine ⟨_, (hacts.trans (acts_bytes bytes _)).tail (.console console), ?_⟩
      refine (hheard.append fun l hl => ?_).append heard_nil
      obtain ⟨b, -, rfl⟩ := List.mem_map.mp hl
      exact ⟨b, rfl⟩

/-- Another process may run now: states and channels changed, nothing else of a process. -/
structure Switched (st : KState) (r : Slot × KState) : Prop where
  phys : r.2.phys = st.phys
  process : ∀ i, ∃ s c, r.2.processTable i = { st.processTable i with state := s, chan := c }
  waiting : ∀ i, i ≠ r.1 → (st.processTable i).state = .ready ∨
    i = st.currentProc ∧ (st.processTable i).state = .running → (r.2.processTable i).state = .ready

theorem switched_idles (h : Idles st st') (htf : tf = st.currentProc) :
    Switched st (tf, st') := by
  have hprocess : st'.phys = st.phys ∧
      ∀ i, ∃ s c, st'.processTable i = { st.processTable i with state := s, chan := c } := by
    induction h with
    | refl => exact ⟨rfl, fun i => ⟨_, _, rfl⟩⟩
    | tail _ hs ih =>
      cases hs with
      | nothing => exact ih
      | served bytes console =>
        have hw := onlyWakes_bytes bytes
        refine ⟨(hw _).phys.trans ih.1, fun i => ?_⟩
        obtain ⟨s, c, he⟩ := ih.2 i
        obtain ⟨s', c', he'⟩ := (hw _).process i
        rw [he] at he'
        exact ⟨s', c', he'⟩
  refine ⟨hprocess.1, hprocess.2, fun i hi hw => ?_⟩
  rcases hw with hr | ⟨hc, -⟩
  · exact idles_ready h hr
  · exact absurd (hc.trans htf.symm) hi

theorem switched_schedule (htf : tf = st.currentProc) :
    Ensures (schedule idle tf st) (Switched st) := by
  rintro ⟨tf', st'⟩ h
  obtain ⟨mid, hid, -, rfl⟩ := schedule_result h
  have hidle := switched_idles hid htf
  subst htf
  have hpark : ∀ i, ∃ s c, (parked st.currentProc st).processTable i =
      { st.processTable i with state := s, chan := c } := by
    intro i
    by_cases hi : i = st.currentProc
    · subst hi
      exact ⟨_, _, modifyProc_self ..⟩
    · exact ⟨_, _, modifyProc_of_ne _ hi _⟩
  refine ⟨hidle.phys, fun i => ?_, fun i hi hw => ?_⟩
  · obtain ⟨s, c, he⟩ := hpark i
    obtain ⟨s', c', he'⟩ := hidle.process i
    have hmid : mid.processTable i = { st.processTable i with state := s', chan := c' } := by
      rw [show mid.processTable i = _ from he', he]
    by_cases hi : i = tf'
    · subst hi
      refine ⟨.running, c', ?_⟩
      rw [show (dispatched i mid).processTable i =
        { mid.processTable i with state := .running } from
        modifyProc_self .., hmid]
    · refine ⟨s', c', ?_⟩
      rw [show (dispatched tf' mid).processTable i = mid.processTable i from
        modifyProc_of_ne _ hi _, hmid]
  · have hready : ((parked st.currentProc st).processTable i).state = .ready := by
      by_cases hic : i = st.currentProc
      · subst hic
        rw [parked, modifyProc_self]
        rcases hw with hr | ⟨-, hr⟩
        · simp [hr]
        · simp [hr]
      · rw [parked, modifyProc_of_ne _ hic]
        rcases hw with hr | ⟨hc, -⟩
        · exact hr
        · exact absurd hc hic
    have hmid := idles_ready hid hready
    rw [dispatched, modifyProc_of_ne _ hi]
    exact hmid

theorem acts_parked (htf : tf = st.currentProc)
    (hcase : Steady tf st ∨ st.current.state ≠ .running) : Acts L st [] (parked tf st) := by
  subst htf
  by_cases hr : st.current.state = .running
  · have he : parked st.currentProc st =
        st.modifyProc st.currentProc fun p => { p with state := .ready } := by
      have hr' : (st.processTable st.currentProc).state = .running := hr
      simp only [parked, KState.modifyProc, KState.frameOf, if_pos hr']
    rw [he]
    exact Path.single (.yield (hcase.resolve_right (not_not.mpr hr)))
  · have he : parked st.currentProc st = st := by
      have hr' : ¬ (st.processTable st.currentProc).state = .running := hr
      refine modifyProc_eq_self ?_
      simp only [KState.frameOf, if_neg hr']
    rw [he]
    exact .refl st

theorem acts_schedule (htf : tf = st.currentProc)
    (hcase : Steady tf st ∨ st.current.state ≠ .running) :
    Ensures (schedule idle tf st) fun r => ∃ ls, Does L st ls r ∧ Passes ls r.1 ∧
      Steady r.1 r.2 ∧ Switched st r := by
  rintro ⟨tf', st'⟩ h
  have hsteady := steady_schedule _ h
  have hsw := switched_schedule htf _ h
  obtain ⟨mid, hid, hready, rfl⟩ := schedule_result h
  obtain ⟨ls, hidle, hheard⟩ := acts_idles (L := L) hid
  have hcur : mid.current.state ≠ .running := by
    intro hr
    rw [KState.current, currentProc_of_idles hid] at hr
    exact parked_not_running tf st (running_of_idles hid hr)
  exact ⟨_, .switches tf' ((acts_parked htf hcase).trans hidle) hcur hready,
    ⟨ls, hheard, rfl⟩, hsteady, hsw⟩

theorem phys_exiting (st : KState) : (exiting st).phys = st.phys := by
  unfold exiting
  dsimp only
  split <;> rfl

theorem exitCurrent_eq (idle : List Wakeup) (tf : Slot) (st : KState) :
    exitCurrent idle tf st = schedule idle tf (exiting st) := by
  unfold exitCurrent exiting parentOf
  rfl

theorem acts_exitCurrent (hst : Steady tf st) :
    Ensures (exitCurrent idle tf st) fun r => ∃ ls, Does L st (.died st.current.pid :: ls) r ∧
      Passes ls r.1 ∧ Steady r.1 r.2 ∧ r.2.phys = st.phys := by
  obtain ⟨hcur, hzombie⟩ := exiting_fields st
  have hst' : Steady st.currentProc st := hst.frame ▸ hst
  rw [exitCurrent_eq]
  refine (acts_schedule (L := L) (hst.frame.trans hcur.symm)
    (Or.inr (by rw [hzombie]; decide))).mono ?_
  rintro r ⟨ls, hacts, hheard, hs, hsw⟩
  exact ⟨ls, Acts.does (.single (.exit hst')) hacts, hheard, hs, hsw.phys.trans (phys_exiting st)⟩

/-- A process that goes to sleep has touched nothing and will repeat its call. -/
def Blocked (st : KState) (r : Slot × KState) : Prop :=
  r.2.phys = st.phys ∧ r.2.frameOf st.currentProc =
    { st.frameOf st.currentProc with sepc := (st.frameOf st.currentProc).sepc - 4 }

theorem acts_sleep {ch : Chan} (hst : Steady tf st) (hp : (coord st).Pending ch) :
    Ensures (schedule idle tf (sleeping st ch)) fun r => ∃ ls, Does L st ls r ∧
      Passes ls r.1 ∧ Steady r.1 r.2 ∧ Blocked st r := by
  have hst' : Steady st.currentProc st := hst.frame ▸ hst
  have hblocked : (sleeping st ch).current.state ≠ .running := by
    simp [sleeping, sleepOn, KState.current, KState.setFrame, KState.modifyProc]
  have hframe : tf = (sleeping st ch).currentProc := hst.frame
  refine (acts_schedule (L := L) hframe (Or.inr hblocked)).mono ?_
  rintro r ⟨ls, hacts, hheard, hs, hsw⟩
  refine ⟨ls, Acts.does (.single (.sleep hst' ch hp)) hacts, hheard, hs, hsw.phys, ?_⟩
  obtain ⟨s, c, he⟩ := hsw.process st.currentProc
  rw [KState.frameOf, he]
  simp [sleeping, sleepOn, KState.setFrame, KState.modifyProc, KState.frameOf]

end Schedule

end Lazux

import Lazux.Progress

/-! # Parents and children

Who was forked, who died and who was reaped, over whole runs. -/
namespace Lazux

open PagedMemory RadixForest Run Trace

namespace Coord

/-- Nobody is born, dies or is reaped. -/
structure Quiet (c c' : Coord) : Prop where
  nextPid : c.nextPid ≤ c'.nextPid
  unused : ∀ i, c'.state i = .unused ↔ c.state i = .unused
  zombie : ∀ i, c'.state i = .zombie ↔ c.state i = .zombie
  pid : ∀ i, c.state i ≠ .unused → c'.pid i = c.pid i
  parent : ∀ i, c.state i ≠ .unused → c'.parent i = c.parent i

variable {c c' : Coord}

theorem Quiet.refl (c : Coord) : Quiet c c :=
  ⟨le_rfl, fun _ => Iff.rfl, fun _ => Iff.rfl, fun _ _ => rfl, fun _ _ => rfl⟩

theorem Quiet.wake (h : Quiet c c') (ch : Chan) : Quiet c (c'.wake ch) := by
  refine ⟨h.nextPid, fun i => ?_, fun i => ?_, h.pid, h.parent⟩
  · rw [wake_unused]
    exact h.unused i
  · rw [wake_zombie]
    exact h.zombie i

theorem Quiet.setState {i : Slot} {s : ProcState} (hu : c.state i ≠ .unused)
    (hz : c.state i ≠ .zombie) (hs : s ≠ .unused) (hs' : s ≠ .zombie) :
    Quiet c (c.setState i s) := by
  refine ⟨le_rfl, fun j => ?_, fun j => ?_, fun _ _ => rfl, fun _ _ => rfl⟩
  all_goals
    by_cases hj : j = i
    · subst hj
      simp [Coord.setState, hu, hz, hs, hs']
    · simp [Coord.setState, hj]

end Coord

/-- A label about a birth, a death or a child that was waited for. -/
def Label.ofFamily : Label → Bool
  | .forked _ _ => true
  | .died _ => true
  | .reaped _ _ => true
  | _ => false

/-- What a label says about the processes. -/
inductive Kinship (c : Coord) : List Label → Coord → Prop where
  | quiet {c'} (h : c.Quiet c') : Kinship c [] c'
  | born {c'} (i : Slot) (hr : c.state c.current = .running) (hu : c.state i = .unused)
      (hs : c'.state = Function.update c.state i .ready)
      (hpid : c'.pid = Function.update c.pid i (BitVec.ofNat 32 c.nextPid))
      (hpar : c'.parent = Function.update c.parent i (c.pid c.current))
      (hn : c'.nextPid = c.nextPid + 1) :
      Kinship c [.forked (c.pid c.current) (BitVec.ofNat 32 c.nextPid)] c'
  | died {c'} (hr : c.state c.current = .running)
      (h : (c.setState c.current .zombie).Quiet c') : Kinship c [.died (c.pid c.current)] c'
  | reaped {c'} (i : Slot) (hr : c.state c.current = .running) (hz : c.state i = .zombie)
      (hk : c.parent i = c.pid c.current) (hs : c'.state = Function.update c.state i .unused)
      (hpid : ∀ j, j ≠ i → c'.pid j = c.pid j) (hpar : ∀ j, j ≠ i → c'.parent j = c.parent j)
      (hn : c'.nextPid = c.nextPid) :
      Kinship c [.reaped (c.pid c.current) (c.pid i)] c'

variable {L : Layout} {ram : Memory} {st st' mid : KState} {ls : List Label} {tf : Slot}
  {regs : TrapFrame} {input : Input}

section Actions

theorem quiet_uartByte (st : KState) (b : Byte) : (coord st).Quiet (coord (uartByte st b)) := by
  have hquiet : (coord st).Quiet (coord { st with
      uart := (uartReceive st.uart b).uart
      console := st.console ++ (uartReceive st.uart b).echo }) :=
    ⟨le_rfl, fun _ => Iff.rfl, fun _ => Iff.rfl, fun _ _ => rfl, fun _ _ => rfl⟩
  unfold uartByte
  dsimp only
  split_ifs
  · rw [coord_wakeup]
    exact hquiet.wake _
  · exact hquiet

theorem quiet_allocProc_none (h : AllocProc L st none mid) : (coord st).Quiet (coord mid) := by
  rcases coord_allocProc_none h with he | ⟨i, hu, he⟩
  · rw [he]
    exact .refl _
  · rw [he]
    refine ⟨Nat.le_succ _, fun _ => Iff.rfl, fun _ => Iff.rfl, fun j hj => ?_, fun _ _ => rfl⟩
    apply Function.update_of_ne
    rintro rfl
    exact hj hu

theorem kinship_exiting (hst : Steady tf st) :
    Kinship (coord st) [.died st.current.pid] (coord (exiting st)) := by
  have hz : coord (st.modifyProc st.currentProc fun p => { p with state := .zombie }) =
      (coord st).setState (coord st).current .zombie :=
    coord_setState st _ (fun _ => ⟨rfl, rfl, rfl⟩) rfl
  apply Kinship.died hst.running
  rw [← hz]
  unfold exiting
  dsimp only
  split
  · rw [coord_wakeup]
    exact (Coord.Quiet.refl _).wake _
  · exact .refl _

theorem Act.kinship (h : Act L st ls st') :
    Kinship (coord st) (ls.filter Label.ofFamily) (coord st') := by
  have calm : ∀ {s : KState}, Calm st s → Kinship (coord st) [] (coord s) := by
    intro s hc
    rw [hc.coord]
    exact .quiet (.refl _)
  cases h with
  | console c => exact calm (calm_fields st st.phys st.sstatus st.sscratch c)
  | status w => exact calm (calm_fields st st.phys w st.sscratch st.console)
  | regs hst f hf => exact calm (calm_setFrame st _ f)
  | file hst fd f => exact calm (calm_setFile st fd f)
  | take hst b u h =>
    exact .quiet ⟨le_rfl, fun _ => Iff.rfl, fun _ => Iff.rfl, fun _ _ => rfl, fun _ _ => rfl⟩
  | store hst q pa b h =>
    exact calm (calm_fields st { st.phys with mem := st.phys.mem.setByte pa b } st.sstatus
      st.sscratch st.console)
  | receive b => exact .quiet (quiet_uartByte st b)
  | grow hst increment ok phys h =>
    have hc := calm_fields st phys st.sstatus st.sscratch st.console
    cases ok with
    | false => exact calm hc
    | true =>
      exact calm (hc.trans (calm_modifyProc { st with phys := phys } st.currentProc (f := fun p =>
        { p with heapBreak := st.current.heapBreak + increment })
        fun _ => ⟨rfl, rfl, rfl, rfl, rfl⟩))
  | forkFailed hst mid h => exact .quiet (quiet_allocProc_none h)
  | fork hst child mid phys ha hne hc =>
    have he := coord_forked phys ha hne
    exact .born child hst.running ha.of_some.1 (congrArg Coord.state he) (congrArg Coord.pid he)
      (congrArg Coord.parent he) (congrArg Coord.nextPid he)
  | exec hst st' h =>
    rw [(h.control hst).1]
    exact .quiet (.refl _)
  | reap hst i hz hp =>
    have he := coord_freeProc hz
    refine .reaped i hst.running hz hp ?_ (fun j hj => ?_) (fun j hj => ?_) ?_
    · rw [he]
      rfl
    · rw [he]
      exact Function.update_of_ne hj _ _
    · rw [he]
      exact Function.update_of_ne hj _ _
    · rw [he]
      rfl
  | sleep hst ch hp =>
    rw [coord_sleeping]
    have hrun : (coord st).state st.currentProc = .running := hst.running
    have hq : (coord st).Quiet ((coord st).setState st.currentProc .blocked) :=
      .setState (by rw [hrun]; decide) (by rw [hrun]; decide) (by decide) (by decide)
    exact .quiet ⟨hq.nextPid, hq.unused, hq.zombie, hq.pid, hq.parent⟩
  | exit hst => exact kinship_exiting hst
  | yield hst =>
    have hc : coord (st.modifyProc st.currentProc fun p => { p with state := .ready }) =
        (coord st).setState st.currentProc .ready :=
      coord_setState st _ (fun _ => ⟨rfl, rfl, rfl⟩) rfl
    have hrun : (coord st).state st.currentProc = .running := hst.running
    rw [hc]
    exact .quiet (.setState (by rw [hrun]; decide) (by rw [hrun]; decide) (by decide) (by decide))

theorem quiet_dispatched {next : Slot} (hr : (st.processTable next).state = .ready) :
    (coord st).Quiet (coord (dispatched next st)) := by
  rw [coord_dispatched]
  have hstate : (coord st).state next = .ready := hr
  have hq : (coord st).Quiet ((coord st).setState next .running) :=
    .setState (by rw [hstate]; decide) (by rw [hstate]; decide) (by decide) (by decide)
  exact ⟨hq.nextPid, hq.unused, hq.zombie, hq.pid, hq.parent⟩

end Actions

section Records

/-- The record of the past fits the process table: every process but the first was forked by
the parent it names, and has died since if it is a zombie; whoever was forked is still there
or was reaped; whoever was reaped is gone for good. -/
structure Kin (hs : List Label) (c : Coord) : Prop where
  born : ∀ i, c.state i ≠ .unused → c.parent i ≠ 0 →
    ∃ h1 h2, hs = h1 ++ .forked (c.parent i) (c.pid i) :: h2 ∧
      (c.state i = .zombie → .died (c.pid i) ∈ h2)
  present : ∀ p k, .forked p k ∈ hs → .reaped p k ∈ hs ∨
    ∃ i, c.state i ≠ .unused ∧ c.pid i = k ∧ c.parent i = p
  past : ∀ p k, .reaped p k ∈ hs → k.toNat < c.nextPid ∧ ∀ i, c.state i ≠ .unused → c.pid i ≠ k

variable {c c' : Coord} {hs : List Label}

theorem kin_first (i : Slot) : Kin [] (Coord.first i) := by
  refine ⟨fun j _ hp => absurd rfl hp, fun p k h => ?_, fun p k h => ?_⟩
  · cases h
  · cases h

theorem Kin.quiet (h : Kin hs c) (hq : c.Quiet c') : Kin hs c' := by
  have hused : ∀ {i}, c'.state i ≠ .unused → c.state i ≠ .unused := by
    intro i hi hu
    exact hi ((hq.unused i).mpr hu)
  refine ⟨fun i hu hp => ?_, fun p k hf => ?_, fun p k hr => ?_⟩
  · rw [hq.parent i (hused hu)] at hp ⊢
    rw [hq.pid i (hused hu)]
    obtain ⟨h1, h2, he, hd⟩ := h.born i (hused hu) hp
    exact ⟨h1, h2, he, fun hz => hd ((hq.zombie i).mp hz)⟩
  · rcases h.present p k hf with hr | ⟨i, hu, hk, hp⟩
    · exact Or.inl hr
    · refine Or.inr ⟨i, fun hu' => hu ((hq.unused i).mp hu'), ?_, ?_⟩
      · exact (hq.pid i hu).trans hk
      · exact (hq.parent i hu).trans hp
  · obtain ⟨hlt, hne⟩ := h.past p k hr
    refine ⟨hlt.trans_le hq.nextPid, fun i hu => ?_⟩
    rw [hq.pid i (hused hu)]
    exact hne i (hused hu)

theorem Kin.longer (h : Kin hs c) {i : Slot} (hu : c.state i ≠ .unused) (hp : c.parent i ≠ 0)
    (l : Label) : ∃ h1 h2, hs ++ [l] = h1 ++ .forked (c.parent i) (c.pid i) :: h2 ∧
      (c.state i = .zombie ∨ l = .died (c.pid i) → .died (c.pid i) ∈ h2) := by
  obtain ⟨h1, h2, he, hd⟩ := h.born i hu hp
  refine ⟨h1, h2 ++ [l], ?_, ?_⟩
  · rw [he, List.append_assoc, List.cons_append]
  · rintro (hz | rfl)
    · exact List.mem_append_left _ (hd hz)
    · exact List.mem_append_right _ List.mem_cons_self

theorem Kin.fork (h : Kin hs c) (hlim : c.nextPid < 2 ^ 32) {i : Slot}
    (hu : c.state i = .unused)
    (hs' : c'.state = Function.update c.state i .ready)
    (hpid : c'.pid = Function.update c.pid i (BitVec.ofNat 32 c.nextPid))
    (hpar : c'.parent = Function.update c.parent i (c.pid c.current))
    (hn : c'.nextPid = c.nextPid + 1) :
    Kin (hs ++ [.forked (c.pid c.current) (BitVec.ofNat 32 c.nextPid)]) c' := by
  have hself : c'.state i = .ready ∧ c'.pid i = BitVec.ofNat 32 c.nextPid ∧
      c'.parent i = c.pid c.current := by
    rw [hs', hpid, hpar]
    simp
  have hother : ∀ {j}, j ≠ i → c'.state j = c.state j ∧ c'.pid j = c.pid j ∧
      c'.parent j = c.parent j := by
    intro j hj
    rw [hs', hpid, hpar]
    simp [hj]
  have hne : ∀ {j}, c.state j ≠ .unused → j ≠ i := by
    rintro j hj rfl
    exact hj hu
  have hnum : (BitVec.ofNat 32 c.nextPid).toNat = c.nextPid := by
    rw [BitVec.toNat_ofNat]
    exact Nat.mod_eq_of_lt hlim
  refine ⟨fun j hj hp => ?_, fun p k hf => ?_, fun p k hr' => ?_⟩
  · by_cases hji : j = i
    · subst hji
      obtain ⟨h1, h2, h3⟩ := hself
      rw [h2, h3]
      refine ⟨hs, [], rfl, fun hz => ?_⟩
      rw [h1] at hz
      cases hz
    · obtain ⟨h1, h2, h3⟩ := hother hji
      rw [h1] at hj
      rw [h3] at hp
      rw [h1, h2, h3]
      obtain ⟨l1, l2, he, hd⟩ :=
        h.longer hj hp (.forked (c.pid c.current) (BitVec.ofNat 32 c.nextPid))
      exact ⟨l1, l2, he, fun hz => hd (Or.inl hz)⟩
  · rcases List.mem_append.mp hf with hf | hf
    · rcases h.present p k hf with hr' | ⟨j, hj, hk, hp⟩
      · exact Or.inl (List.mem_append_left _ hr')
      · obtain ⟨h1, h2, h3⟩ := hother (hne hj)
        refine Or.inr ⟨j, ?_, h2.trans hk, h3.trans hp⟩
        rw [h1]
        exact hj
    · have he := List.mem_singleton.mp hf
      cases he
      refine Or.inr ⟨i, ?_, hself.2.1, hself.2.2⟩
      rw [hself.1]
      decide
  · have hr' : .reaped p k ∈ hs := by simpa using hr'
    obtain ⟨hlt, hno⟩ := h.past p k hr'
    refine ⟨by omega, fun j hj => ?_⟩
    by_cases hji : j = i
    · subst hji
      rw [hself.2.1]
      rintro rfl
      omega
    · obtain ⟨h1, h2, -⟩ := hother hji
      rw [h2]
      rw [h1] at hj
      exact hno j hj

theorem Kin.die (h : Kin hs c) (hr : c.state c.current = .running) :
    Kin (hs ++ [.died (c.pid c.current)]) (c.setState c.current .zombie) := by
  have hu : c.state c.current ≠ .unused := by
    rw [hr]
    decide
  have hstate : ∀ {j}, (c.setState c.current .zombie).state j ≠ .unused → c.state j ≠ .unused := by
    intro j hj
    by_cases hjc : j = c.current
    · rw [hjc]
      exact hu
    · simpa [Coord.setState, hjc] using hj
  refine ⟨fun j hj hp => ?_, fun p k hf => ?_, fun p k hr => ?_⟩
  · obtain ⟨l1, l2, he, hd⟩ := h.longer (hstate hj) hp (.died (c.pid c.current))
    refine ⟨l1, l2, he, fun hz => hd ?_⟩
    by_cases hjc : j = c.current
    · right
      rw [hjc]
    · left
      simpa [Coord.setState, hjc] using hz
  · have hf : .forked p k ∈ hs := by simpa using hf
    rcases h.present p k hf with hr | ⟨j, hj, hk, hp⟩
    · exact Or.inl (List.mem_append_left _ hr)
    · refine Or.inr ⟨j, ?_, hk, hp⟩
      by_cases hjc : j = c.current
      · rw [hjc]
        simp [Coord.setState]
      · simpa [Coord.setState, hjc] using hj
  · have hr : .reaped p k ∈ hs := by simpa using hr
    obtain ⟨hlt, hno⟩ := h.past p k hr
    exact ⟨hlt, fun j hj => hno j (hstate hj)⟩

theorem Kin.reap (h : Kin hs c) (hinv : Coord.Invariant c) {i : Slot} (hz : c.state i = .zombie)
    (hk : c.parent i = c.pid c.current) (hs' : c'.state = Function.update c.state i .unused)
    (hpid : ∀ j, j ≠ i → c'.pid j = c.pid j) (hpar : ∀ j, j ≠ i → c'.parent j = c.parent j)
    (hn : c'.nextPid = c.nextPid) : Kin (hs ++ [.reaped (c.pid c.current) (c.pid i)]) c' := by
  have hused : c.state i ≠ .unused := by
    rw [hz]
    decide
  have hkeep : ∀ {j}, c'.state j ≠ .unused → j ≠ i ∧ c'.state j = c.state j := by
    intro j hj
    have hji : j ≠ i := by
      rintro rfl
      rw [hs'] at hj
      simp at hj
    refine ⟨hji, ?_⟩
    rw [hs']
    exact Function.update_of_ne hji _ _
  refine ⟨fun j hj hp => ?_, fun p k hf => ?_, fun p k hr => ?_⟩
  · obtain ⟨hji, hst⟩ := hkeep hj
    rw [hst] at hj
    rw [hpar j hji] at hp
    rw [hst, hpid j hji, hpar j hji]
    obtain ⟨l1, l2, he, hd⟩ := h.longer hj hp (.reaped (c.pid c.current) (c.pid i))
    exact ⟨l1, l2, he, fun hz => hd (Or.inl hz)⟩
  · have hf : .forked p k ∈ hs := by simpa using hf
    rcases h.present p k hf with hr | ⟨j, hj, hjk, hjp⟩
    · exact Or.inl (List.mem_append_left _ hr)
    · by_cases hji : j = i
      · subst hji
        left
        rw [← hjk, ← hjp, hk]
        exact List.mem_append_right _ List.mem_cons_self
      · refine Or.inr ⟨j, ?_, (hpid j hji).trans hjk, (hpar j hji).trans hjp⟩
        rw [hs', Function.update_of_ne hji]
        exact hj
  · rw [hn]
    rcases List.mem_append.mp hr with hr | hr
    · obtain ⟨hlt, hno⟩ := h.past p k hr
      refine ⟨hlt, fun j hj => ?_⟩
      obtain ⟨hji, hst⟩ := hkeep hj
      rw [hpid j hji]
      rw [hst] at hj
      exact hno j hj
    · have he := List.mem_singleton.mp hr
      cases he
      refine ⟨hinv.pid_lt i hused, fun j hj he => ?_⟩
      obtain ⟨hji, hst⟩ := hkeep hj
      rw [hst] at hj
      rw [hpid j hji] at he
      exact hji (hinv.pid_inj j i hj hused he)

theorem Kin.step {ls : List Label} (h : Kin hs c) (hinv : Coord.Invariant c)
    (hlim : c'.nextPid ≤ 2 ^ 31) (hk : Kinship c ls c') : Kin (hs ++ ls) c' := by
  cases hk with
  | quiet hq =>
    rw [List.append_nil]
    exact h.quiet hq
  | born i _ hu hs' hpid hpar hn => exact h.fork (by omega) hu hs' hpid hpar hn
  | died hr hq => exact (h.die hr).quiet hq
  | reaped i hr hz hk hs' hpid hpar hn => exact h.reap hinv hz hk hs' hpid hpar hn

theorem Acts.kin (h : Acts L st ls st') (hinv : Coord.Invariant (coord st))
    (hlim : st'.nextPid ≤ 2 ^ 31) (hk : Kin hs (coord st)) :
    Kin (hs ++ ls.filter Label.ofFamily) (coord st') := by
  induction h with
  | refl =>
    rw [List.filter_nil, List.append_nil]
    exact hk
  | @tail t u ls ms hp ha ih =>
    have hle : t.nextPid ≤ u.nextPid := ha.run.nextPid_le
    have hmid : Coord.Invariant (coord t) :=
      Coord.run_preserves_invariant (Acts.run hp) (hle.trans hlim) hinv
    rw [List.filter_append, ← List.append_assoc]
    exact (ih (hle.trans hlim)).step hmid hlim ha.kinship

theorem Does.kin {r : Slot × KState} (h : Does L st ls r) (hinv : Coord.Invariant (coord st))
    (hlim : r.2.nextPid ≤ 2 ^ 31) (hk : Kin hs (coord st)) :
    Kin (hs ++ ls.filter Label.ofFamily) (coord r.2) := by
  cases h with
  | stays h => exact h.kin hinv hlim hk
  | switches next h hc hr =>
    have hmid := h.kin hinv hlim hk
    have hnone : List.filter Label.ofFamily [Label.switched next] = [] := rfl
    rw [List.filter_append, hnone, List.append_nil]
    exact hmid.quiet (quiet_dispatched hr)

end Records

section Histories

/-- What the outside sees of a trap: a fork that returned a pid, a wait that returned one, an
exit or a fault. -/
def observed (regs : TrapFrame) (st st' : KState) : List Label :=
  let pid := st.current.pid
  let f := st'.frameOf st.currentProc
  if regs.scause = 8 then
    if regs.a7 = sysFork then
      if f.a0.msb then [] else [.forked pid (f.a0.setWidth 32)]
    else if regs.a7 = sysWait then
      if f.sepc = regs.sepc + 4 ∧ f.a0.msb = false then [.reaped pid (f.a0.setWidth 32)] else []
    else if regs.a7 = sysExit then [.died pid]
    else []
  else if regs.scause.msb then []
  else [.died pid]

/-- The runs of the machine with all that was seen of their traps. -/
inductive History (L : Layout) (ram : Memory) : List Label → KState → Prop where
  | boot (st : KState) (h : kmain L ram = .ok st) : History L ram [] st
  | store {past : List Label} {st st' : KState} {va : Addr} {b : Byte}
      (h : History L ram past st) (h' : Step L st (.store va b) st') : History L ram past st'
  | trap {past : List Label} {st st' : KState} {regs : TrapFrame} {input : Input}
      (h : History L ram past st) (h' : Step L st (.trap regs input) st') :
      History L ram (past ++ observed regs st st') st'

variable {hs : List Label} {r : Slot × KState}

theorem History.reachable (h : History L ram hs st) : Reachable L ram st := by
  induction h with
  | boot st h => exact .boot st h
  | store _ h' ih => exact ih.step h'
  | trap _ h' ih => exact ih.step h'

theorem Heard.family (h : Heard ls) : ls.filter Label.ofFamily = [] := by
  apply List.filter_eq_nil_iff.mpr
  intro l hl
  obtain ⟨b, rfl⟩ := h l hl
  exact Bool.false_ne_true

theorem Passes.family {next : Slot} (h : Passes ls next) : ls.filter Label.ofFamily = [] := by
  obtain ⟨ms, hms, rfl⟩ := h
  rw [List.filter_append, hms.family]
  rfl

theorem Returns.frame {w : Word} (hst : Steady st.sscratch st)
    (h : Returns (entered (saveFrame regs st)) w r) :
    r.2.frameOf st.currentProc = { regs with
      sepc := regs.sepc + 4
      sstatus := trapStatus st.sstatus
      kernelSp := (st.frameOf st.currentProc).kernelSp
      a0 := w } := by
  have hf := frameOf_entered hst regs
  rw [hst.frame] at hf
  have hr : r.2.frameOf st.currentProc =
      { (entered (saveFrame regs st)).frameOf st.currentProc with a0 := w } := h.2.2
  rw [hr, hf]

theorem Blocked.frame (hst : Steady st.sscratch st)
    (h : Blocked (entered (saveFrame regs st)) r) :
    r.2.frameOf st.currentProc = { regs with
      sstatus := trapStatus st.sstatus
      kernelSp := (st.frameOf st.currentProc).kernelSp } := by
  have hf := frameOf_entered hst regs
  rw [hst.frame] at hf
  have hr : r.2.frameOf st.currentProc =
      { (entered (saveFrame regs st)).frameOf st.currentProc with
        sepc := ((entered (saveFrame regs st)).frameOf st.currentProc).sepc - 4 } := h.2
  rw [hr, hf]
  simp

theorem a7_entered (hst : Steady st.sscratch st) : (entered (saveFrame regs st)).a7 = regs.a7 := by
  have hf := frameOf_entered hst regs
  have hcur : (entered (saveFrame regs st)).currentProc = st.sscratch := hst.frame.symm
  rw [KState.a7, hcur, hf]

theorem pid_entered (regs : TrapFrame) (st : KState) (i : Slot) :
    ((entered (saveFrame regs st)).processTable i).pid = (st.processTable i).pid ∧
    ((entered (saveFrame regs st)).processTable i).parentPid = (st.processTable i).parentPid ∧
    ((entered (saveFrame regs st)).processTable i).state = (st.processTable i).state := by
  have hc : coord (entered (saveFrame regs st)) = coord st :=
    (calm_entered _).coord.trans (calm_saveFrame regs st).coord
  exact ⟨congrFun (congrArg Coord.pid hc) i, congrFun (congrArg Coord.parent hc) i,
    congrFun (congrArg Coord.state hc) i⟩

theorem signExtend_setWidth (w : BitVec 32) : (w.signExtend 64).setWidth 32 = w := by
  apply BitVec.eq_of_getLsbD_eq
  intro k hk
  have hlt : k < 64 := by omega
  rw [BitVec.getLsbD_setWidth, BitVec.getLsbD_signExtend, if_pos hk]
  simp only [hk, hlt, decide_true, Bool.true_and]

theorem msb_signExtend_of_lt {w : BitVec 32} (h : w.toNat < 2 ^ 31) :
    (w.signExtend 64).msb = false := by
  have hmsb : w.msb = false := by
    rw [BitVec.msb_eq_decide]
    simpa using h
  rw [BitVec.signExtend_eq_setWidth_of_msb_false hmsb, BitVec.msb_eq_decide, BitVec.toNat_setWidth,
    Nat.mod_eq_of_lt (by omega)]
  simp only [decide_eq_false_iff_not, not_le]
  omega

/-- Whoever was forked has an old pid. -/
theorem Kin.pid_lt {c : Coord} (h : Kin hs c) (hinv : Coord.Invariant c) {p k : BitVec 32}
    (hf : .forked p k ∈ hs) : k.toNat < c.nextPid := by
  rcases h.present p k hf with hr | ⟨i, hu, rfl, -⟩
  · exact (h.past p k hr).1
  · exact hinv.pid_lt i hu

theorem observed_eq (hst : Steady st.sscratch st) (hinv : Coord.Invariant (coord st))
    (hlim : r.2.nextPid ≤ 2 ^ 31) (hkin : Kin hs (coord st)) (hd : Does L (saveFrame regs st) ls r)
    (hh : Handled L (saveFrame regs st) ls r) :
    observed regs st (resume r.1 r.2) = ls.filter Label.ofFamily := by
  have hcoord := (calm_saveFrame regs st).coord
  have hst' := (calm_saveFrame regs st).steady hst
  have hcause : (saveFrame regs st).scause = regs.scause := by
    rw [KState.scause, ← hst'.frame, frameOf_saveFrame]
  have hframe : (resume r.1 r.2).frameOf st.currentProc = r.2.frameOf st.currentProc := rfl
  have hpid : (saveFrame regs st).current.pid = st.current.pid :=
    congrFun (congrArg Coord.pid hcoord) st.currentProc
  have hpid' : (entered (saveFrame regs st)).current.pid = st.current.pid :=
    (pid_entered regs st st.currentProc).1
  unfold observed
  dsimp only
  rw [hframe]
  cases hh with
  | tick h hls hsw =>
    rw [hcause] at h
    rw [hls.family, if_neg (by rintro h8; rw [h8] at h; cases h), if_pos h]
  | device h hr hls hsw =>
    rw [hcause] at h
    rw [hls.family, if_neg (by rintro h8; rw [h8] at h; cases h), if_pos h]
  | fault h h8 hls hp =>
    rw [hcause] at h h8
    rw [if_neg h8, if_neg (by rw [h]; decide), hpid, List.filter_cons_of_pos rfl, hls.family]
  | call h8 hserved =>
    rw [hcause] at h8
    rw [if_pos h8]
    have h7 := @a7_entered _ regs hst
    cases hserved with
    | forked h hr =>
      have hn : (entered (saveFrame regs st)).nextPid = st.nextPid := rfl
      rw [h7] at h
      rw [hpid', hn] at hd ⊢
      have hkin' := hd.kin (by rw [hcoord]; exact hinv) hlim (by rw [hcoord]; exact hkin)
      have hinv' : Coord.Invariant (coord r.2) :=
        Coord.run_preserves_invariant hd.run hlim (by rw [hcoord]; exact hinv)
      have hlt := hkin'.pid_lt hinv' (p := st.current.pid) (k := BitVec.ofNat 32 st.nextPid)
        (List.mem_append_right _ List.mem_cons_self)
      have hlt' : (coord r.2).nextPid ≤ 2 ^ 31 := hlim
      rw [if_pos h, hr.frame hst, hn, signExtend_setWidth, if_neg]
      · rfl
      · rw [msb_signExtend_of_lt (by omega)]
        decide
    | forkFailed h hr =>
      rw [h7] at h
      have hneg : eAgain.msb = true := by decide
      rw [if_pos h, hr.frame hst, if_pos hneg]
      rfl
    | reaped h i hz hu hr =>
      rw [h7] at h
      obtain ⟨-, hzom⟩ := zombieKid_some hz
      obtain ⟨hp1, -, hp3⟩ := pid_entered regs st i
      rw [hp3] at hzom
      have hlt : (st.processTable i).pid.toNat < st.nextPid :=
        hinv.pid_lt i (by rw [show (coord st).state i = _ from hzom]; decide)
      have hle : st.nextPid ≤ r.2.nextPid := by
        have := hd.run.nextPid_le
        rwa [hcoord] at this
      rw [if_neg (by rw [h]; decide), if_pos h, hr.frame hst, hpid', hp1, signExtend_setWidth,
        if_pos ⟨rfl, msb_signExtend_of_lt (by omega)⟩]
      rfl
    | childless h hk hr =>
      rw [h7] at h
      have hneg : eNoent.msb = true := by decide
      rw [if_neg (by rw [h]; decide), if_pos h, hr.frame hst, if_neg]
      · rfl
      · rintro ⟨-, hpos⟩
        rw [hneg] at hpos
        cases hpos
    | waits h hk hz hb hls =>
      rw [h7] at h
      rw [if_neg (by rw [h]; decide), if_pos h, hb.frame hst, hls.family, if_neg]
      rintro ⟨he, -⟩
      simp at he
    | exits h hls hp =>
      rw [h7] at h
      rw [if_neg (by rw [h]; decide), if_neg (by rw [h]; decide), if_pos h, hpid',
        List.filter_cons_of_pos rfl, hls.family]
    | reads h hr =>
      rw [h7] at h
      rw [if_neg (by rw [h]; decide), if_neg (by rw [h]; decide), if_neg (by rw [h]; decide)]
      cases hr with
      | waits hb fd hfd hz he hr hls => exact hls.family.symm
      | delivers hb fd hfd hz bytes s hd hs hr =>
        symm
        apply List.filter_eq_nil_iff.mpr
        intro l hl
        obtain ⟨b, -, rfl⟩ := List.mem_map.mp hl
        exact Bool.false_ne_true
      | _ => rfl
    | other hf hw he hr =>
      rw [h7] at hf hw he
      rw [if_neg hf, if_neg hw, if_neg he]
      rfl

theorem History.kin (h : History L ram hs st) (hlim : st.nextPid ≤ 2 ^ 31) :
    Kin hs (coord st) := by
  induction h with
  | boot st h =>
    rw [(booted h).2]
    exact kin_first _
  | @store past st st' va b h hs ih =>
    cases hs with
    | store va b pa hpa => exact ih hlim
  | @trap past st st' regs input h hs ih =>
    have hset := reachable_settled h.reachable
    cases hs with
    | trap regs input _ hd ht =>
      obtain ⟨ls, ⟨tf, mid⟩, hdoes, hsteady, hhandled, rfl⟩ :=
        takeTrap_does hset.sound hset.steady ht
      have hcoord := (calm_saveFrame regs st).coord
      have hle : st.nextPid ≤ mid.nextPid := by
        have := hdoes.run.nextPid_le
        rwa [hcoord] at this
      have hlim' : mid.nextPid ≤ 2 ^ 31 := hlim
      have hinv := reachable_invariant h.reachable (hle.trans hlim')
      have hkin := ih (hle.trans hlim')
      rw [observed_eq hset.steady hinv hlim hkin hdoes hhandled, (calm_resume tf mid).coord]
      exact hdoes.kin (by rw [hcoord]; exact hinv) hlim (by rw [hcoord]; exact hkin)

theorem hasKids_iff (st : KState) : hasKids st = true ↔
    ∃ i, (st.processTable i).parentPid = st.current.pid ∧ (st.processTable i).state ≠ .unused := by
  simp only [hasKids, List.any_eq_true, List.mem_finRange, true_and, decide_eq_true_eq]

theorem hasKids_of_kin (hst : Steady st.sscratch st) (hinv : Coord.Invariant (coord st))
    (hkin : Kin hs (coord st)) : hasKids (entered (saveFrame regs st)) = true ↔
      ∃ k, .forked st.current.pid k ∈ hs ∧ .reaped st.current.pid k ∉ hs := by
  have hfields := fun i => pid_entered regs st i
  have hpid : (entered (saveFrame regs st)).current.pid = st.current.pid :=
    (hfields st.currentProc).1
  have hpos : st.current.pid ≠ 0 := by
    have hlt : 0 < st.current.pid.toNat := hinv.pid_pos st.currentProc hst.used
    intro h0
    rw [h0] at hlt
    cases hlt
  rw [hasKids_iff, hpid]
  constructor
  · rintro ⟨i, hp, hu⟩
    rw [(hfields i).2.1] at hp
    rw [(hfields i).2.2] at hu
    have hp' : (coord st).parent i = st.current.pid := hp
    obtain ⟨h1, h2, he, -⟩ := hkin.born i hu (by rw [hp']; exact hpos)
    rw [hp'] at he
    refine ⟨(coord st).pid i, ?_, fun hr => (hkin.past _ _ hr).2 i hu rfl⟩
    rw [he]
    exact List.mem_append_right _ List.mem_cons_self
  · rintro ⟨k, hf, hn⟩
    rcases hkin.present _ _ hf with hr | ⟨i, hu, -, hp⟩
    · exact absurd hr hn
    · refine ⟨i, ?_, ?_⟩
      · rw [(hfields i).2.1]
        exact hp
      · rw [(hfields i).2.2]
        exact hu

structure WaitAnswer (hs : List Label) (regs : TrapFrame) (st st' : KState) : Prop where
  /-- A pid: that of a child which has died and was not waited for before. -/
  child : (st'.frameOf st.currentProc).sepc = regs.sepc + 4 →
    (st'.frameOf st.currentProc).a0.msb = false →
    ∃ i k, (st'.frameOf st.currentProc).a0 = k.signExtend 64 ∧ (st.processTable i).pid = k ∧
      (st'.processTable i).state = .unused ∧ (∀ q, .reaped q k ∉ hs) ∧
      ∃ h1 h2, hs = h1 ++ .forked st.current.pid k :: h2 ∧ .died k ∈ h2
  /-- `E_NOENT`: exactly when no child is left. -/
  none : (st'.frameOf st.currentProc).sepc = regs.sepc + 4 ∧
      (st'.frameOf st.currentProc).a0 = eNoent ↔
    ∀ k, .forked st.current.pid k ∈ hs → .reaped st.current.pid k ∈ hs

theorem served_call (hset : Settled L st) (hs : Step L st (.trap regs input) st')
    (h8 : regs.scause = 8) :
    ∃ ls r, Served L (entered (saveFrame regs st)) ls r ∧ st' = resume r.1 r.2 := by
  have hst := hset.steady
  cases hs with
  | trap _ _ _ hd ht =>
    obtain ⟨ls, r, hdoes, hsteady, hhandled, rfl⟩ := takeTrap_does hset.sound hst ht
    have hcause : (saveFrame regs st).scause = 8 := by
      rw [KState.scause, ← ((calm_saveFrame regs st).steady hst).frame, frameOf_saveFrame]
      exact h8
    cases hhandled with
    | call _ hs => exact ⟨ls, r, hs, rfl⟩
    | tick hm hls hsw =>
      rw [hcause] at hm
      cases hm
    | device hm hr hls hsw =>
      rw [hcause] at hm
      cases hm
    | fault hm h8' hls hp => exact absurd hcause h8'

/-- Every forked child has been reaped just when the scan of the table finds none. -/
theorem hasKids_false (hst : Steady st.sscratch st) (hinv : Coord.Invariant (coord st))
    (hkin : Kin hs (coord st)) : hasKids (entered (saveFrame regs st)) = false ↔
      ∀ k, .forked st.current.pid k ∈ hs → .reaped st.current.pid k ∈ hs := by
  rw [← Bool.not_eq_true, hasKids_of_kin hst hinv hkin]
  constructor
  · intro h k hf
    by_contra hn
    exact h ⟨k, hf, hn⟩
  · rintro h ⟨k, hf, hn⟩
    exact hn (h k hf)

theorem waitAnswer_reaped {i : Slot} (hst : Steady st.sscratch st)
    (hinv : Coord.Invariant (coord st)) (hlim : st.nextPid ≤ 2 ^ 31) (hkin : Kin hs (coord st))
    (hz : zombieKid (entered (saveFrame regs st)) = some i)
    (hu : (r.2.processTable i).state = .unused)
    (hr : Returns (entered (saveFrame regs st))
      (((entered (saveFrame regs st)).processTable i).pid.signExtend 64) r) :
    WaitAnswer hs regs st (resume r.1 r.2) := by
  obtain ⟨hpar, hzom⟩ := zombieKid_some hz
  obtain ⟨hp1, hp2, hp3⟩ := pid_entered regs st i
  have hpid : (entered (saveFrame regs st)).current.pid = st.current.pid :=
    (pid_entered regs st st.currentProc).1
  have hpar' : (coord st).parent i = st.current.pid := by
    rw [← hpid, ← hpar]
    exact hp2.symm
  have hzom' : (coord st).state i = .zombie := hp3.symm.trans hzom
  have hused : (coord st).state i ≠ .unused := by
    rw [hzom']
    decide
  have ha : (resume r.1 r.2).frameOf st.currentProc = _ := hr.frame hst
  rw [hp1] at ha
  constructor
  · intro _ _
    have hpos : (coord st).parent i ≠ 0 := by
      rw [hpar']
      intro h0
      have hlt : 0 < st.current.pid.toNat := hinv.pid_pos st.currentProc hst.used
      rw [h0] at hlt
      cases hlt
    obtain ⟨h1, h2, he, hdied⟩ := hkin.born i hused hpos
    rw [hpar'] at he
    refine ⟨i, (st.processTable i).pid, ?_, rfl, hu, fun q hq => ?_, h1, h2, he, hdied hzom'⟩
    · rw [ha]
    · exact (hkin.past q _ hq).2 i hused rfl
  · have hkid : hasKids (entered (saveFrame regs st)) = true := by
      apply (hasKids_iff _).mpr
      refine ⟨i, hpar, ?_⟩
      rw [hp3]
      exact hused
    rw [← @hasKids_false _ regs _ hst hinv hkin, hkid, ha]
    constructor
    · rintro ⟨-, he⟩
      have hlt : (st.processTable i).pid.toNat < st.nextPid := hinv.pid_lt i hused
      have hmsb := msb_signExtend_of_lt (w := (st.processTable i).pid) (by omega)
      have hneg : eNoent.msb = true := by decide
      dsimp only at he
      rw [he, hneg] at hmsb
      cases hmsb
    · intro he
      cases he

theorem waitAnswer_childless (hst : Steady st.sscratch st) (hinv : Coord.Invariant (coord st))
    (hkin : Kin hs (coord st)) (hk : hasKids (entered (saveFrame regs st)) = false)
    (hr : Returns (entered (saveFrame regs st)) eNoent r) :
    WaitAnswer hs regs st (resume r.1 r.2) := by
  have ha : (resume r.1 r.2).frameOf st.currentProc = _ := hr.frame hst
  constructor
  · intro _ hm
    have hneg : eNoent.msb = true := by decide
    rw [ha] at hm
    dsimp only at hm
    rw [hneg] at hm
    cases hm
  · rw [← @hasKids_false _ regs _ hst hinv hkin, hk, ha]
    exact ⟨fun _ => rfl, fun _ => ⟨rfl, rfl⟩⟩

theorem waitAnswer_waits (hst : Steady st.sscratch st) (hinv : Coord.Invariant (coord st))
    (hkin : Kin hs (coord st)) (hk : hasKids (entered (saveFrame regs st)) = true)
    (hb : Blocked (entered (saveFrame regs st)) r) : WaitAnswer hs regs st (resume r.1 r.2) := by
  have ha : (resume r.1 r.2).frameOf st.currentProc = _ := hb.frame hst
  have hret : ¬ ((resume r.1 r.2).frameOf st.currentProc).sepc = regs.sepc + 4 := by
    rw [ha]
    simp
  constructor
  · intro hs
    exact absurd hs hret
  · rw [← @hasKids_false _ regs _ hst hinv hkin, hk]
    constructor
    · rintro ⟨hs, -⟩
      exact absurd hs hret
    · intro he
      cases he

end Histories

end Lazux

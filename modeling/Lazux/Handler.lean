import Lazux.Reads

/-! # What the handler of a trap does

Every system call, fault and interrupt as a sequence of actions, with its answer. -/
namespace Lazux

open PagedMemory RadixForest Run Trace

/-- The call comes back to its caller with `w` in `a0`. -/
def Returns (st : KState) (w : Word) (r : Slot × KState) : Prop :=
  r.1 = st.currentProc ∧ r.2.currentProc = st.currentProc ∧
    r.2.frameOf st.currentProc = { st.frameOf st.currentProc with a0 := w }

def KState.a7 (st : KState) : Word := (st.frameOf st.currentProc).a7

def BufferOk (st : KState) : Prop :=
  userRangeOk st.phys.mem (st.rootOf st.currentProc) (st.frameOf st.currentProc).a1
    (((st.frameOf st.currentProc).a2.setWidth 32).setWidth 64) pteW = true

def KState.readSize (st : KState) : BitVec 32 := (st.frameOf st.currentProc).a2.setWidth 32

/-- The descriptor of a read names an open file of this type. -/
def ReadsFrom (st : KState) (fd : Fin 16) (type : FileType) : Prop :=
  fdOf (st.frameOf st.currentProc).a0 = some fd ∧ (st.current.openFiles fd).type = type

/-- What `SYS_READ` can do. -/
inductive ReadCall (L : Layout) (st : KState) : List Label → Slot × KState → Prop where
  | badBuffer {r} (hb : ¬ BufferOk st) (hr : Returns st eFault r) : ReadCall L st [] r
  | badFd {r} (hb : BufferOk st) (hfd : ∀ fd type, type ≠ .none → ¬ ReadsFrom st fd type)
      (hr : Returns st eBadf r) : ReadCall L st [] r
  | nothing {r} (hb : BufferOk st) (fd : Fin 16) (hfd : ReadsFrom st fd .console)
      (hz : st.readSize = 0) (hr : Returns st 0 r) : ReadCall L st [] r
  | waits {r ls} (hb : BufferOk st) (fd : Fin 16) (hfd : ReadsFrom st fd .console)
      (hz : st.readSize ≠ 0) (he : (uartGetc st.uart).1 = none) (hr : Blocked st r)
      (hls : Passes ls r.1) : ReadCall L st ls r
  | delivers {r} (hb : BufferOk st) (fd : Fin 16) (hfd : ReadsFrom st fd .console)
      (hz : st.readSize ≠ 0) (bytes : List Byte) (s : KState)
      (hd : Delivery L st (st.frameOf st.currentProc).a1 st.readSize.toNat bytes s)
      (hs : r.2 = s.setA0 st.currentProc (BitVec.ofNat 64 bytes.length))
      (hr : Returns st (BitVec.ofNat 64 bytes.length) r) : ReadCall L st (bytes.map .taken) r
  | file {r} (hb : BufferOk st) (fd : Fin 16) (hfd : ReadsFrom st fd .ramdisk) :
      ReadCall L st [] r

/-- What a system call does, by its number. -/
inductive Served (L : Layout) (st : KState) : List Label → Slot × KState → Prop where
  | forked {r} (h : st.a7 = sysFork)
      (hr : Returns st ((BitVec.ofNat 32 st.nextPid).signExtend 64) r) :
      Served L st [.forked st.current.pid (BitVec.ofNat 32 st.nextPid)] r
  | forkFailed {r} (h : st.a7 = sysFork) (hr : Returns st eAgain r) : Served L st [] r
  | reaped {r} (h : st.a7 = sysWait) (i : Slot) (hz : zombieKid st = some i)
      (hu : (r.2.processTable i).state = .unused)
      (hr : Returns st ((st.processTable i).pid.signExtend 64) r) :
      Served L st [.reaped st.current.pid (st.processTable i).pid] r
  | childless {r} (h : st.a7 = sysWait) (hk : hasKids st = false) (hr : Returns st eNoent r) :
      Served L st [] r
  | waits {r ls} (h : st.a7 = sysWait) (hk : hasKids st = true) (hz : zombieKid st = none)
      (hb : Blocked st r) (hls : Passes ls r.1) : Served L st ls r
  | exits {r ls} (h : st.a7 = sysExit) (hls : Passes ls r.1) (hp : r.2.phys = st.phys) :
      Served L st (.died st.current.pid :: ls) r
  | reads {r ls} (h : st.a7 = sysRead) (hr : ReadCall L st ls r) : Served L st ls r
  | other {r} (hf : st.a7 ≠ sysFork) (hw : st.a7 ≠ sysWait) (he : st.a7 ≠ sysExit)
      (hr : st.a7 ≠ sysRead) : Served L st [] r

variable {L : Layout} {st st' mid : KState} {tf : Slot} {r : Slot × KState} {ls : List Label}
  {input : Input} {idle : List Wakeup}

section Answers

theorem returns_answer (hst : Steady tf st) (hc : mid.currentProc = st.currentProc)
    (hf : mid.frameOf st.currentProc = st.frameOf st.currentProc) (w : Word) :
    Returns st w (tf, mid.setA0 tf w) := by
  refine ⟨hst.frame, hc, ?_⟩
  rw [← hf, hst.frame]
  simp [KState.setA0, KState.setFrame, KState.frameOf]

theorem does_stay (h : Acts L st ls mid) (hst : Steady tf mid) : Does L st ls (tf, mid) := by
  have hframe : tf = st.currentProc := hst.frame.trans h.currentProc
  rw [hframe]
  exact .stays h

/-- An answer is an action of the running process. -/
theorem does_setA0 (h : Acts L st ls mid) (hst : Steady tf mid) (w : Word) :
    Does L st ls (tf, mid.setA0 tf w) ∧ Steady tf (mid.setA0 tf w) := by
  have hframe := hst.frame
  subst hframe
  have hact := h.tail (Act.regs hst (fun f => { f with a0 := w }) fun _ => ⟨rfl, rfl⟩)
  rw [List.append_nil] at hact
  have hsteady := (calm_setA0 mid mid.currentProc w).steady hst
  exact ⟨does_stay hact hsteady, hsteady⟩

theorem does_answer (h : Acts L st ls mid) (hst : Steady tf mid) (w : Word) :
    Ensures (mid.answer tf w) fun r => Does L st ls r ∧ Steady r.1 r.2 ∧
      r = (tf, mid.setA0 tf w) := by
  rintro ⟨tf', s⟩ ha
  obtain ⟨rfl, rfl⟩ := answer_result ha
  obtain ⟨hdoes, hsteady⟩ := does_setA0 h hst w
  exact ⟨hdoes, hsteady, rfl⟩

end Answers

section Calls

theorem returns_forked {child : Slot} {phys : Phys} (hst : Steady tf st)
    (ha : AllocProc L st (some child) mid) (hne : child ≠ st.currentProc) :
    Returns st ((BitVec.ofNat 32 st.nextPid).signExtend 64) (tf, forked st mid child phys) := by
  obtain ⟨-, hcur, hother⟩ := ha.of_some
  have hpid : (mid.processTable child).pid = BitVec.ofNat 32 st.nextPid := by
    cases ha with
    | created => simp
  refine ⟨hst.frame, hcur, ?_⟩
  rw [KState.frameOf, forked, modifyProc_of_ne _ hne.symm, hpid]
  simp [KState.setA0, KState.setFrame, hother _ hne.symm, KState.frameOf]

theorem does_fork (hst : Steady tf st) (h7 : st.a7 = sysFork) :
    Ensures (sysForkCall L tf st) fun r => ∃ ls, Does L st ls r ∧ Steady r.1 r.2 ∧
      Served L st ls r := by
  rintro ⟨tf', s⟩ h
  obtain ⟨rfl, hcall⟩ := sysForkCall_result hst.frame hst.running h
  have hst' : Steady st.currentProc st := hst.frame ▸ hst
  cases hcall with
  | failed mid ha =>
    have hmid := steady_allocProc_none ha hst
    obtain ⟨hacts, hsteady⟩ := does_setA0 (Path.single (Act.forkFailed hst' mid ha)) hmid eAgain
    rw [hst.frame] at hacts
    have hframe : mid.currentProc = st.currentProc ∧
        mid.frameOf st.currentProc = st.frameOf st.currentProc := by
      have hne : ∀ i, (st.processTable i).state = .unused → st.currentProc ≠ i := by
        rintro i hu rfl
        exact hst.used hu
      cases ha with
      | full hu => exact ⟨rfl, rfl⟩
      | noRoot i hu ha =>
        exact ⟨rfl, congrArg Process.trapFrame (modifyProc_of_ne _ (hne i hu) _)⟩
      | noStack i hu root p1 p2 ha hk hs =>
        exact ⟨rfl, congrArg Process.trapFrame (modifyProc_of_ne _ (hne i hu) _)⟩
    have hret := returns_answer hst hframe.1 hframe.2 eAgain
    rw [hst.frame] at hret hsteady ⊢
    exact ⟨[], hacts, hsteady, .forkFailed h7 hret⟩
  | forked child mid phys ha hne hc =>
    have hsteady := @steady_forked _ _ _ _ _ phys hst ha hne
    exact ⟨_, does_stay (Path.single (Act.fork hst' child mid phys ha hne hc)) hsteady,
      hsteady, .forked h7 (returns_forked hst ha hne)⟩

theorem does_exec (hst : Steady tf st) :
    Ensures (sysExecCall L tf st) fun r => Does L st [] r ∧ Steady r.1 r.2 := by
  rintro ⟨tf', s⟩ h
  obtain ⟨rfl, hcall⟩ := sysExecCall_result h
  have hframe := hst.frame
  subst hframe
  have hsteady := (hcall.control hst).2
  exact ⟨does_stay (Path.single (.exec hst s hcall)) hsteady, hsteady⟩

theorem pending_wait (hz : zombieKid st = none) (hk : hasKids st = true) :
    (coord st).Pending (.pcb st.currentProc) := by
  refine ⟨rfl, ?_, fun j hj hp => ?_⟩
  · simp only [hasKids, List.any_eq_true, decide_eq_true_eq] at hk
    obtain ⟨j, -, hp, hu⟩ := hk
    exact ⟨j, hu, hp⟩
  · have := List.find?_eq_none.mp hz j (List.mem_finRange j)
    simp only [decide_eq_true_eq, not_and] at this
    exact this hp hj

theorem pending_read (he : (uartGetc st.uart).1 = none) : (coord st).Pending .uartRx := by
  unfold uartGetc at he
  split_ifs at he with hr
  exact decide_eq_false (not_not.mpr hr)

theorem does_wait (hst : Steady tf st) (h7 : st.a7 = sysWait) :
    Ensures (sysWaitCall input tf st) fun r => ∃ ls, Does L st ls r ∧ Steady r.1 r.2 ∧
      Served L st ls r := by
  have hst' : Steady st.currentProc st := hst.frame ▸ hst
  unfold sysWaitCall
  cases hz : zombieKid st with
  | some i =>
    obtain ⟨hpar, hzom⟩ := zombieKid_some hz
    have hne : st.currentProc ≠ i := by
      rintro rfl
      have := hst.running
      rw [KState.current, hzom] at this
      cases this
    have hsame := @freeProc_of_ne st _ _ hne
    have hfields := freeProc_fields st i
    have hsteady : Steady tf (freeProc st i) := hst.congr hfields.1 hfields.2
      (congrArg Process.state hsame) (congrArg Process.pageTable hsame)
    have hunused : ((freeProc st i).processTable i).state = .unused := by
      have := congrFun (congrArg Coord.state (coord_freeProc hzom)) i
      simpa [coord, Coord.setState] using this
    refine (does_answer (L := L) (Path.single (Act.reap hst' i hzom hpar)) hsteady _).mono ?_
    rintro r ⟨hacts, hs, rfl⟩
    refine ⟨_, hacts, hs, .reaped h7 i hz ?_ ?_⟩
    · rw [KState.setA0, KState.setFrame, hst.frame, modifyProc_of_ne _ hne.symm]
      exact hunused
    · exact returns_answer hst hfields.1 (congrArg Process.trapFrame hsame) _
  | none =>
    dsimp only
    split_ifs with hk
    · refine (does_answer (L := L) (.refl st) hst _).mono ?_
      rintro r ⟨hacts, hs, rfl⟩
      exact ⟨[], hacts, hs, .childless h7 (by simpa using hk) (returns_answer hst rfl rfl _)⟩
    · have hframe := hst.frame
      subst hframe
      have hkids : hasKids st = true := by simpa using hk
      have hpending := pending_wait hz hkids
      refine (acts_sleep (L := L) hst hpending).mono ?_
      rintro r ⟨ls, hacts, hheard, hs, hblocked⟩
      exact ⟨ls, hacts, hs, .waits h7 hkids hz hblocked hheard⟩

theorem does_sbrk (hst : Steady tf st) :
    Ensures (sysSbrkCall tf st) fun r => Does L st [] r ∧ Steady r.1 r.2 := by
  rintro ⟨tf', s⟩ h
  have hst' : Steady st.currentProc st := hst.frame ▸ hst
  obtain ⟨rfl, rfl | rfl | rfl | ⟨ok, phys, hg, rfl⟩⟩ := sysSbrkCall_result h
  · exact does_setA0 (.refl st) hst _
  · exact does_setA0 (.refl st) hst _
  · exact does_setA0 (.refl st) hst _
  · have hgrow : Steady tf' (grown st (st.frameOf tf').a0 ok phys) := by
      cases ok with
      | false => exact hst.congr rfl rfl rfl rfl
      | true =>
        refine hst.congr rfl rfl ?_ ?_
        · simp [grown, KState.modifyProc, KState.current]
        · simp [grown, KState.modifyProc, KState.current]
    exact does_setA0 (Path.single (Act.grow hst' _ ok phys hg)) hgrow _

theorem does_open (hst : Steady tf st) :
    Ensures (sysOpenCall L tf st) fun r => Does L st [] r ∧ Steady r.1 r.2 := by
  have hst' : Steady st.currentProc st := hst.frame ▸ hst
  have plain : ∀ w, Ensures (st.answer tf w) fun r => Does L st [] r ∧ Steady r.1 r.2 :=
    fun w => (does_answer (.refl st) hst w).mono fun r h => ⟨h.1, h.2.1⟩
  unfold sysOpenCall
  dsimp only
  refine Ensures.of_bind fun ok _ => ?_
  split
  · exact plain _
  split
  · exact plain _
  · rename_i fd _
    refine Ensures.of_bind fun entry _ => ?_
    split
    · exact plain _
    · exact (does_answer (Path.single (Act.file hst' fd _))
        ((calm_setFile st fd _).steady hst) _).mono fun r h => ⟨h.1, h.2.1⟩

theorem does_close (hst : Steady tf st) :
    Ensures (sysCloseCall tf st) fun r => Does L st [] r ∧ Steady r.1 r.2 := by
  have hst' : Steady st.currentProc st := hst.frame ▸ hst
  have plain : ∀ w, Ensures (st.answer tf w) fun r => Does L st [] r ∧ Steady r.1 r.2 :=
    fun w => (does_answer (.refl st) hst w).mono fun r h => ⟨h.1, h.2.1⟩
  unfold sysCloseCall
  split
  · exact plain _
  · rename_i fd _
    split_ifs
    · exact plain _
    · exact (does_answer (Path.single (Act.file hst' fd _))
        ((calm_setFile st fd _).steady hst) _).mono fun r h => ⟨h.1, h.2.1⟩

theorem acts_console (h : Acts L st ls mid) (c : List Byte) :
    Acts L st ls { mid with console := c } := by
  have := h.tail (.console c)
  rwa [List.append_nil] at this

theorem acts_consoleWrite (buffer : Addr) (more n : ℕ) (h : Acts L st [] mid) :
    Ensures (consoleWrite buffer more n mid) (Acts L st []) := by
  induction more generalizing n mid with
  | zero => exact ensures_ok.mpr h
  | succ more ih => exact Ensures.of_bind fun b _ => ih (n + 1) (acts_console h _)

theorem does_write (hst : Steady tf st) :
    Ensures (sysWriteCall tf st) fun r => Does L st [] r ∧ Steady r.1 r.2 := by
  have plain : ∀ w, Ensures (st.answer tf w) fun r => Does L st [] r ∧ Steady r.1 r.2 :=
    fun w => (does_answer (.refl st) hst w).mono fun r h => ⟨h.1, h.2.1⟩
  unfold sysWriteCall
  dsimp only
  split_ifs
  · exact plain _
  split
  · exact plain _
  split
  · exact plain _
  · intro r h
    obtain ⟨s, hs, h⟩ := bind_eq_ok.mp h
    have hacts := acts_consoleWrite (L := L) _ _ 0 (.refl st) s hs
    have hcalm := calm_consoleWrite _ _ 0 st s hs
    obtain ⟨h1, h2, -⟩ := does_answer hacts (hcalm.steady hst) _ r h
    exact ⟨h1, h2⟩
  · exact plain _

theorem does_read (hs : Sound L st) (hst : Steady tf st) :
    Ensures (sysReadCall input tf st) fun r => ∃ ls, Does L st ls r ∧ Steady r.1 r.2 ∧
      ReadCall L st ls r := by
  have hframe := hst.frame
  subst hframe
  have plain : ∀ w, (∀ r, Returns st w r → ReadCall L st [] r) →
      Ensures (st.answer st.currentProc w) fun r => ∃ ls, Does L st ls r ∧ Steady r.1 r.2 ∧
        ReadCall L st ls r := by
    intro w hw
    refine (does_answer (L := L) (.refl st) hst w).mono ?_
    rintro r ⟨hacts, hsteady, rfl⟩
    exact ⟨[], hacts, hsteady, hw _ (returns_answer hst rfl rfl w)⟩
  unfold sysReadCall
  dsimp only
  split
  · rename_i hbad
    exact plain _ fun r hr => .badBuffer (by simpa [BufferOk] using hbad) hr
  rename_i hgood
  have hb : BufferOk st := by simpa [BufferOk] using hgood
  have hok : userRangeOk st.phys.mem st.satp (st.frameOf st.currentProc).a1
      (st.readSize.setWidth 64) pteW = true := by
    rw [hst.satp]
    exact hb
  split
  · rename_i hfd
    refine plain _ fun r hr => .badFd hb ?_ hr
    rintro fd type - ⟨h, -⟩
    rw [hfd] at h
    cases h
  rename_i fd hfd
  split
  · rename_i hnone
    refine plain _ fun r hr => .badFd hb ?_ hr
    rintro fd' type htype ⟨h, ht⟩
    rw [hfd, Option.some.injEq] at h
    subst h
    exact htype (ht.symm.trans hnone)
  · -- the console
    rename_i hcons
    have hreads : ReadsFrom st fd .console := ⟨hfd, hcons⟩
    split
    · rename_i hzero
      exact plain _ fun r hr => .nothing hb fd hreads hzero hr
    rename_i hsize
    split
    · rename_i u hget
      have hpending := @pending_read st (by rw [hget])
      refine (acts_sleep (L := L) hst hpending).mono ?_
      rintro r ⟨ls, hacts, hheard, hs', hblocked⟩
      exact ⟨ls, hacts, hs', .waits hb fd hreads hsize (by rw [hget]) hblocked hheard⟩
    · rename_i c uart hget
      refine delivery_read hs hst hok hsize hget fun bytes s' hd => ?_
      have hc := hd.reading.copying
      have hsteady : Steady st.currentProc s' := hc.currentProc ▸ hc.steady hst
      refine (does_answer hd.reading.acts hsteady _).mono ?_
      rintro r ⟨hacts, hs', rfl⟩
      refine ⟨_, hacts, hs', .delivers hb fd hreads hsize bytes s' hd rfl ?_⟩
      refine returns_answer hst hc.currentProc ?_ _
      rw [KState.frameOf, hc.processTable]
      rfl
  · -- a file
    rename_i hfile
    have hreads : ReadsFrom st fd .ramdisk := ⟨hfd, hfile⟩
    split
    · exact plain _ fun r hr => .file hb fd hreads
    · have hsize :
        (if st.readSize > (st.current.openFiles fd).size - (st.current.openFiles fd).offset
          then (st.current.openFiles fd).size - (st.current.openFiles fd).offset
          else st.readSize).toNat ≤ st.readSize.toNat := by
        split
        · rename_i hlt
          exact (BitVec.lt_def.mp hlt).le
        · exact le_rfl
      refine (acts_copyOut _ 0 hs hst hok (by rw [Nat.zero_add]; exact hsize) (.start _)
        (.refl st)).bind fun s hcopy => ?_
      obtain ⟨hacts, hc⟩ := hcopy
      have hsteady := hc.steady hst
      have hfile' := hacts.tail (Act.file hsteady fd
        { st.current.openFiles fd with offset := (st.current.openFiles fd).offset +
          if st.readSize > (st.current.openFiles fd).size - (st.current.openFiles fd).offset
          then (st.current.openFiles fd).size - (st.current.openFiles fd).offset
          else st.readSize })
      have hsteady' := (calm_setFile s fd
        { st.current.openFiles fd with offset := (st.current.openFiles fd).offset +
          if st.readSize > (st.current.openFiles fd).size - (st.current.openFiles fd).offset
          then (st.current.openFiles fd).size - (st.current.openFiles fd).offset
          else st.readSize }).steady hsteady
      rw [hc.currentProc] at hsteady'
      refine (does_answer hfile' hsteady' _).mono ?_
      rintro r ⟨hacts', hs', -⟩
      exact ⟨_, hacts', hs', .file hb fd hreads⟩

end Calls

section Dispatch

theorem does_syscall (hs : Sound L st) (hst : Steady tf st) :
    Ensures (syscall L input tf st) fun r => ∃ ls, Does L st ls r ∧ Steady r.1 r.2 ∧
      Served L st ls r := by
  have h7 : (st.frameOf tf).a7 = st.a7 := by rw [KState.a7, hst.frame]
  have hst' : Steady st.currentProc st := hst.frame ▸ hst
  have other : ∀ {x : Outcome}, st.a7 ≠ sysFork → st.a7 ≠ sysWait → st.a7 ≠ sysExit →
      st.a7 ≠ sysRead → (Ensures x fun r => Does L st [] r ∧ Steady r.1 r.2) →
      Ensures x fun r => ∃ ls, Does L st ls r ∧ Steady r.1 r.2 ∧ Served L st ls r := by
    intro x h1 h2 h3 h4 hx
    exact hx.mono fun r hr => ⟨[], hr.1, hr.2, .other h1 h2 h3 h4⟩
  unfold syscall
  dsimp only
  rw [h7]
  split
  · rename_i h
    rw [h] at other
    refine other (by decide) (by decide) (by decide) (by decide) ?_
    have hacts : Acts L st [] (st.putchar ((st.frameOf tf).a0.setWidth 8)) :=
      acts_console (.refl st) _
    exact (does_answer hacts (hst.congr rfl rfl rfl rfl) 0).mono fun r hr => ⟨hr.1, hr.2.1⟩
  split
  · rename_i h
    refine (acts_exitCurrent (L := L) hst).mono ?_
    rintro r ⟨ls, hacts, hheard, hs', hp⟩
    exact ⟨_, hacts, hs', .exits h hheard hp⟩
  split
  · rename_i h
    exact does_fork hst h
  split
  · rename_i h
    rw [h] at other
    exact other (by decide) (by decide) (by decide) (by decide) (does_exec hst)
  split
  · rename_i h
    exact does_wait hst h
  split
  · rename_i h
    rw [h] at other
    exact other (by decide) (by decide) (by decide) (by decide) (does_sbrk hst)
  split
  · rename_i h
    rw [h] at other
    exact other (by decide) (by decide) (by decide) (by decide) (does_open hst)
  split
  · rename_i h
    refine (does_read (L := L) hs hst).mono ?_
    rintro r ⟨ls, hacts, hs', hread⟩
    exact ⟨ls, hacts, hs', .reads h hread⟩
  split
  · rename_i h
    rw [h] at other
    exact other (by decide) (by decide) (by decide) (by decide) (does_write hst)
  split
  · rename_i h
    rw [h] at other
    exact other (by decide) (by decide) (by decide) (by decide) (does_close hst)
  · exact ensures_error

/-- The state in which a system call starts: past the `ecall`, with user memory open. -/
def entered (st : KState) : KState :=
  { st.setFrame st.currentProc fun f => { f with sepc := f.sepc + 4 } with
    sstatus := st.sstatus ||| 0x40000 }

theorem calm_entered (st : KState) : Calm st (entered st) :=
  (calm_setFrame st st.currentProc fun f => { f with sepc := f.sepc + 4 }).trans
    (calm_fields _ st.phys (st.sstatus ||| 0x40000) st.sscratch st.console)

theorem acts_entered (hst : Steady st.currentProc st) : Acts L st [] (entered st) := by
  have hregs := Act.regs (L := L) hst (fun f => { f with sepc := f.sepc + 4 }) fun _ => ⟨rfl, rfl⟩
  exact (Path.single hregs).tail (.status (st.sstatus ||| 0x40000))

def KState.scause (st : KState) : Word := (st.frameOf st.currentProc).scause

theorem trapHandler_call (hst : Steady tf st) (h8 : st.scause = 8)
    (hu : fromSupervisor (st.frameOf tf) = false) :
    trapHandler L input tf st = syscall L input tf (entered st) := by
  have hframe := hst.frame
  subst hframe
  have h8 : (st.frameOf st.currentProc).scause = 8 := h8
  unfold trapHandler
  dsimp only
  rw [h8, if_neg (by decide), if_neg (by rw [hu]; decide), if_pos rfl]
  rfl

/-- What the handler does, by the cause of the trap. -/
inductive Handled (L : Layout) (st : KState) : List Label → Slot × KState → Prop where
  | tick {ls : List Label} {r : Slot × KState} (h : st.scause.msb = true) (hls : Passes ls r.1)
      (hsw : Switched st r) : Handled L st ls r
  | device {ls : List Label} {r : Slot × KState} (h : st.scause.msb = true)
      (hr : r.1 = st.currentProc) (hls : Heard ls) (hsw : Switched st r) : Handled L st ls r
  | call {ls : List Label} {r : Slot × KState} (h : st.scause = 8)
      (hs : Served L (entered st) ls r) : Handled L st ls r
  | fault {ls : List Label} {r : Slot × KState} (h : st.scause.msb = false) (h8 : st.scause ≠ 8)
      (hls : Passes ls r.1) (hp : r.2.phys = st.phys) : Handled L st (.died st.current.pid :: ls) r

theorem reportFault_eq (st : KState) (headline : String) (f : TrapFrame) :
    ∃ c, reportFault st headline f = { st with console := c } := by
  have hc : ∀ (s : KState) (x : String), ∃ c, s.puts x = { s with console := c } :=
    fun s x => ⟨_, rfl⟩
  have hx : ∀ (s : KState) (x : Word), ∃ c, s.puthex x = { s with console := c } :=
    fun s x => ⟨_, rfl⟩
  unfold reportFault
  dsimp only
  obtain ⟨c1, h1⟩ := hc st headline
  obtain ⟨c2, h2⟩ := hc { st with console := c1 } "  scause=0x"
  obtain ⟨c3, h3⟩ := hx { st with console := c2 } f.scause
  obtain ⟨c4, h4⟩ := hc { st with console := c3 } "\n  sepc  =0x"
  obtain ⟨c5, h5⟩ := hx { st with console := c4 } f.sepc
  obtain ⟨c6, h6⟩ := hc { st with console := c5 } "\n  stval =0x"
  obtain ⟨c7, h7⟩ := hx { st with console := c6 } f.stval
  obtain ⟨c8, h8⟩ := hc { st with console := c7 } "\n"
  exact ⟨c8, by rw [h1, h2, h3, h4, h5, h6, h7, h8]⟩

theorem acts_reportFault (st : KState) (headline : String) (f : TrapFrame) :
    Acts L st [] (reportFault st headline f) ∧ (reportFault st headline f).phys = st.phys ∧
      (reportFault st headline f).current.pid = st.current.pid := by
  obtain ⟨c, he⟩ := reportFault_eq st headline f
  rw [he]
  exact ⟨acts_console (.refl st) c, rfl, rfl⟩

/-- Every trap from a user program is a sequence of actions. -/
theorem does_trapHandler (hs : Sound L st) (hst : Steady tf st)
    (hu : fromSupervisor (st.frameOf tf) = false) :
    Ensures (trapHandler L input tf st) fun r => ∃ ls, Does L st ls r ∧ Steady r.1 r.2 ∧
      Handled L st ls r := by
  have hframe := hst.frame
  subst hframe
  unfold trapHandler
  dsimp only
  split
  · rename_i hmsb
    split
    · refine (acts_schedule (L := L) rfl (Or.inl hst)).mono ?_
      rintro r ⟨ls, hacts, hheard, hs', hsw⟩
      exact ⟨ls, hacts, hs', .tick hmsb hheard hsw⟩
    split
    · refine Ensures.of_bind fun s h => ensures_pure.mpr ?_
      have hp := plicDispatch_result h
      have hid : Idles st s := .single hp
      obtain ⟨ls, hacts, hheard⟩ := acts_idles (L := L) hid
      have hsteady := steady_plicDispatch hp hst
      exact ⟨ls, does_stay hacts hsteady, hsteady,
        .device hmsb rfl hheard (switched_idles hid rfl)⟩
    · exact ensures_error
  rename_i hmsb
  rw [if_neg (by rw [hu]; decide)]
  split
  · rename_i h8
    have hacts := acts_entered (L := L) hst
    refine (does_syscall (hacts.sound hs) ((calm_entered st).steady hst)).mono ?_
    rintro r ⟨ls, h1, h2, h3⟩
    exact ⟨ls, Acts.does hacts h1, h2, .call h8 h3⟩
  · rename_i h8
    obtain ⟨hacts, hphys, hpid⟩ := acts_reportFault (L := L) st "\n[TRAP] U-mode fault (kill)\n"
      (st.frameOf st.currentProc)
    have hc := calm_reportFault st "\n[TRAP] U-mode fault (kill)\n" (st.frameOf st.currentProc)
    refine (acts_exitCurrent (L := L) (hc.steady hst)).mono ?_
    rintro r ⟨ls, h1, h2, h3, h4⟩
    rw [hpid] at h1
    exact ⟨_, Acts.does hacts h1, h3,
      .fault (by simpa [KState.scause] using hmsb) h8 h2 (h4.trans hphys)⟩

end Dispatch

end Lazux

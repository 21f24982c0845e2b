import Lazux.Runs

/-! # What a trap changes in memory and process table

Most calls touch user pages, saved registers and states only. The others are told apart, each
with what it does. -/
namespace Lazux

open PagedMemory RadixForest Run Trace

variable {L : Layout} {st st' st'' mid : KState} {tf i j : Slot} {input : Input}
  {idle : List Wakeup} {regs : TrapFrame}

section Plain

/-- No table and no bitmap changes, and of the process table only saved registers, states and
channels. -/
structure Plain (st st' : KState) : Prop where
  writes : UserWrites (trees st) st.phys st'.phys
  used : ∀ i, (st'.processTable i).state = .unused ↔ (st.processTable i).state = .unused
  process : ∀ i, ∃ f s c, st'.processTable i =
    { st.processTable i with trapFrame := f, state := s, chan := c }

theorem Plain.benign (h : Plain st st') : Benign st st' := by
  refine ⟨h.used, fun i _ => ?_, fun i _ => ?_, fun i => ?_, h.writes⟩
  · obtain ⟨f, s, c, hp⟩ := h.process i
    rw [hp]
  · obtain ⟨f, s, c, hp⟩ := h.process i
    rw [hp]
  · obtain ⟨f, s, c, hp⟩ := h.process i
    rw [hp]

theorem Plain.trees_eq (h : Plain st st') : trees st' = trees st := h.benign.trees_eq

theorem Plain.trans (h : Plain st st') (h' : Plain st' st'') : Plain st st'' := by
  refine ⟨?_, fun i => (h'.used i).trans (h.used i), fun i => ?_⟩
  · have hw := h'.writes
    rw [h.trees_eq] at hw
    exact h.writes.trans hw
  · obtain ⟨f, s, c, hp⟩ := h.process i
    obtain ⟨f', s', c', hp'⟩ := h'.process i
    rw [hp] at hp'
    exact ⟨f', s', c', hp'⟩

theorem Alike.plain (h : Alike st st') : Plain st st' := by
  refine ⟨?_, h.used, h.process⟩
  rw [h.phys]
  exact .refl _

theorem Plain.refl (st : KState) : Plain st st :=
  ⟨.refl _, fun _ => Iff.rfl, fun _ => ⟨_, _, _, rfl⟩⟩

theorem plain_same (hp : st'.processTable = st.processTable) (hm : st'.phys = st.phys) :
    Plain st st' := by
  refine ⟨?_, fun i => by rw [hp], fun i => ?_⟩
  · rw [hm]
    exact .refl _
  · rw [hp]
    exact ⟨_, _, _, rfl⟩

theorem plain_setA0 (st : KState) (i : Slot) (w : Word) : Plain st (st.setA0 i w) :=
  (alike_frame st i _).plain

theorem Switched.plain {r : Slot × KState} (h : Switched st r) (hb : Benign st r.2) :
    Plain st r.2 := by
  refine ⟨hb.phys, hb.used, fun i => ?_⟩
  obtain ⟨s, c, hp⟩ := h.process i
  exact ⟨_, s, c, hp⟩

theorem plain_schedule (htf : tf = st.currentProc) :
    Ensures (schedule idle tf st) fun r => Plain st r.2 := by
  intro r h
  exact (switched_schedule htf r h).plain (benign_schedule r h)

theorem plain_exiting (hst : Steady tf st) : Plain st (exiting st) := by
  have hz : Plain st (st.modifyProc st.currentProc fun p => { p with state := .zombie }) :=
    (alike_state hst.used (by decide)).plain
  have hb := benign_exiting hst
  refine ⟨hb.phys, hb.used, fun i => ?_⟩
  obtain ⟨f, s, c, hp⟩ := hz.process i
  unfold exiting
  dsimp only
  split
  · rename_i k _
    obtain ⟨s', c', hp'⟩ := (onlyWakes_wakeup (st.modifyProc st.currentProc fun p =>
      { p with state := .zombie }) (.pcb k)).process i
    rw [hp] at hp'
    exact ⟨f, s', c', hp'⟩
  · exact ⟨f, s, c, hp⟩

theorem plain_exitCurrent (hst : Steady tf st) :
    Ensures (exitCurrent idle tf st) fun r => Plain st r.2 := by
  rw [exitCurrent_eq]
  have hcur : tf = (exiting st).currentProc := hst.frame.trans (exiting_fields st).1.symm
  exact (plain_schedule hcur).mono fun r hr => (plain_exiting hst).trans hr

theorem plain_sleeping (hst : Steady tf st) (ch : Chan) : Plain st (sleeping st ch) := by
  have hon : Plain st (sleepOn st ch) := by
    refine ⟨.refl _,
      (benign_state st st.currentProc hst.used (fun h => by cases h) rfl rfl rfl).used,
      fun i => ?_⟩
    by_cases hi : i = st.currentProc
    · subst hi
      exact ⟨_, .blocked, some ch, modifyProc_self _ _ _⟩
    · exact ⟨_, _, _, modifyProc_of_ne _ hi _⟩
  exact hon.trans (alike_frame (sleepOn st ch) st.currentProc _).plain

theorem plain_sleep {ch : Chan} (hst : Steady tf st) :
    Ensures (schedule idle tf (sleeping st ch)) fun r => Plain st r.2 := by
  have hcur : tf = (sleeping st ch).currentProc := hst.frame
  exact (plain_schedule hcur).mono fun r hr => (plain_sleeping hst ch).trans hr

theorem plain_store {va pa : Addr} (hset : Settled L st)
    (h : userTranslate st.phys.mem st.satp .write va = some pa) (b : Byte) :
    Plain st { st with phys := { st.phys with mem := st.phys.mem.setByte pa b } } := by
  have hroot := hset.steady.root hset.sound
  obtain ⟨-, hleaf, hu, -, rfl⟩ := (userTranslate_iff (hset.sound.owned.threeLevel hroot)).mp h
  refine ⟨?_, fun _ => Iff.rfl, fun _ => ⟨_, _, _, rfl⟩⟩
  exact .setByte hset.sound.owned (held_of_user hroot hleaf hu) (leaf_ne_table _ _) b

theorem plain_saveFrame (regs : TrapFrame) (st : KState) : Plain st (saveFrame regs st) :=
  (alike_saveFrame regs st).plain

theorem plain_entered (st : KState) : Plain st (entered st) := by
  have h := (alike_frame st st.currentProc fun f => { f with sepc := f.sepc + 4 }).plain
  exact ⟨h.writes, h.used, h.process⟩

theorem plain_resume (tf : Slot) (st : KState) : Plain st (resume tf st) :=
  (alike_resume tf st).plain

theorem plain_consoleWrite (buffer : Addr) (more n : ℕ) (h : Plain st mid) :
    Ensures (consoleWrite buffer more n mid) (Plain st) := by
  induction more generalizing n mid with
  | zero => exact ensures_ok.mpr h
  | succ more ih =>
    refine Ensures.of_bind fun b _ => ih (n + 1) ?_
    exact h.trans (plain_same rfl rfl)

theorem Copying.plain {buffer : Addr} {n : ℕ} (h : Copying st buffer n mid) : Plain st mid := by
  refine ⟨h.writes, fun i => by rw [h.processTable], fun i => ?_⟩
  rw [h.processTable]
  exact ⟨_, _, _, rfl⟩

/-- A descriptor may be set before or after the copy. -/
theorem Copying.plain_setFile {buffer : Addr} {n : ℕ} (h : Copying st buffer n mid) (fd : Fin 16)
    (f : File) : Plain (st.setFile fd f) (mid.setFile fd f) := by
  have hp : (mid.setFile fd f).processTable = (st.setFile fd f).processTable := by
    simp only [KState.setFile, KState.modifyProc, h.processTable, h.currentProc]
  refine ⟨?_, fun i => by rw [hp], fun i => ?_⟩
  · rw [(benign_setFile st fd f).trees_eq]
    exact h.writes
  · rw [hp]
    exact ⟨_, _, _, rfl⟩

end Plain

section Footprint

/-- What a system call does to memory and process table, apart from what is `Plain`. -/
inductive Footprint (L : Layout) (st : KState) : KState → Prop where
  | same : Footprint L st st
  | filed (fd : Fin 16) (f : File) : Footprint L st (st.setFile fd f)
  | grown (ok : Bool) (phys : Phys) (h7 : st.a7 = sysSbrk)
      (h : Grow st (st.frameOf st.currentProc).a0 ok phys) :
      Footprint L st (grown st (st.frameOf st.currentProc).a0 ok phys)
  | refused (mid : KState) (h7 : st.a7 = sysFork) (h : AllocProc L st none mid) : Footprint L st mid
  | forked (child : Slot) (mid : KState) (phys : Phys) (h7 : st.a7 = sysFork)
      (ha : AllocProc L st (some child) mid) (hne : child ≠ st.currentProc)
      (hc : vmmCopyUvm 2 (mid.rootOf st.currentProc) (mid.rootOf child) mid.phys = .ok phys) :
      Footprint L st (forked st mid child phys)
  | execed (st' : KState) (newPt start : ℕ) (pl : List Placement) (maxEnd : Addr)
      (elf : Addr → Except Stop Byte) (phoff phnum : ℕ) (h7 : st.a7 = sysExec)
      (hf : ExecFile L st.currentProc st elf) (hp : Plan elf phoff phnum start pl maxEnd)
      (hr : Replaced L st st' newPt start pl maxEnd) : Footprint L st st'
  | reaped (i : Slot) (hz : zombieKid st = some i) : Footprint L st (freeProc st i)

def Leaves (L : Layout) (st st' : KState) : Prop := ∃ mid, Footprint L st mid ∧ Plain mid st'

theorem Plain.leaves (h : Plain st st') : Leaves L st st' := ⟨st, .same, h⟩

theorem Footprint.answer (h : Footprint L st mid) (tf : Slot) (w : Word) :
    Ensures (mid.answer tf w) fun r => Leaves L st r.2 := by
  rintro ⟨tf', st'⟩ hr
  obtain ⟨rfl, rfl⟩ := answer_result hr
  exact ⟨mid, h, plain_setA0 mid _ w⟩

theorem leaves_answer (st : KState) (tf : Slot) (w : Word) :
    Ensures (st.answer tf w) fun r => Leaves L st r.2 := Footprint.same.answer tf w

theorem leaves_fork (hst : Steady tf st) (h7 : st.a7 = sysFork) :
    Ensures (sysForkCall L tf st) fun r => Leaves L st r.2 := by
  rintro ⟨tf', st'⟩ h
  obtain ⟨-, hcall⟩ := sysForkCall_result hst.frame hst.running h
  cases hcall with
  | failed mid ha => exact ⟨mid, .refused mid h7 ha, plain_setA0 mid _ _⟩
  | forked child mid phys ha hne hc => exact ⟨_, .forked child mid phys h7 ha hne hc, .refl _⟩

theorem leaves_exec (hs : Sound L st) (hst : Steady tf st) (h7 : st.a7 = sysExec) :
    Ensures (sysExecCall L tf st) fun r => Leaves L st r.2 := by
  intro r h
  obtain ⟨-, hcall⟩ := sysExecCall_result h
  rw [hst.frame] at hcall
  rcases hcall.answers hs
    with ⟨w, hw⟩ | ⟨newPt, start, pl, maxEnd, elf, phoff, phnum, hrep, hplan, hfile⟩
  · rw [hw]
    exact (plain_setA0 st _ w).leaves
  · exact ⟨_, .execed r.2 newPt start pl maxEnd elf phoff phnum h7 hfile hplan hrep, .refl _⟩

theorem leaves_wait (hst : Steady tf st) :
    Ensures (sysWaitCall input tf st) fun r => Leaves L st r.2 := by
  have hframe := hst.frame
  subst hframe
  unfold sysWaitCall
  split
  · rename_i i hz
    exact (Footprint.reaped i hz).answer _ _
  · split
    · exact leaves_answer st _ _
    · have hsleep := @plain_sleep _ _ input.idle (.pcb st.currentProc) hst
      exact hsleep.mono fun r h => h.leaves

theorem leaves_sbrk (hst : Steady tf st) (h7 : st.a7 = sysSbrk) :
    Ensures (sysSbrkCall tf st) fun r => Leaves L st r.2 := by
  intro r h
  have hframe := hst.frame
  subst hframe
  obtain ⟨-, hr | hr | hr | ⟨ok, phys, hg, hr⟩⟩ := sysSbrkCall_result h
  · rw [hr]
    exact (plain_setA0 st _ _).leaves
  · rw [hr]
    exact (plain_setA0 st _ _).leaves
  · rw [hr]
    exact (plain_setA0 st _ _).leaves
  · rw [hr]
    exact ⟨_, .grown ok phys h7 hg, plain_setA0 _ _ _⟩

theorem leaves_open : Ensures (sysOpenCall L tf st) fun r => Leaves L st r.2 := by
  unfold sysOpenCall
  dsimp only
  refine Ensures.of_bind fun ok _ => ?_
  split
  · exact leaves_answer st tf _
  split
  · exact leaves_answer st tf _
  · rename_i fd _
    refine Ensures.of_bind fun entry _ => ?_
    split
    · exact leaves_answer st tf _
    · exact (Footprint.filed fd _).answer tf _

theorem leaves_close : Ensures (sysCloseCall tf st) fun r => Leaves L st r.2 := by
  unfold sysCloseCall
  split
  · exact leaves_answer st tf _
  · rename_i fd _
    split
    · exact leaves_answer st tf _
    · exact (Footprint.filed fd _).answer tf _

theorem plain_write : Ensures (sysWriteCall tf st) fun r => Plain st r.2 := by
  have answer : ∀ w, Ensures (st.answer tf w) fun r => Plain st r.2 := by
    rintro w ⟨tf', st'⟩ hr
    obtain ⟨rfl, rfl⟩ := answer_result hr
    exact plain_setA0 st _ w
  unfold sysWriteCall
  dsimp only
  split
  · exact answer _
  split
  · exact answer _
  split
  · exact answer _
  · intro r h
    obtain ⟨s, hs, h⟩ := bind_eq_ok.mp h
    obtain ⟨-, hr⟩ := answer_result h
    rw [hr]
    exact (plain_consoleWrite _ _ 0 (.refl st) s hs).trans (plain_setA0 s _ _)
  · exact answer _

theorem plain_console (hs : Sound L st) (hst : Steady st.currentProc st)
    (hok : userRangeOk st.phys.mem st.satp (st.frameOf st.currentProc).a1
      (st.readSize.setWidth 64) pteW = true) :
    Ensures (if st.readSize = 0 then st.answer st.currentProc 0
      else match uartGetc st.uart with
        | (none, _) =>
          schedule input.idle st.currentProc ((sleepOn st .uartRx).setFrame st.currentProc
            fun f => { f with sepc := f.sepc - 4 })
        | (some c, uart) => do
          let st' ← { st with uart := uart }.store (st.frameOf st.currentProc).a1 c
          let (n, st') ← consoleRead (st.frameOf st.currentProc).a1 (st.readSize.toNat - 1) 1 st'
          st'.answer st.currentProc (BitVec.ofNat 64 n)) fun r => Plain st r.2 := by
  split
  · rintro ⟨tf', st'⟩ hr
    obtain ⟨rfl, rfl⟩ := answer_result hr
    exact plain_setA0 st _ _
  rename_i hsize
  split
  · exact @plain_sleep _ _ input.idle .uartRx hst
  · rename_i c uart hget
    refine delivery_read hs hst hok hsize hget fun bytes s' hd => ?_
    rintro ⟨tf', st'⟩ hr
    obtain ⟨rfl, rfl⟩ := answer_result hr
    exact hd.reading.copying.plain.trans (plain_setA0 s' _ _)

/-- A file read fills the buffer and moves the descriptor's offset on. -/
theorem leaves_read (hs : Sound L st) (hst : Steady tf st) :
    Ensures (sysReadCall input tf st) fun r => Leaves L st r.2 := by
  have hframe := hst.frame
  subst hframe
  unfold sysReadCall
  dsimp only
  split
  · exact leaves_answer st _ _
  rename_i hgood
  have hb : BufferOk st := by simpa [BufferOk] using hgood
  have hok : userRangeOk st.phys.mem st.satp (st.frameOf st.currentProc).a1
      (st.readSize.setWidth 64) pteW = true := by
    rw [hst.satp]
    exact hb
  split
  · exact leaves_answer st _ _
  rename_i fd hfd
  split
  · exact leaves_answer st _ _
  · -- the console
    exact (plain_console hs hst hok).mono fun r h => h.leaves
  · -- a file
    split
    · exact leaves_answer st _ _
    · have hsize :
        (if st.readSize > (st.current.openFiles fd).size - (st.current.openFiles fd).offset
          then (st.current.openFiles fd).size - (st.current.openFiles fd).offset
          else st.readSize).toNat ≤ st.readSize.toNat := by
        split
        · rename_i hlt
          exact (BitVec.lt_def.mp hlt).le
        · exact le_rfl
      refine (acts_copyOut _ 0 hs hst hok (by rw [Nat.zero_add]; exact hsize) (.start _)
        (.refl st)).bind fun s hcopy => ?_
      rintro ⟨tf', st'⟩ hr
      obtain ⟨rfl, rfl⟩ := answer_result hr
      exact ⟨_, .filed fd _, (hcopy.2.plain_setFile fd _).trans (plain_setA0 _ _ _)⟩

theorem leaves_syscall (hs : Sound L st) (hst : Steady tf st) :
    Ensures (syscall L input tf st) fun r => Leaves L st r.2 := by
  have h7 : (st.frameOf tf).a7 = st.a7 := by rw [KState.a7, hst.frame]
  unfold syscall
  dsimp only
  rw [h7]
  split
  · intro r h
    obtain ⟨-, hr⟩ := answer_result h
    rw [hr]
    have hput : Plain st (st.putchar ((st.frameOf tf).a0.setWidth 8)) := plain_same rfl rfl
    exact (hput.trans (plain_setA0 _ _ _)).leaves
  split
  · exact (plain_exitCurrent hst).mono fun r h => h.leaves
  split
  · rename_i hfork
    exact leaves_fork hst hfork
  split
  · rename_i hexec
    exact leaves_exec hs hst hexec
  split
  · exact leaves_wait hst
  split
  · rename_i hsbrk
    exact leaves_sbrk hst hsbrk
  split
  · exact leaves_open
  split
  · exact leaves_read hs hst
  split
  · exact plain_write.mono fun r h => h.leaves
  split
  · exact leaves_close
  · exact ensures_error

theorem plain_plicDispatch (h : PlicDispatch st st') : Plain st st' := by
  have hsw := @switched_idles _ _ st.currentProc (.single h) rfl
  exact hsw.plain (benign_plicDispatch h)

theorem leaves_trapHandler (hs : Sound L st) (hst : Steady tf st)
    (hu : fromSupervisor (st.frameOf tf) = false) :
    Ensures (trapHandler L input tf st) fun r =>
      (st.scause = 8 ∧ Leaves L (entered st) r.2) ∨ (st.scause ≠ 8 ∧ Plain st r.2) := by
  have hframe := hst.frame
  subst hframe
  unfold trapHandler
  dsimp only
  split
  · rename_i hmsb
    have h8 : st.scause ≠ 8 := by
      intro h8
      have hm : st.scause.msb = true := hmsb
      rw [h8] at hm
      exact absurd hm (by decide)
    split
    · exact (plain_schedule rfl).mono fun r h => Or.inr ⟨h8, h⟩
    split
    · refine Ensures.of_bind fun s h => ensures_pure.mpr ?_
      exact Or.inr ⟨h8, plain_plicDispatch (plicDispatch_result h)⟩
    · exact ensures_error
  rw [if_neg (by rw [hu]; decide)]
  split
  · rename_i h8
    have hacts := acts_entered (L := L) hst
    refine (leaves_syscall (hacts.sound hs) ((calm_entered st).steady hst)).mono ?_
    intro r h
    exact Or.inl ⟨h8, h⟩
  · rename_i h8
    obtain ⟨c, hc⟩ := reportFault_eq st "\n[TRAP] U-mode fault (kill)\n" (st.frameOf st.currentProc)
    have hsteady := (calm_reportFault st "\n[TRAP] U-mode fault (kill)\n"
      (st.frameOf st.currentProc)).steady hst
    rw [hc] at hsteady ⊢
    have hput : Plain st { st with console := c } := plain_same rfl rfl
    exact (plain_exitCurrent hsteady).mono fun r h => Or.inr ⟨h8, hput.trans h⟩

theorem takeTrap_leaves (hset : Settled L st) (h : takeTrap L regs input st = .ok st') :
    (regs.scause = 8 ∧ ∃ mid, Footprint L (entered (saveFrame regs st)) mid ∧ Plain mid st') ∨
      (regs.scause ≠ 8 ∧ Plain st st') := by
  obtain ⟨⟨tf, last⟩, hr, h⟩ := bind_eq_ok.mp h
  cases h
  have hst' := (calm_saveFrame regs st).steady hset.steady
  have hu : fromSupervisor ((saveFrame regs st).frameOf st.sscratch) = false := by
    rw [frameOf_saveFrame]
    exact fromSupervisor_trapStatus _
  have hcause : (saveFrame regs st).scause = regs.scause := by
    rw [KState.scause, ← hst'.frame, frameOf_saveFrame]
  have hleaves := leaves_trapHandler ((benign_saveFrame regs st).sound hset.sound) hst' hu _ hr
  rw [hcause] at hleaves
  rcases hleaves with ⟨h8, mid, hfoot, hplain⟩ | ⟨h8, hplain⟩
  · exact Or.inl ⟨h8, mid, hfoot, hplain.trans (plain_resume tf last)⟩
  · exact Or.inr ⟨h8, ((plain_saveFrame regs st).trans hplain).trans (plain_resume tf last)⟩

end Footprint

end Lazux

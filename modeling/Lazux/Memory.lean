import Lazux.Files
import Lazux.Programs
import Lazux.UserHeap

/-! # Whose memory a step changes

What each process finds in its memory behind a step of the machine. A call changes nobody's but the
caller's, and the caller's only where it was asked to. -/
namespace Lazux

open PagedMemory RadixForest Run

variable {L : Layout} {ram : Memory} {st st' s mid : KState} {tf i j : Slot} {regs : TrapFrame}
  {input : Input} {idle : List Wakeup} {buffer va : Addr} {size : BitVec 32} {n : ℕ}

def pageByte (st : KState) (i : Slot) (va : Addr) : Option Byte :=
  (memoryOf st i (pageNo va)).map fun pg => pg.content (offset va)

section Filling

/-- The kernel has written to the first `n` bytes of a buffer of the current process. -/
structure BufferFilled (st : KState) (buffer : Addr) (n : ℕ) (s : KState) : Prop where
  copying : Copying st buffer n s
  others : ∀ j, j ≠ st.currentProc → memoryOf s j = memoryOf st j
  flags : ∀ q, pageFlags s st.currentProc q = pageFlags st st.currentProc q
  bytes : ∀ va, Canonical va → (∀ k < n, va ≠ buffer + BitVec.ofNat 64 k) →
    pageByte s st.currentProc va = pageByte st st.currentProc va

theorem BufferFilled.start (buffer : Addr) : BufferFilled st buffer 0 st :=
  ⟨.start buffer, fun _ _ => rfl, fun _ => rfl, fun _ _ _ => rfl⟩

theorem BufferFilled.withUart (h : BufferFilled st buffer n s) (uart : Uart) :
    BufferFilled st buffer n { s with uart := uart } :=
  ⟨h.copying.withUart uart, h.others, h.flags, h.bytes⟩

theorem BufferFilled.store (hs : Sound L st) (hst : Steady st.currentProc st)
    (hok : userRangeOk st.phys.mem st.satp buffer (size.setWidth 64) pteW = true)
    (hn : n < size.toNat) (h : BufferFilled st buffer n s) (b : Byte) :
    Ensures (s.store (buffer + BitVec.ofNat 64 n) b) (BufferFilled st buffer (n + 1)) := by
  refine (h.copying.store hs hst hok hn b).mono fun s' hstep => ?_
  obtain ⟨pa, htarget, rfl, hcopy⟩ := hstep
  have hroot := hst.root hs
  obtain ⟨hcanon, -, -, -, hpa⟩ :=
    (kernelTranslate_iff (hs.owned.threeLevel hroot)).mp htarget.translated
  have hheld : held s.phys (trees s) (.node st.currentProc
      (pageNo (buffer + BitVec.ofNat 64 n)).leaf) = some (frame pa) := by
    rw [h.copying.trees_eq, h.copying.writes.held_eq]
    exact htarget.held hs.owned hroot
  have hsound : Sound L s := h.copying.plain.benign.sound hs
  obtain ⟨hothers, hself⟩ := memoryOf_poke hsound (b := b) hheld rfl
  refine ⟨hcopy, fun j hj => (hothers j hj).trans (h.others j hj), fun q => ?_,
    fun va hva hne => ?_⟩
  · rw [← h.flags q, pageFlags, pageFlags, hself]
    by_cases hq : q = pageNo (buffer + BitVec.ofNat 64 n)
    · rw [hq, Function.update_self, Option.map_map]
      rfl
    · rw [Function.update_of_ne hq]
  · rw [← h.bytes va hva fun k hk => hne k (Nat.lt_succ_of_lt hk), pageByte, pageByte, hself]
    by_cases hq : pageNo va = pageNo (buffer + BitVec.ofNat 64 n)
    · rw [hq, Function.update_self, Option.map_map]
      refine congrArg (fun f => Option.map f _) (funext fun pg => ?_)
      refine Function.update_of_ne ?_ _ _
      intro ho
      refine hne n (Nat.lt_succ_self n) (canonical_inj hva hcanon hq ?_)
      have hval : va.toNat % 4096 = pa.toNat % 4096 := congrArg Fin.val ho
      rw [hpa, leafPa_toNat] at hval
      omega
    · rw [Function.update_of_ne hq]

theorem filled_copyOut {src : Addr} (more n : ℕ) (hs : Sound L st) (hst : Steady st.currentProc st)
    (hok : userRangeOk st.phys.mem st.satp buffer (size.setWidth 64) pteW = true)
    (hn : n + more ≤ size.toNat) (h : BufferFilled st buffer n s) :
    Ensures (copyOut src buffer more n s) (BufferFilled st buffer (n + more)) := by
  induction more generalizing n s with
  | zero => exact ensures_ok.mpr h
  | succ more ih =>
    refine Ensures.of_bind fun b _ => ?_
    refine (h.store hs hst hok (by omega) b).bind fun s' hnext => ?_
    have := ih (n + 1) (by omega) hnext
    rwa [show n + 1 + more = n + (more + 1) by omega] at this

theorem filled_consoleRead (more n : ℕ) (hs : Sound L st) (hst : Steady st.currentProc st)
    (hok : userRangeOk st.phys.mem st.satp buffer (size.setWidth 64) pteW = true)
    (hn : n + more ≤ size.toNat) (h : BufferFilled st buffer n s) :
    Ensures (consoleRead buffer more n s) fun r => r.1 ≤ size.toNat ∧
      BufferFilled st buffer r.1 r.2 := by
  induction more generalizing n s with
  | zero => exact ensures_ok.mpr ⟨hn, h⟩
  | succ more ih =>
    refine Ensures.of_bind fun last _ => ?_
    split_ifs
    · exact ensures_pure.mpr ⟨by omega, h⟩
    · split
      · exact ensures_pure.mpr ⟨by omega, h⟩
      · rename_i c uart hget
        refine ((h.withUart uart).store hs hst hok (by omega) c).bind fun s' hnext => ?_
        exact ih (n + 1) (by omega) hnext

end Filling

section Calls

/-- What a process has besides its pages stays: its heap and its root. -/
structure SameHeap (st st' : KState) (i : Slot) : Prop where
  heapBreak : (st'.processTable i).heapBreak = (st.processTable i).heapBreak
  heapMax : (st'.processTable i).heapMax = (st.processTable i).heapMax
  table : (st'.processTable i).pageTable = (st.processTable i).pageTable

theorem SameHeap.refl (st : KState) (i : Slot) : SameHeap st st i := ⟨rfl, rfl, rfl⟩

theorem SameHeap.of_eq (h : st'.processTable i = st.processTable i) : SameHeap st st' i := by
  constructor <;> rw [h]

theorem SameHeap.trans (h : SameHeap st mid i) (h' : SameHeap mid st' i) : SameHeap st st' i :=
  ⟨h'.heapBreak.trans h.heapBreak, h'.heapMax.trans h.heapMax, h'.table.trans h.table⟩

structure SameSpaces (st st' : KState) : Prop where
  phys : st'.phys = st.phys
  used : ∀ i, (st'.processTable i).state = .unused ↔ (st.processTable i).state = .unused
  heap : ∀ i, SameHeap st st' i

theorem Plain.sameSpaces (h : Plain st st') (hm : st'.phys = st.phys) : SameSpaces st st' := by
  refine ⟨hm, h.used, fun i => ?_⟩
  obtain ⟨f, s, c, hp⟩ := h.process i
  constructor <;> rw [hp]

theorem SameSpaces.trans (h : SameSpaces st mid) (h' : SameSpaces mid st') : SameSpaces st st' :=
  ⟨h'.phys.trans h.phys, fun i => (h'.used i).trans (h.used i),
    fun i => (h.heap i).trans (h'.heap i)⟩

theorem SameSpaces.memoryOf_eq (h : SameSpaces st st') (i : Slot) :
    memoryOf st' i = memoryOf st i :=
  memoryOf_congr (congrArg Phys.mem h.phys) (root_congr (h.used i) (h.heap i).table)

theorem sameSpaces_setA0 (st : KState) (i : Slot) (w : Word) : SameSpaces st (st.setA0 i w) :=
  (plain_setA0 st i w).sameSpaces rfl

theorem sameSpaces_setFile (st : KState) (fd : Fin 16) (f : File) :
    SameSpaces st (st.setFile fd f) := by
  refine ⟨rfl, (benign_setFile st fd f).used, fun i => ?_⟩
  by_cases hi : i = st.currentProc
  · subst hi
    constructor <;> simp [KState.setFile]
  · exact .of_eq (modifyProc_of_ne _ hi _)

/-- What a call does to memory is its footprint, or the part of the buffer that it fills. -/
inductive Marked (L : Layout) (st st' : KState) : Prop
  | foot (mid : KState) (h : Footprint L st mid) (hp : SameSpaces mid st')
  | filled (h7 : st.a7 = sysRead) (s : KState) (n : ℕ) (hn : n ≤ st.readSize.toNat)
      (h : BufferFilled st (st.frameOf st.currentProc).a1 n s) (hp : SameSpaces s st')

theorem Footprint.marked_answer (h : Footprint L st mid) (tf : Slot) (w : Word) :
    Ensures (mid.answer tf w) fun r => Marked L st r.2 := by
  rintro ⟨tf', st'⟩ hr
  obtain ⟨rfl, rfl⟩ := answer_result hr
  exact .foot mid h (sameSpaces_setA0 mid _ w)

theorem marked_answer (st : KState) (tf : Slot) (w : Word) :
    Ensures (st.answer tf w) fun r => Marked L st r.2 := Footprint.same.marked_answer tf w

theorem marked_schedule (hframe : tf = s.currentProc) (hp : Plain st s) (hm : s.phys = st.phys) :
    Ensures (schedule idle tf s) fun r => Marked L st r.2 := by
  intro r h
  exact .foot st .same ((hp.trans (plain_schedule hframe r h)).sameSpaces
    ((switched_schedule hframe r h).phys.trans hm))

theorem marked_exitCurrent (hst : Steady tf st) :
    Ensures (exitCurrent idle tf st) fun r => Marked L st r.2 := by
  rw [exitCurrent_eq]
  exact marked_schedule (hst.frame.trans (exiting_fields st).1.symm) (plain_exiting hst)
    (phys_exiting st)

theorem marked_sleep {ch : Chan} (hst : Steady tf st) :
    Ensures (schedule idle tf (sleeping st ch)) fun r => Marked L st r.2 :=
  marked_schedule hst.frame (plain_sleeping hst ch) rfl

theorem marked_fork (hst : Steady tf st) (h7 : st.a7 = sysFork) :
    Ensures (sysForkCall L tf st) fun r => Marked L st r.2 := by
  rintro ⟨tf', st'⟩ h
  obtain ⟨-, hcall⟩ := sysForkCall_result hst.frame hst.running h
  cases hcall with
  | failed mid ha => exact .foot mid (.refused mid h7 ha) (sameSpaces_setA0 mid _ _)
  | forked child mid phys ha hne hc =>
    exact .foot _ (.forked child mid phys h7 ha hne hc) ((Plain.refl _).sameSpaces rfl)

theorem marked_exec (hs : Sound L st) (hst : Steady tf st) (h7 : st.a7 = sysExec) :
    Ensures (sysExecCall L tf st) fun r => Marked L st r.2 := by
  intro r h
  obtain ⟨-, hcall⟩ := sysExecCall_result h
  rw [hst.frame] at hcall
  rcases hcall.answers hs with ⟨w, hw⟩ |
    ⟨newPt, start, pl, maxEnd, elf, phoff, phnum, hrep, hplan, hfile⟩
  · rw [hw]
    exact .foot st .same (sameSpaces_setA0 st _ w)
  · exact .foot _ (.execed r.2 newPt start pl maxEnd elf phoff phnum h7 hfile hplan hrep)
      ((Plain.refl _).sameSpaces rfl)

theorem marked_wait (hst : Steady tf st) :
    Ensures (sysWaitCall input tf st) fun r => Marked L st r.2 := by
  have hframe := hst.frame
  subst hframe
  unfold sysWaitCall
  split
  · rename_i i hz
    exact (Footprint.reaped i hz).marked_answer _ _
  · split
    · exact marked_answer st _ _
    · exact @marked_sleep L st st.currentProc input.idle (.pcb st.currentProc) hst

theorem marked_sbrk (hst : Steady tf st) (h7 : st.a7 = sysSbrk) :
    Ensures (sysSbrkCall tf st) fun r => Marked L st r.2 := by
  intro r h
  have hframe := hst.frame
  subst hframe
  have answered : ∀ w, Marked L st (st.setA0 st.currentProc w) := fun w =>
    .foot st .same (sameSpaces_setA0 st _ w)
  obtain ⟨-, hr | hr | hr | ⟨ok, phys, hg, hr⟩⟩ := sysSbrkCall_result h
  · rw [hr]
    exact answered _
  · rw [hr]
    exact answered _
  · rw [hr]
    exact answered _
  · rw [hr]
    exact .foot _ (.grown ok phys h7 hg) (sameSpaces_setA0 _ _ _)

theorem marked_open : Ensures (sysOpenCall L tf st) fun r => Marked L st r.2 := by
  unfold sysOpenCall
  dsimp only
  refine Ensures.of_bind fun ok _ => ?_
  split
  · exact marked_answer st tf _
  split
  · exact marked_answer st tf _
  · rename_i fd _
    refine Ensures.of_bind fun entry _ => ?_
    split
    · exact marked_answer st tf _
    · exact (Footprint.filed fd _).marked_answer tf _

theorem marked_close : Ensures (sysCloseCall tf st) fun r => Marked L st r.2 := by
  unfold sysCloseCall
  split
  · exact marked_answer st tf _
  · rename_i fd _
    split
    · exact marked_answer st tf _
    · exact (Footprint.filed fd _).marked_answer tf _

theorem consoleWrite_still (more n : ℕ) (h : Plain st mid ∧ mid.phys = st.phys) :
    Ensures (consoleWrite buffer more n mid) fun s => Plain st s ∧ s.phys = st.phys := by
  induction more generalizing n mid with
  | zero => exact ensures_ok.mpr h
  | succ more ih =>
    refine Ensures.of_bind fun b _ => ih (n + 1) ⟨h.1.trans (plain_same rfl rfl), h.2⟩

theorem marked_write : Ensures (sysWriteCall tf st) fun r => Marked L st r.2 := by
  unfold sysWriteCall
  dsimp only
  split
  · exact marked_answer st tf _
  split
  · exact marked_answer st tf _
  split
  · exact marked_answer st tf _
  · intro r h
    obtain ⟨s, hs, h⟩ := bind_eq_ok.mp h
    obtain ⟨-, hr⟩ := answer_result h
    obtain ⟨hplain, hphys⟩ := consoleWrite_still _ 0 ⟨.refl st, rfl⟩ s hs
    rw [hr]
    exact .foot st .same ((hplain.trans (plain_setA0 s _ _)).sameSpaces hphys)
  · exact marked_answer st tf _

theorem marked_read (hs : Sound L st) (hst : Steady tf st) (h7 : st.a7 = sysRead) :
    Ensures (sysReadCall input tf st) fun r => Marked L st r.2 := by
  have hframe := hst.frame
  subst hframe
  unfold sysReadCall
  dsimp only
  split
  · exact marked_answer st _ _
  rename_i hgood
  have hb : BufferOk st := by simpa [BufferOk] using hgood
  have hok : userRangeOk st.phys.mem st.satp (st.frameOf st.currentProc).a1
      (st.readSize.setWidth 64) pteW = true := by
    rw [hst.satp]
    exact hb
  split
  · exact marked_answer st _ _
  rename_i fd hfd
  split
  · exact marked_answer st _ _
  · -- the console
    split
    · exact marked_answer st _ _
    rename_i hsize
    have hpos : 0 < st.readSize.toNat := by
      rw [Nat.pos_iff_ne_zero]
      exact fun h0 => hsize (BitVec.eq_of_toNat_eq h0)
    split
    · exact @marked_sleep L st st.currentProc input.idle .uartRx hst
    · rename_i c uart hget
      have hstart : BufferFilled st (st.frameOf st.currentProc).a1 0 { st with uart := uart } :=
        (BufferFilled.start _).withUart uart
      have hfirst := hstart.store hs hst hok hpos c
      rw [show (st.frameOf st.currentProc).a1 + BitVec.ofNat 64 0 =
        (st.frameOf st.currentProc).a1 from BitVec.add_zero _] at hfirst
      refine hfirst.bind fun s hfill => ?_
      refine (filled_consoleRead (st.readSize.toNat - 1) 1 hs hst hok (by omega) hfill).bind
        fun x hx => ?_
      rintro ⟨tf', st'⟩ hr
      obtain ⟨rfl, rfl⟩ := answer_result hr
      exact .filled h7 _ _ hx.1 hx.2 (sameSpaces_setA0 _ _ _)
  · -- a file
    split
    · exact marked_answer st _ _
    · have hsize : (if st.readSize >
            (st.current.openFiles fd).size - (st.current.openFiles fd).offset
          then (st.current.openFiles fd).size - (st.current.openFiles fd).offset
          else st.readSize).toNat ≤ st.readSize.toNat := by
        split
        · rename_i hlt
          exact (BitVec.lt_def.mp hlt).le
        · exact le_rfl
      refine (filled_copyOut _ 0 hs hst hok (by rw [Nat.zero_add]; exact hsize)
        (.start _)).bind fun s hfill => ?_
      rw [Nat.zero_add] at hfill
      rintro ⟨tf', st'⟩ hr
      obtain ⟨rfl, rfl⟩ := answer_result hr
      exact .filled h7 s _ hsize hfill
        ((sameSpaces_setFile s fd _).trans (sameSpaces_setA0 _ _ _))

theorem marked_syscall (hs : Sound L st) (hst : Steady tf st) :
    Ensures (syscall L input tf st) fun r => Marked L st r.2 := by
  have h7 : (st.frameOf tf).a7 = st.a7 := by rw [KState.a7, hst.frame]
  unfold syscall
  dsimp only
  rw [h7]
  split
  · intro r h
    obtain ⟨-, hr⟩ := answer_result h
    rw [hr]
    have hput : Plain st (st.putchar ((st.frameOf tf).a0.setWidth 8)) := plain_same rfl rfl
    exact .foot st .same ((hput.trans (plain_setA0 _ _ _)).sameSpaces rfl)
  split
  · exact marked_exitCurrent hst
  split
  · rename_i hfork
    exact marked_fork hst hfork
  split
  · rename_i hexec
    exact marked_exec hs hst hexec
  split
  · exact marked_wait hst
  split
  · rename_i hsbrk
    exact marked_sbrk hst hsbrk
  split
  · exact marked_open
  split
  · rename_i hread
    exact marked_read hs hst hread
  split
  · exact marked_write
  split
  · exact marked_close
  · exact ensures_error

end Calls

section Traps

theorem Switched.sameSpaces {r : Slot × KState} (h : Switched st r) (hp : Plain st r.2) :
    SameSpaces st r.2 := hp.sameSpaces h.phys

theorem sameSpaces_schedule (htf : tf = st.currentProc) :
    Ensures (schedule idle tf st) fun r => SameSpaces st r.2 := fun r h =>
  (switched_schedule htf r h).sameSpaces (plain_schedule htf r h)

theorem marked_trapHandler (hs : Sound L st) (hst : Steady tf st)
    (hu : fromSupervisor (st.frameOf tf) = false) :
    Ensures (trapHandler L input tf st) fun r =>
      (st.scause = 8 ∧ Marked L (entered st) r.2) ∨ (st.scause ≠ 8 ∧ SameSpaces st r.2) := by
  have hframe := hst.frame
  subst hframe
  unfold trapHandler
  dsimp only
  split
  · rename_i hmsb
    have h8 : st.scause ≠ 8 := by
      intro h8
      have hm : st.scause.msb = true := hmsb
      rw [h8] at hm
      exact absurd hm (by decide)
    split
    · exact (sameSpaces_schedule rfl).mono fun r h => Or.inr ⟨h8, h⟩
    split
    · refine Ensures.of_bind fun s h => ensures_pure.mpr ?_
      have hd := plicDispatch_result h
      have hsw := @switched_idles _ _ st.currentProc (.single hd) rfl
      exact Or.inr ⟨h8, hsw.sameSpaces (plain_plicDispatch hd)⟩
    · exact ensures_error
  rw [if_neg (by rw [hu]; decide)]
  split
  · rename_i h8
    have hacts := acts_entered (L := L) hst
    refine (marked_syscall (hacts.sound hs) ((calm_entered st).steady hst)).mono ?_
    intro r h
    exact Or.inl ⟨h8, h⟩
  · rename_i h8
    obtain ⟨c, hc⟩ := reportFault_eq st "\n[TRAP] U-mode fault (kill)\n" (st.frameOf st.currentProc)
    have hsteady := (calm_reportFault st "\n[TRAP] U-mode fault (kill)\n"
      (st.frameOf st.currentProc)).steady hst
    rw [hc] at hsteady ⊢
    have hput : Plain st { st with console := c } := plain_same rfl rfl
    rw [exitCurrent_eq]
    refine (sameSpaces_schedule (hsteady.frame.trans (exiting_fields _).1.symm)).mono fun r h => ?_
    exact Or.inr ⟨h8, ((hput.trans (plain_exiting hsteady)).sameSpaces
      (phys_exiting { st with console := c })).trans h⟩

theorem sameSpaces_called (regs : TrapFrame) (st : KState) :
    SameSpaces st (entered (saveFrame regs st)) := (plain_called regs st).sameSpaces rfl

theorem takeTrap_marked (hset : Settled L st) (h : takeTrap L regs input st = .ok st') :
    (regs.scause = 8 ∧ Marked L (entered (saveFrame regs st)) st') ∨
      (regs.scause ≠ 8 ∧ SameSpaces st st') := by
  obtain ⟨⟨tf, last⟩, hr, h⟩ := bind_eq_ok.mp h
  cases h
  have hst' := (calm_saveFrame regs st).steady hset.steady
  have hu : fromSupervisor ((saveFrame regs st).frameOf st.sscratch) = false := by
    rw [frameOf_saveFrame]
    exact fromSupervisor_trapStatus _
  have hcause : (saveFrame regs st).scause = regs.scause := by
    rw [KState.scause, ← hst'.frame, frameOf_saveFrame]
  have hmarked := marked_trapHandler ((benign_saveFrame regs st).sound hset.sound) hst' hu _ hr
  have hresume : SameSpaces last (resume tf last) := (plain_resume tf last).sameSpaces rfl
  rw [hcause] at hmarked
  rcases hmarked with ⟨h8, hm⟩ | ⟨h8, hsame⟩
  · refine Or.inl ⟨h8, ?_⟩
    cases hm with
    | foot mid hfoot hp => exact .foot mid hfoot (hp.trans hresume)
    | filled h7 s n hn hfill hp => exact .filled h7 s n hn hfill (hp.trans hresume)
  · have hsave : SameSpaces st (saveFrame regs st) := (plain_saveFrame regs st).sameSpaces rfl
    exact Or.inr ⟨h8, (hsave.trans hsame).trans hresume⟩

end Traps

section Fates

def taskOf (st : KState) (i : Slot) : Task := (st.processTable i).task (memoryOf st i)

/-- What a call makes of the memory of process `i`, which there is after it. -/
inductive MemoryFate (L : Layout) (st st' : KState) (i : Slot) : Prop
  /-- It is as it was. -/
  | kept (hu : (st.processTable i).state ≠ .unused) (hm : memoryOf st' i = memoryOf st i)
      (hheap : SameHeap st st' i) : MemoryFate L st st' i
  /-- The caller of `SYS_READ` has bytes in its buffer. -/
  | filled (h7 : st.a7 = sysRead) (hi : i = st.currentProc) (n : ℕ) (hn : n ≤ st.readSize.toNat)
      (hflags : ∀ q, pageFlags st' i q = pageFlags st i q)
      (hbytes : ∀ va, Canonical va →
        (∀ k < n, va ≠ (st.frameOf i).a1 + BitVec.ofNat 64 k) →
        pageByte st' i va = pageByte st i va)
      (hheap : SameHeap st st' i) : MemoryFate L st st' i
  /-- The caller of `SYS_SBRK` has new pages. -/
  | grown (h7 : st.a7 = sysSbrk) (hi : i = st.currentProc) (hpos : (st.frameOf i).a0 ≠ 0)
      (hneg : (st.frameOf i).a0.msb = false)
      (hmax : ¬ (st.processTable i).heapBreak + (st.frameOf i).a0 > (st.processTable i).heapMax)
      (hm : memoryOf st' i = ((taskOf st i).grow (st.frameOf i).a0).memory)
      (hb : (st'.processTable i).heapBreak = (st.processTable i).heapBreak + (st.frameOf i).a0)
      (hmax' : (st'.processTable i).heapMax = (st.processTable i).heapMax)
      (ht : (st'.processTable i).pageTable = (st.processTable i).pageTable) : MemoryFate L st st' i
  /-- The frames did not suffice. -/
  | shrunk (h7 : st.a7 = sysSbrk) (hi : i = st.currentProc)
      (hfew : ¬ HeapFits st (st.frameOf st.currentProc).a0) (l : List PageNo)
      (hl : l <+: (taskOf st i).heapPages (st.frameOf i).a0)
      (hm : memoryOf st' i = ((taskOf st i).drop l).memory) (hheap : SameHeap st st' i) :
      MemoryFate L st st' i
  /-- The caller of `SYS_EXEC` is another program. -/
  | execed (h7 : st.a7 = sysExec) (hi : i = st.currentProc) (elf : Addr → Except Stop Byte)
      (phoff phnum start : ℕ) (pl : List Placement) (maxEnd : Addr) (stack : Bool)
      (hfile : ExecFile L st.currentProc st elf) (hplan : Plan elf phoff phnum start pl maxEnd)
      (hm : memoryOf st' i = ((taskOf st i).load pl stack start maxEnd).memory)
      (hb : (st'.processTable i).heapBreak = pageCeil maxEnd)
      (hmax : (st'.processTable i).heapMax = userStackBase - 4096)
      (ht : (st'.processTable i).pageTable ≠ (st.processTable i).pageTable) : MemoryFate L st st' i
  /-- The child of a caller of `SYS_FORK` has what its parent has. -/
  | forked (h7 : st.a7 = sysFork) (hu : (st.processTable i).state = .unused)
      (hm : memoryOf st' i = fun q =>
        if q.number < 2 ^ 19 then memoryOf st st.currentProc q else none)
      (hb : (st'.processTable i).heapBreak = st.current.heapBreak)
      (hmax : (st'.processTable i).heapMax = st.current.heapMax) : MemoryFate L st st' i

theorem Footprint.memoryFate (hs : Sound L st) (hst : Steady tf st) (h : Footprint L st mid)
    (hi : (mid.processTable i).state ≠ .unused) : MemoryFate L st mid i := by
  -- most calls leave most processes alone
  have keep : ∀ j, i ≠ j → Within j st mid → mid.processTable i = st.processTable i →
      MemoryFate L st mid i := by
    intro j hj hw hp
    refine .kept ?_ (memoryOf_other hs hw hj) (.of_eq hp)
    rw [← hp]
    exact hi
  cases h with
  | same => exact .kept hi rfl (.refl st i)
  | filed fd f =>
    have hsame := sameSpaces_setFile st fd f
    exact .kept (fun h0 => hi ((hsame.used i).mpr h0)) (hsame.memoryOf_eq i) (hsame.heap i)
  | grown ok phys h7 h =>
    by_cases hj : i = st.currentProc
    · subst hj
      cases ok with
      | true =>
        refine .grown h7 rfl h.nonzero h.nonneg h.below (memoryOf_grown hs hst h) ?_ ?_ ?_
        · rw [process_grown_self]
          rfl
        · rw [process_grown_self]
        · rw [process_grown_self]
      | false =>
        obtain ⟨l, hl, hm⟩ := memoryOf_shrunk hs hst h
        have hfew : ¬ HeapFits st (st.frameOf st.currentProc).a0 := fun hfit =>
          absurd ((h.fits_iff hs hst).mp hfit) Bool.false_ne_true
        refine .shrunk h7 rfl hfew l hl hm ⟨?_, ?_, ?_⟩
        · rw [process_grown_self]
          rfl
        · rw [process_grown_self]
        · rw [process_grown_self]
    · exact keep _ hj (within_grown hs hst h) (process_grown hj)
  | refused _ _ h =>
    have hp := h.refused_process hi
    refine .kept ?_ ?_ (.of_eq hp)
    · rw [← hp]
      exact hi
    · rcases within_allocProc_none hs h with hall | ⟨k, hk, hw⟩
      · exact memoryOf_other hs (hall (i + 1)) (by simp)
      · apply memoryOf_other hs hw
        rintro rfl
        rw [hp, hk] at hi
        exact hi rfl
  | forked child m phys h7 ha hne hc =>
    by_cases hj : i = child
    · subst hj
      refine .forked h7 ha.of_some.1 (memoryOf_child hs hst ha hne hc) ?_ ?_
      · rw [Lazux.forked, modifyProc_self]
        rfl
      · rw [Lazux.forked, modifyProc_self]
        rfl
    · obtain ⟨f, hp⟩ := @process_forked _ _ _ _ _ phys ha hj
      have hw := within_forked hs hst ha hne hc
      refine .kept ?_ (memoryOf_other hs hw hj) ⟨?_, ?_, ?_⟩
      · rw [hp] at hi
        exact hi
      · rw [hp]
      · rw [hp]
      · rw [hp]
  | execed _ newPt start pl maxEnd elf phoff phnum h7 hf hp hr =>
    by_cases hj : i = st.currentProc
    · subst hj
      obtain ⟨stack, hm⟩ := memoryOf_loaded hst hr
      refine .execed h7 rfl elf phoff phnum start pl maxEnd stack hf hp hm ?_ ?_
        (hr.new_root hs hst)
      · rw [hr.process]
      · rw [hr.process]
    · exact keep _ hj (hr.within hs hst) (hr.other i hj)
  | reaped k hz =>
    have hu : (st.processTable k).state ≠ .unused := by
      rw [(zombieKid_some hz).2]
      decide
    by_cases hj : i = k
    · subst hj
      exact absurd (freeProc_gone hu) hi
    · exact keep k hj (within_freeProc hs hu) (freeProc_of_ne hj)

theorem MemoryFate.after (h : MemoryFate L st mid i) (hp : SameSpaces mid st') :
    MemoryFate L st st' i := by
  have hm' := hp.memoryOf_eq i
  have hheap' := hp.heap i
  cases h with
  | kept hu hm hheap => exact .kept hu (hm'.trans hm) (hheap.trans hheap')
  | filled h7 hi n hn hflags hbytes hheap =>
    refine .filled h7 hi n hn (fun q => ?_) (fun va hva hne => ?_) (hheap.trans hheap')
    · rw [← hflags q, pageFlags, pageFlags, hm']
    · rw [← hbytes va hva hne, pageByte, pageByte, hm']
  | grown h7 hi hpos hneg hmax hm hb hmax' ht =>
    exact .grown h7 hi hpos hneg hmax (hm'.trans hm) (hheap'.heapBreak.trans hb)
      (hheap'.heapMax.trans hmax') (hheap'.table.trans ht)
  | shrunk h7 hi hfew l hl hm hheap =>
    exact .shrunk h7 hi hfew l hl (hm'.trans hm) (hheap.trans hheap')
  | execed h7 hi elf phoff phnum start pl maxEnd stack hfile hplan hm hb hmax ht =>
    refine .execed h7 hi elf phoff phnum start pl maxEnd stack hfile hplan (hm'.trans hm)
      (hheap'.heapBreak.trans hb) (hheap'.heapMax.trans hmax) ?_
    rw [hheap'.table]
    exact ht
  | forked h7 hu hm hb hmax =>
    exact .forked h7 hu (hm'.trans hm) (hheap'.heapBreak.trans hb) (hheap'.heapMax.trans hmax)

theorem Marked.memoryFate (hs : Sound L st) (hst : Steady tf st) (h : Marked L st st')
    (hi : (st'.processTable i).state ≠ .unused) : MemoryFate L st st' i := by
  cases h with
  | foot mid hfoot hp =>
    have hi' : (mid.processTable i).state ≠ .unused := fun h0 => hi ((hp.used i).mpr h0)
    exact (hfoot.memoryFate hs hst hi').after hp
  | filled h7 s n hn hfill hp =>
    have hproc : s.processTable i = st.processTable i := by rw [hfill.copying.processTable]
    have hu : (st.processTable i).state ≠ .unused := by
      rw [← hproc]
      exact fun h0 => hi ((hp.used i).mpr h0)
    refine MemoryFate.after ?_ hp
    by_cases hj : i = st.currentProc
    · subst hj
      exact .filled h7 rfl n hn hfill.flags hfill.bytes (.of_eq hproc)
    · exact .kept hu (hfill.others i hj) (.of_eq hproc)

end Fates

section Steps

/-- A program's store is to its own memory. -/
structure Stored (st : KState) (va : Addr) (b : Byte) (st' : KState) : Prop where
  mapped : memoryOf st st.currentProc (pageNo va) ≠ none
  memory : memoryOf st' st.currentProc =
    ((taskOf st st.currentProc).poke (pageNo va) (offset va) b).memory
  others : ∀ i, i ≠ st.currentProc → memoryOf st' i = memoryOf st i
  processTable : st'.processTable = st.processTable

theorem store_stored {b : Byte} (hset : Settled L st) (hs : Step L st (.store va b) st') :
    Stored st va b st' := by
  cases hs with
  | store _ _ pa h =>
    have hroot := hset.steady.root hset.sound
    obtain ⟨-, hleaf, hu, -, hpa⟩ := (userTranslate_iff (hset.sound.owned.threeLevel hroot)).mp h
    have hheld := held_of_user hroot hleaf hu
    rw [← hpa] at hheld
    have hoff : offset pa = offset va := by
      apply Fin.ext
      show pa.toNat % 4096 = va.toNat % 4096
      rw [hpa, leafPa_toNat]
      omega
    rw [← hroot] at hleaf hu
    have hseen : memoryOf st st.currentProc (pageNo va) ≠ none := by
      have huser : UserLeaf (entryOf st st.currentProc (pageNo va)) :=
        ⟨hleaf.1, hardwareLeaf_isLeaf hleaf, hu⟩
      rw [memoryOf, seenPage, if_pos huser]
      exact Option.some_ne_none _
    obtain ⟨hothers, hself⟩ := memoryOf_poke (b := b) hset.sound hheld rfl
    refine ⟨hseen, ?_, hothers, rfl⟩
    rw [hself, hoff]
    rfl

/-- What a trap makes of the memory of process `i`, which there is after it: a call has the effect
of its number, and anything else has none. -/
inductive TrapFate (L : Layout) (st : KState) (regs : TrapFrame) (st' : KState) (i : Slot) : Prop
  | call (h8 : regs.scause = 8) (h : MemoryFate L (entered (saveFrame regs st)) st' i)
  | other (h8 : regs.scause ≠ 8) (hu : (st.processTable i).state ≠ .unused)
      (hm : memoryOf st' i = memoryOf st i) (hheap : SameHeap st st' i)

theorem trap_fate (hset : Settled L st) (hs : Step L st (.trap regs input) st')
    (hi : (st'.processTable i).state ≠ .unused) : TrapFate L st regs st' i := by
  cases hs with
  | trap _ _ _ hd h =>
    rcases takeTrap_marked hset h with ⟨h8, hm⟩ | ⟨h8, hsame⟩
    · have hsave := (benign_saveFrame regs st).sound hset.sound
      have hst := (calm_saveFrame regs st).steady hset.steady
      have hcur : Steady (saveFrame regs st).currentProc (saveFrame regs st) := hst.frame ▸ hst
      have hsound := (acts_entered (L := L) hcur).sound hsave
      exact .call h8 (hm.memoryFate hsound ((calm_entered _).steady hst) hi)
    · exact .other h8 (fun h0 => hi ((hsame.used i).mpr h0)) (hsame.memoryOf_eq i) (hsame.heap i)

theorem TrapFate.of_other (hset : Settled L st) (h : TrapFate L st regs st' i)
    (hi : i ≠ st.currentProc) :
    ((st.processTable i).state ≠ .unused ∧ memoryOf st' i = memoryOf st i ∧ SameHeap st st' i) ∨
      regs.a7 = sysFork := by
  have hsame := sameSpaces_called regs st
  cases h with
  | other _ hu hm hheap => exact Or.inl ⟨hu, hm, hheap⟩
  | call _ h =>
    cases h with
    | kept hu hm hheap =>
      exact Or.inl ⟨fun h0 => hu ((hsame.used i).mpr h0), hm.trans (hsame.memoryOf_eq i),
        (hsame.heap i).trans hheap⟩
    | filled _ hcur => exact absurd hcur hi
    | grown _ hcur => exact absurd hcur hi
    | shrunk _ hcur => exact absurd hcur hi
    | execed _ hcur => exact absurd hcur hi
    | forked h7 => exact Or.inr ((called_regs hset regs).1.symm.trans h7)

theorem reachable_heapMax (h : Reachable L ram st) (hu : (st.processTable i).state ≠ .unused) :
    (st.processTable i).heapMax = userStackBase - 4096 := by
  induction h generalizing i with
  | boot st h =>
    have hone : i = st.currentProc := by
      by_contra hne
      have hc : (coord st).state i = .unused := by
        rw [(booted h).2]
        exact if_neg hne
      exact hu hc
    subst hone
    obtain ⟨_, _, _, _, _, _, -, hinst, -⟩ := installed h
    exact hinst.heapMax
  | @step s s' e h hs ih =>
    have hset := reachable_settled h
    cases e with
    | store va b =>
      have hp := (store_stored hset hs).processTable
      rw [hp] at hu ⊢
      exact ih hu
    | trap regs input =>
      have hsame := sameSpaces_called regs s
      have hmax : ∀ j, (s.processTable j).state ≠ .unused →
          ((entered (saveFrame regs s)).processTable j).heapMax = userStackBase - 4096 :=
        fun j hj => (hsame.heap j).heapMax.trans (ih hj)
      have hused : ∀ j, ((entered (saveFrame regs s)).processTable j).state ≠ .unused →
          (s.processTable j).state ≠ .unused := fun j hj h0 => hj ((hsame.used j).mpr h0)
      cases trap_fate hset hs hu with
      | other _ hu' _ hheap => exact hheap.heapMax.trans (ih hu')
      | call _ hf =>
        cases hf with
        | kept hu' _ hheap => exact hheap.heapMax.trans (hmax i (hused i hu'))
        | filled _ hcur _ _ _ _ hheap =>
          rw [hcur] at hheap ⊢
          exact hheap.heapMax.trans (hmax _ hset.steady.used)
        | grown _ hcur _ _ _ _ _ hm _ =>
          rw [hcur] at hm ⊢
          exact hm.trans (hmax _ hset.steady.used)
        | shrunk _ hcur _ _ _ _ hheap =>
          rw [hcur] at hheap ⊢
          exact hheap.heapMax.trans (hmax _ hset.steady.used)
        | execed _ _ _ _ _ _ _ _ _ _ _ _ _ hm _ => exact hm
        | forked _ _ _ _ hm => exact hm.trans (hmax _ hset.steady.used)

end Steps

end Lazux

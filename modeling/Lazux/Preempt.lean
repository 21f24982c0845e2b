import Lazux.Context
import Lazux.Turns

/-! # An interrupted process does not notice

From the trap that takes the processor away from a process to the one that gives it back,
its saved registers, its record and its memory stay as they are. -/
namespace Lazux

open PagedMemory RadixForest Run Trace Reg Csr

/-- Process `p` has not changed but for its place in the schedule. -/
structure Frozen (p : Slot) (st st' : KState) : Prop where
  record : ∃ s c, st'.processTable p = { st.processTable p with state := s, chan := c }
  roles : ∀ r : Role Slot (Fin 512), r.owner = p →
    held st'.phys (trees st') r = held st.phys (trees st) r
  entries : ∀ q, entry st'.phys.mem ((trees st').root p) q = entry st.phys.mem ((trees st).root p) q
  contents : ∀ (r : Role Slot (Fin 512)) (f : ℕ), r.owner = p → held st.phys (trees st) r = some f →
    st'.phys.mem f = st.phys.mem f

/-- The machine runs while other processes have the processor. -/
abbrev Others (L : Layout) (p : Slot) : KState → KState → Prop :=
  Relation.ReflTransGen fun st st' => st.currentProc ≠ p ∧ ∃ e, Step L st e st'

variable {L : Layout} {ram : Memory} {st st' st'' mid : KState} {ls : List Label} {p : Slot}
  {regs : TrapFrame} {input : Input} {e : Event}

namespace Frozen

theorem refl (p : Slot) (st : KState) : Frozen p st st :=
  ⟨⟨_, _, rfl⟩, fun _ _ => rfl, fun _ => rfl, fun _ _ _ _ => rfl⟩

theorem trans (h : Frozen p st st') (h' : Frozen p st' st'') : Frozen p st st'' := by
  constructor
  · obtain ⟨s, c, h1⟩ := h.record
    obtain ⟨s', c', h2⟩ := h'.record
    rw [h1] at h2
    exact ⟨s', c', h2⟩
  · intro r hr
    exact (h'.roles r hr).trans (h.roles r hr)
  · intro q
    exact (h'.entries q).trans (h.entries q)
  · intro r f hr hf
    have hf' := (h.roles r hr).trans hf
    exact (h'.contents r f hr hf').trans (h.contents r f hr hf)

theorem of_record (hphys : st'.phys = st.phys)
    (hrec : ∃ s c, st'.processTable p = { st.processTable p with state := s, chan := c })
    (hu : (st.processTable p).state ≠ .unused) (hu' : (st'.processTable p).state ≠ .unused) :
    Frozen p st st' := by
  have htable : (st'.processTable p).pageTable = (st.processTable p).pageTable ∧
      (st'.processTable p).kernelStack = (st.processTable p).kernelStack := by
    obtain ⟨s, c, h⟩ := hrec
    rw [h]
    exact ⟨rfl, rfl⟩
  have hroot : (trees st').root p = (trees st).root p := by
    simp only [trees, if_neg hu, if_neg hu']
    exact htable.1
  have hextra : (trees st').extra p = (trees st).extra p := by
    simp only [trees, if_neg hu, if_neg hu']
    exact htable.2
  refine ⟨hrec, ?_, fun q => by rw [hphys, hroot], fun r f _ _ => by rw [hphys]⟩
  rintro (i | ⟨i, path⟩) hi
  · have hi : i = p := hi
    rw [hi]
    exact hextra
  · have hi : i = p := hi
    rw [hi, held_node, held_node, hphys, hroot]

/-- A process that waits for the processor is left alone by what others do. -/
theorem of_act (h : Act L st ls st') (hs : Sound L st) (hp : p ≠ st.currentProc)
    (hr : (st.processTable p).state = .ready) : Frozen p st st' := by
  obtain ⟨hheld, hentry⟩ := h.ready_memory hs hp hr
  refine ⟨⟨_, _, h.ready hp hr⟩, fun r ho => (hheld r ho).1, hentry, fun r f ho hf => ?_⟩
  exact (hheld r ho).2 f hf

theorem of_acts (h : Acts L st ls st') (hs : Sound L st) (hp : p ≠ st.currentProc)
    (hr : (st.processTable p).state = .ready) :
    Frozen p st st' ∧ (st'.processTable p).state = .ready := by
  induction h with
  | refl => exact ⟨refl p _, hr⟩
  | @tail t u ls ms hpath hact ih =>
    obtain ⟨hfrozen, hready⟩ := ih
    have hcur : p ≠ t.currentProc := by
      rw [Acts.currentProc hpath]
      exact hp
    refine ⟨hfrozen.trans (of_act hact (Acts.sound hpath hs) hcur hready), ?_⟩
    rw [hact.ready hcur hready]
    exact hready

theorem of_does {r : Slot × KState} (h : Does L st ls r) (hs : Sound L st)
    (hp : p ≠ st.currentProc) (hr : (st.processTable p).state = .ready) :
    Frozen p st r.2 ∧ (r.2.currentProc = p ∨ (r.2.processTable p).state = .ready) := by
  cases h with
  | stays h =>
    obtain ⟨hfrozen, hready⟩ := of_acts h hs hp hr
    exact ⟨hfrozen, Or.inr hready⟩
  | @switches ls mid next h hc hnext =>
    obtain ⟨hfrozen, hready⟩ := of_acts h hs hp hr
    by_cases hpn : p = next
    · subst hpn
      have hrec : (dispatched p mid).processTable p =
          { mid.processTable p with state := .running } := modifyProc_self ..
      refine ⟨hfrozen.trans (of_record rfl ⟨_, _, hrec⟩ ?_ ?_), Or.inl rfl⟩
      · rw [hready]
        decide
      · rw [hrec]
        exact fun h => by cases h
    · have hrec : (dispatched next mid).processTable p = mid.processTable p :=
        modifyProc_of_ne _ hpn _
      have hready' : ((dispatched next mid).processTable p).state = .ready := by
        rw [hrec]
        exact hready
      refine ⟨hfrozen.trans (of_record rfl ⟨_, _, hrec⟩ ?_ ?_), Or.inr hready'⟩
      · rw [hready]
        decide
      · rw [hready']
        decide

end Frozen

/-- Saving the registers of one process leaves the others alone. -/
theorem frozen_saveFrame (hp : p ≠ st.sscratch) (hr : (st.processTable p).state = .ready) :
    Frozen p st (saveFrame regs st) ∧
      ((saveFrame regs st).processTable p).state = .ready := by
  have hrec : (saveFrame regs st).processTable p = st.processTable p := by
    rw [saveFrame, KState.setFrame, modifyProc_of_ne _ hp]
  have hready : ((saveFrame regs st).processTable p).state = .ready := by
    rw [hrec]
    exact hr
  refine ⟨.of_record rfl ⟨_, _, hrec⟩ ?_ ?_, hready⟩
  · rw [hr]
    decide
  · rw [hready]
    decide

/-- One step of the machine while another process runs. -/
theorem frozen_step (hset : Settled L st) (hs : Step L st e st') (hp : p ≠ st.currentProc)
    (hr : (st.processTable p).state = .ready) :
    Frozen p st st' ∧ (st'.currentProc = p ∨ (st'.processTable p).state = .ready) := by
  obtain ⟨hsound, hst, -⟩ := hset
  cases hs with
  | store va b pa hpa =>
    have hact := store_act hsound hst hpa b
    exact ⟨.of_act hact hsound hp hr, Or.inr hr⟩
  | trap regs input _ hd ht =>
    obtain ⟨ls, ⟨tf, mid⟩, hdoes, hsteady, -, rfl⟩ := takeTrap_does hsound hst ht
    have hps : p ≠ st.sscratch := by
      rw [hst.frame]
      exact hp
    obtain ⟨hsaved, hready⟩ := @frozen_saveFrame _ _ regs hps hr
    obtain ⟨hdone, hback⟩ :=
      Frozen.of_does hdoes ((benign_saveFrame regs st).sound hsound) hp hready
    have hres : Frozen p mid (resume tf mid) := by
      rcases hback with hcur | hready'
      · have hused : (mid.processTable p).state ≠ .unused := by
          rw [← hcur]
          exact hsteady.used
        exact .of_record rfl ⟨_, _, rfl⟩ hused hused
      · have hused : (mid.processTable p).state ≠ .unused := by
          rw [hready']
          decide
        exact .of_record rfl ⟨_, _, rfl⟩ hused hused
    exact ⟨(hsaved.trans hdone).trans hres, hback⟩

theorem settled_others (h : Others L p st st') (hset : Settled L st) : Settled L st' := by
  induction h with
  | refl => exact hset
  | tail _ hs ih =>
    obtain ⟨-, e, hs⟩ := hs
    exact settled_step ih hs

/-- A process that waits is as it was when its turn comes, and waits until then. -/
theorem frozen_others (h : Others L p st st') (hset : Settled L st)
    (hwait : st.currentProc = p ∨ (st.processTable p).state = .ready) :
    Frozen p st st' ∧ (st'.currentProc = p ∨ (st'.processTable p).state = .ready) := by
  induction h with
  | refl => exact ⟨.refl p _, hwait⟩
  | tail hrun hs ih =>
    obtain ⟨hfrozen, hback⟩ := ih
    obtain ⟨hne, e, hs⟩ := hs
    have hready := hback.resolve_left hne
    obtain ⟨hstep, hback'⟩ := frozen_step (settled_others hrun hset) hs (Ne.symm hne) hready
    exact ⟨hfrozen.trans hstep, hback'⟩

theorem frozen_interrupt (hset : Settled L st) (hi : regs.scause.msb = true)
    (h : takeTrap L regs input st = .ok st') : Frozen st.currentProc (saveFrame regs st) st' ∧
      (st'.currentProc = st.currentProc ∨ (st'.processTable st.currentProc).state = .ready) := by
  obtain ⟨hsound, hst, -⟩ := hset
  obtain ⟨ls, ⟨tf, mid⟩, hdoes, hsteady, hhandled, rfl⟩ := takeTrap_does hsound hst h
  have hst' := (calm_saveFrame regs st).steady hst
  have hcur := hst'.running
  have hcause : (saveFrame regs st).scause = regs.scause := by
    rw [KState.scause, ← hst'.frame, frameOf_saveFrame]
  have hsw : Switched (saveFrame regs st) (tf, mid) := by
    cases hhandled with
    | tick hm hls hsw => exact hsw
    | device hm hr hls hsw => exact hsw
    | call h8 hserved =>
      rw [hcause] at h8
      rw [h8] at hi
      cases hi
    | fault hm h8 hls hp =>
      rw [hcause, hi] at hm
      cases hm
  have hproc : (saveFrame regs st).currentProc = st.currentProc := rfl
  have hback : mid.currentProc = st.currentProc ∨
      (mid.processTable st.currentProc).state = .ready := by
    by_cases hc : st.currentProc = tf
    · left
      rw [hc]
      exact hsteady.frame.symm
    · right
      exact hsw.waiting _ hc (Or.inr ⟨rfl, hcur⟩)
  refine ⟨?_, hback⟩
  have hused : ((saveFrame regs st).processTable st.currentProc).state ≠ .unused := hst'.used
  refine .of_record hsw.phys (hsw.process _) hused ?_
  rcases hback with hc | hready
  · rw [← hc]
    exact hsteady.used
  · intro hun
    have hun : (mid.processTable st.currentProc).state = .unused := hun
    rw [hready] at hun
    cases hun

theorem Frozen.translate (h : Frozen p st st') (hs : Sound L st) (hs' : Sound L st')
    (hu : (st.processTable p).state ≠ .unused) (hu' : (st'.processTable p).state ≠ .unused)
    (acc : Access) (va : Addr) :
    userTranslate st'.phys.mem (st'.rootOf p) acc va =
    userTranslate st.phys.mem (st.rootOf p) acc va ∧
    ∀ pa, userTranslate st.phys.mem (st.rootOf p) acc va = some pa →
      st'.phys.mem.byte pa = st.phys.mem.byte pa := by
  have hroot := hs.root hu
  have hroot' := hs'.root hu'
  have hentry := h.entries (pageNo va)
  rw [hroot, hroot'] at hentry
  constructor
  · apply Option.ext
    intro pa
    rw [userTranslate_iff (hs.owned.threeLevel hroot),
      userTranslate_iff (hs'.owned.threeLevel hroot'),
      hentry]
  · intro pa hpa
    obtain ⟨-, hleaf, huser, -, rfl⟩ := (userTranslate_iff (hs.owned.threeLevel hroot)).mp hpa
    have hheld := held_of_user hroot hleaf huser
    exact congrFun (h.contents (.node p (pageNo va).leaf) _ rfl hheld) _

section Results

/-- A hart on which the current process of `st` has just been interrupted: `sscratch` points
to the process's frame and the status is the one a trap leaves. -/
structure Interrupted (m : Hart) (st : KState) : Prop where
  frame : Holds (m.mem (m.csr sscratch)) (st.frameOf st.currentProc)
  status : m.csr sstatus = trapStatus st.sstatus
  cause : m.csr scause = timerInterrupt ∨ m.csr scause = externalInterrupt

theorem Interrupted.msb {m : Hart} (h : Interrupted m st) : m.context.scause.msb = true := by
  have he : m.context.scause = m.csr scause := rfl
  rcases h.cause with hc | hc <;> rw [he, hc] <;> decide

theorem Interrupted.delivered {m : Hart} (h : Interrupted m st) : Delivered m.context.scause := by
  intro _
  have he : m.context.scause = m.csr scause := rfl
  rcases h.cause with hc | hc
  · left
    rw [he, hc]
    decide
  · right
    rw [he, hc]
    decide

theorem Interrupted.saved {m : Hart} (h : Interrupted m st) (hst : Steady st.sscratch st) :
    (saveFrame m.context st).frameOf st.currentProc =
      { m.context with kernelSp := (st.frameOf st.currentProc).kernelSp } := by
  rw [← hst.frame, frameOf_saveFrame, ← h.status]
  rfl

/-- An interrupted process gets back all its registers, its program counter, its files, its
heap, its translations and the contents of its pages, whatever other processes do meanwhile. -/
theorem preemption_transparent {m m' : Hart} (h : Reachable L ram st) (hm : Interrupted m st)
    (ht : takeTrap L m.context input st = .ok mid) (hrun : Others L st.currentProc mid st')
    (hback : st'.currentProc = st.currentProc)
    (hm' : Holds (m'.mem (m'.x a0)) (st'.frameOf st.currentProc)) :
    Holds ((exec trapEntry m).mem (m.csr sscratch))
      ((saveFrame m.context st).frameOf st.currentProc) ∧
    (∀ r : Reg, r ≠ 0 → (exec trapReturn m').x r = m.x r) ∧
    (exec trapReturn m').csr sepc = m.csr sepc ∧
    (st'.processTable st.currentProc).openFiles = (st.processTable st.currentProc).openFiles ∧
    (st'.processTable st.currentProc).heapBreak = (st.processTable st.currentProc).heapBreak ∧
    ∀ acc va, userTranslate st'.phys.mem (st'.rootOf st.currentProc) acc va =
        userTranslate st.phys.mem (st.rootOf st.currentProc) acc va ∧
      ∀ pa, userTranslate st.phys.mem (st.rootOf st.currentProc) acc va = some pa →
        st'.phys.mem.byte pa = st.phys.mem.byte pa := by
  have hset := reachable_settled h
  have hmid := settled_step hset (.trap st m.context input mid hm.delivered ht)
  have hset' := settled_others hrun hmid
  obtain ⟨hfirst, hwait⟩ := frozen_interrupt hset hm.msb ht
  obtain ⟨hlater, -⟩ := frozen_others hrun hmid hwait
  have hall := hfirst.trans hlater
  -- the record
  obtain ⟨s, c, hrec⟩ := hall.record
  have hsaved := hm.saved hset.steady
  have hframe : st'.frameOf st.currentProc =
      { m.context with kernelSp := (st.frameOf st.currentProc).kernelSp } := by
    rw [← hsaved, KState.frameOf, hrec]
    rfl
  have hsave : (saveFrame m.context st).processTable st.currentProc =
      { st.processTable st.currentProc with
        trapFrame := (saveFrame m.context st).frameOf st.currentProc } := by
    rw [saveFrame, hset.steady.frame]
    simp [KState.setFrame, KState.frameOf, KState.modifyProc]
  -- the registers
  have hentry := trapEntry_saves hm.frame
  rw [← hsaved] at hentry
  rw [hframe] at hm'
  obtain ⟨hregs, hpc⟩ := context_restored (s := m.csr sstatus) hm'
  refine ⟨hentry.1, hregs, hpc, ?_, ?_, fun acc va => ?_⟩
  · rw [hrec, hsave]
  · rw [hrec, hsave]
  · have hused := hset.steady.used
    have hused' := hset'.steady.used
    rw [hback] at hused'
    have hsound := (benign_saveFrame m.context st).sound hset.sound
    have hst' := (calm_saveFrame m.context st).steady hset.steady
    have htrans := hall.translate hsound hset'.sound hst'.used hused' acc va
    have hroot : (saveFrame m.context st).rootOf st.currentProc = st.rootOf st.currentProc := by
      rw [KState.rootOf, hsave]
      rfl
    have hcur : (saveFrame m.context st).currentProc = st.currentProc := rfl
    rw [hroot] at htrans
    exact htrans

def frameHart (tf : TrapFrame) (x : Reg → Word) (csr : Csr → Word) : Hart :=
  ⟨x, csr, fun _ n => tf.words.getD (n / 8) 0⟩

theorem holds_frameHart (tf : TrapFrame) (x : Reg → Word) (csr : Csr → Word) (p : Word) :
    Holds ((frameHart tf x csr).mem p) tf := by
  intro k
  have hk : 8 * (k : ℕ) / 8 = k := by omega
  exact congrArg (tf.words.getD · 0) hk

/-- What a trap leaves in the control registers on a tick. -/
def tickCsr (status : Word) : Csr → Word
  | .scause => timerInterrupt
  | .sstatus => trapStatus status
  | .sepc => 0x400010
  | _ => 0

def numbered (r : Reg) : Word := BitVec.ofNat 64 (100 + r)

/-- The first process is interrupted, its child runs until the next tick, and the first process
goes on with its registers. -/
theorem preemption_transparent_small : ∃ st mid st' m m', Reachable smallLayout smallRam st ∧
    Interrupted m st ∧ takeTrap smallLayout m.context ⟨⟨0, []⟩, []⟩ st = .ok mid ∧
    mid.currentProc ≠ st.currentProc ∧ Others smallLayout st.currentProc mid st' ∧
    st'.currentProc = st.currentProc ∧ Holds (m'.mem (m'.x a0)) (st'.frameOf st.currentProc) ∧
    (∀ r : Reg, r ≠ 0 → (exec trapReturn m').x r = BitVec.ofNat 64 (100 + r)) ∧
    (exec trapReturn m').csr sepc = 0x400010 := by
  obtain ⟨st0, hboot⟩ := boot_returns smallImage
  obtain ⟨b, st, -, ht0, -, -, -, -, -, htwo, -⟩ := first_forks hboot
  have h : Reachable smallLayout smallRam st :=
    (Reachable.boot st0 hboot).step (.trap _ _ _ _ delivered_fork ht0)
  have hcur : st.currentProc = st0.currentProc := htwo.current
  have hm : Interrupted (frameHart (st.frameOf st.currentProc) numbered (tickCsr st.sstatus)) st :=
    ⟨holds_frameHart _ _ _ _, rfl, Or.inl rfl⟩
  -- the tick hands over to the child
  obtain ⟨n1, mid, hne, hready, ht, hc⟩ := tick_step
    (frameHart (st.frameOf st.currentProc) numbered (tickCsr st.sstatus)).context ⟨⟨0, []⟩, []⟩
    (reachable_settled h) rfl (by rw [hcur]; exact htwo.ne) htwo.state_other
  obtain rfl : n1 = b := htwo.other hready (by decide) (by decide)
  have hmid := h.step (.trap _ _ _ _ hm.delivered ht)
  have htwo' := htwo.handed hc
  have hcur' : mid.currentProc = n1 := htwo'.current
  -- and the next one back
  obtain ⟨n2, st', -, hready', ht', hc'⟩ := tick_step tickTrap ⟨⟨0, []⟩, []⟩
    (reachable_settled hmid) rfl (by rw [hcur']; exact htwo'.ne) htwo'.state_other
  obtain rfl : st0.currentProc = n2 := (htwo'.other hready' (by decide) (by decide)).symm
  have hback : st'.currentProc = st.currentProc := (congrArg Coord.current hc').trans hcur.symm
  have hothers : Others smallLayout st.currentProc mid st' := by
    refine .single ⟨?_, _, .trap _ _ _ _ delivered_tick ht'⟩
    rw [hcur', hcur]
    exact htwo.ne
  have hm' := holds_frameHart (st'.frameOf st.currentProc) (fun _ => 0) (tickCsr 0)
    ((frameHart (st'.frameOf st.currentProc) (fun _ => 0) (tickCsr 0)).x a0)
  obtain ⟨-, hregs, hpc, -⟩ := preemption_transparent h hm ht hothers hback hm'
  refine ⟨st, mid, st', _, _, h, hm, ht, ?_, hothers, hback, hm', hregs, hpc⟩
  rw [hcur', hcur]
  exact htwo.ne

end Results

end Lazux

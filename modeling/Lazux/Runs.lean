import Lazux.Handler

/-! # The steps of the machine

What the kernel relies on between two traps, from boot on. -/
namespace Lazux

open PagedMemory RadixForest Run Trace

variable {L : Layout} {ram : Memory} {st st' : KState} {regs : TrapFrame} {input : Input}

theorem benign_saveFrame (regs : TrapFrame) (st : KState) : Benign st (saveFrame regs st) := by
  have h1 : Benign st { st with sstatus := trapStatus st.sstatus } := benign_same rfl rfl
  exact h1.trans (benign_setFrame _ _ _)

theorem frameOf_saveFrame (regs : TrapFrame) (st : KState) :
    (saveFrame regs st).frameOf st.sscratch = { regs with
      sstatus := trapStatus st.sstatus, kernelSp := (st.frameOf st.sscratch).kernelSp } := by
  simp [saveFrame, KState.setFrame, KState.frameOf, KState.modifyProc]

/-- Traps come from user programs. -/
theorem fromSupervisor_trapStatus (w : Word) : (trapStatus w).getLsbD 8 = false := by
  unfold trapStatus
  split <;> simp

theorem trapHandler_ecall (hst : Steady st.sscratch st) (h8 : regs.scause = 8) :
    trapHandler L input st.sscratch (saveFrame regs st) =
      syscall L input st.sscratch (entered (saveFrame regs st)) := by
  have hst' := (calm_saveFrame regs st).steady hst
  apply trapHandler_call hst'
  · rw [KState.scause, ← hst'.frame, frameOf_saveFrame]
    exact h8
  · rw [frameOf_saveFrame]
    exact fromSupervisor_trapStatus _

theorem frameOf_entered (hst : Steady st.sscratch st) (regs : TrapFrame) :
    (entered (saveFrame regs st)).frameOf st.sscratch = { regs with
      sepc := regs.sepc + 4
      sstatus := trapStatus st.sstatus
      kernelSp := (st.frameOf st.sscratch).kernelSp } := by
  have hcur := ((calm_saveFrame regs st).steady hst).frame
  have hf : (entered (saveFrame regs st)).frameOf st.sscratch =
      { (saveFrame regs st).frameOf st.sscratch with
        sepc := ((saveFrame regs st).frameOf st.sscratch).sepc + 4 } := by
    rw [entered, ← hcur]
    simp [KState.frameOf, KState.setFrame]
  rw [hf, frameOf_saveFrame]

theorem takeTrap_does (hs : Sound L st) (hst : Steady st.sscratch st)
    (h : takeTrap L regs input st = .ok st') : ∃ ls r, Does L (saveFrame regs st) ls r ∧
      Steady r.1 r.2 ∧ Handled L (saveFrame regs st) ls r ∧ st' = resume r.1 r.2 := by
  obtain ⟨⟨tf, mid⟩, hr, h⟩ := bind_eq_ok.mp h
  cases h
  have hu : fromSupervisor ((saveFrame regs st).frameOf st.sscratch) = false := by
    rw [frameOf_saveFrame]
    exact fromSupervisor_trapStatus _
  obtain ⟨ls, hacts, hsteady, hhandled⟩ := does_trapHandler ((benign_saveFrame regs st).sound hs)
    ((calm_saveFrame regs st).steady hst) hu _ hr
  exact ⟨ls, (tf, mid), hacts, hsteady, hhandled, rfl⟩

theorem calm_resume (tf : Slot) (st : KState) : Calm st (resume tf st) :=
  calm_fields st st.phys _ tf st.console

theorem store_act {va pa : Addr} (hs : Sound L st) (hst : Steady st.sscratch st)
    (h : userTranslate st.phys.mem st.satp .write va = some pa) (b : Byte) :
    Act L st [] { st with phys := { st.phys with mem := st.phys.mem.setByte pa b } } := by
  have hroot := hst.root hs
  obtain ⟨-, hleaf, hu, -, rfl⟩ := (userTranslate_iff (hs.owned.threeLevel hroot)).mp h
  exact .store (hst.frame ▸ hst) (pageNo va) _ b (held_of_user hroot hleaf hu)

/-- Between traps memory is sound, the running process is the one the kernel works for, and
the state has been reached by steps of coordination. -/
structure Settled (L : Layout) (st : KState) : Prop where
  sound : Sound L st
  steady : Steady st.sscratch st
  run : ∃ i, Coord.Run (Coord.first i) (coord st)

theorem settled_step {e : Event} (h : Settled L st) (hs : Step L st e st') : Settled L st' := by
  obtain ⟨hsound, hst, i, hrun⟩ := h
  cases hs with
  | store va b pa hpa =>
    have ha := store_act hsound hst hpa b
    have hc := calm_fields st { st.phys with mem := st.phys.mem.setByte pa b } st.sstatus
      st.sscratch st.console
    exact ⟨ha.sound hsound, hc.steady hst, i, hrun.trans ha.run⟩
  | trap regs input _ hd ht =>
    obtain ⟨ls, ⟨tf, mid⟩, hacts, hsteady, -, rfl⟩ := takeTrap_does hsound hst ht
    have hmid := hacts.sound ((benign_saveFrame regs st).sound hsound)
    have hres := calm_resume tf mid
    refine ⟨hmid.withPhys rfl hmid.owned, hres.steady hsteady, i, ?_⟩
    rw [hres.coord]
    refine hrun.trans ?_
    have := hacts.run
    rwa [(calm_saveFrame regs st).coord] at this

theorem reachable_settled (h : Reachable L ram st) : Settled L st := by
  induction h with
  | boot st h =>
    obtain ⟨hs, hc⟩ := booted h
    exact ⟨sound_boot h, hs, st.currentProc, by rw [hc]⟩
  | step _ hs ih => exact settled_step ih hs

theorem reachable_sound (h : Reachable L ram st) : Sound L st := (reachable_settled h).sound

theorem reachable_steady (h : Reachable L ram st) : Steady st.sscratch st :=
  (reachable_settled h).steady

theorem reachable_invariant (h : Reachable L ram st) (hpids : st.nextPid ≤ 2 ^ 31) :
    Coord.Invariant (coord st) := by
  obtain ⟨i, hrun⟩ := (reachable_settled h).run
  exact Coord.run_preserves_invariant hrun hpids (Coord.invariant_first i)

section Spaces

variable {i : Slot} {P : KState → Prop}

/-- Memory and process table are as they were but for states, channels and saved registers,
and no slot is taken or given up. -/
structure Alike (st st' : KState) : Prop where
  phys : st'.phys = st.phys
  used : ∀ i, (st'.processTable i).state = .unused ↔ (st.processTable i).state = .unused
  process : ∀ i, ∃ f s c, st'.processTable i =
    { st.processTable i with trapFrame := f, state := s, chan := c }

theorem Alike.trees_eq (h : Alike st st') : trees st' = trees st := by
  have hroot : ∀ i, (trees st').root i = (trees st).root i := by
    intro i
    obtain ⟨f, s, c, hp⟩ := h.process i
    simp only [trees, h.used, hp]
  have hextra : ∀ i, (trees st').extra i = (trees st).extra i := by
    intro i
    obtain ⟨f, s, c, hp⟩ := h.process i
    simp only [trees, h.used, hp]
  exact congrArg₂ Forest.mk (funext hroot) (funext hextra)

theorem alike_frame (st : KState) (i : Slot) (f : TrapFrame → TrapFrame) :
    Alike st (st.setFrame i f) := by
  refine ⟨rfl, fun j => ?_, fun j => ?_⟩
  · by_cases hj : j = i
    · subst hj
      simp [KState.setFrame]
    · rw [KState.setFrame, modifyProc_of_ne _ hj]
  · by_cases hj : j = i
    · subst hj
      exact ⟨_, _, _, modifyProc_self _ _ _⟩
    · exact ⟨_, _, _, modifyProc_of_ne _ hj _⟩

theorem alike_saveFrame (regs : TrapFrame) (st : KState) : Alike st (saveFrame regs st) := by
  have h := alike_frame { st with sstatus := trapStatus st.sstatus } st.sscratch fun old =>
    { regs with sstatus := trapStatus st.sstatus, kernelSp := old.kernelSp }
  exact ⟨h.phys, h.used, h.process⟩

theorem alike_resume (tf : Slot) (st : KState) : Alike st (resume tf st) :=
  ⟨rfl, fun _ => Iff.rfl, fun _ => ⟨_, _, _, rfl⟩⟩

theorem alike_state {s : ProcState} (hu : (st.processTable i).state ≠ .unused) (hs : s ≠ .unused) :
    Alike st (st.modifyProc i fun p => { p with state := s }) := by
  refine ⟨rfl, fun j => ?_, fun j => ?_⟩
  · by_cases hj : j = i
    · subst hj
      rw [modifyProc_self]
      exact iff_of_false hs hu
    · rw [modifyProc_of_ne _ hj]
  · by_cases hj : j = i
    · subst hj
      exact ⟨_, _, _, modifyProc_self _ _ _⟩
    · exact ⟨_, _, _, modifyProc_of_ne _ hj _⟩

theorem alike_dispatched {next : Slot} (h : (st.processTable next).state = .ready) :
    Alike st (dispatched next st) := by
  have hused : (st.processTable next).state ≠ .unused := by
    rw [h]
    decide
  have ha : Alike { st with currentProc := next, satp := st.rootOf next } (dispatched next st) :=
    alike_state hused (by decide)
  exact ⟨ha.phys, ha.used, ha.process⟩

theorem Acts.keeps (hact : ∀ s s' ls, Sound L s → Act L s ls s' → P s → P s') {ls : List Label}
    (h : Acts L st ls st') (hs : Sound L st) (hp : P st) : P st' := by
  induction h with
  | refl => exact hp
  | tail hacts ha ih => exact hact _ _ _ (Acts.sound hacts hs) ha ih

/-- What every action keeps, whatever becomes of states and saved registers, holds whenever a
program runs. -/
theorem Reachable.keeps (h : Reachable L ram st) (hboot : ∀ s, kmain L ram = .ok s → P s)
    (hact : ∀ s s' ls, Sound L s → Act L s ls s' → P s → P s')
    (halike : ∀ s s', Alike s s' → P s → P s') : P st := by
  induction h with
  | boot s h => exact hboot s h
  | @step s s' e h hs ih =>
    have hset := reachable_settled h
    cases hs with
    | store va b pa hpa => exact hact _ _ _ hset.sound (store_act hset.sound hset.steady hpa b) ih
    | trap regs input _ hd ht =>
      obtain ⟨ls, ⟨tf, mid⟩, hdoes, -, -, rfl⟩ := takeTrap_does hset.sound hset.steady ht
      have hsave := halike _ _ (alike_saveFrame regs s) ih
      have hsound := (benign_saveFrame regs s).sound hset.sound
      apply halike _ _ (alike_resume tf mid)
      cases hdoes with
      | stays hacts => exact hacts.keeps hact hsound hsave
      | switches next hacts hc hr =>
        exact halike _ _ (alike_dispatched hr) (hacts.keeps hact hsound hsave)

end Spaces

end Lazux

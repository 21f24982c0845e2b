import Lazux.Boot
import Lazux.Runs

/-! # Traps that come back

Conditions under which the handler returns, for runs built by hand. -/
namespace Lazux

open PagedMemory RadixForest Run

variable {L : Layout} {ram : Memory} {st st' : KState} {tf next : Slot} {regs : TrapFrame}
  {input : Input} {idle : List Wakeup}

theorem findReady_only {start : Slot} (hr : (st.processTable next).state = .ready)
    (honly : ∀ i, (st.processTable i).state = .ready → i = next) :
    findReady st start = some next := by
  cases hf : findReady st start with
  | none => exact absurd hr (findReady_none hf next)
  | some i => rw [honly i (findReady_some hf)]

theorem schedule_returns (hf : findReady (parked tf st) st.currentProc = some next) :
    schedule idle tf st = .ok (next, dispatched next (parked tf st)) := by
  obtain ⟨handOver, hnext, heq⟩ := schedule_eq idle tf st
  have hawait : awaitReady st.currentProc idle (parked tf st) = .ok (some next, parked tf st) := by
    unfold awaitReady
    cases idle <;> simp [hf]
  rw [heq, hawait, ok_bind]
  exact hnext next (parked tf st)

def timerInterrupt : Word := 0x8000000000000005

def externalInterrupt : Word := 0x8000000000000009

/-- A tick that finds nobody else ready gives the processor back. -/
theorem tick_returns (hst : Steady st.sscratch st) (hc : regs.scause = timerInterrupt)
    (honly : ∀ i, (st.processTable i).state = .ready → i = st.currentProc) :
    ∃ st', takeTrap L regs input st = .ok st' ∧ st'.currentProc = st.currentProc := by
  set s := saveFrame regs st with hs
  have hst' : Steady st.sscratch s := (calm_saveFrame regs st).steady hst
  have hcur : s.currentProc = st.currentProc := rfl
  have hcause : (s.frameOf st.sscratch).scause = timerInterrupt := by
    rw [hs, frameOf_saveFrame]
    exact hc
  have hready : ((parked st.sscratch s).processTable st.currentProc).state = .ready := by
    have hrun : (s.processTable s.currentProc).state = .running := hst'.running
    rw [← hcur, parked, modifyProc_self]
    simp [hrun]
  have hothers : ∀ i, ((parked st.sscratch s).processTable i).state = .ready →
      i = st.currentProc := by
    intro i hi
    by_contra hne
    have hsame : (parked st.sscratch s).processTable i = s.processTable i :=
      modifyProc_of_ne _ hne _
    rw [hsame, (calm_saveFrame regs st).state] at hi
    exact hne (honly i hi)
  have hf : findReady (parked st.sscratch s) s.currentProc = some st.currentProc :=
    findReady_only hready hothers
  have hsched : trapHandler L input st.sscratch s =
      .ok (st.currentProc, dispatched st.currentProc (parked st.sscratch s)) := by
    unfold trapHandler
    dsimp only
    rw [hcause, if_pos (by decide), if_pos (by decide)]
    exact schedule_returns hf
  refine ⟨resume st.currentProc (dispatched st.currentProc (parked st.sscratch s)), ?_, rfl⟩
  rw [takeTrap, ← hs, hsched]
  rfl

theorem booted_alone (h : kmain L ram = .ok st) {i : Slot} (hi : i ≠ st.currentProc) :
    (st.processTable i).state = .unused := by
  have hc := congrFun (congrArg Coord.state (booted h).2) i
  simpa [coord, Coord.first, hi] using hc

theorem booted_files (h : kmain L ram = .ok st) : st.current.openFiles = initProcessFds := by
  obtain ⟨rootPt, p1, p2, c, ha, hk, hstart⟩ := kmain_result h
  cases hstart with
  | started i mid fin entry console hp he hl =>
    obtain ⟨phoff, phnum, start, page, maxEnd, q1, q2, hl⟩ := loadElf_true hl
    cases hp with
    | created _ hu root stack r1 r2 r3 ha' hk' hs' =>
    rw [hl.result]
    simp [KState.current, KState.modifyProc]

end Lazux

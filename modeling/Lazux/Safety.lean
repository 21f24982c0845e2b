import Lazux.Boot
import Lazux.Turns

/-! # Safety in every reachable state

No frame has two uses and no wakeup is lost. -/
namespace Lazux

open PagedMemory RadixForest Run

variable {L : Layout} {ram : Memory} {st : KState}

/-- The tables, kernel stacks and user pages of the processes are different frames, all of
them in use, none of them reserved at boot, and none of them is handed out. -/
theorem frame_ownership (h : Reachable L ram st) :
    (∀ r s f, held st.phys (trees st) r = some f → held st.phys (trees st) s = some f → r = s) ∧
    (∀ r f, held st.phys (trees st) r = some f →
      InUse st.phys f ∧ ¬ InUse (initPmm L ram) f) ∧
    ∀ n p', pmmAllocPage st.phys = (some n, p') → ∀ r, held st.phys (trees st) r ≠ some n := by
  have hs := reachable_sound h
  refine ⟨hs.owned.distinct, fun r f hf => ?_, fun n p' ha r hr => ?_⟩
  · obtain ⟨hu, hlo⟩ := hs.owned.inUse r f hf
    refine ⟨hu, fun hi => ?_⟩
    have := ((inUse_initPmm L ram f).mp hi).2
    omega
  · obtain ⟨-, hfree, -⟩ := pmmAllocPage_some ha
    exact hfree (hs.owned.inUse r n hr).1

/-- The first process has forked, and its child runs: the pages of the two are different frames. -/
theorem frame_ownership_small : ∃ st i j, Reachable smallLayout smallRam st ∧
    (st.processTable i).state = .ready ∧ (st.processTable j).state = .running ∧ i ≠ j ∧
    (∀ r s f, held st.phys (trees st) r = some f → held st.phys (trees st) s = some f → r = s) ∧
    (∀ r f, held st.phys (trees st) r = some f →
      InUse st.phys f ∧ ¬ InUse (initPmm smallLayout smallRam) f) ∧
    ∀ n p', pmmAllocPage st.phys = (some n, p') → ∀ r, held st.phys (trees st) r ≠ some n := by
  obtain ⟨st0, st1, st2, st3, st4, b, h⟩ := reaping_run
  have hr : Reachable smallLayout smallRam st2 :=
    ((Reachable.boot st0 h.boots).step h.forks).step h.ticks
  exact ⟨st2, st0.currentProc, b, hr, h.ticked.state_other, (h.ticked.state b).trans (if_pos rfl),
    h.ticked.ne, frame_ownership hr⟩

/-- A process sleeps exactly when it has a channel; nobody sleeps while a committed byte
waits; whoever waits for a child has one, and none of them is dead yet. -/
theorem no_lost_wakeup (h : Reachable L ram st) (hpids : st.nextPid ≤ 2 ^ 31) :
    (∀ i, (st.processTable i).chan ≠ none ↔ (st.processTable i).state = .blocked) ∧
    (∀ i, (st.processTable i).state = .blocked → (st.processTable i).chan = some .uartRx →
      st.uart.rxCommit = st.uart.rxTail) ∧
    ∀ i, (st.processTable i).state = .blocked → (st.processTable i).chan = some (.pcb i) →
      (∃ j, (st.processTable j).state ≠ .unused ∧
        (st.processTable j).parentPid = (st.processTable i).pid) ∧
      ∀ j, (st.processTable j).parentPid = (st.processTable i).pid →
        (st.processTable j).state ≠ .zombie := by
  have hinv := reachable_invariant h hpids
  refine ⟨hinv.chan_iff, fun i _ hc => ?_, fun i _ hc => ⟨hinv.child i hc, fun j hp hz => ?_⟩⟩
  · have hr : decide (st.uart.rxCommit ≠ st.uart.rxTail) = false := hinv.ring i hc
    simpa using hr
  · exact hinv.no_zombie i hc j hz hp

/-- The first process waits for its two children, one of which waits for the terminal. -/
theorem no_lost_wakeup_small : ∃ st i j, Reachable smallLayout smallRam st ∧
    (st.processTable i).state = .blocked ∧ (st.processTable i).chan = some .uartRx ∧
    (st.processTable j).state = .blocked ∧ (st.processTable j).chan = some (.pcb j) ∧
    (∀ k, (st.processTable k).chan ≠ none ↔ (st.processTable k).state = .blocked) ∧
    st.uart.rxCommit = st.uart.rxTail ∧
    (∃ k, (st.processTable k).state ≠ .unused ∧
      (st.processTable k).parentPid = (st.processTable j).pid) ∧
    ∀ k, (st.processTable k).parentPid = (st.processTable j).pid →
      (st.processTable k).state ≠ .zombie := by
  obtain ⟨st, a, n, m, hr, hfiles, hfam⟩ := parent_waits
  have hcur : st.currentProc = n := hfam.current
  have hempty : st.uart.rxCommit = st.uart.rxTail := not_not.mp (of_decide_eq_false hfam.readable)
  -- the child that runs reads the terminal
  have hreads := @read_sleeps smallLayout st readCall (reachable_settled hr) rfl rfl
    (readCall_accepted _ _) 0 (by decide) (by rw [KState.current, hcur, hfiles]; rfl) (by decide)
    hempty
  obtain ⟨k, st', hk, ht, -, hc⟩ := sleep_step ⟨⟨0, []⟩, []⟩ (reachable_settled hr) hreads
    ⟨m, hfam.ready⟩
  have hkn : k ≠ n := by
    rintro rfl
    cases hk.symm.trans hfam.running
  have hka : k ≠ a := by
    rintro rfl
    cases hk.symm.trans hfam.waits
  have hna : n ≠ a := by
    rintro rfl
    cases hfam.running.symm.trans hfam.waits
  have hr' : Reachable smallLayout smallRam st' :=
    hr.step (.trap _ _ _ _ (fun h => absurd h (by decide)) ht)
  have hstate : (coord st').state n = .blocked ∧ (coord st').state a = .blocked := by
    rw [hc, hcur]
    simp [Coord.setState, hkn.symm, hka.symm, hna.symm, hfam.waits]
  have hchan : (coord st').chan n = some .uartRx ∧ (coord st').chan a = some (.pcb a) := by
    rw [hc, hcur]
    simp [hna.symm, hfam.chan]
  have hpids : st'.nextPid ≤ 2 ^ 31 := by
    have hnext : (coord st').nextPid = 4 := by
      rw [hc]
      exact hfam.nextPid
    rw [show st'.nextPid = 4 from hnext]
    decide
  obtain ⟨hsleep, hbyte, hfamily⟩ := no_lost_wakeup hr' hpids
  obtain ⟨hkid, halive⟩ := hfamily a hstate.2 hchan.2
  exact ⟨st', n, a, hr', hstate.1, hchan.1, hstate.2, hchan.2, hsleep,
    hbyte n hstate.1 hchan.1, hkid, halive⟩

end Lazux

import Lazux.Preempt
import Lazux.Turns

/-! # Nobody is overtaken twice

A ready process comes nearer to the current slot with every selection. Between two
selections the other slots may change in any way. -/
namespace Lazux

open PagedMemory Run Trace Cyclic

variable {L : Layout} {ram : Memory} {st st' mid start : KState} {p next tf : Slot}
  {idle : List Wakeup} {sel : List Slot} {input : Input} {e : Event}

/-- Calls of `schedule` that find `p` ready and select somebody else. In between anything may
happen that leaves `current_proc` alone. -/
inductive Waiting (p : Slot) (start : KState) : List Slot → KState → Prop where
  | refl : Waiting p start [] start
  | between {sel : List Slot} {mid st : KState} (h : Waiting p start sel mid)
      (hc : st.currentProc = mid.currentProc) : Waiting p start sel st
  | select {sel : List Slot} {mid st : KState} {idle : List Wakeup} {tf next : Slot}
      (h : Waiting p start sel mid) (hs : schedule idle tf mid = .ok (next, st)) (hn : next ≠ p)
      (hr : (st.processTable p).state = .ready) : Waiting p start (sel ++ [next]) st

section Scan

/-- Whoever is selected lies nearer to the current slot than those left waiting. -/
theorem schedule_nearest (h : schedule idle tf st = .ok (next, st')) (hn : next ≠ p)
    (hr : (st'.processTable p).state = .ready) : st'.currentProc = next ∧
    distance st.currentProc next < distance st.currentProc p := by
  obtain ⟨mid, -, hfound, rfl⟩ := schedule_found h
  refine ⟨rfl, ?_⟩
  have hready : (mid.processTable p).state = .ready := by
    rw [dispatched, modifyProc_of_ne _ hn.symm] at hr
    exact hr
  rw [findReady_scan] at hfound
  have hle := distance_le_of_find hfound (decide_eq_true hready)
  exact lt_of_le_of_ne hle fun he => hn (distance_injective he)

end Scan

/-- What a run of selections leaves of the way from the current slot to `p`. -/
structure Approaches (p : Slot) (start : KState) (sel : List Slot) (st : KState) : Prop where
  nearer : (start.currentProc :: sel).Pairwise fun i j => distance j p < distance i p
  nearest : ∀ i ∈ start.currentProc :: sel, distance st.currentProc p ≤ distance i p
  length : sel.length + distance st.currentProc p ≤ distance start.currentProc p
  unselected : p ∉ sel

theorem Waiting.approaches (h : Waiting p start sel st) : Approaches p start sel st := by
  induction h with
  | refl =>
    constructor
    · exact List.pairwise_singleton _ _
    · intro i hi
      rw [List.mem_singleton.mp hi]
    · exact (Nat.zero_add _).le
    · exact List.not_mem_nil
  | between _ hc ih =>
    constructor
    · exact ih.nearer
    · rw [hc]
      exact ih.nearest
    · rw [hc]
      exact ih.length
    · exact ih.unselected
  | @select sel mid st idle tf next _ hs hn hr ih =>
    obtain ⟨hcur, hlt⟩ := schedule_nearest hs hn hr
    have hway := distance_add hlt
    have hpos := distance_pos mid.currentProc next
    have hless : distance st.currentProc p < distance mid.currentProc p := by
      rw [hcur]
      omega
    constructor
    · rw [← List.cons_append, List.pairwise_append]
      refine ⟨ih.nearer, List.pairwise_singleton _ _, fun i hi j hj => ?_⟩
      rw [List.mem_singleton.mp hj, ← hcur]
      exact hless.trans_le (ih.nearest i hi)
    · intro i hi
      rw [← List.cons_append, List.mem_append, List.mem_singleton] at hi
      rcases hi with hi | rfl
      · exact hless.le.trans (ih.nearest i hi)
      · rw [hcur]
    · have hlen := ih.length
      rw [List.length_append, List.length_singleton]
      omega
    · intro hp
      rcases List.mem_append.mp hp with hp | hp
      · exact ih.unselected hp
      · exact hn (List.mem_singleton.mp hp).symm

theorem Approaches.nodup (h : Approaches p start sel st) : sel.Nodup := by
  apply (List.pairwise_cons.mp h.nearer).2.imp
  intro i j hlt he
  rw [he] at hlt
  exact lt_irrefl _ hlt

/-- While `p` waits no slot is selected twice, every selection brings it nearer, and its own is
at most the 64th. -/
theorem round_robin_never_overtakes_twice (h : Waiting p start sel st) :
    sel.Nodup ∧ p ∉ sel ∧
    (start.currentProc :: sel).Pairwise (fun i j => distance j p < distance i p) ∧
    sel.length + 1 < 64 + 1 := by
  have ha := h.approaches
  refine ⟨ha.nodup, ha.unselected, ha.nearer, ?_⟩
  have hlen := ha.length
  have hpos := distance_pos st.currentProc p
  have hmax := distance_le start.currentProc p
  omega

theorem findReady_next {start : Slot} (h : (st.processTable (start + 1)).state = .ready) :
    findReady st start = some (start + 1) := by
  have hone : distance start (start + 1) = 1 := by
    have hs := distance_scan start 0
    rw [add_zero] at hs
    exact hs
  cases hf : findReady st start with
  | none => exact absurd h (findReady_none hf _)
  | some i =>
    rw [findReady_scan] at hf
    have hle := distance_le_of_find hf (decide_eq_true h)
    have hpos := distance_pos start i
    rw [distance_injective (show distance start i = distance start (start + 1) by omega)]

/-- After boot two processes are made ready and the first of them is selected. -/
theorem round_robin_two_ready : ∃ p start next st, Waiting p start [next] st ∧
    [next].Nodup ∧ p ∉ [next] ∧
    (start.currentProc :: [next]).Pairwise (fun i j => distance j p < distance i p) ∧
    [next].length + 1 < 64 + 1 := by
  obtain ⟨st, hk⟩ := boot_returns smallImage
  obtain ⟨c, hc⟩ : ∃ c, c = st.currentProc := ⟨_, rfl⟩
  obtain ⟨s, hcur, hphys, hproc⟩ : ∃ s : KState, s.currentProc = c ∧ s.phys = st.phys ∧
      ∀ i, i ≠ c → s.processTable i = { st.processTable c with state := .ready } :=
    ⟨{ st with
      currentProc := c
      processTable := fun i =>
        if i = c then st.processTable c else { st.processTable c with state := .ready } },
      rfl, rfl, fun i hi => if_neg hi⟩
  have hne : c + 1 ≠ c := fun h => absurd (add_eq_left.mp h) (by decide)
  have hne2 : c + 2 ≠ c := fun h => absurd (add_eq_left.mp h) (by decide)
  have hne3 : c + 1 ≠ c + 2 := fun h => absurd (add_left_cancel h) (by decide)
  have hother : ∀ i, i ≠ c → (parked c s).processTable i =
      { st.processTable c with state := .ready } := by
    intro i hi
    rw [parked, modifyProc_of_ne _ (hcur ▸ hi)]
    exact hproc i hi
  have hf : findReady (parked c s) s.currentProc = some (c + 1) := by
    rw [hcur]
    apply findReady_next
    rw [hother _ hne]
  have hready : ((dispatched (c + 1) (parked c s)).processTable (c + 2)).state = .ready := by
    rw [dispatched, modifyProc_of_ne _ hne3.symm]
    exact congrArg Process.state (hother _ hne2)
  have hsched : schedule [] c s = .ok (c + 1, dispatched (c + 1) (parked c s)) :=
    schedule_returns hf
  have hw := (Waiting.refl.between (hcur.trans hc)).select hsched hne3 hready
  exact ⟨c + 2, st, c + 1, _, hw, round_robin_never_overtakes_twice hw⟩

section Machine

/-- How the handler of a trap gives the processor on: only `schedule` moves it, and a handler
that resumes another frame than its own has just called it. -/
def Turn (tf : Slot) (st : KState) (r : Slot × KState) : Prop :=
  r.1 = tf ∨ ∃ idle tf' mid, mid.currentProc = st.currentProc ∧ schedule idle tf' mid = .ok r

theorem turn_answer (st mid : KState) (tf : Slot) (w : Word) :
    Ensures (mid.answer tf w) (Turn tf st) := by
  rintro ⟨tf', s⟩ h
  exact Or.inl (answer_result h).1

theorem turn_schedule (hc : mid.currentProc = st.currentProc) (idle : List Wakeup) (tf tf' : Slot) :
    Ensures (schedule idle tf' mid) (Turn tf st) :=
  fun _ h => Or.inr ⟨idle, tf', mid, hc, h⟩

theorem turn_exit (idle : List Wakeup) (tf : Slot) (hc : mid.currentProc = st.currentProc) :
    Ensures (exitCurrent idle tf mid) (Turn tf st) := by
  rw [exitCurrent_eq]
  exact turn_schedule ((exiting_fields mid).1.trans hc) idle tf tf

theorem turn_fork (tf : Slot) (st : KState) : Ensures (sysForkCall L tf st) (Turn tf st) := by
  intro r h
  obtain ⟨⟨child, s⟩, -, h⟩ := bind_eq_ok.mp h
  cases child with
  | none => exact turn_answer st s tf _ r h
  | some child =>
    obtain ⟨phys, -, h⟩ := bind_eq_ok.mp h
    cases h
    exact Or.inl rfl

theorem turn_exec (tf : Slot) (st : KState) : Ensures (sysExecCall L tf st) (Turn tf st) := by
  intro r h
  obtain ⟨good, -, h⟩ := bind_eq_ok.mp h
  split at h
  · exact turn_answer st st tf _ r h
  obtain ⟨entry, -, h⟩ := bind_eq_ok.mp h
  split at h
  · exact turn_answer st st tf _ r h
  split at h
  · cases h
  obtain ⟨phys, -, h⟩ := bind_eq_ok.mp h
  obtain ⟨⟨loaded, s⟩, -, h⟩ := bind_eq_ok.mp h
  cases loaded with
  | false => cases h
  | true =>
    cases h
    exact Or.inl rfl

theorem turn_wait (tf : Slot) (st : KState) : Ensures (sysWaitCall input tf st) (Turn tf st) := by
  unfold sysWaitCall
  split
  · exact turn_answer st _ tf _
  split
  · exact turn_answer st st tf _
  · exact turn_schedule rfl _ tf tf

theorem turn_sbrk (tf : Slot) (st : KState) : Ensures (sysSbrkCall tf st) (Turn tf st) := by
  unfold sysSbrkCall
  dsimp only
  split_ifs
  · exact turn_answer st st tf _
  · exact turn_answer st st tf _
  · exact turn_answer st st tf _
  · split <;> exact turn_answer st _ tf _

theorem turn_open (tf : Slot) (st : KState) : Ensures (sysOpenCall L tf st) (Turn tf st) := by
  intro r h
  obtain ⟨good, -, h⟩ := bind_eq_ok.mp h
  split at h
  · exact turn_answer st st tf _ r h
  split at h
  · exact turn_answer st st tf _ r h
  obtain ⟨entry, -, h⟩ := bind_eq_ok.mp h
  split at h <;> exact turn_answer st _ tf _ r h

theorem turn_read (tf : Slot) (st : KState) : Ensures (sysReadCall input tf st) (Turn tf st) := by
  unfold sysReadCall
  dsimp only
  split
  · exact turn_answer st st tf _
  split
  · exact turn_answer st st tf _
  split
  · exact turn_answer st st tf _
  · split
    · exact turn_answer st st tf _
    split
    · exact turn_schedule rfl _ tf tf
    · intro r h
      obtain ⟨s, -, h⟩ := bind_eq_ok.mp h
      obtain ⟨⟨n, s'⟩, -, h⟩ := bind_eq_ok.mp h
      exact turn_answer st s' tf _ r h
  · split
    · exact turn_answer st st tf _
    · intro r h
      obtain ⟨s, -, h⟩ := bind_eq_ok.mp h
      exact turn_answer st _ tf _ r h

theorem turn_write (tf : Slot) (st : KState) : Ensures (sysWriteCall tf st) (Turn tf st) := by
  unfold sysWriteCall
  dsimp only
  split
  · exact turn_answer st st tf _
  split
  · exact turn_answer st st tf _
  split
  · exact turn_answer st st tf _
  · intro r h
    obtain ⟨s, -, h⟩ := bind_eq_ok.mp h
    exact turn_answer st s tf _ r h
  · exact turn_answer st st tf _

theorem turn_close (tf : Slot) (st : KState) : Ensures (sysCloseCall tf st) (Turn tf st) := by
  unfold sysCloseCall
  split
  · exact turn_answer st st tf _
  split
  · exact turn_answer st st tf _
  · exact turn_answer st _ tf _

theorem turn_syscall (tf : Slot) (hc : mid.currentProc = st.currentProc) :
    Ensures (syscall L input tf mid) (Turn tf st) := by
  have hmove : ∀ {x : Outcome}, Ensures x (Turn tf mid) → Ensures x (Turn tf st) := by
    intro x hx r hr
    rcases hx r hr with h | ⟨idle, tf', s, hs, h⟩
    · exact Or.inl h
    · exact Or.inr ⟨idle, tf', s, hs.trans hc, h⟩
  unfold syscall
  dsimp only
  apply hmove
  split_ifs
  · exact turn_answer mid _ tf _
  · exact turn_exit _ tf rfl
  · exact turn_fork tf mid
  · exact turn_exec tf mid
  · exact turn_wait tf mid
  · exact turn_sbrk tf mid
  · exact turn_open tf mid
  · exact turn_read tf mid
  · exact turn_write tf mid
  · exact turn_close tf mid
  · intro r h
    cases h

theorem turn_trapHandler (tf : Slot) (st : KState) :
    Ensures (trapHandler L input tf st) (Turn tf st) := by
  unfold trapHandler
  dsimp only
  split
  · split
    · exact turn_schedule rfl _ tf tf
    split
    · intro r h
      obtain ⟨s, -, h⟩ := bind_eq_ok.mp h
      cases h
      exact Or.inl rfl
    · intro r h
      cases h
  split
  · unfold supervisorTrap
    dsimp only
    split
    · intro r h
      obtain ⟨x, -, h⟩ := bind_eq_ok.mp h
      cases h
      exact Or.inl rfl
    · intro r h
      cases h
  split
  · exact turn_syscall tf rfl
  · obtain ⟨c, hc⟩ := reportFault_eq st "\n[TRAP] U-mode fault (kill)\n" (st.frameOf tf)
    rw [hc]
    exact turn_exit _ tf rfl

def selection (st st' : KState) : List Slot :=
  if st'.currentProc = st.currentProc then [] else [st'.currentProc]

/-- What a step of the machine selects while `p` is ready is another slot than the one that ran
before. -/
theorem waiting_step (hset : Settled L st) (hs : Step L st e st') (hp : p ≠ st'.currentProc)
    (hr : (st'.processTable p).state = .ready) (h : Waiting p start sel st) :
    Waiting p start (sel ++ selection st st') st' := by
  have hafter := (settled_step hset hs).steady.frame
  cases hs with
  | store =>
    rw [selection, if_pos rfl, List.append_nil]
    exact h.between rfl
  | trap regs input _ hd ht =>
    obtain ⟨⟨tf, mid⟩, hm, hres⟩ := bind_eq_ok.mp ht
    cases hres
    have hcur : tf = mid.currentProc := hafter
    rcases turn_trapHandler st.sscratch (saveFrame regs st) _ hm with
      hsame | ⟨idle, tf', s, hc, hsched⟩
    · have hstays : mid.currentProc = st.currentProc :=
        hcur.symm.trans (hsame.trans hset.steady.frame)
      rw [selection, if_pos (show (resume tf mid).currentProc = st.currentProc from hstays),
        List.append_nil]
      exact h.between hstays
    · have hn : tf ≠ p := hcur ▸ hp.symm
      obtain ⟨-, hlt⟩ := schedule_nearest hsched hn hr
      have hmoves : ¬ (resume tf mid).currentProc = st.currentProc := by
        intro he
        change mid.currentProc = st.currentProc at he
        have hsame : tf = s.currentProc := (hcur.trans he).trans hc.symm
        rw [hsame] at hlt
        exact absurd hlt (distance_self_max _ _).not_gt
      have hafter' := (h.between hc).select hsched hn hr
      rw [hcur] at hafter'
      rw [selection, if_neg hmoves]
      exact hafter'.between rfl

/-- Steps of the machine after each of which `p` is ready and somebody else runs, with the slots
that got the processor. -/
inductive Postponed (L : Layout) (p : Slot) (st : KState) : List Slot → KState → Prop where
  | refl : Postponed L p st [] st
  | step {sel : List Slot} {mid st' : KState} {e : Event} (h : Postponed L p st sel mid)
      (hs : Step L mid e st') (hp : p ≠ st'.currentProc)
      (hr : (st'.processTable p).state = .ready) : Postponed L p st (sel ++ selection mid st') st'

theorem Postponed.waiting (hset : Settled L st) (h : Postponed L p st sel st') :
    Settled L st' ∧ Waiting p st sel st' := by
  induction h with
  | refl => exact ⟨hset, .refl⟩
  | step _ hs hp hr ih => exact ⟨settled_step ih.1 hs, waiting_step ih.1 hs hp hr ih.2⟩

/-- A process that is ready gets the processor before any other has had it twice. -/
theorem reachable_waits_one_round (h : Reachable L ram st) (hk : Postponed L p st sel st') :
    sel.Nodup ∧ sel.length + distance st'.currentProc p ≤ distance st.currentProc p := by
  have ha := (hk.waiting (reachable_settled h)).2.approaches
  exact ⟨ha.nodup, ha.length⟩

end Machine

end Lazux

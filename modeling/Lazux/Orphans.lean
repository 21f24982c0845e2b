import Lazux.Turns

/-! # Who is left to reap a zombie

A zombie is freed by its parent only. `exit_current` leaves the children of a dying process
as they are. -/
namespace Lazux

open PagedMemory RadixForest Run Trace

namespace Coord

/-- The process `kmain` makes. -/
def Initial (c : Coord) (i : Slot) : Prop := c.pid i = 1 ∧ c.parent i = 0

/-- A slot is in use and its process has not exited. -/
def Alive (c : Coord) (i : Slot) : Prop := c.state i ≠ .unused ∧ c.state i ≠ .zombie

/-- Every zombie has a parent that can still wait for it. -/
def Reapable (c : Coord) : Prop :=
  ∀ i, c.state i = .zombie → ¬ c.Initial i → ∃ j, c.pid j = c.parent i ∧ c.Alive j

/-- The running process may die: it has no zombie child, and its own parent is alive. -/
structure MayDie (c : Coord) : Prop where
  children : ∀ i, c.state i = .zombie → ¬ c.Initial i → c.parent i ≠ c.pid c.current
  parent : ¬ c.Initial c.current → ∃ j, j ≠ c.current ∧ c.pid j = c.parent c.current ∧ c.Alive j

variable {c c' : Coord} {ls : List Label}

theorem Quiet.initial (h : c.Quiet c') {i : Slot} (hu : c.state i ≠ .unused) :
    c'.Initial i ↔ c.Initial i := by
  rw [Initial, Initial, h.pid i hu, h.parent i hu]

theorem Quiet.alive_iff (h : c.Quiet c') (i : Slot) : c'.Alive i ↔ c.Alive i := by
  exact and_congr (not_congr (h.unused i)) (not_congr (h.zombie i))

theorem Quiet.reapable_iff (h : c.Quiet c') : c'.Reapable ↔ c.Reapable := by
  have hused : ∀ {i}, c.state i = .zombie → c.state i ≠ .unused := by
    intro i hz
    rw [hz]
    decide
  constructor
  · intro hr i hz hi
    have hu := hused hz
    obtain ⟨j, hj, ha⟩ := hr i ((h.zombie i).mpr hz) fun hn => hi ((h.initial hu).mp hn)
    have ha' := (h.alive_iff j).mp ha
    rw [h.pid j ha'.1, h.parent i hu] at hj
    exact ⟨j, hj, ha'⟩
  · intro hr i hz hi
    have hz' := (h.zombie i).mp hz
    have hu := hused hz'
    obtain ⟨j, hj, ha⟩ := hr i hz' fun hn => hi ((h.initial hu).mpr hn)
    refine ⟨j, ?_, (h.alive_iff j).mpr ha⟩
    rw [h.pid j ha.1, h.parent i hu]
    exact hj

end Coord

open Coord

variable {c c' : Coord} {L : Layout} {ram : Memory} {st st' : KState} {ls : List Label} {tf : Slot}
  {regs : TrapFrame} {input : Input} {e : Event} {r : Slot × KState}

section Steps

/-- Births and waits leave no zombie without a parent. -/
theorem Kinship.reapable (h : Kinship c ls c') (hd : ∀ k, .died k ∉ ls) (hr : c.Reapable) :
    c'.Reapable := by
  cases h with
  | quiet hq => exact hq.reapable_iff.mpr hr
  | born i hrun hu hs hpid hpar hn =>
    intro j hz hi
    have hji : j ≠ i := by
      rintro rfl
      rw [hs, Function.update_self] at hz
      cases hz
    have hsame : ∀ {k}, k ≠ i → c'.state k = c.state k ∧ c'.pid k = c.pid k ∧
        c'.parent k = c.parent k := by
      intro k hk
      rw [hs, hpid, hpar]
      exact ⟨Function.update_of_ne hk _ _, Function.update_of_ne hk _ _,
        Function.update_of_ne hk _ _⟩
    obtain ⟨h1, h2, h3⟩ := hsame hji
    rw [h1] at hz
    rw [Initial, h2, h3] at hi
    obtain ⟨k, hk, ha⟩ := hr j hz hi
    have hki : k ≠ i := by
      rintro rfl
      exact ha.1 hu
    obtain ⟨k1, k2, k3⟩ := hsame hki
    refine ⟨k, by rw [k2, h3]; exact hk, ?_⟩
    rw [Alive, k1]
    exact ha
  | died hrun hq => exact absurd List.mem_cons_self (hd _)
  | reaped i hrun hz hk hs hpid hpar hn =>
    intro j hzj hi
    have hji : j ≠ i := by
      rintro rfl
      rw [hs, Function.update_self] at hzj
      cases hzj
    rw [hs, Function.update_of_ne hji] at hzj
    rw [Initial, hpid j hji, hpar j hji] at hi
    obtain ⟨k, hk, ha⟩ := hr j hzj hi
    have hki : k ≠ i := by
      rintro rfl
      exact ha.2 hz
    refine ⟨k, by rw [hpid k hki, hpar j hji]; exact hk, ?_⟩
    rw [Alive, hs, Function.update_of_ne hki]
    exact ha

/-- A death that may be. -/
theorem Coord.Reapable.die (hr : c.Reapable) (hd : c.MayDie) :
    (c.setState c.current .zombie).Reapable := by
  have hother : ∀ {k}, k ≠ c.current → (c.setState c.current .zombie).state k = c.state k :=
    fun hk => Function.update_of_ne hk _ _
  intro i hz hi
  have hparent : ∃ j, j ≠ c.current ∧ c.pid j = c.parent i ∧ c.Alive j := by
    by_cases hic : i = c.current
    · rw [hic] at hi ⊢
      exact hd.parent hi
    · rw [hother hic] at hz
      obtain ⟨j, hj, ha⟩ := hr i hz hi
      refine ⟨j, ?_, hj, ha⟩
      rintro rfl
      exact hd.children i hz hi hj.symm
  obtain ⟨j, hjc, hj, ha⟩ := hparent
  refine ⟨j, hj, ?_⟩
  rw [Alive, hother hjc]
  exact ha

/-- And one that may not. -/
theorem Coord.Reapable.mayDie (hinv : c.Invariant) (hrun : c.state c.current = .running)
    (hr : (c.setState c.current .zombie).Reapable) : c.MayDie := by
  have hself : (c.setState c.current .zombie).state c.current = .zombie := Function.update_self ..
  have hother : ∀ {k}, k ≠ c.current → (c.setState c.current .zombie).state k = c.state k :=
    fun hk => Function.update_of_ne hk _ _
  have hlive : ∀ {j}, (c.setState c.current .zombie).Alive j → j ≠ c.current ∧ c.Alive j := by
    intro j ha
    have hjc : j ≠ c.current := by
      rintro rfl
      exact ha.2 hself
    rw [Alive, hother hjc] at ha
    exact ⟨hjc, ha⟩
  constructor
  · intro i hz hi hp
    have hic : i ≠ c.current := by
      rintro rfl
      rw [hrun] at hz
      cases hz
    obtain ⟨j, hj, ha⟩ := hr i ((hother hic).trans hz) hi
    obtain ⟨hjc, ha'⟩ := hlive ha
    have hused : c.state c.current ≠ .unused := by
      rw [hrun]
      decide
    exact hjc (hinv.pid_inj j c.current ha'.1 hused (hj.trans hp))
  · intro hi
    obtain ⟨j, hj, ha⟩ := hr c.current hself hi
    obtain ⟨hjc, ha'⟩ := hlive ha
    exact ⟨j, hjc, hj, ha'⟩

theorem Acts.reapable (h : Acts L st ls st') (hd : ∀ k, .died k ∉ ls)
    (hr : (coord st).Reapable) : (coord st').Reapable := by
  induction h with
  | refl => exact hr
  | tail hp ha ih =>
    have hmid := ih fun k hk => hd k (List.mem_append_left _ hk)
    refine ha.kinship.reapable (fun k hk => ?_) hmid
    exact hd k (List.mem_append_right _ (List.mem_of_mem_filter hk))

theorem Does.reapable (h : Does L st ls r) (hd : ∀ k, .died k ∉ ls) (hr : (coord st).Reapable) :
    (coord r.2).Reapable := by
  cases h with
  | stays h => exact h.reapable hd hr
  | switches next h hc hnext =>
    have hmid := h.reapable (fun k hk => hd k (List.mem_append_left _ hk)) hr
    exact (quiet_dispatched hnext).reapable_iff.mpr hmid

theorem Coord.Quiet.trans {c'' : Coord} (h : c.Quiet c') (h' : c'.Quiet c'') : c.Quiet c'' := by
  have hused : ∀ {i}, c.state i ≠ .unused → c'.state i ≠ .unused :=
    fun hu hn => hu ((h.unused _).mp hn)
  refine ⟨h.nextPid.trans h'.nextPid, fun i => (h'.unused i).trans (h.unused i),
    fun i => (h'.zombie i).trans (h.zombie i), fun i hu => ?_, fun i hu => ?_⟩
  · exact (h'.pid i (hused hu)).trans (h.pid i hu)
  · exact (h'.parent i (hused hu)).trans (h.parent i hu)

theorem Acts.quiet (h : Acts L st ls st') (hf : ls.filter Label.ofFamily = []) :
    (coord st).Quiet (coord st') := by
  induction h with
  | refl => exact .refl _
  | tail hp ha ih =>
    rw [List.filter_append, List.append_eq_nil_iff] at hf
    have hk := ha.kinship
    rw [hf.2] at hk
    cases hk with
    | quiet hq => exact (ih hf.1).trans hq

theorem Does.quiet (h : Does L st ls r) (hf : ls.filter Label.ofFamily = []) :
    (coord st).Quiet (coord r.2) := by
  cases h with
  | stays h => exact h.quiet hf
  | switches next h hc hnext =>
    rw [List.filter_append, List.append_eq_nil_iff] at hf
    exact (h.quiet hf.1).trans (quiet_dispatched hnext)

end Steps

section Traps

/-- The trap ends the process: it calls `SYS_EXIT` or faults. -/
def Kills (regs : TrapFrame) : Prop :=
  regs.scause = 8 ∧ regs.a7 = sysExit ∨ regs.scause.msb = false ∧ regs.scause ≠ 8

theorem no_death_of_family (h : ls.filter Label.ofFamily = []) (k : BitVec 32) :
    .died k ∉ ls := by
  intro hk
  have hmem := List.mem_filter.mpr ⟨hk, (rfl : Label.ofFamily (.died k) = true)⟩
  rw [h] at hmem
  cases hmem

theorem reapable_survived (hset : Settled L st) (hk : ¬ Kills regs)
    (hs : Step L st (.trap regs input) st') (hr : (coord st).Reapable) :
    (coord st').Reapable := by
  have hst := hset.steady
  cases hs with
  | trap _ _ _ hd ht =>
    obtain ⟨ls, ⟨tf, mid⟩, hdoes, -, hhandled, rfl⟩ := takeTrap_does hset.sound hst ht
    have hcause : (saveFrame regs st).scause = regs.scause := by
      rw [KState.scause, ← ((calm_saveFrame regs st).steady hst).frame, frameOf_saveFrame]
    have h7 := @a7_entered _ regs hst
    have hno : ∀ k, .died k ∉ ls := by
      intro k
      cases hhandled with
      | tick h hls hsw => exact no_death_of_family hls.family k
      | device h hr hls hsw => exact no_death_of_family hls.family k
      | fault h h8 hls hp =>
        rw [hcause] at h h8
        exact absurd (Or.inr ⟨h, h8⟩) hk
      | call h8 hserved =>
        rw [hcause] at h8
        cases hserved with
        | exits h hls hp => exact absurd (Or.inl ⟨h8, h7.symm.trans h⟩) hk
        | waits h hkids hz hb hls => exact no_death_of_family hls.family k
        | reads h hread =>
          cases hread with
          | waits hb fd hfd hz he hr hls => exact no_death_of_family hls.family k
          | delivers hb fd hfd hz bytes s hd hs hr => simp
          | _ => simp
        | _ => simp
    rw [(calm_resume tf mid).coord]
    apply hdoes.reapable hno
    rw [(calm_saveFrame regs st).coord]
    exact hr

/-- A trap that ends the process goes on from `exit_current`. -/
theorem killed_schedules (hst : Steady st.sscratch st) (hk : Kills regs) :
    ∃ s, coord s = coord st ∧ Steady st.sscratch s ∧
      ∀ input, trapHandler L input st.sscratch (saveFrame regs st) =
        schedule input.idle st.sscratch (exiting s) := by
  have hst' := (calm_saveFrame regs st).steady hst
  have hu : fromSupervisor ((saveFrame regs st).frameOf st.sscratch) = false := by
    rw [frameOf_saveFrame]
    exact fromSupervisor_trapStatus _
  have hcause : ((saveFrame regs st).frameOf st.sscratch).scause = regs.scause := by
    rw [frameOf_saveFrame]
  rcases hk with ⟨h8, h7⟩ | ⟨hm, h8⟩
  · have hcalm := calm_entered (saveFrame regs st)
    refine ⟨entered (saveFrame regs st), hcalm.coord.trans (calm_saveFrame regs st).coord,
      hcalm.steady hst', fun input => ?_⟩
    rw [trapHandler_ecall hst h8, syscall, frameOf_entered hst, h7, if_neg (by decide), if_pos rfl,
      exitCurrent_eq]
  · have hcalm := calm_reportFault (saveFrame regs st) "\n[TRAP] U-mode fault (kill)\n"
      ((saveFrame regs st).frameOf st.sscratch)
    refine ⟨_, hcalm.coord.trans (calm_saveFrame regs st).coord, hcalm.steady hst', fun input => ?_⟩
    unfold trapHandler
    dsimp only
    rw [hcause, if_neg (by rw [hm]; decide), if_neg (by rw [hu]; decide), if_neg h8, exitCurrent_eq]

theorem reapable_killed (hset : Settled L st) (hk : Kills regs)
    (hs : Step L st (.trap regs input) st') :
    (coord st').Reapable ↔ ((coord st).setState st.currentProc .zombie).Reapable := by
  have hst := hset.steady
  obtain ⟨s, hcoord, hsteady, hsched⟩ := killed_schedules (L := L) hst hk
  cases hs with
  | trap _ _ _ hd ht =>
    obtain ⟨⟨tf, mid⟩, hres, hmid⟩ := bind_eq_ok.mp ht
    cases hmid
    rw [hsched input] at hres
    obtain ⟨hcur, hzombie⟩ := exiting_fields s
    obtain ⟨ls, hdoes, hls, -⟩ := acts_schedule (L := L) (hsteady.frame.trans hcur.symm)
      (Or.inr (by rw [hzombie]; decide)) _ hres
    have hafter := hdoes.quiet hls.family
    have hdeath := kinship_exiting hsteady
    cases hdeath with
    | died _ hq =>
      rw [hcoord] at hq
      rw [(calm_resume tf mid).coord, hafter.reapable_iff, hq.reapable_iff]
      rfl

end Traps

section Waits

variable {hs : List Label}

/-- Pids are positive and distinct; every wait returns a child the caller forked, that has died
since and was never returned before, and gives its slot free; and it says `E_NOENT` exactly
when every forked child has been reaped. -/
theorem wait_reaps_once (h : History L ram hs st) (hlim : st.nextPid ≤ 2 ^ 31) :
    (∀ i, (st.processTable i).state ≠ .unused → 0 < (st.processTable i).pid.toInt) ∧
    (∀ i j, (st.processTable i).state ≠ .unused → (st.processTable j).state ≠ .unused →
      (st.processTable i).pid = (st.processTable j).pid → i = j) ∧
    ∀ regs input st', Step L st (.trap regs input) st' → regs.scause = 8 → regs.a7 = sysWait →
      WaitAnswer hs regs st st' := by
  have hset := reachable_settled h.reachable
  have hst := hset.steady
  have hinv := reachable_invariant h.reachable hlim
  have hkin := h.kin hlim
  refine ⟨fun i hu => ?_, hinv.pid_inj, fun regs input st' hstep h8 h7 => ?_⟩
  · have hpos : 0 < (st.processTable i).pid.toNat := hinv.pid_pos i hu
    have hlt : (st.processTable i).pid.toNat < st.nextPid := hinv.pid_lt i hu
    rw [BitVec.toInt_eq_toNat_of_lt (by omega)]
    exact_mod_cast hpos
  · obtain ⟨ls, r, hserved, rfl⟩ := served_call hset hstep h8
    have h7' : (entered (saveFrame regs st)).a7 = sysWait := (a7_entered hst).trans h7
    have hne : ∀ {w}, (entered (saveFrame regs st)).a7 = w → w ≠ sysWait → False := by
      intro w hw hn
      exact hn (hw.symm.trans h7')
    cases hserved with
    | reaped _ i hz hu hr => exact waitAnswer_reaped hst hinv hlim hkin hz hu hr
    | childless _ hk hr => exact waitAnswer_childless hst hinv hkin hk hr
    | waits _ hk hz hb hls => exact waitAnswer_waits hst hinv hkin hk hb
    | forked h _ => exact (hne h (by decide)).elim
    | forkFailed h _ => exact (hne h (by decide)).elim
    | exits h _ _ => exact (hne h (by decide)).elim
    | reads h _ => exact (hne h (by decide)).elim
    | other _ hw _ _ => exact absurd h7' hw

/-- The first process forks a child, which exits, and waits for it: it is told the child's pid. -/
theorem wait_reaps_once_small : ∃ st st' child,
    History smallLayout smallRam [.forked 1 2, .died 2] st ∧ (st.processTable child).pid = 2 ∧
      Step smallLayout st (.trap waitCall ⟨⟨0, []⟩, []⟩) st' ∧
      (st'.frameOf st.currentProc).a0 = 2 ∧ (st'.processTable child).state = .unused ∧
      History smallLayout smallRam [.forked 1 2, .died 2, .reaped 1 2] st' ∧
      (∀ i, (st.processTable i).state ≠ .unused → 0 < (st.processTable i).pid.toInt) ∧
      (∀ i j, (st.processTable i).state ≠ .unused → (st.processTable j).state ≠ .unused →
        (st.processTable i).pid = (st.processTable j).pid → i = j) ∧
      WaitAnswer [.forked 1 2, .died 2] waitCall st st' := by
  obtain ⟨st0, st1, st2, st3, st4, b, h⟩ := reaping_run
  obtain ⟨hnext, hpid3, -⟩ := h.pid st3 (Or.inr (Or.inr rfl))
  have hpid0 : st0.current.pid = 1 := by
    have hc : (coord st0).pid = (first st0.currentProc).pid := congrArg Coord.pid (booted h.boots).2
    exact (congrFun hc st0.currentProc).trans (if_pos rfl)
  have hpid2 : st2.current.pid = 2 := by
    have hb := (h.pid st2 (Or.inr (Or.inl rfl))).2.1 b
    rw [if_neg h.ticked.ne.symm, if_pos rfl] at hb
    rw [KState.current, show st2.currentProc = b from h.ticked.current]
    exact hb
  have hcur3 : st3.currentProc = st0.currentProc := h.exited.current
  have hpid1 : st3.current.pid = 1 := by
    rw [KState.current, hcur3]
    exact (hpid3 st0.currentProc).trans (if_pos rfl)
  have hforked : observed forkCall st0 st1 = [.forked 1 2] := by
    unfold observed
    dsimp only
    rw [hpid0, h.forkAnswer, if_pos (by decide), if_pos (by decide), if_neg (by decide)]
    rfl
  have hticked : observed tickTrap st1 st2 = [] := by
    unfold observed
    dsimp only
    rw [if_neg (by decide), if_pos (by decide)]
  have hexited : observed exitCall st2 st3 = [.died 2] := by
    unfold observed
    dsimp only
    rw [hpid2, if_pos (by decide), if_neg (by decide), if_neg (by decide), if_pos (by decide)]
  have hreaped : observed waitCall st3 st4 = [.reaped 1 2] := by
    unfold observed
    dsimp only
    rw [hpid1, hcur3, h.waitAnswer.1, h.waitAnswer.2, if_pos (by decide), if_neg (by decide),
      if_pos (by decide), if_pos ⟨by decide, by decide⟩]
    rfl
  have hrun : History smallLayout smallRam [.forked 1 2, .died 2] st3 := by
    have h1 := (History.boot st0 h.boots).trap h.forks
    have h2 := (h1.trap h.ticks).trap h.exits
    rw [hforked, hticked, hexited] at h2
    exact h2
  have hafter := hrun.trap h.waits
  rw [hreaped] at hafter
  obtain ⟨hpos, hdistinct, hwait⟩ := wait_reaps_once hrun (by rw [hnext]; decide)
  refine ⟨st3, st4, b, hrun, ?_, h.waits, ?_, h.gone, hafter, hpos, hdistinct,
    hwait _ _ _ h.waits rfl rfl⟩
  · have hb := hpid3 b
    rw [if_neg h.exited.ne, if_pos rfl] at hb
    exact hb
  · rw [hcur3]
    exact h.waitAnswer.2

end Waits

section Results

/-- The runs in which every process that exits or faults may do so. -/
inductive Orderly (L : Layout) (ram : Memory) : KState → Prop where
  | boot (s : KState) (h : kmain L ram = .ok s) : Orderly L ram s
  | store {s s' : KState} {va : Addr} {b : Byte} (h : Orderly L ram s)
      (hs : Step L s (.store va b) s') : Orderly L ram s'
  | trap {s s' : KState} {regs : TrapFrame} {input : Input} (h : Orderly L ram s)
      (hd : Kills regs → (coord s).MayDie) (hs : Step L s (.trap regs input) s') :
      Orderly L ram s'

theorem Orderly.reachable (h : Orderly L ram st) : Reachable L ram st := by
  induction h with
  | boot s h => exact .boot s h
  | store _ hs ih => exact ih.step hs
  | trap _ _ hs ih => exact ih.step hs

theorem Orderly.reapable (h : Orderly L ram st) : (coord st).Reapable := by
  induction h with
  | boot s h =>
    rw [(booted h).2]
    intro i hz
    by_cases hi : i = s.currentProc
    · simp [first, hi] at hz
    · simp [first, hi] at hz
  | @store s s' va b h hs ih =>
    cases hs with
    | store va b pa hpa => exact ih
  | @trap s s' regs input h hd hs ih =>
    have hset := reachable_settled h.reachable
    by_cases hk : Kills regs
    · exact (reapable_killed hset hk hs).mpr (ih.die (hd hk))
    · exact reapable_survived hset hk hs ih

/-- As long as no process dies that has a zombie child or no live parent, every zombie has a
live parent to wait for it; and any other death leaves a zombie that has none. -/
theorem zombies_have_parents (h : Orderly L ram st) : (coord st).Reapable ∧
    ∀ regs input st', st.nextPid ≤ 2 ^ 31 → Kills regs → Step L st (.trap regs input) st' →
      ((coord st').Reapable ↔ (coord st).MayDie) := by
  have hset := reachable_settled h.reachable
  refine ⟨h.reapable, fun regs input st' hlim hk hs => ?_⟩
  have hinv := reachable_invariant h.reachable hlim
  rw [reapable_killed hset hk hs]
  constructor
  · exact fun hr => hr.mayDie hinv hset.steady.running
  · exact fun hd => h.reapable.die hd

/-- A forked child exits while its parent lives, and so may the parent not yet. -/
theorem zombies_have_parents_small : ∃ st child, Orderly smallLayout smallRam st ∧
    (coord st).state child = .zombie ∧ ¬ (coord st).Initial child ∧ (coord st).Reapable ∧
    ∀ regs input st', Kills regs → Step smallLayout st (.trap regs input) st' →
      ((coord st').Reapable ↔ (coord st).MayDie) := by
  obtain ⟨st0, st1, st2, st3, st4, b, h⟩ := reaping_run
  have hpids2 := h.pid st2 (Or.inr (Or.inl rfl))
  have hpids3 := h.pid st3 (Or.inr (Or.inr rfl))
  have hmay : (coord st2).MayDie := by
    constructor
    · intro i hz
      rw [h.ticked.state] at hz
      split_ifs at hz
    · intro _
      refine ⟨st0.currentProc, ?_, ?_, ?_, ?_⟩
      · rw [h.ticked.current]
        exact h.ticked.ne
      · rw [h.ticked.current, hpids2.2.2, hpids2.2.1, if_pos rfl, if_pos rfl]
      · rw [h.ticked.state_other]
        decide
      · rw [h.ticked.state_other]
        decide
  have hrun : Orderly smallLayout smallRam st3 := by
    refine .trap (.trap (.trap (.boot st0 h.boots) (fun hk => ?_) h.forks) (fun hk => ?_) h.ticks)
      (fun _ => hmay) h.exits
    · exact absurd hk (by unfold Kills; decide)
    · exact absurd hk (by unfold Kills; decide)
  obtain ⟨hreap, hdeath⟩ := zombies_have_parents hrun
  refine ⟨st3, b, hrun, h.exited.state_other, ?_, hreap, fun regs input st' hk hs =>
    hdeath regs input st' (by rw [hpids3.1]; decide) hk hs⟩
  rintro ⟨-, h0⟩
  rw [hpids3.2.2, if_pos rfl] at h0
  exact absurd h0 (by decide)

/-- The first process exits and so does one of its children; nobody is left to wait for it. -/
theorem orphan_unreaped : ∃ st, Reachable smallLayout smallRam st ∧ ¬ (coord st).Reapable := by
  obtain ⟨st2, a, b, c, hr2, -, hthree⟩ := threesome_reachable
  obtain ⟨hba, hca, hcb⟩ := hthree.ne
  have hset2 := reachable_settled hr2
  have hcur2 : st2.currentProc = a := hthree.current
  have hs2 : ∀ i, (st2.processTable i).state = if i = a then .running else if i = b ∨ i = c then
    .ready else .unused := hthree.state
  obtain ⟨n1, st3, hn1, ht3, hc3⟩ := exit_step exitCall ⟨⟨0, []⟩, []⟩ hset2 rfl rfl (fun i => by
    rw [hs2]
    split_ifs <;> decide) ⟨b, by rw [hs2, if_neg hba, if_pos (Or.inl rfl)]⟩
  have hr3 : Reachable smallLayout smallRam st3 := hr2.step (.trap _ _ _ _ delivered_exit ht3)
  have hset3 := reachable_settled hr3
  rw [hcur2] at hc3
  have hchild : n1 ≠ a ∧ (n1 = b ∨ n1 = c) := by
    rw [hs2] at hn1
    split_ifs at hn1 with h1 h2
    exact ⟨h1, h2⟩
  have hs3 : ∀ i, (st3.processTable i).state = if i = n1 then .running else if i = a then .zombie
      else if i = b ∨ i = c then .ready else .unused := by
    intro i
    have hi := congrFun (congrArg Coord.state hc3) i
    have hi : (st3.processTable i).state = _ := hi
    rw [hi]
    simp only [Coord.setState, Function.update_apply]
    by_cases h1 : i = n1
    · rw [if_pos h1, if_pos h1]
    · rw [if_neg h1, if_neg h1]
      by_cases h2 : i = a
      · rw [if_pos h2, if_pos h2]
      · rw [if_neg h2, if_neg h2, hthree.state, if_neg h2]
  have hcur3 : st3.currentProc = n1 := congrArg Coord.current hc3
  obtain ⟨n2, hn2a, hn2b, hn2⟩ : ∃ n2, n2 ≠ n1 ∧ n2 ≠ a ∧ (n2 = b ∨ n2 = c) := by
    rcases hchild.2 with rfl | rfl
    · exact ⟨c, hcb, hca, Or.inr rfl⟩
    · exact ⟨b, hcb.symm, hba, Or.inl rfl⟩
  obtain ⟨n3, st4, hn3, ht4, hc4⟩ := exit_step exitCall ⟨⟨0, []⟩, []⟩ hset3 rfl rfl (fun i => by
    rw [hs3]
    split_ifs <;> decide) ⟨n2, by rw [hs3, if_neg hn2a, if_neg hn2b, if_pos hn2]⟩
  refine ⟨st4, hr3.step (.trap _ _ _ _ delivered_exit ht4), fun hreap => ?_⟩
  rw [hcur3] at hc4
  have hne3 : n3 ≠ n1 ∧ n3 ≠ a := by
    rw [hs3] at hn3
    split_ifs at hn3 with h1 h2
    exact ⟨h1, h2⟩
  have hpid : ∀ i, (coord st4).pid i = (coord st2).pid i := by
    intro i
    rw [hc4, hc3]
    rfl
  have hparent : ∀ i, (coord st4).parent i = (coord st2).parent i := by
    intro i
    rw [hc4, hc3]
    rfl
  have hzombie : ∀ i, i = n1 ∨ i = a → (coord st4).state i = .zombie := by
    intro i hi
    rw [hc4]
    simp only [Coord.setState, Function.update_apply]
    rcases hi with rfl | rfl
    · rw [if_neg hne3.1.symm, if_pos rfl]
    · rw [if_neg hne3.2.symm, if_neg hchild.1.symm]
      have hi := hs3 i
      rw [if_neg hchild.1.symm, if_pos rfl] at hi
      exact hi
  have hinit : ¬ (coord st4).Initial n1 := by
    rintro ⟨-, h0⟩
    rw [hparent, hthree.parent, if_pos hchild.2] at h0
    exact absurd h0 (by decide)
  obtain ⟨j, hj, halive⟩ := hreap n1 (hzombie n1 (Or.inl rfl)) hinit
  rw [hparent, hpid, hthree.parent, if_pos hchild.2, hthree.pid] at hj
  by_cases hja : j = a
  · exact halive.2 (hzombie j (Or.inr hja))
  · rw [if_neg hja] at hj
    split_ifs at hj <;> exact absurd hj (by decide)

end Results

end Lazux

import Lazux.Footprint
import Lazux.Loader
import Lazux.Protection

/-! # Runs under conditions

Some properties hold only as long as the files that are loaded, and the calls of `SYS_SBRK`, are
of a certain kind. -/
namespace Lazux

open PagedMemory RadixForest Run

section Entries

variable {L : Layout} {st st' : KState} {tf : Slot}

theorem Plain.entry_eq (h : Plain st st') (j : Slot) (q : PageNo) :
    entryOf st' j q = entryOf st j q := by
  rw [entryOf, h.trees_eq]
  exact h.writes.entry_eq j q

end Entries

section Fates

variable {L : Layout} {st st' mid : KState} {tf i : Slot} {increment : Word} {ok : Bool}
  {phys : Phys}

theorem trees_grown : trees (grown st increment ok phys) = trees st := by
  cases ok with
  | false => rfl
  | true =>
    rw [grown, if_pos rfl]
    exact (benign_modifyProc { st with phys := phys } st.currentProc (f := fun p =>
      { p with heapBreak := st.current.heapBreak + increment }) Iff.rfl rfl rfl rfl).trees_eq

theorem process_grown (hi : i ≠ st.currentProc) :
    (grown st increment ok phys).processTable i = st.processTable i := by
  cases ok with
  | false => rfl
  | true =>
    rw [grown, if_pos rfl]
    exact modifyProc_of_ne _ hi _

theorem process_grown_self : (grown st increment ok phys).processTable st.currentProc =
    { st.processTable st.currentProc with
      heapBreak := if ok then st.current.heapBreak + increment else st.current.heapBreak } := by
  cases ok with
  | false => rfl
  | true =>
    rw [grown, if_pos rfl]
    exact modifyProc_self _ _ _

theorem AllocProc.refused_process (h : AllocProc L st none mid)
    (hi : (mid.processTable i).state ≠ .unused) : mid.processTable i = st.processTable i := by
  cases h with
  | full hu => rfl
  | noRoot k hu ha =>
    by_cases hk : i = k
    · subst hk
      rw [modifyProc_self] at hi
      exact absurd rfl hi
    · exact modifyProc_of_ne _ hk _
  | noStack k hu root p1 p2 ha hk hb =>
    by_cases hk : i = k
    · subst hk
      rw [modifyProc_self] at hi
      exact absurd rfl hi
    · exact modifyProc_of_ne _ hk _

theorem process_forked {child : Slot} {phys : Phys} (ha : AllocProc L st (some child) mid)
    (hi : i ≠ child) : ∃ f, (forked st mid child phys).processTable i =
      { st.processTable i with trapFrame := f } := by
  obtain ⟨-, -, hother⟩ := ha.of_some
  rw [forked, modifyProc_of_ne _ hi, KState.setA0, KState.setFrame]
  by_cases hj : i = st.currentProc
  · subst hj
    rw [modifyProc_self]
    dsimp only
    rw [hother _ hi]
    exact ⟨_, rfl⟩
  · rw [modifyProc_of_ne _ hj]
    exact ⟨(st.processTable i).trapFrame, hother i hi⟩

/-- What a call makes of process `i`, which there is after it. -/
inductive Fate (L : Layout) (st mid : KState) (i : Slot) : Prop
  | kept (hu : (st.processTable i).state ≠ .unused) (he : ∀ q, entryOf mid i q = entryOf st i q)
      (f : TrapFrame) (fs : Fin 16 → File)
      (hp : mid.processTable i = { st.processTable i with trapFrame := f, openFiles := fs }) :
      Fate L st mid i
  | grown (ok : Bool) (phys : Phys) (h7 : st.a7 = sysSbrk)
      (h : Grow st (st.frameOf st.currentProc).a0 ok phys) (hi : i = st.currentProc)
      (hm : mid = Lazux.grown st (st.frameOf st.currentProc).a0 ok phys) : Fate L st mid i
  | forked (m : KState) (phys : Phys) (ha : AllocProc L st (some i) m) (hne : i ≠ st.currentProc)
      (hc : vmmCopyUvm 2 (m.rootOf st.currentProc) (m.rootOf i) m.phys = .ok phys)
      (hm : mid = Lazux.forked st m i phys) : Fate L st mid i
  | execed (newPt start : ℕ) (pl : List Placement) (maxEnd : Addr) (elf : Addr → Except Stop Byte)
      (phoff phnum : ℕ) (h7 : st.a7 = sysExec) (hf : ExecFile L st.currentProc st elf)
      (hp : Plan elf phoff phnum start pl maxEnd) (hr : Replaced L st mid newPt start pl maxEnd)
      (hi : i = st.currentProc) : Fate L st mid i

theorem Footprint.fate (hs : Sound L st) (hst : Steady tf st) (h : Footprint L st mid)
    (hi : (mid.processTable i).state ≠ .unused) : Fate L st mid i := by
  -- most calls leave most processes alone
  have keep : ∀ j, i ≠ j → Within j st mid → mid.processTable i = st.processTable i →
      Fate L st mid i := by
    intro j hj hw hp
    refine .kept ?_ (hw.entry_other hs.owned hj) (st.processTable i).trapFrame
      (st.processTable i).openFiles hp
    rw [← hp]
    exact hi
  cases h with
  | same =>
      exact .kept hi (fun q => rfl) (st.processTable i).trapFrame (st.processTable i).openFiles rfl
  | filed fd f =>
    have hb := benign_setFile st fd f
    have hu := fun h0 => hi ((hb.used i).mpr h0)
    have he : ∀ q, entryOf (st.setFile fd f) i q = entryOf st i q := by
      intro q
      rw [entryOf, hb.trees_eq]
      exact hb.phys.entry_eq i q
    by_cases hj : i = st.currentProc
    · subst hj
      exact .kept hu he (st.frameOf st.currentProc) _ (modifyProc_self _ _ _)
    · exact .kept hu he (st.processTable i).trapFrame (st.processTable i).openFiles
        (modifyProc_of_ne _ hj _)
  | grown ok phys h7 h =>
    by_cases hj : i = st.currentProc
    · exact .grown ok phys h7 h hj rfl
    · exact keep _ hj (within_grown hs hst h) (process_grown hj)
  | refused _ _ h =>
    have hp := h.refused_process hi
    refine .kept ?_ (h.entry_refused hs i) (st.processTable i).trapFrame
      (st.processTable i).openFiles hp
    rw [← hp]
    exact hi
  | forked child m phys _ ha hne hc =>
    by_cases hj : i = child
    · subst hj
      exact .forked m phys ha hne hc rfl
    · obtain ⟨f, hp⟩ := @process_forked _ _ _ _ _ phys ha hj
      have hw := within_forked hs hst ha hne hc
      refine .kept ?_ (hw.entry_other hs.owned hj) f (st.processTable i).openFiles hp
      rw [hp] at hi
      exact hi
  | execed _ newPt start pl maxEnd elf phoff phnum h7 hf hp hr =>
    by_cases hj : i = st.currentProc
    · exact .execed newPt start pl maxEnd elf phoff phnum h7 hf hp hr hj
    · exact keep _ hj (hr.within hs hst) (hr.other i hj)
  | reaped k hz =>
    have hu : (st.processTable k).state ≠ .unused := by
      rw [(zombieKid_some hz).2]
      decide
    by_cases hj : i = k
    · subst hj
      exact absurd (freeProc_gone hu) hi
    · exact keep k hj (within_freeProc hs hu) (freeProc_of_ne hj)

end Fates

/-- What the files loaded, and the states in which a heap is to grow, have to meet. -/
structure Conduct where
  file : (Addr → Except Stop Byte) → Prop
  growth : KState → Prop

/-- The states a run comes to whose loads and calls of `SYS_SBRK` meet the conditions. -/
inductive Conducted (L : Layout) (ram : Memory) (C : Conduct) : KState → Prop where
  | boot (st) (h : kmain L ram = .ok st) (hfile : ∀ elf, BootFile L ram elf → C.file elf) :
      Conducted L ram C st
  | store {st st' va b} (h : Conducted L ram C st) (hs : Step L st (.store va b) st') :
      Conducted L ram C st'
  | trap {st st' regs input} (h : Conducted L ram C st) (hs : Step L st (.trap regs input) st')
      (hexec : regs.scause = 8 → regs.a7 = sysExec → ∀ elf,
        ExecFile L st.currentProc (entered (saveFrame regs st)) elf → C.file elf)
      (hgrow : regs.scause = 8 → regs.a7 = sysSbrk → C.growth (entered (saveFrame regs st))) :
      Conducted L ram C st'

section Conducted

variable {L : Layout} {ram : Memory} {C : Conduct} {st st' : KState} {P : KState → Prop}

theorem Conducted.reachable (h : Conducted L ram C st) : Reachable L ram st := by
  induction h with
  | boot st h _ => exact .boot st h
  | store _ hs ih => exact .step ih hs
  | trap _ hs _ _ ih => exact .step ih hs

theorem Reachable.conducted (h : Reachable L ram st) (hfile : ∀ elf, C.file elf)
    (hgrow : ∀ s, C.growth s) : Conducted L ram C st := by
  induction h with
  | boot st h => exact .boot st h fun elf _ => hfile elf
  | @step s s' e h hs ih =>
    cases e with
    | store va b => exact .store ih hs
    | trap regs input => exact .trap ih hs (fun _ _ elf _ => hfile elf) fun _ _ => hgrow _

theorem Conducted.mono {C C' : Conduct} (h : Conducted L ram C st)
    (hfile : ∀ elf, C.file elf → C'.file elf) (hgrow : ∀ s, C.growth s → C'.growth s) :
    Conducted L ram C' st := by
  induction h with
  | boot s hk hf => exact .boot s hk fun elf he => hfile elf (hf elf he)
  | store h hs ih => exact .store ih hs
  | trap h hs hexec hsbrk ih =>
    exact .trap ih hs (fun h8 h7 elf he => hfile elf (hexec h8 h7 elf he))
      fun h8 h7 => hgrow _ (hsbrk h8 h7)

theorem KState.a7_entered (hst : Steady st.sscratch st) (regs : TrapFrame) :
    (entered (saveFrame regs st)).a7 = regs.a7 := by
  have hcur : (entered (saveFrame regs st)).currentProc = st.sscratch := hst.frame.symm
  rw [KState.a7, hcur, frameOf_entered hst]

/-- What a trap does to memory and process table under the conditions of a run: it is a call
with its footprint, or nothing but registers and states change. -/
inductive Trapped (L : Layout) (C : Conduct) (st : KState) (regs : TrapFrame) (st' : KState) : Prop
  | call (mid : KState) (h8 : regs.scause = 8) (hs : Sound L (entered (saveFrame regs st)))
      (hst : Steady st.currentProc (entered (saveFrame regs st)))
      (hfoot : Footprint L (entered (saveFrame regs st)) mid) (hplain : Plain mid st')
      (hfile : ∀ elf, (entered (saveFrame regs st)).a7 = sysExec →
        ExecFile L st.currentProc (entered (saveFrame regs st)) elf → C.file elf)
      (hgrow : (entered (saveFrame regs st)).a7 = sysSbrk →
        C.growth (entered (saveFrame regs st))) :
      Trapped L C st regs st'
  | other (h8 : regs.scause ≠ 8) (hplain : Plain st st') : Trapped L C st regs st'

theorem Step.trapped {regs : TrapFrame} {input : Input} (hset : Settled L st)
    (hs : Step L st (.trap regs input) st')
    (hexec : regs.scause = 8 → regs.a7 = sysExec → ∀ elf,
      ExecFile L st.currentProc (entered (saveFrame regs st)) elf → C.file elf)
    (hgrow : regs.scause = 8 → regs.a7 = sysSbrk → C.growth (entered (saveFrame regs st))) :
    Trapped L C st regs st' := by
  cases hs with
  | trap _ _ _ hd ht =>
    rcases takeTrap_leaves hset ht with ⟨h8, mid, hmid, hlast⟩ | ⟨h8, hlast⟩
    · obtain ⟨hsound, hsteady⟩ := hset.called regs
      have h7 := KState.a7_entered hset.steady regs
      rw [hset.steady.frame] at hsteady
      refine .call mid h8 hsound hsteady hmid hlast ?_ ?_
      · intro elf he hf
        exact hexec h8 (h7.symm.trans he) elf hf
      · intro he
        exact hgrow h8 (h7.symm.trans he)
    · exact .other h8 hlast

theorem plain_called (regs : TrapFrame) (st : KState) : Plain st (entered (saveFrame regs st)) :=
  (plain_saveFrame regs st).trans (plain_entered _)

theorem Conducted.keeps (h : Conducted L ram C st)
    (hboot : ∀ s elf phoff phnum start pl maxEnd, kmain L ram = .ok s → C.file elf →
      Plan elf phoff phnum start pl maxEnd → Installed L s pl start maxEnd → P s)
    (hplain : ∀ s s', Plain s s' → P s → P s')
    (hfoot : ∀ s s', Sound L s → Steady s.currentProc s → Footprint L s s' →
      (∀ elf, s.a7 = sysExec → ExecFile L s.currentProc s elf → C.file elf) →
      (s.a7 = sysSbrk → C.growth s) → P s → P s') : P st := by
  induction h with
  | boot s h hfile =>
    obtain ⟨elf, phoff, phnum, start, pl, maxEnd, hplan, hinst, hf, -⟩ := installed h
    exact hboot s elf phoff phnum start pl maxEnd h (hfile elf hf) hplan hinst
  | @store s s' va b h hs ih =>
    have hset := reachable_settled h.reachable
    cases hs with
    | store va b pa hpa => exact hplain _ _ (plain_store hset hpa b) ih
  | @trap s s' regs input h hs hexec hgrow ih =>
    have hset := reachable_settled h.reachable
    cases hs.trapped hset hexec hgrow with
    | call mid h8 hsound hst hmid hlast hfile hgrow =>
      have hentered := hplain _ _ (plain_called regs s) ih
      exact hplain _ _ hlast (hfoot _ _ hsound hst hmid hfile hgrow hentered)
    | other h8 hlast => exact hplain _ _ hlast ih

end Conducted

section Watched

variable {γ : Type*}

/-- A value that is remembered along a run: its first value, and its next one after a trap. -/
structure Watch (γ : Type*) where
  first : KState → γ
  next : γ → KState → TrapFrame → KState → γ

/-- The runs under conditions, with what is remembered of them. -/
inductive Watched (L : Layout) (ram : Memory) (C : Conduct) (W : Watch γ) : γ → KState → Prop where
  | boot (st) (h : kmain L ram = .ok st) (hfile : ∀ elf, BootFile L ram elf → C.file elf) :
      Watched L ram C W (W.first st) st
  | store {g st st' va b} (h : Watched L ram C W g st) (hs : Step L st (.store va b) st') :
      Watched L ram C W g st'
  | trap {g st st' regs input} (h : Watched L ram C W g st) (hs : Step L st (.trap regs input) st')
      (hexec : regs.scause = 8 → regs.a7 = sysExec → ∀ elf,
        ExecFile L st.currentProc (entered (saveFrame regs st)) elf → C.file elf)
      (hgrow : regs.scause = 8 → regs.a7 = sysSbrk → C.growth (entered (saveFrame regs st))) :
      Watched L ram C W (W.next g st regs st') st'

variable {L : Layout} {ram : Memory} {C : Conduct} {st : KState}

theorem Watched.conducted {W : Watch γ} {g : γ} (h : Watched L ram C W g st) :
    Conducted L ram C st := by
  induction h with
  | boot st h hfile => exact .boot st h hfile
  | store _ hs ih => exact .store ih hs
  | trap _ hs hexec hgrow ih => exact .trap ih hs hexec hgrow

/-- What every step keeps of a state and what is remembered holds in a whole run. -/
theorem Watched.keeps {W : Watch γ} {g : γ} {P : γ → KState → Prop} (h : Watched L ram C W g st)
    (hboot : ∀ s elf phoff phnum start pl maxEnd, kmain L ram = .ok s → C.file elf →
      Plan elf phoff phnum start pl maxEnd → Installed L s pl start maxEnd → P (W.first s) s)
    (hstore : ∀ g s s', Plain s s' → P g s → P g s')
    (htrap : ∀ g s regs s', Settled L s → Trapped L C s regs s' → P g s →
      P (W.next g s regs s') s') : P g st := by
  induction h with
  | boot s h hfile =>
    obtain ⟨elf, phoff, phnum, start, pl, maxEnd, hplan, hinst, hf, -⟩ := installed h
    exact hboot s elf phoff phnum start pl maxEnd h (hfile elf hf) hplan hinst
  | @store g s s' va b h hs ih =>
    have hset := reachable_settled h.conducted.reachable
    cases hs with
    | store va b pa hpa => exact hstore g _ _ (plain_store hset hpa b) ih
  | @trap g s s' regs input h hs hexec hgrow ih =>
    have hset := reachable_settled h.conducted.reachable
    exact htrap g s regs s' hset (hs.trapped hset hexec hgrow) ih

end Watched

end Lazux

import Lazux.Spawn

/-! # Every trap keeps the address spaces sound

One lemma for each thing a trap can do. Calls that only write user pages are benign; the
others are followed through the forest of page tables. -/
namespace Lazux

open PagedMemory RadixForest Run

variable {L : Layout} {st st' mid : KState} {tf : Slot} {input : Input} {idle : List Wakeup}

section Idle

theorem benign_uartByte (st : KState) (b : Byte) : Benign st (uartByte st b) := by
  unfold uartByte
  dsimp only
  split_ifs
  · have h1 : Benign st { st with
        uart := (uartReceive st.uart b).uart
        console := st.console ++ (uartReceive st.uart b).echo } := benign_same rfl rfl
    exact h1.trans (benign_wakeup _ _)
  · exact benign_same rfl rfl

theorem benign_bytes (bytes : List Byte) (st : KState) : Benign st (bytes.foldl uartByte st) := by
  induction bytes generalizing st with
  | nil => exact .refl st
  | cons b bs ih => exact (benign_uartByte st b).trans (ih _)

theorem benign_plicDispatch (h : PlicDispatch st st') : Benign st st' := by
  cases h with
  | nothing => exact .refl st
  | served bytes console => exact (benign_bytes bytes st).trans (benign_same rfl rfl)

theorem benign_idles (h : Idles st st') : Benign st st' := by
  induction h with
  | refl => exact .refl st
  | tail _ hstep ih => exact ih.trans (benign_plicDispatch hstep)

end Idle

section Switch

theorem benign_state (st : KState) (i : Slot) {f : Process → Process}
    (hu : (st.processTable i).state ≠ .unused) (hf : (f (st.processTable i)).state ≠ .unused)
    (ht : (f (st.processTable i)).pageTable = (st.processTable i).pageTable)
    (hk : (f (st.processTable i)).kernelStack = (st.processTable i).kernelStack)
    (hh : (f (st.processTable i)).heapMax = (st.processTable i).heapMax) :
    Benign st (st.modifyProc i f) :=
  benign_modifyProc st i (iff_of_false hf hu) ht hk hh

theorem benign_parked (tf : Slot) (st : KState) : Benign st (parked tf st) := by
  refine benign_modifyProc st _ ?_ rfl rfl rfl
  dsimp only
  split_ifs with hr
  · simp [hr]
  · exact Iff.rfl

theorem benign_dispatched {next : Slot} (h : (st.processTable next).state = .ready) :
    Benign st (dispatched next st) := by
  have h1 : Benign st { st with currentProc := next, satp := st.rootOf next } := benign_same rfl rfl
  have hu : (st.processTable next).state ≠ .unused := by rw [h]; decide
  exact h1.trans (benign_state _ next hu (by simp) rfl rfl rfl)

theorem benign_schedule : Ensures (schedule idle tf st) fun r => Benign st r.2 := by
  rintro ⟨tf', st'⟩ h
  obtain ⟨mid, hid, hready, rfl⟩ := schedule_result h
  exact ((benign_parked tf st).trans (benign_idles hid)).trans (benign_dispatched hready)

end Switch

section Fork

theorem ForkCall.copied {child : Slot} {phys : Phys} (hs : Sound L st) (hst : Steady tf st)
    (ha : AllocProc L st (some child) mid) (hne : child ≠ st.currentProc)
    (hc : vmmCopyUvm 2 (mid.rootOf st.currentProc) (mid.rootOf child) mid.phys = .ok phys) :
    Copied L.protectedEnd (trees mid) st.currentProc child (Walked 2 [] (List.finRange 512))
      mid.phys phys := by
  have hmid := sound_allocProc hs ha
  obtain ⟨-, -, hother⟩ := ha.of_some
  have hused : (mid.processTable st.currentProc).state ≠ .unused := by
    rw [hother _ hne.symm]
    exact hst.used
  have hchild : (mid.processTable child).state ≠ .unused := by
    obtain ⟨root, stack, hsp⟩ := ha.spawned hs
    simp [hsp.process]
  exact (vmmCopyUvm_meets (P := []) hne 2 rfl hmid.owned (hmid.root hused)
    (hmid.root hchild)).ensures phys hc

theorem ForkCall.sound (hs : Sound L st) (hst : Steady tf st) (h : ForkCall L st st') :
    Sound L st' := by
  cases h with
  | failed mid ha => exact (benign_setA0 mid _ _).sound (sound_allocProc hs ha)
  | forked child mid phys ha hne hc =>
    have hmid := sound_allocProc hs ha
    have hcopy := ForkCall.copied hs hst ha hne hc
    have h1 : Sound L { mid with phys := phys } := hmid.withPhys rfl hcopy.grows.owned
    have h2 := (benign_setA0 { mid with phys := phys } st.currentProc
      ((mid.processTable child).pid.signExtend 64)).sound h1
    set s := { mid with phys := phys }.setA0 st.currentProc
      ((mid.processTable child).pid.signExtend 64) with hsdef
    have hproc : s.processTable child = mid.processTable child := by
      rw [hsdef, KState.setA0, KState.setFrame, modifyProc_of_ne _ hne]
    obtain ⟨root, stack, hsp⟩ := ha.spawned hs
    have hready : (s.processTable child).state = .ready := by rw [hproc, hsp.process]
    have htable : (s.processTable child).pageTable = some root := by rw [hproc, hsp.process]
    refine h2.modifyProc ?_ (fun _ => ?_) ?_
    · rw [trees_modifyProc, if_neg (by simp [inherit]), if_neg (by simp [inherit])]
      have hr : (trees s).root child = (s.processTable child).pageTable := by
        simp [trees, hready]
      have he : (trees s).extra child = (s.processTable child).kernelStack := by
        simp [trees, hready]
      have heq : withExtra (withRoot (trees s) child (s.processTable child).pageTable) child
          (s.processTable child).kernelStack = trees s := by
        rw [← hr, ← he, withRoot, Function.update_eq_self, withExtra, Function.update_eq_self]
      rw [show (inherit st.current (st.frameOf st.currentProc) (s.processTable child)).pageTable =
        (s.processTable child).pageTable from rfl,
      show (inherit st.current (st.frameOf st.currentProc)
          (s.processTable child)).kernelStack = (s.processTable child).kernelStack from rfl, heq]
      exact h2.owned
    · rw [show (inherit st.current (st.frameOf st.currentProc) (s.processTable child)).pageTable =
        (s.processTable child).pageTable from rfl, htable]
      simp
    · exact hs.heap st.currentProc

end Fork

section Wait

theorem sound_scrub {i : Slot} {root : ℕ} {p1 : Phys} {f : Process → Process} (hs : Sound L st)
    (hr : (trees st).root i = some root)
    (ho : Owned L.protectedEnd (withExtra (trees st) i none) p1)
    (hf : (f (st.processTable i)).state = .unused) (hh : (f (st.processTable i)).heapMax = 0) :
    Sound L ({ st with phys := vmmFreePt root p1 }.modifyProc i f) := by
  have hfree := @Owned.freeTree _ _ _ _ i ho _ root hr
  refine ⟨?_, fun j hj => ?_, fun j => ?_⟩
  · rw [trees_modifyProc]
    show Owned L.protectedEnd (withExtra (withRoot (trees st) i
      (if (f (st.processTable i)).state = .unused then none else _)) i
      (if (f (st.processTable i)).state = .unused then none else _)) _
    rw [if_pos hf, if_pos hf]
    exact hfree
  · by_cases hji : j = i
    · subst j
      rw [modifyProc_self] at hj
      exact absurd hf hj
    · rw [modifyProc_of_ne _ hji] at hj ⊢
      exact hs.table j hj
  · by_cases hji : j = i
    · subst j
      rw [modifyProc_self]
      show (f (st.processTable i)).heapMax.toNat ≤ _
      rw [hh]
      exact Nat.zero_le _
    · rw [modifyProc_of_ne _ hji]
      exact hs.heap j

theorem sound_freeProc {i : Slot} (hs : Sound L st) (hu : (st.processTable i).state ≠ .unused) :
    Sound L (freeProc st i) := by
  obtain ⟨root, hroot⟩ := Option.ne_none_iff_exists'.mp (hs.table i hu)
  have hr : (trees st).root i = some root := by simp [trees, hu, hroot]
  have he : (trees st).extra i = (st.processTable i).kernelStack := by simp [trees, hu]
  unfold freeProc
  dsimp only
  rw [if_neg hu, hroot]
  cases hk : (st.processTable i).kernelStack with
  | none => exact sound_scrub hs hr (hs.owned.dropExtra i) rfl rfl
  | some stack =>
    have hstack : (trees st).extra i = some stack := he.trans hk
    have hram := hs.owned.inRam (r := .extra i) hstack
    have hlt : stack < 2 ^ 52 := by
      have := hram.2
      simp only [ramLast] at this
      omega
    exact sound_scrub hs hr (hs.owned.freeExtra hstack (pageAddr_toNat hlt)) rfl rfl

end Wait

section Sbrk

/-- What `SYS_SBRK` does with an increment it accepts. -/
structure Grow (st : KState) (increment : Word) (ok : Bool) (phys : Phys) : Prop where
  nonzero : increment ≠ 0
  nonneg : increment.msb = false
  below : ¬ st.current.heapBreak + increment > st.current.heapMax
  pages : sbrkPages (st.rootOf st.currentProc) (pageCeil st.current.heapBreak)
    (pageSteps (pageCeil st.current.heapBreak) (pageCeil (st.current.heapBreak + increment)))
    st.phys = (ok, phys)

/-- The break moves if all pages could be mapped. -/
def grown (st : KState) (increment : Word) (ok : Bool) (phys : Phys) : KState :=
  if ok then
    { st with phys := phys }.modifyProc st.currentProc fun p =>
      { p with heapBreak := st.current.heapBreak + increment }
  else { st with phys := phys }

theorem sysSbrkCall_result {tf' : Slot} (h : sysSbrkCall tf st = .ok (tf', st')) : tf' = tf ∧
    ((st' = st.setA0 tf st.current.heapBreak) ∨ (st' = st.setA0 tf ePerm) ∨
      (st' = st.setA0 tf eNomem) ∨ ∃ ok phys, Grow st (st.frameOf tf).a0 ok phys ∧
        st' = (grown st (st.frameOf tf).a0 ok phys).setA0 tf
          (if ok then st.current.heapBreak else eNomem)) := by
  unfold sysSbrkCall at h
  dsimp only at h
  split_ifs at h with h0 hneg hmax
  · cases h
    exact ⟨rfl, Or.inl rfl⟩
  · cases h
    exact ⟨rfl, Or.inr (Or.inl rfl)⟩
  · cases h
    exact ⟨rfl, Or.inr (Or.inr (Or.inl rfl))⟩
  · rcases hres : sbrkPages (st.rootOf st.currentProc) (pageCeil st.current.heapBreak)
      (pageSteps (pageCeil st.current.heapBreak)
        (pageCeil (st.current.heapBreak + (st.frameOf tf).a0))) st.phys with ⟨_ | _, phys⟩
    · rw [hres] at h
      cases h
      exact ⟨rfl,
        Or.inr (Or.inr (Or.inr ⟨false, phys, ⟨h0, by simpa using hneg, hmax, hres⟩, rfl⟩))⟩
    · rw [hres] at h
      cases h
      exact ⟨rfl, Or.inr (Or.inr (Or.inr ⟨true, phys, ⟨h0, by simpa using hneg, hmax, hres⟩, rfl⟩))⟩

theorem Grow.steps {increment : Word} {ok : Bool} {phys : Phys} (h : Grow st increment ok phys)
    (hs : Sound L st) : (pageCeil st.current.heapBreak).toNat % 4096 = 0 ∧
      (pageCeil (st.current.heapBreak + increment)).toNat ≤ 2 ^ 30 := by
  constructor
  · rw [pageCeil, pageFloor_toNat]
    omega
  · have h1 : st.current.heapMax.toNat ≤ 0x3FFFE000 := hs.heap st.currentProc
    have h2 : (st.current.heapBreak + increment).toNat ≤ st.current.heapMax.toNat := by
      simpa [BitVec.lt_def] using h.below
    have h3 : (0xFFF : Addr).toNat = 4095 := rfl
    rw [pageCeil, pageFloor_toNat, BitVec.toNat_add]
    omega

theorem Grow.result {increment : Word} {ok : Bool} {phys : Phys} (h : Grow st increment ok phys)
    (hs : Sound L st) (hst : Steady tf st) :
    SbrkResult L.protectedEnd (trees st) st.currentProc (pageSteps (pageCeil st.current.heapBreak)
      (pageCeil (st.current.heapBreak + increment))) st.phys (ok, phys) := by
  obtain ⟨halign, hbound⟩ := h.steps hs
  obtain ⟨hnd, hlist, -⟩ := heapSteps _ _ halign hbound
  have hgrown := sbrkPages_result (hs.root hst.used) (pageSteps (pageCeil st.current.heapBreak)
    (pageCeil (st.current.heapBreak + increment))) [] rfl hnd hlist (.nil hs.owned)
  rwa [h.pages] at hgrown

theorem Grow.remapped {increment : Word} {ok : Bool} {phys : Phys} (h : Grow st increment ok phys)
    (hs : Sound L st) (hst : Steady tf st) :
    Remapped L.protectedEnd (trees st) st.currentProc (pageSteps (pageCeil st.current.heapBreak)
      (pageCeil (st.current.heapBreak + increment))) st.phys phys := (h.result hs hst).remapped

theorem Grow.sound {increment : Word} {ok : Bool} {phys : Phys} (h : Grow st increment ok phys)
    (hs : Sound L st) (hst : Steady tf st) : Sound L (grown st increment ok phys) := by
  have h1 : Sound L { st with phys := phys } := hs.withPhys rfl (h.remapped hs hst).owned
  cases ok with
  | false => exact h1
  | true =>
    exact (benign_modifyProc { st with phys := phys } st.currentProc (f := fun p =>
      { p with heapBreak := st.current.heapBreak + increment }) Iff.rfl rfl rfl rfl).sound h1

end Sbrk

end Lazux

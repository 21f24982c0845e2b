import Lazux.Control
import Lazux.Release
import Lazux.Copy
import Lazux.Heap

/-! # Isolation of processes

The page tables and kernel stacks of all processes form an owned family in every reachable
state: each trap and each store of a user program keeps it. -/
namespace Lazux

open PagedMemory RadixForest Run

/-- The address spaces and kernel stacks of the slots in use. -/
def trees (st : KState) : Forest Slot where
  root i := if (st.processTable i).state = .unused then none else (st.processTable i).pageTable
  extra i := if (st.processTable i).state = .unused then none else (st.processTable i).kernelStack

/-- The entry of a page in the address space of a slot. -/
abbrev entryOf (st : KState) (i : Slot) (q : PageNo) : Word :=
  entry st.phys.mem ((trees st).root i) q

/-- What holds of memory and process table between any two steps of the kernel. -/
structure Sound (L : Layout) (st : KState) : Prop where
  owned : Owned L.protectedEnd (trees st) st.phys
  table : ∀ i, (st.processTable i).state ≠ .unused → (st.processTable i).pageTable ≠ none
  heap : ∀ i, (st.processTable i).heapMax.toNat ≤ 0x3FFFE000

/-- The same address spaces, and no memory changed but pages that are no tables. -/
structure Benign (st st' : KState) : Prop where
  used : ∀ i, (st'.processTable i).state = .unused ↔ (st.processTable i).state = .unused
  table : ∀ i, (st.processTable i).state ≠ .unused →
    (st'.processTable i).pageTable = (st.processTable i).pageTable
  stack : ∀ i, (st.processTable i).state ≠ .unused →
    (st'.processTable i).kernelStack = (st.processTable i).kernelStack
  heap : ∀ i, (st'.processTable i).heapMax = (st.processTable i).heapMax
  phys : UserWrites (trees st) st.phys st'.phys

section Benign

variable {st st' st'' : KState} {L : Layout} {tf : Slot}

theorem Benign.trees_eq (h : Benign st st') : trees st' = trees st := by
  have hr : (trees st').root = (trees st).root := by
    funext i
    by_cases hu : (st.processTable i).state = .unused
    · simp [trees, hu, (h.used i).mpr hu]
    · simp [trees, hu, mt (h.used i).mp hu, h.table i hu]
  have he : (trees st').extra = (trees st).extra := by
    funext i
    by_cases hu : (st.processTable i).state = .unused
    · simp [trees, hu, (h.used i).mpr hu]
    · simp [trees, hu, mt (h.used i).mp hu, h.stack i hu]
  cases hst : trees st with
  | mk r e =>
    cases hst' : trees st' with
    | mk r' e' =>
      rw [hst, hst'] at hr he
      simp only at hr he
      rw [hr, he]

theorem Benign.refl (st : KState) : Benign st st :=
  ⟨fun _ => Iff.rfl, fun _ _ => rfl, fun _ _ => rfl, fun _ => rfl, .refl _⟩

theorem Benign.trans (h : Benign st st') (h' : Benign st' st'') : Benign st st'' := by
  refine ⟨fun i => (h'.used i).trans (h.used i), fun i hu => ?_, fun i hu => ?_,
    fun i => (h'.heap i).trans (h.heap i), ?_⟩
  · rw [h'.table i (mt (h.used i).mp hu), h.table i hu]
  · rw [h'.stack i (mt (h.used i).mp hu), h.stack i hu]
  · have := h'.phys
    rw [h.trees_eq] at this
    exact h.phys.trans this

theorem Benign.sound (h : Benign st st') (hs : Sound L st) : Sound L st' := by
  refine ⟨?_, fun i hu => ?_, fun i => ?_⟩
  · rw [h.trees_eq]
    exact h.phys.owned hs.owned
  · have hu' := mt (h.used i).mpr hu
    rw [h.table i hu']
    exact hs.table i hu'
  · rw [h.heap i]
    exact hs.heap i

theorem benign_modifyProc (st : KState) (i : Slot) {f : Process → Process}
    (hu : (f (st.processTable i)).state = .unused ↔ (st.processTable i).state = .unused)
    (ht : (f (st.processTable i)).pageTable = (st.processTable i).pageTable)
    (hk : (f (st.processTable i)).kernelStack = (st.processTable i).kernelStack)
    (hh : (f (st.processTable i)).heapMax = (st.processTable i).heapMax) :
    Benign st (st.modifyProc i f) := by
  refine ⟨fun j => ?_, fun j _ => ?_, fun j _ => ?_, fun j => ?_, .refl _⟩
  all_goals
    by_cases hj : j = i
    · subst j; simp [hu, ht, hk, hh]
    · simp [modifyProc_of_ne, hj]

theorem benign_setFrame (st : KState) (i : Slot) (f : TrapFrame → TrapFrame) :
    Benign st (st.setFrame i f) := benign_modifyProc st i Iff.rfl rfl rfl rfl

theorem benign_setA0 (st : KState) (i : Slot) (w : Word) : Benign st (st.setA0 i w) :=
  benign_setFrame st i _

theorem benign_setFile (st : KState) (fd : Fin 16) (f : File) : Benign st (st.setFile fd f) :=
  benign_modifyProc st _ Iff.rfl rfl rfl rfl

theorem benign_same (hp : st'.processTable = st.processTable) (hm : st'.phys = st.phys) :
    Benign st st' := by
  refine ⟨fun i => by rw [hp], fun i _ => by rw [hp], fun i _ => by rw [hp],
    fun i => by rw [hp], ?_⟩
  rw [hm]
  exact .refl _

theorem benign_phys {phys : Phys} (hw : UserWrites (trees st) st.phys phys) :
    Benign st { st with phys := phys } :=
  ⟨fun _ => Iff.rfl, fun _ _ => rfl, fun _ _ => rfl, fun _ => rfl, hw⟩

theorem benign_wakeup (st : KState) (ch : Chan) : Benign st (wakeup st ch) := by
  have key : ∀ i, ((wakeup st ch).processTable i).pageTable = (st.processTable i).pageTable ∧
      ((wakeup st ch).processTable i).kernelStack = (st.processTable i).kernelStack ∧
      ((wakeup st ch).processTable i).heapMax = (st.processTable i).heapMax ∧
      (((wakeup st ch).processTable i).state = .unused ↔ (st.processTable i).state = .unused) := by
    intro i
    simp only [wakeup]
    split_ifs with hb
    · exact ⟨rfl, rfl, rfl, by simp [hb.1]⟩
    · exact ⟨rfl, rfl, rfl, Iff.rfl⟩
  exact ⟨fun i => (key i).2.2.2, fun i _ => (key i).1, fun i _ => (key i).2.1,
    fun i => (key i).2.2.1, .refl _⟩

theorem Sound.root (hs : Sound L st) {i : Slot} (hu : (st.processTable i).state ≠ .unused) :
    (trees st).root i = some (st.rootOf i) := by
  obtain ⟨r, hr⟩ := Option.ne_none_iff_exists'.mp (hs.table i hu)
  simp [trees, hu, KState.rootOf, hr]

theorem Steady.used (hst : Steady tf st) : (st.processTable st.currentProc).state ≠ .unused := by
  have := hst.running
  rw [KState.current] at this
  rw [this]
  decide

theorem Steady.root (hst : Steady tf st) (hs : Sound L st) :
    (trees st).root st.currentProc = some st.satp := by rw [hs.root hst.used, hst.satp]

end Benign

end Lazux

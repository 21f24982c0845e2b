import Mathlib.Logic.Relation
import Lazux.System
import Lazux.Lib.Run

/-! # Who runs, who sleeps and who wakes

The process table reduced to the fields that decide scheduling. Its steps say what the
kernel's operations do to them; the invariant of sleeping processes is a fact about runs
of these steps. -/
namespace Lazux

/-- `readable` says that the receive ring holds a committed byte. -/
structure Coord where
  pid : Slot → BitVec 32
  parent : Slot → BitVec 32
  state : Slot → ProcState
  chan : Slot → Option Chan
  nextPid : ℕ
  current : Slot
  readable : Bool

namespace Coord

def wake (c : Coord) (ch : Chan) : Coord :=
  { c with
    state := fun i => if c.state i = .blocked ∧ c.chan i = some ch then .ready else c.state i
    chan := fun i => if c.state i = .blocked ∧ c.chan i = some ch then none else c.chan i }

def setState (c : Coord) (i : Slot) (s : ProcState) : Coord :=
  { c with state := Function.update c.state i s }

def parentSlot (c : Coord) : Option Slot :=
  (List.finRange 64).find? fun i => c.pid i = c.parent c.current ∧ c.state i ≠ .unused

/-- What a process may wait for when it goes to sleep. -/
def Pending (c : Coord) : Chan → Prop
  | .uartRx => c.readable = false
  | .pcb i => i = c.current ∧ (∃ j, c.state j ≠ .unused ∧ c.parent j = c.pid i) ∧
      ∀ j, c.state j = .zombie → c.parent j ≠ c.pid i

inductive Step : Coord → Coord → Prop where
  | commit (c b) : Step c { c.wake .uartRx with readable := b }
  | consume (c b) (h : c.readable = true) : Step c { c with readable := b }
  | sleep (c ch) (hr : c.state c.current = .running) (hp : c.Pending ch) :
      Step c { c.setState c.current .blocked with
        chan := Function.update c.chan c.current (some ch) }
  | exit (c) (hr : c.state c.current = .running) :
      Step c (match (c.setState c.current .zombie).parentSlot with
        | some i => (c.setState c.current .zombie).wake (.pcb i)
        | none => c.setState c.current .zombie)
  | yield (c) (hr : c.state c.current = .running) : Step c (c.setState c.current .ready)
  | dispatch (c i) (hc : c.state c.current ≠ .running) (hr : c.state i = .ready) :
      Step c { c.setState i .running with current := i }
  | spawn (c i) (hr : c.state c.current = .running) (hu : c.state i = .unused) :
      Step c { c.setState i .ready with
        pid := Function.update c.pid i (BitVec.ofNat 32 c.nextPid)
        parent := Function.update c.parent i (c.pid c.current)
        nextPid := c.nextPid + 1 }
  | spawnFail (c i) (hu : c.state i = .unused) :
      Step c { c with
        pid := Function.update c.pid i (BitVec.ofNat 32 c.nextPid)
        nextPid := c.nextPid + 1 }
  | reap (c i) (hr : c.state c.current = .running) (hz : c.state i = .zombie)
      (hk : c.parent i = c.pid c.current) :
      Step c { c.setState i .unused with
        pid := Function.update c.pid i 0
        parent := Function.update c.parent i 0
        chan := Function.update c.chan i none }

abbrev Run : Coord → Coord → Prop := Relation.ReflTransGen Step

structure Invariant (c : Coord) : Prop where
  chan_iff : ∀ i, c.chan i ≠ none ↔ c.state i = .blocked
  own : ∀ i j, c.chan i = some (.pcb j) → j = i
  ring : ∀ i, c.chan i = some .uartRx → c.readable = false
  child : ∀ i, c.chan i = some (.pcb i) → ∃ j, c.state j ≠ .unused ∧ c.parent j = c.pid i
  no_zombie : ∀ i, c.chan i = some (.pcb i) → ∀ j, c.state j = .zombie → c.parent j ≠ c.pid i
  pid_pos : ∀ i, c.state i ≠ .unused → 0 < (c.pid i).toNat
  pid_lt : ∀ i, c.state i ≠ .unused → (c.pid i).toNat < c.nextPid
  parent_lt : ∀ i, (c.parent i).toNat < c.nextPid
  pid_inj : ∀ i j, c.state i ≠ .unused → c.state j ≠ .unused → c.pid i = c.pid j → i = j
  running : ∀ i, c.state i = .running → i = c.current

/-- One process runs and no other has ever been created. -/
def first (i : Slot) : Coord where
  pid j := if j = i then 1 else 0
  parent _ := 0
  state j := if j = i then .running else .unused
  chan _ := none
  nextPid := 2
  current := i
  readable := false

theorem invariant_first (i : Slot) : Invariant (first i) := by
  have used : ∀ {j}, (first i).state j ≠ .unused → j = i := by
    intro j hj
    by_contra hji
    exact hj (if_neg hji)
  refine ⟨fun j => ?_, ?_, ?_, ?_, ?_, ?_, ?_, ?_, ?_, fun j hj => ?_⟩
  · by_cases hj : j = i <;> simp [first, hj]
  · intro j k hj; cases hj
  · intro j hj; cases hj
  · intro j hj; cases hj
  · intro j hj; cases hj
  · intro j hj; rw [used hj]; simp [first]
  · intro j hj; rw [used hj]; simp [first]
  · intro j; simp [first]
  · intro j k hj hk _; rw [used hj, used hk]
  · exact used (by rw [hj]; decide)

section Preservation

variable {c c' : Coord}

theorem Step.nextPid_le (h : Step c c') : c.nextPid ≤ c'.nextPid := by
  cases h with
  | exit hr =>
    split <;> exact le_rfl
  | spawn i hr hu => exact Nat.le_succ _
  | spawnFail i hu => exact Nat.le_succ _
  | _ => exact le_rfl

theorem Run.nextPid_le (h : Run c c') : c.nextPid ≤ c'.nextPid := by
  induction h with
  | refl => exact le_rfl
  | tail _ hs ih => exact ih.trans hs.nextPid_le

theorem wake_state_eq {ch : Chan} {i : Slot} {s : ProcState} (hs : s ≠ .ready) :
    (c.wake ch).state i = s ↔ c.state i = s ∧ ¬ (c.state i = .blocked ∧ c.chan i = some ch) := by
  simp only [wake]
  split_ifs with h
  · constructor
    · intro he; exact absurd he.symm hs
    · rintro ⟨-, hn⟩; exact absurd h hn
  · simp [h]

theorem wake_unused {ch : Chan} {i : Slot} :
    (c.wake ch).state i = .unused ↔ c.state i = .unused := by
  rw [wake_state_eq (by decide)]
  constructor
  · exact And.left
  · intro h; exact ⟨h, fun hb => by rw [h] at hb; cases hb.1⟩

theorem wake_zombie {ch : Chan} {i : Slot} :
    (c.wake ch).state i = .zombie ↔ c.state i = .zombie := by
  rw [wake_state_eq (by decide)]
  constructor
  · exact And.left
  · intro h; exact ⟨h, fun hb => by rw [h] at hb; cases hb.1⟩

theorem wake_chan {ch : Chan} {i : Slot} {x : Chan} (h : Invariant c) :
    (c.wake ch).chan i = some x ↔ c.chan i = some x ∧ x ≠ ch := by
  simp only [wake]
  split_ifs with hb
  · constructor
    · intro he; cases he
    · rintro ⟨hx, hne⟩
      rw [hb.2] at hx
      exact absurd (Option.some.inj hx).symm hne
  · constructor
    · intro hx
      refine ⟨hx, ?_⟩
      rintro rfl
      exact hb ⟨(h.chan_iff i).mp (by rw [hx]; simp), hx⟩
    · exact And.left

private theorem unused_of_setState {i j : Slot} {s : ProcState}
    (hold : c.state i = .ready ∨ c.state i = .running) (_hs : s = .ready ∨ s = .running)
    (hu : (c.setState i s).state j ≠ .unused) : c.state j ≠ .unused := by
  by_cases hj : j = i
  · subst j; rcases hold with e | e <;> simp [e]
  · simpa [Coord.setState, hj] using hu

private theorem unused_of_update {i j : Slot} {s : ProcState} (hr : c.state i = .running)
    (hu : Function.update c.state i s j ≠ .unused) : c.state j ≠ .unused := by
  by_cases hj : j = i
  · subst j; simp [hr]
  · simpa [hj] using hu

theorem Invariant.wake (h : Invariant c) (ch : Chan) : Invariant (c.wake ch) where
  chan_iff i := by
    have hc := h.chan_iff i
    simp only [Coord.wake]
    split_ifs with hb
    · simp
    · exact hc
  own i j hx := h.own i j ((wake_chan h).mp hx).1
  ring i hx := h.ring i ((wake_chan h).mp hx).1
  child i hx := by
    obtain ⟨j, hu, hp⟩ := h.child i ((wake_chan h).mp hx).1
    exact ⟨j, fun he => hu (wake_unused.mp he), hp⟩
  no_zombie i hx j hz := h.no_zombie i ((wake_chan h).mp hx).1 j (wake_zombie.mp hz)
  pid_pos i hu := h.pid_pos i fun he => hu (wake_unused.mpr he)
  pid_lt i hu := h.pid_lt i fun he => hu (wake_unused.mpr he)
  parent_lt i := h.parent_lt i
  pid_inj i j hi hj := h.pid_inj i j (fun he => hi (wake_unused.mpr he))
    fun he => hj (wake_unused.mpr he)
  running i hr := h.running i ((wake_state_eq (by decide)).mp hr).1

theorem Invariant.current_running_ne (h : Invariant c) (hr : c.state c.current = .running)
    {i : Slot} {x : Chan} (hx : c.chan i = some x) : i ≠ c.current := by
  rintro rfl
  have hb := (h.chan_iff c.current).mp (by rw [hx]; simp)
  rw [hr] at hb
  cases hb

theorem Invariant.chan_of_not_blocked (h : Invariant c) {i : Slot} (hb : c.state i ≠ .blocked) :
    c.chan i = none := by
  by_contra hne
  exact hb ((h.chan_iff i).mp hne)

theorem Invariant.setState (h : Invariant c) {i : Slot} {s : ProcState}
    (hold : c.state i = .ready ∨ c.state i = .running) (hs : s = .ready ∨ s = .running)
    (hcur : s = .running → i = c.current) : Invariant (c.setState i s) where
  chan_iff j := by
    by_cases hj : j = i
    · subst j
      have hc : c.chan i = none := h.chan_of_not_blocked (by rcases hold with e | e <;> simp [e])
      rcases hs with rfl | rfl <;> simp [Coord.setState, hc]
    · simpa [Coord.setState, hj] using h.chan_iff j
  own := h.own
  ring := h.ring
  child j hj := by
    obtain ⟨k, hu, hp⟩ := h.child j hj
    refine ⟨k, ?_, hp⟩
    by_cases hk : k = i
    · subst k; rcases hs with rfl | rfl <;> simp [Coord.setState]
    · simpa [Coord.setState, hk] using hu
  no_zombie j hj k hz := by
    by_cases hk : k = i
    · subst k; rcases hs with rfl | rfl <;> simp [Coord.setState] at hz
    · exact h.no_zombie j hj k (by simpa [Coord.setState, hk] using hz)
  pid_pos j hu := h.pid_pos j (unused_of_setState hold hs hu)
  pid_lt j hu := h.pid_lt j (unused_of_setState hold hs hu)
  parent_lt := h.parent_lt
  pid_inj j k hj hk := h.pid_inj j k (unused_of_setState hold hs hj) (unused_of_setState hold hs hk)
  running j hr := by
    by_cases hj : j = i
    · subst j; exact hcur (by simpa [Coord.setState] using hr)
    · exact h.running j (by simpa [Coord.setState, hj] using hr)

theorem Invariant.sleep (h : Invariant c) {ch : Chan} (hr : c.state c.current = .running)
    (hp : c.Pending ch) : Invariant { c.setState c.current .blocked with
      chan := Function.update c.chan c.current (some ch) } where
  chan_iff j := by
    by_cases hj : j = c.current
    · simp [Coord.setState, hj]
    · simpa [Coord.setState, hj] using h.chan_iff j
  own i j hx := by
    by_cases hi : i = c.current
    · subst i
      simp only [Function.update_self, Option.some.injEq] at hx
      subst hx
      exact hp.1
    · exact h.own i j (by simpa [hi] using hx)
  ring i hx := by
    by_cases hi : i = c.current
    · subst i
      simp only [Function.update_self, Option.some.injEq] at hx
      subst hx
      exact hp
    · exact h.ring i (by simpa [hi] using hx)
  child i hx := by
    obtain ⟨k, hu, hk⟩ : ∃ j, c.state j ≠ .unused ∧ c.parent j = c.pid i := by
      by_cases hi : i = c.current
      · subst i
        simp only [Function.update_self, Option.some.injEq] at hx
        subst hx
        exact hp.2.1
      · exact h.child i (by simpa [hi] using hx)
    refine ⟨k, ?_, hk⟩
    by_cases hkc : k = c.current <;> simp [Coord.setState, hkc]
    simpa [hkc] using hu
  no_zombie i hx j hz := by
    have hz' : c.state j = .zombie := by
      by_cases hj : j = c.current
      · subst j; simp [Coord.setState] at hz
      · simpa [Coord.setState, hj] using hz
    by_cases hi : i = c.current
    · subst i
      simp only [Function.update_self, Option.some.injEq] at hx
      subst hx
      exact hp.2.2 j hz'
    · exact h.no_zombie i (by simpa [hi] using hx) j hz'
  pid_pos j hu := h.pid_pos j (unused_of_update hr hu)
  pid_lt j hu := h.pid_lt j (unused_of_update hr hu)
  parent_lt := h.parent_lt
  pid_inj j k hj hk := h.pid_inj j k (unused_of_update hr hj) (unused_of_update hr hk)
  running j hj := by
    by_cases hjc : j = c.current
    · exact hjc
    · exact h.running j (by simpa [Coord.setState, hjc] using hj)

theorem Invariant.kill (h : Invariant c) (hr : c.state c.current = .running)
    (hno : ∀ i, c.chan i = some (.pcb i) → c.parent c.current ≠ c.pid i) :
    Invariant (c.setState c.current .zombie) where
  chan_iff j := by
    by_cases hj : j = c.current
    · subst j
      simp [Coord.setState, h.chan_of_not_blocked (by rw [hr]; decide)]
    · simpa [Coord.setState, hj] using h.chan_iff j
  own := h.own
  ring := h.ring
  child j hj := by
    obtain ⟨k, hu, hp⟩ := h.child j hj
    refine ⟨k, ?_, hp⟩
    by_cases hk : k = c.current <;> simp [Coord.setState, hk]
    simpa [hk] using hu
  no_zombie j hj k hz := by
    by_cases hk : k = c.current
    · subst k; exact hno j hj
    · exact h.no_zombie j hj k (by simpa [Coord.setState, hk] using hz)
  pid_pos j hu := h.pid_pos j (unused_of_update hr hu)
  pid_lt j hu := h.pid_lt j (unused_of_update hr hu)
  parent_lt := h.parent_lt
  pid_inj j k hj hk := h.pid_inj j k (unused_of_update hr hj) (unused_of_update hr hk)
  running j hj := by
    by_cases hjc : j = c.current
    · exact hjc
    · exact h.running j (by simpa [Coord.setState, hjc] using hj)

theorem wake_setState_zombie (ch : Chan)
    (hc : c.chan c.current = none) :
    (c.setState c.current .zombie).wake ch = (c.wake ch).setState c.current .zombie := by
  have hst : (fun i => if Function.update c.state c.current .zombie i = .blocked ∧
        c.chan i = some ch then ProcState.ready else Function.update c.state c.current .zombie i) =
      Function.update (fun i => if c.state i = .blocked ∧ c.chan i = some ch then .ready
        else c.state i) c.current .zombie := by
    funext i
    by_cases hi : i = c.current <;> simp [hi]
  have hch : (fun i => if Function.update c.state c.current .zombie i = .blocked ∧
        c.chan i = some ch then none else c.chan i) =
      fun i => if c.state i = .blocked ∧ c.chan i = some ch then none else c.chan i := by
    funext i
    by_cases hi : i = c.current
    · simp [hi, hc]
    · simp [hi]
  simp only [Coord.wake, Coord.setState, Coord.mk.injEq, true_and, and_true]
  exact ⟨hst, hch⟩

/-- The dying process's parent is awake before anyone can see the zombie. -/
theorem Invariant.exit (h : Invariant c) (hr : c.state c.current = .running) :
    Invariant (match (c.setState c.current .zombie).parentSlot with
      | some i => (c.setState c.current .zombie).wake (.pcb i)
      | none => c.setState c.current .zombie) := by
  have hc : c.chan c.current = none := h.chan_of_not_blocked (by rw [hr]; decide)
  have hu : ∀ i, c.chan i = some (.pcb i) →
      (c.setState c.current .zombie).state i ≠ .unused := by
    intro i hi
    have hb := (h.chan_iff i).mp (by rw [hi]; simp)
    have hne := h.current_running_ne hr hi
    simp [Coord.setState, hne, hb]
  cases hp : (c.setState c.current .zombie).parentSlot with
  | none =>
    refine h.kill hr fun i hi he => ?_
    have hnone := List.find?_eq_none.mp hp i (List.mem_finRange i)
    simp only [decide_eq_true_eq, not_and, not_not] at hnone
    exact hu i hi (hnone he.symm)
  | some p =>
    show Invariant ((c.setState c.current .zombie).wake (.pcb p))
    rw [wake_setState_zombie _ hc]
    have hr' : (c.wake (.pcb p)).state c.current = .running :=
      (wake_state_eq (by decide)).mpr ⟨hr, fun hb => by rw [hr] at hb; cases hb.1⟩
    refine (h.wake (.pcb p)).kill hr' fun i hi he => ?_
    obtain ⟨hi, hne⟩ := (wake_chan h).mp hi
    have hfound := List.find?_some hp
    simp only [decide_eq_true_eq] at hfound
    have hpu : c.state p ≠ .unused := unused_of_update hr hfound.2
    have hiu : c.state i ≠ .unused := by
      have hb := (h.chan_iff i).mp (by rw [hi]; simp)
      rw [hb]; decide
    have hip := h.pid_inj i p hiu hpu (he.symm.trans hfound.1.symm)
    exact hne (by rw [hip])

theorem Invariant.spawn (h : Invariant c) (hlim : c.nextPid + 1 ≤ 2 ^ 31)
    (hr : c.state c.current = .running) {i : Slot} (hu : c.state i = .unused) :
    Invariant { c.setState i .ready with
      pid := Function.update c.pid i (BitVec.ofNat 32 c.nextPid)
      parent := Function.update c.parent i (c.pid c.current)
      nextPid := c.nextPid + 1 } := by
  have hcur : c.state c.current ≠ .unused := by rw [hr]; decide
  have hchan : c.chan i = none := h.chan_of_not_blocked (by rw [hu]; decide)
  have hpid : (BitVec.ofNat 32 c.nextPid).toNat = c.nextPid := by
    rw [BitVec.toNat_ofNat]; omega
  have hpos := h.pid_pos _ hcur
  have hlt := h.pid_lt _ hcur
  have hfresh : ∀ j, c.state j ≠ .unused → c.pid j ≠ BitVec.ofNat 32 c.nextPid := by
    intro j hj he
    have := h.pid_lt j hj
    rw [he, hpid] at this
    exact lt_irrefl _ this
  have husedNe : ∀ {j}, c.chan j = some (.pcb j) → j ≠ i := by
    rintro j hj rfl
    rw [hchan] at hj
    cases hj
  have hstate : ∀ {j s}, j ≠ i → (c.setState i .ready).state j = s → c.state j = s := by
    intro j s hj hs
    simpa [Coord.setState, hj] using hs
  exact {
    chan_iff := fun j => by
      by_cases hj : j = i
      · subst j; simp [Coord.setState, hchan]
      · simpa [Coord.setState, hj] using h.chan_iff j
    own := h.own
    ring := h.ring
    child := fun j hj => by
      obtain ⟨k, hk, hp⟩ := h.child j hj
      have hki : k ≠ i := by rintro rfl; exact hk hu
      exact ⟨k, by simpa [Coord.setState, hki] using hk, by simpa [hki, husedNe hj] using hp⟩
    no_zombie := fun j hj k hz => by
      have hki : k ≠ i := by rintro rfl; simp [Coord.setState] at hz
      simpa [hki, husedNe hj] using h.no_zombie j hj k (hstate hki hz)
    pid_pos := fun j hj => by
      by_cases hji : j = i
      · subst j; simp only [Function.update_self, hpid]; omega
      · simpa [hji] using h.pid_pos j (fun he => hj (by simpa [Coord.setState, hji] using he))
    pid_lt := fun j hj => by
      by_cases hji : j = i
      · subst j; simp only [Function.update_self, hpid]; exact Nat.lt_succ_self _
      · simpa [hji] using
          Nat.lt_succ_of_lt (h.pid_lt j (fun he => hj (by simpa [Coord.setState, hji] using he)))
    parent_lt := fun j => by
      by_cases hji : j = i
      · subst j; simpa using Nat.lt_succ_of_lt hlt
      · simpa [hji] using Nat.lt_succ_of_lt (h.parent_lt j)
    pid_inj := fun j k hj hk he => by
      by_cases hji : j = i <;> by_cases hki : k = i
      · rw [hji, hki]
      · subst j
        have hk' : c.state k ≠ .unused := fun e => hk (by simpa [Coord.setState, hki] using e)
        exact absurd (by simpa [hki] using he.symm) (hfresh k hk')
      · subst k
        have hj' : c.state j ≠ .unused := fun e => hj (by simpa [Coord.setState, hji] using e)
        exact absurd (by simpa [hji] using he) (hfresh j hj')
      · exact h.pid_inj j k (fun e => hj (by simpa [Coord.setState, hji] using e))
          (fun e => hk (by simpa [Coord.setState, hki] using e)) (by simpa [hji, hki] using he)
    running := fun j hj => by
      by_cases hji : j = i
      · subst j; simp [Coord.setState] at hj
      · exact h.running j (hstate hji hj) }

theorem Invariant.spawnFail (h : Invariant c) {i : Slot} (hu : c.state i = .unused) :
    Invariant { c with
      pid := Function.update c.pid i (BitVec.ofNat 32 c.nextPid)
      nextPid := c.nextPid + 1 } := by
  have hne : ∀ {j}, c.state j ≠ .unused → j ≠ i := by
    rintro j hj rfl
    exact hj hu
  have hbl : ∀ {j x}, c.chan j = some x → j ≠ i := by
    intro j x hj
    apply hne
    rw [(h.chan_iff j).mp (by rw [hj]; simp)]
    decide
  exact {
    chan_iff := h.chan_iff
    own := h.own
    ring := h.ring
    child := fun j hj => by simpa [hbl hj] using h.child j hj
    no_zombie := fun j hj k hz => by simpa [hbl hj] using h.no_zombie j hj k hz
    pid_pos := fun j hj => by simpa [hne hj] using h.pid_pos j hj
    pid_lt := fun j hj => by simpa [hne hj] using Nat.lt_succ_of_lt (h.pid_lt j hj)
    parent_lt := fun j => Nat.lt_succ_of_lt (h.parent_lt j)
    pid_inj := fun j k hj hk he => h.pid_inj j k hj hk (by simpa [hne hj, hne hk] using he)
    running := h.running }

theorem Invariant.reap (h : Invariant c) (hr : c.state c.current = .running) {i : Slot}
    (hz : c.state i = .zombie) (hk : c.parent i = c.pid c.current) :
    Invariant { c.setState i .unused with
      pid := Function.update c.pid i 0
      parent := Function.update c.parent i 0
      chan := Function.update c.chan i none } := by
  have hcur : c.state c.current ≠ .unused := by rw [hr]; decide
  have hpos : 0 < c.nextPid := Nat.lt_of_le_of_lt (Nat.zero_le _) (h.pid_lt _ hcur)
  have hother : ∀ {j x}, Function.update c.chan i none j = some x → j ≠ i ∧ c.chan j = some x := by
    intro j x hj
    by_cases hji : j = i
    · subst j; simp at hj
    · exact ⟨hji, by simpa [hji] using hj⟩
  have hlive : ∀ {j}, (c.setState i .unused).state j ≠ .unused → j ≠ i ∧ c.state j ≠ .unused := by
    intro j hj
    by_cases hji : j = i
    · subst j; simp [Coord.setState] at hj
    · exact ⟨hji, by simpa [Coord.setState, hji] using hj⟩
  exact {
    chan_iff := fun j => by
      by_cases hj : j = i
      · subst j; simp [Coord.setState]
      · simpa [Coord.setState, hj] using h.chan_iff j
    own := fun j k hj => h.own j k (hother hj).2
    ring := fun j hj => h.ring j (hother hj).2
    child := fun j hj => by
      obtain ⟨hji, hj'⟩ := hother hj
      obtain ⟨k, hku, hp⟩ := h.child j hj'
      -- the reaped child belongs to the running process, not to a sleeping one
      have hki : k ≠ i := by
        rintro rfl
        have hjb : c.state j ≠ .unused := by
          rw [(h.chan_iff j).mp (by rw [hj']; simp)]; decide
        exact h.current_running_ne hr hj' (h.pid_inj j _ hjb hcur (hp.symm.trans hk))
      exact ⟨k, by simpa [Coord.setState, hki] using hku, by simpa [hki, hji] using hp⟩
    no_zombie := fun j hj k hkz => by
      obtain ⟨hji, hj⟩ := hother hj
      have hki : k ≠ i := by rintro rfl; simp [Coord.setState] at hkz
      simpa [hki, hji] using h.no_zombie j hj k (by simpa [Coord.setState, hki] using hkz)
    pid_pos := fun j hj => by
      obtain ⟨hji, hj⟩ := hlive hj
      simpa [hji] using h.pid_pos j hj
    pid_lt := fun j hj => by
      obtain ⟨hji, hj⟩ := hlive hj
      simpa [Coord.setState, hji] using h.pid_lt j hj
    parent_lt := fun j => by
      by_cases hji : j = i
      · subst j; simpa [Coord.setState] using hpos
      · simpa [Coord.setState, hji] using h.parent_lt j
    pid_inj := fun j k hj hk he => by
      obtain ⟨hji, hj⟩ := hlive hj
      obtain ⟨hki, hk⟩ := hlive hk
      exact h.pid_inj j k hj hk (by simpa [hji, hki] using he)
    running := fun j hj => by
      by_cases hji : j = i
      · subst j; simp [Coord.setState] at hj
      · exact h.running j (by simpa [Coord.setState, hji] using hj) }

/-- Every step keeps the invariant while pids do not wrap. -/
theorem step_preserves_invariant (hs : Step c c') (hlim : c'.nextPid ≤ 2 ^ 31)
    (h : Invariant c) : Invariant c' := by
  cases hs with
  | commit b =>
    have hw := h.wake .uartRx
    refine ⟨hw.chan_iff, hw.own, fun i hi => ?_, hw.child, hw.no_zombie, hw.pid_pos, hw.pid_lt,
      hw.parent_lt, hw.pid_inj, hw.running⟩
    exact absurd rfl ((wake_chan h).mp hi).2
  | consume b hread =>
    refine ⟨h.chan_iff, h.own, fun i hi => ?_, h.child, h.no_zombie, h.pid_pos, h.pid_lt,
      h.parent_lt, h.pid_inj, h.running⟩
    have := h.ring i hi
    rw [hread] at this
    cases this
  | sleep ch hr hp => exact h.sleep hr hp
  | exit hr => exact h.exit hr
  | yield hr => exact h.setState (Or.inr hr) (Or.inl rfl) (fun he => by cases he)
  | dispatch i hc hr =>
    have hmoved : Invariant { c with current := i } :=
      ⟨h.chan_iff, h.own, h.ring, h.child, h.no_zombie, h.pid_pos, h.pid_lt, h.parent_lt,
        h.pid_inj, fun j hj => absurd (h.running j hj ▸ hj) hc⟩
    exact hmoved.setState (Or.inl hr) (Or.inr rfl) (fun _ => rfl)
  | spawn i hr hu => exact h.spawn hlim hr hu
  | spawnFail i hu => exact h.spawnFail hu
  | reap i hr hz hk => exact h.reap hr hz hk

theorem run_preserves_invariant (hr : Run c c') (hlim : c'.nextPid ≤ 2 ^ 31)
    (h : Invariant c) : Invariant c' := by
  induction hr with
  | refl => exact h
  | tail _ hs ih => exact step_preserves_invariant hs hlim (ih (hs.nextPid_le.trans hlim))

/-- Only the current process runs, however many processes there have been. -/
theorem step_running (hs : Step c c') (h : ∀ i, c.state i = .running → i = c.current) (i : Slot)
    (hi : c'.state i = .running) : i = c'.current := by
  have other : ∀ {j : Slot} {s : ProcState}, s ≠ .running →
      (c.setState j s).state i = .running → c.state i = .running := by
    intro j s hne hj
    by_cases hij : i = j
    · subst hij
      simp only [Coord.setState, Function.update_self] at hj
      exact absurd hj hne
    · simpa [Coord.setState, hij] using hj
  cases hs with
  | commit b => exact h i ((wake_state_eq (by decide)).mp hi).1
  | consume b hread => exact h i hi
  | sleep ch hr hp => exact h i (other (by decide) hi)
  | exit hr =>
    have hz : (c.setState c.current .zombie).state i = .running := by
      revert hi
      split
      · exact fun hi => ((wake_state_eq (by decide)).mp hi).1
      · exact id
    have hcur : i = c.current := h i (other (by decide) hz)
    subst hcur
    simp [Coord.setState] at hz
  | yield hr => exact h i (other (by decide) hi)
  | dispatch j hc hr =>
    by_cases hij : i = j
    · exact hij
    · have hold : c.state i = .running := by simpa [Coord.setState, hij] using hi
      have hcur := h i hold
      subst hcur
      exact absurd hold hc
  | spawn j hr hu => exact h i (other (by decide) hi)
  | spawnFail j hu => exact h i hi
  | reap j hr hz hk => exact h i (other (by decide) hi)

theorem run_running (hr : Run c c') (h : ∀ i, c.state i = .running → i = c.current) :
    ∀ i, c'.state i = .running → i = c'.current := by
  induction hr with
  | refl => exact h
  | tail _ hs ih => exact step_running hs ih

end Preservation

end Coord

end Lazux

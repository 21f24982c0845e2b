import Lazux.Memory
import Lazux.Readers
import Lazux.Works

/-! # Heaps side by side

Programs that call `malloc` and `free` run next to each other, and the kernel may take the processor
from one in the middle of a call. -/
namespace Lazux

open PagedMemory RadixForest Run ByteMemory

/-- The bytes process `i` can both read and write. -/
def bytesOf (st : KState) (i : Slot) : Bytes := fun va =>
  if Canonical va ∧ (pageFlags st i (pageNo va)).any fun w => decide (WriteLeaf w) then
    pageByte st i va
  else none

/-- What the allocator of process `i` sees, with `base` in its `global_base`. -/
def heapOf (st : KState) (i : Slot) (base : Addr) : User :=
  ⟨bytesOf st i, (st.processTable i).heapBreak, base⟩

section Views

variable {L : Layout} {st st' s : KState} {i j : Slot} {va base increment : Addr} {b : Byte}

theorem writeLeaf_flags (w : Word) : WriteLeaf (w &&& 0x3FF) ↔ WriteLeaf w := by
  have hmask : ∀ k < 10, (0x3FF : Word).getLsbD k = true := by decide
  have hbit : ∀ k < 10, (w &&& 0x3FF).getLsbD k = w.getLsbD k := by
    intro k hk
    rw [BitVec.getLsbD_and, hmask k hk, Bool.and_true]
  simp only [WriteLeaf, HardwareLeaf, hasFlag_pteV, hasFlag_pteR, hasFlag_pteW, hasFlag_pteX,
    hasFlag_pteU, hbit _ (by norm_num : 0 < 10), hbit _ (by norm_num : 1 < 10),
    hbit _ (by norm_num : 2 < 10), hbit _ (by norm_num : 3 < 10), hbit _ (by norm_num : 4 < 10)]

theorem WriteLeaf.userLeaf {w : Word} (h : WriteLeaf w) : UserLeaf w :=
  ⟨h.1.1, hardwareLeaf_isLeaf h.1, h.2.1⟩

theorem bytesOf_current (hset : Settled L st) : bytesOf st st.currentProc = userBytes st := by
  funext va
  rw [userBytes_eq hset, bytesOf]
  by_cases hu : UserLeaf (entryOf st st.currentProc (pageNo va))
  · have hpage : memoryOf st st.currentProc (pageNo va) =
        some ⟨entryOf st st.currentProc (pageNo va) &&& 0x3FF,
          st.phys.mem (frame (pteToPa (entryOf st st.currentProc (pageNo va))))⟩ := by
      rw [memoryOf, seenPage, if_pos hu]
    simp only [pageFlags, pageByte, hpage, Option.map_some, Option.any_some, decide_eq_true_eq,
      writeLeaf_flags]
  · have hpage : memoryOf st st.currentProc (pageNo va) = none := seenPage_of_not _ hu
    simp only [pageFlags, pageByte, hpage, Option.map_none, Option.any_none]
    rw [if_neg (by simp), if_neg fun h => hu h.2.userLeaf]

theorem heapOf_current (hset : Settled L st) (base : Addr) :
    heapOf st st.currentProc base = userOf st base := by
  rw [heapOf, userOf, bytesOf_current hset]
  rfl

theorem bytesOf_page (h : memoryOf st' i (pageNo va) = memoryOf s j (pageNo va)) :
    bytesOf st' i va = bytesOf s j va := by
  have hflags : pageFlags st' i (pageNo va) = pageFlags s j (pageNo va) := by
    rw [pageFlags, pageFlags, h]
  have hbyte : pageByte st' i va = pageByte s j va := by
    rw [pageByte, pageByte, h]
  rw [bytesOf, bytesOf, hflags, hbyte]

theorem bytesOf_congr (h : memoryOf st' i = memoryOf st i) : bytesOf st' i = bytesOf st i :=
  funext fun _ => bytesOf_page (congrFun h _)

theorem heapOf_congr (h : memoryOf st' i = memoryOf st i) (hheap : SameHeap st st' i)
    (base : Addr) : heapOf st' i base = heapOf st i base := by
  rw [heapOf, heapOf, bytesOf_congr h, hheap.heapBreak]

theorem heapOf_store (hset : Settled L st) (hs : Step L st (.store va b) st') (base : Addr) :
    heapOf st' st.currentProc base = (heapOf st st.currentProc base).put va b := by
  have hset' := settled_step hset hs
  cases hs with
  | store _ _ pa h =>
    have hcur := heapOf_current hset' base
    rw [heapOf_current hset]
    exact hcur.trans (congrArg (fun m => (⟨m, st.current.heapBreak, base⟩ : User))
      (userBytes_store hset h b))

theorem heapOf_mapped (hset : Settled L st) (hs : Step L st (.store va b) st') :
    ((heapOf st st.currentProc base).mem va).isSome := by
  cases hs with
  | store _ _ pa h =>
    rw [heapOf_current hset]
    show (userBytes st va).isSome
    rw [userBytes, h]
    rfl

theorem isSome_bytesOf (hflags : ∀ q, pageFlags st' i q = pageFlags st i q) (va : Addr) :
    (bytesOf st' i va).isSome = (bytesOf st i va).isSome := by
  have hpage : (pageByte st' i va).isSome = (pageByte st i va).isSome := by
    simp only [pageByte, Option.isSome_map, pageFlags_isSome, hflags]
  simp only [bytesOf, hflags]
  split
  · exact hpage
  · rfl

theorem bytesOf_still (hflags : ∀ q, pageFlags st' i q = pageFlags st i q)
    (hbyte : Canonical va → pageByte st' i va = pageByte st i va) :
    bytesOf st' i va = bytesOf st i va := by
  rw [bytesOf, bytesOf, hflags]
  by_cases hc : Canonical va
  · rw [hbyte hc]
  · rw [if_neg fun h => hc h.1, if_neg fun h => hc h.1]

theorem heapOf_grown (hm : memoryOf st' i = ((taskOf st i).grow increment).memory)
    (hb : (st'.processTable i).heapBreak = (st.processTable i).heapBreak + increment)
    (hfits : (st.processTable i).heapBreak.toNat + increment.toNat < 2 ^ 64)
    (hmax : ((st.processTable i).heapBreak + increment).toNat ≤ 0x3FFFE000) (base : Addr) :
    heapOf st' i base = (heapOf st i base).grow increment := by
  have hsum : ((st.processTable i).heapBreak + increment).toNat =
      (st.processTable i).heapBreak.toNat + increment.toNat := by
    rw [BitVec.toNat_add]
    exact Nat.mod_eq_of_lt hfits
  have hnew := pageCeil_toNat (a := (st.processTable i).heapBreak + increment) (by omega)
  have hold := pageCeil_toNat (a := (st.processTable i).heapBreak) (by omega)
  have hpages : ∀ q, q ∈ (taskOf st i).heapPages increment ↔
      (pageCeil (st.processTable i).heapBreak).toNat ≤ q.number * 4096 ∧
        q.number * 4096 < (pageCeil ((st.processTable i).heapBreak + increment)).toNat := fun q =>
    mem_heapPages.trans (mem_heapSteps (by omega) (by omega))
  have hbytes : bytesOf st' i = ((heapOf st i base).grow increment).mem := by
    funext va
    have hnum := number_pageNo va
    have hlt := va.isLt
    by_cases hin : pageCeil (st.processTable i).heapBreak ≤ va ∧
        va < pageCeil ((st.processTable i).heapBreak + increment)
    · have hgrown : ((heapOf st i base).grow increment).mem va = some 0 := if_pos hin
      rw [BitVec.le_def, BitVec.lt_def] at hin
      have hq : pageNo va ∈ (taskOf st i).heapPages increment :=
        (hpages _).mpr ⟨by omega, by omega⟩
      have hpage : memoryOf st' i (pageNo va) = some Task.blankPage := by
        rw [hm, Task.grow_mem hq]
      have hcanon : Canonical va := canonical_of_lt (by omega)
      rw [hgrown, bytesOf, pageFlags, pageByte, hpage, if_pos ⟨hcanon, by decide⟩]
      rfl
    · have hgrown : ((heapOf st i base).grow increment).mem va = bytesOf st i va := if_neg hin
      rw [BitVec.le_def, BitVec.lt_def] at hin
      rw [hgrown]
      by_cases hc : Canonical va
      · apply bytesOf_page
        rw [hm, Task.grow_not_mem]
        · rfl
        · intro hq
          have hrange := (hpages _).mp hq
          have hlow := canonical_low hc (by omega)
          omega
      · rw [bytesOf, bytesOf, if_neg fun h => hc h.1, if_neg fun h => hc h.1]
  rw [heapOf, hbytes, hb]
  rfl

end Views

/-- What is still to do of a call of the allocator, and what holds then. -/
structure HeapCall where
  rest : List Work
  globalBase : Addr
  ledger : Ledger

/-- How a program uses its heap; it may be in the middle of a call. -/
structure HeapUse where
  start : Addr
  globalBase : Addr
  ledger : Ledger
  call : Option HeapCall

def HeapUse.fresh (start : Addr) : HeapUse := ⟨start, 0, .empty, none⟩

def HeapUse.enter (p : HeapUse) (ws : List Work) (base : Addr) (l : Ledger) : HeapUse :=
  { p with call := some ⟨ws, base, l⟩ }

def HeapUse.leave (p : HeapUse) (c : HeapCall) : HeapUse := ⟨p.start, c.globalBase, c.ledger, none⟩

/-- Where a program writes besides what its allocator writes: to blocks it was given and beside the
heap; while a call goes on, to its data and its stack. -/
def HeapUse.MayWrite (p : HeapUse) (brk va : Addr) : Prop :=
  match p.call with
  | none => p.ledger.Owns va ∨ va.toNat < p.start.toNat ∨ brk.toNat ≤ va.toNat
  | some _ => va.toNat < p.start.toNat ∨ heapLimit.toNat ≤ va.toNat

/-- Between calls the heap is divided into its blocks, and in the middle of a call it is going to
be. -/
structure HeapUse.Tidy (p : HeapUse) (u : User) : Prop where
  aligned : p.start.toNat % 4096 = 0
  outside : p.call = none → p.start.toNat ≤ 2 ^ 64 - 2 ^ 31 →
    ∃ bs first, Arranged p.start p.ledger u bs first
  inside : ∀ c, p.call = some c → ∃ u', Works u c.rest u' ∧
    (p.start.toNat ≤ 2 ^ 64 - 2 ^ 31 →
      ∃ bs first, Arranged p.start c.ledger { u' with globalBase := c.globalBase } bs first)

section Uses

variable {p : HeapUse} {u u' v : User} {c : HeapCall} {ws : List Work} {frames : Bool} {fuel : ℕ}
  {size : Word} {q va : Addr} {b : Byte} {increment : Word}

theorem HeapUse.tidy_fresh (haligned : u.heapBreak.toNat % 4096 = 0) (hbase : u.globalBase = 0) :
    (HeapUse.fresh u.heapBreak).Tidy u := by
  refine ⟨haligned, fun _ _ => ⟨[], _, .begin haligned rfl hbase⟩, fun c hc => ?_⟩
  cases hc

theorem HeapUse.Tidy.malloc (h : p.Tidy u) (hout : p.call = none) (hok : Succeeds u frames size)
    (hret : Lazux.malloc frames fuel size u = .ok (q, u'))
    (hws : Works u ws { u' with globalBase := u.globalBase }) :
    (p.enter ws u'.globalBase (p.ledger.malloced u u' q size)).Tidy u := by
  refine ⟨h.aligned, fun hnone => (by cases hnone), fun c hc => ?_⟩
  obtain rfl := Option.some.inj hc
  refine ⟨_, hws, fun hlow => ?_⟩
  obtain ⟨bs, first, harr⟩ := h.outside hout hlow
  exact harr.malloc_ok hlow hok hret

theorem HeapUse.Tidy.free (h : p.Tidy u) (hout : p.call = none) (hq : q = 0 ∨ q ∈ p.ledger.returned)
    (hret : Lazux.free q u = .ok u') (hws : Works u ws { u' with globalBase := u.globalBase }) :
    (p.enter ws u'.globalBase (p.ledger.freed q)).Tidy u := by
  refine ⟨h.aligned, fun hnone => (by cases hnone), fun c hc => ?_⟩
  obtain rfl := Option.some.inj hc
  refine ⟨_, hws, fun hlow => ?_⟩
  obtain ⟨bs, first, harr⟩ := h.outside hout hlow
  obtain ⟨bs', harr'⟩ := harr.free_ok hq hret
  exact ⟨bs', first, harr'⟩

theorem HeapUse.Tidy.leave (h : p.Tidy u) (hc : p.call = some c) (hrest : c.rest = []) :
    (p.leave c).Tidy { u with globalBase := c.globalBase } := by
  refine ⟨h.aligned, fun _ hlow => ?_, fun c' hc' => (by cases hc')⟩
  obtain ⟨v, hws, harr⟩ := h.inside c hc
  rw [hrest] at hws
  cases hws
  exact harr hlow

theorem HeapUse.Tidy.store (h : p.Tidy u) (hc : p.call = some c)
    (hrest : c.rest = .store va b :: ws) :
    (p.enter ws c.globalBase c.ledger).Tidy (u.put va b) := by
  refine ⟨h.aligned, fun hnone => (by cases hnone), fun c' hc' => ?_⟩
  obtain rfl := Option.some.inj hc'
  obtain ⟨v, hws, harr⟩ := h.inside c hc
  rw [hrest] at hws
  cases hws with
  | store _ _ _ hws => exact ⟨v, hws, harr⟩

theorem HeapUse.Tidy.grow (h : p.Tidy u) (hc : p.call = some c)
    (hrest : c.rest = .grow increment :: ws) :
    (p.enter ws c.globalBase c.ledger).Tidy (u.grow increment) := by
  refine ⟨h.aligned, fun hnone => (by cases hnone), fun c' hc' => ?_⟩
  obtain rfl := Option.some.inj hc'
  obtain ⟨v, hws, harr⟩ := h.inside c hc
  rw [hrest] at hws
  cases hws with
  | grow _ _ _ hws => exact ⟨v, hws, harr⟩

theorem HeapUse.Tidy.changed (h : p.Tidy u) (hout : p.call = none)
    (hbreak : v.heapBreak = u.heapBreak) (hbase : v.globalBase = u.globalBase)
    (hmapped : ∀ x, (v.mem x).isSome = (u.mem x).isSome)
    (hsame : ∀ x, v.mem x = u.mem x ∨ p.MayWrite u.heapBreak x) : p.Tidy v := by
  refine ⟨h.aligned, fun _ hlow => ?_, fun c hc => ?_⟩
  · obtain ⟨bs, first, harr⟩ := h.outside hout hlow
    have hv : v = { u with mem := v.mem } := by
      cases v
      cases u
      simp_all
    rw [hv]
    refine ⟨bs, first, harr.write hmapped fun x => ?_⟩
    have hx := hsame x
    rwa [HeapUse.MayWrite, hout] at hx
  · rw [hout] at hc
    cases hc

theorem HeapUse.Tidy.write (h : p.Tidy u) (hm : (u.mem va).isSome)
    (hmay : p.MayWrite u.heapBreak va) (b : Byte) : p.Tidy (u.put va b) := by
  have hbeside := beside_store hm b
  cases hc : p.call with
  | none =>
    refine h.changed hc rfl rfl hbeside.mapped fun x => ?_
    by_cases hx : x = va
    · rw [hx]
      exact Or.inr hmay
    · exact Or.inl (hbeside.mem x hx)
  | some c =>
    refine ⟨h.aligned, fun hnone => ?_, fun c' hc' => ?_⟩
    · rw [hc] at hnone
      cases hnone
    · obtain ⟨w, hws, harr⟩ := h.inside c' hc'
      obtain ⟨w', hws', hw⟩ := hws.beside hbeside
      refine ⟨w', hws', fun hlow => ?_⟩
      obtain ⟨bs, first, harr⟩ := harr hlow
      rw [HeapUse.MayWrite, hc] at hmay
      have hw' : ({ w' with globalBase := c'.globalBase } : User) =
          { ({ w with globalBase := c'.globalBase } : User) with mem := w'.mem } := by
        rw [← hw.heapBreak]
      rw [hw']
      refine ⟨bs, first, harr.write hw.mapped fun x => ?_⟩
      by_cases hx : x = va
      · rw [hx]
        have hbound : w.heapBreak = p.start ∧ bs = [] ∨ w.heapBreak.toNat ≤ heapLimit.toNat :=
          harr.bounded
        -- the heap ends at its limit, or there is none
        have hpast : va.toNat < p.start.toNat ∨ w.heapBreak.toNat ≤ va.toNat := by
          rcases hmay with hbelow | habove
          · exact Or.inl hbelow
          · rcases hbound with ⟨hb, -⟩ | hb
            · rw [hb]
              omega
            · exact Or.inr (hb.trans habove)
        exact Or.inr (Or.inr hpast)
      · exact Or.inl (hw.mem x hx)

theorem HeapUse.Tidy.copied (h : p.Tidy u) (hout : p.call = none)
    (hbreak : v.heapBreak = u.heapBreak) (hbase : v.globalBase = u.globalBase)
    (hsame : ∀ x : Addr, x.toNat < 2 ^ 31 → v.mem x = u.mem x) : p.Tidy v := by
  refine ⟨h.aligned, fun _ hlow => ?_, fun c hc => ?_⟩
  · obtain ⟨bs, first, harr⟩ := h.outside hout hlow
    refine ⟨bs, first, harr.congr hbreak hbase fun x h1 h2 => hsame x ?_⟩
    rcases harr.bounded with ⟨hb, -⟩ | hb
    · rw [hb, pageCeil_of_aligned h.aligned] at h2
      omega
    · rw [heapLimit_toNat] at hb
      have hceil := pageCeil_toNat (a := u.heapBreak) (by omega)
      omega
  · rw [hout] at hc
    cases hc

end Uses

/-- Where the heaps are after a trap: a new program has a new one, a child one like its parent's. -/
def heapsAfter (g : Slot → HeapUse) (st st' : KState) : Slot → HeapUse := fun i =>
  if (st.processTable i).state = .unused then g st.currentProc
  else if (st'.processTable i).pageTable = (st.processTable i).pageTable then g i
  else .fresh (st'.processTable i).heapBreak

/-- The runs in which programs use their heaps as the allocator expects: they write where they may
and leave `SYS_SBRK` to it, and `SYS_SBRK` does not fail while a call of it goes on. A call is made
of its pieces, one step of the machine each, and other processes may run between any two. -/
inductive HeapRun (L : Layout) (ram : Memory) : (Slot → HeapUse) → KState → Prop where
  | boot (st) (h : kmain L ram = .ok st) : HeapRun L ram (fun _ => .fresh st.current.heapBreak) st
  | malloc {g st} (h : HeapRun L ram g st) (hout : (g st.currentProc).call = none)
      (frames fuel size p u' ws)
      (hok : Succeeds (heapOf st st.currentProc (g st.currentProc).globalBase) frames size)
      (hret : malloc frames fuel size (heapOf st st.currentProc (g st.currentProc).globalBase) =
        .ok (p, u'))
      (hws : Works (heapOf st st.currentProc (g st.currentProc).globalBase) ws
        { u' with globalBase := (g st.currentProc).globalBase }) :
      HeapRun L ram (Function.update g st.currentProc
        ((g st.currentProc).enter ws u'.globalBase ((g st.currentProc).ledger.malloced
          (heapOf st st.currentProc (g st.currentProc).globalBase) u' p size))) st
  | free {g st} (h : HeapRun L ram g st) (hout : (g st.currentProc).call = none) (p u' ws)
      (hp : p = 0 ∨ p ∈ (g st.currentProc).ledger.returned)
      (hret : free p (heapOf st st.currentProc (g st.currentProc).globalBase) = .ok u')
      (hws : Works (heapOf st st.currentProc (g st.currentProc).globalBase) ws
        { u' with globalBase := (g st.currentProc).globalBase }) :
      HeapRun L ram (Function.update g st.currentProc
        ((g st.currentProc).enter ws u'.globalBase ((g st.currentProc).ledger.freed p))) st
  | leave {g st} (h : HeapRun L ram g st) (c) (hc : (g st.currentProc).call = some c)
      (hrest : c.rest = []) :
      HeapRun L ram (Function.update g st.currentProc ((g st.currentProc).leave c)) st
  | work {g st st' va b} (h : HeapRun L ram g st) (hs : Step L st (.store va b) st') (c ws)
      (hc : (g st.currentProc).call = some c) (hrest : c.rest = .store va b :: ws) :
      HeapRun L ram (Function.update g st.currentProc
        ((g st.currentProc).enter ws c.globalBase c.ledger)) st'
  | sbrk {g st st' regs input} (h : HeapRun L ram g st) (hs : Step L st (.trap regs input) st')
      (h8 : regs.scause = 8) (h7 : regs.a7 = sysSbrk) (c ws)
      (hc : (g st.currentProc).call = some c) (hrest : c.rest = .grow regs.a0 :: ws)
      (hgrown : (st'.processTable st.currentProc).heapBreak ≠ st.current.heapBreak) :
      HeapRun L ram (Function.update g st.currentProc
        ((g st.currentProc).enter ws c.globalBase c.ledger)) st'
  | write {g st st' va b} (h : HeapRun L ram g st) (hs : Step L st (.store va b) st')
      (hmay : (g st.currentProc).MayWrite st.current.heapBreak va) : HeapRun L ram g st'
  | trap {g st st' regs input} (h : HeapRun L ram g st) (hs : Step L st (.trap regs input) st')
      (hcall : regs.scause = 8 → (g st.currentProc).call = none ∧ regs.a7 ≠ sysSbrk ∧
        (regs.a7 = sysRead → ∀ k < (readCount regs).toNat,
          (g st.currentProc).MayWrite st.current.heapBreak (regs.a1 + BitVec.ofNat 64 k))) :
      HeapRun L ram (heapsAfter g st st') st'

section Runs

variable {L : Layout} {ram : Memory} {g : Slot → HeapUse} {st st' : KState} {i : Slot}
  {regs : TrapFrame} {input : Input}

theorem HeapRun.reachable (h : HeapRun L ram g st) : Reachable L ram st := by
  induction h with
  | boot st h => exact .boot st h
  | malloc _ _ _ _ _ _ _ _ _ _ _ ih => exact ih
  | free _ _ _ _ _ _ _ _ ih => exact ih
  | leave _ _ _ _ ih => exact ih
  | work _ hs _ _ _ _ ih => exact .step ih hs
  | sbrk _ hs _ _ _ _ _ _ _ ih => exact .step ih hs
  | write _ hs _ ih => exact .step ih hs
  | trap _ hs _ ih => exact .step ih hs

/-- The heaps of all processes are as their programs left them. -/
def AllTidy (g : Slot → HeapUse) (st : KState) : Prop :=
  ∀ i, (st.processTable i).state ≠ .unused → (g i).Tidy (heapOf st i (g i).globalBase)

def Undisturbed (st st' : KState) (i : Slot) : Prop :=
  (st.processTable i).state ≠ .unused ∧ memoryOf st' i = memoryOf st i ∧ SameHeap st st' i

/-- Only the running program's heap changes, or its use. -/
theorem AllTidy.current {p : HeapUse} (h : AllTidy g st) (hu : st.current.state ≠ .unused)
    (hp : (st'.processTable st.currentProc).state ≠ .unused →
      (g st.currentProc).Tidy (heapOf st st.currentProc (g st.currentProc).globalBase) →
      p.Tidy (heapOf st' st.currentProc p.globalBase))
    (hothers : ∀ i, i ≠ st.currentProc → (st'.processTable i).state ≠ .unused →
      Undisturbed st st' i) : AllTidy (Function.update g st.currentProc p) st' := by
  intro i hi
  by_cases hj : i = st.currentProc
  · subst hj
    rw [Function.update_self]
    exact hp hi (h _ hu)
  · obtain ⟨hused, hm, hheap⟩ := hothers i hj hi
    rw [Function.update_of_ne hj, heapOf_congr hm hheap]
    exact h i hused

/-- A program's store is to its own heap or to nobody's. -/
theorem store_others {va : Addr} {b : Byte} (h : Stored st va b st') (i : Slot)
    (hi : i ≠ st.currentProc) (hu : (st'.processTable i).state ≠ .unused) :
    Undisturbed st st' i := by
  have hp : st'.processTable i = st.processTable i := by rw [h.processTable]
  refine ⟨?_, h.others i hi, .of_eq hp⟩
  rw [← hp]
  exact hu

/-- Nobody but the caller notices a call of `SYS_SBRK`. -/
theorem sbrk_others (hset : Settled L st) (hs : Step L st (.trap regs input) st')
    (h7 : regs.a7 = sysSbrk) (i : Slot) (hi : i ≠ st.currentProc)
    (hu : (st'.processTable i).state ≠ .unused) : Undisturbed st st' i := by
  rcases (trap_fate hset hs hu).of_other hset hi with h | h
  · exact h
  · rw [h7] at h
    exact absurd h (by decide)

theorem sbrk_heap (hset : Settled L st) (hs : Step L st (.trap regs input) st')
    (h8 : regs.scause = 8) (h7 : regs.a7 = sysSbrk)
    (hfits : st.current.heapBreak.toNat + regs.a0.toNat < 2 ^ 64)
    (hgrown : (st'.processTable st.currentProc).heapBreak ≠ st.current.heapBreak)
    (hu : (st'.processTable st.currentProc).state ≠ .unused) (base : Addr) :
    heapOf st' st.currentProc base = (heapOf st st.currentProc base).grow regs.a0 := by
  have hsame := sameSpaces_called regs st
  have hbreak := (hsame.heap st.currentProc).heapBreak
  have hmax' := (hsame.heap st.currentProc).heapMax
  obtain ⟨ha7, ha0, -, -⟩ := called_regs hset regs
  rw [h7] at ha7
  cases trap_fate hset hs hu with
  | other h8' => exact absurd h8 h8'
  | call _ h =>
    cases h with
    | kept _ _ hheap => exact absurd (hheap.heapBreak.trans hbreak) hgrown
    | shrunk _ _ _ _ _ _ hheap => exact absurd (hheap.heapBreak.trans hbreak) hgrown
    | filled h7' =>
      rw [ha7] at h7'
      exact absurd h7' (by decide)
    | execed h7' =>
      rw [ha7] at h7'
      exact absurd h7' (by decide)
    | forked h7' =>
      rw [ha7] at h7'
      exact absurd h7' (by decide)
    | grown _ _ _ _ hmax hm hb _ _ =>
      rw [ha0] at hmax hm hb
      rw [hbreak, hmax'] at hmax
      change ¬ st.current.heapBreak + regs.a0 > _ at hmax
      have hlimit : (st.processTable st.currentProc).heapMax.toNat ≤ 0x3FFFE000 :=
        hset.sound.heap st.currentProc
      have hhigh : (st.current.heapBreak + regs.a0).toNat ≤ 0x3FFFE000 := by
        have hle : (st.current.heapBreak + regs.a0).toNat ≤
            (st.processTable st.currentProc).heapMax.toNat := by
          simpa [BitVec.lt_def] using hmax
        exact hle.trans hlimit
      have hfits' := hfits
      have hhigh' := hhigh
      rw [← show _ = st.current.heapBreak from hbreak] at hfits' hhigh'
      rw [heapOf_grown hm hb hfits' hhigh', heapOf_congr (hsame.memoryOf_eq _) (hsame.heap _)]

theorem AllTidy.trap (hset : Settled L st) (h : AllTidy g st)
    (hs : Step L st (.trap regs input) st')
    (hcall : regs.scause = 8 → (g st.currentProc).call = none ∧ regs.a7 ≠ sysSbrk ∧
      (regs.a7 = sysRead → ∀ k < (readCount regs).toNat,
        (g st.currentProc).MayWrite st.current.heapBreak (regs.a1 + BitVec.ofNat 64 k))) :
    AllTidy (heapsAfter g st st') st' := by
  intro i hi
  have hsame := sameSpaces_called regs st
  obtain ⟨ha7, ha0, ha1, -⟩ := called_regs hset regs
  -- whose table is the same goes on with its heap
  have stays : (st.processTable i).state ≠ .unused →
      (st'.processTable i).pageTable = (st.processTable i).pageTable →
      heapsAfter g st st' i = g i := by
    intro hu ht
    rw [heapsAfter, if_neg hu, if_pos ht]
  have kept : (st.processTable i).state ≠ .unused → memoryOf st' i = memoryOf st i →
      SameHeap st st' i → (heapsAfter g st st' i).Tidy
        (heapOf st' i (heapsAfter g st st' i).globalBase) := by
    intro hu hm hheap
    rw [stays hu hheap.table, heapOf_congr hm hheap]
    exact h i hu
  cases trap_fate hset hs hi with
  | other _ hu hm hheap => exact kept hu hm hheap
  | call h8 hfate =>
    obtain ⟨hout, hsbrk, hbuffer⟩ := hcall h8
    cases hfate with
    | kept hu hm hheap =>
      exact kept (fun h0 => hu ((hsame.used i).mpr h0)) (hm.trans (hsame.memoryOf_eq i))
        ((hsame.heap i).trans hheap)
    | grown h7 => exact absurd (ha7.symm.trans h7) hsbrk
    | shrunk h7 => exact absurd (ha7.symm.trans h7) hsbrk
    | filled h7 hcur n hn hflags hbytes hheap =>
      have hcur : i = st.currentProc := hcur
      subst hcur
      have hheap' := (hsame.heap st.currentProc).trans hheap
      have hmem := hsame.memoryOf_eq st.currentProc
      rw [stays hset.steady.used hheap'.table]
      refine (h _ hset.steady.used).changed hout hheap'.heapBreak rfl ?_ fun x => ?_
      · intro x
        show (bytesOf st' st.currentProc x).isSome = (bytesOf st st.currentProc x).isSome
        rw [← bytesOf_congr hmem]
        exact isSome_bytesOf hflags x
      · by_cases hin : ∃ k < (readCount regs).toNat, x = regs.a1 + BitVec.ofNat 64 k
        · obtain ⟨k, hk, rfl⟩ := hin
          exact Or.inr (hbuffer (ha7.symm.trans h7) k hk)
        · left
          show bytesOf st' st.currentProc x = bytesOf st st.currentProc x
          rw [← bytesOf_congr hmem]
          rw [readSize_entered hset] at hn
          rw [ha1] at hbytes
          exact bytesOf_still hflags fun hc => hbytes x hc fun k hk he => hin ⟨k, by omega, he⟩
    | execed _ hcur _ _ _ _ _ _ _ _ _ _ hb _ ht =>
      have hcur : i = st.currentProc := hcur
      subst hcur
      have hnew : heapsAfter g st st' st.currentProc =
          .fresh (st'.processTable st.currentProc).heapBreak := by
        have ht' : (st'.processTable st.currentProc).pageTable ≠
            (st.processTable st.currentProc).pageTable := by
          rw [← (hsame.heap st.currentProc).table]
          exact ht
        rw [heapsAfter, if_neg hset.steady.used, if_neg ht']
      rw [hnew]
      refine HeapUse.tidy_fresh (u := heapOf st' st.currentProc 0) ?_ rfl
      show (st'.processTable st.currentProc).heapBreak.toNat % 4096 = 0
      rw [hb, pageCeil, pageFloor_toNat]
      omega
    | forked _ hu hm hb _ =>
      have hu' : (st.processTable i).state = .unused := (hsame.used i).mp hu
      have hchild : heapsAfter g st st' i = g st.currentProc := by
        rw [heapsAfter, if_pos hu']
      rw [hchild]
      refine (h _ hset.steady.used).copied hout ?_ rfl fun x hx => ?_
      · exact hb.trans (hsame.heap st.currentProc).heapBreak
      · show bytesOf st' i x = bytesOf st st.currentProc x
        apply bytesOf_page
        have hnum := number_pageNo x
        have hlow : (pageNo x).number < 2 ^ 19 := by omega
        rw [hm, ← hsame.memoryOf_eq]
        exact if_pos hlow

theorem HeapRun.allTidy (h : HeapRun L ram g st) : AllTidy g st := by
  induction h with
  | boot st hboot =>
    intro i hi
    have hone : i = st.currentProc := by
      by_contra hne
      have hc : (coord st).state i = .unused := by
        rw [(booted hboot).2]
        exact if_neg hne
      exact hi hc
    subst hone
    obtain ⟨_, _, _, _, _, maxEnd, -, hinst, -⟩ := installed hboot
    refine HeapUse.tidy_fresh (u := heapOf st st.currentProc 0) ?_ rfl
    show st.current.heapBreak.toNat % 4096 = 0
    rw [hinst.heapBreak, pageCeil, pageFloor_toNat]
    omega
  | @malloc g st h hout frames fuel size p u' ws hok hret hws ih =>
    have hset := reachable_settled h.reachable
    exact ih.current hset.steady.used (fun _ ht => ht.malloc hout hok hret hws)
      fun i _ hi => ⟨hi, rfl, .refl st i⟩
  | @free g st h hout p u' ws hp hret hws ih =>
    have hset := reachable_settled h.reachable
    exact ih.current hset.steady.used (fun _ ht => ht.free hout hp hret hws)
      fun i _ hi => ⟨hi, rfl, .refl st i⟩
  | @leave g st h c hc hrest ih =>
    have hset := reachable_settled h.reachable
    exact ih.current hset.steady.used (fun _ ht => ht.leave hc hrest)
      fun i _ hi => ⟨hi, rfl, .refl st i⟩
  | @work g st st' va b h hs c ws hc hrest ih =>
    have hset := reachable_settled h.reachable
    refine ih.current hset.steady.used (fun _ ht => ?_)
      fun i hi hu => store_others (store_stored hset hs) i hi hu
    rw [HeapUse.enter, heapOf_store hset hs]
    exact ht.store hc hrest
  | @sbrk g st st' regs input h hs h8 h7 c ws hc hrest hgrown ih =>
    have hset := reachable_settled h.reachable
    refine ih.current hset.steady.used (fun hu ht => ?_) fun i hi hu =>
      sbrk_others hset hs h7 i hi hu
    obtain ⟨v, hws, -⟩ := ht.inside c hc
    rw [hrest] at hws
    cases hws with
    | grow _ _ hfits _ =>
      rw [HeapUse.enter, sbrk_heap hset hs h8 h7 hfits hgrown hu]
      exact ht.grow hc hrest
  | @write g st st' va b h hs hmay ih =>
    have hset := reachable_settled h.reachable
    have hnext : AllTidy (Function.update g st.currentProc (g st.currentProc)) st' := by
      refine ih.current hset.steady.used (fun _ ht => ?_)
        fun i hi hu => store_others (store_stored hset hs) i hi hu
      rw [heapOf_store hset hs]
      exact ht.write (heapOf_mapped hset hs) hmay b
    rwa [Function.update_eq_self] at hnext
  | trap h hs hcall ih => exact ih.trap (reachable_settled h.reachable) hs hcall

/-- How the running program goes on with its heap. -/
structure CallsGo (L : Layout) (p : HeapUse) (st : KState) : Prop where
  sees : heapOf st st.currentProc p.globalBase = userOf st p.globalBase
  mallocs : p.call = none → p.start.toNat ≤ 2 ^ 64 - 2 ^ 31 → ∀ frames fuel size q u',
    Succeeds (heapOf st st.currentProc p.globalBase) frames size →
    malloc frames fuel size (heapOf st st.currentProc p.globalBase) = .ok (q, u') →
    ∃ ws, Works (heapOf st st.currentProc p.globalBase) ws
      { u' with globalBase := p.globalBase } ∧ OneCall size ws
  frees : ∀ q u', free q (heapOf st st.currentProc p.globalBase) = .ok u' →
    ∃ ws, Works (heapOf st st.currentProc p.globalBase) ws
      { u' with globalBase := p.globalBase } ∧ Stores ws
  stores : ∀ c va b ws, p.call = some c → c.rest = .store va b :: ws →
    ∃ st', Step L st (.store va b) st'
  grows : ∀ c increment ws, p.call = some c → c.rest = .grow increment :: ws →
    HeapFits st increment → ∀ regs input, regs.scause = 8 → regs.a7 = sysSbrk →
    regs.a0 = increment → ∃ st', Step L st (.trap regs input) st' ∧
      (st'.processTable st.currentProc).heapBreak ≠ st.current.heapBreak

theorem HeapRun.callsGo (h : HeapRun L ram g st) : CallsGo L (g st.currentProc) st := by
  have hset := reachable_settled h.reachable
  have htidy := h.allTidy st.currentProc hset.steady.used
  refine ⟨heapOf_current hset _, fun hout hlow frames fuel size q u' hok hret => ?_,
    fun q u' hret => free_works hret, fun c va b ws hc hrest => ?_,
    fun c increment ws hc hrest hfit regs input h8 h7 ha0 => ?_⟩
  · obtain ⟨bs, first, harr⟩ := htidy.outside hout hlow
    exact harr.malloc_works hlow hok hret
  · obtain ⟨v, hws, -⟩ := htidy.inside c hc
    rw [hrest, heapOf_current hset] at hws
    cases hws with
    | store _ _ hm _ =>
      obtain ⟨pa, hpa⟩ := Option.isSome_iff_exists.mp (Option.isSome_map.symm.trans hm)
      exact ⟨_, .store st va b pa hpa⟩
  · obtain ⟨v, hws, -⟩ := htidy.inside c hc
    rw [hrest] at hws
    subst ha0
    cases hws with
    | grow _ hg _ _ =>
      obtain ⟨hpos, hneg, hbelow, -⟩ := hg
      have hmax : st.current.heapMax = heapLimit := reachable_heapMax h.reachable hset.steady.used
      rw [← hmax] at hbelow
      obtain ⟨st', hs, -, hb⟩ := sbrk_moves hset h8 h7 hpos (by simpa using hneg) hbelow hfit input
      refine ⟨st', hs, ?_⟩
      rw [hb]
      exact fun he => hpos (by simpa using he)

theorem HeapRun.finish_stores {c : HeapCall} (h : HeapRun L ram g st)
    (hc : (g st.currentProc).call = some c) (hstores : Stores c.rest) :
    ∃ g' st', HeapRun L ram g' st' ∧ st'.currentProc = st.currentProc ∧
      g' st'.currentProc = (g st.currentProc).leave c := by
  obtain ⟨rest, base, l⟩ := c
  induction rest generalizing g st with
  | nil =>
    refine ⟨_, st, h.leave _ hc rfl, rfl, ?_⟩
    rw [Function.update_self]
  | cons w ws ih =>
    obtain ⟨va, b, rfl⟩ := hstores w List.mem_cons_self
    obtain ⟨st', hs⟩ := h.callsGo.stores _ va b ws hc rfl
    have hcur : st'.currentProc = st.currentProc := by
      cases hs
      rfl
    have hnext := h.work hs _ ws hc rfl
    rw [← hcur] at hnext
    obtain ⟨g', st'', hrun, hproc, hleave⟩ := ih hnext (by rw [Function.update_self]; rfl)
      fun w hw => hstores w (List.mem_cons_of_mem _ hw)
    refine ⟨g', st'', hrun, hproc.trans hcur, ?_⟩
    rw [hleave, Function.update_self, hcur]
    rfl

theorem HeapRun.finish {c : HeapCall} {size : Word} (h : HeapRun L ram g st)
    (hc : (g st.currentProc).call = some c) (hone : OneCall size c.rest)
    (hfit : HeapFits st (request size)) :
    ∃ g' st', HeapRun L ram g' st' ∧ st'.currentProc = st.currentProc ∧
      g' st'.currentProc = (g st.currentProc).leave c := by
  rcases hone with hstores | ⟨vs, hrest, hstores⟩
  · exact h.finish_stores hc hstores
  · let regs : TrapFrame := { TrapFrame.zero with a7 := sysSbrk, a0 := request size, scause := 8 }
    have hset := reachable_settled h.reachable
    obtain ⟨v, hws, -⟩ := (h.allTidy st.currentProc hset.steady.used).inside c hc
    rw [hrest] at hws
    cases hws with
    | grow _ hg _ _ =>
      obtain ⟨hpos, hneg, hbelow, -⟩ := hg
      have hmax : st.current.heapMax = heapLimit := reachable_heapMax h.reachable hset.steady.used
      rw [← hmax] at hbelow
      obtain ⟨st', hs, hcur, hb⟩ := @sbrk_moves _ _ regs hset rfl rfl hpos (by simpa using hneg)
        hbelow hfit ⟨⟨0, []⟩, []⟩
      have hgrown : (st'.processTable st.currentProc).heapBreak ≠ st.current.heapBreak := by
        rw [hb]
        exact fun he => hpos (by simpa using he)
      have hnext := h.sbrk hs rfl rfl c vs hc hrest hgrown
      rw [← hcur] at hnext
      obtain ⟨g', st'', hrun, hproc, hleave⟩ :=
        hnext.finish_stores (c := ⟨vs, c.globalBase, c.ledger⟩) (by rw [Function.update_self]; rfl)
          hstores
      refine ⟨g', st'', hrun, hproc.trans hcur, ?_⟩
      rw [hleave, Function.update_self, hcur]
      rfl

/-- In every run in which programs write where they may and leave `SYS_SBRK` to their allocators, no
matter how their calls of `malloc` and `free` are interrupted, mixed and copied by forks, the heap
of every process that is not in the middle of a call is intact; and the running process can always
go on with its call, with new pages as long as there are frames. -/
theorem heaps_stay_intact (h : HeapRun L ram g st) :
    (∀ i, (st.processTable i).state ≠ .unused → (g i).call = none → (g i).start ≠ 0 →
      (g i).start.toNat ≤ 2 ^ 64 - 2 ^ 31 →
      Integrity (g i).ledger (heapOf st i (g i).globalBase)) ∧
    CallsGo L (g st.currentProc) st := by
  refine ⟨fun i hu hout h0 hlow => ?_, h.callsGo⟩
  obtain ⟨bs, first, harr⟩ := (h.allTidy i hu).outside hout hlow
  exact harr.integrity h0 hlow

/-- The first program has got 16 bytes from `malloc`. -/
theorem heaps_stay_intact_first : ∃ g st q,
    HeapRun smallLayout (segmentRam 0x400000 0) g st ∧ (g st.currentProc).call = none ∧
    (g st.currentProc).ledger.live q = some 16 ∧
    Integrity (g st.currentProc).ledger (heapOf st st.currentProc (g st.currentProc).globalBase) ∧
    CallsGo smallLayout (g st.currentProc) st := by
  obtain ⟨st, h⟩ := boot_returns alignedImage
  have hrun : HeapRun smallLayout (segmentRam 0x400000 0)
      (fun _ => .fresh st.current.heapBreak) st := .boot st h
  obtain ⟨hb, -, hfits⟩ := aligned_heap h
  have h0 : st.current.heapBreak ≠ 0 := by
    rw [hb]
    decide
  have hlow : st.current.heapBreak.toNat ≤ 2 ^ 64 - 2 ^ 31 := by
    rw [hb]
    decide
  have hset := reachable_settled hrun.reachable
  obtain ⟨bs, first, harr⟩ := (hrun.allTidy st.currentProc hset.steady.used).outside rfl hlow
  have hg : (heapOf st st.currentProc 0).Grants true (request 16) := by
    refine ⟨by decide, by decide, ?_, rfl⟩
    show ¬ st.current.heapBreak + request 16 > heapLimit
    rw [hb]
    decide
  obtain ⟨fuel, q, u', hret, hq, -⟩ := (harr.integrity h0 hlow).mallocs true 16 (by decide)
    (by decide) fun _ => hg
  have hok : Succeeds (heapOf st st.currentProc 0) true 16 := ⟨by decide, fun _ _ => hg⟩
  obtain ⟨ws, hws, hone⟩ := hrun.callsGo.mallocs rfl hlow true fuel 16 q u' hok hret
  have hcalled := HeapRun.malloc hrun rfl true fuel 16 q u' ws hok hret hws
  obtain ⟨g', st', hdone, hcur, hleft⟩ := hcalled.finish
    (by rw [Function.update_self]; rfl) hone (hfits _ (by decide))
  rw [Function.update_self] at hleft
  obtain ⟨hall, hgo⟩ := heaps_stay_intact hdone
  refine ⟨g', st', q, hdone, ?_, ?_,
    hall _ (reachable_settled hdone.reachable).steady.used ?_ ?_ ?_,
    hgo⟩
  all_goals rw [hleft]
  · rfl
  · show (Ledger.malloced .empty _ u' q 16).live q = some 16
    rw [Ledger.malloced, if_neg hq]
    exact Function.update_self ..
  · rfl
  · exact h0
  · exact hlow

end Runs

end Lazux

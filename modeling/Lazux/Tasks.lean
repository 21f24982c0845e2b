import Lazux.Actions

/-! # Processes with memories of their own

What the kernel is for: a machine of processes each of which has a memory, registers and files that
are nobody else's. There are no page tables here, no frames and no kernel stacks. -/
namespace Lazux

open PagedMemory RadixForest Trace

/-- A page as its process sees it. -/
structure UserPage where
  flags : Word
  content : Page

structure Task where
  pid : BitVec 32
  parent : BitVec 32
  state : ProcState
  chan : Option Chan
  regs : TrapFrame
  memory : PageNo → Option UserPage
  heapBreak : Addr
  heapMax : Addr
  files : Fin 16 → File

structure Tasks where
  task : Slot → Option Task
  current : Slot
  nextPid : ℕ
  uart : Uart
  console : List Byte

namespace Task

variable (t : Task)

def blankPage : UserPage := ⟨pteV ||| pteU ||| pteR ||| pteW, Page.zero⟩

def poke (q : PageNo) (o : Fin 4096) (b : Byte) : Task :=
  { t with
    memory := Function.update t.memory q
      ((t.memory q).map fun pg => { pg with content := Function.update pg.content o b }) }

/-- The pages a heap asks for that is to grow by `increment`. -/
def heapPages (increment : Word) : List PageNo :=
  (pageSteps (pageCeil t.heapBreak) (pageCeil (t.heapBreak + increment))).map pageNo

def grow (increment : Word) : Task :=
  { t with
    memory := fun q => if (t.heapPages increment).any (· = q) then some blankPage else t.memory q
    heapBreak := t.heapBreak + increment }

/-- Pages taken back when the frames do not suffice for all. -/
def drop (l : List PageNo) : Task :=
  { t with memory := fun q => if l.any (· = q) then none else t.memory q }

variable {t} {l : List PageNo} {increment : Word} {q : PageNo}

theorem drop_mem (h : q ∈ l) : (t.drop l).memory q = none :=
  if_pos (List.any_eq_true.mpr ⟨q, h, decide_eq_true rfl⟩)

theorem drop_not_mem (h : q ∉ l) : (t.drop l).memory q = t.memory q := by
  apply if_neg
  rw [List.any_eq_true]
  rintro ⟨p, hp, he⟩
  exact h (of_decide_eq_true he ▸ hp)

theorem grow_mem (h : q ∈ t.heapPages increment) : (t.grow increment).memory q = some blankPage :=
  if_pos (List.any_eq_true.mpr ⟨q, h, decide_eq_true rfl⟩)

theorem grow_not_mem (h : q ∉ t.heapPages increment) :
    (t.grow increment).memory q = t.memory q := by
  apply if_neg
  rw [List.any_eq_true]
  rintro ⟨p, hp, he⟩
  exact h (of_decide_eq_true he ▸ hp)

variable (t)

/-- A page of an image, unless its segment asks for no permission. -/
def imagePage (x : Placement) : Option UserPage :=
  if isLeaf x.flags then some ⟨x.flags ||| pteV, x.content⟩ else none

/-- A new program: the pages of its segments and, if there was a frame for it, a stack. -/
def load (pl : List Placement) (stack : Bool) (start : ℕ) (maxEnd : Addr) : Task :=
  { t with
    memory := fun q =>
      if stack ∧ q = pageNo userStackBase then some blankPage else (lastAt pl q).bind imagePage
    regs := { t.regs with sepc := BitVec.ofNat 64 start, sp := userStackTop }
    heapBreak := pageCeil maxEnd
    heapMax := userStackBase - 4096 }

/-- What a fork makes: the same program with the same memory below 2 GB. -/
def child (pid : BitVec 32) : Task :=
  { t with
    pid := pid
    parent := t.pid
    state := .ready
    chan := none
    regs := { t.regs with a0 := 0 }
    memory := fun q => if q.number < 2 ^ 19 then t.memory q else none }

def wake (ch : Chan) : Task :=
  if t.state = .blocked ∧ t.chan = some ch then { t with state := .ready, chan := none } else t

end Task

namespace Tasks

variable (S : Tasks)

def modify (f : Task → Task) : Tasks :=
  { S with task := Function.update S.task S.current ((S.task S.current).map f) }

def wake (ch : Chan) : Tasks := { S with task := fun i => (S.task i).map fun t => t.wake ch }

def receive (b : Byte) : Tasks :=
  let r := uartReceive S.uart b
  let S := { S with uart := r.uart, console := S.console ++ r.echo }
  if r.wake then S.wake .uartRx else S

def withPid (pid : BitVec 32) : Option Slot :=
  (List.finRange 64).find? fun i => (S.task i).any fun t => t.pid = pid

def exit (parent : BitVec 32) : Tasks :=
  let S := S.modify fun t => { t with state := .zombie }
  match S.withPid parent with
  | some i => S.wake (.pcb i)
  | none => S

end Tasks

/-- What the current process can do, and what comes from outside. -/
inductive Action (S : Tasks) : List Label → Tasks → Prop where
  | console (c : List Byte) : Action S [] { S with console := c }
  | regs (r : TrapFrame) : Action S [] (S.modify fun t => { t with regs := r })
  | file (fd : Fin 16) (f : File) :
      Action S [] (S.modify fun t => { t with files := Function.update t.files fd f })
  | take (b : Byte) (u : Uart) (h : uartGetc S.uart = (some b, u)) :
      Action S [.taken b] { S with uart := u }
  | receive (b : Byte) : Action S [.received b] (S.receive b)
  | poke (t : Task) (ht : S.task S.current = some t) (q : PageNo) (hq : t.memory q ≠ none)
      (o : Fin 4096) (b : Byte) : Action S [] (S.modify fun t => t.poke q o b)
  | grow (increment : Word) : Action S [] (S.modify fun t => t.grow increment)
  | growFailed (t : Task) (ht : S.task S.current = some t) (increment : Word) (l : List PageNo)
      (hl : l <+: t.heapPages increment) : Action S [] (S.modify fun t => t.drop l)
  | forkFailed (c : List Byte) (n : ℕ) (hn : n ≤ S.nextPid + 1) :
      Action S [] { S with console := c, nextPid := n }
  | fork (t : Task) (ht : S.task S.current = some t) (i : Slot) (hi : S.task i = none) :
      Action S [.forked t.pid (BitVec.ofNat 32 S.nextPid)]
        { S with
          task := Function.update (Function.update S.task S.current (some { t with
            regs := { t.regs with a0 := (BitVec.ofNat 32 S.nextPid).signExtend 64 } })) i
            (some (t.child (BitVec.ofNat 32 S.nextPid)))
          nextPid := S.nextPid + 1 }
  | exec (elf : Addr → Except Stop Byte) (phoff phnum start : ℕ) (pl : List Placement)
      (maxEnd : Addr) (stack : Bool) (hp : Plan elf phoff phnum start pl maxEnd) :
      Action S [] (S.modify fun t => t.load pl stack start maxEnd)
  | reap (t z : Task) (ht : S.task S.current = some t) (i : Slot) (hz : S.task i = some z)
      (hs : z.state = .zombie) (hp : z.parent = t.pid) :
      Action S [.reaped t.pid z.pid] { S with task := Function.update S.task i none }
  | sleep (ch : Chan) : Action S [] (S.modify fun t =>
      { t with
        state := .blocked, chan := some ch, regs := { t.regs with sepc := t.regs.sepc - 4 } })
  | exit (t : Task) (ht : S.task S.current = some t) : Action S [.died t.pid] (S.exit t.parent)
  | yield : Action S [] (S.modify fun t => { t with state := .ready })

/-- What happens between two instructions of programs: the current process does something, and
after that another one may get the processor. -/
inductive Stint (S : Tasks) : List Label → Tasks → Prop where
  | stays {ls : List Label} {S' : Tasks} (h : Path Action S ls S') : Stint S ls S'
  | switches {ls : List Label} {M : Tasks} (h : Path Action S ls M)
      (hs : ∀ t, M.task M.current = some t → t.state ≠ .running) (next : Slot) (n : Task)
      (hn : M.task next = some n) (hr : n.state = .ready) :
      Stint S (ls ++ [.switched next])
        ({ M with current := next }.modify fun t => { t with state := .running })

theorem Stint.head {S M S' : Tasks} {ls ms : List Label} (h : Stint M ms S') (ha : Action S ls M) :
    Stint S (ls ++ ms) S' := by
  cases h with
  | stays h => exact .stays (h.head ha)
  | switches h hs next n hn hr =>
    rw [← List.append_assoc]
    exact .switches (h.head ha) hs next n hn hr

section Privacy

variable {S S' M : Tasks} {ls : List Label} {i j : Slot} {t : Task}

/-- Only its place in the schedule has changed. -/
def Task.Unchanged (t t' : Task) : Prop := ∃ s c, t' = { t with state := s, chan := c }

theorem Task.Unchanged.refl (t : Task) : t.Unchanged t := ⟨_, _, rfl⟩

theorem Task.Unchanged.trans {t' t'' : Task} (h : t.Unchanged t') (h' : t'.Unchanged t'') :
    t.Unchanged t'' := by
  obtain ⟨s, c, rfl⟩ := h
  obtain ⟨s', c', rfl⟩ := h'
  exact ⟨s', c', rfl⟩

theorem Task.unchanged_wake (t : Task) (ch : Chan) : t.Unchanged (t.wake ch) := by
  unfold Task.wake
  split_ifs
  · exact ⟨_, _, rfl⟩
  · exact .refl t

/-- A process is there with all that is its own, as dead or alive as it was, or it was dead and has
been waited for. -/
def LeftAlone (ls : List Label) (S' : Tasks) (j : Slot) (t : Task) : Prop :=
  (∃ t', S'.task j = some t' ∧ t.Unchanged t' ∧ (t'.state = .zombie → t.state = .zombie)) ∨
    t.state = .zombie ∧ ∃ p, .reaped p t.pid ∈ ls

theorem Tasks.modify_of_ne (f : Task → Task) (hj : j ≠ S.current) :
    (S.modify f).task j = S.task j := Function.update_of_ne hj ..

theorem alone_same (ht : S.task j = some t) (h : S'.task j = S.task j) : LeftAlone ls S' j t :=
  Or.inl ⟨t, h.trans ht, .refl t, id⟩

theorem alone_wake (ht : S.task j = some t) (ch : Chan) : LeftAlone ls (S.wake ch) j t := by
  refine Or.inl ⟨t.wake ch, ?_, t.unchanged_wake ch, fun hz => ?_⟩
  · have hwake : (S.wake ch).task j = (S.task j).map fun t => t.wake ch := rfl
    rw [hwake, ht, Option.map_some]
  · unfold Task.wake at hz
    split_ifs at hz
    exact hz

theorem Action.alone (h : Action S ls S') (hj : j ≠ S.current) (ht : S.task j = some t) :
    LeftAlone ls S' j t := by
  cases h with
  | console c => exact alone_same ht rfl
  | take b u h => exact alone_same ht rfl
  | forkFailed c n hn => exact alone_same ht rfl
  | receive b =>
    unfold Tasks.receive
    dsimp only
    split_ifs
    · exact alone_wake (S := { S with
        uart := (uartReceive S.uart b).uart
        console := S.console ++ (uartReceive S.uart b).echo }) ht .uartRx
    · exact alone_same ht rfl
  | fork t' ht' i hi =>
    have hji : j ≠ i := by
      rintro rfl
      rw [hi] at ht
      cases ht
    apply alone_same ht
    dsimp only
    rw [Function.update_of_ne hji, Function.update_of_ne hj]
  | reap t' z ht' i hz hs hp =>
    by_cases hji : j = i
    · subst hji
      rw [ht, Option.some_inj] at hz
      subst hz
      exact Or.inr ⟨hs, _, List.mem_singleton_self _⟩
    · exact alone_same ht (Function.update_of_ne hji ..)
  | exit t' ht' =>
    unfold Tasks.exit
    dsimp only
    split
    · have hmod := (Tasks.modify_of_ne (fun t => { t with state := .zombie }) hj).trans ht
      exact alone_wake hmod _
    · exact alone_same ht (Tasks.modify_of_ne _ hj)
  | regs | file | poke | grow | growFailed | exec | sleep | yield =>
    exact alone_same ht (Tasks.modify_of_ne _ hj)

theorem Action.current (h : Action S ls S') : S'.current = S.current := by
  cases h with
  | receive b =>
    unfold Tasks.receive
    dsimp only
    split_ifs <;> rfl
  | exit t ht =>
    unfold Tasks.exit
    dsimp only
    split <;> rfl
  | _ => rfl

theorem actions_current (h : Path Action S ls S') : S'.current = S.current := by
  induction h with
  | refl => rfl
  | tail _ hs ih => exact hs.current.trans ih

theorem actions_alone (h : Path Action S ls S') (hj : j ≠ S.current) (ht : S.task j = some t) :
    LeftAlone ls S' j t := by
  induction h with
  | refl => exact alone_same ht rfl
  | @tail M S' ls ms hpath hs ih =>
    rcases ih with ⟨t', ht', hsame, hzombie⟩ | ⟨hz, p, hp⟩
    · have hcur : j ≠ M.current := by
        rw [actions_current hpath]
        exact hj
      rcases hs.alone hcur ht' with ⟨t'', ht'', hsame', hzombie'⟩ | ⟨hz, p, hp⟩
      · exact Or.inl ⟨t'', ht'', hsame.trans hsame', fun h => hzombie (hzombie' h)⟩
      · obtain ⟨s, c, rfl⟩ := hsame
        exact Or.inr ⟨hzombie hz, p, List.mem_append_right _ hp⟩
    · exact Or.inr ⟨hz, p, List.mem_append_left _ hp⟩

theorem Stint.alone (h : Stint S ls S') (hj : j ≠ S.current) (ht : S.task j = some t) :
    LeftAlone ls S' j t := by
  cases h with
  | stays h => exact actions_alone h hj ht
  | @switches ls M h hs next n hn hr =>
    rcases actions_alone h hj ht with ⟨t', ht', hsame, hzombie⟩ | ⟨hz, p, hp⟩
    · by_cases hjn : j = next
      · subst hjn
        refine Or.inl ⟨{ t' with state := .running }, ?_, ?_, fun hz => by cases hz⟩
        · have hself :
            ({ M with current := j }.modify fun t => { t with state := .running }).task j =
              (M.task j).map fun t => { t with state := .running } := Function.update_self ..
          rw [hself, ht', Option.map_some]
        · obtain ⟨s, c, rfl⟩ := hsame
          exact ⟨_, _, rfl⟩
      · have hother := (Tasks.modify_of_ne (S := { M with current := next })
          (fun t => { t with state := .running }) hjn).trans ht'
        exact Or.inl ⟨t', hother, hsame, hzombie⟩
    · exact Or.inr ⟨hz, p, List.mem_append_left _ hp⟩

end Privacy

end Lazux

import Lazux.UserPointer
import Lazux.Uart

/-! # Process control blocks and the kernel's state (`include/proc.h`, `proc/process.c`)

Pointers into the process table are slots; pointers to whole pages are frame numbers. -/
namespace Lazux

open PagedMemory

abbrev Slot := Fin 64

instance neZero_slots : NeZero (64 : ℕ) := ⟨by decide⟩

inductive ProcState where
  | unused
  | ready
  | running
  | blocked
  | zombie
  deriving DecidableEq

inductive FileType where
  | none
  | console
  | ramdisk
  deriving DecidableEq

structure File where
  type : FileType
  offset : BitVec 32
  size : BitVec 32
  data : Addr
  deriving DecidableEq

structure TrapFrame where
  ra : Word
  sp : Word
  gp : Word
  tp : Word
  t0 : Word
  t1 : Word
  t2 : Word
  s0 : Word
  s1 : Word
  a0 : Word
  a1 : Word
  a2 : Word
  a3 : Word
  a4 : Word
  a5 : Word
  a6 : Word
  a7 : Word
  s2 : Word
  s3 : Word
  s4 : Word
  s5 : Word
  s6 : Word
  s7 : Word
  s8 : Word
  s9 : Word
  s10 : Word
  s11 : Word
  t3 : Word
  t4 : Word
  t5 : Word
  t6 : Word
  sepc : Word
  sstatus : Word
  scause : Word
  stval : Word
  kernelSp : Word
  deriving DecidableEq

/-- The two addresses processes sleep on: a parent's own PCB and the receive ring. -/
inductive Chan where
  | pcb (i : Slot)
  | uartRx
  deriving DecidableEq

structure Process where
  pid : BitVec 32
  state : ProcState
  pageTable : Option ℕ
  kernelStack : Option ℕ
  trapFrame : TrapFrame
  parentPid : BitVec 32
  heapBreak : Addr
  heapMax : Addr
  chan : Option Chan
  openFiles : Fin 16 → File

/-- `nextPid` counts all processes ever created; pids are its low 32 bits. -/
structure KState where
  phys : Phys
  processTable : Slot → Process
  nextPid : ℕ
  currentProc : Slot
  satp : ℕ
  sstatus : Word
  sscratch : Slot
  uart : Uart
  console : List Byte

def File.closed : File := ⟨.none, 0, 0, 0⟩

def TrapFrame.zero : TrapFrame :=
  ⟨0, 0, 0, 0, 0, 0, 0, 0, 0, 0, 0, 0, 0, 0, 0, 0, 0, 0, 0, 0, 0, 0, 0, 0, 0, 0, 0, 0, 0, 0, 0,
    0, 0, 0, 0, 0⟩

def Process.zero : Process :=
  ⟨0, .unused, none, none, TrapFrame.zero, 0, 0, 0, none, fun _ => File.closed⟩

namespace KState

variable (st : KState)

def modifyProc (i : Slot) (f : Process → Process) : KState :=
  { st with processTable := Function.update st.processTable i (f (st.processTable i)) }

def setFrame (i : Slot) (f : TrapFrame → TrapFrame) : KState :=
  st.modifyProc i fun p => { p with trapFrame := f p.trapFrame }

def setA0 (i : Slot) (w : Word) : KState := st.setFrame i fun tf => { tf with a0 := w }

def frameOf (i : Slot) : TrapFrame := (st.processTable i).trapFrame

def current : Process := st.processTable st.currentProc

def sum : Bool := st.sstatus.getLsbD 18

def putchar (b : Byte) : KState := { st with console := st.console ++ [b] }

def puts (s : String) : KState :=
  { st with console := st.console ++ s.toList.map fun c => BitVec.ofNat 8 c.toNat }

def hexDigits : List Char := "0123456789abcdef".toList

def puthex (x : Word) : KState :=
  { st with
    console := st.console ++ (List.range 16).map fun k =>
      BitVec.ofNat 8 (hexDigits.getD ((x.toNat / 16 ^ (15 - k)) % 16) '0').toNat }

def load (va : Addr) : Except Stop Byte := kernelLoad st.phys.mem st.satp st.sum va

def store (va : Addr) (b : Byte) : Except Stop KState := do
  let phys ← kernelStore st.phys st.satp st.sum va b
  pure { st with phys := phys }

end KState

def initProcessFds : Fin 16 → File := fun i =>
  if i.val < 3 then { File.closed with type := .console } else File.closed

/-- Reads `n` bytes, the least significant first. -/
def readLe (bytes : Addr → Except Stop Byte) (a : Addr) : ℕ → Except Stop ℕ
  | 0 => .ok 0
  | n + 1 => do
    let low ← bytes a
    let high ← readLe bytes (a + 1) n
    pure (low.toNat + 256 * high)

def sleepOn (st : KState) (chan : Chan) : KState :=
  st.modifyProc st.currentProc fun p => { p with state := .blocked, chan := some chan }

def wakeup (st : KState) (chan : Chan) : KState :=
  { st with
    processTable := fun i =>
      let p := st.processTable i
      if p.state = .blocked ∧ p.chan = some chan then { p with state := .ready, chan := none }
      else p }

/-- Scans the slots after `start`, `start` itself last. -/
def findReady (st : KState) (start : Slot) : Option Slot :=
  ((List.finRange 64).map fun i => start + 1 + i).find? fun i =>
    (st.processTable i).state = .ready

def anyBlocked (st : KState) : Bool :=
  (List.finRange 64).any fun i => (st.processTable i).state = .blocked

/-- `alloc_proc`: a free slot with a kernel page table and a kernel stack. -/
def allocProc (L : Layout) (st : KState) : Except Stop (Option Slot × KState) :=
  match (List.finRange 64).find? fun i => (st.processTable i).state = .unused with
  | none => .ok (none, st.puts "alloc_proc: Process table is full!\n")
  | some i =>
    let st := { st with nextPid := st.nextPid + 1 }.modifyProc i fun p =>
      { p with pid := BitVec.ofNat 32 st.nextPid, state := .ready, openFiles := initProcessFds }
    match pmmAllocPage st.phys with
    | (none, phys) =>
      .ok (none, { st with phys := phys }.modifyProc i fun p =>
        { p with pageTable := none, state := .unused })
    | (some root, phys) => do
      let phys ← vmmMapKernel L root (phys.zeroPage root)
      let st := { st with phys := phys }.modifyProc i fun p => { p with pageTable := some root }
      match pmmAllocPage phys with
      | (none, phys) =>
        .ok (none, { st with phys := phys }.modifyProc i fun p =>
          { p with kernelStack := none, state := .unused })
      | (some stack, phys) =>
        -- the source ignores whether the stack could be mapped
        let phys := (mapPage (phys.zeroPage stack) root (pageAddr stack) (pageAddr stack)
          (pteR ||| pteW)).2
        .ok (some i, { st with phys := phys }.modifyProc i fun p =>
          { p with
            kernelStack := some stack
            trapFrame := { TrapFrame.zero with kernelSp := pageAddr stack + 4096 } })

/-- `free_proc`: gives back the frames of a slot and scrubs it. -/
def freeProc (st : KState) (i : Slot) : KState :=
  let p := st.processTable i
  if p.state = .unused then st
  else
    let phys := match p.kernelStack with
      | some stack => pmmFreePage st.phys (pageAddr stack)
      | none => st.phys
    let phys := match p.pageTable with
      | some root => vmmFreePt root phys
      | none => phys
    { st with phys := phys }.modifyProc i fun p =>
      { p with
        kernelStack := none, pageTable := none, state := .unused, pid := 0, parentPid := 0
        chan := none, heapBreak := 0, heapMax := 0, openFiles := fun _ => File.closed }

end Lazux

import Lazux.HeapExact
import Lazux.Lib.ByteMemory

/-! # The allocator of the user library

`malloc` keeps its blocks in a list that runs through their headers and asks for memory with
`SYS_SBRK`. A program has the bytes it can read and write, its break, and `global_base`. -/
namespace Lazux

open PagedMemory ByteMemory

/-- Why a call does not come back. -/
inductive Halt where
  | fault (va : Addr)
  | loops
  deriving DecidableEq

structure User where
  mem : Bytes
  heapBreak : Addr
  globalBase : Addr

def User.load (u : User) (va : Addr) (n : ℕ) : Except Halt Word :=
  match ByteMemory.load u.mem va n with
  | some w => .ok (BitVec.ofNat 64 w)
  | none => .error (.fault va)

def User.store (u : User) (va : Addr) (n : ℕ) (w : Word) : Except Halt User :=
  match ByteMemory.store u.mem va n w.toNat with
  | some m => .ok { u with mem := m }
  | none => .error (.fault va)

/-- Where the kernel stops the heap of every process. -/
def heapLimit : Addr := userStackBase - 4096

def User.grow (u : User) (increment : Word) : User :=
  { u with
    mem := fun va =>
      if pageCeil u.heapBreak ≤ va ∧ va < pageCeil (u.heapBreak + increment) then some 0
      else u.mem va
    heapBreak := u.heapBreak + increment }

/-- What `SYS_SBRK` answers and does, where `frames` says if there are frames enough. -/
def User.sysSbrk (u : User) (frames : Bool) (increment : Word) : Word × User :=
  if increment = 0 then (u.heapBreak, u)
  else if increment.msb then (ePerm, u)
  else if u.heapBreak + increment > heapLimit then (eNomem, u)
  else if frames then (u.heapBreak, u.grow increment)
  else (eNomem, u)

/-- The parameter is an `int`. -/
def User.sbrk (u : User) (frames : Bool) (increment : BitVec 32) : Word × User :=
  u.sysSbrk frames (increment.signExtend 64)

/-- The size of `block_meta_t`: `size` at 0, `next` at 8 and the `int` `is_free` at 16. -/
def metaSize : Word := 24

/-- `current->is_free && current->size >= size` -/
def User.fits (u : User) (current : Addr) (size : Word) : Except Halt Bool := do
  let isFree ← u.load (current + 16) 4
  if isFree = 0 then pure false
  else do
    let room ← u.load current 8
    pure (decide (room ≥ size))

/-- The block found, or 0, and what is left in `last`. -/
def findFreeBlock (u : User) (size : Word) : ℕ → Addr → Addr → Except Halt (Addr × Addr)
  | 0, _, _ => .error .loops
  | fuel + 1, current, last =>
    if current = 0 then .ok (0, last)
    else do
      let fits ← u.fits current size
      if fits then pure (current, last)
      else do
        let next ← u.load (current + 8) 8
        findFreeBlock u size fuel next current

/-- Another block at the end of the heap. -/
def newBlock (frames : Bool) (last : Addr) (size : Word) (u : User) : Except Halt (Addr × User) :=
  let (block, u) := u.sbrk frames ((metaSize + size).setWidth 32)
  if block = -1 then .ok (0, u)
  else do
    let u ← u.store block 8 size
    let u ← u.store (block + 16) 4 0
    let u ← u.store (block + 8) 8 0
    let u ← if last = 0 then pure { u with globalBase := block } else u.store (last + 8) 8 block
    pure (block + metaSize, u)

def malloc (frames : Bool) (fuel : ℕ) (size : Word) (u : User) : Except Halt (Addr × User) :=
  if size = 0 then .ok (0, u)
  else do
    let (block, last) ← findFreeBlock u size fuel u.globalBase 0
    if block = 0 then newBlock frames last size u
    else do
      let u ← u.store (block + 16) 4 0
      pure (block + metaSize, u)

def free (ptr : Addr) (u : User) : Except Halt User :=
  if ptr = 0 then .ok u else u.store (ptr - metaSize + 16) 4 1

end Lazux

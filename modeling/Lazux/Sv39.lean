import Lazux.Vmm

/-! # Address translation by the hardware

The three-level walk of the privileged architecture, with superpages. The accessed and
dirty bits are left to the hardware and play no part. -/
namespace Lazux

open PagedMemory

inductive Access where
  | read
  | write
  deriving DecidableEq

/-- Bits 63..39 all equal bit 38. -/
def Canonical (va : Addr) : Prop := (va.setWidth 39).signExtend 64 = va

instance (va : Addr) : Decidable (Canonical va) := inferInstanceAs (Decidable (_ = _))

/-- A leaf entry at `level` together with its level, or a page fault. -/
def walk (m : Memory) : ℕ → ℕ → Addr → Option (Word × ℕ)
  | level, table, va =>
    let pte := (m table).word (vpn va level)
    if !hasFlag pte pteV || (!hasFlag pte pteR && hasFlag pte pteW) then none
    -- bits 63..54 are reserved
    else if pte >>> 54 != 0 then none
    else if hasFlag pte pteR || hasFlag pte pteX then
      -- a superpage must be aligned to its size
      if (pteToPa pte).toNat % 2 ^ (12 + 9 * level) = 0 then some (pte, level) else none
    else match level with
      | 0 => none
      | level + 1 => walk m level (frame (pteToPa pte)) va

def sv39 (m : Memory) (root : ℕ) (va : Addr) : Option (Word × ℕ) :=
  if Canonical va then walk m 2 root va else none

/-- The physical address the entry maps `va` to. -/
def leafPa (pte : Word) (level : ℕ) (va : Addr) : Addr :=
  pteToPa pte + BitVec.ofNat 64 (va.toNat % 2 ^ (12 + 9 * level))

def permits (pte : Word) : Access → Bool
  | .read => hasFlag pte pteR
  | .write => hasFlag pte pteW

def userTranslate (m : Memory) (root : ℕ) (acc : Access) (va : Addr) : Option Addr :=
  (sv39 m root va).bind fun (pte, level) =>
    if hasFlag pte pteU && permits pte acc then some (leafPa pte level va) else none

/-- Translation of an S-mode access; user pages need `sstatus.SUM`. -/
def kernelTranslate (m : Memory) (root : ℕ) (sum : Bool) (acc : Access) (va : Addr) :
    Option Addr :=
  (sv39 m root va).bind fun (pte, level) =>
    if (!hasFlag pte pteU || sum) && permits pte acc then some (leafPa pte level va) else none

/-- A load the kernel makes through a pointer; a page fault in S-mode is fatal. -/
def kernelLoad (m : Memory) (root : ℕ) (sum : Bool) (va : Addr) : Except Stop Byte :=
  match kernelTranslate m root sum .read va with
  | some pa => .ok (m.byte pa)
  | none => .error (.fault va)

def kernelStore (p : Phys) (root : ℕ) (sum : Bool) (va : Addr) (b : Byte) : Except Stop Phys :=
  match kernelTranslate p.mem root sum .write va with
  | some pa => .ok { p with mem := p.mem.setByte pa b }
  | none => .error (.fault va)

end Lazux

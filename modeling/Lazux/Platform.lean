import Lazux.Lib.PagedMemory

/-! # The board, the linker's section symbols and the kernel's constants -/
namespace Lazux

open PagedMemory

def physicalRamStart : ℕ := 0x80000000
def physicalRamSize : ℕ := 128 * 1024 * 1024
def totalPages : ℕ := physicalRamSize / 4096

def uart0Base : ℕ := 0x10000000
def uart0Size : ℕ := 0x100
def uart0Irq : BitVec 32 := 10
def plicBase : ℕ := 0x0C000000
def plicSize : ℕ := 0x202000

/-- First and last frame number plus one of the 128 MB of RAM. -/
def ramFirst : ℕ := 0x80000
def ramLast : ℕ := 0x88000

/-- The frame `__text_start` lies in: the load address the linker script fixes. -/
def textStart : ℕ := 0x80200

/-- The page-aligned section symbols of the linker script, as frame numbers, and the
RAMDISK symbols, which lie in `.rodata`. -/
structure Layout where
  textEnd : ℕ
  rodataEnd : ℕ
  kernelEnd : ℕ
  ramdiskStart : Addr
  text_le : textStart ≤ textEnd
  rodata_le : textEnd ≤ rodataEnd
  data_le : rodataEnd ≤ kernelEnd
  end_lt : kernelEnd < ramLast
  ramdisk_ge : textEnd ≤ frame ramdiskStart
  ramdisk_lt : frame ramdiskStart < rodataEnd

/-- Frames below this one are never handed out: firmware, kernel image and bitmap. -/
def Layout.protectedEnd (L : Layout) : ℕ := L.kernelEnd + 1

def InRam (f : ℕ) : Prop := ramFirst ≤ f ∧ f < ramLast

instance (f : ℕ) : Decidable (InRam f) := inferInstanceAs (Decidable (_ ∧ _))

/-- The address of a frame. -/
def pageAddr (f : ℕ) : Addr := BitVec.ofNat 64 (f * 4096)

theorem pageAddr_toNat {f : ℕ} (h : f < 2 ^ 52) : (pageAddr f).toNat = f * 4096 := by
  simp only [pageAddr, BitVec.toNat_ofNat]
  omega

@[simp] theorem frame_pageAddr {f : ℕ} (h : f < 2 ^ 52) : frame (pageAddr f) = f := by
  rw [frame, pageAddr_toNat h]
  omega

def eNoent : Word := -1
def eBadf : Word := -2
def eFault : Word := -3
def eNomem : Word := -4
def ePerm : Word := -5
def eAgain : Word := -6

def sysPutchar : Word := 1
def sysExit : Word := 2
def sysFork : Word := 3
def sysExec : Word := 4
def sysWait : Word := 5
def sysSbrk : Word := 6
def sysOpen : Word := 7
def sysRead : Word := 8
def sysWrite : Word := 9
def sysClose : Word := 10

/-- Why the kernel stops making progress. -/
inductive Stop where
  | panic (message : String)
  | shutdown
  | spin
  | fault (va : Addr)
  | waiting
  deriving DecidableEq

end Lazux

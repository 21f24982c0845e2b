import Lazux.Lib.PagedMemory

/-! # The UART receive path (`arch/riscv/uart.c`)

The driver alone: its ring, its counters and its escape parser. The device delivers the
bytes, so `uart_intr` is given the bytes it finds waiting. -/
namespace Lazux

open PagedMemory

inductive EscState where
  | normal
  | gotEsc
  | inSeq
  deriving DecidableEq

structure Uart where
  rxBuf : Fin 128 → Byte
  rxHead : BitVec 32
  rxTail : BitVec 32
  rxCommit : BitVec 32
  escState : EscState

def uartRxSize : BitVec 32 := 128

def keyEsc : Byte := 0x1b
def keyDel : Byte := 0x7f
def newline : Byte := 0x0a
def carriageReturn : Byte := 0x0d
def backspace : Byte := 0x08

def Uart.init : Uart := ⟨fun _ => 0, 0, 0, 0, .normal⟩

def ringSlot (counter : BitVec 32) : Fin 128 := ⟨counter.toNat % 128, Nat.mod_lt _ (by decide)⟩

/-- What one byte makes the driver do: the new state, the bytes echoed and whether the
readers are woken. -/
structure Received where
  uart : Uart
  echo : List Byte
  wake : Bool

/-- One turn of the loop of `uart_intr`. -/
def uartReceive (u : Uart) (b : Byte) : Received :=
  let c := if b = carriageReturn then newline else b
  match u.escState with
  | .gotEsc => ⟨{ u with escState := if c = 0x5b then .inSeq else .normal }, [], false⟩
  | .inSeq => ⟨if 0x40 ≤ c ∧ c ≤ 0x7e then { u with escState := .normal } else u, [], false⟩
  | .normal =>
    if c = keyEsc then ⟨{ u with escState := .gotEsc }, [], false⟩
    else if c = newline then
      if u.rxHead - u.rxTail < uartRxSize then
        ⟨{ u with
            rxBuf := Function.update u.rxBuf (ringSlot u.rxHead) c
            rxHead := u.rxHead + 1
            rxCommit := u.rxHead + 1 }, [c], true⟩
      else ⟨u, [], false⟩
    else if c = backspace ∨ c = keyDel then
      if u.rxHead ≠ u.rxCommit then
        ⟨{ u with rxHead := u.rxHead - 1 }, [backspace, 0x20, backspace], false⟩
      else ⟨u, [], false⟩
    else if c < 0x20 then ⟨u, [], false⟩
    else if u.rxHead - u.rxTail < uartRxSize - 1 then
      ⟨{ u with
          rxBuf := Function.update u.rxBuf (ringSlot u.rxHead) c
          rxHead := u.rxHead + 1 }, [c], false⟩
    else ⟨u, [], false⟩

def uartIntr (u : Uart) (bytes : List Byte) : Uart :=
  bytes.foldl (fun u b => (uartReceive u b).uart) u

/-- The oldest committed byte, if there is one; the source's `-1` is `none`. -/
def uartGetc (u : Uart) : Option Byte × Uart :=
  if u.rxCommit = u.rxTail then (none, u)
  else (some (u.rxBuf (ringSlot u.rxTail)), { u with rxTail := u.rxTail + 1 })

end Lazux

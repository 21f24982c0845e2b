import Mathlib.Tactic.FinCases
import Lazux.Process

/-! # Saving and restoring a program (`arch/riscv/trap.S`, `include/trap_header.h`)

The instructions of `trap_entry` before and after the call of `trap_handler`. Trap frames
are named by their address; a frame is a table of doublewords by byte offset. -/
namespace Lazux

open PagedMemory

/-- `x0` to `x31`. -/
abbrev Reg := Fin 32

namespace Reg

def ra : Reg := 1
def sp : Reg := 2
def gp : Reg := 3
def tp : Reg := 4
def t0 : Reg := 5
def t1 : Reg := 6
def t2 : Reg := 7
def s0 : Reg := 8
def s1 : Reg := 9
def a0 : Reg := 10
def a1 : Reg := 11
def a2 : Reg := 12
def a3 : Reg := 13
def a4 : Reg := 14
def a5 : Reg := 15
def a6 : Reg := 16
def a7 : Reg := 17
def s2 : Reg := 18
def s3 : Reg := 19
def s4 : Reg := 20
def s5 : Reg := 21
def s6 : Reg := 22
def s7 : Reg := 23
def s8 : Reg := 24
def s9 : Reg := 25
def s10 : Reg := 26
def s11 : Reg := 27
def t3 : Reg := 28
def t4 : Reg := 29
def t5 : Reg := 30
def t6 : Reg := 31

end Reg

inductive Csr where
  | sscratch
  | sepc
  | sstatus
  | scause
  | stval
  deriving DecidableEq

structure Hart where
  x : Reg → Word
  csr : Csr → Word
  mem : Word → ℕ → Word

/-- Loads and stores are relative to `t0`. -/
inductive Instr where
  | sd (r : Reg) (offset : ℕ)
  | ld (r : Reg) (offset : ℕ)
  | csrr (r : Reg) (c : Csr)
  | csrw (c : Csr) (r : Reg)
  | csrrw (d : Reg) (c : Csr) (s : Reg)
  | mv (d s : Reg)

open Instr Reg Csr

/-- One instruction on registers, control registers and the frame `t0` points to. -/
def Instr.exec (m : Hart) : Instr → Hart
  | .sd r offset => { m with
      mem := Function.update m.mem (m.x t0) (Function.update (m.mem (m.x t0)) offset (m.x r)) }
  | .ld r offset => { m with x := Function.update m.x r (m.mem (m.x t0) offset) }
  | .csrr r c => { m with x := Function.update m.x r (m.csr c) }
  | .csrw c r => { m with csr := Function.update m.csr c (m.x r) }
  | .csrrw d c s => { m with
      x := Function.update m.x d (m.csr c)
      csr := Function.update m.csr c (m.x s) }
  | .mv d s => { m with x := Function.update m.x d (m.x s) }

def exec (l : List Instr) (m : Hart) : Hart := l.foldl Instr.exec m

/-- `trap_entry` up to the call of `trap_handler`. -/
def trapEntry : List Instr :=
  [csrrw t0 sscratch t0,
    sd ra 0, sd sp 8, sd gp 16, sd tp 24,
    sd t1 40, sd t2 48,
    csrr t1 sscratch, sd t1 32,
    sd s0 56, sd s1 64,
    sd a0 72, sd a1 80, sd a2 88, sd a3 96, sd a4 104, sd a5 112, sd a6 120, sd a7 128,
    sd s2 136, sd s3 144, sd s4 152, sd s5 160, sd s6 168, sd s7 176, sd s8 184, sd s9 192,
    sd s10 200, sd s11 208,
    sd t3 216, sd t4 224, sd t5 232, sd t6 240,
    csrr t1 sepc, sd t1 248,
    csrr t1 sstatus, sd t1 256,
    csrr t1 scause, sd t1 264,
    csrr t1 stval, sd t1 272,
    mv a0 t0,
    ld sp 280]

/-- `trap_entry` from the return of `trap_handler` to `sret`. -/
def trapReturn : List Instr :=
  [mv t0 a0,
    ld t1 248, csrw sepc t1,
    ld t1 256, csrw sstatus t1,
    ld ra 0, ld gp 16, ld tp 24,
    ld t1 40, ld t2 48,
    ld s0 56, ld s1 64,
    ld a0 72, ld a1 80, ld a2 88, ld a3 96, ld a4 104, ld a5 112, ld a6 120, ld a7 128,
    ld s2 136, ld s3 144, ld s4 152, ld s5 160, ld s6 168, ld s7 176, ld s8 184, ld s9 192,
    ld s10 200, ld s11 208,
    ld t3 216, ld t4 224, ld t5 232, ld t6 240,
    ld sp 8,
    csrw sscratch t0,
    ld t0 32]

def TrapFrame.words (tf : TrapFrame) : List Word :=
  [tf.ra, tf.sp, tf.gp, tf.tp, tf.t0, tf.t1, tf.t2, tf.s0, tf.s1, tf.a0, tf.a1, tf.a2, tf.a3,
    tf.a4, tf.a5, tf.a6, tf.a7, tf.s2, tf.s3, tf.s4, tf.s5, tf.s6, tf.s7, tf.s8, tf.s9, tf.s10,
    tf.s11, tf.t3, tf.t4, tf.t5, tf.t6, tf.sepc, tf.sstatus, tf.scause, tf.stval, tf.kernelSp]

def Holds (frame : ℕ → Word) (tf : TrapFrame) : Prop :=
  ∀ k : Fin 36, frame (8 * k) = tf.words.getD k 0

/-- The registers a trap finds, as far as a trap frame has fields for them. -/
def Hart.context (m : Hart) : TrapFrame where
  ra := m.x ra
  sp := m.x sp
  gp := m.x gp
  tp := m.x tp
  t0 := m.x t0
  t1 := m.x t1
  t2 := m.x t2
  s0 := m.x s0
  s1 := m.x s1
  a0 := m.x a0
  a1 := m.x a1
  a2 := m.x a2
  a3 := m.x a3
  a4 := m.x a4
  a5 := m.x a5
  a6 := m.x a6
  a7 := m.x a7
  s2 := m.x s2
  s3 := m.x s3
  s4 := m.x s4
  s5 := m.x s5
  s6 := m.x s6
  s7 := m.x s7
  s8 := m.x s8
  s9 := m.x s9
  s10 := m.x s10
  s11 := m.x s11
  t3 := m.x t3
  t4 := m.x t4
  t5 := m.x t5
  t6 := m.x t6
  sepc := m.csr sepc
  sstatus := m.csr sstatus
  scause := m.csr scause
  stval := m.csr stval
  kernelSp := 0

section Local

/-- What an instruction sees as long as `t0` stays, over any type of values. -/
structure View (α : Type*) where
  x : Reg → α
  csr : Csr → α
  frame : ℕ → α

inductive Source where
  | x (r : Reg)
  | csr (c : Csr)
  | frame (offset : ℕ)
  deriving DecidableEq

variable {α β : Type*}

def Hart.view (m : Hart) : View Word := ⟨m.x, m.csr, m.mem (m.x t0)⟩

def View.map (f : α → β) (v : View α) : View β := ⟨f ∘ v.x, f ∘ v.csr, f ∘ v.frame⟩

def sources : View Source := ⟨.x, .csr, .frame⟩

def View.value (v : View α) : Source → α
  | .x r => v.x r
  | .csr c => v.csr c
  | .frame offset => v.frame offset

theorem map_value (v : View α) : sources.map v.value = v := rfl

def Instr.step (v : View α) : Instr → View α
  | .sd r offset => { v with frame := Function.update v.frame offset (v.x r) }
  | .ld r offset => { v with x := Function.update v.x r (v.frame offset) }
  | .csrr r c => { v with x := Function.update v.x r (v.csr c) }
  | .csrw c r => { v with csr := Function.update v.csr c (v.x r) }
  | .csrrw d c s => { v with
      x := Function.update v.x d (v.csr c)
      csr := Function.update v.csr c (v.x s) }
  | .mv d s => { v with x := Function.update v.x d (v.x s) }

def View.run (v : View α) (l : List Instr) : View α := l.foldl Instr.step v

theorem step_map (f : α → β) (v : View α) (i : Instr) : i.step (v.map f) = (i.step v).map f := by
  cases i <;> simp [Instr.step, View.map, Function.comp_update]

theorem run_map (f : α → β) (v : View α) (l : List Instr) : (v.map f).run l = (v.run l).map f := by
  induction l generalizing v with
  | nil => rfl
  | cons i l ih =>
    have hstep := ih (i.step v)
    rw [← step_map] at hstep
    exact hstep

/-- Straight-line code is known once it is known where its values come from. -/
theorem run_sources (v : View α) (l : List Instr) : v.run l = (sources.run l).map v.value := by
  have h := run_map v.value sources l
  rw [map_value] at h
  exact h

def Instr.target : Instr → Option Reg
  | .sd _ _ => none
  | .ld r _ => some r
  | .csrr r _ => some r
  | .csrw _ _ => none
  | .csrrw d _ _ => some d
  | .mv d _ => some d

def Instr.stores : Instr → Bool
  | .sd _ _ => true
  | _ => false

variable {m : Hart} {l : List Instr}

theorem exec_step (i : Instr) (h : i.target ≠ some t0) : (i.exec m).view = i.step m.view ∧
    (i.exec m).x t0 = m.x t0 ∧ ∀ a, a ≠ m.x t0 → (i.exec m).mem a = m.mem a := by
  have keep : ∀ (r : Reg) (w : Word), some r ≠ some t0 → Function.update m.x r w t0 = m.x t0 := by
    intro r w hr
    apply Function.update_of_ne
    rintro rfl
    exact hr rfl
  cases i with
  | sd r offset =>
    refine ⟨?_, rfl, fun a ha => Function.update_of_ne ha _ _⟩
    simp [Instr.exec, Instr.step, Hart.view]
  | ld r offset =>
    refine ⟨?_, keep r _ h, fun a ha => rfl⟩
    simp [Instr.exec, Instr.step, Hart.view, keep r _ h]
  | csrr r c =>
    refine ⟨?_, keep r _ h, fun a ha => rfl⟩
    simp [Instr.exec, Instr.step, Hart.view, keep r _ h]
  | csrw c r => exact ⟨rfl, rfl, fun a ha => rfl⟩
  | csrrw d c s =>
    refine ⟨?_, keep d _ h, fun a ha => rfl⟩
    simp [Instr.exec, Instr.step, Hart.view, keep d _ h]
  | mv d s =>
    refine ⟨?_, keep d _ h, fun a ha => rfl⟩
    simp [Instr.exec, Instr.step, Hart.view, keep d _ h]

/-- Code that leaves `t0` alone works on one frame. -/
theorem exec_view (h : ∀ i ∈ l, i.target ≠ some t0) : (exec l m).view = m.view.run l ∧
    (exec l m).x t0 = m.x t0 ∧ ∀ a, a ≠ m.x t0 → (exec l m).mem a = m.mem a := by
  induction l generalizing m with
  | nil => exact ⟨rfl, rfl, fun _ _ => rfl⟩
  | cons i l ih =>
    obtain ⟨h1, h2, h3⟩ := exec_step (m := m) i (h i List.mem_cons_self)
    obtain ⟨k1, k2, k3⟩ := ih (m := i.exec m) fun j hj => h j (List.mem_cons_of_mem _ hj)
    rw [h1] at k1
    rw [h2] at k2 k3
    refine ⟨k1, k2, fun a ha => ?_⟩
    exact (k3 a ha).trans (h3 a ha)

theorem exec_sources (h : ∀ i ∈ l, i.target ≠ some t0) :
    (∀ r, (exec l m).x r = m.view.value ((sources.run l).x r)) ∧
      (∀ c, (exec l m).csr c = m.view.value ((sources.run l).csr c)) ∧
      (∀ n, (exec l m).mem (m.x t0) n = m.view.value ((sources.run l).frame n)) ∧
      ∀ a, a ≠ m.x t0 → (exec l m).mem a = m.mem a := by
  obtain ⟨hview, ht0, hmem⟩ := exec_view (m := m) h
  rw [run_sources] at hview
  have hframe := congrArg View.frame hview
  rw [Hart.view, ht0] at hframe
  refine ⟨?_, ?_, ?_, hmem⟩
  · exact fun r => congrFun (congrArg View.x hview) r
  · exact fun c => congrFun (congrArg View.csr hview) c
  · exact fun n => congrFun hframe n

theorem exec_cons (i : Instr) : exec (i :: l) m = exec l (i.exec m) := rfl

theorem exec_append (k : List Instr) : exec (l ++ k) m = exec k (exec l m) :=
  List.foldl_append

theorem exec_mem (h : ∀ i ∈ l, i.stores = false) : (exec l m).mem = m.mem := by
  induction l generalizing m with
  | nil => rfl
  | cons i l ih =>
    have hi : (i.exec m).mem = m.mem := by
      have hstores := h i List.mem_cons_self
      cases i with
      | sd r offset => cases hstores
      | _ => rfl
    have hl := ih (m := i.exec m) fun j hj => h j (List.mem_cons_of_mem _ hj)
    exact hl.trans hi

end Local

section Traps

variable {m : Hart} {tf : TrapFrame} {p : Word}

/-- Where the doublewords of the frame come from when `trap_handler` is called. -/
def savedSources : List Source :=
  [.x ra, .x sp, .x gp, .x tp, .csr sscratch, .x t1, .x t2, .x s0, .x s1, .x a0, .x a1, .x a2,
    .x a3, .x a4, .x a5, .x a6, .x a7, .x s2, .x s3, .x s4, .x s5, .x s6, .x s7, .x s8, .x s9,
    .x s10, .x s11, .x t3, .x t4, .x t5, .x t6, .csr sepc, .csr sstatus, .csr scause, .csr stval,
    .frame 280]

theorem entry_sources : (∀ k : Fin 36, (sources.run trapEntry.tail).frame (8 * k) =
      savedSources.getD k (.frame 280)) ∧
    (sources.run trapEntry.tail).x a0 = .x t0 ∧
    (sources.run trapEntry.tail).x sp = .frame 280 := by
  decide +kernel

theorem entry_leaves_t0 : ∀ i ∈ trapEntry.tail, i.target ≠ some t0 := by
  decide

theorem trapEntry_cons : trapEntry = csrrw t0 sscratch t0 :: trapEntry.tail := rfl

/-- The words of a saved frame, in the terms of the hart right after the swap with `sscratch`. -/
theorem context_words (w : Word) (hw : m.mem (m.csr sscratch) 280 = w) :
    { m.context with kernelSp := w }.words =
      savedSources.map ((csrrw t0 sscratch t0).exec m).view.value := by
  subst hw
  rfl

/-- The entry code stores every register of the interrupted program and the cause of the
trap into the frame `sscratch` points to, and hands that frame over on the kernel stack. -/
theorem trapEntry_saves (h : Holds (m.mem (m.csr sscratch)) tf) :
    Holds ((exec trapEntry m).mem (m.csr sscratch)) { m.context with kernelSp := tf.kernelSp } ∧
      (exec trapEntry m).x a0 = m.csr sscratch ∧ (exec trapEntry m).x sp = tf.kernelSp ∧
      ∀ a, a ≠ m.csr sscratch → (exec trapEntry m).mem a = m.mem a := by
  have hsp : m.mem (m.csr sscratch) 280 = tf.kernelSp := h 35
  obtain ⟨hx, -, hframe, hmem⟩ := exec_sources (m := (csrrw t0 sscratch t0).exec m) entry_leaves_t0
  obtain ⟨kframe, ka0, ksp⟩ := entry_sources
  rw [← exec_cons, ← trapEntry_cons] at hx hframe hmem
  refine ⟨fun k => ?_, ?_, ?_, hmem⟩
  · rw [context_words _ hsp]
    refine (hframe _).trans ?_
    rw [kframe, List.getD_eq_getElem?_getD, List.getD_eq_getElem?_getD, List.getElem?_map,
      List.getElem?_eq_getElem (l := savedSources) k.isLt]
    rfl
  · rw [hx, ka0]
    rfl
  · rw [hx, ksp]
    exact hsp

/-- What `trap_entry` loads between the move of the frame's address to `t0` and the load of
`t0` itself. -/
def trapReload : List Instr := trapReturn.tail.dropLast

theorem trapReturn_split : trapReturn = mv t0 a0 :: (trapReload ++ [ld t0 32]) := rfl

theorem reload_sources : (∀ r : Reg, r ≠ 0 → r ≠ t0 →
      (sources.run trapReload).x r = .frame (8 * (r - 1))) ∧
    (sources.run trapReload).csr sepc = .frame 248 ∧
    (sources.run trapReload).csr sstatus = .frame 256 ∧
    (sources.run trapReload).csr sscratch = .x t0 := by
  decide +kernel

theorem reload_leaves_t0 : ∀ i ∈ trapReload, i.target ≠ some t0 := by
  decide

theorem return_stores : ∀ i ∈ trapReturn, i.stores = false := by
  decide

/-- The return code loads every register, the program counter and the status from the frame
in `a0`, and points `sscratch` at this frame. -/
theorem trapReturn_restores (h : Holds (m.mem (m.x a0)) tf) :
    (∀ r : Reg, r ≠ 0 → (exec trapReturn m).x r = tf.words.getD (r - 1) 0) ∧
      (exec trapReturn m).csr sepc = tf.sepc ∧ (exec trapReturn m).csr sstatus = tf.sstatus ∧
      (exec trapReturn m).csr sscratch = m.x a0 ∧ (exec trapReturn m).mem = m.mem := by
  obtain ⟨hx, hcsr, -, -⟩ := exec_sources (m := (mv t0 a0).exec m) reload_leaves_t0
  obtain ⟨kx, kpc, kstatus, kscratch⟩ := reload_sources
  have hsplit : exec trapReturn m = (ld t0 32).exec (exec trapReload ((mv t0 a0).exec m)) := by
    rw [trapReturn_split, exec_cons, exec_append]
    rfl
  have hptr : (exec trapReload ((mv t0 a0).exec m)).x t0 = m.x a0 :=
    (exec_view (m := (mv t0 a0).exec m) reload_leaves_t0).2.1
  have hmem : (exec trapReload ((mv t0 a0).exec m)).mem = m.mem :=
    exec_mem (m := (mv t0 a0).exec m) (by decide)
  have hc : (exec trapReturn m).csr = (exec trapReload ((mv t0 a0).exec m)).csr := by
    rw [hsplit]
    rfl
  have hreg : (exec trapReturn m).x =
      Function.update (exec trapReload ((mv t0 a0).exec m)).x t0 (m.mem (m.x a0) 32) := by
    rw [hsplit, ← hmem, ← hptr]
    rfl
  refine ⟨fun r hr => ?_, ?_, ?_, ?_, exec_mem return_stores⟩
  · rw [hreg]
    by_cases ht : r = t0
    · subst ht
      rw [Function.update_self]
      exact h 4
    · rw [Function.update_of_ne ht, hx, kx r hr ht]
      have hslot : (r : ℕ) - 1 < 36 := by omega
      exact h ⟨r - 1, hslot⟩
  · rw [hc, hcsr, kpc]
    exact h 31
  · rw [hc, hcsr, kstatus]
    exact h 32
  · rw [hc, hcsr, kscratch]
    rfl

theorem context_restored {m' : Hart} {w s : Word}
    (h : Holds (m'.mem (m'.x a0)) { m.context with kernelSp := w, sstatus := s }) :
    (∀ r : Reg, r ≠ 0 → (exec trapReturn m').x r = m.x r) ∧
      (exec trapReturn m').csr sepc = m.csr sepc := by
  obtain ⟨hx, hpc, -⟩ := trapReturn_restores h
  refine ⟨fun r hr => (hx r hr).trans ?_, hpc⟩
  fin_cases r
  · exact absurd rfl hr
  all_goals rfl

end Traps

end Lazux

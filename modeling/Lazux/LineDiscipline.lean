import Lazux.Uart
import Lazux.Lib.Ring

/-! # The receive path is a line editor in front of a queue

A reference editor works on whole lines and knows neither ring nor counters. The driver
simulates it under every interleaving of deliveries and reads. -/
namespace Lazux

open PagedMemory

/-- `ESC c`, or `ESC [` up to and including the first byte in `@`..`~`. -/
def escapeComplete : List Byte → Bool
  | [_, c] => c ≠ 0x5b
  | _ :: _ :: rest => match rest.getLast? with
    | some c => 0x40 ≤ c ∧ c ≤ 0x7e
    | none => false
  | _ => false

/-- Behind two bytes a sequence ends with its first final byte. -/
theorem escapeComplete_concat (a b : Byte) (rest : List Byte) (c : Byte) :
    escapeComplete (a :: b :: rest ++ [c]) = decide (0x40 ≤ c ∧ c ≤ 0x7e) := by
  cases rest with
  | nil => simp [escapeComplete]
  | cons x xs =>
    show (match (x :: xs ++ [c]).getLast? with
      | some c => decide (0x40 ≤ c ∧ c ≤ 0x7e)
      | none => false) = _
    rw [List.getLast?_concat]

/-- `pending` holds an unfinished escape sequence, `line` what is being typed, `lines`
the committed lines; `taken` counts the bytes readers have received. -/
structure Editor where
  pending : List Byte
  line : List Byte
  lines : List (List Byte)
  taken : ℕ
  deriving DecidableEq

namespace Editor

def init : Editor := ⟨[], [], [], 0⟩

def committed (e : Editor) : List Byte := e.lines.flatten

def unread (e : Editor) : List Byte := e.committed.drop e.taken

/-- How many bytes wait for a reader or for Enter. -/
def held (e : Editor) : ℕ := e.unread.length + e.line.length

def key (e : Editor) (c : Byte) : Editor :=
  if c = keyEsc then { e with pending := [c] }
  else if c = newline then
    if e.held < 128 then { e with line := [], lines := e.lines ++ [e.line ++ [newline]] } else e
  else if c = backspace ∨ c = keyDel then { e with line := e.line.dropLast }
  else if c < 0x20 then e
  else if e.held < 127 then { e with line := e.line ++ [c] }
  else e

def receive (e : Editor) (b : Byte) : Editor :=
  let c := if b = carriageReturn then newline else b
  match e.pending with
  | [] => e.key c
  | p => { e with pending := if escapeComplete (p ++ [c]) then [] else p ++ [c] }

def getc (e : Editor) : Option Byte × Editor :=
  match e.unread with
  | [] => (none, e)
  | c :: _ => (some c, { e with taken := e.taken + 1 })

end Editor

inductive UartEvent where
  | intr (bytes : List Byte)
  | getc
  deriving DecidableEq

/-- The driver after an event, with the bytes `uart_getc` has returned so far. -/
def driverStep (s : Uart × List Byte) : UartEvent → Uart × List Byte
  | .intr bytes => (uartIntr s.1 bytes, s.2)
  | .getc => ((uartGetc s.1).2, s.2 ++ (uartGetc s.1).1.toList)

def editorStep (e : Editor) : UartEvent → Editor
  | .intr bytes => bytes.foldl Editor.receive e
  | .getc => e.getc.2

def driverRun (es : List UartEvent) : Uart × List Byte := es.foldl driverStep (Uart.init, [])

def editorRun (es : List UartEvent) : Editor := es.foldl editorStep Editor.init

def drain : ℕ → Uart → List Byte
  | 0, _ => []
  | n + 1, u => match uartGetc u with
    | (some c, u) => c :: drain n u
    | (none, _) => []

/-- The escape parser's state for an unfinished sequence. -/
inductive EscMatches : EscState → List Byte → Prop where
  | normal : EscMatches .normal []
  | gotEsc (a) : EscMatches .gotEsc [a]
  | inSeq (a b) (rest) : EscMatches .inSeq (a :: b :: rest)

/-- The driver `u` stands for the editor `e`. -/
structure Simulates (u : Uart) (e : Editor) : Prop where
  esc : EscMatches u.escState e.pending
  window : Ring.Window ringSlot u.rxBuf u.rxTail (e.unread ++ e.line)
  commit : u.rxCommit = u.rxTail + BitVec.ofNat 32 e.unread.length
  head : u.rxHead = u.rxTail + BitVec.ofNat 32 e.held
  held_le : e.held ≤ 128
  taken_le : e.taken ≤ e.committed.length

theorem slots_ringSlot : Ring.Slots ringSlot := ⟨⟨2 ^ 25, by norm_num⟩, fun _ => rfl⟩

section Counters

variable {t : BitVec 32} {a b : ℕ}

private theorem ringDistance (t : BitVec 32) (a : ℕ) :
    t + BitVec.ofNat 32 a - t = BitVec.ofNat 32 a := by
  rw [BitVec.add_comm, BitVec.add_sub_cancel]

private theorem ringDistance_lt (ha : a ≤ 128) (hb : b ≤ 128) :
    (t + BitVec.ofNat 32 a - t < BitVec.ofNat 32 b) ↔ a < b := by
  rw [ringDistance, BitVec.lt_def, BitVec.toNat_ofNat, BitVec.toNat_ofNat]
  omega

private theorem counter_eq (ha : a ≤ 128) (hb : b ≤ 128) :
    t + BitVec.ofNat 32 a = t + BitVec.ofNat 32 b ↔ a = b := by
  constructor
  · intro h
    have hd : t + BitVec.ofNat 32 a - t = t + BitVec.ofNat 32 b - t := by rw [h]
    rw [ringDistance, ringDistance] at hd
    have hv := congrArg BitVec.toNat hd
    simp only [BitVec.toNat_ofNat] at hv
    omega
  · rintro rfl
    rfl

end Counters

namespace Editor

variable (e : Editor)

theorem held_eq : e.held = (e.unread ++ e.line).length := by rw [held, List.length_append]

/-- Enter turns the line into unread bytes; the bytes in the ring only gain a newline. -/
theorem unread_commit (h : e.taken ≤ e.committed.length) :
    unread { e with line := [], lines := e.lines ++ [e.line ++ [newline]] } =
      e.unread ++ e.line ++ [newline] := by
  unfold unread committed at *
  simp only [List.flatten_append, List.flatten_cons, List.flatten_nil, List.append_nil]
  rw [List.drop_append_of_le_length h, List.append_assoc]

theorem take_unread : e.committed.take e.taken ++ e.unread = e.committed :=
  List.take_append_drop ..

theorem receive_committed (b : Byte) :
    (e.receive b).taken = e.taken ∧ ∃ l, (e.receive b).committed = e.committed ++ l := by
  have hkey : ∀ c, (e.key c).taken = e.taken ∧ ∃ l, (e.key c).committed = e.committed ++ l := by
    intro c
    unfold key
    split_ifs
    all_goals first
      | exact ⟨rfl, [], (List.append_nil _).symm⟩
      | exact ⟨rfl, _, List.flatten_append ..⟩
  unfold receive
  generalize (if b = carriageReturn then newline else b) = c
  dsimp only
  split
  · exact hkey c
  · exact ⟨rfl, [], (List.append_nil _).symm⟩

/-- Every committed line ends in its only newline, and none is being typed. -/
def WellFormed (e : Editor) : Prop :=
  (∀ l ∈ e.lines, ∃ typed, l = typed ++ [newline] ∧ newline ∉ typed) ∧ newline ∉ e.line

variable {e}

theorem WellFormed.key (h : e.WellFormed) (c : Byte) : (e.key c).WellFormed := by
  obtain ⟨hl, hline⟩ := h
  unfold Editor.key
  split_ifs with h1 h2 h3 h4 h5 h6
  · exact ⟨hl, hline⟩
  · refine ⟨fun l hm => ?_, List.not_mem_nil⟩
    rcases List.mem_append.mp hm with hm | hm
    · exact hl l hm
    · exact ⟨e.line, List.mem_singleton.mp hm, hline⟩
  · exact ⟨hl, hline⟩
  · exact ⟨hl, fun hm => hline (List.mem_of_mem_dropLast hm)⟩
  · exact ⟨hl, hline⟩
  · refine ⟨hl, fun hm => ?_⟩
    rcases List.mem_append.mp hm with hm | hm
    · exact hline hm
    · exact h2 (List.mem_singleton.mp hm).symm
  · exact ⟨hl, hline⟩

theorem WellFormed.receive (h : e.WellFormed) (b : Byte) : (e.receive b).WellFormed := by
  unfold Editor.receive
  generalize (if b = carriageReturn then newline else b) = c
  dsimp only
  split
  · exact h.key c
  · exact h

theorem receive_escape (hp : e.pending = []) :
    e.receive keyEsc = { e with pending := [keyEsc] } := by
  unfold Editor.receive
  rw [hp]
  rfl

theorem receive_pending (hp : e.pending ≠ []) {c : Byte} (hc : c ≠ carriageReturn) :
    e.receive c = { e with
      pending := if escapeComplete (e.pending ++ [c]) then [] else e.pending ++ [c] } := by
  unfold Editor.receive
  rw [if_neg hc]
  cases h : e.pending with
  | nil => exact absurd h hp
  | cons a p => rfl

/-- `ESC c` leaves no trace. -/
theorem two_byte_sequence_dropped (hp : e.pending = []) {c : Byte} (hc : c ≠ 0x5b)
    (hcr : c ≠ carriageReturn) : [keyEsc, c].foldl receive e = e := by
  have hd : escapeComplete ([keyEsc] ++ [c]) = true := by simpa [escapeComplete] using hc
  rw [List.foldl_cons, receive_escape hp, List.foldl_cons, List.foldl_nil,
    receive_pending (by simp) hcr]
  simp only [hd, if_true]
  rw [← hp]

/-- `ESC [ parameters final` leaves no trace. -/
theorem control_sequence_dropped (hp : e.pending = []) {params : List Byte} {final : Byte}
    (hparams : ∀ c ∈ params, ¬ (0x40 ≤ c ∧ c ≤ 0x7e) ∧ c ≠ carriageReturn)
    (hfinal : 0x40 ≤ final ∧ final ≤ 0x7e) :
    (keyEsc :: 0x5b :: params ++ [final]).foldl receive e = e := by
  have hend : ∀ (rest : List Byte) (c : Byte),
      escapeComplete (keyEsc :: 0x5b :: rest ++ [c]) = decide (0x40 ≤ c ∧ c ≤ 0x7e) :=
    fun rest c => escapeComplete_concat _ _ rest c
  have hbody : ∀ (ps rest : List Byte), (∀ c ∈ ps, ¬ (0x40 ≤ c ∧ c ≤ 0x7e) ∧ c ≠ carriageReturn) →
      ps.foldl receive { e with pending := keyEsc :: 0x5b :: rest } =
        { e with pending := keyEsc :: 0x5b :: rest ++ ps } := by
    intro ps
    induction ps with
    | nil => intro rest _; rw [List.append_nil]; rfl
    | cons c ps ih =>
      intro rest hc
      obtain ⟨hc, hps⟩ := List.forall_mem_cons.mp hc
      rw [List.foldl_cons, receive_pending (by simp) hc.2]
      simp only [hend, hc.1, decide_false, Bool.false_eq_true, if_false]
      have := ih (rest ++ [c]) hps
      simpa using this
  have hcr : final ≠ carriageReturn := by
    rintro rfl
    exact absurd hfinal.1 (by decide)
  have hopen : escapeComplete [keyEsc, 0x5b] = false := rfl
  rw [List.cons_append, List.cons_append, List.foldl_cons, receive_escape hp, List.foldl_cons,
    receive_pending (by simp) (by decide), List.foldl_append]
  simp only [List.cons_append, List.nil_append, hopen, Bool.false_eq_true, if_false]
  rw [hbody params [] hparams, List.foldl_cons, List.foldl_nil, receive_pending (by simp) hcr]
  have hd : escapeComplete (keyEsc :: 0x5b :: [] ++ params ++ [final]) = true :=
    (hend params final).trans (decide_eq_true hfinal)
  simp only [hd, if_true]
  rw [← hp]

end Editor

theorem simulates_init : Simulates Uart.init Editor.init :=
  ⟨.normal, Ring.Window.nil, by decide, by decide, by decide, by decide⟩

namespace Simulates

variable {u : Uart} {e : Editor}

theorem room (h : Simulates u e) {k : ℕ} (hk : k ≤ 128) :
    u.rxHead - u.rxTail < BitVec.ofNat 32 k ↔ e.held < k := by
  rw [h.head]
  exact ringDistance_lt h.held_le hk

theorem head_ne_commit (h : Simulates u e) : u.rxHead ≠ u.rxCommit ↔ e.line ≠ [] := by
  have hle := h.held_le
  have hu : e.unread.length ≤ 128 := by
    rw [Editor.held] at hle
    omega
  rw [h.head, h.commit, ne_eq, counter_eq hle hu, Editor.held, ne_eq, ← List.length_eq_zero_iff]
  omega

theorem store (h : Simulates u e) (hroom : e.held < 128) (c : Byte) :
    Ring.Window ringSlot (Function.update u.rxBuf (ringSlot u.rxHead) c) u.rxTail
      (e.unread ++ e.line ++ [c]) := by
  rw [h.head, e.held_eq]
  exact h.window.push slots_ringSlot (by rw [← e.held_eq]; exact hroom) c

theorem enter (h : Simulates u e) (hroom : e.held < 128) :
    Simulates
      { u with
        rxBuf := Function.update u.rxBuf (ringSlot u.rxHead) newline
        rxHead := u.rxHead + 1
        rxCommit := u.rxHead + 1 }
      { e with line := [], lines := e.lines ++ [e.line ++ [newline]] } := by
  have hq := e.unread_commit h.taken_le
  have hlen : (e.unread ++ e.line ++ [newline]).length = e.held + 1 := by
    rw [List.length_append, ← e.held_eq]
    rfl
  have hnext : u.rxHead + 1 = u.rxTail + BitVec.ofNat 32 (e.held + 1) := by
    rw [h.head, BitVec.ofNat_add, BitVec.add_assoc]
    rfl
  refine ⟨h.esc, ?_, ?_, ?_, ?_, ?_⟩
  · rw [hq, List.append_nil]
    exact h.store hroom newline
  · rw [hq, hlen]
    exact hnext
  · rw [Editor.held, hq, hlen]
    exact hnext
  · rw [Editor.held, hq, hlen]
    exact hroom
  · have := h.taken_le
    simp only [Editor.committed, List.flatten_append, List.length_append] at *
    omega

theorem erase (h : Simulates u e) (hline : e.line ≠ []) :
    Simulates { u with rxHead := u.rxHead - 1 } { e with line := e.line.dropLast } := by
  have hpos : 0 < e.line.length := List.length_pos_iff.mpr hline
  have hheld : Editor.held { e with line := e.line.dropLast } + 1 = e.held := by
    simp only [Editor.held, Editor.unread, Editor.committed, List.length_dropLast]
    omega
  refine ⟨h.esc, ?_, h.commit, ?_, ?_, h.taken_le⟩
  · have hw := h.window
    rw [← List.dropLast_append_getLast hline, ← List.append_assoc] at hw
    exact hw.prefix
  · have hh := h.head
    rw [← hheld, BitVec.ofNat_add, ← BitVec.add_assoc] at hh
    show u.rxHead - 1 = _
    rw [hh]
    exact BitVec.add_sub_cancel _ _
  · have := h.held_le
    omega

theorem type (h : Simulates u e) (hroom : e.held < 127) (c : Byte) :
    Simulates
      { u with
        rxBuf := Function.update u.rxBuf (ringSlot u.rxHead) c
        rxHead := u.rxHead + 1 }
      { e with line := e.line ++ [c] } := by
  have hheld : Editor.held { e with line := e.line ++ [c] } = e.held + 1 := by
    simp only [Editor.held, Editor.unread, Editor.committed, List.length_append]
    rfl
  refine ⟨h.esc, ?_, h.commit, ?_, ?_, h.taken_le⟩
  · have hw := h.store (by omega) c
    rw [List.append_assoc] at hw
    exact hw
  · rw [hheld, BitVec.ofNat_add, ← BitVec.add_assoc, ← h.head]
    rfl
  · omega

theorem pending_cases (h : Simulates u e) :
    (u.escState = .normal ∧ e.pending = []) ∨
    (u.escState = .gotEsc ∧ ∃ a, e.pending = [a]) ∨
    (u.escState = .inSeq ∧ ∃ a b rest, e.pending = a :: b :: rest) := by
  have hm := h.esc
  generalize u.escState = s at hm
  generalize e.pending = p at hm
  cases hm with
  | normal => exact Or.inl ⟨rfl, rfl⟩
  | gotEsc a => exact Or.inr (Or.inl ⟨rfl, a, rfl⟩)
  | inSeq a b rest => exact Or.inr (Or.inr ⟨rfl, a, b, rest, rfl⟩)

theorem escape (h : Simulates u e) {s : EscState} {p : List Byte} (hp : EscMatches s p) :
    Simulates { u with escState := s } { e with pending := p } :=
  ⟨hp, h.window, h.commit, h.head, h.held_le, h.taken_le⟩

theorem key (h : Simulates u e) (hn : u.escState = .normal) (b : Byte) :
    Simulates (uartReceive u b).uart (e.key (if b = carriageReturn then newline else b)) := by
  have henter : u.rxHead - u.rxTail < uartRxSize ↔ e.held < 128 := h.room le_rfl
  have htype : u.rxHead - u.rxTail < uartRxSize - 1 ↔ e.held < 127 :=
    h.room (show 127 ≤ 128 by norm_num)
  have herase := h.head_ne_commit
  obtain ⟨buf, head, tail, commit, s⟩ := u
  subst hn
  unfold uartReceive Editor.key
  generalize (if b = carriageReturn then newline else b) = c
  simp only at henter htype herase ⊢
  by_cases hesc : c = keyEsc
  · simp only [hesc, if_true]
    exact h.escape (.gotEsc keyEsc)
  by_cases hnl : c = newline
  · simp only [hnl, if_true, henter, if_neg (show ¬ newline = keyEsc by decide)]
    by_cases hroom : e.held < 128
    · simp only [hroom, if_true]
      exact h.enter hroom
    · simp only [hroom, if_false]
      exact h
  by_cases hbs : c = backspace ∨ c = keyDel
  · simp only [hesc, hnl, hbs, if_false, if_true, herase]
    by_cases hline : e.line = []
    · simp only [hline, ne_eq, not_true_eq_false, if_false, List.dropLast_nil]
      rw [← hline]
      exact h
    · simp only [ne_eq, hline, not_false_eq_true, if_true]
      exact h.erase hline
  by_cases hctl : c < 0x20
  · simp only [hesc, hnl, hbs, hctl, if_false, if_true]
    exact h
  · simp only [hesc, hnl, hbs, hctl, if_false, htype]
    by_cases hroom : e.held < 127
    · simp only [hroom, if_true]
      exact h.type hroom c
    · simp only [hroom, if_false]
      exact h

theorem receive (h : Simulates u e) (b : Byte) :
    Simulates (uartReceive u b).uart (e.receive b) := by
  rcases h.pending_cases with ⟨hs, hp⟩ | ⟨hs, a, hp⟩ | ⟨hs, a, a', rest, hp⟩
  · have hk := h.key hs b
    unfold Editor.receive
    rw [hp]
    exact hk
  · unfold uartReceive Editor.receive
    rw [hs, hp]
    generalize (if b = carriageReturn then newline else b) = c
    by_cases hc : c = 0x5b
    · simp only [hc, if_true]
      exact h.escape (.inSeq a 0x5b [])
    · have hd : escapeComplete [a, c] = true := by simpa [escapeComplete] using hc
      simp only [hc, if_false, List.cons_append, List.nil_append, hd, if_true]
      exact h.escape .normal
  · unfold uartReceive Editor.receive
    rw [hs, hp]
    generalize (if b = carriageReturn then newline else b) = c
    have hl := escapeComplete_concat a a' rest c
    by_cases hc : 0x40 ≤ c ∧ c ≤ 0x7e
    · simp only [hc, hl, decide_true, if_true, and_self]
      exact h.escape .normal
    · simp only [hc, hl, decide_false, if_false, Bool.false_eq_true]
      have hm := h.escape (.inSeq a a' (rest ++ [c]))
      rw [← hs] at hm
      exact hm

theorem intr (h : Simulates u e) (bytes : List Byte) :
    Simulates (uartIntr u bytes) (bytes.foldl Editor.receive e) := by
  induction bytes generalizing u e with
  | nil => exact h
  | cons b bs ih => exact ih (h.receive b)

theorem commit_eq_tail (h : Simulates u e) : u.rxCommit = u.rxTail ↔ e.unread = [] := by
  have hu : e.unread.length ≤ 128 := by
    have := h.held_le
    rw [Editor.held] at this
    omega
  have hz : u.rxTail = u.rxTail + BitVec.ofNat 32 0 := (BitVec.add_zero _).symm
  rw [h.commit]
  nth_rewrite 2 [hz]
  rw [counter_eq hu (by norm_num), List.length_eq_zero_iff]

theorem getc (h : Simulates u e) :
    (uartGetc u).1 = e.getc.1 ∧ Simulates (uartGetc u).2 e.getc.2 := by
  unfold uartGetc Editor.getc
  cases hq : e.unread with
  | nil =>
    rw [if_pos (h.commit_eq_tail.mpr hq)]
    exact ⟨rfl, h⟩
  | cons c rest =>
    rw [if_neg (fun he => by simp [h.commit_eq_tail.mp he] at hq)]
    have hw := h.window
    rw [hq, List.cons_append] at hw
    have hnext : Editor.unread { e with taken := e.taken + 1 } = rest := by
      have hd : e.unread.drop 1 = rest := by rw [hq]; rfl
      rw [← hd]
      exact (List.drop_drop ..).symm
    have hheld : Editor.held { e with taken := e.taken + 1 } + 1 = e.held := by
      have hl : e.held = e.unread.length + e.line.length := rfl
      rw [Editor.held, hnext, hl, hq, List.length_cons]
      exact Nat.add_right_comm ..
    refine ⟨congrArg some hw.first, h.esc, ?_, ?_, ?_, ?_, ?_⟩
    · rw [hnext]
      exact hw.pop
    · rw [hnext]
      show u.rxCommit = u.rxTail + 1 + _
      rw [h.commit, hq, List.length_cons, Nat.add_comm, BitVec.ofNat_add, BitVec.add_assoc]
      rfl
    · show u.rxHead = u.rxTail + 1 + _
      rw [h.head, ← hheld, Nat.add_comm, BitVec.ofNat_add, BitVec.add_assoc]
      rfl
    · show Editor.held { e with taken := e.taken + 1 } ≤ 128
      have := h.held_le
      omega
    · have hlt : e.unread.length ≠ 0 := by rw [hq]; simp
      rw [Editor.unread, List.length_drop] at hlt
      show e.taken + 1 ≤ e.committed.length
      omega

/-- Until the ring is empty, `uart_getc` hands out the unread bytes in order. -/
theorem drain (h : Simulates u e) (n : ℕ) : drain n u = e.unread.take n := by
  induction n generalizing u e with
  | zero => rfl
  | succ n ih =>
    obtain ⟨hc, hs⟩ := h.getc
    have hnext := ih hs
    unfold Lazux.drain
    rw [show uartGetc u = (e.getc.1, (uartGetc u).2) from Prod.ext hc rfl]
    unfold Editor.getc at hnext ⊢
    cases hq : e.unread with
    | nil => rfl
    | cons c rest =>
      simp only [hq] at hnext ⊢
      have hd : Editor.unread { e with taken := e.taken + 1 } = rest := by
        rw [show rest = e.unread.drop 1 by rw [hq]; rfl]
        exact (List.drop_drop ..).symm
      rw [hnext, hd, List.take_succ_cons]

end Simulates

/-- The driver's state simulates the editor's and the bytes returned are those taken. -/
structure RunMatches (s : Uart × List Byte) (e : Editor) : Prop where
  simulates : Simulates s.1 e
  returned : s.2 = e.committed.take e.taken

theorem step_preserves_matches {s : Uart × List Byte} {e : Editor} (h : RunMatches s e)
    (ev : UartEvent) : RunMatches (driverStep s ev) (editorStep e ev) := by
  cases ev with
  | intr bytes =>
    refine ⟨h.simulates.intr bytes, ?_⟩
    have hk : ∀ (bs : List Byte) (e : Editor), e.taken ≤ e.committed.length →
        (bs.foldl Editor.receive e).committed.take (bs.foldl Editor.receive e).taken =
          e.committed.take e.taken := by
      intro bs
      induction bs with
      | nil => exact fun e _ => rfl
      | cons b bs ih =>
        intro e he
        obtain ⟨ht, l, hl⟩ := e.receive_committed b
        rw [List.foldl_cons, ih (e.receive b) (by rw [ht, hl, List.length_append]; omega), ht, hl,
          List.take_append_of_le_length he]
    exact h.returned.trans (hk bytes e h.simulates.taken_le).symm
  | getc =>
    obtain ⟨hc, hs⟩ := h.simulates.getc
    refine ⟨hs, ?_⟩
    show s.2 ++ (uartGetc s.1).1.toList = e.getc.2.committed.take e.getc.2.taken
    rw [hc, h.returned]
    unfold Editor.getc
    cases hq : e.unread with
    | nil => exact List.append_nil _
    | cons c rest =>
      show _ ++ [c] = e.committed.take (e.taken + 1)
      have hg : e.committed[e.taken]? = some c := by
        have hd : (e.committed.drop e.taken)[0]? = some c := by
          rw [show e.committed.drop e.taken = c :: rest from hq]
          rfl
        rwa [List.getElem?_drop] at hd
      rw [List.take_add_one, hg]
      rfl

theorem run_lines_wellFormed (es : List UartEvent) : (editorRun es).WellFormed := by
  have hstep : ∀ (ev : UartEvent) (e : Editor), e.WellFormed → (editorStep e ev).WellFormed := by
    intro ev e h
    cases ev with
    | intr bytes =>
      show (bytes.foldl Editor.receive e).WellFormed
      induction bytes generalizing e with
      | nil => exact h
      | cons b bs ih => exact ih _ (h.receive b)
    | getc =>
      show e.getc.2.WellFormed
      unfold Editor.getc
      split <;> exact h
  have hrun : ∀ (es : List UartEvent) (e : Editor), e.WellFormed →
      (es.foldl editorStep e).WellFormed := by
    intro es
    induction es with
    | nil => exact fun _ h => h
    | cons ev es ih => exact fun e h => ih _ (hstep ev e h)
  exact hrun es _ ⟨fun _ h => absurd h List.not_mem_nil, List.not_mem_nil⟩

theorem steps_preserve_matches {s : Uart × List Byte} {e : Editor} (h : RunMatches s e)
    (es : List UartEvent) : RunMatches (es.foldl driverStep s) (es.foldl editorStep e) := by
  induction es generalizing s e with
  | nil => exact h
  | cons ev es ih => exact ih (step_preserves_matches h ev)

theorem run_matches (es : List UartEvent) : RunMatches (driverRun es) (editorRun es) :=
  steps_preserve_matches ⟨simulates_init, rfl⟩ es

/-- For every interleaving of deliveries and reads, what readers have received and what
they can still receive is exactly the committed lines, each ending in its only newline. -/
theorem line_discipline_refines_editor (es : List UartEvent) :
    (driverRun es).2 <+: (editorRun es).lines.flatten ∧
    (∀ n, drain n (driverRun es).1 =
      ((editorRun es).lines.flatten.drop (driverRun es).2.length).take n) ∧
    (∀ l ∈ (editorRun es).lines, ∃ typed, l = typed ++ [newline] ∧ newline ∉ typed) := by
  obtain ⟨hs, hr⟩ := run_matches es
  refine ⟨?_, ?_, (run_lines_wellFormed es).1⟩
  · rw [hr]
    exact List.take_prefix ..
  · intro n
    have hlen : (driverRun es).2.length = (editorRun es).taken := by
      rw [hr, List.length_take]
      exact Nat.min_eq_left hs.taken_le
    rw [hlen]
    exact hs.drain n

end Lazux

import Lazux.LineDiscipline
import Lazux.Progress

/-! # What the terminal shows and when Enter is accepted

The echo is replayed on a byte terminal beside the committed lines. The ring is followed
through every run of the driver, and of the kernel around it. -/
namespace Lazux

open PagedMemory Trace

/-- The finished lines of a screen and the one the cursor stands on. -/
structure Terminal where
  lines : List (List Byte)
  line : List Byte
  deriving DecidableEq

namespace Terminal

def blank : Terminal := ⟨[], []⟩

def put (t : Terminal) (b : Byte) : Terminal :=
  if b = newline then ⟨t.lines ++ [t.line], []⟩ else { t with line := t.line ++ [b] }

/-- There is nothing to rub out at the start of a line. -/
def erase (t : Terminal) : Option Terminal :=
  if t.line = [] then none else some { t with line := t.line.dropLast }

/-- Backspace, space, backspace rubs out a byte; any other byte is put on the line. -/
def feed : List Byte → Terminal → Option Terminal
  | [], t => some t
  | b :: rest, t =>
    if b = backspace then
      match rest with
      | c :: d :: rest' =>
        if c = 0x20 ∧ d = backspace then t.erase.bind (feed rest')
        else feed (c :: d :: rest') (t.put b)
      | rest => feed rest (t.put b)
    else feed rest (t.put b)

end Terminal

/-- The ring's bytes from one counter to another. -/
def ringRange (u : Uart) (a b : BitVec 32) : List Byte :=
  (List.range (b - a).toNat).map fun i => u.rxBuf (ringSlot (a + BitVec.ofNat 32 i))

structure Screen where
  uart : Uart
  echo : List Byte
  committed : List Byte

namespace Screen

def init : Screen := ⟨Uart.init, [], []⟩

/-- What lies between the old and the new `rx_commit` is committed. -/
def receive (s : Screen) (b : Byte) : Screen :=
  let r := uartReceive s.uart b
  ⟨r.uart, s.echo ++ r.echo, s.committed ++ ringRange r.uart s.uart.rxCommit r.uart.rxCommit⟩

end Screen

def screenStep (s : Screen) : UartEvent → Screen
  | .intr bytes => bytes.foldl Screen.receive s
  | .getc => { s with uart := (uartGetc s.uart).2 }

def screenRun (es : List UartEvent) : Screen := es.foldl screenStep Screen.init

/-- What a received byte can do to the editor, with its echo. -/
inductive Keystroke (e : Editor) : Editor → List Byte → Prop where
  | dropped (p : List Byte) : Keystroke e { e with pending := p } []
  | enter (hroom : e.held < 128) :
      Keystroke e { e with line := [], lines := e.lines ++ [e.line ++ [newline]] } [newline]
  | erase (hline : e.line ≠ []) :
      Keystroke e { e with line := e.line.dropLast } [backspace, 0x20, backspace]
  | typed (c : Byte) (hnl : c ≠ newline) (hbs : c ≠ backspace) (hroom : e.held < 127) :
      Keystroke e { e with line := e.line ++ [c] } [c]

variable {u : Uart} {e e' : Editor} {echo : List Byte}

/-- Outside escape sequences the echo follows the line. -/
theorem Simulates.key_echo (h : Simulates u e) (hn : u.escState = .normal) (b : Byte) :
    Keystroke e (e.key (if b = carriageReturn then newline else b)) (uartReceive u b).echo := by
  have henter : u.rxHead - u.rxTail < uartRxSize ↔ e.held < 128 := h.room le_rfl
  have htype : u.rxHead - u.rxTail < uartRxSize - 1 ↔ e.held < 127 :=
    h.room (show 127 ≤ 128 by norm_num)
  have herase := h.head_ne_commit
  unfold uartReceive Editor.key
  generalize (if b = carriageReturn then newline else b) = c
  simp only [hn, henter, htype, herase]
  by_cases hesc : c = keyEsc
  · simp only [hesc, if_true]
    exact .dropped [keyEsc]
  by_cases hnl : c = newline
  · simp only [hnl, if_true, if_neg (show ¬ newline = keyEsc by decide)]
    by_cases hroom : e.held < 128
    · simp only [hroom, if_true]
      exact .enter hroom
    · simp only [hroom, if_false]
      exact .dropped e.pending
  by_cases hbs : c = backspace ∨ c = keyDel
  · simp only [hesc, hnl, hbs, if_false, if_true]
    by_cases hline : e.line = []
    · simp only [hline, ne_eq, not_true_eq_false, if_false, List.dropLast_nil]
      have hsame : e = { e with line := [] } := by rw [← hline]
      rw [← hsame]
      exact .dropped e.pending
    · simp only [ne_eq, hline, not_false_eq_true, if_true]
      exact .erase hline
  by_cases hctl : c < 0x20
  · simp only [hesc, hnl, hbs, hctl, if_false, if_true]
    exact .dropped e.pending
  · simp only [hesc, hnl, hbs, hctl, if_false]
    by_cases hroom : e.held < 127
    · simp only [hroom, if_true]
      exact .typed c hnl (fun hb => hbs (Or.inl hb)) hroom
    · simp only [hroom, if_false]
      exact .dropped e.pending

theorem Simulates.keystroke (h : Simulates u e) (b : Byte) :
    Keystroke e (e.receive b) (uartReceive u b).echo := by
  rcases h.pending_cases with ⟨hs, hp⟩ | ⟨hs, a, hp⟩ | ⟨hs, a, a', rest, hp⟩
  · have hk := h.key_echo hs b
    unfold Editor.receive
    rw [hp]
    exact hk
  · unfold uartReceive Editor.receive
    rw [hs, hp]
    exact .dropped _
  · unfold uartReceive Editor.receive
    rw [hs, hp]
    exact .dropped _

theorem Simulates.range (h : Simulates u e) {a b : ℕ} (hab : a ≤ b) (hb : b ≤ e.held) :
    ringRange u (u.rxTail + BitVec.ofNat 32 a) (u.rxTail + BitVec.ofNat 32 b) =
      ((e.unread ++ e.line).take b).drop a := by
  have hle := h.held_le
  have hlen : (u.rxTail + BitVec.ofNat 32 b - (u.rxTail + BitVec.ofNat 32 a)).toNat = b - a := by
    bv_omega
  rw [ringRange, hlen]
  exact h.window.range (by rw [← e.held_eq]; exact hb)

/-- What lies between `rx_commit` and `rx_head` is the line being typed. -/
theorem Simulates.range_line (h : Simulates u e) : ringRange u u.rxCommit u.rxHead = e.line := by
  have hle : e.unread.length ≤ e.held := Nat.le_add_right ..
  rw [h.commit, h.head, h.range hle le_rfl, e.held_eq, List.take_length, List.drop_left]

theorem uartReceive_tail (u : Uart) (b : Byte) : (uartReceive u b).uart.rxTail = u.rxTail := by
  unfold uartReceive
  generalize (if b = carriageReturn then newline else b) = c
  cases u.escState with
  | gotEsc => rfl
  | inSeq =>
    dsimp only
    split <;> rfl
  | normal =>
    dsimp only
    split_ifs <;> rfl

theorem Simulates.range_receive (h : Simulates u e) (b : Byte) :
    (e.receive b).committed = e.committed ++
      ringRange (uartReceive u b).uart u.rxCommit (uartReceive u b).uart.rxCommit := by
  have h' := h.receive b
  obtain ⟨htaken, l, hl⟩ := e.receive_committed b
  have hunread : (e.receive b).unread = e.unread ++ l := by
    rw [Editor.unread, hl, htaken, List.drop_append_of_le_length h.taken_le]
    rfl
  have hmono : e.unread.length ≤ (e.receive b).unread.length := by
    rw [hunread, List.length_append]
    omega
  have hrange := h'.range hmono (Nat.le_add_right _ (e.receive b).line.length)
  rw [← h'.commit, uartReceive_tail, ← h.commit] at hrange
  rw [hl, hrange, List.take_left, hunread, List.drop_left]

namespace Terminal

variable {t : Terminal} {xs ys : List Byte}

/-- Echoed bytes that the terminal reads one keystroke at a time. -/
inductive Whole : List Byte → Prop where
  | nil : Whole []
  | put (b : Byte) (hb : b ≠ backspace) {xs : List Byte} (h : Whole xs) : Whole (b :: xs)
  | erase {xs : List Byte} (h : Whole xs) : Whole (backspace :: 0x20 :: backspace :: xs)

theorem Whole.append (h : Whole xs) (h' : Whole ys) : Whole (xs ++ ys) := by
  induction h with
  | nil => exact h'
  | put b hb _ ih => exact .put b hb ih
  | erase _ ih => exact .erase ih

theorem feed_put {b : Byte} (hb : b ≠ backspace) (t : Terminal) :
    feed (b :: xs) t = feed xs (t.put b) := by
  rw [feed.eq_def]
  exact if_neg hb

theorem feed_erase (t : Terminal) :
    feed (backspace :: 0x20 :: backspace :: xs) t = t.erase.bind (feed xs) := by
  rw [feed.eq_def]
  exact (if_pos rfl).trans (if_pos ⟨rfl, rfl⟩)

theorem feed_append (h : Whole xs) (ys : List Byte) (t : Terminal) :
    feed (xs ++ ys) t = (feed xs t).bind (feed ys) := by
  induction h generalizing t with
  | nil => rfl
  | put b hb _ ih =>
    rw [List.cons_append, feed_put hb, feed_put hb]
    exact ih _
  | erase _ ih =>
    rw [List.cons_append, List.cons_append, List.cons_append, feed_erase, feed_erase,
      Option.bind_assoc]
    exact Option.bind_congr fun t _ => ih t

end Terminal

open Terminal

theorem Keystroke.whole (h : Keystroke e e' echo) : Whole echo := by
  cases h with
  | dropped => exact .nil
  | enter => exact .put newline (by decide) .nil
  | erase => exact .erase .nil
  | typed c _ hbs => exact .put c hbs .nil

/-- The terminal shows the editor's lines. -/
structure Shows (t : Terminal) (e : Editor) : Prop where
  lines : e.lines = t.lines.map (· ++ [newline])
  line : e.line = t.line

theorem Keystroke.shows {t : Terminal} (h : Keystroke e e' echo) (ht : Shows t e) :
    ∃ t', feed echo t = some t' ∧ Shows t' e' := by
  obtain ⟨hlines, hline⟩ := ht
  cases h with
  | dropped p => exact ⟨t, rfl, hlines, hline⟩
  | enter =>
    refine ⟨⟨t.lines ++ [t.line], []⟩, ?_, ?_, rfl⟩
    · rw [feed_put (by decide)]
      rfl
    · rw [List.map_append, ← hlines, hline]
      rfl
  | erase hne =>
    refine ⟨{ t with line := t.line.dropLast }, ?_, hlines, congrArg List.dropLast hline⟩
    rw [feed_erase, Terminal.erase, if_neg (by rw [← hline]; exact hne)]
    rfl
  | typed c hnl hbs =>
    refine ⟨{ t with line := t.line ++ [c] }, ?_, hlines, congrArg (· ++ [c]) hline⟩
    rw [feed_put hbs, Terminal.put, if_neg hnl]
    rfl

/-- A run of the driver as the terminal, the editor and the record of commits see it. -/
structure Screened (s : Screen) (e : Editor) : Prop where
  simulates : Simulates s.uart e
  whole : Whole s.echo
  shows : ∃ t, feed s.echo .blank = some t ∧ Shows t e
  committed : s.committed = e.committed

variable {s : Screen}

theorem Screened.receive (h : Screened s e) (b : Byte) : Screened (s.receive b) (e.receive b) := by
  have hkey := h.simulates.keystroke b
  obtain ⟨t, hfeed, ht⟩ := h.shows
  obtain ⟨t', hfeed', ht'⟩ := hkey.shows ht
  constructor
  · exact h.simulates.receive b
  · exact h.whole.append hkey.whole
  · refine ⟨t', ?_, ht'⟩
    have happ := feed_append h.whole (uartReceive s.uart b).echo .blank
    rw [hfeed] at happ
    exact happ.trans hfeed'
  · rw [h.simulates.range_receive b, ← h.committed]
    rfl

theorem Screened.step (h : Screened s e) (ev : UartEvent) :
    Screened (screenStep s ev) (editorStep e ev) := by
  cases ev with
  | intr bytes =>
    show Screened (bytes.foldl Screen.receive s) (bytes.foldl Editor.receive e)
    induction bytes generalizing s e with
    | nil => exact h
    | cons b bs ih => exact ih (h.receive b)
  | getc =>
    have hsame : e.getc.2.lines = e.lines ∧ e.getc.2.line = e.line := by
      unfold Editor.getc
      split <;> exact ⟨rfl, rfl⟩
    obtain ⟨t, hfeed, hlines, hline⟩ := h.shows
    constructor
    · exact h.simulates.getc.2
    · exact h.whole
    · exact ⟨t, hfeed, hsame.1.trans hlines, hsame.2.trans hline⟩
    · exact h.committed.trans (congrArg List.flatten hsame.1.symm)

theorem run_screened (es : List UartEvent) : Screened (screenRun es) (editorRun es) := by
  have hrun : ∀ (es : List UartEvent) (s : Screen) (e : Editor), Screened s e →
      Screened (es.foldl screenStep s) (es.foldl editorStep e) := by
    intro es
    induction es with
    | nil => exact fun _ _ h => h
    | cons ev es ih => exact fun s e h => ih _ _ (h.step ev)
  exact hrun es _ _ ⟨simulates_init, .nil, ⟨.blank, rfl, rfl, rfl⟩, rfl⟩

theorem screenRun_uart (es : List UartEvent) : (screenRun es).uart = (driverRun es).1 := by
  have hbytes : ∀ (bytes : List Byte) (s : Screen),
      (bytes.foldl Screen.receive s).uart = uartIntr s.uart bytes := by
    intro bytes
    induction bytes with
    | nil => exact fun _ => rfl
    | cons b bs ih => exact fun s => ih (s.receive b)
  have hrun : ∀ (es : List UartEvent) (s : Screen) (d : Uart × List Byte), s.uart = d.1 →
      (es.foldl screenStep s).uart = (es.foldl driverStep d).1 := by
    intro es
    induction es with
    | nil => exact fun _ _ h => h
    | cons ev es ih =>
      intro s d h
      apply ih
      cases ev with
      | intr bytes => rw [screenStep, hbytes, h]; rfl
      | getc => rw [screenStep, h]; rfl
  exact hrun es _ _ rfl

/-- For every interleaving of received bytes and reads the echo, replayed on a terminal, never
rubs out past the start of a line and shows the committed lines and then the line being typed;
the committed bytes are those that readers have received or can still receive. -/
theorem echo_shows_what_readers_get (es : List UartEvent) : ∃ t,
    feed (screenRun es).echo .blank = some t ∧
    t.lines.flatMap (· ++ [newline]) = (screenRun es).committed ∧ (∀ l ∈ t.lines, newline ∉ l) ∧
    t.line = ringRange (driverRun es).1 (driverRun es).1.rxCommit (driverRun es).1.rxHead ∧
    (screenRun es).committed = (driverRun es).2 ++ drain 128 (driverRun es).1 := by
  obtain ⟨hsim, -, ⟨t, hfeed, hlines, hline⟩, hcommitted⟩ := run_screened es
  obtain ⟨hsim', hreturned⟩ := run_matches es
  refine ⟨t, hfeed, ?_, fun l hl hnl => ?_, ?_, ?_⟩
  · rw [hcommitted, Editor.committed, hlines, List.flatMap_def]
  · have hmem : l ++ [newline] ∈ (editorRun es).lines := by
      rw [hlines]
      exact List.mem_map_of_mem hl
    obtain ⟨typed, htyped, hfree⟩ := (run_lines_wellFormed es).1 _ hmem
    rw [List.append_cancel_right htyped] at hnl
    exact hfree hnl
  · rw [hsim'.range_line]
    exact hline.symm
  · have hunread : (editorRun es).unread.length ≤ 128 :=
      (Nat.le_add_right _ _).trans hsim'.held_le
    rw [hcommitted, hreturned, hsim'.drain, List.take_of_length_le hunread]
    exact (Editor.take_unread _).symm

section Enter

/-- While a line is being typed a slot is left for the newline that ends it. -/
def Editor.KeepsSlot (e : Editor) : Prop := e.line ≠ [] → e.held < 128

theorem Keystroke.keepsSlot (h : Keystroke e e' echo) (hk : e.KeepsSlot) : e'.KeepsSlot := by
  intro hline
  cases h with
  | dropped p => exact hk hline
  | enter => exact absurd rfl hline
  | erase hne =>
    have hlt := hk hne
    simp only [Editor.held, Editor.unread, Editor.committed, List.length_dropLast] at hlt ⊢
    omega
  | typed c _ _ hroom =>
    simp only [Editor.held, Editor.unread, Editor.committed, List.length_append,
      List.length_singleton] at hroom ⊢
    omega

theorem Editor.KeepsSlot.getc (h : e.KeepsSlot) : e.getc.2.KeepsSlot := by
  unfold Editor.getc
  cases e.unread with
  | nil => exact h
  | cons c rest =>
    intro hline
    have hlt := h hline
    simp only [Editor.held, Editor.unread, Editor.committed, List.length_drop] at hlt ⊢
    omega

theorem run_keepsSlot (es : List UartEvent) : (editorRun es).KeepsSlot := by
  have hstep : ∀ (ev : UartEvent) (u : Uart) (e : Editor), Simulates u e → e.KeepsSlot →
      (editorStep e ev).KeepsSlot := by
    intro ev u e hs h
    cases ev with
    | intr bytes =>
      show (bytes.foldl Editor.receive e).KeepsSlot
      induction bytes generalizing u e with
      | nil => exact h
      | cons b bs ih => exact ih _ _ (hs.receive b) ((hs.keystroke b).keepsSlot h)
    | getc => exact h.getc
  have hrun : ∀ (es : List UartEvent) (s : Uart × List Byte) (e : Editor), RunMatches s e →
      e.KeepsSlot → (es.foldl editorStep e).KeepsSlot := by
    intro es
    induction es with
    | nil => exact fun _ _ _ h => h
    | cons ev es ih =>
      exact fun s e hm h => ih _ _ (step_preserves_matches hm ev) (hstep ev _ _ hm.simulates h)
  exact hrun es (Uart.init, []) .init ⟨simulates_init, rfl⟩ fun h => absurd rfl h

/-- Enter in the kernel: the newline is stored, the line committed, whoever waits for one is
woken and there is something to read. -/
structure Entered (st st' : KState) : Prop where
  stored : st'.uart.rxBuf = Function.update st.uart.rxBuf (ringSlot st.uart.rxHead) newline
  head : st'.uart.rxHead = st.uart.rxHead + 1
  committed : st'.uart.rxCommit = st'.uart.rxHead
  woken : ∀ i, (st.processTable i).state = .blocked → (st.processTable i).chan = some .uartRx →
    (st'.processTable i).state = .ready
  readable : (uartGetc st'.uart).1 ≠ none

/-- `rx_tail`, `rx_commit` and `rx_head` stay in order and within the ring, a full ring holds
finished lines only, and Enter is accepted whenever somebody may be waiting for it. -/
structure EnterFits (u : Uart) : Prop where
  commit_le : (u.rxCommit - u.rxTail).toNat ≤ (u.rxHead - u.rxTail).toNat
  head_le : (u.rxHead - u.rxTail).toNat ≤ 128
  full : (u.rxHead - u.rxTail).toNat = 128 → u.rxHead = u.rxCommit
  enter : ∀ st : KState, st.uart = u → u.escState = .normal →
    u.rxHead ≠ u.rxCommit ∨ u.rxCommit = u.rxTail → ∀ b, b = newline ∨ b = carriageReturn →
    Entered st (uartByte st b)

theorem uartReceive_enter (hesc : u.escState = .normal) (hroom : u.rxHead - u.rxTail < uartRxSize)
    {b : Byte} (hb : b = newline ∨ b = carriageReturn) :
    uartReceive u b = ⟨{ u with
      rxBuf := Function.update u.rxBuf (ringSlot u.rxHead) newline
      rxHead := u.rxHead + 1
      rxCommit := u.rxHead + 1 }, [newline], true⟩ := by
  have hc : (if b = carriageReturn then newline else b) = newline := by
    rcases hb with rfl | rfl <;> rfl
  unfold uartReceive
  simp only [hc, hesc, if_neg (show ¬ newline = keyEsc by decide), if_true, hroom]

theorem entered_uartByte {st : KState} (hesc : st.uart.escState = .normal)
    (hroom : st.uart.rxHead - st.uart.rxTail < uartRxSize) {b : Byte}
    (hb : b = newline ∨ b = carriageReturn) : Entered st (uartByte st b) := by
  have hreceive := uartReceive_enter hesc hroom hb
  have hbyte : uartByte st b = wakeup { st with
      uart := (uartReceive st.uart b).uart
      console := st.console ++ (uartReceive st.uart b).echo } .uartRx := by
    unfold uartByte
    rw [hreceive]
    rfl
  rw [hbyte, hreceive]
  constructor
  · rfl
  · rfl
  · rfl
  · intro i hs hc
    simp [wakeup, hs, hc]
  · show (uartGetc { st.uart with
      rxBuf := Function.update st.uart.rxBuf (ringSlot st.uart.rxHead) newline
      rxHead := st.uart.rxHead + 1
      rxCommit := st.uart.rxHead + 1 }).1 ≠ none
    have hne : ¬ st.uart.rxHead + 1 = st.uart.rxTail := by
      intro he
      rw [← he, BitVec.lt_def] at hroom
      unfold uartRxSize at hroom
      bv_omega
    unfold uartGetc
    rw [if_neg hne]
    exact Option.some_ne_none _

theorem Simulates.enterFits (h : Simulates u e) (hk : e.KeepsSlot) : EnterFits u := by
  have hle := h.held_le
  have hsum : e.held = e.unread.length + e.line.length := rfl
  have hhead : (u.rxHead - u.rxTail).toNat = e.held := by
    rw [h.head]
    bv_omega
  have hcommit : (u.rxCommit - u.rxTail).toNat = e.unread.length := by
    rw [h.commit]
    bv_omega
  constructor
  · omega
  · omega
  · intro hfull
    by_contra hne
    have hlt := hk (h.head_ne_commit.mp hne)
    omega
  · rintro st rfl hesc hwait b hb
    apply entered_uartByte hesc _ hb
    apply (h.room le_rfl).mpr
    rcases hwait with hne | he
    · exact hk (h.head_ne_commit.mp hne)
    · by_cases hline : e.line = []
      · rw [hsum, h.commit_eq_tail.mp he, hline]
        norm_num
      · exact hk hline

/-- For every interleaving of received bytes and reads. -/
theorem enter_always_fits (es : List UartEvent) : EnterFits (driverRun es).1 :=
  (run_matches es).simulates.enterFits (run_keepsSlot es)

end Enter

section Kernel

variable {L : Layout} {ram : Memory} {st st' : KState} {ls : List Label}

def Label.uartEvent : Label → Option UartEvent
  | .received b => some (.intr [b])
  | .taken _ => some .getc
  | _ => none

def takenBytes (ls : List Label) : List Byte :=
  ls.filterMap fun
    | .taken b => some b
    | _ => none

theorem takenBytes_append (ls ms : List Label) :
    takenBytes (ls ++ ms) = takenBytes ls ++ takenBytes ms := List.filterMap_append

theorem uartByte_uart (st : KState) (b : Byte) :
    (uartByte st b).uart = (uartReceive st.uart b).uart := by
  unfold uartByte
  dsimp only
  split <;> rfl

theorem ExecCall.uart {tf : Slot} (h : ExecCall L tf st st') : st'.uart = st.uart := by
  cases h with
  | badName => rfl
  | noEntry => rfl
  | replaced entry newPt p1 p2 mid hn he ha hk hl =>
    obtain ⟨phoff, phnum, start, page, maxEnd, q1, q2, hl⟩ := loadElf_true hl
    rw [hl.result]
    rfl

/-- The kernel reaches the ring only through the driver. -/
theorem Act.driver (h : Act L st ls st') (returned : List Byte) :
    (st'.uart, returned ++ takenBytes ls) =
      (ls.filterMap Label.uartEvent).foldl driverStep (st.uart, returned) := by
  have hkept : st'.uart = st.uart → (st'.uart, returned ++ []) = (st.uart, returned) := by
    intro h
    rw [h, List.append_nil]
  cases h with
  | take _ b u hget =>
    have hb : (uartGetc st.uart).1 = some b := congrArg Prod.fst hget
    have hu : (uartGetc st.uart).2 = u := congrArg Prod.snd hget
    show (u, returned ++ [b]) = ((uartGetc st.uart).2, returned ++ (uartGetc st.uart).1.toList)
    rw [hb, hu]
    rfl
  | receive b =>
    show ((uartByte st b).uart, returned ++ []) = (uartIntr st.uart [b], returned)
    rw [uartByte_uart, List.append_nil]
    rfl
  | grow _ _ ok =>
    apply hkept
    unfold grown
    split <;> rfl
  | forkFailed _ mid h => cases h <;> exact hkept rfl
  | fork _ child mid phys ha =>
    cases ha
    exact hkept rfl
  | exec _ st' h => exact hkept h.uart
  | reap _ i =>
    apply hkept
    unfold freeProc
    dsimp only
    split <;> rfl
  | exit =>
    apply hkept
    unfold exiting
    dsimp only
    split <;> rfl
  | _ => exact hkept rfl

theorem Acts.driver (h : Acts L st ls st') (returned : List Byte) :
    (st'.uart, returned ++ takenBytes ls) =
      (ls.filterMap Label.uartEvent).foldl driverStep (st.uart, returned) := by
  induction h with
  | refl => exact congrArg (Prod.mk _) (List.append_nil _)
  | tail _ ha ih =>
    rw [List.filterMap_append, List.foldl_append, ← ih, ← ha.driver, takenBytes_append,
      ← List.append_assoc]

theorem Does.driver {r : Slot × KState} (h : Does L st ls r) (returned : List Byte) :
    (r.2.uart, returned ++ takenBytes ls) =
      (ls.filterMap Label.uartEvent).foldl driverStep (st.uart, returned) := by
  cases h with
  | stays h => exact h.driver returned
  | @switches ls mid next h =>
    have htaken : takenBytes (ls ++ [Label.switched next]) = takenBytes ls :=
      (takenBytes_append ..).trans (List.append_nil _)
    have hevents : (ls ++ [Label.switched next]).filterMap Label.uartEvent =
        ls.filterMap Label.uartEvent := List.filterMap_append.trans (List.append_nil _)
    rw [htaken, hevents]
    exact h.driver returned

theorem booted_uart (h : kmain L ram = .ok st) : st.uart = Uart.init := by
  obtain ⟨rootPt, p1, p2, c, ha, hk, hstart⟩ := kmain_result h
  cases hstart with
  | started i mid fin entry console hp he hl =>
    obtain ⟨phoff, phnum, start, page, maxEnd, q1, q2, hl⟩ := loadElf_true hl
    rw [hl.result]
    cases hp
    rfl

theorem reachable_driven (h : Reachable L ram st) : ∃ es, (driverRun es).1 = st.uart := by
  induction h with
  | boot s h => exact ⟨[], (booted_uart h).symm⟩
  | @step s s' e h hs ih =>
    obtain ⟨es, hes⟩ := ih
    have hset := reachable_settled h
    cases hs with
    | store => exact ⟨es, hes⟩
    | trap regs input _ hd ht =>
      obtain ⟨ls, ⟨tf, mid⟩, hdoes, -, -, rfl⟩ := takeTrap_does hset.sound hset.steady ht
      refine ⟨es ++ ls.filterMap Label.uartEvent, ?_⟩
      have hrun : driverRun es = ((saveFrame regs s).uart, (driverRun es).2) := Prod.ext hes rfl
      rw [driverRun, List.foldl_append, ← driverRun, hrun, ← hdoes.driver]
      rfl

/-- In the running kernel no line is ever stuck in a full ring. -/
theorem reachable_enterFits (h : Reachable L ram st) : EnterFits st.uart := by
  obtain ⟨es, hes⟩ := reachable_driven h
  rw [← hes]
  exact (run_matches es).simulates.enterFits (run_keepsSlot es)

end Kernel

end Lazux

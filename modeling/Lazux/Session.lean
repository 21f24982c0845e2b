import Lazux.Output
import Lazux.Shell

/-! # The shell at work

`main` of `sh.c` from call to call. What a call brings is up to the kernel, and a `fork` that
succeeds leaves two processes in the same program. -/
namespace Lazux

open PagedMemory Runs

/-- The calls of the library that the shell makes. -/
inductive ShellCall where
  | printf (text : List Byte)
  | lzError (who what : List Byte)
  | read (count : ℕ)
  | fork
  | wait
  | exec (name : List Byte)
  | exit (code : ℤ)

/-- What comes of a call that comes back. -/
inductive Reply where
  | value (n : ℤ)
  | input (r : ReadResult)

inductive Point where
  | prompt
  | reading (len : ℕ)
  | ended
  | tooMany
  | forking
  | forkFailed (pid : ℤ)
  | waiting
  | tooLong
  | execing (name : List Byte)
  | execFailed (res : ℤ)
  | leaving (code : ℤ)

/-- `line[256]`, `args[17]` and the child's `name[64]`. -/
structure Shell where
  point : Point
  line : List Byte
  args : List (Option ℕ)
  name : List Byte

def lzStrerror (err : ℤ) : List Byte :=
  if err = -1 then ascii "nothing by that name in the ramdisk"
  else if err = -2 then ascii "that descriptor is not open"
  else if err = -3 then ascii "the kernel refused a bad pointer"
  else if err = -4 then ascii "the kernel is out of memory"
  else if err = -5 then ascii "not allowed"
  else if err = -6 then ascii "no free process slot, try again"
  else ascii "unknown error"

namespace Shell

def word (s : Shell) : Option (List Byte) := do
  let text := s.line.drop (← (← s.args[0]?))
  some (text.take (← lzLength text))

def call (s : Shell) : Option ShellCall :=
  match s.point with
  | .prompt => some (.printf (ascii "lazux> "))
  | .reading len => some (.read (256 - 1 - len))
  | .ended => some (.printf (ascii "\n"))
  | .tooMany => some (.lzError (ascii "exit") (ascii "too many arguments"))
  | .forking => some .fork
  | .forkFailed pid => some (.lzError (ascii "fork") (lzStrerror pid))
  | .waiting => some .wait
  | .tooLong => s.word.map fun w => .lzError w (ascii "Too long of a name")
  | .execing name => some (.exec name)
  | .execFailed res => s.word.map fun w => .lzError w (lzStrerror res)
  | .leaving code => some (.exit code)

/-- What is done about a line of `argc` words. -/
def respond (argc : ℕ) (line : List Byte) (args : List (Option ℕ)) : Option Point := do
  if argc = 0 then some .prompt
  else if (← lzCompare (line.drop (← (← args[0]?))) (exitWord ++ [0])) = 0 then
    some (if argc = 1 then .leaving 0 else .tooMany)
  else some .forking

/-- `line[n - 1] = '\0'` if a newline stands there. -/
def dropNewline (buffer : List Byte) (n : ℕ) : Option (List Byte) := do
  if (← buffer[n - 1]?) = newline then assign buffer (n - 1) 0 else some buffer

def endLine (s : Shell) (n : ℕ) : Option Shell := do
  let line ← assign s.line n 0
  if n = 0 then some { s with point := .ended, line := line }
  else
    let (argc, line, args) ← parseline (← dropNewline line n) s.args 16
    some { s with point := ← respond argc line args, line := line, args := args }

def take (s : Shell) (len : ℕ) (bs : List Byte) : Option Shell := do
  let buffer ← deliver s.line len bs
  let s := { s with line := buffer }
  if bs = [] then s.endLine len
  else if (← buffer[len + bs.length - 1]?) = newline then s.endLine (len + bs.length)
  else if len + bs.length < 256 - 1 then some { s with point := .reading (len + bs.length) }
  else s.endLine (len + bs.length)

/-- The child builds the name of a program. -/
def nameProgram (s : Shell) : Option Shell := do
  let word := s.line.drop (← (← s.args[0]?))
  match ← commandName word s.name with
  | .exec name => some { s with point := .execing name, name := name }
  | _ => some { s with point := .tooLong }

def resume (s : Shell) : Reply → Option Shell
  | .input (.error _) =>
    match s.point with
    | .reading _ => some { s with point := .leaving (-1) }
    | _ => none
  | .input (.bytes bs) =>
    match s.point with
    | .reading len => s.take len bs
    | _ => none
  | .value n =>
    match s.point with
    | .prompt => some { s with point := .reading 0 }
    | .reading _ => none
    | .ended => some { s with point := .leaving 0 }
    | .tooMany => some { s with point := .prompt }
    | .forking =>
      if n < 0 then some { s with point := .forkFailed n }
      else if n = 0 then s.nameProgram
      else some { s with point := .waiting }
    | .forkFailed _ => some { s with point := .prompt }
    | .waiting => some { s with point := .prompt }
    | .tooLong => some { s with point := .leaving 1 }
    | .execing _ => some { s with point := .execFailed n }
    | .execFailed _ => some { s with point := .leaving 1 }
    | .leaving _ => none

end Shell

/-- What may come of a call. A `fork` that succeeds is a step of its own, an `exec` that succeeds
and an `exit` do not come back. -/
inductive Brings : ShellCall → Reply → Prop where
  | printf (text : List Byte) (n : ℤ) : Brings (.printf text) (.value n)
  | lzError (who what : List Byte) (n : ℤ) : Brings (.lzError who what) (.value n)
  | failed (count : ℕ) {code : ℤ} (h : code < 0) : Brings (.read count) (.input (.error code))
  | bytes {count : ℕ} {bs : List Byte} (hcount : bs.length ≤ count)
      (hlast : newline ∉ bs.dropLast) :
      Brings (.read count) (.input (.bytes bs))
  | fork {n : ℤ} (h : n < 0) : Brings .fork (.value n)
  | wait (n : ℤ) : Brings .wait (.value n)
  | exec (name : List Byte) {n : ℤ} (h : n < 0) : Brings (.exec name) (.value n)

section Kernel

variable {L : Layout} {ram : Memory} {st st' : KState} {regs : TrapFrame} {input : Input}

/-- What a console read has brought that has come back with `a0`. -/
def readReply (st' : KState) (regs : TrapFrame) (a0 : Word) : Reply :=
  if a0.msb then .input (.error a0.toInt)
  else .input (.bytes (bufferBytes st' regs.a1 a0.toNat))

theorem ReadOutcome.brings (h : ReadOutcome st regs st') :
    st'.frameOf st.currentProc = (saveFrame regs st).frameOf st.currentProc ∨
      Brings (.read (readCount regs).toNat)
        (readReply st' regs (st'.frameOf st.currentProc).a0) := by
  cases h with
  | refused hb ha =>
    have herror : readReply st' regs eFault = .input (.error eFault.toInt) := rfl
    rw [ha.frame, herror]
    exact Or.inr (.failed _ (by decide))
  | nothing hb hz ha =>
    have hnone : readReply st' regs 0 = .input (.bytes []) := rfl
    rw [ha.frame, hnone]
    exact Or.inr (.bytes (Nat.zero_le _) List.not_mem_nil)
  | waits hz he ht hp hf => exact Or.inl hf
  | returns bytes hne hle hnext hb hinner hshort ha =>
    have hlt := (readCount regs).isLt
    have hnat : (BitVec.ofNat 64 bytes.length).toNat = bytes.length := by
      rw [BitVec.toNat_ofNat]
      omega
    have hmsb : (BitVec.ofNat 64 bytes.length).msb = false := by
      rw [BitVec.msb_eq_decide, hnat]
      exact decide_eq_false (by omega)
    rw [ha.frame, readReply, hmsb, hnat, bufferBytes_eq hb]
    exact Or.inr (.bytes hle fun h => hinner _ h rfl)

/-- In the kernel a console read sleeps and is made again, or brings what the shell counts on. -/
theorem console_read_brings (hr : Reachable L ram st) (hc : ConsoleRead st regs)
    (hs : Step L st (.trap regs input) st') :
    st'.frameOf st.currentProc = (saveFrame regs st).frameOf st.currentProc ∨
      Brings (.read (readCount regs).toNat)
        (readReply st' regs (st'.frameOf st.currentProc).a0) :=
  (hs.readOutcome hr hc).brings

end Kernel

inductive Body where
  | shell (s : Shell)
  | program (name : List Byte)
  | gone (code : ℤ)

/-- A line as `read_line` returns it, and what its last call of `read` brought. -/
structure InputLine where
  text : List Byte
  last : List Byte

/-- A process that began as a shell: the word it was forked for, its calls that have come back, what
it has read, and the lines it has gone through. -/
structure Member where
  origin : Option (List Byte)
  body : Body
  calls : List (ShellCall × Reply)
  input : List Byte
  lines : List InputLine

def Reply.bytes : Reply → List Byte
  | .input (.bytes bs) => bs
  | _ => []

def completed (s : Shell) (r : Reply) (s' : Shell) : List InputLine :=
  match r, s.point, s'.point with
  | .input (.bytes _), .reading _, .reading _ => []
  | .input (.bytes bs), .reading len, _ => [⟨s.line.take len ++ bs, bs⟩]
  | _, _, _ => []

/-- The call `c` of the shell `s` has come back with `r`. -/
def Member.go (m : Member) (s : Shell) (c : ShellCall) (r : Reply) (s' : Shell) : Member :=
  { m with
    body := .shell s'
    calls := m.calls ++ [(c, r)]
    input := m.input ++ r.bytes
    lines := m.lines ++ completed s r s' }

/-- One of the processes makes its call. -/
inductive SessionStep : List Member → List Member → Prop where
  | call {before after : List Member} {m : Member} {s s' : Shell} {c : ShellCall} {r : Reply}
      (hm : m.body = .shell s) (hc : s.call = some c) (hr : Brings c r)
      (hs : s.resume r = some s') :
      SessionStep (before ++ m :: after) (before ++ m.go s c r s' :: after)
  | fork {before after : List Member} {m : Member} {s parent child : Shell} {pid : ℤ}
      (hm : m.body = .shell s) (hc : s.call = some .fork) (hpid : 0 < pid)
      (hp : s.resume (.value pid) = some parent) (h0 : s.resume (.value 0) = some child) :
      SessionStep (before ++ m :: after)
        (before ++ m.go s .fork (.value pid) parent :: after ++
          [⟨s.word, .shell child, [], [], []⟩])
  | exec {before after : List Member} {m : Member} {s : Shell} {name : List Byte}
      (hm : m.body = .shell s) (hc : s.call = some (.exec name)) :
      SessionStep (before ++ m :: after) (before ++ { m with body := .program name } :: after)
  | exit {before after : List Member} {m : Member} {s : Shell} {code : ℤ}
      (hm : m.body = .shell s) (hc : s.call = some (.exit code)) :
      SessionStep (before ++ m :: after) (before ++ { m with body := .gone code } :: after)

/-- A session starts with one shell at its prompt. -/
inductive Sessions (line name : List Byte) (args : List (Option ℕ)) : List Member → Prop where
  | start : Sessions line name args [⟨none, .shell ⟨.prompt, line, args, name⟩, [], [], []⟩]
  | step {ms ms' : List Member} (h : Sessions line name args ms) (hs : SessionStep ms ms') :
      Sessions line name args ms'

def firstWord (text : List Byte) : Option (List Byte) := firstRun (· = space) (lineText text)

/-- The first word of a line, if it is to be run. -/
def commandOf (text : List Byte) : Option (List Byte) := (firstWord text).filter (· ≠ exitWord)

def commands (lines : List InputLine) : List (List Byte) := lines.filterMap (commandOf ·.text)

def allText (lines : List InputLine) : List Byte := (lines.map (·.text)).flatten

section Lines

variable {s : Shell} {buffer line text : List Byte} {args : List (Option ℕ)} {n : ℕ}

theorem dropNewline_string (hn : n ≠ 0) (hend : buffer[n]? = some 0) :
    ∃ (t : CString) (tail : List Byte), t.val = lineText (buffer.take n) ∧
      (t.val ++ 0 :: tail).length = buffer.length ∧
      Shell.dropNewline buffer n = some (t.val ++ 0 :: tail) := by
  obtain ⟨hlt, hzero⟩ := List.getElem?_eq_some_iff.mp hend
  obtain ⟨k, rfl⟩ := Nat.exists_eq_succ_of_ne_zero hn
  obtain ⟨c, hc⟩ : ∃ c, buffer[k]? = some c := ⟨_, List.getElem?_eq_getElem (by omega)⟩
  have hlast : buffer[k + 1 - 1]? = some c := hc
  have htext : buffer.take (k + 1) = buffer.take k ++ [c] := by
    rw [List.take_add_one, hc]
    rfl
  by_cases hnl : c = newline
  · have hset : buffer.set k 0 = buffer.take k ++ 0 :: buffer.drop (k + 1) := by
      rw [List.set_eq_take_append_cons_drop, if_pos (by omega)]
    obtain ⟨hclean, tail, htail⟩ := takeWhile_terminated (buffer.take k) (buffer.drop (k + 1))
    refine ⟨⟨_, hclean⟩, tail, ?_, ?_, ?_⟩
    · rw [lineText, htext, hnl, List.getLast?_concat, if_pos rfl, List.dropLast_concat]
    · have hlength := congrArg List.length (hset.trans htail)
      exact hlength.symm.trans List.length_set
    · rw [Shell.dropNewline, hlast, Option.bind_eq_bind, Option.bind_some, if_pos hnl]
      exact (if_pos (by omega)).trans (congrArg some (hset.trans htail))
  · have hsplit : buffer = buffer.take (k + 1) ++ 0 :: buffer.drop (k + 1 + 1) := by
      rw [← hzero, ← List.drop_eq_getElem_cons hlt, List.take_append_drop]
    obtain ⟨hclean, tail, htail⟩ := takeWhile_terminated (buffer.take (k + 1))
      (buffer.drop (k + 1 + 1))
    have hne : some c ≠ some newline := fun h => hnl (Option.some.inj h)
    have hkept : lineText (buffer.take (k + 1)) = (buffer.take (k + 1)).takeWhile (· ≠ 0) := by
      rw [lineText, htext, List.getLast?_concat, if_neg hne]
    refine ⟨⟨_, hclean⟩, tail, hkept.symm, ?_, ?_⟩
    · exact (congrArg List.length (hsplit.trans htail)).symm
    · rw [Shell.dropNewline, hlast, Option.bind_eq_bind, Option.bind_some, if_neg hnl]
      exact congrArg some (hsplit.trans htail)

/-- What the shell does about a line. -/
inductive Chooses (text : List Byte) : Point → Prop where
  | ended (h : text = []) : Chooses text .ended
  | blank (h : firstWord text = none) : Chooses text .prompt
  | leave (h : firstWord text = some exitWord) : Chooses text (.leaving 0)
  | tooMany (h : firstWord text = some exitWord) : Chooses text .tooMany
  | run {w : List Byte} (h : firstWord text = some w) (hw : w ≠ exitWord) : Chooses text .forking

structure Shell.Sized (s : Shell) : Prop where
  line : s.line.length = 256
  args : s.args.length = 17
  name : s.name.length = 64

structure Shell.Holds (s : Shell) (w : List Byte) : Prop where
  clean : 0 ∉ w
  held : ∃ i x, s.args[0]? = some (some i) ∧ s.line.drop i = w ++ 0 :: x

structure Responded (text : List Byte) (s : Shell) : Prop where
  sized : s.Sized
  chooses : Chooses text s.point
  word : ∀ w, firstWord text = some w → s.Holds w

theorem Shell.endLine_of {line' : List Byte} {p : Point} {argc : ℕ} {l : List Byte} (hz : n ≠ 0)
    (hassign : assign s.line n 0 = some l) (hdrop : dropNewline l n = some line)
    (hparse : parseline line s.args 16 = some (argc, line', args))
    (hrespond : respond argc line' args = some p) :
    s.endLine n = some { s with point := p, line := line', args := args } := by
  simp only [endLine, hassign, if_neg hz, hdrop, hparse, hrespond, Option.bind_eq_bind,
    Option.bind_some]

theorem endLine_responded (h : s.Sized) (hn : n < 256) :
    ∃ s', s.endLine n = some s' ∧ Responded (s.line.take n) s' := by
  have hassign : assign s.line n 0 = some (s.line.set n 0) := if_pos (by rw [h.line]; exact hn)
  have hlen : (s.line.set n 0).length = 256 := List.length_set.trans h.line
  by_cases hz : n = 0
  · subst hz
    refine ⟨{ s with point := .ended, line := s.line.set 0 0 }, ?_, ⟨hlen, h.args, h.name⟩,
      .ended rfl, fun w hw => ?_⟩
    · rw [Shell.endLine, hassign, Option.bind_eq_bind, Option.bind_some, if_pos rfl]
    · cases hw
  · have hzero : (s.line.set n 0)[n]? = some 0 := List.getElem?_set_self (by rw [h.line]; exact hn)
    obtain ⟨t, tail, ht, hsame, hdrop⟩ := dropNewline_string hz hzero
    rw [List.take_set_of_le (le_refl n)] at ht
    obtain ⟨ws, line, args, hscan, hparse, hline, hargs, hfirst⟩ :=
      parseline_words t (by decide : 0 < 16) (le_of_eq h.args.symm) tail
    have hsized : ∀ p, Shell.Sized { s with point := p, line := line, args := args } := fun p =>
      ⟨hline.trans (hsame.trans hlen), hargs.trans h.args, h.name⟩
    have hhead : ws.head?.map Prod.snd = firstWord (s.line.take n) := by
      rw [hscan.head, ht]
      rfl
    cases ws with
    | nil =>
      refine ⟨_, Shell.endLine_of hz hassign hdrop hparse rfl, hsized _, .blank hhead.symm,
        fun w hw => ?_⟩
      rw [← hhead] at hw
      cases hw
    | cons w ws =>
      have hsome : firstWord (s.line.take n) = some w.2 := hhead.symm
      obtain ⟨harg, x, hbytes⟩ := hfirst w rfl
      have hword : 0 ∉ w.2 :=
        isRun_no_zero ((hscan.allRuns.mem w.1 w.2).mp List.mem_cons_self)
      obtain ⟨r, hcompare, hr⟩ := lzCompare_exit hword x
      have hargc : min (w :: ws).length 16 ≠ 0 := by simp
      obtain ⟨p, hp, hchooses⟩ : ∃ p, Shell.respond (min (w :: ws).length 16) line args = some p ∧
          Chooses (s.line.take n) p := by
        simp only [Shell.respond, Option.bind_eq_bind, Option.bind_some, if_neg hargc, harg, hbytes,
          hcompare]
        by_cases hexit : w.2 = exitWord
        · rw [hexit] at hsome
          rw [if_pos (hr.mpr hexit)]
          split
          · exact ⟨_, rfl, .leave hsome⟩
          · exact ⟨_, rfl, .tooMany hsome⟩
        · rw [if_neg fun h => hexit (hr.mp h)]
          exact ⟨_, rfl, .run hsome hexit⟩
      refine ⟨_, Shell.endLine_of hz hassign hdrop hparse hp, hsized _, hchooses, fun v hv => ?_⟩
      cases hsome.symm.trans hv
      exact ⟨hword, w.1, x, harg, hbytes⟩

theorem Shell.Holds.word {w : List Byte} (h : s.Holds w) : s.word = some w := by
  obtain ⟨i, x, ha, hx⟩ := h.held
  simp only [Shell.word, ha, Option.bind_eq_bind, Option.bind_some, hx,
    lzLength_terminated h.clean, List.take_left']

theorem nameProgram_named {w : List Byte} (h : s.Sized) (hw : s.Holds w) :
    ∃ s', s.nameProgram = some s' ∧ s'.Sized ∧ s'.Holds w ∧
      (59 < w.length ∧ s'.point = .tooLong ∨
        w.length ≤ 59 ∧ ∃ y, s'.point = .execing (w ++ (dotElf ++ 0 :: y))) := by
  obtain ⟨i, x, ha, hx⟩ := hw.held
  by_cases hlong : 59 < w.length
  · refine ⟨{ s with point := .tooLong }, ?_, ⟨h.line, h.args, h.name⟩, ⟨hw.clean, i, x, ha, hx⟩,
      Or.inl ⟨hlong, rfl⟩⟩
    simp only [Shell.nameProgram, ha, Option.bind_eq_bind, Option.bind_some, hx,
      commandName_long hw.clean hlong]
  · have hshort : w.length ≤ 59 := by omega
    refine ⟨{ s with
      point := .execing (w ++ (dotElf ++ 0 :: s.name.drop (w.length + 5)))
      name := w ++ (dotElf ++ 0 :: s.name.drop (w.length + 5)) }, ?_, ⟨h.line, h.args, ?_⟩,
      ⟨hw.clean, i, x, ha, hx⟩, Or.inr ⟨hshort, _, rfl⟩⟩
    · simp only [Shell.nameProgram, ha, Option.bind_eq_bind, Option.bind_some, hx,
        commandName_short hw.clean hshort h.name]
    · have hdot : dotElf.length = 4 := rfl
      have hname := h.name
      simp only [List.length_append, List.length_cons, List.length_drop]
      omega

/-- Why a line ends: `read` has brought nothing, a newline has come, or there is no room left. -/
def InputLine.Ends (l : InputLine) : Prop :=
  l.last = [] ∨ l.text.getLast? = some newline ∨ l.text.length = 255

/-- Bytes that arrive go behind those that are there, and a newline or a full line ends it. -/
theorem take_goes {len : ℕ} {bs : List Byte} (h : s.Sized) (hlen : len < 255)
    (hclean : newline ∉ s.line.take len) (hcount : bs.length ≤ 255 - len)
    (hlast : newline ∉ bs.dropLast) :
    ∃ s', s.take len bs = some s' ∧ s'.Sized ∧
      ((∃ len', s'.point = .reading len' ∧ len' < 255 ∧
          s'.line.take len' = s.line.take len ++ bs ∧ newline ∉ s'.line.take len') ∨
        (∀ len', s'.point ≠ .reading len') ∧ Responded (s.line.take len ++ bs) s' ∧
          InputLine.Ends ⟨s.line.take len ++ bs, bs⟩) := by
  have hin : len + bs.length ≤ s.line.length := by
    rw [h.line]
    omega
  have hfront : (s.line.take len ++ bs).length = len + bs.length := by
    rw [List.length_append, List.length_take_of_le (by rw [h.line]; omega)]
  obtain ⟨buffer, hline⟩ : ∃ buffer, buffer = s.line.take len ++ bs ++
      s.line.drop (len + bs.length) :=
    ⟨_, rfl⟩
  have hdeliver : deliver s.line len bs = some buffer :=
    (if_pos hin).trans (congrArg some hline.symm)
  have htake : buffer.take (len + bs.length) = s.line.take len ++ bs := by
    rw [hline, ← hfront]
    exact List.take_left
  have hsized : Shell.Sized { s with line := buffer } := by
    refine ⟨?_, h.args, h.name⟩
    have hl := h.line
    show buffer.length = 256
    rw [hline, List.length_append, hfront, List.length_drop]
    omega
  obtain ⟨s', hs', hresponded⟩ :=
    @endLine_responded { s with line := buffer } (len + bs.length) hsized
    (by omega)
  have hends : Responded (s.line.take len ++ bs) s' := htake ▸ hresponded
  have hdone : InputLine.Ends ⟨s.line.take len ++ bs, bs⟩ →
      ∃ s'', Shell.endLine { s with line := buffer } (len + bs.length) = some s'' ∧
        s''.Sized ∧ ((∃ len', s''.point = .reading len' ∧ len' < 255 ∧
          s''.line.take len' = s.line.take len ++ bs ∧ newline ∉ s''.line.take len') ∨
        (∀ len', s''.point ≠ .reading len') ∧ Responded (s.line.take len ++ bs) s'' ∧
          InputLine.Ends ⟨s.line.take len ++ bs, bs⟩) := by
    intro hend
    refine ⟨s', hs', hends.sized, Or.inr ⟨fun len' hp => ?_, hends, hend⟩⟩
    have hchooses := hends.chooses
    rw [hp] at hchooses
    cases hchooses
  simp only [Shell.take, hdeliver, Option.bind_eq_bind, Option.bind_some]
  rcases List.eq_nil_or_concat bs with rfl | ⟨front, c, rfl⟩
  · rw [if_pos rfl]
    exact hdone (.inl rfl)
  · rw [List.concat_eq_append] at *
    have hlast' : buffer[len + (front ++ [c]).length - 1]? = some c := by
      have hpos : len + (front ++ [c]).length - 1 < len + (front ++ [c]).length := by
        rw [List.length_append, List.length_singleton]
        omega
      have hat : len + (front ++ [c]).length - 1 = (s.line.take len ++ front).length := by
        rw [← hfront, List.length_append, List.length_append, List.length_append,
          List.length_singleton]
        omega
      rw [← List.getElem?_take_of_lt hpos, htake, ← List.append_assoc, hat,
        List.getElem?_concat_length]
    rw [if_neg (by simp), hlast', Option.bind_some]
    by_cases hnl : c = newline
    · rw [if_pos hnl]
      refine hdone (.inr (.inl ?_))
      rw [← List.append_assoc, List.getLast?_concat, hnl]
    rw [if_neg hnl]
    split
    · rename_i hroom
      refine ⟨_, rfl, ⟨hsized.line, h.args, h.name⟩, Or.inl ⟨_, rfl, hroom, htake, ?_⟩⟩
      show newline ∉ buffer.take _
      rw [htake]
      rw [List.dropLast_concat] at hlast
      simp only [List.mem_append, List.mem_singleton, not_or]
      exact ⟨hclean, hlast, Ne.symm hnl⟩
    · exact hdone (.inr (.inr (by rw [hfront]; omega)))

end Lines

/-- Where the loop of the shell can stand besides `read` and `fork`. -/
def Point.Between : Point → Prop
  | .prompt | .ended | .tooMany | .forkFailed _ | .waiting | .leaving _ => True
  | _ => False

/-- The shell in its loop: what it has read is in its lines and its buffer, and `ws` have been run,
each for a line of its own. -/
inductive Loop (input : List Byte) (lines : List InputLine) (ws : List (List Byte))
    (s : Shell) : Prop
  | reading (len : ℕ) (hp : s.point = .reading len) (hlen : len < 255)
      (hclean : newline ∉ s.line.take len) (hin : input = allText lines ++ s.line.take len)
      (hws : ws.Sublist (commands lines))
  | forking (w : List Byte) (before : List InputLine) (l : InputLine) (hp : s.point = .forking)
      (hl : lines = before ++ [l]) (hw : s.Holds w) (hc : commandOf l.text = some w)
      (hin : input = allText lines) (hws : ws.Sublist (commands before))
  | between (hp : s.point.Between) (hin : allText lines <+: input)
      (hall : (∀ code, s.point ≠ .leaving code) → input = allText lines)
      (hws : ws.Sublist (commands lines))

/-- The calls of a child forked for `w` that has complained: the word was too long, or `exec` has
refused the program. -/
inductive Complained (w : List Byte) : List (ShellCall × Reply) → Prop where
  | tooLong (h : 59 < w.length) (r : Reply) :
      Complained w [(.lzError w (ascii "Too long of a name"), r)]
  | refused (h : w.length ≤ 59) (y : List Byte) {res : ℤ} (hres : res < 0) (r : Reply) :
      Complained w [(.exec (w ++ (dotElf ++ 0 :: y)), .value res), (.lzError w (lzStrerror res), r)]

/-- Where a child can stand that was forked for `w`, after some calls. -/
inductive Errand (w : List Byte) : List (ShellCall × Reply) → Point → Prop where
  | tooLong (h : 59 < w.length) : Errand w [] .tooLong
  | execing (h : w.length ≤ 59) (y : List Byte) : Errand w [] (.execing (w ++ (dotElf ++ 0 :: y)))
  | execFailed (h : w.length ≤ 59) (y : List Byte) {res : ℤ} (hres : res < 0) :
      Errand w [(.exec (w ++ (dotElf ++ 0 :: y)), .value res)] (.execFailed res)
  | leaving {calls : List (ShellCall × Reply)} (h : Complained w calls) :
      Errand w calls (.leaving 1)

/-- What a child calls that was forked for `w`, after some calls. -/
inductive ErrandCall (w : List Byte) : List (ShellCall × Reply) → ShellCall → Prop where
  | tooLong (h : 59 < w.length) : ErrandCall w [] (.lzError w (ascii "Too long of a name"))
  | exec (h : w.length ≤ 59) (y : List Byte) : ErrandCall w [] (.exec (w ++ (dotElf ++ 0 :: y)))
  | failed (h : w.length ≤ 59) (y : List Byte) {res : ℤ} (hres : res < 0) :
      ErrandCall w [(.exec (w ++ (dotElf ++ 0 :: y)), .value res)] (.lzError w (lzStrerror res))
  | exit {calls : List (ShellCall × Reply)} (h : Complained w calls) : ErrandCall w calls (.exit 1)

/-- As `read_line` returns them. -/
structure WholeLine (l : InputLine) : Prop where
  clean : newline ∉ l.text.dropLast
  short : l.text.length ≤ 255
  ends : l.Ends

structure First (ws : List (List Byte)) (m : Member) : Prop where
  shell : ∀ s, m.body = .shell s → s.Sized ∧ Loop m.input m.lines ws s
  stays : ∀ name, m.body ≠ .program name
  told : allText m.lines <+: m.input
  whole : ∀ l ∈ m.lines, WholeLine l
  ran : ws.Sublist (commands m.lines)

structure Sent (w : List Byte) (m : Member) : Prop where
  origin : m.origin = some w
  input : m.input = []
  shell : ∀ s, m.body = .shell s → s.Sized ∧ s.Holds w ∧ Errand w m.calls s.point
  program : ∀ name, m.body = .program name →
    m.calls = [] ∧ w.length ≤ 59 ∧ ∃ y, name = w ++ (dotElf ++ 0 :: y)
  gone : ∀ code, m.body = .gone code → code = 1 ∧ Complained w m.calls

structure OneShell (first : Member) (children : List Member) : Prop where
  first : First (children.filterMap Member.origin) first
  sent : ∀ m ∈ children, ∃ w, Sent w m

section Members

variable {s s' parent child : Shell} {m : Member} {lines : List InputLine} {l : InputLine}
  {ws : List (List Byte)} {w text : List Byte}
  {c : ShellCall} {r : Reply} {pid : ℤ} {input bs : List Byte} {len : ℕ}

theorem allText_concat (lines : List InputLine) (l : InputLine) :
    allText (lines ++ [l]) = allText lines ++ l.text := by
  rw [allText, List.map_append, List.flatten_append, List.map_singleton, List.flatten_singleton]
  rfl

theorem commands_concat (lines : List InputLine) (l : InputLine) :
    commands (lines ++ [l]) = commands lines ++ (commandOf l.text).toList := by
  rw [commands, List.filterMap_append, List.filterMap_cons]
  cases h : commandOf l.text with
  | none => rfl
  | some w => rfl

theorem sublist_commands (h : ws.Sublist (commands lines)) (l : InputLine) :
    ws.Sublist (commands (lines ++ [l])) := by
  rw [commands_concat]
  exact h.trans (List.sublist_append_left _ _)

theorem completed_line (hp : s.point = .reading len) (hn : ∀ len', s'.point ≠ .reading len')
    (bs : List Byte) :
    completed s (.input (.bytes bs)) s' = [⟨s.line.take len ++ bs, bs⟩] := by
  unfold completed
  rw [hp]
  cases h : s'.point with
  | reading len' => exact absurd h (hn len')
  | _ => rfl

theorem completed_more (hp : s.point = .reading len) {len' : ℕ} (hp' : s'.point = .reading len')
    (bs : List Byte) : completed s (.input (.bytes bs)) s' = [] := by
  unfold completed
  rw [hp, hp']

theorem Responded.loop (h : Responded l.text s) (hin : input = allText (lines ++ [l]))
    (hws : ws.Sublist (commands lines)) : Loop input (lines ++ [l]) ws s := by
  have between : s.point.Between → Loop input (lines ++ [l]) ws s := fun hp =>
    .between hp ⟨[], by rw [hin, List.append_nil]⟩ (fun _ => hin) (sublist_commands hws l)
  have hchooses := h.chooses
  generalize hp : s.point = p at hchooses
  cases hchooses with
  | ended h => exact between (by rw [hp]; trivial)
  | blank h => exact between (by rw [hp]; trivial)
  | leave h => exact between (by rw [hp]; trivial)
  | tooMany h => exact between (by rw [hp]; trivial)
  | @run w hw hne =>
    have hc : commandOf l.text = some w := by
      rw [commandOf, hw, Option.filter_some, if_pos (by simpa using hne)]
    exact .forking w lines l hp rfl (h.word w hw) hc hin hws

theorem Loop.told (h : Loop input lines ws s) : allText lines <+: input := by
  cases h with
  | reading len hp hlen hclean hin hws => exact ⟨_, hin.symm⟩
  | forking w before text hp hl hw hc hin hws => exact ⟨[], by rw [hin, List.append_nil]⟩
  | between hp hin hall hws => exact hin

theorem Loop.ran (h : Loop input lines ws s) : ws.Sublist (commands lines) := by
  cases h with
  | reading len hp hlen hclean hin hws => exact hws
  | forking w before text hp hl hw hc hin hws =>
    rw [hl]
    exact sublist_commands hws text
  | between hp hin hall hws => exact hws

theorem First.of_loop (hm : m.body = .shell s) (hs : s.Sized) (h : Loop m.input m.lines ws s)
    (hwhole : ∀ l ∈ m.lines, WholeLine l) : First ws m where
  shell t ht := by
    cases hm.symm.trans ht
    exact ⟨hs, h⟩
  stays name hn := by cases hm.symm.trans hn
  told := h.told
  whole := hwhole
  ran := h.ran

theorem wholeLine_append {front : List Byte} (hfront : newline ∉ front) (hlen : front.length ≤ len)
    (hcount : bs.length ≤ 255 - len) (hlast : newline ∉ bs.dropLast) (hl : len ≤ 255)
    (hends : InputLine.Ends ⟨front ++ bs, bs⟩) : WholeLine ⟨front ++ bs, bs⟩ := by
  have hlen : (front ++ bs).length ≤ 255 := by
    rw [List.length_append]
    omega
  refine ⟨?_, hlen, hends⟩
  show newline ∉ (front ++ bs).dropLast
  rcases List.eq_nil_or_concat bs with rfl | ⟨init, c, rfl⟩
  · rw [List.append_nil]
    exact fun h => hfront (List.dropLast_subset _ h)
  · rw [List.concat_eq_append, List.dropLast_concat] at hlast
    rw [List.concat_eq_append, ← List.append_assoc, List.dropLast_concat, List.mem_append]
    exact not_or.mpr ⟨hfront, hlast⟩

theorem completed_whole (h : Loop input lines ws s) (hs : s.Sized) (hc : s.call = some c)
    (hr : Brings c r) (hres : s.resume r = some s') : ∀ l ∈ completed s r s', WholeLine l := by
  intro l hl
  unfold completed at hl
  split at hl
  · cases hl
  · rename_i bs len _ hp hmore
    cases List.mem_singleton.mp hl
    rw [Shell.resume, hp] at hres
    rw [Shell.call, hp] at hc
    cases hc
    cases h with
    | reading len' hp' hlen hclean =>
      cases hp.symm.trans hp'
      cases hr with
      | bytes hcount hlast =>
        obtain ⟨t, ht, -, ⟨len', hp', -⟩ | ⟨-, -, hends⟩⟩ := take_goes hs hlen hclean hcount hlast
        · cases ht.symm.trans hres
          exact absurd hp' (hmore len')
        · exact wholeLine_append hclean (List.length_take_le _ _) hcount hlast (by omega) hends
    | forking w before text hp' => cases hp.symm.trans hp'
    | between hp' =>
      rw [hp] at hp'
      cases hp'
  · cases hl

theorem Loop.take (h : Loop input lines ws s) (hs : s.Sized) (hp : s.point = .reading len)
    (hcount : bs.length ≤ 255 - len) (hlast : newline ∉ bs.dropLast) :
    ∃ s', s.take len bs = some s' ∧ s'.Sized ∧
      Loop (input ++ bs) (lines ++ completed s (.input (.bytes bs)) s') ws s' := by
  cases h with
  | forking w before text hp' => cases hp.symm.trans hp'
  | between hp' =>
    rw [hp] at hp'
    cases hp'
  | reading len' hp' hlen hclean hin hws =>
    cases hp.symm.trans hp'
    obtain ⟨s', hs', hsized, ⟨len', hp', hlen', htake, hclean'⟩ | ⟨hn, hresponded, -⟩⟩ :=
      take_goes hs hlen hclean hcount hlast
    · refine ⟨s', hs', hsized, .reading len' hp' hlen' hclean' ?_ ?_⟩
      · rw [completed_more hp hp', List.append_nil, hin, htake, List.append_assoc]
      · rw [completed_more hp hp', List.append_nil]
        exact hws
    · refine ⟨s', hs', hsized, ?_⟩
      rw [completed_line hp hn]
      refine Responded.loop (l := ⟨s.line.take len ++ bs, bs⟩) hresponded ?_ hws
      rw [hin, allText_concat, List.append_assoc]

theorem Loop.passes (h : Loop input lines ws s) {p : Point} (hp : p.Between)
    (hin : input = allText lines) : Loop input lines ws { s with point := p } :=
  .between hp ⟨[], by rw [hin, List.append_nil]⟩ (fun _ => hin) h.ran

theorem Shell.Sized.at (h : s.Sized) (p : Point) : Shell.Sized { s with point := p } :=
  ⟨h.line, h.args, h.name⟩

theorem Loop.value (h : Loop input lines ws s) (hs : s.Sized) (hin : input = allText lines) {n : ℤ}
    {p : Point} (hp : p.Between) (hres : s.resume (.value n) = some { s with point := p }) :
    ∃ s', s.resume (.value n) = some s' ∧ s'.Sized ∧
      Loop (input ++ Reply.bytes (.value n)) (lines ++ completed s (.value n) s') ws s' := by
  refine ⟨_, hres, hs.at p, ?_⟩
  have hloop := h.passes hp hin
  have hbytes : input ++ Reply.bytes (.value n) = input := List.append_nil _
  have hnone : lines ++ completed s (.value n) { s with point := p } = lines := List.append_nil _
  rw [hbytes, hnone]
  exact hloop

theorem Loop.goes (h : Loop input lines ws s) (hs : s.Sized) (hc : s.call = some c)
    (hr : Brings c r) : ∃ s', s.resume r = some s' ∧ s'.Sized ∧
      Loop (input ++ r.bytes) (lines ++ completed s r s') ws s' := by
  cases h with
  | reading len hp hlen hclean hin hws =>
    have hloop : Loop input lines ws s := .reading len hp hlen hclean hin hws
    rw [Shell.call, hp] at hc
    cases hc
    cases hr with
    | @failed _ code hcode =>
      refine ⟨{ s with point := .leaving (-1) }, by rw [Shell.resume, hp], hs.at _, ?_⟩
      have hnone : completed s (.input (.error code)) { s with point := .leaving (-1) } = [] := rfl
      have hbytes : input ++ Reply.bytes (.input (.error code)) = input := List.append_nil _
      rw [hnone, List.append_nil, hbytes]
      exact .between trivial hloop.told (fun hno => absurd rfl (hno (-1))) hws
    | @bytes _ bs hcount hlast =>
      obtain ⟨s', hs', hsized, hloop'⟩ := hloop.take hs hp hcount hlast
      exact ⟨s', by rw [Shell.resume, hp]; exact hs', hsized, hloop'⟩
  | forking w before text hp hl hw hcmd hin hws =>
    have hloop : Loop input lines ws s := .forking w before text hp hl hw hcmd hin hws
    rw [Shell.call, hp] at hc
    cases hc
    cases hr with
    | @fork n hn =>
      exact hloop.value hs hin (p := .forkFailed n) trivial
        (by rw [Shell.resume, hp]; exact if_pos hn)
  | between hp hin hall hws =>
    have hloop : Loop input lines ws s := .between hp hin hall hws
    rw [Shell.call] at hc
    cases hpt : s.point with
    | prompt =>
      have hflat := hall fun code h => by cases hpt.symm.trans h
      rw [hpt] at hc
      cases hc
      cases hr with
      | printf _ n =>
        refine ⟨{ s with point := .reading 0 }, by rw [Shell.resume, hpt], hs.at _, ?_⟩
        have hbytes : input ++ Reply.bytes (.value n) = input := List.append_nil _
        have hnone : completed s (.value n) { s with point := .reading 0 } = [] := rfl
        rw [hbytes, hnone, List.append_nil]
        exact .reading 0 rfl (by decide) List.not_mem_nil
          (by rw [hflat]; exact (List.append_nil _).symm)
          hws
    | ended =>
      have hflat := hall fun code h => by cases hpt.symm.trans h
      rw [hpt] at hc
      cases hc
      cases hr with
      | printf _ n =>
          exact hloop.value hs hflat (p := .leaving 0) trivial (by rw [Shell.resume, hpt])
    | tooMany =>
      have hflat := hall fun code h => by cases hpt.symm.trans h
      rw [hpt] at hc
      cases hc
      cases hr with
      | lzError _ _ n =>
          exact hloop.value hs hflat (p := .prompt) trivial (by rw [Shell.resume, hpt])
    | forkFailed pid =>
      have hflat := hall fun code h => by cases hpt.symm.trans h
      rw [hpt] at hc
      cases hc
      cases hr with
      | lzError _ _ n =>
          exact hloop.value hs hflat (p := .prompt) trivial (by rw [Shell.resume, hpt])
    | waiting =>
      have hflat := hall fun code h => by cases hpt.symm.trans h
      rw [hpt] at hc
      cases hc
      cases hr with
      | wait n => exact hloop.value hs hflat (p := .prompt) trivial (by rw [Shell.resume, hpt])
    | leaving code =>
      rw [hpt] at hc
      cases hc
      cases hr
    | reading len =>
      rw [hpt] at hp
      cases hp
    | forking =>
      rw [hpt] at hp
      cases hp
    | tooLong =>
      rw [hpt] at hp
      cases hp
    | execing name =>
      rw [hpt] at hp
      cases hp
    | execFailed res =>
      rw [hpt] at hp
      cases hp

theorem Sent.goes (h : Sent w m) (hm : m.body = .shell s) (hc : s.call = some c)
    (hr : Brings c r) : ∃ s', s.resume r = some s' ∧ Sent w (m.go s c r s') := by
  obtain ⟨hs, hw, herrand⟩ := h.shell s hm
  have value : ∀ n p, r = .value n → s.resume (.value n) = some { s with point := p } →
      Errand w (m.calls ++ [(c, .value n)]) p →
      ∃ s', s.resume r = some s' ∧ Sent w (m.go s c r s') := by
    rintro n p rfl hres hp
    refine ⟨_, hres, h.origin, ?_, fun t ht => ?_, fun name hn => ?_, fun code hn => ?_⟩
    · rw [Member.go, h.input]
      rfl
    · cases ht
      exact ⟨hs.at p, ⟨hw.clean, hw.held⟩, hp⟩
    · cases hn
    · cases hn
  rw [Shell.call] at hc
  generalize hpt : s.point = p at hc herrand
  generalize m.calls = calls at herrand value
  cases herrand with
  | tooLong hlong =>
    rw [hw.word] at hc
    cases hc
    cases hr with
    | lzError _ _ n =>
      exact value n (.leaving 1) rfl (by rw [Shell.resume, hpt]) (.leaving (.tooLong hlong _))
  | execing hshort y =>
    cases hc
    cases hr with
    | @exec _ n hn =>
      exact value n (.execFailed n) rfl (by rw [Shell.resume, hpt]) (.execFailed hshort y hn)
  | execFailed hshort y hres =>
    rw [hw.word] at hc
    cases hc
    cases hr with
    | lzError _ _ n =>
      exact value n (.leaving 1) rfl (by rw [Shell.resume, hpt])
        (.leaving (.refused hshort y hres _))
  | leaving =>
    cases hc
    cases hr

theorem Sent.call (h : Sent w m) (hm : m.body = .shell s) :
    ∃ c, s.call = some c ∧ ErrandCall w m.calls c := by
  obtain ⟨hs, hw, herrand⟩ := h.shell s hm
  rw [Shell.call]
  generalize s.point = p at herrand
  generalize m.calls = calls at herrand
  cases herrand with
  | tooLong hlong => exact ⟨_, by rw [hw.word]; rfl, .tooLong hlong⟩
  | execing hshort y => exact ⟨_, rfl, .exec hshort y⟩
  | execFailed hshort y hres => exact ⟨_, by rw [hw.word]; rfl, .failed hshort y hres⟩
  | leaving hcomplained => exact ⟨_, rfl, .exit hcomplained⟩

theorem Loop.call (h : Loop input lines ws s) :
    ∃ c, s.call = some c ∧ ∀ name, c ≠ .exec name := by
  rw [Shell.call]
  cases h with
  | reading len hp =>
    rw [hp]
    exact ⟨_, rfl, fun name => nofun⟩
  | forking w before text hp =>
    rw [hp]
    exact ⟨_, rfl, fun name => nofun⟩
  | between hp =>
    generalize s.point = p at hp
    cases p with
    | prompt => exact ⟨_, rfl, fun name => nofun⟩
    | ended => exact ⟨_, rfl, fun name => nofun⟩
    | tooMany => exact ⟨_, rfl, fun name => nofun⟩
    | forkFailed pid => exact ⟨_, rfl, fun name => nofun⟩
    | waiting => exact ⟨_, rfl, fun name => nofun⟩
    | leaving code => exact ⟨_, rfl, fun name => nofun⟩
    | _ => cases hp

/-- A `fork` that succeeds: the parent waits, and the child is sent for the word of the line. -/
theorem Loop.forks (h : Loop input lines ws s) (hs : s.Sized) (hc : s.call = some .fork)
    (hpid : 0 < pid) : ∃ parent child w, s.resume (.value pid) = some parent ∧
      s.resume (.value 0) = some child ∧ parent.Sized ∧ Loop input lines (ws ++ [w]) parent ∧
      Sent w ⟨s.word, .shell child, [], [], []⟩ := by
  rw [Shell.call] at hc
  cases h with
  | reading len hp =>
    rw [hp] at hc
    cases hc
  | between hp =>
    generalize s.point = p at hp hc
    cases p with
    | prompt => cases hc
    | ended => cases hc
    | tooMany => cases hc
    | forkFailed pid => cases hc
    | waiting => cases hc
    | leaving code => cases hc
    | _ => cases hp
  | forking w before l hp hl hw hcmd hin hws =>
    obtain ⟨child, hchild, hsized, hholds, hpoint⟩ := nameProgram_named hs hw
    refine ⟨{ s with point := .waiting }, child, w, ?_, ?_, hs.at _, ?_, hw.word, rfl, ?_, ?_, ?_⟩
    · rw [Shell.resume, hp]
      exact (if_neg (by omega)).trans (if_neg (by omega))
    · rw [Shell.resume, hp]
      exact hchild
    · refine .between trivial ⟨[], by rw [hin, List.append_nil]⟩ (fun _ => hin) ?_
      rw [hl, commands_concat, hcmd]
      exact hws.append (List.Sublist.refl _)
    · intro t ht
      cases ht
      refine ⟨hsized, hholds, ?_⟩
      rcases hpoint with ⟨hlong, hp⟩ | ⟨hshort, y, hp⟩
      · rw [hp]
        exact .tooLong hlong
      · rw [hp]
        exact .execing hshort y
    · intro name hn
      cases hn
    · intro code hn
      cases hn

theorem First.call (h : First ws m) (hm : m.body = .shell s) (hc : s.call = some c)
    (hr : Brings c r) : ∃ s', s.resume r = some s' ∧ First ws (m.go s c r s') := by
  obtain ⟨hs, hloop⟩ := h.shell s hm
  obtain ⟨s', hs', hsized, hloop'⟩ := hloop.goes hs hc hr
  refine ⟨s', hs', .of_loop rfl hsized hloop' fun l hl => ?_⟩
  rcases List.mem_append.mp hl with hl | hl
  · exact h.whole l hl
  · exact completed_whole hloop hs hc hr hs' l hl

theorem First.fork (h : First ws m) (hm : m.body = .shell s) (hc : s.call = some .fork)
    (hpid : 0 < pid) : ∃ parent child w, s.resume (.value pid) = some parent ∧
      s.resume (.value 0) = some child ∧ First (ws ++ [w]) (m.go s .fork (.value pid) parent) ∧
      Sent w ⟨s.word, .shell child, [], [], []⟩ := by
  obtain ⟨hs, hloop⟩ := h.shell s hm
  obtain ⟨parent, child, w, hparent, hchild, hsized, hloop', hsent⟩ := hloop.forks hs hc hpid
  have hlines : (m.go s .fork (.value pid) parent).lines = m.lines := List.append_nil _
  have hinput : (m.go s .fork (.value pid) parent).input = m.input := List.append_nil _
  refine ⟨parent, child, w, hparent, hchild, .of_loop rfl hsized ?_ ?_, hsent⟩
  · rw [hlines, hinput]
    exact hloop'
  · rw [hlines]
    exact h.whole

theorem First.exits (h : First ws m) (code : ℤ) : First ws { m with body := .gone code } where
  shell s hs := by cases hs
  stays name hn := by cases hn
  told := h.told
  whole := h.whole
  ran := h.ran

theorem Sent.exits (h : Sent w m) (hm : m.body = .shell s) {code : ℤ}
    (hc : s.call = some (.exit code)) : Sent w { m with body := .gone code } where
  origin := h.origin
  input := h.input
  shell s hs := by cases hs
  program name hn := by cases hn
  gone n hn := by
    cases hn
    obtain ⟨c, hcall, herrand⟩ := h.call hm
    cases hcall.symm.trans hc
    generalize m.calls = calls at herrand
    cases herrand with
    | exit hcomplained => exact ⟨rfl, hcomplained⟩

theorem Sent.becomes (h : Sent w m) (hm : m.body = .shell s) {name : List Byte}
    (hc : s.call = some (.exec name)) : Sent w { m with body := .program name } where
  origin := h.origin
  input := h.input
  shell t ht := by cases ht
  program n hn := by
    cases hn
    obtain ⟨c, hcall, herrand⟩ := h.call hm
    cases hcall.symm.trans hc
    generalize m.calls = calls at herrand
    cases herrand with
    | exec hshort y => exact ⟨rfl, hshort, y, rfl⟩
  gone code hn := by cases hn

theorem Sent.forks_not (h : Sent w m) (hm : m.body = .shell s) : s.call ≠ some .fork := by
  intro hc
  obtain ⟨c, hcall, herrand⟩ := h.call hm
  cases hcall.symm.trans hc
  generalize m.calls = calls at herrand
  cases herrand

end Members

section Sessions

variable {before after ms ms' children : List Member} {m m' first : Member} {s : Shell}
  {w line name : List Byte} {args : List (Option ℕ)}

/-- A member is the first one or a child. -/
theorem member_split (h : before ++ m :: after = first :: children) :
    before = [] ∧ m = first ∧ after = children ∨
      ∃ front, before = first :: front ∧ children = front ++ m :: after := by
  cases before with
  | nil => exact Or.inl ⟨rfl, List.cons.inj h⟩
  | cons b front =>
    obtain ⟨rfl, hrest⟩ := List.cons.inj h
    exact Or.inr ⟨front, rfl, hrest.symm⟩

theorem OneShell.child (h : OneShell first (before ++ m :: after)) (hm : m.origin = m'.origin)
    (hs : ∃ w, Sent w m') : OneShell first (before ++ m' :: after) where
  first := by
    have hfirst := h.first
    rw [List.filterMap_append, List.filterMap_cons, hm] at hfirst
    rw [List.filterMap_append, List.filterMap_cons]
    exact hfirst
  sent n hn := by
    rcases List.mem_append.mp hn with hb | hn
    · exact h.sent n (List.mem_append_left _ hb)
    rcases List.mem_cons.mp hn with rfl | ha
    · exact hs
    · exact h.sent n (List.mem_append_right _ (List.mem_cons_of_mem _ ha))

theorem OneShell.member (h : OneShell first (before ++ m :: after)) : ∃ w, Sent w m :=
  h.sent m (List.mem_append_right _ List.mem_cons_self)

/-- Whoever makes its call, there is one shell. -/
theorem OneShell.step (h : OneShell first children) (hs : SessionStep (first :: children) ms') :
    ∃ first' children', ms' = first' :: children' ∧ OneShell first' children' := by
  generalize hms : first :: children = ms at hs
  cases hs with
  | @call before after m s s' c r hm hc hr hres =>
    rcases member_split hms.symm with ⟨rfl, rfl, rfl⟩ | ⟨front, rfl, rfl⟩
    · obtain ⟨t, ht, hfirst⟩ := h.first.call hm hc hr
      cases ht.symm.trans hres
      exact ⟨_, _, rfl, hfirst, h.sent⟩
    · obtain ⟨w, hsent⟩ := h.member
      obtain ⟨t, ht, hgo⟩ := hsent.goes hm hc hr
      cases ht.symm.trans hres
      exact ⟨_, _, rfl, h.child rfl ⟨w, hgo⟩⟩
  | @fork before after m s parent child pid hm hc hpid hp h0 =>
    rcases member_split hms.symm with ⟨rfl, rfl, rfl⟩ | ⟨front, rfl, rfl⟩
    · obtain ⟨parent', child', w, hp', h0', hfirst, hsent⟩ := h.first.fork hm hc hpid
      cases hp'.symm.trans hp
      cases h0'.symm.trans h0
      refine ⟨m.go s .fork (.value pid) parent,
        after ++ [⟨s.word, .shell child, [], [], []⟩], rfl, ?_,
        fun n hn => ?_⟩
      · rw [List.filterMap_append, List.filterMap_cons_some hsent.origin]
        exact hfirst
      · rcases List.mem_append.mp hn with hn | hn
        · exact h.sent n hn
        · rw [List.mem_singleton.mp hn]
          exact ⟨w, hsent⟩
    · obtain ⟨w, hsent⟩ := h.member
      exact absurd hc (hsent.forks_not hm)
  | @exec before after m s name hm hc =>
    rcases member_split hms.symm with ⟨rfl, rfl, rfl⟩ | ⟨front, rfl, rfl⟩
    · obtain ⟨-, hloop⟩ := h.first.shell s hm
      obtain ⟨c, hcall, hno⟩ := hloop.call
      exact absurd (Option.some.inj (hcall.symm.trans hc)) (hno name)
    · obtain ⟨w, hsent⟩ := h.member
      exact ⟨_, _, rfl, h.child rfl ⟨w, hsent.becomes hm hc⟩⟩
  | @exit before after m s code hm hc =>
    rcases member_split hms.symm with ⟨rfl, rfl, rfl⟩ | ⟨front, rfl, rfl⟩
    · exact ⟨_, _, rfl, h.first.exits code, h.sent⟩
    · obtain ⟨w, hsent⟩ := h.member
      exact ⟨_, _, rfl, h.child rfl ⟨w, hsent.exits hm hc⟩⟩

theorem sessions_one (hline : line.length = 256) (hargs : args.length = 17)
    (hname : name.length = 64) (h : Sessions line name args ms) :
    ∃ first children, ms = first :: children ∧ OneShell first children := by
  induction h with
  | start =>
    exact ⟨_, [], rfl, .of_loop rfl ⟨hline, hargs, hname⟩
      (.between trivial ⟨[], rfl⟩ (fun _ => rfl) (List.Sublist.refl _)) nofun, nofun⟩
  | step h hs ih =>
    obtain ⟨first, children, rfl, hone⟩ := ih
    exact hone.step hs

/-- The shell makes its calls: whatever comes of one, its arrays are enough for what it does
then. -/
def Able (s : Shell) : Prop :=
  ∃ c, s.call = some c ∧ (∀ r, Brings c r → ∃ s', s.resume r = some s') ∧
    (c = .fork → ∀ pid, 0 < pid → ∃ parent child,
      s.resume (.value pid) = some parent ∧ s.resume (.value 0) = some child)

theorem First.able {ws : List (List Byte)} (h : First ws m) (hm : m.body = .shell s) : Able s := by
  obtain ⟨-, hloop⟩ := h.shell s hm
  obtain ⟨c, hc, -⟩ := hloop.call
  refine ⟨c, hc, fun r hr => ?_, fun hfork pid hpid => ?_⟩
  · obtain ⟨s', hs', -⟩ := h.call hm hc hr
    exact ⟨s', hs'⟩
  · obtain ⟨parent, child, -, hparent, hchild, -⟩ := h.fork hm (hfork ▸ hc) hpid
    exact ⟨parent, child, hparent, hchild⟩

theorem Sent.able (h : Sent w m) (hm : m.body = .shell s) : Able s := by
  obtain ⟨c, hc, -⟩ := h.call hm
  refine ⟨c, hc, fun r hr => ?_, fun hfork => absurd (hfork ▸ hc) (h.forks_not hm)⟩
  obtain ⟨s', hs', -⟩ := h.goes hm hc hr
  exact ⟨s', hs'⟩

/-- In every session there is one shell, which goes through the lines of its input in order and
never becomes another program. Its children are there for the first words of lines of their own,
in order; each reads nothing, and becomes the program of its word or complains and exits with 1. -/
theorem one_shell_stays (hline : line.length = 256) (hargs : args.length = 17)
    (hname : name.length = 64) (h : Sessions line name args ms) :
    ∃ first children, ms = first :: children ∧
      (∀ program, first.body ≠ .program program) ∧
      allText first.lines <+: first.input ∧ (∀ l ∈ first.lines, WholeLine l) ∧
      (children.filterMap Member.origin).Sublist (commands first.lines) ∧
      (∀ m ∈ children, ∃ w, m.origin = some w ∧ m.input = [] ∧
        (∀ s, m.body = .shell s → ∃ c, s.call = some c ∧ ErrandCall w m.calls c) ∧
        (∀ program, m.body = .program program →
          m.calls = [] ∧ w.length ≤ 59 ∧ ∃ y, program = w ++ (dotElf ++ 0 :: y)) ∧
        ∀ code, m.body = .gone code → code = 1 ∧ Complained w m.calls) ∧
      ∀ m ∈ ms, ∀ s, m.body = .shell s → Able s := by
  obtain ⟨first, children, rfl, hone⟩ := sessions_one hline hargs hname h
  refine ⟨first, children, rfl, hone.first.stays, hone.first.told, hone.first.whole,
    hone.first.ran, fun m hm => ?_, fun m hm s hs => ?_⟩
  · obtain ⟨w, hsent⟩ := hone.sent m hm
    exact ⟨w, hsent.origin, hsent.input, fun s hs => hsent.call hs, hsent.program, hsent.gone⟩
  · rcases List.mem_cons.mp hm with rfl | hm
    · exact hone.first.able hs
    · obtain ⟨w, hsent⟩ := hone.sent m hm
      exact hsent.able hs

set_option maxRecDepth 4000 in
/-- Someone types `a` and Enter, and there is no such program. -/
theorem one_shell_stays_typed : ∃ ms, Sessions (List.replicate 256 0) (List.replicate 64 0)
    (List.replicate 17 none) ms ∧ ms.length = 2 ∧ (∃ m ∈ ms, m.body = .gone 1) ∧
    ∃ first children, ms = first :: children ∧
      (∀ program, first.body ≠ .program program) ∧
      allText first.lines <+: first.input ∧ (∀ l ∈ first.lines, WholeLine l) ∧
      (children.filterMap Member.origin).Sublist (commands first.lines) ∧
      (∀ m ∈ children, ∃ w, m.origin = some w ∧ m.input = [] ∧
        (∀ s, m.body = .shell s → ∃ c, s.call = some c ∧ ErrandCall w m.calls c) ∧
        (∀ program, m.body = .program program →
          m.calls = [] ∧ w.length ≤ 59 ∧ ∃ y, program = w ++ (dotElf ++ 0 :: y)) ∧
        ∀ code, m.body = .gone code → code = 1 ∧ Complained w m.calls) ∧
      ∀ m ∈ ms, ∀ s, m.body = .shell s → Able s := by
  have hforked := Sessions.step (Sessions.step (Sessions.step
    (@Sessions.start (List.replicate 256 0) (List.replicate 64 0) (List.replicate 17 none))
    (@SessionStep.call [] [] _ _ _ _ (.value 7) rfl rfl (.printf _ _) rfl))
    (@SessionStep.call [] [] _ _ _ _ (.input (.bytes [0x61, newline])) rfl rfl
      (.bytes (by decide) (by decide)) rfl))
    (@SessionStep.fork [] [] _ _ _ _ 2 rfl rfl (by decide) rfl rfl)
  -- the child is refused, complains and exits
  have hsession := Sessions.step (Sessions.step (Sessions.step hforked
    (@SessionStep.call [_] [] _ _ _ _ (.value (-1)) rfl rfl (.exec _ (by decide)) rfl))
    (@SessionStep.call [_] [] _ _ _ _ (.value 0) rfl rfl (.lzError _ _ _) rfl))
    (@SessionStep.exit [_] [] _ _ _ rfl rfl)
  exact ⟨_, hsession, rfl, ⟨_, List.mem_cons_of_mem _ List.mem_cons_self, rfl⟩,
    one_shell_stays rfl rfl rfl hsession⟩

end Sessions

end Lazux

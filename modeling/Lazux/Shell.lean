import Lazux.Uart
import Lazux.Strings
import Lazux.Lib.Runs

/-! # The shell (`user/sh.c`)

A pointer into the line is its offset. Reads and writes outside a buffer fail. -/
namespace Lazux

open PagedMemory Runs

def space : Byte := 0x20

def assign {α : Type} (xs : List α) (i : ℕ) (x : α) : Option (List α) :=
  if i < xs.length then some (xs.set i x) else none

/-- How far `while (line[i] == ' ') i++` goes. -/
def skipSpaces : List Byte → Option ℕ
  | [] => none
  | c :: rest => if c = space then (skipSpaces rest).map (· + 1) else some 0

/-- How far `while (line[i] != ' ' && line[i] != '\0') i++` goes. -/
def skipWord : List Byte → Option ℕ
  | [] => none
  | c :: rest => if c ≠ space ∧ c ≠ 0 then (skipWord rest).map (· + 1) else some 0

structure Parse where
  line : List Byte
  args : List (Option ℕ)
  argc : ℕ
  i : ℕ

def parseWord (p : Parse) : Option Parse := do
  let args ← assign p.args p.argc (some p.i)
  let i := p.i + (← skipWord (p.line.drop p.i))
  if (← p.line[i]?) = space then
    let line ← assign p.line i 0
    some ⟨line, args, p.argc + 1, i + 1⟩
  else some ⟨p.line, args, p.argc + 1, i⟩

/-- The outer loop; `max_args - argc` words may still be stored. -/
def parseWords : ℕ → Parse → Option Parse
  | 0, p => (p.line[p.i]?).map fun _ => p
  | room + 1, p => do
    if (← p.line[p.i]?) = 0 then some p
    else
      let i := p.i + (← skipSpaces (p.line.drop p.i))
      if (← p.line[i]?) = 0 then some { p with i }
      else (parseWord { p with i }).bind (parseWords room)

def parseline (line : List Byte) (args : List (Option ℕ)) (maxArgs : ℕ) :
    Option (ℕ × List Byte × List (Option ℕ)) := do
  let p ← parseWords maxArgs ⟨line, args, 0, 0⟩
  let args ← assign p.args p.argc none
  some (p.argc, p.line, args)

/-- What a call of `read` brings: an error, or bytes. -/
inductive ReadResult where
  | error (code : ℤ)
  | bytes (bs : List Byte)

/-- The calls of `read` made, and the bytes they brought. -/
structure Stdin where
  calls : ℕ
  delivered : List Byte

def deliver (buffer : List Byte) (i : ℕ) (bs : List Byte) : Option (List Byte) :=
  if i + bs.length ≤ buffer.length then
    some (buffer.take i ++ bs ++ buffer.drop (i + bs.length))
  else none

/-- The value returned, and the buffer and the input behind the call. -/
structure LineRead where
  ret : ℤ
  buffer : List Byte
  stdin : Stdin

def endLine (buffer : List Byte) (stdin : Stdin) (len : ℕ) : Option LineRead :=
  (assign buffer len 0).map fun buffer => ⟨len, buffer, stdin⟩

/-- The loop of `read_line`; `answer` says what each call of `read` brings for its count. -/
def readMore (answer : ℕ → ℕ → ReadResult) (max : ℕ) (buffer : List Byte) (stdin : Stdin)
    (len : ℕ) : Option LineRead :=
  if len < max - 1 then
    match answer stdin.calls (max - 1 - len) with
    | .error code => some ⟨code, buffer, { stdin with calls := stdin.calls + 1 }⟩
    | .bytes bs =>
      match deliver buffer len bs with
      | none => none
      | some buffer =>
        let stdin := ⟨stdin.calls + 1, stdin.delivered ++ bs⟩
        if _hbs : bs = [] then endLine buffer stdin len
        else
          match buffer[len + bs.length - 1]? with
          | none => none
          | some c =>
            if c = newline then endLine buffer stdin (len + bs.length)
            else readMore answer max buffer stdin (len + bs.length)
  else endLine buffer stdin len
termination_by max - 1 - len
decreasing_by
  have := List.length_pos_iff.mpr _hbs
  omega

def readLine (answer : ℕ → ℕ → ReadResult) (max : ℕ) (buffer : List Byte) (stdin : Stdin) :
    Option LineRead :=
  readMore answer max buffer stdin 0

def exitWord : List Byte := [0x65, 0x78, 0x69, 0x74]

def dotElf : List Byte := [0x2E, 0x65, 0x6C, 0x66]

/-- What the shell does with a line. -/
inductive Command where
  | failed
  | leave
  | again
  | tooManyArguments
  | tooLong
  | exec (name : List Byte)

/-- The child: the word becomes the name of a program. -/
def commandName (word name : List Byte) : Option Command := do
  if 64 - 5 < (← lzLength word) then some .tooLong
  else
    let name ← lzCopy name word
    let name ← lzConcat name (dotElf ++ [0])
    some (.exec name)

/-- A line without its newline is split, and its first word decides. -/
def runLine (line : List Byte) (args : List (Option ℕ)) (name : List Byte) : Option Command := do
  let (argc, line, args) ← parseline line args 16
  if argc = 0 then some .again
  else
    let word := line.drop (← (← args[0]?))
    if (← lzCompare word (exitWord ++ [0])) = 0 then
      if argc = 1 then some .leave else some .tooManyArguments
    else commandName word name

/-- One round of `main` behind `read_line`. -/
def command (n : ℤ) (text : List Byte) (args : List (Option ℕ)) (name : List Byte) :
    Option Command := do
  if n < 0 then some .failed
  else if n = 0 then some .leave
  else if (← text[n.toNat - 1]?) = newline then
    runLine (← assign text (n.toNat - 1) 0) args name
  else runLine text args name

section Words

variable {p : Parse} {line rest tail w : List Byte} {ws : List (ℕ × List Byte)} {i room : ℕ}

/-- The line with a terminator behind each of some words. -/
def endWords (ws : List (ℕ × List Byte)) (line : List Byte) : List Byte :=
  ws.foldl (fun line w => line.set (w.1 + w.2.length) 0) line

/-- The argument array from `argc` on holds where some words begin. -/
def storeWords (args : List (Option ℕ)) (argc : ℕ) (ws : List (ℕ × List Byte)) :
    List (Option ℕ) :=
  args.take argc ++ ws.map (fun w => some w.1) ++ args.drop (argc + ws.length)

theorem storeWords_nil (args : List (Option ℕ)) (argc : ℕ) : storeWords args argc [] = args := by
  rw [storeWords, List.map_nil, List.append_nil]
  exact List.take_append_drop argc args

theorem storeWords_cons {args : List (Option ℕ)} {argc : ℕ} (hroom : argc < args.length)
    (w : ℕ × List Byte) (ws : List (ℕ × List Byte)) :
    storeWords (args.set argc (some w.1)) (argc + 1) ws = storeWords args argc (w :: ws) := by
  have htake : (args.set argc (some w.1)).take (argc + 1) = args.take argc ++ [some w.1] := by
    have hlen : (args.take argc).length = argc := List.length_take_of_le (le_of_lt hroom)
    rw [List.set_eq_take_append_cons_drop, if_pos hroom, List.take_append, hlen,
      List.take_of_length_le (by omega), Nat.add_sub_cancel_left]
    rfl
  have hdrop : (args.set argc (some w.1)).drop (argc + 1 + ws.length) =
      args.drop (argc + (ws.length + 1)) := by
    rw [List.drop_set_of_lt (by omega)]
    congr 1
    omega
  rw [storeWords, storeWords, htake, hdrop, List.map_cons, List.length_cons, List.append_assoc,
    List.append_assoc, List.append_assoc]
  rfl

theorem byte_at (hline : p.line.drop p.i = rest) (k : ℕ) : p.line[p.i + k]? = rest[k]? := by
  rw [← hline, List.getElem?_drop]

theorem skipSpaces_word {c : Byte} (hc : c ≠ space) : skipSpaces (c :: rest) = some 0 :=
  if_neg hc

theorem skipWord_word (hclear : ∀ c ∈ w, c ≠ space) (hw : 0 ∉ w) {c : Byte}
    (hc : c = space ∨ c = 0) : skipWord (w ++ c :: rest) = some w.length := by
  induction w with
  | nil =>
    refine if_neg ?_
    rintro ⟨hspace, hzero⟩
    exact hc.elim hspace hzero
  | cons b w ih =>
    rw [List.mem_cons, not_or] at hw
    obtain ⟨hb, hclear⟩ := List.forall_mem_cons.mp hclear
    rw [List.cons_append, skipWord, if_pos ⟨hb, Ne.symm hw.1⟩, ih hclear hw.2]
    rfl

theorem skipSpaces_terminated (rest tail : List Byte) :
    ∃ n d, skipSpaces (rest ++ 0 :: tail) = some n ∧ (rest ++ 0 :: tail)[n]? = some d := by
  induction rest with
  | nil => exact ⟨0, 0, rfl, rfl⟩
  | cons c rest ih =>
    by_cases hc : c = space
    · obtain ⟨n, d, hn, hd⟩ := ih
      refine ⟨n + 1, d, ?_, hd⟩
      rw [List.cons_append, skipSpaces, if_pos hc, hn]
      rfl
    · exact ⟨0, c, skipSpaces_word hc, rfl⟩

theorem parseWords_end (hline : p.line.drop p.i = 0 :: tail) : parseWords room p = some p := by
  have hhere : p.line[p.i]? = some 0 := byte_at hline 0
  cases room with
  | zero =>
    rw [parseWords, hhere]
    rfl
  | succ room => simp only [parseWords, hhere, Option.bind_eq_bind, Option.bind_some, if_true]

theorem parseWords_round {c d : Byte} {n : ℕ} (hhere : p.line[p.i]? = some c) (hc : c ≠ 0)
    (hn : skipSpaces (p.line.drop p.i) = some n) (hd : p.line[p.i + n]? = some d) :
    parseWords (room + 1) p = if d = 0 then some { p with i := p.i + n }
      else (parseWord { p with i := p.i + n }).bind (parseWords room) := by
  simp only [parseWords, hhere, hn, hd, Option.bind_eq_bind, Option.bind_some, if_neg hc]

/-- A space before a word makes no difference. -/
theorem parseWords_skip (hline : p.line.drop p.i = space :: (rest ++ 0 :: tail)) :
    parseWords (room + 1) p = parseWords (room + 1) { p with i := p.i + 1 } := by
  have hdrop : p.line.drop (p.i + 1) = rest ++ 0 :: tail := by
    rw [← List.drop_drop, hline]
    rfl
  obtain ⟨n, d, hn, hd⟩ := skipSpaces_terminated rest tail
  have hnext : p.line[p.i + 1 + n]? = some d := by
    rw [← hd, ← hdrop, List.getElem?_drop]
  have hskip : skipSpaces (p.line.drop p.i) = some (n + 1) := by
    rw [hline, skipSpaces, if_pos rfl, hn]
    rfl
  have hadd : p.i + (n + 1) = p.i + 1 + n := by omega
  have hround : parseWords (room + 1) p = _ :=
    parseWords_round (byte_at hline 0) (by decide) hskip (by rw [hadd, hnext])
  rw [hround, hadd]
  cases hrest : rest ++ 0 :: tail with
  | nil => exact absurd hrest (by simp)
  | cons c more =>
    rw [hrest] at hdrop hn hd
    by_cases hc : c = 0
    · subst hc
      obtain rfl : 0 = n := Option.some.inj hn
      obtain rfl : 0 = d := Option.some.inj hd
      rw [if_pos rfl]
      exact (parseWords_end hdrop).symm
    · have hhere : p.line[p.i + 1]? = some c := by
        rw [← Nat.add_zero (p.i + 1), ← List.getElem?_drop, hdrop]
        rfl
      symm
      apply parseWords_round hhere hc
      · rw [hdrop, hn]
      · exact hnext

/-- The word is stored and its end marked; the terminator of the line stays where it is. -/
theorem parseWord_word (hclear : ∀ c ∈ w, c ≠ space) (hzero : 0 ∉ w) {c : Byte}
    (hc : c = space ∨ c = 0) (hline : p.line.drop p.i = w ++ c :: rest)
    (hargs : p.argc < p.args.length) :
    parseWord p = some ⟨p.line.set (p.i + w.length) 0, p.args.set p.argc (some p.i), p.argc + 1,
      p.i + w.length + if c = space then 1 else 0⟩ := by
  have hskip : skipWord (p.line.drop p.i) = some w.length := by
    rw [hline, skipWord_word hclear hzero hc]
  have hend : p.line[p.i + w.length]? = some c := by
    rw [byte_at hline, List.getElem?_append_right (le_refl _), Nat.sub_self]
    rfl
  obtain ⟨hroom, hget⟩ := List.getElem?_eq_some_iff.mp hend
  rcases hc with rfl | rfl
  · simp only [parseWord, assign, if_pos hargs, hskip, hend, if_pos hroom, Option.bind_eq_bind,
      Option.bind_some, if_true]
  · have hne : (0 : Byte) ≠ space := by decide
    have hsame : p.line.set (p.i + w.length) 0 = p.line := by
      rw [← hget]
      exact List.set_getElem_self hroom
    simp only [parseWord, assign, if_pos hargs, hskip, hend, hsame, if_neg hne, Option.bind_eq_bind,
      Option.bind_some, Nat.add_zero]

theorem parseWords_word (hw : w ≠ []) (hclear : ∀ c ∈ w, c ≠ space) (hzero : 0 ∉ w) {c : Byte}
    (hc : c = space ∨ c = 0) (hline : p.line.drop p.i = w ++ c :: rest)
    (hargs : p.argc < p.args.length) :
    parseWords (room + 1) p = parseWords room ⟨p.line.set (p.i + w.length) 0,
      p.args.set p.argc (some p.i), p.argc + 1, p.i + w.length + if c = space then 1 else 0⟩ := by
  obtain ⟨b, w', rfl⟩ := List.exists_cons_of_ne_nil hw
  have hb : b ≠ space := hclear b List.mem_cons_self
  have hb0 : b ≠ 0 := fun h => hzero (h ▸ List.mem_cons_self)
  have hhere : p.line[p.i]? = some b := byte_at hline 0
  have hskip : skipSpaces (p.line.drop p.i) = some 0 := by
    rw [hline]
    exact skipSpaces_word hb
  rw [parseWords_round hhere hb0 hskip hhere, if_neg hb0]
  exact congrArg (Option.bind · (parseWords room)) (parseWord_word hclear hzero hc hline hargs)

theorem drop_behind {c : Byte} (hline : p.line.drop p.i = w ++ c :: rest) :
    (p.line.set (p.i + w.length) 0).drop (p.i + w.length) = 0 :: rest := by
  have hdrop : p.line.drop (p.i + w.length) = c :: rest := by
    rw [← List.drop_drop, hline]
    exact List.drop_left
  rw [List.drop_set, if_neg (lt_irrefl _), hdrop, Nat.sub_self]
  rfl

theorem parseWords_full (hline : p.line.drop p.i = rest ++ 0 :: tail) :
    parseWords 0 p = some p := by
  have hhere : ∃ c, p.line[p.i]? = some c := by
    cases rest with
    | nil => exact ⟨0, byte_at hline 0⟩
    | cons c rest => exact ⟨c, byte_at hline 0⟩
  obtain ⟨c, hc⟩ := hhere
  rw [parseWords, hc]
  rfl

theorem parseWords_scan (h : Scan (· = space) i rest ws) (hrest : 0 ∉ rest) (hi : p.i = i)
    (hline : p.line.drop p.i = rest ++ 0 :: tail) (hroom : p.argc + room ≤ p.args.length) :
    ∃ i', parseWords room p = some ⟨endWords (ws.take room) p.line,
      storeWords p.args p.argc (ws.take room), p.argc + (ws.take room).length, i'⟩ := by
  induction h generalizing p room with
  | done =>
    refine ⟨p.i, ?_⟩
    rw [parseWords_end hline, List.take_nil, storeWords_nil]
    rfl
  | skip hx h ih =>
    subst hx hi
    cases room with
    | zero =>
      refine ⟨p.i, ?_⟩
      rw [parseWords_full hline, List.take_zero, storeWords_nil]
      rfl
    | succ room =>
      rw [parseWords_skip hline]
      refine ih (fun h => hrest (List.mem_cons_of_mem _ h)) rfl ?_ hroom
      rw [← List.drop_drop, hline]
      rfl
  | @last i w hw hclear =>
    subst hi
    cases room with
    | zero =>
      refine ⟨p.i, ?_⟩
      rw [parseWords_full hline, List.take_zero, storeWords_nil]
      rfl
    | succ room =>
      have hargs : p.argc < p.args.length := by omega
      have hzero : (0 : Byte) ≠ space := by decide
      refine ⟨p.i + w.length, ?_⟩
      rw [parseWords_word hw hclear hrest (Or.inr rfl) hline hargs, if_neg hzero,
        parseWords_end (drop_behind hline), List.take_succ_cons, List.take_nil,
        ← storeWords_cons hargs, storeWords_nil]
      rfl
  | @word i w x rest ws hw hclear hx h ih =>
    subst hx hi
    cases room with
    | zero =>
      refine ⟨p.i, ?_⟩
      rw [parseWords_full hline, List.take_zero, storeWords_nil]
      rfl
    | succ room =>
      rw [List.append_assoc] at hline
      have hargs : p.argc < p.args.length := by omega
      rw [parseWords_word hw hclear (fun h => hrest (List.mem_append_left _ h)) (Or.inl rfl) hline
        hargs, if_pos rfl]
      obtain ⟨p', hp'⟩ : ∃ p' : Parse, p' = ⟨p.line.set (p.i + w.length) 0,
        p.args.set p.argc (some p.i), p.argc + 1, p.i + w.length + 1⟩ := ⟨_, rfl⟩
      have hdrop : p'.line.drop p'.i = rest ++ 0 :: tail := by
        rw [hp', ← List.drop_drop, drop_behind hline]
        rfl
      have hroom' : p'.argc + room ≤ p'.args.length := by
        simp only [hp', List.length_set]
        omega
      have hrest' : 0 ∉ rest := fun h =>
        hrest (List.mem_append_right _ (List.mem_cons_of_mem _ h))
      obtain ⟨i', hrun⟩ := ih hrest' (by rw [hp']) hdrop hroom'
      refine ⟨i', ?_⟩
      rw [← hp', hrun, hp', List.take_succ_cons, ← storeWords_cons hargs, List.length_cons]
      have hcount : p.argc + 1 + (ws.take room).length = p.argc + ((ws.take room).length + 1) := by
        omega
      rw [hcount]
      rfl

end Words

section Splitting

variable {s text : List Byte} {ws : List (ℕ × List Byte)} {w : ℕ × List Byte}

theorem endWords_length (ws : List (ℕ × List Byte)) (text : List Byte) :
    (endWords ws text).length = text.length := by
  induction ws generalizing text with
  | nil => rfl
  | cons w ws ih =>
    refine (ih _).trans ?_
    rw [List.length_set]

theorem endWords_zero (ws : List (ℕ × List Byte)) {j : ℕ} (hj : text[j]? = some 0) :
    (endWords ws text)[j]? = some 0 := by
  induction ws generalizing text with
  | nil => exact hj
  | cons w ws ih =>
    apply ih
    rcases eq_or_ne (w.1 + w.2.length) j with rfl | hne
    · exact List.getElem?_set_self (List.getElem?_eq_some_iff.mp hj).1
    · rw [List.getElem?_set_ne hne, hj]

theorem endWords_end (hw : w ∈ ws) (hin : w.1 + w.2.length < text.length) :
    (endWords ws text)[w.1 + w.2.length]? = some 0 := by
  induction ws generalizing text with
  | nil => cases hw
  | cons v ws ih =>
    rcases List.mem_cons.mp hw with rfl | hw
    · have hset : (text.set (w.1 + w.2.length) 0)[w.1 + w.2.length]? = some 0 :=
        List.getElem?_set_self hin
      exact endWords_zero ws hset
    · apply ih hw
      rwa [List.length_set]

theorem endWords_elsewhere {j : ℕ} (hj : ∀ w ∈ ws, w.1 + w.2.length ≠ j) :
    (endWords ws text)[j]? = text[j]? := by
  induction ws generalizing text with
  | nil => rfl
  | cons w ws ih =>
    obtain ⟨hw, hws⟩ := List.forall_mem_cons.mp hj
    refine (ih hws).trans ?_
    rw [List.getElem?_set_ne hw]

theorem endWords_append (hin : ∀ w ∈ ws, w.1 + w.2.length < text.length) (tail : List Byte) :
    endWords ws (text ++ tail) = endWords ws text ++ tail := by
  induction ws generalizing text with
  | nil => rfl
  | cons w ws ih =>
    obtain ⟨hw, hws⟩ := List.forall_mem_cons.mp hin
    have hset : (text ++ tail).set (w.1 + w.2.length) 0 =
        text.set (w.1 + w.2.length) 0 ++ tail := List.set_append_left _ _ hw
    refine (congrArg (endWords ws) hset).trans (ih ?_)
    simpa only [List.length_set] using hws

structure InLine (s : List Byte) (w : ℕ × List Byte) : Prop where
  inside : w.1 + w.2.length ≤ s.length
  clear : space ∉ w.2
  bytes : ∀ k < w.2.length, s[w.1 + k]? = w.2[k]?
  behind : w.1 + w.2.length < s.length → s[w.1 + w.2.length]? = some space

theorem inLine_of_isRun {start : ℕ} {run : List Byte} (h : IsRun (· = space) 0 s start run) :
    InLine s (start, run) := by
  obtain ⟨before, after, hs, hstart, -, hafter⟩ := h.bounded
  rw [Nat.zero_add] at hstart
  subst hs hstart
  constructor
  · simp only [List.length_append]
    omega
  · exact fun hmem => h.clear space hmem rfl
  · intro k hk
    rw [List.append_assoc, List.getElem?_append_right (Nat.le_add_right _ _),
      Nat.add_sub_cancel_left, List.getElem?_append_left hk]
  · intro hless
    cases after with
    | nil =>
      simp only [List.length_append, List.append_nil] at hless
      omega
    | cons c after =>
      obtain rfl : c = space := hafter c rfl
      rw [← List.length_append, List.getElem?_append_right (le_refl _), Nat.sub_self]
      rfl

/-- A line after some of its words were ended in place. -/
structure EndsWords (s : List Byte) (ws : List (ℕ × List Byte)) (text : List Byte) : Prop where
  length : text.length = s.length + 1
  ended : ∀ w ∈ ws, ∃ x, text.drop w.1 = w.2 ++ 0 :: x
  changed : ∀ j, text[j]? ≠ (s ++ [0])[j]? →
    s[j]? = some space ∧ text[j]? = some 0 ∧ ∃ w ∈ ws, j = w.1 + w.2.length

theorem endWords_ends (hws : ∀ w ∈ ws, InLine s w) : EndsWords s ws (endWords ws (s ++ [0])) := by
  have hlen : (s ++ [0]).length = s.length + 1 := List.length_append
  constructor
  · rw [endWords_length, hlen]
  · intro w hw
    have hin := hws w hw
    have hinside := hin.inside
    refine ⟨(endWords ws (s ++ [0])).drop (w.1 + w.2.length + 1), ?_⟩
    apply List.ext_getElem?
    intro k
    rw [List.getElem?_drop]
    rcases lt_trichotomy k w.2.length with hk | rfl | hk
    · -- no other word ends inside this one
      have hbyte : s[w.1 + k]? = w.2[k]? := hin.bytes k hk
      have hend : ∀ v ∈ ws, v.1 + v.2.length ≠ w.1 + k := by
        intro v hv heq
        have hspace := (hws v hv).behind (by omega)
        rw [heq, hbyte] at hspace
        exact hin.clear (List.mem_of_getElem? hspace)
      rw [endWords_elsewhere hend, List.getElem?_append_left (by omega), hbyte,
        List.getElem?_append_left hk]
    · rw [endWords_end hw (by omega), List.getElem?_append_right (le_refl _), Nat.sub_self]
      rfl
    · obtain ⟨d, rfl⟩ := Nat.exists_eq_add_of_lt hk
      have hcons : w.2.length + d + 1 - w.2.length = d + 1 := by omega
      rw [List.getElem?_append_right (by omega), hcons, List.getElem?_cons_succ, List.getElem?_drop]
      congr 1
      omega
  · intro j hj
    by_cases hend : ∀ w ∈ ws, w.1 + w.2.length ≠ j
    · exact absurd (endWords_elsewhere hend) hj
    · push Not at hend
      obtain ⟨w, hw, rfl⟩ := hend
      have hin := (hws w hw).inside
      have hzero : (endWords ws (s ++ [0]))[w.1 + w.2.length]? = some 0 :=
        endWords_end hw (by omega)
      refine ⟨?_, hzero, w, hw, rfl⟩
      apply (hws w hw).behind
      by_contra hnot
      apply hj
      have hat : w.1 + w.2.length = s.length := by omega
      rw [hzero, hat, List.getElem?_concat_length]

theorem parseline_words (s : CString) {args : List (Option ℕ)} {maxArgs : ℕ} (hpos : 0 < maxArgs)
    (hroom : maxArgs + 1 ≤ args.length) (tail : List Byte) :
    ∃ ws line args', Scan (· = space) 0 s.val ws ∧
      parseline (s.val ++ 0 :: tail) args maxArgs = some (min ws.length maxArgs, line, args') ∧
      line.length = (s.val ++ 0 :: tail).length ∧ args'.length = args.length ∧
      ∀ w ∈ ws.head?, args'[0]? = some (some w.1) ∧ ∃ x, line.drop w.1 = w.2 ++ 0 :: x := by
  obtain ⟨ws, hscan⟩ := exists_scan (· = space) 0 s.val
  have hin : ∀ w ∈ ws.take maxArgs, InLine s.val w := by
    intro w hw
    exact inLine_of_isRun ((hscan.allRuns.mem w.1 w.2).mp (List.mem_of_mem_take hw))
  have hcount : (ws.take maxArgs).length = min ws.length maxArgs := by
    rw [List.length_take, min_comm]
  have hfits : 0 + maxArgs ≤ args.length := by omega
  obtain ⟨i', hrun⟩ : ∃ i', parseWords maxArgs ⟨s.val ++ 0 :: tail, args, 0, 0⟩ =
      some ⟨endWords (ws.take maxArgs) (s.val ++ 0 :: tail),
        storeWords args 0 (ws.take maxArgs), 0 + (ws.take maxArgs).length, i'⟩ :=
    parseWords_scan hscan s.property rfl rfl hfits
  have hlength : (storeWords args 0 (ws.take maxArgs)).length = args.length := by
    simp only [storeWords, List.length_append, List.length_take, List.length_map, List.length_drop]
    omega
  refine ⟨ws, endWords (ws.take maxArgs) (s.val ++ 0 :: tail),
    (storeWords args 0 (ws.take maxArgs)).set (ws.take maxArgs).length none, hscan, ?_,
    endWords_length _ _, (List.length_set ..).trans hlength, fun w hw => ?_⟩
  · rw [parseline, hrun]
    simp only [Option.bind_eq_bind, Option.bind_some, Nat.zero_add]
    rw [assign, if_pos (by omega), Option.bind_some, hcount]
  · obtain ⟨rest, rfl⟩ : ∃ rest, ws = w :: rest := by
      cases ws with
      | nil => cases hw
      | cons v rest =>
        cases hw
        exact ⟨rest, rfl⟩
    obtain ⟨m, rfl⟩ : ∃ m, maxArgs = m + 1 := ⟨maxArgs - 1, by omega⟩
    have hmem : w ∈ (w :: rest).take (m + 1) := List.mem_cons_self
    obtain ⟨x, hdrop⟩ := (endWords_ends hin).ended w hmem
    have hends : endWords ((w :: rest).take (m + 1)) (s.val ++ 0 :: tail) =
        endWords ((w :: rest).take (m + 1)) (s.val ++ [0]) ++ tail := by
      rw [← endWords_append, List.append_assoc]
      · rfl
      · intro v hv
        have := (hin v hv).inside
        rw [List.length_append, List.length_singleton]
        omega
    have hinside : w.1 ≤ (endWords ((w :: rest).take (m + 1)) (s.val ++ [0])).length := by
      by_contra hnot
      rw [List.drop_eq_nil_of_le (by omega)] at hdrop
      simp at hdrop
    refine ⟨?_, x ++ tail, ?_⟩
    · rw [List.take_succ_cons, List.length_cons, List.getElem?_set_ne (Nat.succ_ne_zero _)]
      rfl
    · rw [hends, List.drop_append_of_le_length hinside, hdrop, List.append_assoc]
      rfl

/-- For every line: its words in order, each ended in place, at most `maxArgs` of them. -/
theorem parseline_splits (s : CString) (args : List (Option ℕ)) (maxArgs : ℕ)
    (hroom : maxArgs + 1 ≤ args.length) :
    ∃ ws text, AllRuns (· = space) s.val ws ∧ EndsWords s.val (ws.take maxArgs) text ∧
      ∀ tail, parseline (s.val ++ 0 :: tail) args maxArgs =
        some (min ws.length maxArgs, text ++ tail,
          (ws.take maxArgs).map (fun w => some w.1) ++
            none :: args.drop (min ws.length maxArgs + 1)) := by
  obtain ⟨ws, hscan⟩ := exists_scan (· = space) 0 s.val
  have hall := hscan.allRuns
  have hin : ∀ w ∈ ws.take maxArgs, InLine s.val w := by
    intro w hw
    exact inLine_of_isRun ((hall.mem w.1 w.2).mp (List.mem_of_mem_take hw))
  refine ⟨ws, endWords (ws.take maxArgs) (s.val ++ [0]), hall, endWords_ends hin, ?_⟩
  intro tail
  have hcount : (ws.take maxArgs).length = min ws.length maxArgs := by
    rw [List.length_take, min_comm]
  have hle : (ws.take maxArgs).length < args.length := by
    rw [hcount]
    omega
  have hline : s.val ++ 0 :: tail = (s.val ++ [0]) ++ tail := by
    rw [List.append_assoc]
    rfl
  have hfits : 0 + maxArgs ≤ args.length := by omega
  obtain ⟨i', hrun⟩ : ∃ i', parseWords maxArgs ⟨s.val ++ 0 :: tail, args, 0, 0⟩ =
      some ⟨endWords (ws.take maxArgs) (s.val ++ 0 :: tail),
        storeWords args 0 (ws.take maxArgs), 0 + (ws.take maxArgs).length, i'⟩ :=
    parseWords_scan hscan s.property rfl rfl hfits
  have hends : endWords (ws.take maxArgs) (s.val ++ 0 :: tail) =
      endWords (ws.take maxArgs) (s.val ++ [0]) ++ tail := by
    rw [hline]
    apply endWords_append
    intro w hw
    have := (hin w hw).inside
    rw [List.length_append, List.length_singleton]
    omega
  have hassign : assign (storeWords args 0 (ws.take maxArgs)) (0 + (ws.take maxArgs).length) none =
      some ((ws.take maxArgs).map (fun w => some w.1) ++
        none :: args.drop (min ws.length maxArgs + 1)) := by
    have hmap : ((ws.take maxArgs).map fun w => some w.1).length = (ws.take maxArgs).length :=
      List.length_map _
    rw [assign, storeWords, List.take_zero, List.nil_append, Nat.zero_add, if_pos]
    · rw [List.set_append_right _ _ (le_of_eq hmap), hmap, Nat.sub_self, ← hcount,
        List.drop_eq_getElem_cons hle]
      rfl
    · rw [List.length_append, hmap, List.length_drop]
      omega
  rw [parseline, hrun]
  simp only [Option.bind_eq_bind, Option.bind_some, hassign, hends]
  rw [Nat.zero_add, hcount]

/-- Two words between spaces, and room for both. -/
theorem parseline_splits_two : ∃ ws text, AllRuns (· = space) [space, 0x6C, 0x73, space, 0x61] ws ∧
    EndsWords [space, 0x6C, 0x73, space, 0x61] (ws.take 2) text ∧
      ∀ tail, parseline ([space, 0x6C, 0x73, space, 0x61] ++ 0 :: tail) [none, none, none] 2 =
        some (min ws.length 2, text ++ tail,
          (ws.take 2).map (fun w => some w.1) ++
            none :: [none, none, none].drop (min ws.length 2 + 1)) :=
  parseline_splits ⟨[space, 0x6C, 0x73, space, 0x61], by decide⟩ [none, none, none] 2 (by decide)

example : parseline [space, 0x6C, 0x73, space, 0x61, 0] [none, none, none] 2 =
    some (2, [space, 0x6C, 0x73, 0, 0x61, 0], [some 1, some 4, none]) := by decide

end Splitting

section Input

variable {answer : ℕ → ℕ → ReadResult} {max len : ℕ} {buffer start : List Byte}
  {stdin before : Stdin}

/-- What `read` may bring: an error is negative, a count is at most the one asked for, and a
newline comes last. -/
structure LegalReads (answer : ℕ → ℕ → ReadResult) : Prop where
  failed : ∀ k count code, answer k count = .error code → code < 0
  count : ∀ k count bs, answer k count = .bytes bs → bs.length ≤ count
  newline_last : ∀ k count bs, answer k count = .bytes bs → newline ∉ bs.dropLast

/-- Between two calls of `read` the buffer holds what the calls brought. -/
structure Collected (max : ℕ) (start : List Byte) (before : Stdin) (buffer : List Byte)
    (stdin : Stdin) (len : ℕ) : Prop where
  fits : len ≤ max - 1
  length : buffer.length = start.length
  behind : buffer.drop max = start.drop max
  taken : stdin.delivered = before.delivered ++ buffer.take len

/-- A line of `n` bytes, from the first call to the last. -/
structure ReadsLine (answer : ℕ → ℕ → ReadResult) (max : ℕ) (start : List Byte) (before : Stdin)
    (n : ℕ) (out : LineRead) : Prop where
  fits : n ≤ max - 1
  taken : out.stdin.delivered = before.delivered ++ out.buffer.take n
  ended : out.buffer[n]? = some 0
  length : 0 ∉ out.buffer.take n → lzLength out.buffer = some n
  stops : (∃ text, out.buffer.take n = text ++ [newline] ∧ newline ∉ text) ∨
    newline ∉ out.buffer.take n ∧
      (n = max - 1 ∨ answer (out.stdin.calls - 1) (max - 1 - n) = .bytes [])

/-- A call of `read_line`: only the buffer is written, and an error is passed on or a line read. -/
structure ReturnsLine (answer : ℕ → ℕ → ReadResult) (max : ℕ) (start : List Byte) (before : Stdin)
    (out : LineRead) : Prop where
  length : out.buffer.length = start.length
  behind : out.buffer.drop max = start.drop max
  result : out.ret < 0 ∨ ∃ n : ℕ, out.ret = n ∧ ReadsLine answer max start before n out

theorem Collected.endLine (h : Collected max start before buffer stdin len) (hmax : 2 ≤ max)
    (hroom : max ≤ start.length)
    (hstops : (∃ text, buffer.take len = text ++ [newline] ∧ newline ∉ text) ∨
      newline ∉ buffer.take len ∧
        (len = max - 1 ∨ answer (stdin.calls - 1) (max - 1 - len) = .bytes [])) :
    ∃ out, endLine buffer stdin len = some out ∧ ReturnsLine answer max start before out := by
  have hfits := h.fits
  have hlength := h.length
  have hin : len < buffer.length := by omega
  have htake : (buffer.set len 0).take len = buffer.take len := List.take_set_of_le (le_refl _)
  refine ⟨⟨len, buffer.set len 0, stdin⟩, ?_, ?_, ?_, Or.inr ⟨len, rfl, ?_⟩⟩
  · rw [Lazux.endLine, assign, if_pos hin]
    rfl
  · rw [List.length_set, hlength]
  · rw [List.drop_set_of_lt (by omega)]
    exact h.behind
  · have hzero : (buffer.set len 0)[len]? = some 0 := List.getElem?_set_self hin
    refine ⟨hfits, ?_, hzero, ?_, ?_⟩
    · rw [htake]
      exact h.taken
    · intro hclean
      have hsplit : buffer.set len 0 = buffer.take len ++ 0 :: buffer.drop (len + 1) := by
        rw [List.set_eq_take_append_cons_drop, if_pos hin]
      rw [htake] at hclean
      rw [hsplit, lzLength_terminated hclean, List.length_take_of_le (le_of_lt hin)]
    · rw [htake]
      exact hstops

theorem Collected.deliver (h : Collected max start before buffer stdin len) (hmax : 2 ≤ max)
    (hroom : max ≤ start.length) {bs : List Byte} (hcount : bs.length ≤ max - 1 - len) :
    ∃ buffer', deliver buffer len bs = some buffer' ∧
      buffer'.take (len + bs.length) = buffer.take len ++ bs ∧
      Collected max start before buffer' ⟨stdin.calls + 1, stdin.delivered ++ bs⟩
        (len + bs.length) := by
  have hfits := h.fits
  have hlength := h.length
  have hin : len + bs.length ≤ buffer.length := by omega
  have hfront : (buffer.take len ++ bs).length = len + bs.length := by
    rw [List.length_append, List.length_take_of_le (by omega)]
  have htake : (buffer.take len ++ bs ++ buffer.drop (len + bs.length)).take (len + bs.length) =
      buffer.take len ++ bs := by
    rw [← hfront]
    exact List.take_left
  refine ⟨_, if_pos hin, htake, by omega, ?_, ?_, ?_⟩
  · rw [List.length_append, hfront, List.length_drop]
    omega
  · rw [List.drop_append, List.drop_eq_nil_of_le (by omega), hfront, List.drop_drop, ← h.behind,
      List.nil_append]
    congr 1
    omega
  · rw [htake, h.taken, List.append_assoc]

theorem readMore_returns (hlegal : LegalReads answer) (hmax : 2 ≤ max) (hroom : max ≤ start.length)
    (h : Collected max start before buffer stdin len) (hclean : newline ∉ buffer.take len) :
    ∃ out, readMore answer max buffer stdin len = some out ∧
      ReturnsLine answer max start before out := by
  induction hk : max - 1 - len using Nat.strongRecOn generalizing buffer stdin len with
  | _ k ih =>
    subst hk
    rw [readMore]
    by_cases hless : len < max - 1
    · rw [if_pos hless]
      cases hread : answer stdin.calls (max - 1 - len) with
      | error code =>
        exact ⟨_, rfl, h.length, h.behind, Or.inl (hlegal.failed _ _ _ hread)⟩
      | bytes bs =>
        have hcount := hlegal.count _ _ _ hread
        obtain ⟨buffer', hdeliver, htake, hnext⟩ := h.deliver hmax hroom hcount
        simp only [hdeliver]
        rcases List.eq_nil_or_concat bs with rfl | ⟨ds, c, hbs⟩
        · rw [dif_pos rfl]
          have hsame : buffer'.take len = buffer.take len := htake.trans (List.append_nil _)
          refine Collected.endLine hnext hmax hroom (Or.inr ⟨?_, Or.inr hread⟩)
          rw [hsame]
          exact hclean
        · rw [List.concat_eq_append] at hbs
          have hne : bs ≠ [] := by
            rw [hbs]
            exact List.append_ne_nil_of_right_ne_nil _ (List.cons_ne_nil _ _)
          have hds : newline ∉ ds := by
            have := hlegal.newline_last _ _ _ hread
            rwa [hbs, List.dropLast_concat] at this
          have htext : buffer'.take (len + bs.length) = buffer.take len ++ ds ++ [c] := by
            rw [htake, hbs, List.append_assoc]
          have hfront : newline ∉ buffer.take len ++ ds := by
            rw [List.mem_append, not_or]
            exact ⟨hclean, hds⟩
          have hpos := List.length_pos_iff.mpr hne
          have hlast : buffer'[len + bs.length - 1]? = some c := by
            have hfull : (buffer.take len ++ ds).length = len + bs.length - 1 := by
              have hlen := congrArg List.length htext
              have hfits := hnext.fits
              have hlength := hnext.length
              rw [List.length_take_of_le (by omega), List.length_append, List.length_singleton]
                at hlen
              omega
            rw [← List.getElem?_take_of_lt (Nat.sub_lt (by omega) Nat.one_pos), htext, ← hfull]
            exact List.getElem?_concat_length
          rw [dif_neg hne, hlast]
          by_cases hc : c = newline
          · simp only [if_pos hc]
            refine hnext.endLine hmax hroom (Or.inl ⟨_, ?_, hfront⟩)
            rw [htext, hc]
          · simp only [if_neg hc]
            refine ih _ (by omega) hnext ?_ rfl
            rw [htext, List.mem_append, not_or]
            exact ⟨hfront, fun hmem => hc (List.mem_singleton.mp hmem).symm⟩
    · rw [if_neg hless]
      have hfits := h.fits
      exact h.endLine hmax hroom (Or.inr ⟨hclean, Or.inl (by omega)⟩)

theorem readLine_returns (hlegal : LegalReads answer) (hmax : 2 ≤ max)
    (hroom : max ≤ buffer.length) (stdin : Stdin) :
    ∃ out, readLine answer max buffer stdin = some out ∧
      ReturnsLine answer max buffer stdin out := by
  have hstart : Collected max buffer stdin buffer stdin 0 :=
    ⟨Nat.zero_le _, rfl, rfl, (List.append_nil _).symm⟩
  exact readMore_returns hlegal hmax hroom hstart (List.not_mem_nil)

/-- Calls of `read_line` one after another, all of them successful, and the lines they gave. -/
inductive ReadsLines (answer : ℕ → ℕ → ReadResult) : Stdin → List (List Byte) → Prop where
  | start : ReadsLines answer ⟨0, []⟩ []
  | next {stdin : Stdin} {lines : List (List Byte)} (h : ReadsLines answer stdin lines) {max n : ℕ}
      {buffer : List Byte} {out : LineRead} (hmax : 2 ≤ max) (hroom : max ≤ buffer.length)
      (hread : readLine answer max buffer stdin = some out) (hret : out.ret = n) :
      ReadsLines answer out.stdin (lines ++ [out.buffer.take n])

theorem ReadsLines.stream (hlegal : LegalReads answer) {lines : List (List Byte)}
    (h : ReadsLines answer stdin lines) : stdin.delivered = lines.flatten := by
  induction h with
  | start => rfl
  | @next stdin lines h max n buffer out hmax hroom hread hret ih =>
    obtain ⟨out', hread', hreturns⟩ := readLine_returns hlegal hmax hroom stdin
    obtain rfl : out = out' := Option.some.inj (hread.symm.trans hread')
    rcases hreturns.result with hneg | ⟨m, hm, hline⟩
    · omega
    · obtain rfl : m = n := by omega
      rw [hline.taken, ih, List.flatten_append]
      simp

end Input

section Commands

variable {answer : ℕ → ℕ → ReadResult} {line name word tail : List Byte} {args : List (Option ℕ)}
  {ws : List (ℕ × List Byte)}

/-- The string in a line that was read, without its newline. -/
def lineText (text : List Byte) : List Byte :=
  (if text.getLast? = some newline then text.dropLast else text).takeWhile (· ≠ 0)

/-- What the shell may do with a line of these words. A name is the first word and `.elf`, with
its terminator, in the buffer it is built in. -/
inductive Responds (name : List Byte) : List (ℕ × List Byte) → Command → Prop where
  | again : Responds name [] .again
  | leave {w : ℕ × List Byte} (hw : w.2 = exitWord) : Responds name [w] .leave
  | tooManyArguments {w v : ℕ × List Byte} {ws : List (ℕ × List Byte)} (hw : w.2 = exitWord) :
      Responds name (w :: v :: ws) .tooManyArguments
  | tooLong {w : ℕ × List Byte} {ws : List (ℕ × List Byte)} (hw : w.2 ≠ exitWord)
      (hlong : 59 < w.2.length) : Responds name (w :: ws) .tooLong
  | exec {w : ℕ × List Byte} {ws : List (ℕ × List Byte)} {name' : List Byte}
      (hw : w.2 ≠ exitWord) (hshort : w.2.length ≤ 59) (hlength : name'.length = name.length)
      (hname : ∃ x, name' = w.2 ++ dotElf ++ 0 :: x) : Responds name (w :: ws) (.exec name')

theorem commandName_long (hword : 0 ∉ word) (hlong : 59 < word.length) :
    commandName (word ++ 0 :: tail) name = some .tooLong := by
  rw [commandName, lzLength_terminated hword]
  exact if_pos hlong

theorem commandName_short (hword : 0 ∉ word) (hshort : word.length ≤ 59)
    (hname : name.length = 64) :
    commandName (word ++ 0 :: tail) name =
      some (.exec (word ++ (dotElf ++ 0 :: name.drop (word.length + 5)))) := by
  have hdot : 0 ∉ dotElf := by decide
  have hcopy : lzCopy name (word ++ 0 :: tail) = some (word ++ 0 :: name.drop (word.length + 1)) :=
    lzCopy_terminated hword (by omega)
  have hroom : dotElf.length < (0 :: name.drop (word.length + 1)).length := by
    rw [List.length_cons, List.length_drop]
    have : dotElf.length = 4 := rfl
    omega
  have hconcat : lzConcat (word ++ 0 :: name.drop (word.length + 1)) (dotElf ++ [0]) =
      some (word ++ (dotElf ++ 0 :: name.drop (word.length + 5))) := by
    rw [lzConcat_terminated hword, lzCopy_terminated hdot hroom]
    have hbehind : (0 :: name.drop (word.length + 1)).drop (dotElf.length + 1) =
        name.drop (word.length + 5) := List.drop_drop
    rw [hbehind]
    rfl
  have hnot : ¬ 64 - 5 < word.length := by omega
  simp only [commandName, lzLength_terminated hword, hcopy, hconcat, Option.bind_eq_bind,
    Option.bind_some, if_neg hnot]

theorem takeWhile_terminated (text tail : List Byte) : 0 ∉ text.takeWhile (· ≠ 0) ∧
    ∃ tail', text ++ 0 :: tail = text.takeWhile (· ≠ 0) ++ 0 :: tail' := by
  induction text with
  | nil => exact ⟨List.not_mem_nil, tail, rfl⟩
  | cons c text ih =>
    obtain ⟨hclean, tail', htail⟩ := ih
    by_cases hc : c = 0
    · subst hc
      exact ⟨List.not_mem_nil, text ++ 0 :: tail, rfl⟩
    · rw [List.takeWhile_cons_of_pos (by simpa using hc), List.mem_cons, not_or]
      refine ⟨⟨Ne.symm hc, hclean⟩, tail', ?_⟩
      rw [List.cons_append, List.cons_append, htail]

theorem isRun_no_zero {s : CString} {start : ℕ} {run : List Byte}
    (h : IsRun (· = space) 0 s.val start run) : 0 ∉ run := by
  obtain ⟨before, after, hs, _⟩ := h.bounded
  intro hmem
  apply s.property
  rw [hs]
  exact List.mem_append_left _ (List.mem_append_right _ hmem)

theorem lzCompare_exit (hword : 0 ∉ word) (tail : List Byte) :
    ∃ r, lzCompare (word ++ 0 :: tail) (exitWord ++ [0]) = some r ∧ (r = 0 ↔ word = exitWord) := by
  have hexit : 0 ∉ exitWord := by decide
  refine ⟨_, lzCompare_terminated hword hexit tail [], ?_⟩
  exact (difference_orders ⟨word, hword⟩ ⟨exitWord, hexit⟩).equal.trans Subtype.ext_iff

theorem runLine_responds (s : CString) (hargs : 17 ≤ args.length) (hname : name.length = 64)
    (tail : List Byte) : ∃ c ws, runLine (s.val ++ 0 :: tail) args name = some c ∧
      AllRuns (· = space) s.val ws ∧ Responds name ws c := by
  obtain ⟨ws, line, args', hscan, hparse, -, -, hfirst⟩ :=
    parseline_words s (by decide : 0 < 16) hargs tail
  have hall := hscan.allRuns
  rw [runLine, hparse]
  cases ws with
  | nil => exact ⟨_, [], rfl, hall, .again⟩
  | cons w ws =>
    obtain ⟨harg, x, hbytes⟩ := hfirst w rfl
    have hword : 0 ∉ w.2 := isRun_no_zero ((hall.mem w.1 w.2).mp List.mem_cons_self)
    obtain ⟨r, hcompare, hr⟩ := lzCompare_exit hword x
    have hargc : min (w :: ws).length 16 ≠ 0 := by simp
    simp only [Option.bind_eq_bind, Option.bind_some, if_neg hargc, harg, hbytes, hcompare]
    by_cases hexit : w.2 = exitWord
    · rw [if_pos (hr.mpr hexit)]
      cases ws with
      | nil => exact ⟨_, [w], rfl, hall, .leave hexit⟩
      | cons v ws =>
        have htwo : min (w :: v :: ws).length 16 ≠ 1 := by
          simp only [List.length_cons]
          omega
        rw [if_neg htwo]
        exact ⟨_, _, rfl, hall, .tooManyArguments hexit⟩
    · rw [if_neg fun h => hexit (hr.mp h)]
      by_cases hlong : 59 < w.2.length
      · rw [commandName_long hword hlong]
        exact ⟨_, _, rfl, hall, .tooLong hexit hlong⟩
      · have hshort : w.2.length ≤ 59 := by omega
        rw [commandName_short hword hshort hname]
        refine ⟨_, _, rfl, hall, .exec hexit hshort ?_ ⟨_, (List.append_assoc _ _ _).symm⟩⟩
        simp only [List.length_append, List.length_cons, List.length_drop]
        have : dotElf.length = 4 := rfl
        omega

/-- Whatever line was read, the shell responds to its words. -/
theorem command_responds {n : ℕ} (hn : n ≠ 0) (hend : text[n]? = some 0)
    (hargs : 17 ≤ args.length) (hname : name.length = 64) :
    ∃ c ws, command n text args name = some c ∧
      AllRuns (· = space) (lineText (text.take n)) ws ∧ Responds name ws c := by
  obtain ⟨hlt, hzero⟩ := List.getElem?_eq_some_iff.mp hend
  obtain ⟨k, rfl⟩ := Nat.exists_eq_succ_of_ne_zero hn
  obtain ⟨c, hc⟩ : ∃ c, text[k]? = some c := ⟨_, List.getElem?_eq_getElem (by omega)⟩
  have hneg : ¬ ((k + 1 : ℕ) : ℤ) < 0 := by omega
  have hpos : ¬ ((k + 1 : ℕ) : ℤ) = 0 := by omega
  have hlast : text[((k + 1 : ℕ) : ℤ).toNat - 1]? = some c := hc
  have hsplit : text = text.take (k + 1) ++ 0 :: text.drop (k + 1 + 1) := by
    rw [← hzero, ← List.drop_eq_getElem_cons hlt, List.take_append_drop]
  have htext : text.take (k + 1) = text.take k ++ [c] := by
    rw [List.take_add_one, hc]
    rfl
  have hround : command ((k + 1 : ℕ) : ℤ) text args name =
      if c = newline then (assign text k 0).bind fun text => runLine text args name
      else runLine text args name := by
    simp only [command, if_neg hneg, if_neg hpos, hlast, Option.bind_eq_bind, Option.bind_some]
    rfl
  by_cases hnl : c = newline
  · -- the newline becomes the terminator
    have hkept : lineText (text.take (k + 1)) = (text.take k).takeWhile (· ≠ 0) := by
      rw [lineText, htext, hnl, List.getLast?_concat, if_pos rfl, List.dropLast_concat]
    have hset : assign text k 0 = some (text.take k ++ 0 :: text.drop (k + 1)) := by
      rw [assign, if_pos (by omega), List.set_eq_take_append_cons_drop, if_pos (by omega)]
    obtain ⟨hclean, tail, htail⟩ := takeWhile_terminated (text.take k) (text.drop (k + 1))
    obtain ⟨r, ws, hrun, hall, hresponds⟩ := runLine_responds ⟨_, hclean⟩ hargs hname tail
    refine ⟨r, ws, ?_, hkept ▸ hall, hresponds⟩
    rw [hround, if_pos hnl, hset, htail]
    exact hrun
  · have hkept : lineText (text.take (k + 1)) = (text.take (k + 1)).takeWhile (· ≠ 0) := by
      have hne : some c ≠ some newline := fun h => hnl (Option.some.inj h)
      rw [lineText, htext, List.getLast?_concat, if_neg hne]
    obtain ⟨hclean, tail, htail⟩ := takeWhile_terminated (text.take (k + 1)) (text.drop (k + 1 + 1))
    obtain ⟨r, ws, hrun, hall, hresponds⟩ := runLine_responds ⟨_, hclean⟩ hargs hname tail
    refine ⟨r, ws, ?_, hkept ▸ hall, hresponds⟩
    rw [hround, if_neg hnl, hsplit, htail]
    exact hrun

end Commands

section InputPath

variable {answer : ℕ → ℕ → ReadResult}

/-- The console, `line[256]`, `args[17]` and `name[64]`: no call leaves its buffer, and what the
lines hold is what the console delivered. -/
theorem shell_input_path (hlegal : LegalReads answer) :
    (∀ max buffer stdin, 2 ≤ max → max ≤ buffer.length →
      ∃ out, readLine answer max buffer stdin = some out ∧
        ReturnsLine answer max buffer stdin out) ∧
    (∀ stdin lines, ReadsLines answer stdin lines → stdin.delivered = lines.flatten) ∧
    ∀ line stdin args name, line.length = 256 → args.length = 17 → name.length = 64 →
      ∃ out c, readLine answer 256 line stdin = some out ∧
        command out.ret out.buffer args name = some c ∧
        (out.ret < 0 ∧ c = .failed ∨ out.ret = 0 ∧ c = .leave ∨
          0 < out.ret ∧ ∃ ws, AllRuns (· = space) (lineText (out.buffer.take out.ret.toNat)) ws ∧
            Responds name ws c) := by
  refine ⟨fun max buffer stdin hmax hroom => readLine_returns hlegal hmax hroom stdin,
    fun stdin lines h => h.stream hlegal, ?_⟩
  intro line stdin args name hline hargs hname
  obtain ⟨out, hread, hreturns⟩ := readLine_returns hlegal (by decide) (le_of_eq hline.symm) stdin
  rcases hreturns.result with hneg | ⟨n, hn, hreads⟩
  · refine ⟨out, .failed, hread, ?_, Or.inl ⟨hneg, rfl⟩⟩
    rw [command, if_pos hneg]
  · rcases eq_or_ne n 0 with rfl | hne
    · refine ⟨out, .leave, hread, ?_, Or.inr (Or.inl ⟨hn, rfl⟩)⟩
      rw [hn]
      rfl
    · obtain ⟨c, ws, hcommand, hall, hresponds⟩ :=
        command_responds hne hreads.ended (le_of_eq hargs.symm) hname
      refine ⟨out, c, hread, ?_, Or.inr (Or.inr ⟨by omega, ws, ?_, hresponds⟩)⟩
      · rw [hn, hcommand]
      · rw [hn]
        exact hall

def lsTyped (k count : ℕ) : ReadResult :=
  .bytes (if k = 0 then [0x6C, 0x73, newline].take count else [])

theorem lsTyped_legal : LegalReads lsTyped := by
  constructor
  · intro k count code h
    cases h
  · intro k count bs h
    cases h
    by_cases hk : k = 0
    · rw [if_pos hk]
      exact List.length_take_le _ _
    · rw [if_neg hk]
      exact Nat.zero_le _
  · intro k count bs h
    cases h
    by_cases hk : k = 0
    · rw [if_pos hk]
      match count with
      | 0 => decide
      | 1 => decide
      | 2 => decide
      | n + 3 =>
        rw [List.take_of_length_le (Nat.le_add_left 3 n)]
        decide
    · rw [if_neg hk]
      exact List.not_mem_nil

theorem shell_input_path_ls : ∃ out,
    readLine lsTyped 256 (List.replicate 256 0) ⟨0, []⟩ = some out ∧
      ReturnsLine lsTyped 256 (List.replicate 256 0) ⟨0, []⟩ out :=
  (shell_input_path lsTyped_legal).1 256 _ _ (by decide) (by rw [List.length_replicate])

end InputPath

end Lazux

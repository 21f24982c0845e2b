import Lazux.Console
import Lazux.Survival

/-! # The committed stream and its readers

What Enter commits, what the returned console reads have given out, and what still waits in
the ring, over a whole run with any number of readers. -/
namespace Lazux

open PagedMemory Run Trace

variable {L : Layout} {ram : Memory} {st st' s mid : KState} {regs : TrapFrame} {input : Input}
  {u u' : Uart} {e e' : Editor} {ls : List Label} {gone : List Byte}

def waiting (u : Uart) : List Byte := ringRange u u.rxTail u.rxCommit

/-- The registers of a `SYS_READ` on a descriptor of the console. -/
structure ConsoleRead (st : KState) (regs : TrapFrame) : Prop where
  ecall : regs.scause = 8
  number : regs.a7 = sysRead
  console : ∃ fd, fdOf regs.a0 = some fd ∧ (st.current.openFiles fd).type = .console

def readCount (regs : TrapFrame) : BitVec 32 := regs.a2.setWidth 32

/-- `user_range_ok` lets the kernel write the buffer. -/
def BufferWritable (st : KState) (regs : TrapFrame) : Prop :=
  userRangeOk st.phys.mem st.satp regs.a1 ((readCount regs).setWidth 64) pteW = true

def Returned (st : KState) (regs : TrapFrame) (st' : KState) : Prop :=
  (st'.frameOf st.currentProc).sepc = regs.sepc + 4 ∧
    (st'.frameOf st.currentProc).a0.msb = false

instance : Decidable (ConsoleRead st regs) :=
  decidable_of_iff (regs.scause = 8 ∧ regs.a7 = sysRead ∧
      ∃ fd, fdOf regs.a0 = some fd ∧ (st.current.openFiles fd).type = .console)
    ⟨fun ⟨h8, h7, hfd⟩ => ⟨h8, h7, hfd⟩, fun h => ⟨h.ecall, h.number, h.console⟩⟩

instance : Decidable (Returned st regs st') := inferInstanceAs (Decidable (_ ∧ _))

/-- All that was committed, and what each returned console read has found in its buffer. -/
structure Transcript where
  committed : List Byte
  reads : List (List Byte)

/-- A trap commits what lies between the old and the new `rx_commit`. -/
def observeReads (g : Transcript) (st : KState) (regs : TrapFrame) (st' : KState) : Transcript where
  committed := g.committed ++ ringRange st'.uart st.uart.rxCommit st'.uart.rxCommit
  reads :=
    if ConsoleRead st regs ∧ Returned st regs st' then
      g.reads ++ [bufferBytes st' regs.a1 (st'.frameOf st.currentProc).a0.toNat]
    else g.reads

def readWatch : Watch Transcript := ⟨fun _ => ⟨[], []⟩, observeReads⟩

/-- The caller goes on with `w` as its answer, behind the `ecall`. -/
structure ReadAnswer (st : KState) (regs : TrapFrame) (st' : KState) (w : Word) : Prop where
  current : st'.currentProc = st.currentProc
  frame : st'.frameOf st.currentProc =
    { (saveFrame regs st).frameOf st.currentProc with sepc := regs.sepc + 4, a0 := w }

/-- What a console read can come to. -/
inductive ReadOutcome (st : KState) (regs : TrapFrame) (st' : KState) : Prop
  /-- The buffer is refused: nothing is taken and nothing written. -/
  | refused (hb : ¬ BufferWritable st regs) (ha : ReadAnswer st regs st' eFault)
      (hu : st'.uart = st.uart) (hp : st'.phys = st.phys)
  | nothing (hb : BufferWritable st regs) (hz : readCount regs = 0) (ha : ReadAnswer st regs st' 0)
      (hu : st'.uart = st.uart) (hp : st'.phys = st.phys)
  /-- The reader sleeps; its frame is the one of the `ecall`. -/
  | waits (hz : readCount regs ≠ 0) (he : waiting st.uart = [])
      (ht : st'.uart.rxTail = st.uart.rxTail)
      (hp : st'.phys = st.phys)
      (hf : st'.frameOf st.currentProc = (saveFrame regs st).frameOf st.currentProc)
  /-- The next bytes are in the buffer, up to the end of a line at most. -/
  | returns (bytes : List Byte) (hne : bytes ≠ []) (hle : bytes.length ≤ (readCount regs).toNat)
      (hnext : waiting st.uart = bytes ++ waiting st'.uart)
      (hb : ∀ k (hk : k < bytes.length),
        userBytes st' (regs.a1 + BitVec.ofNat 64 k) = some bytes[k])
      (hinner : ∀ b ∈ bytes.dropLast, b ≠ newline)
      (hshort : bytes.length < (readCount regs).toNat → bytes.getLast? = some newline)
      (ha : ReadAnswer st regs st' (BitVec.ofNat 64 bytes.length))

section Ring

theorem Simulates.waiting (h : Simulates u e) : waiting u = e.unread := by
  have hrange := h.range (Nat.zero_le e.unread.length) (Nat.le_add_right _ e.line.length)
  rw [← h.commit, BitVec.add_zero] at hrange
  rw [Lazux.waiting, hrange, List.take_left]
  rfl

/-- What has become readable lies between the old and the new `rx_commit`. -/
theorem Simulates.range_grown (h : Simulates u e) (h' : Simulates u' e') {l : List Byte}
    (htail : u'.rxTail = u.rxTail) (htaken : e'.taken = e.taken)
    (hl : e'.committed = e.committed ++ l) : ringRange u' u.rxCommit u'.rxCommit = l := by
  have hunread : e'.unread = e.unread ++ l := by
    rw [Editor.unread, hl, htaken, List.drop_append_of_le_length h.taken_le]
    rfl
  have hmono : e.unread.length ≤ e'.unread.length := by
    rw [hunread, List.length_append]
    omega
  have hrange := h'.range hmono (Nat.le_add_right _ e'.line.length)
  rw [← h'.commit, htail, ← h.commit] at hrange
  rw [hrange, List.take_left, hunread, List.drop_left]

theorem steps_untaken (hls : takenBytes ls = []) (d : Uart × List Byte) (e : Editor) :
    ((ls.filterMap Label.uartEvent).foldl driverStep d).1.rxTail = d.1.rxTail ∧
    ((ls.filterMap Label.uartEvent).foldl editorStep e).taken = e.taken ∧
    ∃ l, ((ls.filterMap Label.uartEvent).foldl editorStep e).committed = e.committed ++ l := by
  induction ls generalizing d e with
  | nil => exact ⟨rfl, rfl, [], (List.append_nil _).symm⟩
  | cons label ls ih =>
    cases label with
    | received b =>
      obtain ⟨htail, htaken, l, hl⟩ := ih hls ((uartReceive d.1 b).uart, d.2) (e.receive b)
      obtain ⟨htaken', l', hl'⟩ := e.receive_committed b
      refine ⟨htail.trans (uartReceive_tail d.1 b), htaken.trans htaken', l' ++ l, ?_⟩
      rw [← List.append_assoc, ← hl']
      exact hl
    | taken b => cases hls
    | _ => exact ih hls d e

theorem committed_untaken (hls : takenBytes ls = []) {d : Uart × List Byte} (h : RunMatches d e) :
    ((ls.filterMap Label.uartEvent).foldl editorStep e).committed = e.committed ++
      ringRange ((ls.filterMap Label.uartEvent).foldl driverStep d).1 d.1.rxCommit
        ((ls.filterMap Label.uartEvent).foldl driverStep d).1.rxCommit := by
  obtain ⟨htail, htaken, l, hl⟩ := steps_untaken hls d e
  have hmatch := steps_preserve_matches h (ls.filterMap Label.uartEvent)
  rw [h.simulates.range_grown hmatch.simulates htail htaken hl]
  exact hl

/-- Reads commit nothing. -/
theorem committed_taken (bytes : List Byte) (d : Uart × List Byte) (e : Editor) :
    (((bytes.map Label.taken).filterMap Label.uartEvent).foldl driverStep d).1.rxCommit =
      d.1.rxCommit ∧
    (((bytes.map Label.taken).filterMap Label.uartEvent).foldl editorStep e).committed =
      e.committed := by
  induction bytes generalizing d e with
  | nil => exact ⟨rfl, rfl⟩
  | cons b bytes ih =>
    obtain ⟨hcommit, hcommitted⟩ := ih (driverStep d .getc) e.getc.2
    refine ⟨hcommit.trans ?_, hcommitted.trans ?_⟩
    · show (uartGetc d.1).2.rxCommit = d.1.rxCommit
      unfold uartGetc
      split <;> rfl
    · unfold Editor.getc
      split <;> rfl

theorem takenBytes_map (bytes : List Byte) : takenBytes (bytes.map Label.taken) = bytes := by
  induction bytes with
  | nil => rfl
  | cons b bytes ih => exact congrArg (List.cons b) ih

theorem takenBytes_heard (h : Heard ls) : takenBytes ls = [] := by
  apply List.filterMap_eq_nil_iff.mpr
  intro l hl
  obtain ⟨b, rfl⟩ := h l hl
  rfl

theorem takenBytes_passes {next : Slot} (h : Passes ls next) : takenBytes ls = [] := by
  obtain ⟨ms, hms, rfl⟩ := h
  rw [takenBytes_append, takenBytes_heard hms]
  rfl

theorem Editor.WellFormed.unread_last (h : e.WellFormed) (hne : e.unread ≠ []) :
    e.unread.getLast? = some newline := by
  have hlines : e.lines ≠ [] := by
    intro hnil
    apply hne
    rw [Editor.unread, Editor.committed, hnil]
    exact List.drop_nil
  have hsplit := List.dropLast_append_getLast hlines
  obtain ⟨typed, htyped, -⟩ := h.1 _ (List.getLast_mem hlines)
  have hend : e.committed = (e.lines.dropLast.flatten ++ typed) ++ [newline] := by
    rw [Editor.committed, ← hsplit, htyped]
    simp
  have hlast : e.committed.getLast? = some newline := by
    rw [hend, List.getLast?_concat]
  rw [← e.take_unread, List.getLast?_append_of_ne_nil _ hne] at hlast
  exact hlast

theorem RunMatches.taken {d d' : Uart × List Byte} {bytes : List Byte} (h : RunMatches d e)
    (h' : RunMatches d' e') (hd : d'.2 = d.2 ++ bytes) (hc : e'.committed = e.committed) :
    waiting d.1 = bytes ++ waiting d'.1 := by
  have htake := e.take_unread
  have htake' := e'.take_unread
  rw [← h.returned] at htake
  rw [← h'.returned, hd, hc, ← htake, List.append_assoc] at htake'
  rw [h.simulates.waiting, h'.simulates.waiting]
  exact (List.append_cancel_left htake').symm

end Ring

section Calls

theorem bufferOk_entered (hset : Settled L st) (regs : TrapFrame) :
    BufferOk (entered (saveFrame regs st)) ↔ BufferWritable st regs := by
  obtain ⟨-, -, ha1, ha2⟩ := called_regs hset regs
  obtain ⟨-, hst⟩ := hset.called regs
  rw [hset.steady.frame] at hst
  have hroot : (entered (saveFrame regs st)).rootOf (entered (saveFrame regs st)).currentProc =
      st.satp := hst.satp.symm
  have ha1' : ((entered (saveFrame regs st)).frameOf
    (entered (saveFrame regs st)).currentProc).a1 = regs.a1 := ha1
  have ha2' : ((entered (saveFrame regs st)).frameOf
    (entered (saveFrame regs st)).currentProc).a2 = regs.a2 := ha2
  rw [BufferOk, hroot, ha1', ha2']
  exact Iff.rfl

theorem readSize_entered (hset : Settled L st) (regs : TrapFrame) :
    (entered (saveFrame regs st)).readSize = readCount regs := by
  obtain ⟨-, -, -, ha2⟩ := called_regs hset regs
  exact congrArg (BitVec.setWidth 32) ha2

theorem readsFrom_entered (hset : Settled L st) (regs : TrapFrame) (fd : Fin 16) (type : FileType) :
    ReadsFrom (entered (saveFrame regs st)) fd type ↔
      fdOf regs.a0 = some fd ∧ (st.current.openFiles fd).type = type := by
  obtain ⟨-, ha0, -⟩ := called_regs hset regs
  have ha0' : ((entered (saveFrame regs st)).frameOf
    (entered (saveFrame regs st)).currentProc).a0 = regs.a0 := ha0
  rw [ReadsFrom, ha0', called_file]

theorem readAnswer_returns {w : Word} {r : Slot × KState} (hset : Settled L st)
    (hr : Returns (entered (saveFrame regs st)) w r) :
    ReadAnswer st regs (resume r.1 r.2) w := by
  refine ⟨hr.2.1, ?_⟩
  have hframe := frameOf_saveFrame regs st
  rw [hset.steady.frame] at hframe
  rw [hframe]
  exact hr.frame hset.steady

theorem sysReadCall_refused {tf : Slot} (hst : Steady tf st) (hb : ¬ BufferOk st) :
    sysReadCall input tf st = st.answer tf eFault := by
  have hframe := hst.frame
  subst hframe
  have hb' : userRangeOk st.phys.mem (st.rootOf st.currentProc) (st.frameOf st.currentProc).a1
      (((st.frameOf st.currentProc).a2.setWidth 32).setWidth 64) pteW = false := by
    simpa [BufferOk] using hb
  unfold sysReadCall
  dsimp only
  rw [hb']
  rfl

theorem sysReadCall_nothing {tf : Slot} {fd : Fin 16} (hst : Steady tf st) (hb : BufferOk st)
    (hfd : ReadsFrom st fd .console) (hz : st.readSize = 0) :
    sysReadCall input tf st = st.answer tf 0 := by
  have hframe := hst.frame
  subst hframe
  have hz' : (st.frameOf st.currentProc).a2.setWidth 32 = (0 : BitVec 32) := hz
  unfold BufferOk at hb
  unfold sysReadCall
  dsimp only
  rw [hb, hfd.1]
  dsimp only
  rw [hfd.2, hz']
  rfl

theorem answered_read {w : Word} (hset : Settled L st)
    (hcall : sysReadCall input st.sscratch (entered (saveFrame regs st)) =
      (entered (saveFrame regs st)).answer st.sscratch w)
    (h8 : regs.scause = 8) (h7 : regs.a7 = sysRead) :
    takeTrap L regs input st =
      .ok (resume st.sscratch ((entered (saveFrame regs st)).setA0 st.sscratch w)) := by
  rw [takeTrap, trapHandler_read hset h8 h7, hcall]
  rfl

theorem readAnswer_answered (hset : Settled L st) (regs : TrapFrame) (w : Word) :
    ReadAnswer st regs (resume st.sscratch
      ((entered (saveFrame regs st)).setA0 st.sscratch w)) w := by
  obtain ⟨-, hst⟩ := hset.called regs
  exact @readAnswer_returns _ _ _ _ (st.sscratch, _) hset (returns_answer hst rfl rfl w)

theorem Delivery.length_lt {buffer : Addr} {size : BitVec 32} {bytes : List Byte}
    (h : Delivery L st buffer size.toNat bytes s) : bytes.length < 2 ^ 32 :=
  h.length_le.trans_lt size.isLt

theorem waiting_eq_nil (h : Simulates u e) : waiting u = [] ↔ (uartGetc u).1 = none := by
  rw [h.waiting, h.getc.1]
  unfold Editor.getc
  cases e.unread with
  | nil => exact iff_of_true rfl rfl
  | cons c rest => exact iff_of_false (List.cons_ne_nil c rest) (Option.some_ne_none c)

theorem scause_saveFrame (hset : Settled L st) (regs : TrapFrame) :
    (saveFrame regs st).scause = regs.scause := by
  rw [KState.scause, ← ((calm_saveFrame regs st).steady hset.steady).frame, frameOf_saveFrame]

theorem Handled.readCall {r : Slot × KState} (h : Handled L (saveFrame regs st) ls r)
    (hset : Settled L st) (h8 : regs.scause = 8) (h7 : regs.a7 = sysRead) :
    ReadCall L (entered (saveFrame regs st)) ls r := by
  have hcause := (scause_saveFrame hset regs).trans h8
  have hnumber : (entered (saveFrame regs st)).a7 = sysRead := (called_regs hset regs).1.trans h7
  cases h with
  | tick hm =>
    rw [hcause] at hm
    cases hm
  | device hm =>
    rw [hcause] at hm
    cases hm
  | fault _ hne => exact absurd hcause hne
  | call _ hserved =>
    cases hserved with
    | reads _ hr => exact hr
    | other _ _ _ hne => exact absurd hnumber hne
    | forked h => exact absurd (hnumber.symm.trans h) (by decide)
    | forkFailed h => exact absurd (hnumber.symm.trans h) (by decide)
    | reaped h => exact absurd (hnumber.symm.trans h) (by decide)
    | childless h => exact absurd (hnumber.symm.trans h) (by decide)
    | waits h => exact absurd (hnumber.symm.trans h) (by decide)
    | exits h => exact absurd (hnumber.symm.trans h) (by decide)

theorem Does.trap_driver {r : Slot × KState} (h : Does L (saveFrame regs st) ls r)
    (gone : List Byte) : (ls.filterMap Label.uartEvent).foldl driverStep (st.uart, gone) =
      ((resume r.1 r.2).uart, gone ++ takenBytes ls) :=
  (h.driver gone).symm

theorem readOutcome_waits {r : Slot × KState} (hset : Settled L st)
    (hmatch : RunMatches (st.uart, gone) e) (hz : readCount regs ≠ 0)
    (he : (uartGetc st.uart).1 = none) (hblocked : Blocked (entered (saveFrame regs st)) r)
    (hls : Passes ls r.1) (hdoes : Does L (saveFrame regs st) ls r) :
    ReadOutcome st regs (resume r.1 r.2) := by
  have hdriver := hdoes.trap_driver gone
  obtain ⟨htail, -⟩ := steps_untaken (takenBytes_passes hls) (st.uart, gone) e
  rw [hdriver] at htail
  have hframe := frameOf_saveFrame regs st
  rw [hset.steady.frame] at hframe
  refine .waits hz ((waiting_eq_nil hmatch.simulates).mpr he) htail hblocked.1 ?_
  rw [hframe]
  exact hblocked.frame hset.steady

theorem Delivery.buffer {r : Slot × KState} {bytes : List Byte} (hset : Settled L st)
    (hd : Delivery L (entered (saveFrame regs st))
      ((entered (saveFrame regs st)).frameOf (entered (saveFrame regs st)).currentProc).a1
      (entered (saveFrame regs st)).readSize.toNat bytes s)
    (hrs : r.2 = s.setA0 (entered (saveFrame regs st)).currentProc (BitVec.ofNat 64 bytes.length))
    (k : ℕ) (hk : k < bytes.length) :
    userBytes (resume r.1 r.2) (regs.a1 + BitVec.ofNat 64 k) = some bytes[k] := by
  obtain ⟨hsound, hst⟩ := hset.called regs
  rw [hset.steady.frame] at hst
  obtain ⟨-, -, ha1, -⟩ := called_regs hset regs
  have ha1' : ((entered (saveFrame regs st)).frameOf
    (entered (saveFrame regs st)).currentProc).a1 = regs.a1 := ha1
  rw [ha1'] at hd
  rw [hrs]
  exact Deposited.userBytes ⟨hd.reading.copying, hd.reading.stored⟩ hsound hst hk

theorem readOutcome_returns {r : Slot × KState} {bytes : List Byte} (hset : Settled L st)
    (hmatch : RunMatches (st.uart, gone) e) (hwell : e.WellFormed)
    (hd : Delivery L (entered (saveFrame regs st))
      ((entered (saveFrame regs st)).frameOf (entered (saveFrame regs st)).currentProc).a1
      (entered (saveFrame regs st)).readSize.toNat bytes s)
    (hrs : r.2 = s.setA0 (entered (saveFrame regs st)).currentProc (BitVec.ofNat 64 bytes.length))
    (hr : Returns (entered (saveFrame regs st)) (BitVec.ofNat 64 bytes.length) r)
    (hdoes : Does L (saveFrame regs st) (bytes.map .taken) r) :
    ReadOutcome st regs (resume r.1 r.2) := by
  have hbuffer := hd.buffer hset hrs
  rw [readSize_entered hset regs] at hd
  have hdriver := hdoes.trap_driver gone
  rw [takenBytes_map] at hdriver
  have hmatch' := steps_preserve_matches hmatch ((bytes.map Label.taken).filterMap Label.uartEvent)
  rw [hdriver] at hmatch'
  have hnext := hmatch.taken hmatch' rfl (committed_taken bytes (st.uart, gone) e).2
  refine .returns bytes hd.nonempty hd.length_le hnext hbuffer hd.inner (fun hlt => ?_)
    (readAnswer_returns hset hr)
  rcases hd.stop hlt with hlast | hempty
  · exact hlast
  · -- an empty ring means that the whole of a line has been read
    have hring : (resume r.1 r.2).uart = s.uart := by
      rw [hrs]
      rfl
    have hnil := (waiting_eq_nil hmatch'.simulates).mpr (hring ▸ hempty)
    rw [hnil, List.append_nil] at hnext
    rw [← hnext, hmatch.simulates.waiting]
    apply hwell.unread_last
    rw [← hmatch.simulates.waiting, hnext]
    exact hd.nonempty

theorem Step.readOutcome (hr : Reachable L ram st) (hc : ConsoleRead st regs)
    (hs : Step L st (.trap regs input) st') : ReadOutcome st regs st' := by
  have hset := reachable_settled hr
  obtain ⟨hsound, hst⟩ := hset.called regs
  obtain ⟨h8, h7, fd, hfd⟩ := hc
  have hreads := (readsFrom_entered hset regs fd .console).mpr hfd
  obtain ⟨es, hes⟩ := reachable_driven hr
  have hmatch : RunMatches (st.uart, (driverRun es).2) (editorRun es) := by
    rw [← hes]
    exact run_matches es
  cases hs with
  | trap _ _ _ hd ht =>
    by_cases hb : BufferOk (entered (saveFrame regs st))
    · have hb' := (bufferOk_entered hset regs).mp hb
      by_cases hz : readCount regs = 0
      · rw [answered_read hset (sysReadCall_nothing hst hb hreads
          ((readSize_entered hset regs).trans hz)) h8 h7] at ht
        cases ht
        exact .nothing hb' hz (readAnswer_answered hset regs 0) rfl rfl
      · obtain ⟨ls, r, hdoes, hsteady, hhandled, rfl⟩ := takeTrap_does hset.sound hset.steady ht
        have hread := hhandled.readCall hset h8 h7
        have hsize := readSize_entered hset regs
        cases hread with
        | badBuffer hbad => exact absurd hb hbad
        | badFd _ hno => exact absurd hreads (hno fd .console (by decide))
        | nothing _ _ _ hzero => exact absurd (hsize.symm.trans hzero) hz
        | waits _ _ _ _ he hblocked hls =>
          exact readOutcome_waits hset hmatch hz he hblocked hls hdoes
        | delivers _ _ _ _ bytes s hd hrs hret =>
          exact readOutcome_returns hset hmatch (run_lines_wellFormed es) hd hrs hret hdoes
        | file _ fd' hfd' =>
          have hfd' := (readsFrom_entered hset regs fd' .ramdisk).mp hfd'
          cases hfd.1.symm.trans hfd'.1
          cases hfd.2.symm.trans hfd'.2
    · rw [answered_read hset (sysReadCall_refused hst hb) h8 h7] at ht
      cases ht
      exact .refused (fun h => hb ((bufferOk_entered hset regs).mpr h))
        (readAnswer_answered hset regs eFault) rfl rfl

end Calls

section Runs

variable {g : Transcript} {r : Slot × KState} {bytes : List Byte}

theorem Handled.untaken (h : Handled L (saveFrame regs st) ls r) (hset : Settled L st)
    (hc : ¬ ConsoleRead st regs) : takenBytes ls = [] := by
  have hdied : ∀ {ms : List Label} {pid : BitVec 32}, Passes ms r.1 →
      takenBytes (.died pid :: ms) = [] := by
    intro ms pid hms
    have hnil := takenBytes_passes hms
    exact hnil
  cases h with
  | tick _ hls => exact takenBytes_passes hls
  | device _ _ hls => exact takenBytes_heard hls
  | fault _ _ hls => exact hdied hls
  | call hcause hserved =>
    cases hserved with
    | forked => rfl
    | forkFailed => rfl
    | reaped => rfl
    | childless => rfl
    | waits _ _ _ _ hls => exact takenBytes_passes hls
    | exits _ hls => exact hdied hls
    | other => rfl
    | reads h7 hread =>
      cases hread with
      | badBuffer => rfl
      | badFd => rfl
      | nothing => rfl
      | waits _ _ _ _ _ _ hls => exact takenBytes_passes hls
      | file => rfl
      | delivers _ fd hfd =>
        refine absurd ⟨?_, ?_, fd, (readsFrom_entered hset regs fd .console).mp hfd⟩ hc
        · exact (scause_saveFrame hset regs).symm.trans hcause
        · exact (called_regs hset regs).1.symm.trans h7

theorem observeReads_skip (h : ¬ (ConsoleRead st regs ∧ Returned st regs st')) :
    (observeReads g st regs st').reads = g.reads := if_neg h

theorem observeReads_add (h : ConsoleRead st regs) (hret : Returned st regs st') :
    (observeReads g st regs st').reads =
      g.reads ++ [bufferBytes st' regs.a1 (st'.frameOf st.currentProc).a0.toNat] :=
  if_pos ⟨h, hret⟩

theorem ReadAnswer.returned {w : Word} (h : ReadAnswer st regs st' w) (hw : w.msb = false) :
    Returned st regs st' := by
  unfold Returned
  rw [h.frame]
  exact ⟨rfl, hw⟩

theorem observeReads_returns (hc : ConsoleRead st regs)
    (hlen : bytes.length < 2 ^ 32) (ha : ReadAnswer st regs st' (BitVec.ofNat 64 bytes.length))
    (hb : ∀ k (hk : k < bytes.length),
      userBytes st' (regs.a1 + BitVec.ofNat 64 k) = some bytes[k]) :
    (observeReads g st regs st').reads = g.reads ++ [bytes] := by
  have hlength : (st'.frameOf st.currentProc).a0.toNat = bytes.length := by
    rw [ha.frame]
    exact (BitVec.toNat_ofNat ..).trans (Nat.mod_eq_of_lt (by omega))
  rw [observeReads_add hc (ha.returned (msb_ofNat hlen)), hlength, bufferBytes_eq hb]

theorem ReadAnswer.not_returned {w : Word} (h : ReadAnswer st regs st' w) (hw : w.msb = true) :
    ¬ Returned st regs st' := by
  rintro ⟨-, hmsb⟩
  rw [h.frame] at hmsb
  exact absurd (hw.symm.trans hmsb) (by decide)

/-- A trap adds to the record what its actions have taken from the ring, and it either takes
or lets others deliver. -/
theorem Handled.observed (h : Handled L (saveFrame regs st) ls r) (hset : Settled L st) :
    (observeReads g st regs (resume r.1 r.2)).reads.flatten = g.reads.flatten ++ takenBytes ls ∧
      (takenBytes ls = [] ∨ ∃ bytes : List Byte, ls = bytes.map .taken) := by
  have skipped : takenBytes ls = [] →
      (observeReads g st regs (resume r.1 r.2)).reads.flatten = g.reads.flatten →
      (observeReads g st regs (resume r.1 r.2)).reads.flatten = g.reads.flatten ++ takenBytes ls ∧
        (takenBytes ls = [] ∨ ∃ bytes : List Byte, ls = bytes.map .taken) := by
    intro hls hreads
    rw [hls, List.append_nil]
    exact ⟨hreads, Or.inl rfl⟩
  by_cases hc : ConsoleRead st regs
  · have hread := h.readCall hset hc.ecall hc.number
    obtain ⟨fd, hfd⟩ := hc.console
    have hreads := (readsFrom_entered hset regs fd .console).mpr hfd
    cases hread with
    | badBuffer _ hret =>
      apply skipped rfl
      rw [observeReads_skip fun hadd => (readAnswer_returns hset hret).not_returned
        (by decide) hadd.2]
    | badFd _ hno => exact absurd hreads (hno fd .console (by decide))
    | nothing _ _ _ _ hret =>
      apply skipped rfl
      rw [@observeReads_returns _ _ _ g [] hc (by decide) (readAnswer_returns hset hret)
        (fun k hk => absurd hk (Nat.not_lt_zero k)), List.flatten_append]
      exact List.append_nil _
    | waits _ _ _ _ _ hblocked hls =>
      apply skipped (takenBytes_passes hls)
      rw [observeReads_skip]
      rintro ⟨-, hsepc, -⟩
      have hframe : (resume r.1 r.2).frameOf st.currentProc = _ := hblocked.frame hset.steady
      rw [hframe] at hsepc
      have hsepc : regs.sepc = regs.sepc + 4 := hsepc
      exact absurd (left_eq_add.mp hsepc) (by decide)
    | delivers _ _ _ _ bytes s hd hrs hret =>
      refine ⟨?_, Or.inr ⟨bytes, rfl⟩⟩
      rw [observeReads_returns hc hd.length_lt (readAnswer_returns hset hret) (hd.buffer hset hrs),
        List.flatten_append, takenBytes_map]
      exact congrArg (g.reads.flatten ++ ·) (List.append_nil bytes)
    | file _ fd' hfd' =>
      have hfd' := (readsFrom_entered hset regs fd' .ramdisk).mp hfd'
      cases hfd.1.symm.trans hfd'.1
      cases hfd.2.symm.trans hfd'.2
  · apply skipped (h.untaken hset hc)
    rw [observeReads_skip fun hadd => hc hadd.1]

/-- The record of a run is that of its driver: what is committed is what the editor has, and the
reads have what the driver has handed out. -/
def Recorded (g : Transcript) (st : KState) : Prop :=
  ∃ es, driverRun es = (st.uart, g.reads.flatten) ∧ g.committed = (editorRun es).committed

theorem ringRange_self (u : Uart) (a : BitVec 32) : ringRange u a a = [] := by
  rw [ringRange, sub_self]
  rfl

theorem Step.recorded (hr : Reachable L ram st) (hs : Step L st (.trap regs input) st')
    (h : Recorded g st) : Recorded (observeReads g st regs st') st' := by
  have hset := reachable_settled hr
  obtain ⟨es, hrun, hcommitted⟩ := h
  have hmatch := run_matches es
  rw [hrun] at hmatch
  cases hs with
  | trap _ _ _ hd ht =>
    obtain ⟨ls, r, hdoes, -, hhandled, rfl⟩ := takeTrap_does hset.sound hset.steady ht
    obtain ⟨hreads, hkind⟩ := @Handled.observed _ _ _ _ g _ hhandled hset
    have hdriver := hdoes.trap_driver g.reads.flatten
    refine ⟨es ++ ls.filterMap Label.uartEvent, ?_, ?_⟩
    · rw [driverRun, List.foldl_append, ← driverRun, hrun, hdriver, hreads]
    · rw [editorRun, List.foldl_append, ← editorRun]
      show g.committed ++ ringRange _ st.uart.rxCommit _ = _
      rcases hkind with huntaken | ⟨bytes, rfl⟩
      · have hgrown := committed_untaken huntaken hmatch
        rw [hdriver] at hgrown
        rw [hgrown, hcommitted]
      · obtain ⟨hcommit, hsame⟩ := committed_taken bytes (st.uart, g.reads.flatten) (editorRun es)
        rw [hdriver] at hcommit
        have hcommit : (resume r.1 r.2).uart.rxCommit = st.uart.rxCommit := hcommit
        rw [hsame, hcommit, ringRange_self, List.append_nil, hcommitted]

theorem watched_recorded
    (h : Watched L ram ⟨fun _ => True, fun _ => True⟩ readWatch g st) : Recorded g st := by
  induction h with
  | boot st hboot =>
    refine ⟨[], ?_, rfl⟩
    rw [booted_uart hboot]
    rfl
  | store h hs ih =>
    cases hs with
    | store va b pa ht => exact ih
  | trap h hs _ _ ih => exact hs.recorded h.conducted.reachable ih

/-- In every run, with any number of readers, the returned console reads and the ring hold the
committed lines in order and once each; and every console read is refused for its buffer, asks for
nothing, sleeps without a trace or returns the next bytes of the stream, up to the end of a line
at most, and short of its size only there. -/
theorem console_reads_deliver
    (h : Watched L ram ⟨fun _ => True, fun _ => True⟩ readWatch g st) :
    g.reads.flatten ++ waiting st.uart = g.committed ∧
    (∃ lines : List (List Byte), g.committed = lines.flatten ∧
      ∀ l ∈ lines, ∃ typed, l = typed ++ [newline] ∧ newline ∉ typed) ∧
    ∀ regs, ConsoleRead st regs →
      (∀ input st', Step L st (.trap regs input) st' → ReadOutcome st regs st') ∧
      (BufferWritable st regs → readCount regs = 0 →
        ∀ input, ∃ st', Step L st (.trap regs input) st') := by
  have hr := h.conducted.reachable
  have hset := reachable_settled hr
  obtain ⟨es, hrun, hcommitted⟩ := watched_recorded h
  have hmatch := run_matches es
  rw [hrun] at hmatch
  refine ⟨?_, ⟨(editorRun es).lines, hcommitted, (run_lines_wellFormed es).1⟩,
    fun regs hc => ⟨?_, ?_⟩⟩
  · have hreturned : g.reads.flatten = _ := hmatch.returned
    rw [hmatch.simulates.waiting, hcommitted, hreturned]
    exact (editorRun es).take_unread
  · intro input st' hs
    exact hs.readOutcome hr hc
  · intro hb hz input
    obtain ⟨h8, h7, fd, hfd⟩ := hc
    obtain ⟨-, hst⟩ := hset.called regs
    have hcall := @sysReadCall_nothing _ input _ _ hst ((bufferOk_entered hset regs).mpr hb)
      ((readsFrom_entered hset regs fd .console).mpr hfd) ((readSize_entered hset regs).trans hz)
    refine ⟨_, .trap st regs input _ (fun hmsb => ?_) (answered_read hset hcall h8 h7)⟩
    rw [h8] at hmsb
    exact absurd hmsb (by decide)

/-- A read comes back when a byte is there and the buffer is proper. -/
theorem Conducted.read_returns (input : Input) (h : Conducted L ram harmless st)
    (hc : ConsoleRead st regs) (hb : BufferWritable st regs)
    (hp : ProperRange regs.a1 (readCount regs).toNat) (hz : readCount regs ≠ 0)
    (hw : waiting st.uart ≠ []) : ∃ st', Step L st (.trap regs input) st' := by
  have hset := reachable_settled h.reachable
  obtain ⟨h8, h7, fd, hfd, htype⟩ := hc
  obtain ⟨-, ha0, ha1, ha2⟩ := called_regs hset regs
  have hready : st.uart.rxCommit ≠ st.uart.rxTail := by
    intro he
    apply hw
    rw [waiting, he, ringRange_self]
  have hget : uartGetc (entered (saveFrame regs st)).uart =
      (some (st.uart.rxBuf (ringSlot st.uart.rxTail)),
        { st.uart with rxTail := st.uart.rxTail + 1 }) := if_neg hready
  have hok := (bufferOk_entered hset regs).mpr hb
  have hsize := (readSize_entered hset regs).trans_ne hz
  obtain ⟨r, hr⟩ := @Serving.reads_console _ _ input fd _ _ (h.serving regs)
    (by rw [(h.serving regs).steady.satp]; exact hok) (by
      rw [show
        ((entered (saveFrame regs st)).frameOf (entered (saveFrame regs st)).currentProc).a1 =
        regs.a1 from ha1, show ((entered (saveFrame regs st)).frameOf
          (entered (saveFrame regs st)).currentProc).a2 = regs.a2 from ha2]
      exact hp) (by
      rw [show
        ((entered (saveFrame regs st)).frameOf (entered (saveFrame regs st)).currentProc).a0 =
        regs.a0 from ha0]
      exact hfd) (by
      rw [called_file]
      exact htype) hsize hget
  have hret : trapHandler L input st.sscratch (saveFrame regs st) = _ :=
    trapHandler_read hset h8 h7
  have hfr : (entered (saveFrame regs st)).currentProc = st.sscratch := hset.steady.frame.symm
  rw [hfr] at hr
  rw [hr] at hret
  refine ⟨resume r.1 r.2, .trap _ _ _ _ (fun hmsb => ?_) (bind_eq_ok.mpr ⟨r, hret, rfl⟩)⟩
  rw [h8] at hmsb
  exact absurd hmsb (by decide)

def typedTrap : TrapFrame := { TrapFrame.zero with scause := externalInterrupt }

def lineCall : TrapFrame :=
  { TrapFrame.zero with scause := 8, a7 := sysRead, a1 := 0x400800, a2 := 8 }

def typedLine : List Byte := [0x61, newline]

theorem typed_waiting : waiting (uartIntr Uart.init typedLine) = typedLine := by decide

theorem line_typed : ∃ st st', kmain smallLayout selfRam = .ok st ∧
    Step smallLayout st (.trap typedTrap ⟨⟨uart0Irq, typedLine⟩, []⟩) st' ∧
    Conducted smallLayout selfRam harmless st' ∧ st'.uart = uartIntr Uart.init typedLine ∧
    st'.current.openFiles = initProcessFds ∧
    ∃ n, entryOf st' st'.currentProc (pageNo 0x400800) = userWord n (pteU ||| pteR ||| pteW) := by
  obtain ⟨st, h⟩ := boot_returns selfImage
  have hrun := self_behaves h
  obtain ⟨elf, phoff, phnum, start, pl, maxEnd, -, hinst, -, himg⟩ := installed h
  obtain ⟨rfl, -, -⟩ := himg selfImage
  obtain ⟨n, -, he, -⟩ := hinst.entry_some (List.nodup_singleton _) (List.mem_singleton_self _)
    (by decide)
  have htyped := hrun.hears typedTrap rfl typedLine []
  set st' := resume st.sscratch (typedLine.foldl uartByte (saveFrame typedTrap st)) with hst'
  have hstep : Step smallLayout st (.trap typedTrap ⟨⟨uart0Irq, typedLine⟩, []⟩) st' :=
    .trap _ _ _ _ (fun _ => Or.inr (by decide)) htyped
  have hrun' : Conducted smallLayout selfRam harmless st' :=
    .trap hrun hstep (fun h8 => absurd h8 (by decide)) fun h8 => absurd h8 (by decide)
  have hwakes := onlyWakes_bytes typedLine (saveFrame typedTrap st)
  have hcur : st'.currentProc = st.currentProc := hwakes.currentProc
  refine ⟨st, st', h, hstep, hrun', ?_, ?_, n, ?_⟩
  · show (uartByte (uartByte (saveFrame typedTrap st) 0x61) newline).uart = _
    rw [uartByte_uart, uartByte_uart, show (saveFrame typedTrap st).uart = st.uart from rfl,
      booted_uart h]
    rfl
  · obtain ⟨s, c, hp⟩ := hwakes.process st.currentProc
    have hf : (st'.processTable st.currentProc).openFiles =
        ((saveFrame typedTrap st).processTable st.currentProc).openFiles :=
      (congrArg Process.openFiles hp).trans rfl
    rw [KState.current, hcur, hf]
    exact ((plain_saveFrame typedTrap st).openFiles st.currentProc).trans (booted_files h)
  · have hset := reachable_settled hrun.reachable
    have hset' := reachable_settled hrun'.reachable
    have hphys : st'.phys = st.phys := hwakes.phys
    have hsatp : st'.satp = st.satp := hwakes.satp
    rw [entryOf, hset'.steady.root hset'.sound, hphys, hsatp, ← hset.steady.root hset.sound]
    exact he

theorem line_read :
    ∃ st st' st'', Step smallLayout st (.trap typedTrap ⟨⟨uart0Irq, typedLine⟩, []⟩) st' ∧
    Step smallLayout st' (.trap lineCall ⟨⟨0, []⟩, []⟩) st'' ∧
    Watched smallLayout selfRam ⟨fun _ => True, fun _ => True⟩ readWatch ⟨typedLine, []⟩ st' ∧
    ConsoleRead st' lineCall ∧ BufferWritable st' lineCall ∧ waiting st'.uart = typedLine := by
  obtain ⟨st, st', h, hstep, hrun, huart, hfiles, n, hentry⟩ := line_typed
  have hset := reachable_settled hrun.reachable
  have hconsole : ConsoleRead st' lineCall := by
    refine ⟨rfl, rfl, 0, by decide, ?_⟩
    rw [hfiles]
    rfl
  have hpage : ∀ k < 8, pageNo ((0x400800 : Addr) + BitVec.ofNat 64 k) = pageNo 0x400800 := by
    decide
  have hwritable : BufferWritable st' lineCall := by
    rw [entryOf, hset.steady.root hset.sound] at hentry
    refine @rangeOk_page _ _ _ _ _ _ 8 (by decide) (by decide) (by decide)
      (by unfold Permissions; decide) userFlags_heap (need_write (writeLeaf_heap n).2.2)
      fun k hk => ?_
    rw [show lineCall.a1 + BitVec.ofNat 64 k = (0x400800 : Addr) + BitVec.ofNat 64 k from rfl,
      hpage k hk]
    exact hentry
  have hproper : ProperRange lineCall.a1 (readCount lineCall).toNat := by
    intro k hk
    have hk : k < 8 := hk
    have hval : (lineCall.a1 + BitVec.ofNat 64 k).toNat = 0x400800 + k := by
      rw [BitVec.toNat_add, BitVec.toNat_ofNat, show lineCall.a1.toNat = 0x400800 from rfl]
      omega
    exact ⟨canonical_of_lt (by omega), by omega⟩
  have hwaits : waiting st'.uart = typedLine := by
    rw [huart]
    exact typed_waiting
  obtain ⟨st'', hread⟩ := hrun.read_returns ⟨⟨0, []⟩, []⟩ hconsole hwritable hproper (by decide)
    (by rw [hwaits]; decide)
  have hwatch : Watched smallLayout selfRam ⟨fun _ => True, fun _ => True⟩ readWatch ⟨[], []⟩ st :=
    .boot st h fun _ _ => trivial
  have hnext := hwatch.trap hstep (fun _ _ _ _ => trivial) fun _ _ => trivial
  have hobserved : observeReads ⟨[], []⟩ st typedTrap st' = ⟨typedLine, []⟩ := by
    have hnone : ¬ (ConsoleRead st typedTrap ∧ Returned st typedTrap st') := fun hc =>
      absurd hc.1.ecall (by decide)
    rw [observeReads, if_neg hnone, huart, booted_uart h]
    exact congrArg (Transcript.mk · []) (by decide)
  refine ⟨st, st', st'', hstep, hread, ?_, hconsole, hwritable, hwaits⟩
  rw [← hobserved]
  exact hnext

/-- A line is typed and a read returns it: all of it has been given out, and nothing waits. -/
theorem console_reads_deliver_line : ∃ st st' st'' g,
    Step smallLayout st (.trap typedTrap ⟨⟨uart0Irq, typedLine⟩, []⟩) st' ∧
    Step smallLayout st' (.trap lineCall ⟨⟨0, []⟩, []⟩) st'' ∧
    (st''.frameOf st'.currentProc).a0 = 2 ∧ bufferBytes st'' 0x400800 2 = typedLine ∧
    Watched smallLayout selfRam ⟨fun _ => True, fun _ => True⟩ readWatch g st'' ∧
    g.reads = [typedLine] ∧ g.committed = typedLine ∧
    g.reads.flatten ++ waiting st''.uart = g.committed := by
  obtain ⟨st, st', st'', htyped, hread, hwatch, hconsole, hwritable, hwaits⟩ := line_read
  obtain ⟨-, -, hcalls⟩ := console_reads_deliver hwatch
  have hnext := hwatch.trap hread (fun _ _ _ _ => trivial) fun _ _ => trivial
  obtain ⟨hall, -⟩ := console_reads_deliver hnext
  cases (hcalls lineCall hconsole).1 _ _ hread with
  | refused hb => exact absurd hwritable hb
  | nothing _ hz => exact absurd hz (by decide)
  | waits _ he =>
    rw [hwaits] at he
    cases he
  | returns bytes hne hle hstream hb hinner hshort ha =>
    rw [hwaits] at hstream
    -- a shorter answer would not end the line
    obtain ⟨rfl, hrest⟩ : bytes = typedLine ∧ waiting st''.uart = [] := by
      match bytes, hne, hstream, hshort with
      | [b], _, hstream, hshort =>
        have hlast := hshort (show 1 < (readCount lineCall).toNat by decide)
        rw [(List.cons.inj hstream).1.symm] at hlast
        exact absurd hlast (by decide)
      | [b, c], _, hstream, _ =>
        obtain ⟨rfl, htail⟩ := List.cons.inj hstream
        obtain ⟨rfl, hrest⟩ := List.cons.inj htail
        exact ⟨rfl, hrest.symm⟩
      | b :: c :: d :: rest, _, hstream, _ =>
        cases (List.cons.inj (List.cons.inj hstream).2).2
    have hreads := observeReads_returns (g := ⟨typedLine, []⟩) hconsole (by decide) ha hb
    have hanswer : (st''.frameOf st'.currentProc).a0 = 2 := by
      rw [ha.frame]
      rfl
    refine ⟨st, st', st'', _, htyped, hread, hanswer, bufferBytes_eq hb, hnext, hreads, ?_, hall⟩
    have hcommitted : (observeReads ⟨typedLine, []⟩ st' lineCall st'').reads.flatten ++
        waiting st''.uart = (observeReads ⟨typedLine, []⟩ st' lineCall st'').committed := hall
    rw [hreads, hrest] at hcommitted
    exact hcommitted.symm

def nullRead : TrapFrame := { TrapFrame.zero with scause := 8, a7 := sysRead }

theorem booted_nullRead (h : kmain L ram = .ok st) : ConsoleRead st nullRead := by
  refine ⟨rfl, rfl, 0, by decide, ?_⟩
  have hfiles : st.current.openFiles = initProcessFds := booted_files h
  rw [hfiles]
  rfl

/-- A console read of size 0 that does not return 0: its buffer is refused first. -/
theorem empty_read_refused : ∃ st st', Reachable smallLayout selfRam st ∧
    ConsoleRead st nullRead ∧ readCount nullRead = 0 ∧
    Step smallLayout st (.trap nullRead ⟨⟨0, []⟩, []⟩) st' ∧
    (st'.frameOf st.currentProc).a0 = eFault ∧ (st'.frameOf st.currentProc).a0 ≠ 0 := by
  obtain ⟨st, h⟩ := boot_returns selfImage
  have hset := reachable_settled (.boot st h)
  obtain ⟨-, hst⟩ := hset.called nullRead
  have hbad : ¬ BufferOk (entered (saveFrame nullRead st)) := by
    rw [bufferOk_entered hset, BufferWritable, userRangeOk,
      if_pos (show nullRead.a1 = 0 from rfl)]
    decide
  have hfault : ((resume st.sscratch ((entered (saveFrame nullRead st)).setA0 st.sscratch
      eFault)).frameOf st.currentProc).a0 = eFault := by
    rw [(readAnswer_answered hset nullRead eFault).frame]
  refine ⟨st, _, .boot st h, booted_nullRead h, rfl, .trap st nullRead ⟨⟨0, []⟩, []⟩ _
    (fun hmsb => absurd hmsb (by decide))
    (answered_read hset (sysReadCall_refused hst hbad) rfl rfl), hfault, ?_⟩
  rw [hfault]
  decide

end Runs

end Lazux

import Lazux.Strings
import Lazux.Lib.Numeral

/-! # Printing numbers (`user/syscalls.c`)

What a call writes to the console. Digits are stored in a buffer of 16 bytes and printed from
the last one stored to the first; a digit too many fails. -/
namespace Lazux

open PagedMemory Numeral

def zeroChar : Byte := 0x30
def minusSign : Byte := 0x2D
def percent : Byte := 0x25

def hexDigits : List Byte :=
  [0x30, 0x31, 0x32, 0x33, 0x34, 0x35, 0x36, 0x37, 0x38, 0x39, 0x61, 0x62, 0x63, 0x64, 0x65, 0x66]

/-- A loop that stores digits while `more` holds; `room` bytes of the buffer are left. -/
def storeDigits (more : BitVec 32 → Bool) (digit : BitVec 32 → Byte)
    (next : BitVec 32 → BitVec 32) : ℕ → BitVec 32 → List Byte → Option (List Byte)
  | 0, value, buffer => if more value then none else some buffer
  | room + 1, value, buffer =>
    if more value then storeDigits more digit next room (next value) (buffer ++ [digit value])
    else some buffer

def putintDigits : BitVec 32 → Option (List Byte) := fun num =>
  storeDigits (fun num => (0 : BitVec 32).slt num) (fun num => (num.srem 10 + 0x30).setWidth 8)
    (fun num => num.sdiv 10) 16 num []

def putint (num : BitVec 32) : Option (List Byte) :=
  if num = 0 then some [zeroChar]
  else if num.slt 0 then (putintDigits (-num)).map fun buffer => minusSign :: buffer.reverse
  else (putintDigits num).map List.reverse

def printUint (value : BitVec 32) : Option (List Byte) :=
  if value = 0 then some [zeroChar]
  else (storeDigits (fun value => value > 0) (fun value => (0x30 + value % 10).setWidth 8)
    (fun value => value / 10) 16 value []).map List.reverse

def printHex (value : BitVec 32) : Option (List Byte) :=
  if value = 0 then some [zeroChar]
  else (storeDigits (fun value => value > 0) (fun value => hexDigits.getD (value &&& 0xF).toNat 0)
    (fun value => value >>> 4) 16 value []).map List.reverse

def puts : List Byte → Option (List Byte)
  | [] => none
  | c :: str => if c ≠ 0 then (puts str).map (c :: ·) else some []

def putptr (value : Word) : List Byte :=
  ([0x30, 0x78] : List Byte) ++ (List.range 16).map fun k =>
    hexDigits.getD ((value >>> (4 * (15 - k))) &&& 0xF).toNat 0

/-- One conversion of `printf`, with the arguments left; `text` is the memory behind a pointer. -/
def printDirective (text : Word → List Byte) (p : Byte) (args : List Word) :
    Option (List Byte × List Word) :=
  if p = percent then some ([percent], args)
  else if p = 0x63 then
    match args with
    | [] => none
    | c :: args => some ([c.setWidth 8], args)
  else if p = 0x73 then
    match args with
    | [] => none
    | s :: args =>
      if s = 0 then some ([0x28, 0x6E, 0x75, 0x6C, 0x6C, 0x29], args)
      else (puts (text s)).map (·, args)
  else if p = 0x64 then
    match args with
    | [] => none
    | v :: args =>
      if (v.setWidth 32).slt 0 then
        (printUint (-v.setWidth 32)).map fun out => (minusSign :: out, args)
      else (printUint (v.setWidth 32)).map (·, args)
  else if p = 0x75 then
    match args with
    | [] => none
    | v :: args => (printUint (v.setWidth 32)).map (·, args)
  else if p = 0x78 then
    match args with
    | [] => none
    | v :: args => (printHex (v.setWidth 32)).map (·, args)
  else if p = 0x70 then
    match args with
    | [] => none
    | ptr :: args => some (putptr ptr, args)
  else some ([percent, p], args)

/-- Each argument is a 64-bit slot of the `va_list`. -/
def printf (text : Word → List Byte) : List Byte → List Word → Option (List Byte)
  | [], _ => none
  | c :: fmt, args =>
    if c = 0 then some []
    else if c ≠ percent then (printf text fmt args).map (c :: ·)
    else match fmt with
      | [] => none
      | p :: fmt =>
        if p = 0 then some []
        else do
          let (out, args) ← printDirective text p args
          (printf text fmt args).map (out ++ ·)

/-- A 32-bit argument in its slot. -/
def intSlot (v : BitVec 32) : Word := v.signExtend 64

def digitChar (d : ℕ) : Byte := hexDigits.getD d 0

/-- The numeral of `n` in base `b`. -/
def IsNumeral (b n : ℕ) (out : List Byte) : Prop :=
  ∃ ds, Numeral.Canonical b n ds ∧ out = ds.map digitChar

/-- The decimal numeral of an integer. -/
def IsInteger (v : ℤ) (out : List Byte) : Prop :=
  if v < 0 then ∃ body, out = minusSign :: body ∧ IsNumeral 10 v.natAbs body
  else IsNumeral 10 v.natAbs out

theorem isInteger_negative {v : ℤ} {body : List Byte} (hv : v < 0)
    (hbody : IsNumeral 10 v.natAbs body) : IsInteger v (minusSign :: body) :=
  (if_pos hv).mpr ⟨body, rfl, hbody⟩

theorem isInteger_nonneg {v : ℤ} {out : List Byte} (hv : ¬ v < 0)
    (hout : IsNumeral 10 v.natAbs out) : IsInteger v out :=
  (if_neg hv).mpr hout

section Digits

variable {b : ℕ} {Good : BitVec 32 → Prop} {more : BitVec 32 → Bool} {digit : BitVec 32 → Byte}
  {next : BitVec 32 → BitVec 32} {v : BitVec 32}

/-- The loop divides by `b` and stores the remainders. -/
structure Extracts (b : ℕ) (Good : BitVec 32 → Prop) (more : BitVec 32 → Bool)
    (digit : BitVec 32 → Byte) (next : BitVec 32 → BitVec 32) : Prop where
  more : ∀ v, Good v → (more v = true ↔ v.toNat ≠ 0)
  digit : ∀ v, Good v → digit v = digitChar (v.toNat % b)
  next : ∀ v, Good v → Good (next v) ∧ (next v).toNat = v.toNat / b

theorem Extracts.store (h : Extracts b Good more digit next) (hb : 1 < b) {room : ℕ}
    {buffer : List Byte} (hv : Good v) (hroom : v.toNat < b ^ room) :
    storeDigits more digit next room v buffer =
      some (buffer ++ (Nat.digits b v.toNat).map digitChar) := by
  induction room generalizing v buffer with
  | zero =>
    have hz : v.toNat = 0 := by simpa using hroom
    rw [storeDigits, if_neg fun hm => (h.more v hv).mp hm hz, hz, Nat.digits_zero, List.map_nil,
      List.append_nil]
  | succ room ih =>
    rw [storeDigits]
    by_cases hz : v.toNat = 0
    · rw [if_neg fun hm => (h.more v hv).mp hm hz, hz, Nat.digits_zero, List.map_nil,
        List.append_nil]
    · obtain ⟨hgood, hdiv⟩ := h.next v hv
      have hless : (next v).toNat < b ^ room := by
        rw [hdiv]
        apply Nat.div_lt_of_lt_mul
        rw [← Nat.pow_succ']
        exact hroom
      rw [if_pos ((h.more v hv).mpr hz), ih hgood hless, hdiv, h.digit v hv,
        Nat.digits_def' hb (Nat.pos_of_ne_zero hz), List.map_cons, List.append_assoc]
      rfl

/-- Sixteen bytes are enough, and read backwards they are the numeral. -/
theorem Extracts.numeral (h : Extracts b Good more digit next) (hb : 1 < b) (hv : Good v)
    (hz : v.toNat ≠ 0) (hroom : v.toNat < b ^ 16) :
    ∃ buffer, storeDigits more digit next 16 v [] = some buffer ∧
      IsNumeral b v.toNat buffer.reverse := by
  refine ⟨_, h.store hb hv hroom, _, canonical_digits hb hz, ?_⟩
  rw [List.nil_append, List.map_reverse]

theorem digitChar_decimal {d : ℕ} (hd : d < 10) : BitVec.ofNat 8 (48 + d) = digitChar d := by
  have hall : ∀ d : Fin 10, BitVec.ofNat 8 (48 + d.val) = digitChar d.val := by decide
  exact hall ⟨d, hd⟩

theorem decimal_stored {w : BitVec 32} (hw : w.toNat = 48 + v.toNat % 10) :
    w.setWidth 8 = digitChar (v.toNat % 10) := by
  have hd : v.toNat % 10 < 10 := Nat.mod_lt _ (by decide)
  rw [← digitChar_decimal hd, ← hw]
  rfl

theorem toNat_ne_zero (hv : v ≠ 0) : v.toNat ≠ 0 := by
  intro h
  exact hv (BitVec.eq_of_toNat_eq h)

theorem numeral_zero {b : ℕ} (hb : 1 < b) : IsNumeral b 0 [zeroChar] :=
  ⟨[0], canonical_zero hb, rfl⟩

theorem IsNumeral.unique {b n : ℕ} {out out' : List Byte} (hb : 1 < b) (h : IsNumeral b n out)
    (h' : IsNumeral b n out') : out = out' := by
  obtain ⟨ds, hds, hout⟩ := h
  obtain ⟨ds', hds', hout'⟩ := h'
  rw [hout, hout', hds.unique hb hds']

theorem unsigned_extracts : Extracts 10 (fun _ => True) (fun value => value > 0)
    (fun value => (0x30 + value % 10).setWidth 8) (fun value => value / 10) := by
  constructor
  · intro v _
    rw [decide_eq_true_iff, gt_iff_lt, BitVec.lt_def]
    exact Nat.pos_iff_ne_zero
  · intro v _
    apply decimal_stored
    have hsum : (0x30 + v % 10).toNat = (48 + v.toNat % 10) % 2 ^ 32 := rfl
    omega
  · intro v _
    exact ⟨trivial, BitVec.toNat_udiv⟩

theorem hex_extracts : Extracts 16 (fun _ => True) (fun value => value > 0)
    (fun value => hexDigits.getD (value &&& 0xF).toNat 0) (fun value => value >>> 4) := by
  constructor
  · intro v _
    rw [decide_eq_true_iff, gt_iff_lt, BitVec.lt_def]
    exact Nat.pos_iff_ne_zero
  · intro v _
    rw [digitChar, BitVec.toNat_and]
    have hmask : v.toNat &&& (2 ^ 4 - 1) = v.toNat % 2 ^ 4 := Nat.and_two_pow_sub_one_eq_mod _ 4
    exact congrArg (hexDigits.getD · 0) hmask
  · intro v _
    refine ⟨trivial, ?_⟩
    rw [BitVec.toNat_ushiftRight, Nat.shiftRight_eq_div_pow]

/-- On positive values signed division is unsigned division. -/
theorem signed_extracts :
    Extracts 10 (fun v => v.toNat < 2 ^ 31) (fun num => (0 : BitVec 32).slt num)
    (fun num => (num.srem 10 + 0x30).setWidth 8) (fun num => num.sdiv 10) := by
  have hmsb : ∀ v : BitVec 32, v.toNat < 2 ^ 31 → v.msb = false := by
    intro v hv
    rw [BitVec.msb_eq_false_iff_two_mul_lt]
    omega
  have hten : (10 : BitVec 32).msb = false := by decide
  constructor
  · intro v hv
    have hint : v.toInt = v.toNat := BitVec.toInt_eq_toNat_of_msb (hmsb v hv)
    have hzero : (0 : BitVec 32).toInt = 0 := rfl
    rw [BitVec.slt_iff_toInt_lt, hint, hzero]
    omega
  · intro v hv
    have hrem : v.srem 10 = v % 10 := by
      rw [BitVec.srem_eq, hmsb v hv, hten]
    apply decimal_stored
    have hsum : (v.srem 10 + 0x30).toNat = (v.toNat % 10 + 48) % 2 ^ 32 := by
      rw [hrem]
      rfl
    omega
  · intro v hv
    have hdiv : v.sdiv 10 = v / 10 := by
      rw [BitVec.sdiv_eq, hmsb v hv, hten]
      rfl
    rw [hdiv, BitVec.toNat_udiv]
    have hten' : (10 : BitVec 32).toNat = 10 := rfl
    rw [hten']
    exact ⟨by omega, rfl⟩

theorem printUint_numeral (v : BitVec 32) :
    ∃ out, printUint v = some out ∧ IsNumeral 10 v.toNat out := by
  unfold printUint
  by_cases hv : v = 0
  · rw [if_pos hv, hv]
    exact ⟨_, rfl, numeral_zero (by decide)⟩
  · have hroom : v.toNat < 10 ^ 16 := lt_trans v.isLt (by decide)
    obtain ⟨buffer, hstore, hout⟩ :=
      unsigned_extracts.numeral (by decide) trivial (toNat_ne_zero hv) hroom
    rw [if_neg hv, hstore]
    exact ⟨_, rfl, hout⟩

theorem printHex_numeral (v : BitVec 32) :
    ∃ out, printHex v = some out ∧ IsNumeral 16 v.toNat out := by
  unfold printHex
  by_cases hv : v = 0
  · rw [if_pos hv, hv]
    exact ⟨_, rfl, numeral_zero (by decide)⟩
  · have hroom : v.toNat < 16 ^ 16 := lt_trans v.isLt (by decide)
    obtain ⟨buffer, hstore, hout⟩ :=
      hex_extracts.numeral (by decide) trivial (toNat_ne_zero hv) hroom
    rw [if_neg hv, hstore]
    exact ⟨_, rfl, hout⟩

theorem putintDigits_numeral (hv : v ≠ 0) (hpos : v.toNat < 2 ^ 31) :
    ∃ buffer, putintDigits v = some buffer ∧ IsNumeral 10 v.toNat buffer.reverse := by
  have hroom : v.toNat < 10 ^ 16 := lt_trans hpos (by decide)
  exact signed_extracts.numeral (by decide) hpos (toNat_ne_zero hv) hroom

end Digits

section Signed

variable {v : BitVec 32}

theorem negative_iff : v.slt 0 = true ↔ v.toInt < 0 := BitVec.slt_iff_toInt_lt

theorem toNat_nonneg (hpos : ¬ v.toInt < 0) : v.toNat = v.toInt.natAbs := by
  have hlt := v.isLt
  have hcond := BitVec.toInt_eq_toNat_cond v
  rw [BitVec.toInt_neg_iff] at hpos
  rw [if_pos (by omega)] at hcond
  omega

/-- Read as unsigned, even the negation that wraps is the magnitude. -/
theorem toNat_neg_negative (hneg : v.toInt < 0) : (-v).toNat = v.toInt.natAbs := by
  have hlt := v.isLt
  have hcond := BitVec.toInt_eq_toNat_cond v
  rw [BitVec.toInt_neg_iff] at hneg
  rw [if_neg (by omega)] at hcond
  rw [BitVec.toNat_neg]
  omega

theorem magnitude_lt (hmin : v ≠ BitVec.intMin 32) : v.toInt.natAbs < 2 ^ 31 := by
  have hlt := v.isLt
  have hcond := BitVec.toInt_eq_toNat_cond v
  have hne : v.toNat ≠ 2 ^ 31 := by
    intro h
    exact hmin (BitVec.eq_of_toNat_eq h)
  split at hcond <;> omega

theorem putint_integer (hmin : v ≠ BitVec.intMin 32) :
    ∃ out, putint v = some out ∧ IsInteger v.toInt out := by
  have hlt := magnitude_lt hmin
  unfold putint
  by_cases hv : v = 0
  · rw [if_pos hv, hv]
    exact ⟨_, rfl, isInteger_nonneg (by decide) (numeral_zero (by decide))⟩
  · rw [if_neg hv]
    by_cases hneg : v.toInt < 0
    · have hmag := toNat_neg_negative hneg
      have hne : -v ≠ 0 := by
        intro h
        exact hv (BitVec.neg_eq_zero_iff.mp h)
      rw [← hmag] at hlt
      obtain ⟨buffer, hdigits, hout⟩ := putintDigits_numeral hne hlt
      rw [hmag] at hout
      rw [if_pos (negative_iff.mpr hneg), hdigits]
      exact ⟨_, rfl, isInteger_negative hneg hout⟩
    · have hmag := toNat_nonneg hneg
      rw [← hmag] at hlt
      obtain ⟨buffer, hdigits, hout⟩ := putintDigits_numeral hv hlt
      rw [hmag] at hout
      rw [if_neg fun h => hneg (negative_iff.mp h), hdigits]
      exact ⟨_, rfl, isInteger_nonneg hneg hout⟩

/-- The smallest integer stays negative, and its digits are lost. -/
theorem putint_intMin : putint (BitVec.intMin 32) = some [minusSign] := by
  decide

theorem intSlot_read (v : BitVec 32) : (intSlot v).setWidth 32 = v := by
  apply BitVec.eq_of_getLsbD_eq
  intro i hi
  rw [intSlot, BitVec.getLsbD_setWidth, BitVec.getLsbD_signExtend]
  simp [hi]
  omega

theorem printf_directive {text : Word → List Byte} {p : Byte} {slot : Word} {out : List Byte}
    (hp : p ≠ 0) (hout : printDirective text p [slot] = some (out, [])) :
    printf text [percent, p, 0] [slot] = some out := by
  have hpercent : percent ≠ 0 := by decide
  simp only [printf, if_neg hpercent, if_neg hp, hout]
  simp

theorem printf_decimal (v : BitVec 32) :
    ∃ out, (∀ text, printf text [percent, 0x64, 0] [intSlot v] = some out) ∧
      IsInteger v.toInt out := by
  by_cases hneg : v.toInt < 0
  · have hslt : v.slt 0#32 = true := negative_iff.mpr hneg
    obtain ⟨out, hprint, hout⟩ := printUint_numeral (-v)
    rw [toNat_neg_negative hneg] at hout
    refine ⟨_, fun text => printf_directive (by decide) ?_, isInteger_negative hneg hout⟩
    simp [printDirective, percent, intSlot_read, hslt, hprint]
  · have hslt : v.slt 0#32 = false := Bool.eq_false_iff.mpr fun h => hneg (negative_iff.mp h)
    obtain ⟨out, hprint, hout⟩ := printUint_numeral v
    rw [toNat_nonneg hneg] at hout
    refine ⟨_, fun text => printf_directive (by decide) ?_, isInteger_nonneg hneg hout⟩
    simp [printDirective, percent, intSlot_read, hslt, hprint]

theorem printf_unsigned (u : BitVec 32) :
    ∃ out, (∀ text, printf text [percent, 0x75, 0] [intSlot u] = some out) ∧
      IsNumeral 10 u.toNat out := by
  obtain ⟨out, hprint, hout⟩ := printUint_numeral u
  refine ⟨_, fun text => printf_directive (by decide) ?_, hout⟩
  simp [printDirective, percent, intSlot_read, hprint]

theorem printf_hex (u : BitVec 32) :
    ∃ out, (∀ text, printf text [percent, 0x78, 0] [intSlot u] = some out) ∧
      IsNumeral 16 u.toNat out := by
  obtain ⟨out, hprint, hout⟩ := printHex_numeral u
  refine ⟨_, fun text => printf_directive (by decide) ?_, hout⟩
  simp [printDirective, percent, intSlot_read, hprint]

theorem IsInteger.unique {i : ℤ} {out out' : List Byte} (h : IsInteger i out)
    (h' : IsInteger i out') : out = out' := by
  have hten : 1 < 10 := by decide
  by_cases hneg : i < 0
  · obtain ⟨body, hout, hbody⟩ := (if_pos hneg).mp h
    obtain ⟨body', hout', hbody'⟩ := (if_pos hneg).mp h'
    rw [hout, hout', hbody.unique hten hbody']
  · exact ((if_neg hneg).mp h).unique hten ((if_neg hneg).mp h')

/-- What the printers write for an `int` and for an `unsigned`. -/
structure PrintsTrue (v u : BitVec 32) : Prop where
  signed : ∃ out, putint v = some out ∧
    (∀ text, printf text [percent, 0x64, 0] [intSlot v] = some out) ∧ IsInteger v.toInt out
  unsigned : ∃ out, (∀ text, printf text [percent, 0x75, 0] [intSlot u] = some out) ∧
    IsNumeral 10 u.toNat out
  hex : ∃ out, (∀ text, printf text [percent, 0x78, 0] [intSlot u] = some out) ∧
    IsNumeral 16 u.toNat out

theorem putint_misses_intMin {out : List Byte} (h : putint (BitVec.intMin 32) = some out) :
    ¬ IsInteger (BitVec.intMin 32).toInt out := by
  intro hout
  rw [putint_intMin, Option.some.injEq] at h
  obtain ⟨body, hbody, ds, hds, hmap⟩ := (if_pos (by decide)).mp hout
  rw [← h, List.cons.injEq] at hbody
  rw [← hbody.2] at hmap
  exact hds.nonempty (List.map_eq_nil_iff.mp hmap.symm)

theorem printers_true_iff (v u : BitVec 32) : PrintsTrue v u ↔ v ≠ BitVec.intMin 32 := by
  constructor
  · rintro ⟨⟨out, hput, _, hout⟩, _, _⟩ rfl
    exact putint_misses_intMin hput hout
  · intro hmin
    obtain ⟨out, hput, hout⟩ := putint_integer hmin
    obtain ⟨out', hprintf, hout'⟩ := printf_decimal v
    rw [hout'.unique hout] at hprintf
    exact ⟨⟨out, hput, hprintf, hout⟩, printf_unsigned u, printf_hex u⟩

theorem putint_loses_the_smallest : ¬ PrintsTrue 0x80000000 0 := by
  rintro ⟨⟨out, hput, _, hout⟩, _, _⟩
  exact putint_misses_intMin hput hout

end Signed

end Lazux

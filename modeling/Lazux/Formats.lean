import Lazux.Printers

/-! # Format strings

What `printf` makes of a whole format: its text, with each conversion replaced by what it shows of
the next argument. -/
namespace Lazux

open PagedMemory

inductive Conversion where
  | char | string | decimal | unsigned | hex | pointer
  deriving DecidableEq

def Conversion.letter : Conversion → Byte
  | .char => 0x63
  | .string => 0x73
  | .decimal => 0x64
  | .unsigned => 0x75
  | .hex => 0x78
  | .pointer => 0x70

inductive Piece where
  | plain (c : Byte)
  | percent
  | convert (k : Conversion)
  | unknown (c : Byte)
  deriving DecidableEq

namespace Piece

def spelling : Piece → List Byte
  | plain c => [c]
  | percent => [Lazux.percent, Lazux.percent]
  | convert k => [Lazux.percent, k.letter]
  | unknown c => [Lazux.percent, c]

/-- The piece that a `%` and this byte make. -/
def ofLetter (p : Byte) : Piece :=
  if p = Lazux.percent then percent
  else if p = 0x63 then convert .char
  else if p = 0x73 then convert .string
  else if p = 0x64 then convert .decimal
  else if p = 0x75 then convert .unsigned
  else if p = 0x78 then convert .hex
  else if p = 0x70 then convert .pointer
  else unknown p

/-- It is spelled without a zero and read back as what it is. -/
def Valid : Piece → Prop
  | plain c => c ≠ 0 ∧ c ≠ Lazux.percent
  | unknown c => c ≠ 0 ∧ ofLetter c = unknown c
  | _ => True

/-- The conversion of a piece that takes an argument. -/
def conversion? : Piece → Option Conversion
  | convert k => some k
  | _ => none

end Piece

def IsAddress (v : Word) (out : List Byte) : Prop :=
  ∃ ds, Numeral.Fixed 16 16 v.toNat ds ∧ out = [0x30, 0x78] ++ ds.map digitChar

/-- What a conversion shows of its argument. -/
inductive ConvertsTo (text : Word → List Byte) : Conversion → Word → List Byte → Prop where
  | char (v : Word) : ConvertsTo text .char v [v.setWidth 8]
  | null : ConvertsTo text .string 0 [0x28, 0x6E, 0x75, 0x6C, 0x6C, 0x29]
  | string {v : Word} {out rest : List Byte} (hv : v ≠ 0) (ht : text v = out ++ 0 :: rest)
      (hout : 0 ∉ out) : ConvertsTo text .string v out
  | decimal {v : Word} {out : List Byte} (h : IsInteger (v.setWidth 32).toInt out) :
      ConvertsTo text .decimal v out
  | unsigned {v : Word} {out : List Byte} (h : IsNumeral 10 (v.setWidth 32).toNat out) :
      ConvertsTo text .unsigned v out
  | hex {v : Word} {out : List Byte} (h : IsNumeral 16 (v.setWidth 32).toNat out) :
      ConvertsTo text .hex v out
  | pointer {v : Word} {out : List Byte} (h : IsAddress v out) : ConvertsTo text .pointer v out

/-- What a format shows of its arguments. -/
inductive Renders (text : Word → List Byte) : List Piece → List Word → List Byte → Prop where
  | done (args : List Word) : Renders text [] args []
  | plain {ps : List Piece} {args : List Word} {out : List Byte} (c : Byte)
      (h : Renders text ps args out) : Renders text (.plain c :: ps) args (c :: out)
  | percent {ps : List Piece} {args : List Word} {out : List Byte} (h : Renders text ps args out) :
      Renders text (.percent :: ps) args (percent :: out)
  | convert {k : Conversion} {v : Word} {shown out : List Byte} {ps : List Piece}
      {args : List Word} (hk : ConvertsTo text k v shown) (h : Renders text ps args out) :
      Renders text (.convert k :: ps) (v :: args) (shown ++ out)
  | unknown {ps : List Piece} {args : List Word} {out : List Byte} (c : Byte)
      (h : Renders text ps args out) : Renders text (.unknown c :: ps) args (percent :: c :: out)

/-- There is an argument for each conversion, and strings have an end. -/
def ArgumentsFit (text : Word → List Byte) (ks : List Conversion) (args : List Word) : Prop :=
  ks.length ≤ args.length ∧ ∀ x ∈ ks.zip args, x.1 = .string → x.2 ≠ 0 → 0 ∈ text x.2

section Pieces

variable {p : Byte} {ps ps' : List Piece} {tail tail' fmt : List Byte}

theorem ofLetter_spelling (p : Byte) : (Piece.ofLetter p).spelling = [percent, p] := by
  unfold Piece.ofLetter
  split_ifs with h1 h2 h3 h4 h5 h6 h7
  · rw [h1]
    rfl
  · rw [h2]
    rfl
  · rw [h3]
    rfl
  · rw [h4]
    rfl
  · rw [h5]
    rfl
  · rw [h6]
    rfl
  · rw [h7]
    rfl
  · rfl

theorem ofLetter_valid (hp : p ≠ 0) : (Piece.ofLetter p).Valid := by
  generalize hx : Piece.ofLetter p = x
  have hspell := ofLetter_spelling p
  rw [hx] at hspell
  cases x with
  | plain c => cases hspell
  | percent => trivial
  | convert k => trivial
  | unknown c =>
    cases hspell
    exact ⟨hp, hx⟩

theorem ofLetter_letter (k : Conversion) : Piece.ofLetter k.letter = .convert k := by
  cases k <;> decide

theorem Piece.Valid.cases {x : Piece} (h : x.Valid) :
    (∃ c, x = .plain c ∧ c ≠ 0 ∧ c ≠ Lazux.percent) ∨
      ∃ c, c ≠ 0 ∧ x = .ofLetter c ∧ x.spelling = [Lazux.percent, c] := by
  cases x with
  | plain c => exact Or.inl ⟨c, rfl, h⟩
  | percent => exact Or.inr ⟨Lazux.percent, by decide, by decide, rfl⟩
  | convert k =>
    refine Or.inr ⟨k.letter, ?_, (ofLetter_letter k).symm, rfl⟩
    cases k <;> decide
  | unknown c => exact Or.inr ⟨c, h.1, h.2.symm, rfl⟩

theorem pieces_exist : ∀ fmt : List Byte, 0 ∉ fmt → ∃ (ps : List Piece) (tail : List Byte),
    (∀ x ∈ ps, x.Valid) ∧ (tail = [] ∨ tail = [percent]) ∧
      fmt = ps.flatMap Piece.spelling ++ tail
  | [], _ => ⟨[], [], nofun, Or.inl rfl, rfl⟩
  | [c], h => by
    have hc : c ≠ 0 := fun h0 => h (by rw [h0]; exact List.mem_singleton_self 0)
    by_cases hp : c = percent
    · exact ⟨[], [percent], nofun, Or.inr rfl, by rw [hp]; rfl⟩
    · exact ⟨[.plain c], [], fun x hx => by rw [List.mem_singleton.mp hx]; exact ⟨hc, hp⟩,
        Or.inl rfl, rfl⟩
  | c :: p :: fmt, h => by
    have hc : c ≠ 0 := fun h0 => h (by rw [h0]; exact List.mem_cons_self)
    have hrest : 0 ∉ p :: fmt := fun h0 => h (List.mem_cons_of_mem _ h0)
    by_cases hpc : c = percent
    · obtain ⟨ps, tail, hvalid, htail, he⟩ := pieces_exist fmt fun h0 =>
        hrest (List.mem_cons_of_mem _ h0)
      have hp : p ≠ 0 := fun h0 => hrest (by rw [h0]; exact List.mem_cons_self)
      refine ⟨.ofLetter p :: ps, tail, fun x hx => ?_, htail, ?_⟩
      · rcases List.mem_cons.mp hx with rfl | hx
        · exact ofLetter_valid hp
        · exact hvalid x hx
      · rw [List.flatMap_cons, ofLetter_spelling, hpc, he]
        rfl
    · obtain ⟨ps, tail, hvalid, htail, he⟩ := pieces_exist (p :: fmt) hrest
      refine ⟨.plain c :: ps, tail, fun x hx => ?_, htail, ?_⟩
      · rcases List.mem_cons.mp hx with rfl | hx
        · exact ⟨hc, hpc⟩
        · exact hvalid x hx
      · rw [List.flatMap_cons, he]
        rfl

theorem pieces_unique (h : ∀ x ∈ ps, Piece.Valid x) (h' : ∀ x ∈ ps', Piece.Valid x)
    (ht : tail = [] ∨ tail = [percent]) (ht' : tail' = [] ∨ tail' = [percent])
    (he : ps.flatMap Piece.spelling ++ tail = ps'.flatMap Piece.spelling ++ tail') :
    ps = ps' ∧ tail = tail' := by
  have first : ∀ {x : Piece} {xs : List Piece} {t t' : List Byte}, x.Valid →
      (t' = [] ∨ t' = [percent]) → (x :: xs).flatMap Piece.spelling ++ t ≠ t' := by
    intro x xs t t' hx ht' he
    rw [List.flatMap_cons] at he
    rcases hx.cases with ⟨c, rfl, -, hc⟩ | ⟨c, -, -, hs⟩
    · rcases ht' with rfl | rfl
      · cases he
      · exact hc (List.cons.inj he).1
    · rw [hs] at he
      rcases ht' with rfl | rfl
      · cases he
      · cases (List.cons.inj he).2
  induction ps generalizing ps' with
  | nil =>
    cases ps' with
    | nil => exact ⟨rfl, he⟩
    | cons x xs => exact absurd he.symm (first (h' x List.mem_cons_self) ht)
  | cons x xs ih =>
    cases ps' with
    | nil => exact absurd he (first (h x List.mem_cons_self) ht')
    | cons y ys =>
      have hxs := fun z hz => h z (List.mem_cons_of_mem _ hz)
      have hys := fun z hz => h' z (List.mem_cons_of_mem _ hz)
      rw [List.flatMap_cons, List.flatMap_cons, List.append_assoc, List.append_assoc] at he
      rcases (h x List.mem_cons_self).cases with ⟨c, rfl, -, hc⟩ | ⟨c, -, hxc, hxs'⟩
      · rcases (h' y List.mem_cons_self).cases with ⟨d, rfl, -, hd⟩ | ⟨d, -, hyd, hys'⟩
        · obtain ⟨rfl, hrest⟩ := List.cons.inj he
          obtain ⟨rfl, rfl⟩ := ih hxs hys hrest
          exact ⟨rfl, rfl⟩
        · rw [hys'] at he
          exact absurd (List.cons.inj he).1 hc
      · rw [hxs'] at he
        rcases (h' y List.mem_cons_self).cases with ⟨d, rfl, -, hd⟩ | ⟨d, -, hyd, hys'⟩
        · exact absurd (List.cons.inj he).1.symm hd
        · rw [hys'] at he
          obtain ⟨-, hrest⟩ := List.cons.inj he
          obtain ⟨rfl, hlast⟩ := List.cons.inj hrest
          obtain ⟨rfl, rfl⟩ := ih hxs hys hlast
          exact ⟨by rw [hxc, hyd], rfl⟩

end Pieces

section Printing

variable {text : Word → List Byte} {k : Conversion} {v : Word} {args rest : List Word}
  {ps : List Piece} {tail x shown out : List Byte} {c : Byte}

theorem puts_iff {s : List Byte} :
    puts s = some out ↔ ∃ rest, s = out ++ 0 :: rest ∧ 0 ∉ out := by
  induction s generalizing out with
  | nil => simp [puts]
  | cons c s ih =>
    by_cases hc : c = 0
    · rw [puts, if_neg (not_not.mpr hc), hc]
      constructor
      · rintro ⟨⟩
        exact ⟨s, rfl, List.not_mem_nil⟩
      · rintro ⟨rest, he, hout⟩
        cases out with
        | nil => rfl
        | cons d out =>
          exact absurd (by rw [← (List.cons.inj he).1]; exact List.mem_cons_self) hout
    · rw [puts, if_pos hc, Option.map_eq_some_iff]
      constructor
      · rintro ⟨a, ha, rfl⟩
        obtain ⟨rest, rfl, hout⟩ := ih.mp ha
        refine ⟨rest, rfl, ?_⟩
        rw [List.mem_cons, not_or]
        exact ⟨Ne.symm hc, hout⟩
      · rintro ⟨rest, he, hout⟩
        cases out with
        | nil => exact absurd (List.cons.inj he).1 hc
        | cons d out =>
          obtain ⟨rfl, hs⟩ := List.cons.inj he
          exact ⟨out, ih.mpr ⟨rest, hs, fun h => hout (List.mem_cons_of_mem _ h)⟩, rfl⟩

theorem putptr_address (v : Word) : IsAddress v (putptr v) := by
  refine ⟨_, Numeral.fixed_digits (by decide) v.isLt, ?_⟩
  rw [putptr, List.map_map]
  congr 1
  refine List.map_congr_left fun k hk => ?_
  have hnibble : ((v >>> (4 * (15 - k))) &&& 0xF).toNat = v.toNat / 16 ^ (16 - 1 - k) % 16 := by
    rw [BitVec.toNat_and, BitVec.toNat_ushiftRight, Nat.shiftRight_eq_div_pow, Nat.pow_mul]
    exact Nat.and_two_pow_sub_one_eq_mod _ 4
  rw [hnibble]
  rfl

theorem IsAddress.unique {out' : List Byte} (h : IsAddress v out) (h' : IsAddress v out') :
    out = out' := by
  obtain ⟨ds, hds, rfl⟩ := h
  obtain ⟨ds', hds', rfl⟩ := h'
  rw [hds.unique (by decide) hds']

theorem printed_numeral {b n : ℕ} {r : Option (List Byte)} (hb : 1 < b)
    (h : ∃ out, r = some out ∧ IsNumeral b n out) : r = some out ↔ IsNumeral b n out := by
  obtain ⟨out', rfl, hout'⟩ := h
  constructor
  · rintro ⟨⟩
    exact hout'
  · intro hout
    rw [hout.unique hb hout']

theorem printf_signed (w : BitVec 32) :
    (if w.slt 0 then (printUint (-w)).map (minusSign :: ·) else printUint w) = some out ↔
      IsInteger w.toInt out := by
  have hten : 1 < 10 := by decide
  split
  · rename_i hneg
    have hneg := negative_iff.mp hneg
    rw [IsInteger, if_pos hneg, Option.map_eq_some_iff, ← toNat_neg_negative hneg]
    constructor
    · rintro ⟨body, hbody, rfl⟩
      exact ⟨body, rfl, (printed_numeral hten (printUint_numeral (-w))).mp hbody⟩
    · rintro ⟨body, rfl, hbody⟩
      exact ⟨body, (printed_numeral hten (printUint_numeral (-w))).mpr hbody, rfl⟩
  · rename_i hneg
    have hneg : ¬ w.toInt < 0 := fun h => hneg (negative_iff.mpr h)
    rw [IsInteger, if_neg hneg, ← toNat_nonneg hneg]
    exact printed_numeral hten (printUint_numeral w)

theorem map_pair {r : Option (List Byte)} :
    r.map (·, args) = some (shown, rest) ↔ r = some shown ∧ rest = args := by
  rw [Option.map_eq_some_iff]
  constructor
  · rintro ⟨a, rfl, he⟩
    cases he
    exact ⟨rfl, rfl⟩
  · rintro ⟨rfl, rfl⟩
    exact ⟨shown, rfl, rfl⟩

theorem printDirective_iff : printDirective text k.letter (v :: args) = some (shown, rest) ↔
    ConvertsTo text k v shown ∧ rest = args := by
  cases k with
  | char =>
    show some ([v.setWidth 8], args) = some (shown, rest) ↔ _
    constructor
    · rintro ⟨⟩
      exact ⟨.char v, rfl⟩
    · rintro ⟨⟨⟩, rfl⟩
      rfl
  | string =>
    show (if v = 0 then some ([0x28, 0x6E, 0x75, 0x6C, 0x6C, 0x29], args)
      else (puts (text v)).map (·, args)) = some (shown, rest) ↔ _
    by_cases hv : v = 0
    · rw [if_pos hv, hv]
      constructor
      · rintro ⟨⟩
        exact ⟨.null, rfl⟩
      · rintro ⟨hs, rfl⟩
        cases hs with
        | null => rfl
        | string h0 => exact absurd rfl h0
    · rw [if_neg hv, map_pair, puts_iff]
      refine and_congr_left fun _ => ?_
      constructor
      · rintro ⟨r, ht, hout⟩
        exact .string hv ht hout
      · intro hs
        cases hs with
        | null => exact absurd rfl hv
        | string _ ht hout => exact ⟨_, ht, hout⟩
  | decimal =>
    have hmap : printDirective text Conversion.decimal.letter (v :: args) =
        (if (v.setWidth 32).slt 0 then (printUint (-v.setWidth 32)).map (minusSign :: ·)
          else printUint (v.setWidth 32)).map (·, args) := by
      show (if (v.setWidth 32).slt 0 then
        (printUint (-v.setWidth 32)).map fun out => (minusSign :: out, args)
          else (printUint (v.setWidth 32)).map (·, args)) = _
      split
      · rw [Option.map_map]
        rfl
      · rfl
    rw [hmap, map_pair, printf_signed]
    refine and_congr_left fun _ => ⟨.decimal, fun hs => ?_⟩
    cases hs with
    | decimal h => exact h
  | unsigned =>
    show (printUint (v.setWidth 32)).map (·, args) = some (shown, rest) ↔ _
    rw [map_pair, printed_numeral (by decide) (printUint_numeral _)]
    refine and_congr_left fun _ => ⟨.unsigned, fun hs => ?_⟩
    cases hs with
    | unsigned h => exact h
  | hex =>
    show (printHex (v.setWidth 32)).map (·, args) = some (shown, rest) ↔ _
    rw [map_pair, printed_numeral (by decide) (printHex_numeral _)]
    refine and_congr_left fun _ => ⟨.hex, fun hs => ?_⟩
    cases hs with
    | hex h => exact h
  | pointer =>
    show some (putptr v, args) = some (shown, rest) ↔ _
    constructor
    · rintro ⟨⟩
      exact ⟨.pointer (putptr_address v), rfl⟩
    · rintro ⟨hs, rfl⟩
      cases hs with
      | pointer h => rw [(putptr_address v).unique h]

theorem printDirective_none (k : Conversion) : printDirective text k.letter [] = none := by
  cases k <;> rfl

theorem printDirective_unknown (h : Piece.ofLetter c = .unknown c) :
    printDirective text c args = some ([percent, c], args) := by
  unfold Piece.ofLetter at h
  unfold printDirective
  split_ifs at h ⊢
  rfl

theorem printf_end (x : List Byte) : printf text (0 :: x) args = some [] := by
  rw [printf.eq_def]
  exact if_pos rfl

theorem printf_plain {fmt : List Byte} (hc : c ≠ 0) (hp : c ≠ percent) :
    printf text (c :: fmt) args = (printf text fmt args).map (c :: ·) := by
  rw [printf.eq_def]
  exact (if_neg hc).trans (if_pos hp)

theorem printf_percent {fmt : List Byte} (hc : c ≠ 0) : printf text (percent :: c :: fmt) args =
    (printDirective text c args).bind fun r => (printf text fmt r.2).map (r.1 ++ ·) := by
  have hpercent : percent ≠ 0 := by decide
  rw [printf.eq_def]
  exact (if_neg hpercent).trans ((if_neg (not_not.mpr rfl)).trans (if_neg hc))

/-- A `%` at the end is dropped. -/
theorem printf_dangling (x : List Byte) : printf text (percent :: 0 :: x) args = some [] := by
  have hpercent : percent ≠ 0 := by decide
  rw [printf.eq_def]
  exact (if_neg hpercent).trans ((if_neg (not_not.mpr rfl)).trans (if_pos rfl))

theorem printf_pieces (hps : ∀ x ∈ ps, Piece.Valid x) (ht : tail = [] ∨ tail = [percent]) :
    printf text (ps.flatMap Piece.spelling ++ tail ++ 0 :: x) args = some out ↔
      Renders text ps args out := by
  induction ps generalizing args out with
  | nil =>
    have hend : printf text (tail ++ 0 :: x) args = some [] := by
      rcases ht with rfl | rfl
      · exact printf_end x
      · exact printf_dangling x
    rw [List.flatMap_nil, List.nil_append, hend]
    constructor
    · rintro ⟨⟩
      exact .done args
    · rintro ⟨⟩
      rfl
  | cons y ys ih =>
    have hys := fun z hz => hps z (List.mem_cons_of_mem _ hz)
    have hy := hps y List.mem_cons_self
    rw [List.flatMap_cons, List.append_assoc, List.append_assoc, ← List.append_assoc _ tail]
    cases y with
    | plain c =>
      show printf text (c :: _) args = _ ↔ _
      rw [printf_plain hy.1 hy.2, Option.map_eq_some_iff]
      constructor
      · rintro ⟨a, ha, rfl⟩
        exact .plain c ((ih hys).mp ha)
      · intro h
        cases h with
        | plain c h => exact ⟨_, (ih hys).mpr h, rfl⟩
    | percent =>
      show printf text (percent :: percent :: _) args = _ ↔ _
      have hpercent : percent ≠ 0 := by decide
      have hdir : printDirective text percent args = some ([percent], args) := rfl
      rw [printf_percent hpercent, hdir, Option.bind_some, Option.map_eq_some_iff]
      constructor
      · rintro ⟨a, ha, rfl⟩
        exact .percent ((ih hys).mp ha)
      · intro h
        cases h with
        | percent h => exact ⟨_, (ih hys).mpr h, rfl⟩
    | convert k =>
      show printf text (percent :: k.letter :: _) args = _ ↔ _
      have hletter : k.letter ≠ 0 := by cases k <;> decide
      rw [printf_percent hletter]
      constructor
      · intro h
        obtain ⟨⟨shown, rest⟩, hdir, hrest⟩ := Option.bind_eq_some_iff.mp h
        obtain ⟨a, ha, rfl⟩ := Option.map_eq_some_iff.mp hrest
        cases args with
        | nil =>
          rw [printDirective_none] at hdir
          cases hdir
        | cons v args =>
          obtain ⟨hshow, rfl⟩ := printDirective_iff.mp hdir
          exact .convert hshow ((ih hys).mp ha)
      · intro h
        cases h with
        | convert hshow h =>
          have hrest := (ih hys).mpr h
          rw [printDirective_iff.mpr ⟨hshow, rfl⟩, Option.bind_some]
          exact congrArg (Option.map _) hrest
    | unknown c =>
      show printf text (percent :: c :: _) args = _ ↔ _
      rw [printf_percent hy.1, printDirective_unknown hy.2, Option.bind_some,
        Option.map_eq_some_iff]
      constructor
      · rintro ⟨a, ha, rfl⟩
        exact .unknown c ((ih hys).mp ha)
      · intro h
        cases h with
        | unknown c h => exact ⟨_, (ih hys).mpr h, rfl⟩

theorem convertsTo_exists : (∃ shown, ConvertsTo text k v shown) ↔
    (k = .string → v ≠ 0 → 0 ∈ text v) := by
  constructor
  · rintro ⟨shown, hs⟩ rfl hv
    cases hs with
    | null => exact absurd rfl hv
    | string _ ht => rw [ht]; exact List.mem_append_right _ List.mem_cons_self
  · intro h
    cases k with
    | char => exact ⟨_, .char v⟩
    | string =>
      by_cases hv : v = 0
      · rw [hv]
        exact ⟨_, .null⟩
      · obtain ⟨a, b, hab, ha⟩ := List.eq_append_cons_of_mem (h rfl hv)
        exact ⟨a, .string hv hab ha⟩
    | decimal =>
      cases hv : (if (v.setWidth 32).slt 0 then (printUint (-v.setWidth 32)).map (minusSign :: ·)
          else printUint (v.setWidth 32)) with
      | some out => exact ⟨out, .decimal ((printf_signed _).mp hv)⟩
      | none =>
        obtain ⟨a, ha, -⟩ := printUint_numeral (-v.setWidth 32)
        obtain ⟨b, hb, -⟩ := printUint_numeral (v.setWidth 32)
        rw [ha, hb] at hv
        split at hv
        · cases hv
        · cases hv
    | unsigned =>
      obtain ⟨out, -, hout⟩ := printUint_numeral (v.setWidth 32)
      exact ⟨out, .unsigned hout⟩
    | hex =>
      obtain ⟨out, -, hout⟩ := printHex_numeral (v.setWidth 32)
      exact ⟨out, .hex hout⟩
    | pointer => exact ⟨_, .pointer (putptr_address v)⟩

theorem renders_exists : (∃ out, Renders text ps args out) ↔
    ArgumentsFit text (ps.filterMap Piece.conversion?) args := by
  induction ps generalizing args with
  | nil => exact ⟨fun _ => ⟨Nat.zero_le _, nofun⟩, fun _ => ⟨[], .done args⟩⟩
  | cons y ys ih =>
    cases y with
    | plain c =>
      refine Iff.trans ⟨?_, ?_⟩ ih
      · rintro ⟨out, h⟩
        cases h with
        | plain c h => exact ⟨_, h⟩
      · rintro ⟨out, h⟩
        exact ⟨_, .plain c h⟩
    | percent =>
      refine Iff.trans ⟨?_, ?_⟩ ih
      · rintro ⟨out, h⟩
        cases h with
        | percent h => exact ⟨_, h⟩
      · rintro ⟨out, h⟩
        exact ⟨_, .percent h⟩
    | unknown c =>
      refine Iff.trans ⟨?_, ?_⟩ ih
      · rintro ⟨out, h⟩
        cases h with
        | unknown c h => exact ⟨_, h⟩
      · rintro ⟨out, h⟩
        exact ⟨_, .unknown c h⟩
    | convert k =>
      have hks : (Piece.convert k :: ys).filterMap Piece.conversion? =
          k :: ys.filterMap Piece.conversion? := rfl
      rw [hks]
      cases args with
      | nil =>
        constructor
        · rintro ⟨out, h⟩
          cases h
        · rintro ⟨h, -⟩
          exact absurd h (Nat.not_succ_le_zero _)
      | cons v args =>
        constructor
        · rintro ⟨out, h⟩
          cases h with
          | convert hshow h =>
            obtain ⟨hlen, hall⟩ := ih.mp ⟨_, h⟩
            refine ⟨Nat.succ_le_succ hlen, fun z hz => ?_⟩
            rw [List.zip_cons_cons] at hz
            rcases List.mem_cons.mp hz with rfl | hz
            · exact convertsTo_exists.mp ⟨_, hshow⟩
            · exact hall z hz
        · rintro ⟨hlen, hall⟩
          rw [List.zip_cons_cons] at hall
          obtain ⟨shown, hshow⟩ := convertsTo_exists.mpr (hall (k, v) List.mem_cons_self)
          obtain ⟨out, h⟩ := ih.mpr ⟨Nat.le_of_succ_le_succ hlen, fun z hz =>
            hall z (List.mem_cons_of_mem _ hz)⟩
          exact ⟨_, .convert hshow h⟩

/-- Every format string has one reading. `printf` prints what it says of the arguments, and comes
to an end exactly if there are arguments enough and its strings have an end. -/
theorem printf_renders (text : Word → List Byte) (fmt : CString) (x : List Byte) :
    ∃ ps tail, (∀ y ∈ ps, Piece.Valid y) ∧ (tail = [] ∨ tail = [percent]) ∧
      fmt.val = ps.flatMap Piece.spelling ++ tail ∧
      (∀ ps' tail', (∀ y ∈ ps', Piece.Valid y) → (tail' = [] ∨ tail' = [percent]) →
        fmt.val = ps'.flatMap Piece.spelling ++ tail' → ps' = ps) ∧
      ∀ args, (∀ out, printf text (fmt.val ++ 0 :: x) args = some out ↔ Renders text ps args out) ∧
        ((printf text (fmt.val ++ 0 :: x) args).isSome ↔
          ArgumentsFit text (ps.filterMap Piece.conversion?) args) := by
  obtain ⟨ps, tail, hvalid, htail, he⟩ := pieces_exist fmt.val fmt.property
  have hprintf : ∀ args out, printf text (fmt.val ++ 0 :: x) args = some out ↔
      Renders text ps args out := by
    intro args out
    rw [he]
    exact printf_pieces hvalid htail
  refine ⟨ps, tail, hvalid, htail, he, fun ps' tail' hv ht h => ?_, fun args =>
    ⟨hprintf args, ?_⟩⟩
  · exact (pieces_unique hv hvalid ht htail (h.symm.trans he)).1
  · rw [Option.isSome_iff_exists, ← renders_exists]
    exact exists_congr (hprintf args)

end Printing

end Lazux

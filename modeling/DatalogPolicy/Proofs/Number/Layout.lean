import DatalogPolicy.Compile.Arguments
import DatalogPolicy.Proofs.Number.Nearest
import DatalogPolicy.Proofs.Text.Pattern
import DatalogPolicy.Token.Scan

/-!
# Reading written numbers

Every written number, plain or scientific, is a numeral: digits, digits behind a
point, and a power of ten. Numerals read back to their value, and zeros apart it is
the decimal for which they were written.
-/

namespace DatalogPolicy

section Digits

variable {cs ds rest : List Char}

theorem isDigit_of_mem_toDigits (n : Nat) : ∀ c ∈ Nat.toDigits 10 n, c.isDigit = true :=
  fun _ hc => Nat.isDigit_of_mem_toDigits (by decide) (by decide) hc

theorem isDigit_of_mem_zeros (n : Nat) : ∀ c ∈ List.replicate n '0', c.isDigit = true := by
  intro c hc
  rw [List.eq_of_mem_replicate hc]
  rfl

theorem ne_of_isDigit {c d : Char} (hc : c.isDigit = true) (hd : d.isDigit = false) : c ≠ d := by
  rintro rfl
  exact Bool.false_ne_true (hd.symm.trans hc)

theorem toLower_of_isDigit {c : Char} (hc : c.isDigit = true) : c.toLower = c := by
  refine dif_neg ?_
  rintro ⟨hupper, -⟩
  have hle : 65 ≤ c.toNat := hupper
  have hnine : c.toNat ≤ 57 := (Char.isDigit_iff_toNat.1 hc).2
  omega

namespace Decimal

theorem foldDigits_append (n : Nat) (cs ds : List Char) :
    foldDigits n (cs ++ ds) = foldDigits (foldDigits n cs) ds := List.foldl_append

theorem foldDigits_toDigits (n : Nat) : foldDigits 0 (Nat.toDigits 10 n) = n :=
  Nat.ofDigitChars_ten_toDigits

theorem foldDigits_zeros (n k : Nat) : foldDigits n (List.replicate k '0') = n * Nat.pow 10 k :=
  Nat.ofDigitChars_replicate_zero.trans (Nat.mul_comm _ _)

theorem splitDigits_append (hds : ∀ c ∈ ds, c.isDigit = true)
    (hrest : ∀ c ∈ rest.head?, c.isDigit = false) : splitDigits (ds ++ rest) = (ds, rest) := by
  have hstop : rest.takeWhile Char.isDigit = [] ∧ rest.dropWhile Char.isDigit = rest := by
    cases rest with
    | nil => exact ⟨rfl, rfl⟩
    | cons c rest =>
        have hc := hrest c rfl
        exact ⟨List.takeWhile_cons_of_neg (by simp [hc]), List.dropWhile_cons_of_neg (by simp [hc])⟩
  rw [splitDigits, List.takeWhile_append_of_pos hds, List.dropWhile_append_of_pos hds, hstop.1,
    hstop.2, List.append_nil]

theorem splitSign_of_isDigit (hne : ds ≠ []) (hds : ∀ c ∈ ds, c.isDigit = true) :
    splitSign (ds ++ rest) = (false, ds ++ rest) := by
  cases ds with
  | nil => exact absurd rfl hne
  | cons c ds =>
      have hc := hds c List.mem_cons_self
      have hminus : c ≠ '-' := ne_of_isDigit hc rfl
      have hplus : c ≠ '+' := ne_of_isDigit hc rfl
      unfold splitSign
      split
      · next heq => exact absurd (List.cons.inj heq).1 hminus
      · next heq => exact absurd (List.cons.inj heq).1 hplus
      · rfl

/-- A minus or nothing. -/
def minusText (negative : Prop) [Decidable negative] : List Char :=
  if negative then ['-'] else []

theorem splitSign_minusText (negative : Prop) [Decidable negative] (hne : ds ≠ [])
    (hds : ∀ c ∈ ds, c.isDigit = true) :
    splitSign (minusText negative ++ (ds ++ rest)) = (decide negative, ds ++ rest) := by
  rw [minusText]
  split
  · next h =>
      rw [decide_eq_true h]
      rfl
  · next h => rw [decide_eq_false h, List.nil_append, splitSign_of_isDigit hne hds]

theorem splitSign_toDigits (negative : Prop) [Decidable negative] (n : Nat) :
    splitSign (minusText negative ++ Nat.toDigits 10 n) =
      (decide negative, Nat.toDigits 10 n) := by
  have hsplit : splitSign (minusText negative ++ (Nat.toDigits 10 n ++ [])) =
      (decide negative, Nat.toDigits 10 n ++ []) :=
    splitSign_minusText negative Nat.toDigits_ne_nil (isDigit_of_mem_toDigits n)
  rwa [List.append_nil] at hsplit

end Decimal

end Digits

namespace Decimal

/-- A minus for a negative power of ten, and a plus for another where both signs are written. -/
def signText (signed : Bool) (power : Int) : List Char :=
  if power < 0 then ['-'] else if signed then ['+'] else []

/-- The power of ten of a numeral. -/
def powerText (signed : Bool) (power : Int) : List Char :=
  'e' :: (signText signed power ++ Nat.toDigits 10 power.natAbs)

theorem splitSign_signText (signed : Bool) (power : Int) (n : Nat) :
    splitSign (signText signed power ++ Nat.toDigits 10 n) =
      (decide (power < 0), Nat.toDigits 10 n) := by
  cases signed with
  | false => exact splitSign_toDigits (power < 0) n
  | true =>
      rw [signText]
      split
      · next h =>
          rw [decide_eq_true h]
          rfl
      · next h =>
          rw [decide_eq_false h]
          rfl

theorem readExponent?_powerText (signed : Bool) (power : Int) :
    readExponent? (powerText signed power) = some power := by
  have hne : Nat.toDigits 10 power.natAbs ≠ [] := Nat.toDigits_ne_nil
  have hds := isDigit_of_mem_toDigits power.natAbs
  have hall : (Nat.toDigits 10 power.natAbs).all Char.isDigit = true := List.all_eq_true.2 hds
  rw [powerText, readExponent?, if_pos (.inl rfl), splitSign_signText]
  simp only [hall, foldDigits_toDigits, decide_eq_true_eq]
  rw [if_pos ⟨hne, trivial⟩]
  split <;> exact congrArg some (by omega)

section Unsigned

variable {whole fraction rest : List Char}

/-- Digits without a point are the whole number. -/
theorem readUnsigned?_append (hne : whole ≠ []) (hwhole : ∀ c ∈ whole, c.isDigit = true)
    (hrest : ∀ c ∈ rest.head?, c.isDigit = false) (hpoint : rest.head? ≠ some '.') :
    readUnsigned? (whole ++ rest) = (readExponent? rest).map (⟨foldDigits 0 whole, ·⟩) := by
  have hempty : whole.isEmpty = false := List.isEmpty_eq_false_iff.2 hne
  rw [readUnsigned?, splitDigits_append hwhole hrest]
  simp only
  split
  · exact absurd rfl hpoint
  · simp only [hempty, Bool.false_and, foldDigits, List.foldl_nil, List.length_nil, Int.ofNat_zero,
      Int.sub_zero]
    rfl

/-- Digits behind a point are the fraction. -/
theorem readUnsigned?_point (hne : whole ≠ []) (hwhole : ∀ c ∈ whole, c.isDigit = true)
    (hfraction : ∀ c ∈ fraction, c.isDigit = true)
    (hrest : ∀ c ∈ rest.head?, c.isDigit = false) :
    readUnsigned? (whole ++ '.' :: (fraction ++ rest)) =
      (readExponent? rest).map
        fun e => ⟨foldDigits (foldDigits 0 whole) fraction, e - fraction.length⟩ := by
  have hempty : whole.isEmpty = false := List.isEmpty_eq_false_iff.2 hne
  have hhead : ∀ c ∈ ('.' :: (fraction ++ rest)).head?, c.isDigit = false := by
    rintro c ⟨⟩
    rfl
  rw [readUnsigned?, splitDigits_append hwhole hhead]
  simp only [splitDigits_append hfraction hrest, hempty, Bool.false_and]
  rfl

end Unsigned

/-- Digits with a point, a power of ten or both behind the first of them. -/
structure Numeral where
  whole : List Char
  fraction : List Char
  power : Option Int
  /-- Whether a positive power of ten has a sign. -/
  signed : Bool
  whole_ne : whole ≠ []
  whole_digits : ∀ c ∈ whole, c.isDigit = true
  fraction_digits : ∀ c ∈ fraction, c.isDigit = true
  marked : fraction ≠ [] ∨ power ≠ none

namespace Numeral

/-- The point with the digits behind it, if there are any. -/
def fractionText (n : Numeral) : List Char :=
  if n.fraction = [] then [] else '.' :: n.fraction

/-- The characters of a numeral. -/
def text (n : Numeral) : List Char :=
  n.whole ++ (n.fractionText ++ n.power.elim [] (powerText n.signed))

/-- The decimal that a numeral denotes. -/
def value (n : Numeral) : Decimal :=
  ⟨foldDigits 0 (n.whole ++ n.fraction), n.power.getD 0 - n.fraction.length⟩

theorem readExponent?_power (n : Numeral) :
    readExponent? (n.power.elim [] (powerText n.signed)) = some (n.power.getD 0) := by
  cases n.power with
  | none => rfl
  | some power => exact readExponent?_powerText n.signed power

/-- The digits of a numeral end where its power begins. -/
theorem head_power (n : Numeral) :
    ∀ c ∈ (n.power.elim [] (powerText n.signed)).head?, c = 'e' := by
  intro c hc
  cases hpower : n.power with
  | none =>
      rw [hpower] at hc
      cases hc
  | some power =>
      rw [hpower] at hc
      cases hc
      rfl

theorem readUnsigned?_text (n : Numeral) : readUnsigned? n.text = some n.value := by
  have hpower : ∀ c ∈ (n.power.elim [] (powerText n.signed)).head?, c.isDigit = false := by
    intro c hc
    rw [n.head_power c hc]
    rfl
  by_cases hnil : n.fraction = []
  · have hpoint : (n.power.elim [] (powerText n.signed)).head? ≠ some '.' := fun h => by
      cases n.head_power '.' h
    rw [text, fractionText, if_pos hnil, List.nil_append,
      readUnsigned?_append n.whole_ne n.whole_digits hpower hpoint, readExponent?_power, value, hnil,
      List.append_nil]
    exact congrArg (fun e => some (Decimal.mk _ e)) (Int.sub_zero _).symm
  · rw [text, fractionText, if_neg hnil, List.cons_append,
      readUnsigned?_point n.whole_ne n.whole_digits n.fraction_digits hpower, readExponent?_power,
      value, foldDigits_append]
    rfl

theorem exists_head (n : Numeral) : ∃ c, n.text.head? = some c ∧ c.isDigit = true := by
  obtain ⟨c, rest, hwhole⟩ := List.exists_cons_of_ne_nil n.whole_ne
  refine ⟨c, ?_, n.whole_digits c ?_⟩
  · rw [text, hwhole]
    rfl
  · rw [hwhole]
    exact List.mem_cons_self

/-- Digits on both sides of a point are a numeral. -/
theorem exists_pointed {whole fraction : List Char} (hwhole : whole ≠ [])
    (hwholes : ∀ c ∈ whole, c.isDigit = true) (hfraction : fraction ≠ [])
    (hfractions : ∀ c ∈ fraction, c.isDigit = true) :
    ∃ n : Numeral, n.text = whole ++ '.' :: fraction ∧
      n.value = ⟨foldDigits 0 (whole ++ fraction), -(fraction.length : Int)⟩ := by
  refine ⟨⟨whole, fraction, none, false, hwhole, hwholes, hfractions, .inl hfraction⟩, ?_, ?_⟩
  · rw [text, fractionText, if_neg hfraction, Option.elim_none, List.append_nil]
  · rw [value, Option.getD_none, Int.zero_sub]

end Numeral

section Plain

variable {d : Decimal} {ds : List Char}

/-- Zeros behind the digits make up for a positive exponent. -/
theorem exists_numeral_whole (hne : ds ≠ []) (hds : ∀ c ∈ ds, c.isDigit = true)
    (hfold : foldDigits 0 ds = d.digits) (hexponent : 0 ≤ d.exponent) :
    ∃ n : Numeral, n.text = ds ++ List.replicate d.exponent.toNat '0' ++ ['.', '0'] ∧
      n.value.nearestMagnitude = d.nearestMagnitude := by
  obtain ⟨n, htext, hvalue⟩ := Numeral.exists_pointed
    (List.append_ne_nil_of_left_ne_nil hne _)
    (List.forall_mem_append.2 ⟨hds, isDigit_of_mem_zeros d.exponent.toNat⟩)
    (List.cons_ne_nil '0' []) (isDigit_of_mem_zeros 1)
  refine ⟨n, htext, ?_⟩
  have hone : ['0'] = List.replicate 1 '0' := rfl
  have hdigits : foldDigits 0 (ds ++ List.replicate d.exponent.toNat '0' ++ ['0']) =
      d.digits * Nat.pow 10 (d.exponent.toNat + 1) := by
    rw [foldDigits_append, foldDigits_append, hfold, foldDigits_zeros, hone, foldDigits_zeros]
    exact Nat.mul_assoc _ _ _
  have hpower : -(([('0' : Char)].length : Nat) : Int) =
      d.exponent - (d.exponent.toNat + 1 : Nat) := by
    rw [List.length_singleton]
    omega
  calc n.value.nearestMagnitude
      = nearestMagnitude ⟨d.digits * Nat.pow 10 (d.exponent.toNat + 1),
          d.exponent - (d.exponent.toNat + 1 : Nat)⟩ := by rw [hvalue, hdigits, hpower]
    _ = d.nearestMagnitude := nearestMagnitude_scale d.digits d.exponent _

/-- A point among the digits stands for an exponent that is less than their number. -/
theorem exists_numeral_inside (hds : ∀ c ∈ ds, c.isDigit = true)
    (hfold : foldDigits 0 ds = d.digits) (hexponent : ¬ 0 ≤ d.exponent)
    (hplaces : (-d.exponent).toNat < ds.length) :
    ∃ n : Numeral, n.text = ds.take (ds.length - (-d.exponent).toNat) ++
        '.' :: ds.drop (ds.length - (-d.exponent).toNat) ∧
      n.value.nearestMagnitude = d.nearestMagnitude := by
  have hwhole : ds.take (ds.length - (-d.exponent).toNat) ≠ [] := by
    apply List.ne_nil_of_length_pos
    rw [List.length_take]
    omega
  have hfraction : ds.drop (ds.length - (-d.exponent).toNat) ≠ [] := by
    apply List.ne_nil_of_length_pos
    rw [List.length_drop]
    omega
  obtain ⟨n, htext, hvalue⟩ := Numeral.exists_pointed hwhole
    (fun c hc => hds c (List.mem_of_mem_take hc)) hfraction
    (fun c hc => hds c (List.mem_of_mem_drop hc))
  refine ⟨n, htext, ?_⟩
  have hpower : -((ds.drop (ds.length - (-d.exponent).toNat)).length : Int) = d.exponent := by
    rw [List.length_drop]
    omega
  rw [hvalue, List.take_append_drop, hfold, hpower]

/-- Zeros between the point and the digits stand for a smaller exponent. -/
theorem exists_numeral_behind (hne : ds ≠ []) (hds : ∀ c ∈ ds, c.isDigit = true)
    (hfold : foldDigits 0 ds = d.digits) (hexponent : ¬ 0 ≤ d.exponent)
    (hplaces : ¬ (-d.exponent).toNat < ds.length) :
    ∃ n : Numeral,
      n.text = '0' :: '.' :: (List.replicate ((-d.exponent).toNat - ds.length) '0' ++ ds) ∧
        n.value.nearestMagnitude = d.nearestMagnitude := by
  obtain ⟨n, htext, hvalue⟩ := Numeral.exists_pointed
    (List.cons_ne_nil '0' []) (isDigit_of_mem_zeros 1)
    (List.append_ne_nil_of_right_ne_nil _ hne)
    (List.forall_mem_append.2 ⟨isDigit_of_mem_zeros ((-d.exponent).toNat - ds.length), hds⟩)
  refine ⟨n, htext, ?_⟩
  have hzero : foldDigits 0 ['0'] = 0 := rfl
  have hpower : -((List.replicate ((-d.exponent).toNat - ds.length) '0' ++ ds).length : Int) =
      d.exponent := by
    rw [List.length_append, List.length_replicate]
    omega
  rw [hvalue, foldDigits_append, hzero, foldDigits_append, foldDigits_zeros, Nat.zero_mul, hfold,
    hpower]

/-- The digits with a point are a numeral for the decimal. -/
theorem exists_numeral_plainText (d : Decimal) :
    ∃ n : Numeral, n.text = d.plainText ∧ n.value.nearestMagnitude = d.nearestMagnitude := by
  have hne : Nat.toDigits 10 d.digits ≠ [] := Nat.toDigits_ne_nil
  have hds := isDigit_of_mem_toDigits d.digits
  have hfold := foldDigits_toDigits d.digits
  rw [plainText]
  split
  · next hexponent => exact exists_numeral_whole hne hds hfold hexponent
  · next hexponent =>
      simp only
      split
      · next hplaces => exact exists_numeral_inside hds hfold hexponent hplaces
      · next hplaces => exact exists_numeral_behind hne hds hfold hexponent hplaces

end Plain

/-- The digits with a power of ten are a numeral for the decimal. -/
theorem exists_numeral_scientificText (signed : Bool) (d : Decimal) :
    ∃ n : Numeral, n.text = d.scientificText signed ∧
      n.value.nearestMagnitude = d.nearestMagnitude := by
  have hds := isDigit_of_mem_toDigits d.digits
  have hfold := foldDigits_toDigits d.digits
  cases hdigits : Nat.toDigits 10 d.digits with
  | nil => exact absurd hdigits Nat.toDigits_ne_nil
  | cons first rest =>
      rw [hdigits] at hds hfold
      obtain ⟨hfirst, hrest⟩ := List.forall_mem_cons.1 hds
      refine ⟨{
        whole := [first]
        fraction := rest
        power := some d.leadingPower
        signed := signed
        whole_ne := List.cons_ne_nil _ _
        whole_digits := List.forall_mem_singleton.2 hfirst
        fraction_digits := hrest
        marked := .inr (Option.some_ne_none _) }, ?_, ?_⟩
      · rw [scientificText, hdigits]
        cases rest <;> rfl
      · have hexponent : d.leadingPower - rest.length = d.exponent := by
          rw [leadingPower, hdigits, List.length_cons]
          omega
        rw [Numeral.value]
        exact congrArg nearestMagnitude (congrArg₂ Decimal.mk hfold hexponent)

/-- What is written for a decimal is a numeral for it. -/
theorem exists_numeral_text (style : NumberStyle) (d : Decimal) :
    ∃ n : Numeral, n.text = d.text style ∧ n.value.nearestMagnitude = d.nearestMagnitude := by
  rw [text]
  split
  · exact exists_numeral_plainText d
  · exact exists_numeral_scientificText style.signedExponent d

end Decimal

namespace TextClass

open Pattern Decimal

theorem matches_integer (negative : Prop) [Decidable negative] {ds : List Char} (hne : ds ≠ [])
    (hds : ∀ c ∈ ds, c.isDigit = true) : integerPattern.Matches (minusText negative ++ ds) := by
  refine .sequence (matches_optional.2 ?_) (matches_repeated.2 ⟨hne, hds⟩)
  rw [minusText]
  split
  · exact .inl (matches_char.2 rfl)
  · exact .inr rfl

theorem matches_power (signed : Bool) (power : Int) :
    exponentPattern.Matches (powerText signed power) := by
  have hmark : Matches (one fun c => c = 'e' || c = 'E') ['e'] := .one rfl
  refine .sequence hmark (.sequence (matches_optional.2 ?_)
    (matches_repeated.2 ⟨Nat.toDigits_ne_nil, isDigit_of_mem_toDigits _⟩))
  rw [signText]
  split
  · exact .inl (.one rfl)
  · split
    · exact .inl (.one rfl)
    · exact .inr rfl

/-- A numeral with an optional minus is a floating-point numeral. -/
theorem matches_float (negative : Prop) [Decidable negative] (n : Numeral) :
    floatPattern.Matches (minusText negative ++ n.text) := by
  rw [Numeral.text, ← List.append_assoc]
  refine .sequence (matches_integer negative n.whole_ne n.whole_digits) ?_
  rw [Numeral.fractionText]
  by_cases hfraction : n.fraction = []
  · rw [if_pos hfraction, List.nil_append]
    cases hpower : n.power with
    | none => exact absurd hpower (n.marked.resolve_left (absurd hfraction))
    | some power => exact .second (matches_power n.signed power)
  · rw [if_neg hfraction]
    have hpoint : Matches (char '.') ['.'] := matches_char.2 rfl
    refine .first (.sequence (.sequence hpoint
      (matches_repeated.2 ⟨hfraction, n.fraction_digits⟩)) (matches_optional.2 ?_))
    cases n.power with
    | none => exact .inr rfl
    | some power => exact .inl (matches_power n.signed power)

end TextClass

namespace Binary64

open Decimal

/-- What is written for a finite number is a numeral with its sign. -/
theorem exists_numeral_text {style : NumberStyle} {x : Binary64} (h : x.isFinite = true) :
    ∃ n : Numeral, (x.text style).toList = minusText (x.negative = true) ++ n.text ∧
      n.value.nearestMagnitude = x.magnitude := by
  have hfinite : x.magnitude < infinity := of_decide_eq_true h
  have hnumber : x.isNaN = false := decide_eq_false hfinite.not_gt
  obtain ⟨n, htext, hvalue⟩ :=
    Decimal.exists_numeral_text style (shortest style.tie x.magnitude)
  refine ⟨n, ?_, hvalue.trans (nearestMagnitude_shortest _ hfinite)⟩
  rw [Binary64.text, hnumber, if_neg Bool.false_ne_true, if_pos h, String.toList_ofList, htext]
  rfl

/-- A written number reads back to itself. -/
theorem read?_text {style : NumberStyle} {x : Binary64} (h : x.isFinite = true) :
    read? (x.text style) = some x := by
  obtain ⟨n, htext, hvalue⟩ := exists_numeral_text h
  have hsplit : splitSign (x.text style).toList = (x.negative, n.text) := by
    rw [htext, Numeral.text, splitSign_minusText _ n.whole_ne n.whole_digits, Bool.decide_eq_true]
  have hword (word : List Char) (hletter : word.head?.any Char.isDigit = false) :
      n.text.map Char.toLower ≠ word := by
    rintro rfl
    obtain ⟨c, hc, hdigit⟩ := n.exists_head
    refine Bool.false_ne_true (hletter.symm.trans ?_)
    rw [List.head?_map, hc, Option.map_some, toLower_of_isDigit hdigit, Option.any_some, hdigit]
  have hnumber : ofDecimal x.negative n.value = x := by
    have hmin : min x.magnitude infinity = x.magnitude :=
      Nat.min_eq_left (of_decide_eq_true h : x.magnitude < infinity).le
    simp only [ofDecimal, ofMagnitude, hvalue, hmin]
  rw [read?, hsplit]
  simp only [n.readUnsigned?_text, Option.map_some, hnumber]
  rw [if_neg (not_or_intro (hword _ (by decide)) (hword _ (by decide))),
    if_neg (hword _ (by decide))]

/-- A written number is a floating-point numeral. -/
theorem matches_text {style : NumberStyle} {x : Binary64} (h : x.isFinite = true) :
    TextClass.floatPattern.Matches (x.text style).toList := by
  obtain ⟨n, htext, -⟩ := exists_numeral_text h
  rw [htext]
  exact TextClass.matches_float _ n

end Binary64

section Integers

open Decimal

theorem toList_toString (i : Int) :
    (toString i).toList = minusText (i < 0) ++ Nat.toDigits 10 i.natAbs := by
  have htext : toString i = i.repr := rfl
  rw [htext, Int.repr_eq_if, minusText]
  by_cases h : i < 0
  · have hnat : (-i).toNat = i.natAbs := by omega
    rw [if_neg (Int.not_le.2 h), if_pos h, hnat, String.toList_append, Nat.toList_repr]
    rfl
  · have hnat : i.toNat = i.natAbs := by omega
    rw [if_pos (Int.not_lt.1 h), if_neg h, hnat, Nat.toList_repr]
    rfl

/-- A written integer reads back to itself. -/
theorem Compile.readInteger?_toString (i : Int64) :
    Compile.readInteger? (toString i.toInt) = some i := by
  have hne : Nat.toDigits 10 i.toInt.natAbs ≠ [] := Nat.toDigits_ne_nil
  have hds := isDigit_of_mem_toDigits i.toInt.natAbs
  have hall : (Nat.toDigits 10 i.toInt.natAbs).all Char.isDigit = true := List.all_eq_true.2 hds
  have hvalue : (if i.toInt < 0 then -(i.toInt.natAbs : Int) else i.toInt.natAbs) = i.toInt := by
    omega
  rw [readInteger?, toList_toString, splitSign_toDigits]
  simp only [foldDigits_toDigits, decide_eq_true_eq, hvalue]
  rw [if_pos ⟨hne, hall, i.minValue_le_toInt, i.toInt_le⟩, Int64.ofInt_toInt]

/-- A written integer is an integer. -/
theorem TextClass.matches_toString (i : Int) : integerPattern.Matches (toString i).toList := by
  rw [toList_toString]
  exact matches_integer _ Nat.toDigits_ne_nil (isDigit_of_mem_toDigits _)

end Integers

end DatalogPolicy

import SymbolicAlgebra.Expr.Rendering
import SymbolicAlgebra.Proofs.FractionArithmetic
import SymbolicAlgebra.Proofs.IntegerText

/-!
# Exact numbers as text

The text of an exact number is determined by its value: signs, and the decimal digits of
numerators and denominators.  The value is read back by taking signs and digits off the
front again, whatever the size of the digits.

Arithmetic reaches fractions that have the least integer as numerator, although no
constructor takes them.  Markup sets the sign of a fraction in front of it and negates the
numerator, which leaves the range here.  In both styles the same happens to an imaginary
fraction of this kind behind a real part.  All other exact numbers are written.
-/

namespace SymbolicAlgebra

open Decimal

/-! ## Spelling of values -/

namespace Ratio

/-- The minus sign of a negative fraction. -/
def sign (ratio : ℚ) : List Char := if ratio.num < 0 then ['-'] else []

/-- The digits of the numerator, and behind a slash those of the denominator unless it is
one. -/
def digits (ratio : ℚ) : List Char :=
  Nat.toDigits 10 ratio.num.natAbs ++
    if ratio.den = 1 then [] else '/' :: Nat.toDigits 10 ratio.den

end Ratio

namespace Style

/-- The digits of a fraction, which markup sets above each other. -/
def fractionDigits : Style → ℚ → List Char
  | plain, ratio => Ratio.digits ratio
  | markup, ratio =>
      if ratio.den = 1 then Ratio.digits ratio
      else "\\frac\x7b".toList ++ Nat.toDigits 10 ratio.num.natAbs ++
        '\x7d' :: '\x7b' :: Nat.toDigits 10 ratio.den ++ ['\x7d']

/-- How an exact value is written.  A real part of zero is left out in front of an imaginary
part. -/
def spelling (style : Style) (value : GaussianRational) : List Char :=
  if value.im = 0 then Ratio.sign value.re ++ style.fractionDigits value.re
  else if value.re = 0 then Ratio.sign value.im ++ Ratio.digits value.im ++ ['i']
  else Ratio.sign value.re ++ Ratio.digits value.re ++
    (if value.im.num < 0 then '-' else '+') :: Ratio.digits value.im ++ ['i']

/-- The least integer is negated where the value is written. -/
def Overflows (style : Style) (value : GaussianRational) : Prop :=
  (style = markup ∧ value.im = 0 ∧ value.re.num = minInt ∧ value.re.den ≠ 1) ∨
    (value.re ≠ 0 ∧ value.im.num = minInt ∧ ¬ (value.re.den = 1 ∧ value.im.den = 1))

end Style

namespace Ratio

theorem toList_toString_int (whole : ℤ) :
    (toString whole).toList = sign whole ++ Nat.toDigits 10 whole.natAbs := by
  cases whole with
  | ofNat magnitude =>
      have unsigned : sign (Int.ofNat magnitude) = [] := by simp [sign]
      rw [toList_toString_ofNat, unsigned, List.nil_append]
      rfl
  | negSucc magnitude =>
      have signed : sign (Int.negSucc magnitude) = ['-'] := if_pos (Int.negSucc_lt_zero magnitude)
      rw [toList_toString_negSucc, signed]
      rfl

theorem digits_int (whole : ℤ) : digits whole = Nat.toDigits 10 whole.natAbs := by
  rw [digits, Rat.num_intCast, Rat.den_intCast, if_pos rfl, List.append_nil]

theorem digits_neg (ratio : ℚ) : digits (-ratio) = digits ratio := by
  rw [digits, Rat.neg_num, Rat.neg_den, Int.natAbs_neg, digits]

theorem sign_of_num (ratio : ℚ) : sign ratio = sign ratio.num := by
  rw [sign, sign, Rat.num_intCast]

theorem toList_toText (ratio : ℚ) : (toText ratio).toList = sign ratio ++ digits ratio := by
  rw [toText, digits, isInteger, sign_of_num]
  by_cases whole : ratio.den = 1
  · rw [if_pos (beq_iff_eq.mpr whole), toList_toString_int, if_pos whole, List.append_nil]
  · rw [if_neg (by simpa using whole), if_neg whole, String.toList_append, String.toList_append,
      toList_toString_int, toList_toString_nat, List.append_assoc, List.append_assoc]
    rfl

/-- The magnitude of a fraction is written with its digits alone. -/
theorem toList_toText_magnitude (ratio : ℚ) :
    (toText (if ratio.num < 0 then -ratio else ratio)).toList = digits ratio := by
  have unsigned : sign (if ratio.num < 0 then -ratio else ratio) = [] := by
    rw [sign, if_neg]
    split
    · rw [Rat.neg_num]
      omega
    · assumption
  rw [toList_toText, unsigned, List.nil_append]
  split
  · exact digits_neg ratio
  · rfl

end Ratio

/-! ## Reading values back -/

/-- The number whose digits stand in front of a text, and the text behind them. -/
def Decimal.digitsAhead? (text : List Char) : Option (ℕ × List Char) := do
  pure (← readDigits? (text.takeWhile Char.isDigit), text.dropWhile Char.isDigit)

namespace Ratio

/-- The fraction without a sign in front of a text, and the text behind it. -/
def magnitudeAhead? (text : List Char) : Option (ℚ × List Char) := do
  let (numerator, behind) ← digitsAhead? text
  match behind with
  | '/' :: behind =>
      let (denominator, behind) ← digitsAhead? behind
      pure (numerator / denominator, behind)
  | behind => pure (numerator, behind)

/-- The fraction with an optional sign in front of a text, and the text behind it. -/
def ahead? (text : List Char) : Option (ℚ × List Char) := do
  let (negative, unsigned) := splitSign text
  let (magnitude, behind) ← magnitudeAhead? unsigned
  pure (if negative then -magnitude else magnitude, behind)

/-- Two numbers in braces, as markup sets a fraction. -/
def ofBraces? (text : List Char) : Option ℚ := do
  let (numerator, behind) ← digitsAhead? text
  match behind with
  | '\x7d' :: '\x7b' :: behind =>
      match ← digitsAhead? behind with
      | (denominator, ['\x7d']) => pure (numerator / denominator)
      | _ => none
  | _ => none

end Ratio

namespace Style

/-- A real part, an imaginary part, or both. -/
def readParts? (text : List Char) : Option GaussianRational := do
  let (first, behind) ← Ratio.ahead? text
  match behind with
  | [] => pure ⟨first, 0⟩
  | ['i'] => pure ⟨0, first⟩
  | behind =>
      match ← Ratio.ahead? behind with
      | (second, ['i']) => pure ⟨first, second⟩
      | _ => none

/-- The value that a text stands for. -/
def read? : Style → List Char → Option GaussianRational
  | plain, text => readParts? text
  | markup, text =>
      match splitSign text with
      | (negative, '\\' :: 'f' :: 'r' :: 'a' :: 'c' :: '\x7b' :: parts) => do
          let magnitude ← Ratio.ofBraces? parts
          pure ⟨if negative then -magnitude else magnitude, 0⟩
      | _ => readParts? text

end Style

/-- No digit stands in front of the text. -/
def Decimal.EndsDigits (text : List Char) : Prop := ∀ c ∈ text.head?, c.isDigit = false

theorem Decimal.digitsAhead?_toDigits (number : ℕ) {rest : List Char} (ends : EndsDigits rest) :
    digitsAhead? (Nat.toDigits 10 number ++ rest) = some (number, rest) := by
  have isDigit : ∀ c ∈ Nat.toDigits 10 number, c.isDigit = true :=
    List.all_eq_true.mp (all_isDigit_toDigits number)
  have stops : rest.takeWhile Char.isDigit = [] ∧ rest.dropWhile Char.isDigit = rest := by
    cases rest with
    | nil => exact ⟨rfl, rfl⟩
    | cons first rest =>
        have other : ¬ first.isDigit = true := by simp [ends first rfl]
        exact ⟨List.takeWhile_cons_of_neg other, List.dropWhile_cons_of_neg other⟩
  rw [digitsAhead?, List.takeWhile_append_of_pos isDigit, List.dropWhile_append_of_pos isDigit,
    stops.1, stops.2, List.append_nil, readDigits?_toDigits]
  rfl

namespace Ratio

variable {rest : List Char}

/-- Behind the digits of a fraction there is neither another digit nor a slash. -/
def Ends (rest : List Char) : Prop := ∀ c ∈ rest.head?, c.isDigit = false ∧ c ≠ '/'

theorem magnitudeAhead?_digits (ratio : ℚ) (ends : Ends rest) :
    magnitudeAhead? (digits ratio ++ rest) = some ((ratio.num.natAbs : ℚ) / ratio.den, rest) := by
  have endsDigits : EndsDigits rest := fun c first => (ends c first).1
  by_cases whole : ratio.den = 1
  · have text : digits ratio = Nat.toDigits 10 ratio.num.natAbs := by
      rw [digits, if_pos whole, List.append_nil]
    rw [text, whole, Nat.cast_one, div_one, magnitudeAhead?, digitsAhead?_toDigits _ endsDigits]
    cases rest with
    | nil => rfl
    | cons first rest =>
        have other : first ≠ '/' := (ends first rfl).2
        simp [other]
  · have slash : EndsDigits ('/' :: (Nat.toDigits 10 ratio.den ++ rest)) := by
      rintro _ ⟨⟩
      rfl
    rw [digits, if_neg whole, List.append_assoc, List.cons_append, magnitudeAhead?,
      digitsAhead?_toDigits _ slash]
    simp [digitsAhead?_toDigits _ endsDigits]

/-- The fraction is its magnitude with its sign. -/
theorem signed_magnitude (ratio : ℚ) :
    (if ratio.num < 0 then -((ratio.num.natAbs : ℚ) / ratio.den)
      else (ratio.num.natAbs : ℚ) / ratio.den) = ratio := by
  conv_rhs => rw [← Rat.num_div_den ratio]
  have magnitude : (ratio.num.natAbs : ℚ) = ((ratio.num.natAbs : ℤ) : ℚ) := rfl
  split
  · rename_i negative
    rw [magnitude, Int.ofNat_natAbs_of_nonpos negative.le, Int.cast_neg, neg_div, neg_neg]
  · rename_i positive
    rw [magnitude, Int.natAbs_of_nonneg (not_lt.mp positive)]

theorem splitSign_digits (ratio : ℚ) (rest : List Char) :
    splitSign (digits ratio ++ rest) = (false, digits ratio ++ rest) := by
  rw [digits, List.append_assoc, splitSign_toDigits]

theorem splitSign_sign_digits (ratio : ℚ) (rest : List Char) :
    splitSign (sign ratio ++ digits ratio ++ rest) =
      (decide (ratio.num < 0), digits ratio ++ rest) := by
  rw [sign]
  split
  · rename_i negative
    rw [decide_eq_true negative]
    rfl
  · rename_i positive
    rw [decide_eq_false positive, List.nil_append, splitSign_digits]

theorem ahead?_of_splitSign {text : List Char} {ratio : ℚ} (ends : Ends rest)
    (split : splitSign text = (decide (ratio.num < 0), digits ratio ++ rest)) :
    ahead? text = some (ratio, rest) := by
  rw [ahead?, split]
  simp only [magnitudeAhead?_digits ratio ends, decide_eq_true_eq, Option.bind_eq_bind,
    Option.bind_some, Option.pure_def, signed_magnitude]

/-- Behind another part a sign is always written. -/
theorem ahead?_signed (ratio : ℚ) (ends : Ends rest) :
    ahead? ((if ratio.num < 0 then '-' else '+') :: (digits ratio ++ rest)) =
      some (ratio, rest) := by
  refine ahead?_of_splitSign ends ?_
  split
  · rename_i negative
    rw [decide_eq_true negative]
    rfl
  · rename_i positive
    rw [decide_eq_false positive]
    rfl

theorem ofBraces?_toDigits (numerator denominator : ℕ) :
    ofBraces? (Nat.toDigits 10 numerator ++
      '\x7d' :: '\x7b' :: Nat.toDigits 10 denominator ++ ['\x7d']) =
      some ((numerator : ℚ) / denominator) := by
  have closing (behind : List Char) : EndsDigits ('\x7d' :: behind) := by
    rintro _ ⟨⟩
    rfl
  rw [List.append_assoc, ofBraces?, List.cons_append, digitsAhead?_toDigits _ (closing _)]
  simp [digitsAhead?_toDigits _ (closing _)]

end Ratio

namespace Style

open Ratio

theorem readParts?_spelling (value : GaussianRational) :
    readParts? (plain.spelling value) = some value := by
  have endsEmpty : Ends [] := nofun
  have endsUnit : Ends ['i'] := by
    rintro _ ⟨⟩
    exact ⟨rfl, by decide⟩
  rw [spelling]
  split
  · rename_i real
    have first := ahead?_of_splitSign endsEmpty (splitSign_sign_digits value.re [])
    rw [List.append_nil] at first
    rw [fractionDigits, readParts?, first]
    exact congrArg some (QuadraticAlgebra.ext rfl real.symm)
  · split
    · rename_i zero
      rw [readParts?, ahead?_of_splitSign endsUnit (splitSign_sign_digits value.im _)]
      exact congrArg some (QuadraticAlgebra.ext zero.symm rfl)
    · have second := ahead?_signed value.im endsUnit
      have endsSign (behind : List Char) :
          Ends ((if value.im.num < 0 then '-' else '+') :: behind) := by
        rintro _ ⟨⟩
        split <;> exact ⟨rfl, by decide⟩
      have first := ahead?_of_splitSign (endsSign (digits value.im ++ ['i']))
        (splitSign_sign_digits value.re _)
      rw [List.append_assoc _ _ ['i'], List.cons_append, readParts?, first]
      generalize (if value.im.num < 0 then '-' else '+') = between at second ⊢
      simp [second]

/-- A text that starts with digits has no fraction in braces. -/
theorem read?_markup_digits (ratio : ℚ) (rest : List Char) :
    markup.read? (sign ratio ++ digits ratio ++ rest) =
      readParts? (sign ratio ++ digits ratio ++ rest) := by
  have notCommand : ∀ others, digits ratio ++ rest ≠ '\\' :: others := by
    intro others command
    cases start : Nat.toDigits 10 ratio.num.natAbs with
    | nil => exact Nat.toDigits_ne_nil start
    | cons first remaining =>
        have isDigit : first.isDigit = true :=
          Nat.isDigit_of_mem_toDigits (by decide) (by decide) (start ▸ List.mem_cons_self)
        rw [digits, start] at command
        obtain rfl : first = '\\' := (List.cons.inj command).1
        exact absurd isDigit (by decide)
  rw [read?, splitSign_sign_digits]
  split
  · rename_i command
    exact absurd (Prod.mk.inj command).2 (notCommand _)
  · rfl

theorem read?_markup_braces {ratio : ℚ} (broken : ratio.den ≠ 1) :
    markup.read? (sign ratio ++ markup.fractionDigits ratio) = some ⟨ratio, 0⟩ := by
  have command : splitSign (sign ratio ++ markup.fractionDigits ratio) =
      (decide (ratio.num < 0), markup.fractionDigits ratio) := by
    rw [fractionDigits, if_neg broken, sign]
    split
    · rename_i negative
      rw [decide_eq_true negative]
      rfl
    · rename_i positive
      rw [decide_eq_false positive]
      rfl
  have parts : markup.fractionDigits ratio = '\\' :: 'f' :: 'r' :: 'a' :: 'c' :: '\x7b' ::
      (Nat.toDigits 10 ratio.num.natAbs ++
        '\x7d' :: '\x7b' :: Nat.toDigits 10 ratio.den ++ ['\x7d']) := by
    rw [fractionDigits, if_neg broken]
    rfl
  rw [read?, command, parts]
  simp only [ofBraces?_toDigits, decide_eq_true_eq, Option.bind_eq_bind, Option.bind_some,
    Option.pure_def, signed_magnitude]

/-- Every value is read back from its spelling. -/
theorem read?_spelling (style : Style) (value : GaussianRational) :
    style.read? (style.spelling value) = some value := by
  have parts := readParts?_spelling value
  cases style with
  | plain => exact parts
  | markup =>
      rw [spelling] at parts ⊢
      split
      · rename_i real
        rw [if_pos real, fractionDigits] at parts
        by_cases whole : value.re.den = 1
        · have digits := read?_markup_digits value.re []
          rw [List.append_nil] at digits
          rw [fractionDigits, if_pos whole, digits, parts]
        · rw [read?_markup_braces whole]
          exact congrArg some (QuadraticAlgebra.ext rfl real.symm)
      · rename_i complex
        rw [if_neg complex] at parts
        split
        · rename_i zero
          rw [if_pos zero] at parts
          rw [read?_markup_digits, parts]
        · rename_i nonzero
          rw [if_neg nonzero] at parts
          rw [List.append_assoc _ _ ['i'], read?_markup_digits, ← List.append_assoc, parts]

end Style

namespace Number

variable {number : Number} {value : GaussianRational} {style : Style}

theorem toList_complexText (re : String) (negative : Bool) (magnitude : String) :
    (complexText re negative magnitude).toList =
      re.toList ++ (if negative then '-' else '+') :: magnitude.toList ++ ['i'] := by
  rw [complexText, String.toList_append, String.toList_append, String.toList_append]
  cases negative <;> simp

/-- Every exact number in normal form is spelled by its value. -/
theorem Represents.toList_numberText (represents : number.Represents value) :
    (style.numberText number).toList = style.spelling value := by
  obtain ⟨canonical, denotes⟩ := represents
  cases number with
  | int whole =>
      obtain rfl := Option.some.inj denotes
      have digits : style.fractionDigits whole = Nat.toDigits 10 whole.natAbs := by
        cases style <;> simp [Style.fractionDigits, Ratio.digits_int]
      have text : style.numberText (.int whole) = toString whole := by cases style <;> rfl
      rw [text, Ratio.toList_toString_int, Style.spelling, if_pos rfl, digits]
  | rational ratio =>
      obtain rfl := Option.some.inj denotes
      rw [Style.spelling, if_pos rfl]
      cases style with
      | plain =>
          have text : Style.plain.numberText (.rational ratio) = Ratio.toText ratio := by
            rw [Ratio.toText, Ratio.isInteger, if_neg (by simpa using canonical.2)]
            rfl
          rw [text, Ratio.toList_toText]
          rfl
      | markup =>
          rw [Style.numberText, Style.fractionDigits, if_neg canonical.2]
          simp only [Style.braced, String.toList_append, toList_toString_nat, Ratio.sign]
          split <;> simp
  | complexInt parts =>
      obtain rfl := Option.some.inj denotes
      have text : style.numberText (.complexInt parts) = (Number.complexInt parts).text := by
        cases style <;> rfl
      have imaginary : (parts.im : ℚ) ≠ 0 := Int.cast_ne_zero.mpr canonical.2.2
      rw [text, Number.text, Style.spelling, if_neg imaginary]
      by_cases zero : parts.re = 0
      · rw [if_pos zero, if_pos (Int.cast_eq_zero.mpr zero), String.toList_append,
          Ratio.toList_toString_int, Ratio.digits_int]
        rfl
      · rw [if_neg zero, if_neg (Int.cast_ne_zero.mpr zero), toList_complexText,
          Ratio.toList_toString_int, toList_toString_nat]
        simp only [Ratio.digits_int, Rat.num_intCast, decide_eq_true_eq]
        congr
  | complexRational parts =>
      obtain rfl := Option.some.inj denotes
      have text : style.numberText (.complexRational parts) =
          (Number.complexRational parts).text := by
        cases style <;> rfl
      rw [text, Number.text, Style.spelling, if_neg canonical.2.2.1]
      by_cases zero : parts.re = 0
      · rw [if_pos zero, if_pos zero, String.toList_append, Ratio.toList_toText]
        rfl
      · rw [if_neg zero, if_neg zero, toList_complexText, Ratio.toList_toText,
          Ratio.toList_toText_magnitude]
        simp only [decide_eq_true_eq]
  | real _ | complexReal _ => contradiction

/-! ## Numbers that are written -/

theorem inRange_neg_iff {whole : ℤ} (inRange : InRange whole) :
    InRange (-whole) ↔ whole ≠ minInt := by
  simp only [InRange, minInt, maxInt] at inRange ⊢
  omega

theorem written?_eq_none_iff : style.written? number = none ↔
    ∃ whole, style.negated? number = some whole ∧ ¬ InRange (-whole) := by
  rw [Style.written?, Style.writes]
  cases style.negated? number <;> simp

/-- In the range only the least integer has no negation. -/
theorem exists_negated_iff {condition : Prop} [Decidable condition] {whole : ℤ}
    (inRange : InRange whole) :
    (∃ other, (if condition then some whole else none) = some other ∧ ¬ InRange (-other)) ↔
      condition ∧ whole = minInt := by
  simp only [Option.ite_none_right_eq_some, Option.some.injEq]
  constructor
  · rintro ⟨_, ⟨holds, rfl⟩, outside⟩
    exact ⟨holds, not_not.mp fun other => outside ((inRange_neg_iff inRange).mpr other)⟩
  · rintro ⟨holds, least⟩
    exact ⟨whole, ⟨holds, rfl⟩, fun inside => (inRange_neg_iff inRange).mp inside least⟩

/-- In normal form a number is written unless its value overflows. -/
theorem Represents.written?_eq_none_iff (represents : number.Represents value) :
    style.written? number = none ↔ style.Overflows value := by
  obtain ⟨canonical, denotes⟩ := represents
  have zero : (0 : ℤ) ≠ minInt := by decide
  have negative {whole : ℤ} (least : whole = minInt) : whole < 0 := least ▸ by decide
  rw [Number.written?_eq_none_iff, Style.Overflows]
  cases number with
  | int whole =>
      obtain rfl := Option.some.inj denotes
      have none : style.negated? (.int whole) = none := by cases style <;> rfl
      simp [none, zero]
  | rational ratio =>
      obtain rfl := Option.some.inj denotes
      cases style with
      | plain => simp [Style.negated?, negatedInText?, zero]
      | markup =>
          rw [Style.negated?, exists_negated_iff canonical.1.1, and_iff_right_of_imp negative]
          simp [zero, canonical.2]
  | complexInt parts =>
      obtain rfl := Option.some.inj denotes
      have none : style.negated? (.complexInt parts) = none := by cases style <;> rfl
      simp [none, canonical.2.2]
  | complexRational parts =>
      obtain rfl := Option.some.inj denotes
      have negated : style.negated? (.complexRational parts) =
          if parts.re ≠ 0 ∧ parts.im.num < 0 then some parts.im.num else none := by
        cases style <;> rfl
      obtain ⟨-, imInRange, imaginary, broken⟩ := canonical
      rw [negated, exists_negated_iff imInRange.1, and_assoc, and_iff_right_of_imp negative]
      simp [imaginary, broken]
  | real _ | complexReal _ => contradiction

/-- What is written is the spelling of the value. -/
theorem Represents.toList_of_written? (represents : number.Represents value) {text : String}
    (written : style.written? number = some text) : text.toList = style.spelling value := by
  obtain ⟨-, same⟩ := Option.ite_none_right_eq_some.mp written
  rw [← Option.some.inj same, represents.toList_numberText]

/-- A number leaf is written like its number. -/
theorem written?_leaf (number : Number) (mark : Mark) :
    (Expr.number number mark).written? style = style.written? number := rfl

/-! ## Results of arithmetic -/

/-- The exact numbers that arithmetic makes of integers and fractions. -/
inductive IsProduced : Number → Prop
  | int {whole : ℤ} : InRange whole → IsProduced (.int whole)
  | rational {ratio : ℚ} : Canonical (.rational ratio) → IsProduced (.rational ratio)
  | add {left right : Number} : IsProduced left → IsProduced right →
      (left.add right).isExact = true → IsProduced (left.add right)
  | sub {left right : Number} : IsProduced left → IsProduced right →
      (left.sub right).isExact = true → IsProduced (left.sub right)
  | mul {left right : Number} : IsProduced left → IsProduced right →
      (left.mul right).isExact = true → IsProduced (left.mul right)
  | div {left right : Number} : IsProduced left → IsProduced right →
      (left.div right).isExact = true → IsProduced (left.div right)
  | neg {operand : Number} : IsProduced operand → operand.neg.isExact = true →
      IsProduced operand.neg
  | conj {operand : Number} : IsProduced operand → operand.conj.isExact = true →
      IsProduced operand.conj

/-- Arithmetic does not leave the rationals, and its exact results are in normal form. -/
theorem IsProduced.represents (produced : number.IsProduced) :
    ∃ ratio : ℚ, number.Represents ⟨ratio, 0⟩ := by
  induction produced with
  | @int whole inRange => exact ⟨whole, inRange, rfl⟩
  | @rational ratio canonical => exact ⟨ratio, canonical, rfl⟩
  | add _ _ exact left right =>
      obtain ⟨⟨p, left⟩, ⟨q, right⟩⟩ := And.intro left right
      exact ⟨p + q, (IsFraction.of_represents left).add (.of_represents right) exact⟩
  | sub _ _ exact left right =>
      obtain ⟨⟨p, left⟩, ⟨q, right⟩⟩ := And.intro left right
      exact ⟨p - q, (IsFraction.of_represents left).sub (.of_represents right) exact⟩
  | mul _ _ exact left right =>
      obtain ⟨⟨p, left⟩, ⟨q, right⟩⟩ := And.intro left right
      exact ⟨p * q, (IsFraction.of_represents left).mul (.of_represents right) exact⟩
  | div _ _ exact left right =>
      obtain ⟨⟨p, left⟩, ⟨q, right⟩⟩ := And.intro left right
      exact ⟨p / q, ((IsFraction.of_represents left).div (.of_represents right) exact).2⟩
  | neg _ exact operand =>
      obtain ⟨ratio, canonical, denotes⟩ := operand
      have negated := neg_represents canonical denotes exact
      exact ⟨-ratio, negated.of_parts rfl neg_zero.symm⟩
  | conj _ exact operand =>
      obtain ⟨ratio, canonical, denotes⟩ := operand
      have conjugated := conj_represents canonical denotes exact
      exact ⟨ratio, conjugated.of_parts (by simp) (by simp)⟩

/-- The text that is written for the number spells the value, and it is read back as the value. -/
def Conveys (style : Style) (number : Number) (value : GaussianRational) : Prop :=
  ∃ text, style.written? number = some text ∧ text.toList = style.spelling value ∧
    style.read? text.toList = some value

theorem Represents.conveys (represents : number.Represents value)
    (fits : ¬ style.Overflows value) : Conveys style number value := by
  obtain ⟨text, written⟩ :=
    Option.ne_none_iff_exists'.mp (mt represents.written?_eq_none_iff.mp fits)
  have spelled := represents.toList_of_written? written
  exact ⟨text, written, spelled, by rw [spelled, Style.read?_spelling]⟩

/-- What arithmetic makes of integers and fractions is a rational.  It always has a plain text,
and it has markup unless it is a fraction with the least integer as numerator; both texts
spell the value, and it is read back from them.  The same holds of every exact number in
normal form, of complex ones as well, except where a negation leaves the range. -/
theorem exact_number_is_read_back_from_text (number : Number) :
    (number.IsProduced → ∃ ratio : ℚ, number.Represents ⟨ratio, 0⟩ ∧
      Conveys .plain number ⟨ratio, 0⟩ ∧
      (¬ (ratio.num = minInt ∧ ratio.den ≠ 1) → Conveys .markup number ⟨ratio, 0⟩) ∧
      (ratio.num = minInt ∧ ratio.den ≠ 1 → Style.markup.written? number = none)) ∧
    ∀ (style : Style) (value : GaussianRational), number.Represents value →
      (∀ mark, (Expr.number number mark).written? style = style.written? number) ∧
        (¬ style.Overflows value → Conveys style number value) ∧
        (style.Overflows value → style.written? number = none) := by
  refine ⟨fun produced => ?_, fun style value represents => ⟨written?_leaf number,
    represents.conveys, represents.written?_eq_none_iff.mpr⟩⟩
  obtain ⟨ratio, represents⟩ := produced.represents
  have zero : (0 : ℤ) ≠ minInt := by decide
  have plain : ¬ Style.plain.Overflows ⟨ratio, 0⟩ := by simp [Style.Overflows, zero]
  have markup : Style.markup.Overflows ⟨ratio, 0⟩ ↔ ratio.num = minInt ∧ ratio.den ≠ 1 := by
    simp [Style.Overflows, zero]
  exact ⟨ratio, represents, represents.conveys plain,
    fun fits => represents.conveys (mt markup.mp fits),
    fun least => represents.written?_eq_none_iff.mpr (markup.mpr least)⟩

/-- The least integer times a third is an exact fraction with a plain text and no markup. -/
theorem third_of_least_integer_has_no_markup :
    let product := (Number.int minInt).mul (.rational (1 / 3))
    product.IsProduced ∧ product = .rational (minInt / 3) ∧
      Style.plain.written? product = some "-9223372036854775808/3" ∧
      (Expr.number product).written? .markup = none := by
  have third : (Number.rational (1 / 3)).Canonical := ⟨by decide +kernel, by decide +kernel⟩
  have least : InRange minInt := by decide
  exact ⟨.mul (.int least) (.rational third) (by decide +kernel), by decide +kernel,
    by decide +kernel, by decide +kernel⟩

/-- The quotient of `2` and `-6` is set as a fraction with its sign in front. -/
theorem quotient_is_read_back_from_markup :
    let quotient := (Number.int 2).div (.int (-6))
    quotient.IsProduced ∧ Conveys .markup quotient ⟨-1 / 3, 0⟩ ∧
      Style.markup.spelling ⟨-1 / 3, 0⟩ = "-\\frac\x7b1\x7d\x7b3\x7d".toList := by
  intro quotient
  have produced : quotient.IsProduced :=
    .div (.int (by decide)) (.int (by decide)) (by decide +kernel)
  have value : quotient = .rational (-1 / 3) := by decide +kernel
  obtain ⟨ratio, represents, -, conveyed, -⟩ :=
    (exact_number_is_read_back_from_text quotient).1 produced
  rw [value] at represents
  obtain rfl : -1 / 3 = ratio :=
    congrArg QuadraticAlgebra.re (Option.some.inj represents.2)
  exact ⟨produced, conveyed (by decide +kernel), by decide +kernel⟩

end Number

end SymbolicAlgebra

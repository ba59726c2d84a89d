import SymbolicAlgebra.Arithmetic.Identities
import SymbolicAlgebra.Proofs.Reading

/-!
# Soundness of the identities

Every rule of arithmetic keeps the value of the operation that it is applied to,
provided that the arithmetic it falls back on does.  There is one statement for
each rule, and the rules of an operator are put together in the order in which
they are tried.

Exponents need more than a value: the exponent of a power is the leaf of an
integer, so arithmetic on two such leaves has to yield one again.
-/

namespace SymbolicAlgebra

variable {K : Type} [CommRing K] [Algebra ℚ K] {reading : Reading K}

/-- The tree is the leaf of a number, which is exact. -/
def IsExactLeaf (number : Number) (tree : Expr) : Prop :=
  number.isExact = true ∧ ∃ mark, tree = .number number mark

namespace Kernel

/-- Operations on two exact numbers are computed on the tower and stay exact
where they are defined. -/
structure Computes (allowed : Step → Prop) (kernel : Kernel) : Prop where
  binary : ∀ {op : ArithOp} {x y : Number} {inner outer : Mark}, x.isExact = true →
    y.isExact = true → op.isUndefinedAt x y = false →
      (kernel.binary op (.number x inner) (.number y outer)).Ensures allowed
        (IsExactLeaf (op.onNumbers x y))
  negate : ∀ {x : Number} {mark : Mark}, x.isExact = true →
    (kernel.negate (.number x mark)).Ensures allowed (IsExactLeaf x.neg)

/-- Every operation has the value that it has in the ring. -/
structure Sound (reading : Reading K) (kernel : Kernel) : Prop where
  computes : kernel.Computes reading.allowed
  binary : ∀ {op : ArithOp} {left right : Expr} {value : K},
    Means reading (.arith op left right) value →
      (kernel.binary op left right).Ensures reading.allowed (Means reading · value)
  negate : ∀ {operand : Expr} {value : K}, Means reading operand value →
    (kernel.negate operand).Ensures reading.allowed (Means reading · (-value))

namespace Computes

variable {allowed : Step → Prop} {kernel : Kernel} {left right : Expr} {m n : Int}

/-- An operation on integers whose value is an integer. -/
theorem whole (computes : kernel.Computes allowed) {op : ArithOp} {result : Int}
    (leftWhole : left.IsWhole m) (rightWhole : right.IsWhole n)
    (defined : op.isUndefinedAt (.int m) (.int n) = false)
    (represents : (op.onNumbers (.int m) (.int n)).isExact = true →
      (op.onNumbers (.int m) (.int n)).Represents ⟨(result : ℚ), 0⟩) :
    (kernel.binary op left right).Ensures allowed (·.IsWhole result) := by
  obtain ⟨_, inner, rfl⟩ := leftWhole
  obtain ⟨_, outer, rfl⟩ := rightWhole
  refine (computes.binary rfl rfl defined).mono ?_
  rintro _ ⟨exact, mark, rfl⟩
  obtain ⟨equal, inRange⟩ := (represents exact).eq_int
  exact ⟨inRange, mark, by rw [equal]⟩

theorem add (computes : kernel.Computes allowed) (leftWhole : left.IsWhole m)
    (rightWhole : right.IsWhole n) :
    (kernel.binary .add left right).Ensures allowed (·.IsWhole (m + n)) := by
  refine computes.whole leftWhole rightWhole rfl fun exact => ?_
  rw [Int.cast_add]
  exact (Number.isFraction_int leftWhole.1).add (Number.isFraction_int rightWhole.1) exact

theorem sub (computes : kernel.Computes allowed) (leftWhole : left.IsWhole m)
    (rightWhole : right.IsWhole n) :
    (kernel.binary .sub left right).Ensures allowed (·.IsWhole (m - n)) := by
  refine computes.whole leftWhole rightWhole rfl fun exact => ?_
  rw [Int.cast_sub]
  exact (Number.isFraction_int leftWhole.1).sub (Number.isFraction_int rightWhole.1) exact

theorem mul (computes : kernel.Computes allowed) (leftWhole : left.IsWhole m)
    (rightWhole : right.IsWhole n) :
    (kernel.binary .mul left right).Ensures allowed (·.IsWhole (m * n)) := by
  refine computes.whole leftWhole rightWhole rfl fun exact => ?_
  rw [Int.cast_mul]
  exact (Number.isFraction_int leftWhole.1).mul (Number.isFraction_int rightWhole.1) exact

theorem neg (computes : kernel.Computes allowed) (operandWhole : left.IsWhole m) :
    (kernel.negate left).Ensures allowed (·.IsWhole (-m)) := by
  obtain ⟨_, inner, rfl⟩ := operandWhole
  refine (computes.negate rfl).mono ?_
  rintro _ ⟨exact, mark, rfl⟩
  obtain ⟨inRange, equal⟩ := Number.neg_int_eq exact
  exact ⟨inRange, mark, by rw [equal]⟩

end Computes

end Kernel

/-! ## Structural rules -/

section Structural

/-- Exact operands of an operation that stays in range give an exact leaf. -/
theorem numeric_isExactLeaf {allowed : Step → Prop} (kept : ∀ number, ¬ allowed (.inexact number))
    {operands : List Number} {result : Number} (exact : operands.all Number.isExact = true) :
    (Traced.numeric operands result).Ensures allowed (IsExactLeaf result) := by
  refine .numeric fun noted mark => ⟨?_, mark, rfl⟩
  by_contra inexact
  exact kept result (noted exact (by simpa using inexact))

variable {op : ArithOp} {left right tree : Expr} {value first : K} {mark : Mark}

/-- What is handed on as an error can be read as anything. -/
theorem Means.of_isError (means : Means reading tree first) (error : tree.isError = true)
    (value : K) : Means reading tree value := by
  rw [Expr.isError, means.asFault?, Option.isSome_none, Bool.false_or, Expr.isNaN,
    Option.any_eq_true] at error
  obtain ⟨number, view, undefined⟩ := error
  have inexact := Number.isExact_of_isNaN undefined
  rwa [(means.of_asNumber? view).eq_of_inexact inexact value first]

theorem firstError?_means (means : Means reading (.arith op left right mark) value) :
    (Rule.ofOption (firstError? left right)).Ensures reading.allowed (Means reading · value) := by
  obtain ⟨first, second, leftMeans, rightMeans⟩ := means.operands
  refine .ofOption fun result found => ?_
  obtain ⟨isError, rfl | rfl⟩ := firstError?_eq_some found
  · exact leftMeans.of_isError isError value
  · exact rightMeans.of_isError isError value

/-- The leaf of the result of an operator that has a value. -/
theorem numeric_means {x y : Number} {inner outer : Mark}
    (means : Means reading (.arith op (.number x inner) (.number y outer) mark) value)
    (defined : op.isUndefinedAt x y = false) :
    (Traced.numeric [x, y] (op.onNumbers x y)).Ensures reading.allowed (Means reading · value) := by
  refine .numeric fun noted mark => .number (means.reads_onNumbers ?_ ?_)
  · intro undefined
    rw [defined] at undefined
    contradiction
  · intro _ xExact yExact
    by_contra inexact
    exact reading.inRange _ (noted (by simp [xExact, yExact]) (by simpa using inexact))

theorem numericRule_means (means : Means reading (.arith op left right mark) value) :
    (numericRule op left right).Ensures reading.allowed (Means reading · value) := by
  obtain ⟨first, second, leftMeans, rightMeans⟩ := means.operands
  unfold numericRule
  rw [leftMeans.toNumber?, rightMeans.toNumber?]
  cases leftView : left.asNumber? with
  | none => exact .failure
  | some x =>
      cases rightView : right.asNumber? with
      | none => exact .failure
      | some y =>
          obtain ⟨inner, rfl⟩ := Expr.eq_of_asNumber? leftView
          obtain ⟨outer, rfl⟩ := Expr.eq_of_asNumber? rightView
          dsimp only
          by_cases undefined : op.isUndefinedAt x y = true
          · rw [if_pos undefined]
            refine .bind (.lift .step) fun _ admitted => .lift (.make fun mark => .number ?_)
            refine means.reads_onNumbers (fun _ => admitted) fun defined => ?_
            rw [undefined] at defined
            contradiction
          · rw [if_neg undefined]
            exact .lift (numeric_means means (by simpa using undefined))

theorem negateNumber_means {number : Number} (reads : reading.Reads number value) :
    (negateNumber number).Ensures reading.allowed (Means reading · (-value)) := by
  refine .numeric fun noted mark => .number (reads.neg fun exact => ?_)
  by_contra inexact
  exact reading.inRange _ (noted (by simpa using exact) (by simpa using inexact))

/-- The negated leaf of an integer is that of an integer. -/
theorem negateNumber_whole {allowed : Step → Prop} (kept : ∀ number, ¬ allowed (.inexact number))
    {n : Int} : (negateNumber (.int n)).Ensures allowed (·.IsWhole (-n)) := by
  refine (numeric_isExactLeaf kept rfl).mono ?_
  rintro _ ⟨exact, mark, rfl⟩
  obtain ⟨inRange, equal⟩ := Number.neg_int_eq exact
  exact ⟨inRange, mark, by rw [equal]⟩

theorem arrayRule_means {kernel : Kernel}
    (means : Means reading (.arith op left right mark) value) :
    (arrayRule kernel op left right).Ensures reading.allowed (Means reading · value) := by
  obtain ⟨first, second, leftMeans, rightMeans⟩ := means.operands
  unfold arrayRule
  rw [leftMeans.asArray?, rightMeans.asArray?]
  exact .failure

theorem textRule_means (means : Means reading (.arith op left right mark) value) :
    (textRule (.arith op) left right).Ensures reading.allowed (Means reading · value) := by
  obtain ⟨first, second, leftMeans, rightMeans⟩ := means.operands
  unfold textRule
  split
  · have := leftMeans.isTextual
    contradiction
  · rw [leftMeans.isTextual, rightMeans.isTextual]
    exact .failure

end Structural

/-! ## Coefficients and signs -/

section Signs

variable {kernel : Kernel} {left right tree : Expr} {value first second : K}

/-- A coefficient and a rest whose product is the value. -/
def Splits (reading : Reading K) (value : K) (split : Number × Expr) : Prop :=
  ∃ coefficient rest, reading.Reads split.1 coefficient ∧ Means reading split.2 rest ∧
    coefficient * rest = value

theorem splits_one (means : Means reading tree value) : Splits reading value (.int 1, tree) :=
  ⟨1, value, Means.number_iff.mp Means.one, means, one_mul value⟩

theorem splitCoefficient_splits (means : Means reading tree value) :
    (splitCoefficient tree).Ensures (Splits reading value) := by
  induction means with
  | @mul left right first second mark leftMeans rightMeans leftIH _ =>
      have node : Means reading (.arith .mul left right mark) (first * second) :=
        .mul leftMeans rightMeans
      unfold splitCoefficient
      cases leftView : left.asNumber? with
      | some coefficient =>
          exact .pure ⟨first, second, leftMeans.of_asNumber? leftView, rightMeans, rfl⟩
      | none =>
          cases rightView : right.asNumber? with
          | some coefficient =>
              exact .pure ⟨second, first, rightMeans.of_asNumber? rightView, leftMeans,
                mul_comm second first⟩
          | none =>
              refine .bind leftIH ?_
              rintro ⟨coefficient, rest⟩ ⟨factor, remainder, reads, restMeans, rfl⟩
              dsimp only
              split
              · exact .pure (splits_one node)
              · refine .bind (Means.mul restMeans rightMeans).make fun product productMeans =>
                  .pure ?_
                exact ⟨factor, remainder * second, reads, productMeans, (mul_assoc _ _ _).symm⟩
  | number reads => exact .pure (splits_one (.number reads))
  | var found => exact .pure (splits_one (.var found))
  | neg operand => exact .pure (splits_one (.neg operand))
  | add left right => exact .pure (splits_one (.add left right))
  | sub left right => exact .pure (splits_one (.sub left right))
  | div left right invertible divides =>
      exact .pure (splits_one (.div left right invertible divides))
  | pow base inRange power => exact .pure (splits_one (.pow base inRange power))
  | call argument found => exact .pure (splits_one (.call argument found))

theorem likeTerms_means (sound : kernel.Sound reading) {subtract : Bool}
    (leftMeans : Means reading left first) (rightMeans : Means reading right second) :
    (likeTerms kernel subtract left right).Ensures reading.allowed
      (Means reading · (if subtract then first - second else first + second)) := by
  refine .bind (.lift (.ofMarking (splitCoefficient_splits leftMeans))) ?_
  rintro ⟨leftCoefficient, leftRest⟩ ⟨p, rest, leftReads, leftRestMeans, rfl⟩
  refine .bind (.lift (.ofMarking (splitCoefficient_splits rightMeans))) ?_
  rintro ⟨rightCoefficient, rightRest⟩ ⟨q, otherRest, rightReads, rightRestMeans, rfl⟩
  dsimp only
  split
  · exact .failure
  · rename_i similar
    obtain ⟨_, similar⟩ : leftRest.isNumber = false ∧ (leftRest == rightRest) = true := by
      simpa [bne] using similar
    obtain rfl := leftRestMeans.eq_of_beq rightRestMeans similar
    cases subtract with
    | true =>
        have difference : Means reading
            (.arith .sub (.number leftCoefficient) (.number rightCoefficient)) (p - q) :=
          .sub (.number leftReads) (.number rightReads)
        refine .bind (.lift (numeric_means difference rfl)) fun coefficient coefficientMeans =>
          .lift (sound.binary ?_)
        simpa [sub_mul] using coefficientMeans.mul leftRestMeans
    | false =>
        have sum : Means reading
            (.arith .add (.number leftCoefficient) (.number rightCoefficient)) (p + q) :=
          .add (.number leftReads) (.number rightReads)
        refine .bind (.lift (numeric_means sum rfl)) fun coefficient coefficientMeans =>
          .lift (sound.binary ?_)
        simpa [add_mul] using coefficientMeans.mul leftRestMeans

theorem negated_means (sound : kernel.Sound reading) (means : Means reading tree value) :
    (negated kernel tree).Ensures reading.allowed (Means reading · (-value)) := by
  induction means with
  | number reads =>
      unfold negated
      split
      · exact .lift (negateNumber_means reads)
      · exact .failure
  | neg operand =>
      rw [neg_neg]
      exact .pure operand
  | @mul left right first second mark leftMeans rightMeans leftIH _ =>
      unfold negated
      refine .orElse ?_ ?_
      · refine .bind .guarded fun _ _ => .bind leftIH fun positive positiveMeans =>
          .lift (sound.binary ?_)
        simpa using positiveMeans.mul rightMeans
      · split
        · refine .lift (sound.binary ?_)
          simpa using leftMeans.mul (Means.neg_iff.mp rightMeans)
        · exact .failure
  | @div left right first second quotient mark leftMeans rightMeans invertible divides leftIH _ =>
      unfold negated
      refine .bind .guarded fun _ _ => .bind leftIH fun positive positiveMeans =>
        .lift (sound.binary ?_)
      exact .div positiveMeans rightMeans invertible (by rw [neg_mul, divides])
  | var _ => exact .failure
  | add _ _ => exact .failure
  | sub _ _ => exact .failure
  | pow _ _ _ => exact .failure
  | call _ _ => exact .failure

theorem negateLeadingFactor_means (sound : kernel.Sound reading)
    (means : Means reading tree value) :
    (negateLeadingFactor kernel tree).Ensures reading.allowed (Means reading · (-value)) := by
  induction means with
  | mul leftMeans rightMeans leftIH _ =>
      refine .bind leftIH fun negative negativeMeans => .ofMarking ?_
      simpa using (negativeMeans.mul rightMeans).make
  | div leftMeans rightMeans invertible divides leftIH _ =>
      refine .bind leftIH fun negative negativeMeans => .ofMarking ?_
      exact (Means.div negativeMeans rightMeans invertible (by rw [neg_mul, divides])).make
  | number reads => exact sound.negate (.number reads)
  | var found => exact sound.negate (.var found)
  | neg operand => exact sound.negate (.neg operand)
  | add left right => exact sound.negate (.add left right)
  | sub left right => exact sound.negate (.sub left right)
  | pow base inRange power => exact sound.negate (.pow base inRange power)
  | call argument found => exact sound.negate (.call argument found)

end Signs

/-! ## Identities of the operators -/

section Operators

variable {kernel : Kernel} {left right base exponent : Expr} {first second value : K} {n : Int}

theorem addIdentities_means (sound : kernel.Sound reading) (leftMeans : Means reading left first)
    (rightMeans : Means reading right second) :
    (addIdentities kernel left right).Ensures reading.allowed
      (Means reading · (first + second)) := by
  unfold addIdentities
  split
  · rename_i zero
    rw [leftMeans.eq_zero zero, zero_add]
    exact .pure rightMeans
  · split
    · rename_i zero
      rw [rightMeans.eq_zero zero, add_zero]
      exact .pure leftMeans
    · refine .orElse (likeTerms_means sound leftMeans rightMeans) (.orElse ?_ ?_)
      · refine .bind (negated_means sound rightMeans) fun positive positiveMeans =>
          .lift (sound.binary ?_)
        simpa using leftMeans.sub positiveMeans
      · refine .bind (negated_means sound leftMeans) fun positive positiveMeans =>
          .lift (sound.binary ?_)
        simpa [add_comm] using rightMeans.sub positiveMeans

theorem subIdentities_means (sound : kernel.Sound reading) (leftMeans : Means reading left first)
    (rightMeans : Means reading right second) :
    (subIdentities kernel left right).Ensures reading.allowed
      (Means reading · (first - second)) := by
  unfold subIdentities
  split
  · rename_i zero
    rw [rightMeans.eq_zero zero, sub_zero]
    exact .pure leftMeans
  · split
    · rename_i zero
      rw [leftMeans.eq_zero zero, zero_sub]
      exact .lift (sound.negate rightMeans)
    · split
      · rename_i equal
        rw [leftMeans.eq_of_beq rightMeans equal, sub_self]
        exact .pure .zero
      · refine .orElse (likeTerms_means sound leftMeans rightMeans) ?_
        refine .bind (negated_means sound rightMeans) fun positive positiveMeans =>
          .lift (sound.binary ?_)
        simpa [sub_eq_add_neg] using leftMeans.add positiveMeans

theorem mulSigns_means (sound : kernel.Sound reading) (leftMeans : Means reading left first)
    (rightMeans : Means reading right second) :
    (mulSigns kernel left right).Ensures reading.allowed (Means reading · (first * second)) := by
  unfold mulSigns
  split
  · refine .bind (.lift (negateNumber_means (Means.number_iff.mp leftMeans)))
      fun flipped flippedMeans => .lift (sound.binary ?_)
    simpa using flippedMeans.mul (Means.neg_iff.mp rightMeans)
  · refine .lift (sound.binary ?_)
    simpa using (Means.neg_iff.mp leftMeans).mul (Means.neg_iff.mp rightMeans)
  · split
    · exact .failure
    · refine .bind (.lift (sound.binary (.mul (Means.neg_iff.mp leftMeans) rightMeans)))
        fun product productMeans => .lift ?_
      simpa using negateLeadingFactor_means sound productMeans
  · refine .bind (.lift (sound.binary (.mul leftMeans (Means.neg_iff.mp rightMeans))))
      fun product productMeans => .lift ?_
    simpa using negateLeadingFactor_means sound productMeans
  · exact .failure

/-- The base and the exponent of a factor, whose power has the value of the
factor. -/
theorem baseExponent_isPower {factor : Expr} (means : Means reading factor value) :
    ∃ first n, Means reading (baseExponent factor).1 first ∧
      (baseExponent factor).2.IsWhole n ∧ IsPower first n value := by
  cases means with
  | pow base inRange power => exact ⟨_, _, base, ⟨inRange, _, rfl⟩, power⟩
  | number reads => exact ⟨value, 1, .number reads, ⟨inRange_one, _, rfl⟩, .one value⟩
  | var found => exact ⟨value, 1, .var found, ⟨inRange_one, _, rfl⟩, .one value⟩
  | neg operand => exact ⟨_, 1, .neg operand, ⟨inRange_one, _, rfl⟩, .one _⟩
  | add left right => exact ⟨_, 1, .add left right, ⟨inRange_one, _, rfl⟩, .one _⟩
  | sub left right => exact ⟨_, 1, .sub left right, ⟨inRange_one, _, rfl⟩, .one _⟩
  | mul left right => exact ⟨_, 1, .mul left right, ⟨inRange_one, _, rfl⟩, .one _⟩
  | div left right invertible divides =>
      exact ⟨value, 1, .div left right invertible divides, ⟨inRange_one, _, rfl⟩, .one value⟩
  | call argument found =>
      exact ⟨value, 1, .call argument found, ⟨inRange_one, _, rfl⟩, .one value⟩

theorem mulPowers_means (sound : kernel.Sound reading) (leftMeans : Means reading left first)
    (rightMeans : Means reading right second) :
    (mulPowers kernel left right).Ensures reading.allowed (Means reading · (first * second)) := by
  obtain ⟨leftValue, m, leftBaseMeans, leftWhole, leftPower⟩ := baseExponent_isPower leftMeans
  obtain ⟨rightValue, n, rightBaseMeans, rightWhole, rightPower⟩ := baseExponent_isPower rightMeans
  unfold mulPowers
  dsimp only
  split
  · exact .failure
  · rename_i similar
    obtain ⟨_, similar⟩ : (baseExponent left).1.isNumber = false ∧
        ((baseExponent left).1 == (baseExponent right).1) = true := by
      simpa [bne] using similar
    obtain rfl := leftBaseMeans.eq_of_beq rightBaseMeans similar
    refine .bind (.lift (sound.computes.add leftWhole rightWhole)) fun exponent whole =>
      .lift (sound.binary ?_)
    exact Means.pow_iff.mpr ⟨leftValue, m + n, leftBaseMeans, whole, leftPower.mul rightPower⟩

theorem mulIdentities_means (sound : kernel.Sound reading) (leftMeans : Means reading left first)
    (rightMeans : Means reading right second) :
    (mulIdentities kernel left right).Ensures reading.allowed
      (Means reading · (first * second)) := by
  unfold mulIdentities
  split
  · rename_i zero
    obtain rfl := leftMeans.eq_zero zero
    rw [zero_mul]
    exact .pure leftMeans
  split
  · rename_i zero
    obtain rfl := rightMeans.eq_zero zero
    rw [mul_zero]
    exact .pure rightMeans
  split
  · rename_i one
    rw [leftMeans.eq_one one, one_mul]
    exact .pure rightMeans
  split
  · rename_i one
    rw [rightMeans.eq_one one, mul_one]
    exact .pure leftMeans
  split
  · rename_i minusOne
    rw [leftMeans.eq_neg_one minusOne, neg_one_mul]
    exact .lift (sound.negate rightMeans)
  split
  · rename_i minusOne
    rw [rightMeans.eq_neg_one minusOne, mul_neg_one]
    exact .lift (sound.negate leftMeans)
  · exact .orElse (mulSigns_means sound leftMeans rightMeans)
      (mulPowers_means sound leftMeans rightMeans)

theorem tangentRule_means (leftMeans : Means reading left first) :
    (tangentRule left right).Ensures reading.allowed (Means reading · value) := by
  unfold tangentRule
  split
  · obtain ⟨_, _, found⟩ := Means.call_iff.mp leftMeans
    rw [reading.sine] at found
    contradiction
  · exact .failure

theorem divSigns_means (sound : kernel.Sound reading) (leftMeans : Means reading left first)
    (rightMeans : Means reading right second) (invertible : IsUnit second)
    (divides : value * second = first) :
    (divSigns kernel left right).Ensures reading.allowed (Means reading · value) := by
  unfold divSigns
  split
  · refine .lift (sound.binary ?_)
    exact .div (Means.neg_iff.mp leftMeans) (Means.neg_iff.mp rightMeans) invertible.neg
      (by rw [mul_neg, divides])
  · have quotient : Means reading (.arith .div _ right) (-value) :=
      .div (Means.neg_iff.mp leftMeans) rightMeans invertible (by rw [neg_mul, divides])
    refine .bind (.lift (sound.binary quotient)) fun quotient quotientMeans => .lift ?_
    simpa using negateLeadingFactor_means sound quotientMeans
  · have quotient : Means reading (.arith .div left _) (-value) :=
      .div leftMeans (Means.neg_iff.mp rightMeans) invertible.neg (by rw [neg_mul_neg, divides])
    refine .bind (.lift (sound.binary quotient)) fun quotient quotientMeans => .lift ?_
    simpa using negateLeadingFactor_means sound quotientMeans
  · exact .failure

theorem divPowers_means (sound : kernel.Sound reading) (leftMeans : Means reading left first)
    (rightMeans : Means reading right second) (invertible : IsUnit second)
    (divides : value * second = first) :
    (divPowers kernel left right).Ensures reading.allowed (Means reading · value) := by
  obtain ⟨leftValue, m, leftBaseMeans, leftWhole, leftPower⟩ := baseExponent_isPower leftMeans
  obtain ⟨rightValue, n, rightBaseMeans, rightWhole, rightPower⟩ := baseExponent_isPower rightMeans
  unfold divPowers
  dsimp only
  split
  · exact .failure
  · rename_i similar
    obtain ⟨_, similar⟩ : (baseExponent left).1.isNumber = false ∧
        ((baseExponent left).1 == (baseExponent right).1) = true := by
      simpa [bne] using similar
    obtain rfl := leftBaseMeans.eq_of_beq rightBaseMeans similar
    have power := leftPower.div rightPower invertible divides
    refine .bind (.lift (sound.computes.sub leftWhole rightWhole)) fun exponent whole => ?_
    split
    · rename_i negative
      have below : m - n < 0 := by
        obtain ⟨_, mark, rfl⟩ := whole
        simpa [Expr.isNegativeNumber, Expr.asNumber?, Number.isNegative] using negative
      obtain ⟨inverse, inversePower, inverseInvertible, cancels⟩ := power.neg below
      refine .bind (.lift (sound.computes.neg whole)) fun positive positiveWhole => ?_
      have denominator : Means reading (.arith .pow (baseExponent left).1 positive) inverse :=
        Means.pow_iff.mpr ⟨leftValue, -(m - n), leftBaseMeans, positiveWhole, inversePower⟩
      refine .bind (.lift (sound.binary denominator)) fun power powerMeans =>
        .lift (sound.binary ?_)
      exact .div .one powerMeans inverseInvertible cancels
    · refine .lift (sound.binary ?_)
      exact Means.pow_iff.mpr ⟨leftValue, m - n, leftBaseMeans, whole, power⟩

theorem divIdentities_means (sound : kernel.Sound reading) (leftMeans : Means reading left first)
    (rightMeans : Means reading right second) (invertible : IsUnit second)
    (divides : value * second = first) :
    (divIdentities kernel left right).Ensures reading.allowed (Means reading · value) := by
  unfold divIdentities
  split
  · rename_i one
    rw [rightMeans.eq_one one, mul_one] at divides
    rw [divides]
    exact .pure leftMeans
  split
  · rename_i minusOne
    rw [rightMeans.eq_neg_one minusOne, mul_neg_one] at divides
    rw [neg_eq_iff_eq_neg.mp divides]
    exact .lift (sound.negate leftMeans)
  split
  · rename_i zero
    rw [Bool.and_eq_true] at zero
    have nothing : value = first := by
      apply invertible.mul_right_cancel
      rw [divides, leftMeans.eq_zero zero.1, zero_mul]
    rw [nothing]
    exact .pure leftMeans
  split
  · rename_i equal
    have unchanged : value = 1 := by
      apply invertible.mul_right_cancel
      rw [divides, leftMeans.eq_of_beq rightMeans equal, one_mul]
    rw [unchanged]
    exact .pure .one
  · exact .orElse (tangentRule_means leftMeans)
      (.orElse (divSigns_means sound leftMeans rightMeans invertible divides)
        (divPowers_means sound leftMeans rightMeans invertible divides))

theorem powOfNode_means (sound : kernel.Sound reading) (baseMeans : Means reading base first)
    (whole : exponent.IsWhole n) (power : IsPower first n value) :
    (powOfNode kernel base exponent).Ensures reading.allowed (Means reading · value) := by
  unfold powOfNode
  split
  · obtain ⟨innerValue, m, innerMeans, innerWhole, innerPower⟩ := Means.pow_iff.mp baseMeans
    refine .bind .guarded fun _ _ => .bind (.lift (sound.computes.mul innerWhole whole))
      fun product productWhole => .lift (sound.binary ?_)
    exact Means.pow_iff.mpr ⟨innerValue, m * n, innerMeans, productWhole, innerPower.pow power⟩
  · rename_i operand mark exponentValue view
    obtain rfl : exponentValue = n := by
      obtain ⟨_, mark, rfl⟩ := whole
      simpa [Expr.asNumber?] using view.symm
    rw [← neg_neg first] at power
    have magnitude : Means reading (.arith .pow operand exponent)
        (if exponentValue % 2 = 0 then value else -value) :=
      Means.pow_iff.mpr ⟨-first, exponentValue, Means.neg_iff.mp baseMeans, whole, power.neg_base⟩
    refine .bind (.lift (sound.binary magnitude)) fun magnitude magnitudeMeans => ?_
    split
    · rw [if_pos ‹_›] at magnitudeMeans
      exact .pure magnitudeMeans
    · rw [if_neg ‹_›] at magnitudeMeans
      refine .lift ?_
      simpa using sound.negate magnitudeMeans
  · exact .failure

theorem powIdentities_means (sound : kernel.Sound reading) (baseMeans : Means reading base first)
    (whole : exponent.IsWhole n) (power : IsPower first n value) :
    (powIdentities kernel base exponent).Ensures reading.allowed (Means reading · value) := by
  have views : (exponent.isZero = true ↔ n = 0) ∧ (exponent.isOne = true ↔ n = 1) ∧
      (exponent.asNumber?.any isNonnegativeReal = true ↔ 0 ≤ n) := by
    obtain ⟨_, mark, rfl⟩ := whole
    simp [Expr.isZero, Expr.isOne, Expr.asNumber?, Number.isZero, Number.isOne, isNonnegativeReal,
      Number.isComplex, Number.isNegative]
  unfold powIdentities
  split
  · rename_i zero
    obtain rfl := views.1.mp zero
    rw [power.unique (.zero first)]
    exact .pure .one
  split
  · rename_i trivially
    rw [Bool.or_eq_true] at trivially
    have same : value = first := by
      rcases trivially with one | one
      · obtain rfl := views.2.1.mp one
        exact power.unique (.one first)
      · obtain rfl := baseMeans.eq_one one
        exact power.base_one
    rw [same]
    exact .pure baseMeans
  split
  · rename_i notZero _ zero
    rw [Bool.and_eq_true] at zero
    obtain rfl := baseMeans.eq_zero zero.1
    have positive : 0 < n := by
      have nonnegative := views.2.2.mp zero.2
      have nonzero : n ≠ 0 := fun equal => notZero (views.1.mpr equal)
      omega
    rw [power.base_zero positive]
    exact .pure baseMeans
  · exact powOfNode_means sound baseMeans whole power

theorem identities_means (sound : kernel.Sound reading) {op : ArithOp} {mark : Mark}
    (means : Means reading (.arith op left right mark) value) :
    (identities kernel op left right).Ensures reading.allowed (Means reading · value) := by
  cases op with
  | add =>
      obtain ⟨first, second, leftMeans, rightMeans, rfl⟩ := Means.add_iff.mp means
      exact addIdentities_means sound leftMeans rightMeans
  | sub =>
      obtain ⟨first, second, leftMeans, rightMeans, rfl⟩ := Means.sub_iff.mp means
      exact subIdentities_means sound leftMeans rightMeans
  | mul =>
      obtain ⟨first, second, leftMeans, rightMeans, rfl⟩ := Means.mul_iff.mp means
      exact mulIdentities_means sound leftMeans rightMeans
  | div =>
      obtain ⟨first, second, leftMeans, rightMeans, invertible, divides⟩ := Means.div_iff.mp means
      exact divIdentities_means sound leftMeans rightMeans invertible divides
  | pow =>
      obtain ⟨first, n, baseMeans, whole, power⟩ := Means.pow_iff.mp means
      exact powIdentities_means sound baseMeans whole power

/-- All rules keep the value of the operation. -/
theorem combine_means (sound : kernel.Sound reading) {op : ArithOp} {mark : Mark}
    (means : Means reading (.arith op left right mark) value) :
    (combine kernel op left right).Ensures reading.allowed (Means reading · value) :=
  .orElse (firstError?_means means) (.orElse (numericRule_means means)
    (.orElse (arrayRule_means means) (.orElse (textRule_means means)
      (identities_means sound means))))

end Operators

end SymbolicAlgebra

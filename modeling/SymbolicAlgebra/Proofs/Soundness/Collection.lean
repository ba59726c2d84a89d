import SymbolicAlgebra.Arithmetic.Collection
import SymbolicAlgebra.Proofs.Filling
import SymbolicAlgebra.Proofs.Soundness.Identities

/-!
# Soundness of collecting terms

The two lists of a chain stand for one value: the sum of the addends without the
subtrahends, or the quotient of the numerator by the denominator.  Every stage
of collecting keeps this value.

Both chains are commutative monoids in which inverse terms can be cancelled, so
all stages but the first and the last are dealt with once for both.
-/

namespace SymbolicAlgebra

variable {K : Type} [CommRing K]

namespace Chain

/-- The value of two terms joined by the operator of a chain. -/
def join : Chain → K → K → K
  | additive, first, second => first + second
  | multiplicative, first, second => first * second

/-- The value of no terms. -/
def unit : Chain → K
  | additive => 0
  | multiplicative => 1

/-- A term of this value may be joined inversely. -/
def Invertible : Chain → K → Prop
  | additive, _ => True
  | multiplicative, value => IsUnit value

variable {chain : Chain} {first second value : K}

theorem join_comm (chain : Chain) (first second : K) :
    chain.join first second = chain.join second first := by
  cases chain with
  | additive => exact add_comm first second
  | multiplicative => exact mul_comm first second

theorem join_assoc (chain : Chain) (first second third : K) :
    chain.join (chain.join first second) third = chain.join first (chain.join second third) := by
  cases chain with
  | additive => exact add_assoc first second third
  | multiplicative => exact mul_assoc first second third

instance : Std.Commutative (chain.join (K := K)) := ⟨chain.join_comm⟩

instance : Std.Associative (chain.join (K := K)) := ⟨chain.join_assoc⟩

@[simp] theorem unit_join (chain : Chain) (value : K) : chain.join chain.unit value = value := by
  cases chain with
  | additive => exact zero_add value
  | multiplicative => exact one_mul value

@[simp] theorem join_unit (chain : Chain) (value : K) : chain.join value chain.unit = value := by
  rw [join_comm, unit_join]

@[simp] theorem invertible_unit (chain : Chain) : chain.Invertible (chain.unit : K) := by
  cases chain with
  | additive => trivial
  | multiplicative => exact isUnit_one

@[simp] theorem invertible_join :
    chain.Invertible (chain.join first second) ↔
      chain.Invertible first ∧ chain.Invertible second := by
  cases chain with
  | additive => simp [Invertible]
  | multiplicative => exact IsUnit.mul_iff

theorem Invertible.join_right_cancel {inverse : K} (invertible : chain.Invertible inverse)
    (equal : chain.join first inverse = chain.join second inverse) : first = second := by
  cases chain with
  | additive => exact add_right_cancel equal
  | multiplicative => exact invertible.mul_right_cancel equal

/-- A term of invertible value can be taken away from any value. -/
theorem Invertible.exists_join_eq (invertible : chain.Invertible second) (first : K) :
    ∃ value, chain.join value second = first := by
  cases chain with
  | additive => exact ⟨first - second, sub_add_cancel first second⟩
  | multiplicative =>
      obtain ⟨unit, rfl⟩ := invertible
      exact ⟨first * ((unit⁻¹ : Kˣ) : K), Units.inv_mul_cancel_right first unit⟩

variable [Algebra ℚ K] {reading : Reading K} {left right : Expr} {mark : Mark}

theorem means_op : Means reading (.arith chain.op left right mark) value ↔
    ∃ first second, Means reading left first ∧ Means reading right second ∧
      chain.join first second = value := by
  cases chain with
  | additive => exact Means.add_iff
  | multiplicative => exact Means.mul_iff

theorem means_inverse : Means reading (.arith chain.inverse left right mark) value ↔
    ∃ first second, Means reading left first ∧ Means reading right second ∧
      chain.Invertible second ∧ chain.join value second = first := by
  cases chain with
  | additive =>
      refine Means.sub_iff.trans (exists₂_congr fun first second => ?_)
      have moved : first - second = value ↔ value + second = first :=
        sub_eq_iff_eq_add.trans eq_comm
      simp only [Invertible, join, true_and, moved]
  | multiplicative => exact Means.div_iff

end Chain

variable [Algebra ℚ K] {reading : Reading K}

/-! ## Values of lists of terms -/

/-- The terms joined by the operator of a chain have a value. -/
inductive Totals (reading : Reading K) (chain : Chain) : List Expr → K → Prop where
  | nil : Totals reading chain [] chain.unit
  | cons {term : Expr} {terms : List Expr} {first rest : K} :
      Means reading term first → Totals reading chain terms rest →
        Totals reading chain (term :: terms) (chain.join first rest)

namespace Totals

variable {chain : Chain} {term : Expr} {terms others : List Expr} {value first second : K}

theorem nil_iff : Totals reading chain [] value ↔ value = chain.unit :=
  ⟨fun | .nil => rfl, fun equal => equal ▸ .nil⟩

theorem cons_iff : Totals reading chain (term :: terms) value ↔
    ∃ first rest, Means reading term first ∧ Totals reading chain terms rest ∧
      chain.join first rest = value :=
  ⟨fun | .cons means totals => ⟨_, _, means, totals, rfl⟩,
    fun ⟨_, _, means, totals, equal⟩ => equal ▸ .cons means totals⟩

theorem singleton (means : Means reading term value) : Totals reading chain [term] value := by
  simpa using Totals.cons means .nil

theorem append (totals : Totals reading chain terms first)
    (otherTotals : Totals reading chain others second) :
    Totals reading chain (terms ++ others) (chain.join first second) := by
  induction totals with
  | nil => rwa [List.nil_append, Chain.unit_join]
  | cons means _ ih =>
      rw [List.cons_append, Chain.join_assoc]
      exact .cons means ih

theorem perm (totals : Totals reading chain terms value) (permuted : terms.Perm others) :
    Totals reading chain others value := by
  induction permuted generalizing value with
  | nil => exact totals
  | cons term _ ih =>
      obtain ⟨first, rest, means, restTotals, rfl⟩ := cons_iff.mp totals
      exact .cons means (ih restTotals)
  | swap first second terms =>
      obtain ⟨secondValue, _, secondMeans, restTotals, rfl⟩ := cons_iff.mp totals
      obtain ⟨firstValue, rest, firstMeans, lastTotals, rfl⟩ := cons_iff.mp restTotals
      refine cons_iff.mpr ⟨firstValue, _, firstMeans, .cons secondMeans lastTotals, ?_⟩
      ac_rfl
  | trans _ _ firstIH secondIH => exact secondIH (firstIH totals)

end Totals

/-- The last term and the terms before it. -/
theorem Totals.getLast? {chain : Chain} {terms : List Expr} {last : Expr} {value : K}
    (totals : Totals reading chain terms value) (found : terms.getLast? = some last) :
    ∃ first rest, Means reading last first ∧ Totals reading chain terms.dropLast rest ∧
      chain.join first rest = value := by
  have order : terms.Perm (last :: terms.dropLast) := by
    nth_rewrite 1 [← List.dropLast_append_getLast? last found]
    exact List.perm_append_singleton last terms.dropLast
  exact cons_iff.mp (totals.perm order)

theorem insertTerm_perm (chain : Chain) (term : Expr) (terms : List Expr) :
    (insertTerm chain term terms).Perm (term :: terms) := by
  induction terms with
  | nil => exact .refl _
  | cons other rest ih =>
      unfold insertTerm
      split
      · exact (ih.cons other).trans (.swap term other rest)
      · exact .refl _

theorem sortTerms_perm (chain : Chain) (terms : List Expr) :
    (sortTerms chain terms).Perm terms := by
  induction terms with
  | nil => exact .refl _
  | cons term terms ih => exact (insertTerm_perm chain term _).trans (ih.cons term)

theorem sortTerms_totals {chain : Chain} {terms : List Expr} {value : K}
    (totals : Totals reading chain terms value) :
    Totals reading chain (sortTerms chain terms) value :=
  totals.perm (sortTerms_perm chain terms).symm

/-- The terms of a chain stand for a value. -/
def Gathers (reading : Reading K) (chain : Chain) (terms : Terms) (value : K) : Prop :=
  ∃ up down, Totals reading chain terms.up up ∧ Totals reading chain terms.down down ∧
    chain.Invertible down ∧ chain.join value down = up

namespace Gathers

variable {chain : Chain} {term : Expr} {terms others : Terms} {value first second : K}

theorem empty : Gathers reading chain .empty chain.unit :=
  ⟨_, _, .nil, .nil, chain.invertible_unit, chain.join_unit _⟩

theorem single (means : Means reading term value) : Gathers reading chain ⟨[term], []⟩ value :=
  ⟨_, _, .singleton means, .nil, chain.invertible_unit, chain.join_unit _⟩

theorem join (gathers : Gathers reading chain terms first)
    (otherGathers : Gathers reading chain others second) :
    Gathers reading chain ⟨terms.up ++ others.up, terms.down ++ others.down⟩
      (chain.join first second) := by
  obtain ⟨up, down, upTotals, downTotals, invertible, rfl⟩ := gathers
  obtain ⟨otherUp, otherDown, otherUpTotals, otherDownTotals, otherInvertible, rfl⟩ := otherGathers
  refine ⟨_, _, upTotals.append otherUpTotals, downTotals.append otherDownTotals,
    Chain.invertible_join.mpr ⟨invertible, otherInvertible⟩, ?_⟩
  ac_rfl

/-- Terms that are joined inversely change their sides. -/
theorem divide (gathers : Gathers reading chain terms first)
    (otherGathers : Gathers reading chain others second) (invertible : chain.Invertible second)
    (divides : chain.join value second = first) :
    Gathers reading chain ⟨terms.up ++ others.down, terms.down ++ others.up⟩ value := by
  obtain ⟨up, down, upTotals, downTotals, downInvertible, rfl⟩ := gathers
  obtain ⟨otherUp, otherDown, otherUpTotals, otherDownTotals, otherInvertible, rfl⟩ := otherGathers
  refine ⟨_, _, upTotals.append otherDownTotals, downTotals.append otherUpTotals, ?_, ?_⟩
  · simp only [Chain.invertible_join]
    exact ⟨downInvertible, invertible, otherInvertible⟩
  · rw [← divides]
    ac_rfl

theorem neg (gathers : Gathers reading .additive terms value) :
    Gathers reading .additive terms.swap (-value) :=
  empty.divide gathers trivial (neg_add_cancel value)

end Gathers

/-! ## Filling the lists -/

/-- The tree is the inverse of a term of the given value. -/
def Inverts (reading : Reading K) (chain : Chain) (value : K) (tree : Expr) : Prop :=
  ∃ inverse, Means reading tree inverse ∧ chain.Invertible inverse ∧
    chain.join value inverse = chain.unit

/-- The result has the terms of a tree of the given value behind those that were
there. -/
def Extends (reading : Reading K) (chain : Chain) (terms : Terms) (value : K) (result : Terms) :
    Prop :=
  ∃ added : Terms, Gathers reading chain added value ∧
    result = ⟨terms.up ++ added.up, terms.down ++ added.down⟩

section Filling

variable {chain : Chain} {terms : Terms} {tree base left right : Expr} {exponent : Number}
  {value first second : K} {inner mark : Mark}

theorem Extends.push (means : Means reading tree value) :
    Extends reading chain terms value (terms.push tree) :=
  ⟨_, .single means, by simp [Terms.push]⟩

theorem Extends.pushInverse (inverts : Inverts reading chain value tree) :
    Extends reading chain terms value (terms.swap.push tree).swap := by
  obtain ⟨inverse, means, invertible, cancels⟩ := inverts
  exact ⟨_, Gathers.empty.divide (.single means) invertible cancels,
    by simp [Terms.swap, Terms.push, Terms.empty]⟩

theorem reciprocalPower_inverts
    (means : Means reading (.arith .pow base (.number exponent inner) mark) value)
    (negative : exponent.isNegative = true) :
    (reciprocalPower base exponent).Ensures reading.allowed
      (Inverts reading .multiplicative value) := by
  cases means with
  | @pow _ first _ n _ _ baseMeans inRange power =>
      have below : n < 0 := by simpa [Number.isNegative] using negative
      obtain ⟨inverse, inversePower, invertible, cancels⟩ := power.neg below
      unfold reciprocalPower
      split
      · rename_i minusOne
        obtain rfl : n = -1 := by simpa [Number.isMinusOne] using minusOne
        obtain rfl := inversePower.unique (.one first)
        exact .pure ⟨inverse, baseMeans, invertible, cancels⟩
      · refine .bind (negateNumber_whole reading.inRange) fun negated whole => .ofMarking ?_
        have node : Means reading (.arith .pow base negated) inverse :=
          Means.pow_iff.mpr ⟨first, -n, baseMeans, whole, inversePower⟩
        exact node.make.mono fun tree means => ⟨inverse, means, invertible, cancels⟩

/-- The terms of two operands, one behind the other. -/
theorem fill_join {fillLeft fillRight : Terms → Traced Terms}
    (leftExtends : ∀ terms, (fillLeft terms).Ensures reading.allowed
      (Extends reading chain terms first))
    (rightExtends : ∀ terms, (fillRight terms).Ensures reading.allowed
      (Extends reading chain terms second)) (terms : Terms) :
    (fillLeft terms >>= fillRight).Ensures reading.allowed
      (Extends reading chain terms (chain.join first second)) :=
  fill_appends (leftExtends terms) rightExtends fun left right => left.join right

/-- The terms of an operand and, on the other sides, those of an inverse one. -/
theorem fill_divide {fillLeft fillRight : Terms → Traced Terms}
    (leftExtends : ∀ terms, (fillLeft terms).Ensures reading.allowed
      (Extends reading chain terms first))
    (rightExtends : ∀ terms, (fillRight terms).Ensures reading.allowed
      (Extends reading chain terms second)) (invertible : chain.Invertible second)
    (divides : chain.join value second = first) (terms : Terms) :
    (fillLeft terms >>= fun terms => fillRight terms.swap >>= fun terms =>
      pure terms.swap).Ensures reading.allowed (Extends reading chain terms value) :=
  fill_appendsInverse (leftExtends terms) (fun terms => rightExtends terms.swap)
    fun left right => left.divide right invertible divides

theorem fillAdditive_extends (means : Means reading tree value) (terms : Terms) :
    (fillAdditive tree terms).Ensures reading.allowed (Extends reading .additive terms value) := by
  induction means generalizing terms with
  | add _ _ leftIH rightIH => exact fill_join leftIH rightIH terms
  | @sub _ _ first second _ _ _ leftIH rightIH =>
      exact fill_divide leftIH rightIH trivial (sub_add_cancel first second) terms
  | neg _ ih => exact fill_appendsSwapped (ih terms.swap) fun gathers => gathers.neg
  | number reads => exact .pure (.push (.number reads))
  | var found => exact .pure (.push (.var found))
  | mul left right => exact .pure (.push (.mul left right))
  | div left right invertible divides =>
      exact .pure (.push (.div left right invertible divides))
  | pow base inRange power => exact .pure (.push (.pow base inRange power))
  | call argument found => exact .pure (.push (.call argument found))

theorem fillMultiplicative_extends (means : Means reading tree value) (terms : Terms) :
    (fillMultiplicative tree terms).Ensures reading.allowed
      (Extends reading .multiplicative terms value) := by
  induction means generalizing terms with
  | mul _ _ leftIH rightIH => exact fill_join leftIH rightIH terms
  | div _ _ invertible divides leftIH rightIH =>
      exact fill_divide leftIH rightIH invertible divides terms
  | @pow base first value exponent inner mark baseMeans inRange power =>
      have node : Means reading (.arith .pow base (.number (.int exponent) inner) mark) value :=
        .pow baseMeans inRange power
      unfold fillMultiplicative
      split
      · rename_i negative
        exact .bind (reciprocalPower_inverts node negative) fun flipped inverts =>
          .pure (.pushInverse inverts)
      · exact .pure (.push node)
  | number reads => exact .pure (.push (.number reads))
  | var found => exact .pure (.push (.var found))
  | neg operand => exact .pure (.push (.neg operand))
  | add left right => exact .pure (.push (.add left right))
  | sub left right => exact .pure (.push (.sub left right))
  | call argument found => exact .pure (.push (.call argument found))

theorem fill_extends (means : Means reading tree value) (terms : Terms) :
    (fill chain tree terms).Ensures reading.allowed (Extends reading chain terms value) := by
  cases chain with
  | additive => exact fillAdditive_extends means terms
  | multiplicative => exact fillMultiplicative_extends means terms

end Filling

/-! ## Merging and cancelling -/

section Merging

variable {kernel : Kernel} {chain : Chain} {op : ArithOp} {left right term : Expr}
  {terms up down done rest : List Expr} {value first second : K} {mark : Mark}

theorem mergePair_means (sound : kernel.Sound reading)
    (means : Means reading (.arith op left right mark) value) :
    (mergePair kernel op left right).Ensures reading.allowed (Means reading · value) :=
  .bind (combine_means sound means) fun _ merged => .bind .guarded fun _ _ => .pure merged

theorem absorb_totals (sound : kernel.Sound reading) (means : Means reading term first)
    (totals : Totals reading chain terms second) :
    (absorb kernel chain term terms).Ensures reading.allowed
      (Totals reading chain · (chain.join second first)) := by
  induction totals with
  | nil => exact .failure
  | @cons nearest before nearestValue beforeValue nearestMeans beforeTotals ih =>
      unfold absorb
      split
      · refine .orElse ?_ ?_
        · have pair :
              Means reading (.arith chain.op nearest term) (chain.join nearestValue first) :=
            Chain.means_op.mpr ⟨_, _, nearestMeans, means, rfl⟩
          refine .bind (mergePair_means sound pair) fun merged mergedMeans => .pure ?_
          refine Totals.cons_iff.mpr ⟨_, _, mergedMeans, beforeTotals, ?_⟩
          ac_rfl
        · refine .bind ih fun absorbed absorbedTotals => .pure ?_
          rw [Chain.join_assoc]
          exact .cons nearestMeans absorbedTotals
      · exact .failure

/-- A step of merging moves a term from the rest into what is done; together they
keep their value. -/
theorem mergeRuns_totals (sound : kernel.Sound reading)
    (doneTotals : Totals reading chain done first)
    (restTotals : Totals reading chain rest second) :
    (mergeRuns kernel chain done rest).Ensures reading.allowed
      (Totals reading chain · (chain.join first second)) := by
  induction restTotals generalizing done first with
  | nil =>
      rw [Chain.join_unit]
      exact .pure (doneTotals.perm (List.reverse_perm done).symm)
  | @cons term rest termValue restValue termMeans _ ih =>
      have moved : chain.join first (chain.join termValue restValue) =
          chain.join (chain.join first termValue) restValue := by ac_rfl
      rw [moved]
      unfold mergeRuns
      refine Rule.Ensures.run_match (absorb_totals sound termMeans doneTotals)
        (fun absorbed absorbedTotals => ih absorbedTotals) (ih ?_)
      rw [Chain.join_comm]
      exact .cons termMeans doneTotals

theorem tidy_totals (sound : kernel.Sound reading) (totals : Totals reading chain terms value) :
    (tidy kernel chain terms).Ensures reading.allowed (Totals reading chain · value) := by
  unfold tidy
  simpa using mergeRuns_totals sound .nil (sortTerms_totals totals)

theorem tidyBoth_gathers (sound : kernel.Sound reading) {terms : Terms}
    (gathers : Gathers reading chain terms value) :
    (tidyBoth kernel chain terms).Ensures reading.allowed (Gathers reading chain · value) := by
  obtain ⟨up, down, upTotals, downTotals, invertible, joined⟩ := gathers
  exact .bind (tidy_totals sound upTotals) fun tidyUp tidyUpTotals =>
    .bind (tidy_totals sound downTotals) fun tidyDown tidyDownTotals =>
      .pure ⟨up, down, tidyUpTotals, tidyDownTotals, invertible, joined⟩

/-- An inverse term is cancelled when joining it again gives what was there. -/
theorem cancelOne_totals (sound : kernel.Sound reading) (means : Means reading term first)
    (invertible : chain.Invertible first) (totals : Totals reading chain terms second) :
    (cancelOne kernel chain term terms).Ensures reading.allowed fun remaining =>
      ∃ value, Totals reading chain remaining value ∧ chain.join value first = second := by
  induction totals with
  | nil => exact .failure
  | @cons candidate rest candidateValue restValue candidateMeans restTotals ih =>
      unfold cancelOne
      refine .orElse ?_ ?_
      · obtain ⟨value, taken⟩ := invertible.exists_join_eq candidateValue
        have pair : Means reading (.arith chain.inverse candidate term) value :=
          Chain.means_inverse.mpr ⟨_, _, candidateMeans, means, invertible, taken⟩
        refine .bind .guarded fun _ _ => .bind (mergePair_means sound pair)
          fun merged mergedMeans => .pure ⟨_, .cons mergedMeans restTotals, ?_⟩
        rw [← taken]
        ac_rfl
      · refine .bind ih ?_
        rintro cancelled ⟨value, cancelledTotals, rfl⟩
        refine .pure ⟨_, .cons candidateMeans cancelledTotals, ?_⟩
        ac_rfl

theorem cancel_gathers (sound : kernel.Sound reading)
    (gathers : Gathers reading chain ⟨up, down⟩ value) :
    (cancel kernel chain up down).Ensures reading.allowed (Gathers reading chain · value) := by
  induction down generalizing up value with
  | nil => exact .pure gathers
  | cons term rest ih =>
      obtain ⟨upValue, _, upTotals, downTotals, invertible, rfl⟩ := gathers
      obtain ⟨first, second, termMeans, restTotals, rfl⟩ := Totals.cons_iff.mp downTotals
      rw [Chain.invertible_join] at invertible
      unfold cancel
      refine Rule.Ensures.run_match (cancelOne_totals sound termMeans invertible.1 upTotals) ?_ ?_
      · rintro remaining ⟨remainder, remainingTotals, cancelled⟩
        refine ih ⟨_, _, remainingTotals, restTotals, invertible.2, ?_⟩
        apply invertible.1.join_right_cancel
        rw [cancelled]
        ac_rfl
      · refine .bind (ih ⟨_, _, upTotals, restTotals, invertible.2, Chain.join_assoc _ _ _ _⟩) ?_
        rintro cancelled ⟨_, downValue, cancelledUp, cancelledDown, downInvertible, rfl⟩
        refine .pure ⟨_, _, cancelledUp, .cons termMeans cancelledDown, ?_, ?_⟩
        · exact Chain.invertible_join.mpr ⟨invertible.1, downInvertible⟩
        · ac_rfl

end Merging

/-! ## Signs -/

section Signs

variable {term : Expr} {factors : List Expr} {terms : Terms} {value first : K}

/-- The value with a sign. -/
def signed (negative : Bool) (value : K) : K := if negative then -value else value

theorem withoutSign_means (means : Means reading term value) :
    (withoutSign term).Ensures reading.allowed (Means reading · (-value)) := by
  unfold withoutSign
  split
  · exact .pure (Means.neg_iff.mp means)
  · split
    · exact .lift (negateNumber_means (Means.number_iff.mp means))
    · exact .failure
  · exact .failure

theorem extractSigns_totals (totals : Totals reading .multiplicative factors value) :
    (extractSigns factors).Ensures reading.allowed fun extracted =>
      Totals reading .multiplicative extracted.1 (signed extracted.2 value) := by
  induction totals with
  | nil => exact .pure .nil
  | @cons factor factors first rest means _ ih =>
      unfold extractSigns
      refine Rule.Ensures.run_match (withoutSign_means means) ?_ ?_
      · intro positive positiveMeans
        refine .bind ih ?_
        rintro ⟨remaining, odd⟩ remainingTotals
        refine .pure (Totals.cons_iff.mpr ⟨_, _, positiveMeans, remainingTotals, ?_⟩)
        cases odd <;> simp [signed, Chain.join]
      · refine .bind ih ?_
        rintro ⟨remaining, odd⟩ remainingTotals
        refine .pure (Totals.cons_iff.mpr ⟨_, _, means, remainingTotals, ?_⟩)
        cases odd <;> simp [signed, Chain.join]

theorem pullSigns_gathers {chain : Chain} (gathers : Gathers reading chain terms value) :
    (pullSigns chain terms).Ensures reading.allowed fun pulled =>
      (chain = .additive → pulled.2 = false) ∧
        Gathers reading chain pulled.1 (signed pulled.2 value) := by
  cases chain with
  | additive => exact .pure ⟨fun _ => rfl, gathers⟩
  | multiplicative =>
      obtain ⟨up, down, upTotals, downTotals, invertible, joined⟩ := gathers
      refine .bind (extractSigns_totals upTotals) ?_
      rintro ⟨unsignedUp, upOdd⟩ unsignedUpTotals
      refine .bind (extractSigns_totals downTotals) ?_
      rintro ⟨unsignedDown, downOdd⟩ unsignedDownTotals
      refine .pure ⟨nofun, _, _, unsignedUpTotals, unsignedDownTotals, ?_, ?_⟩
      · cases downOdd
        · exact invertible
        · exact invertible.neg
      · rw [← joined]
        cases upOdd <;> cases downOdd <;> simp [signed, Chain.join]

end Signs

/-! ## Balancing -/

section Balancing

variable {kernel : Kernel} {chain : Chain} {term : Expr} {list : List Expr} {terms : Terms}
  {value : K}

theorem flipped_inverts (means : Means reading term value) :
    (flipped chain term).Ensures reading.allowed (Inverts reading chain value) := by
  unfold flipped
  split
  · split
    · refine .lift ((negateNumber_means (Means.number_iff.mp means)).mono
        fun inverse inverted => ?_)
      exact ⟨_, inverted, trivial, add_neg_cancel value⟩
    · exact .failure
  · exact .pure ⟨_, Means.neg_iff.mp means, trivial, add_neg_cancel value⟩
  · split
    · exact .lift (reciprocalPower_inverts means ‹_›)
    · exact .failure
  · exact .failure

/-- What stays is what was there, joined with the inverses of what moves. -/
theorem splitFlipped_totals (totals : Totals reading chain list value) :
    (splitFlipped chain list).Ensures reading.allowed fun split =>
      ∃ stay move, Totals reading chain split.1 stay ∧ Totals reading chain split.2 move ∧
        chain.Invertible move ∧ chain.join value move = stay := by
  induction totals with
  | nil => exact .pure ⟨_, _, .nil, .nil, chain.invertible_unit, chain.join_unit _⟩
  | @cons term list first rest means _ ih =>
      unfold splitFlipped
      refine Rule.Ensures.run_match (flipped_inverts means) ?_ ?_
      · rintro inverse ⟨inverseValue, inverseMeans, invertible, cancels⟩
        refine .bind ih ?_
        rintro ⟨staying, moving⟩ ⟨stay, move, stayTotals, moveTotals, moveInvertible, rfl⟩
        refine .pure ⟨_, _, stayTotals, .cons inverseMeans moveTotals,
          Chain.invertible_join.mpr ⟨invertible, moveInvertible⟩, ?_⟩
        calc chain.join (chain.join first rest) (chain.join inverseValue move)
            = chain.join (chain.join first inverseValue) (chain.join rest move) := by ac_rfl
          _ = chain.join rest move := by rw [cancels, Chain.unit_join]
      · refine .bind ih ?_
        rintro ⟨staying, moving⟩ ⟨stay, move, stayTotals, moveTotals, moveInvertible, rfl⟩
        refine .pure ⟨_, _, .cons means stayTotals, moveTotals, moveInvertible, ?_⟩
        ac_rfl

theorem balance_gathers (gathers : Gathers reading chain terms value) :
    (balance chain terms).Ensures reading.allowed (Gathers reading chain · value) := by
  obtain ⟨up, down, upTotals, downTotals, invertible, rfl⟩ := gathers
  refine .bind (splitFlipped_totals upTotals) ?_
  rintro ⟨upStaying, toDown⟩ ⟨_, upMove, upStayTotals, upMoveTotals, upInvertible, rfl⟩
  refine .bind (splitFlipped_totals downTotals) ?_
  rintro ⟨downStaying, toUp⟩ ⟨_, downMove, downStayTotals, downMoveTotals, downInvertible, rfl⟩
  refine .pure
    ⟨_, _, upStayTotals.append downMoveTotals, downStayTotals.append upMoveTotals, ?_, ?_⟩
  · simp only [Chain.invertible_join]
    exact ⟨⟨invertible, downInvertible⟩, upInvertible⟩
  · ac_rfl

theorem settle_gathers (sound : kernel.Sound reading)
    (gathers : Gathers reading chain terms value) :
    (settle kernel chain terms).Ensures reading.allowed (Gathers reading chain · value) := by
  refine .bind (tidyBoth_gathers sound gathers) fun tidied tidiedGathers =>
    .bind (cancel_gathers sound tidiedGathers) fun cancelled cancelledGathers =>
      .bind (tidyBoth_gathers sound cancelledGathers) fun merged mergedGathers =>
        .bind (balance_gathers mergedGathers) ?_
  rintro balanced ⟨up, down, upTotals, downTotals, invertible, joined⟩
  exact .pure ⟨up, down, sortTerms_totals upTotals, sortTerms_totals downTotals, invertible, joined⟩

/-- Neutral terms may be left out. -/
theorem Totals.filter_isNeutral (totals : Totals reading chain list value) :
    Totals reading chain (list.filter (!chain.isNeutral ·)) value := by
  induction totals with
  | nil => exact .nil
  | @cons term list first rest means _ ih =>
      rw [List.filter_cons]
      split
      · exact .cons means ih
      · rename_i neutral
        have unit : first = chain.unit := by
          cases chain with
          | additive => exact means.eq_zero (by simpa [Chain.isNeutral] using neutral)
          | multiplicative => exact means.eq_one (by simpa [Chain.isNeutral] using neutral)
        rwa [unit, Chain.unit_join]

/-- A product with a factor zero is zero. -/
theorem Totals.eq_zero (totals : Totals reading .multiplicative list value)
    (zero : list.any Expr.isZero = true) : value = 0 := by
  induction totals with
  | nil => contradiction
  | cons means _ ih =>
      rw [List.any_cons, Bool.or_eq_true] at zero
      rcases zero with zero | zero
      · rw [means.eq_zero zero]
        exact zero_mul _
      · rw [ih zero]
        exact mul_zero _

end Balancing

/-! ## Folding -/

section Folding

variable {kernel : Kernel} {chain : Chain} {start : Expr} {list : List Expr} {terms : Terms}
  {value first second : K}

theorem foldBack_op_means (startMeans : Means reading start first)
    (totals : Totals reading chain list second) :
    (foldBack chain.op start list).Ensures (Means reading · (chain.join first second)) := by
  induction totals with
  | nil =>
      rw [Chain.join_unit]
      exact .pure startMeans
  | @cons term list termValue rest means _ ih =>
      refine .bind ih fun folded foldedMeans => ?_
      have node : Means reading (.arith chain.op folded term)
          (chain.join (chain.join first rest) termValue) :=
        Chain.means_op.mpr ⟨_, _, foldedMeans, means, rfl⟩
      have equal : chain.join first (chain.join termValue rest) =
          chain.join (chain.join first rest) termValue := by ac_rfl
      rw [equal]
      exact node.make

theorem foldBack_sub_means (startMeans : Means reading start first)
    (totals : Totals reading .additive list second) :
    (foldBack .sub start list).Ensures (Means reading · (first - second)) := by
  induction totals with
  | nil =>
      have unchanged : first - (Chain.additive.unit : K) = first := sub_zero first
      rw [unchanged]
      exact .pure startMeans
  | @cons term list termValue rest means _ ih =>
      refine .bind ih fun folded foldedMeans => ?_
      have equal : first - Chain.additive.join termValue rest = first - rest - termValue := by
        simp only [Chain.join]
        ring
      rw [equal]
      exact (Means.sub foldedMeans means).make

theorem foldReversed?_means (totals : Totals reading chain list value) :
    (foldReversed? chain.op list).Ensures fun result =>
      (∀ tree, result = some tree → Means reading tree value) ∧
        (result = none → value = chain.unit) := by
  unfold foldReversed?
  cases found : list.getLast? with
  | none =>
      obtain rfl := List.getLast?_eq_none_iff.mp found
      exact .pure ⟨nofun, fun _ => Totals.nil_iff.mp totals⟩
  | some last =>
      obtain ⟨first, rest, lastMeans, restTotals, rfl⟩ := totals.getLast? found
      refine .bind (foldBack_op_means lastMeans restTotals) fun tree means => .pure ⟨?_, nofun⟩
      rintro _ ⟨⟩
      exact means

theorem foldAdditive_means (gathers : Gathers reading .additive terms value) :
    (foldAdditive terms).Ensures (Means reading · value) := by
  obtain ⟨up, down, upTotals, downTotals, _, joined⟩ := gathers
  have difference : value = up - down := eq_sub_of_add_eq joined
  refine .bind (foldReversed?_means upTotals) ?_
  rintro (_ | sum) ⟨found, missing⟩
  · have empty : up = 0 := missing rfl
    cases last : terms.down.getLast? with
    | some last =>
        obtain ⟨first, rest, lastMeans, restTotals, rfl⟩ := downTotals.getLast? last
        have equal : value = -first - rest := by
          rw [difference, empty]
          simp only [Chain.join]
          ring
        rw [equal]
        exact .bind lastMeans.neg.make fun negated negatedMeans =>
          foldBack_sub_means negatedMeans restTotals
    | none =>
        rw [List.getLast?_eq_none_iff.mp last, Totals.nil_iff] at downTotals
        have nothing : value = 0 := by
          rw [difference, empty, downTotals]
          exact sub_zero 0
        rw [nothing]
        exact .pure .zero
  · rw [difference]
    exact foldBack_sub_means (found sum rfl) downTotals

theorem signedNumerator_totals (sound : kernel.Sound reading) {negative : Bool}
    (totals : Totals reading .multiplicative list value) :
    (signedNumerator kernel negative list).Ensures reading.allowed
      (Totals reading .multiplicative · (signed negative value)) := by
  unfold signedNumerator
  cases negative with
  | false => exact .pure totals
  | true =>
      rw [if_pos rfl]
      cases last : list.getLast? with
      | some last =>
          obtain ⟨first, rest, lastMeans, restTotals, rfl⟩ := totals.getLast? last
          refine .bind (sound.negate lastMeans) fun negated negatedMeans => .pure ?_
          have equal : signed true (Chain.multiplicative.join first rest) =
              Chain.multiplicative.join rest (-first) := by
            simp only [signed, Chain.join, if_true]
            ring
          rw [equal]
          exact restTotals.append (.singleton negatedMeans)
      | none =>
          rw [List.getLast?_eq_none_iff.mp last, Totals.nil_iff] at totals
          subst totals
          have minusOne : Means reading (.int (-1)) (-1) := by
            simpa using Means.int (by decide : InRange (-1))
          exact .pure (.singleton minusOne)

theorem foldMultiplicative_means (sound : kernel.Sound reading) {negative : Bool}
    (gathers : Gathers reading .multiplicative terms value) :
    (foldMultiplicative kernel negative terms).Ensures reading.allowed
      (Means reading · (signed negative value)) := by
  obtain ⟨up, down, upTotals, downTotals, invertible, joined⟩ := gathers
  refine .bind (signedNumerator_totals sound upTotals) fun numerator numeratorTotals =>
    .bind (.ofMarking (foldReversed?_means numeratorTotals)) ?_
  rintro folded ⟨foldedMeans, unfolded⟩
  have top : Means reading (folded.getD Chain.multiplicative.neutral) (signed negative up) := by
    cases folded with
    | some tree => exact foldedMeans tree rfl
    | none =>
        rw [unfolded rfl]
        exact .one
  refine .bind (.ofMarking (foldReversed?_means downTotals)) ?_
  rintro (_ | bottom) ⟨bottomMeans, missing⟩
  · have equal : value = up := by
      rw [missing rfl] at joined
      simpa using joined
    rw [equal]
    exact .pure top
  · refine .ofMarking (Means.div top (bottomMeans bottom rfl) invertible ?_).make
    rw [← joined]
    cases negative <;> simp [signed, Chain.join]

/-- Collecting keeps the value of the terms. -/
theorem collect_means (sound : kernel.Sound reading) (gathers : Gathers reading chain terms value) :
    (collect kernel chain terms).Ensures reading.allowed (Means reading · value) := by
  refine .bind .step fun _ _ => .bind (pullSigns_gathers gathers) ?_
  rintro ⟨unsigned, negative⟩ ⟨unsignedSum, unsignedGathers⟩
  refine .bind (settle_gathers sound unsignedGathers) fun settled settledGathers => ?_
  obtain ⟨up, down, upTotals, downTotals, invertible, joined⟩ := settledGathers
  split
  · rename_i zero
    simp only [Bool.and_eq_true, decide_eq_true_eq] at zero
    obtain ⟨rfl, zero⟩ := zero
    have nothing : value = 0 := by
      rw [upTotals.eq_zero zero] at joined
      have vanishes := (invertible.mul_left_eq_zero).mp joined
      cases negative <;> simpa [signed] using vanishes
    rw [nothing]
    exact .pure .zero
  · have kept : Gathers reading chain
        ⟨settled.up.filter (!chain.isNeutral ·), settled.down.filter (!chain.isNeutral ·)⟩
        (signed negative value) :=
      ⟨up, down, upTotals.filter_isNeutral, downTotals.filter_isNeutral, invertible, joined⟩
    cases chain with
    | additive =>
        obtain rfl : negative = false := unsignedSum rfl
        exact .ofMarking (foldAdditive_means kept)
    | multiplicative =>
        refine (foldMultiplicative_means sound kept).mono fun tree means => ?_
        cases negative <;> simpa [signed] using means

end Folding

end SymbolicAlgebra

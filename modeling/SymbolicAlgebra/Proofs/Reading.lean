import Mathlib.Algebra.Algebra.Rat
import SymbolicAlgebra.Proofs.Ensures
import SymbolicAlgebra.Proofs.GaussianPowers
import SymbolicAlgebra.Proofs.IntegerPower

/-!
# Meanings of rational functions

A tree of numbers, variables, sums, differences, products, quotients, negations
and integer powers has at most one value in a ring, once its variables have
values there.  It has none where a divisor is not invertible.

A reading fixes the values of the variables and the steps that a computation may
take.  Readings in the rationals tell what trees denote.  In the ring with one
element every divisor is invertible, so a reading there only tells the shape of
a tree: which variables it may mention and which numbers.  One proof about the
rules of arithmetic then serves both.

A reading may go beyond rational functions, to complex numbers and to functions of one
argument.  The rules of arithmetic have identities for the sine only, so any other
function may be given any values.
-/

namespace SymbolicAlgebra

variable {K : Type} [CommRing K] [Algebra ℚ K]

/-- Where no function has a value, the sine has none. -/
theorem call_none_sin {K : Type} (argument : K) :
    (fun (_ : UnaryFunction) (_ : K) => (none : Option K)) .sin argument = none :=
  rfl

/-- The values of variables, whether inexact numbers are read too, and the steps
that computations may take. -/
structure Reading (K : Type) [CommRing K] where
  valuation : String → Option K
  /-- Inexact numbers have a value, which is possible where there is only one. -/
  inexact : Prop
  allowed : Step → Prop
  single : inexact → Subsingleton K
  /-- No computation leaves the range of exact numbers. -/
  inRange : ∀ number, ¬ allowed (.inexact number)
  /-- An operator is applied to numbers at which it has no value only where this
  goes without saying, or where the result can be read. -/
  defined : ∀ op left right, allowed (.undefined op left right) → inexact ∨ Nontrivial K
  /-- The values of complex numbers, where these are read. -/
  complex : Option (GaussianRational →+* K) := none
  /-- The values of functions, where they have one. -/
  call : UnaryFunction → K → Option K := fun _ _ => none
  /-- There is an identity that leads from sines to other functions. -/
  sine : ∀ argument, call .sin argument = none := by exact call_none_sin

namespace Reading

variable {reading : Reading K} {number : Number} {value : K} {z w : GaussianRational}
  {first second : K}

/-! ## Values of Gaussian rationals -/

/-- The Gaussian rationals that can be read, with their values. -/
def graph (reading : Reading K) : Subring (GaussianRational × K) :=
  match reading.complex with
  | none => ((algebraMap ℚ GaussianRational).prod (algebraMap ℚ K)).range
  | some embedding => ((RingHom.id GaussianRational).prod embedding).range

theorem mem_graph_of_rat (fraction : ℚ) :
    ((⟨fraction, 0⟩, algebraMap ℚ K fraction) : GaussianRational × K) ∈ reading.graph := by
  unfold graph
  split
  · exact ⟨fraction, rfl⟩
  · rename_i embedding _
    refine ⟨⟨fraction, 0⟩, Prod.ext rfl ?_⟩
    exact RingHom.congr_fun (RingHom.ext_rat (embedding.comp (algebraMap ℚ GaussianRational))
      (algebraMap ℚ K)) fraction

/-- The numbers that can be read are a field. -/
theorem exists_graph_eq (reading : Reading K) :
    ∃ (F : Type) (_ : Field F) (source : F →+* GaussianRational) (target : F →+* K),
      reading.graph = (source.prod target).range := by
  unfold graph
  split
  · exact ⟨ℚ, inferInstance, _, _, rfl⟩
  · exact ⟨GaussianRational, inferInstance, _, _, rfl⟩

theorem graph_unique (member : (z, first) ∈ reading.graph) (other : (z, second) ∈ reading.graph) :
    first = second := by
  obtain ⟨F, _, source, target, range⟩ := exists_graph_eq reading
  rw [range] at member other
  obtain ⟨p, same⟩ := member
  obtain ⟨q, otherSame⟩ := other
  obtain ⟨rfl, rfl⟩ := Prod.mk.inj same
  obtain ⟨equal, rfl⟩ := Prod.mk.inj otherSame
  rw [source.injective equal]

theorem graph_div (member : (z, first) ∈ reading.graph) (other : (w, second) ∈ reading.graph)
    (nonzero : w ≠ 0) (invertible : IsUnit second) (divides : value * second = first) :
    (z / w, value) ∈ reading.graph := by
  obtain ⟨F, _, source, target, range⟩ := exists_graph_eq reading
  rw [range] at member other ⊢
  obtain ⟨p, same⟩ := member
  obtain ⟨q, otherSame⟩ := other
  obtain ⟨rfl, rfl⟩ := Prod.mk.inj same
  obtain ⟨rfl, rfl⟩ := Prod.mk.inj otherSame
  have nonzero : q ≠ 0 := fun zero => nonzero (by rw [zero, map_zero])
  refine ⟨p / q, Prod.ext (map_div₀ source p q) ?_⟩
  apply invertible.mul_right_cancel
  exact (map_mul target _ _).symm.trans
    ((congrArg target (div_mul_cancel₀ p nonzero)).trans divides.symm)

/-! ## Values of numbers -/

/-- The value of a number. -/
def Reads (reading : Reading K) (number : Number) (value : K) : Prop :=
  (∃ fraction, number.IsFraction fraction ∧ algebraMap ℚ K fraction = value) ∨
    (∃ embedding ∈ reading.complex, ∃ z, number.Represents z ∧ embedding z = value) ∨
    reading.inexact ∧ number.isExact = false

theorem reads_int {whole : Int} (inRange : InRange whole) : reading.Reads (.int whole) whole :=
  .inl ⟨whole, Number.isFraction_int inRange, map_intCast _ whole⟩

/-- Where an exact number is read, it has the value of a Gaussian rational. -/
theorem Reads.gaussian (reads : reading.Reads number value) (exact : number.isExact = true) :
    ∃ z, number.Bounded ∧ number.value? = some z ∧ (z, value) ∈ reading.graph := by
  rcases reads with
    ⟨fraction, isFraction, rfl⟩ | ⟨embedding, found, z, represents, rfl⟩ | ⟨_, inexact⟩
  · exact ⟨⟨fraction, 0⟩, isFraction.2, isFraction.value?, mem_graph_of_rat fraction⟩
  · refine ⟨z, represents.1.bounded, represents.2, ?_⟩
    rw [graph, Option.mem_def.mp found]
    exact ⟨z, rfl⟩
  · rw [exact] at inexact
    contradiction

theorem reads_of_represents (represents : number.Represents z)
    (member : (z, value) ∈ reading.graph) : reading.Reads number value := by
  unfold graph at member
  split at member
  · obtain ⟨fraction, same⟩ := member
    obtain ⟨rfl, rfl⟩ := Prod.mk.inj same
    exact .inl ⟨fraction, .of_represents represents, rfl⟩
  · rename_i embedding found
    obtain ⟨_, same⟩ := member
    obtain ⟨rfl, rfl⟩ := Prod.mk.inj same
    exact .inr (.inl ⟨embedding, found, _, represents, rfl⟩)

theorem Reads.fraction (reads : reading.Reads number value) (real : reading.complex = none)
    (exact : number.isExact = true) :
    ∃ fraction, number.IsFraction fraction ∧ algebraMap ℚ K fraction = value := by
  rcases reads with fraction | ⟨_, found, _⟩ | ⟨_, inexact⟩
  · exact fraction
  · rw [real] at found
    contradiction
  · rw [exact] at inexact
    contradiction

theorem Reads.inexact (reads : reading.Reads number value) (inexact : number.isExact = false) :
    reading.inexact := by
  rcases reads with ⟨fraction, isFraction, _⟩ | ⟨_, _, z, represents, _⟩ | ⟨permitted, _⟩
  · rw [isFraction.isExact] at inexact
    contradiction
  · rw [represents.isExact] at inexact
    contradiction
  · exact permitted

theorem Reads.isExact (reads : reading.Reads number value) (excluded : ¬ reading.inexact) :
    number.isExact = true := by
  by_contra inexact
  exact excluded (reads.inexact (by simpa using inexact))

/-- Where inexact numbers are read all values are equal. -/
theorem Reads.eq_of_inexact (reads : reading.Reads number value) (inexact : number.isExact = false)
    (first second : K) : first = second :=
  (reading.single (reads.inexact inexact)).elim first second

theorem Reads.unique {otherValue : K} (reads : reading.Reads number value)
    (otherReads : reading.Reads number otherValue) : value = otherValue := by
  cases exact : number.isExact with
  | false => exact reads.eq_of_inexact exact _ _
  | true =>
      obtain ⟨z, _, denotes, member⟩ := reads.gaussian exact
      obtain ⟨w, _, same, otherMember⟩ := otherReads.gaussian exact
      obtain rfl := Option.some.inj (denotes.symm.trans same)
      exact graph_unique member otherMember

theorem Reads.eq_of_beq {other : Number} {otherValue : K} (reads : reading.Reads number value)
    (otherReads : reading.Reads other otherValue) (equal : (number == other) = true) :
    value = otherValue := by
  cases exact : number.isExact with
  | false => exact reads.eq_of_inexact exact _ _
  | true =>
      obtain rfl := (Number.beq_iff_eq_of_isExact exact).mp equal
      exact reads.unique otherReads

theorem Reads.int_eq {whole : Int} (reads : reading.Reads (.int whole) value) : value = whole := by
  obtain ⟨z, _, denotes, member⟩ := reads.gaussian rfl
  obtain rfl := Option.some.inj denotes
  rw [← map_intCast (algebraMap ℚ K)]
  exact graph_unique member (mem_graph_of_rat whole)

theorem Reads.eq_zero (reads : reading.Reads number value) (zero : number.isZero = true) :
    value = 0 := by
  cases number with
  | int whole =>
      obtain rfl : whole = 0 := by simpa [Number.isZero] using zero
      simpa using reads.int_eq
  | real _ => exact reads.eq_of_inexact rfl _ _
  | rational _ | complexInt _ | complexRational _ | complexReal _ => contradiction

theorem Reads.eq_zero_of_isExactZero (reads : reading.Reads number value)
    (zero : number.isExactZero = true) : value = 0 := by
  have denotes : number.value? = some 0 := by
    have parts : number.toComplexRatio? = some ⟨0, 0⟩ := by simpa [Number.isExactZero] using zero
    rw [Number.value?, parts]
    rfl
  obtain ⟨z, _, same, member⟩ := reads.gaussian (Number.isExact_iff_value?.mpr ⟨0, denotes⟩)
  obtain rfl := Option.some.inj (denotes.symm.trans same)
  exact graph_unique member (zero_mem _)

theorem Reads.eq_one (reads : reading.Reads number value) (one : number.isOne = true) :
    value = 1 := by
  cases number with
  | int whole =>
      obtain rfl : whole = 1 := by simpa [Number.isOne] using one
      simpa using reads.int_eq
  | real _ => exact reads.eq_of_inexact rfl _ _
  | rational _ | complexInt _ | complexRational _ | complexReal _ => contradiction

theorem Reads.eq_neg_one (reads : reading.Reads number value)
    (minusOne : number.isMinusOne = true) : value = -1 := by
  cases number with
  | int whole =>
      obtain rfl : whole = -1 := by simpa [Number.isMinusOne] using minusOne
      simpa using reads.int_eq
  | real _ => exact reads.eq_of_inexact rfl _ _
  | rational _ | complexInt _ | complexRational _ | complexReal _ => contradiction

/-! ## Operations -/

/-- An exact result of an operation that computes a function of the field is read where
the function can be. -/
theorem Reads.run {operation : Number.TierOperation}
    {result : GaussianRational → GaussianRational → GaussianRational} {left right : Number}
    (reads : reading.Reads left first) (computes : operation.Computes result)
    (otherReads : reading.Reads right second) (exact : (operation.run left right).isExact = true)
    (closed : ∀ z w, right.value? = some w → (z, first) ∈ reading.graph →
      (w, second) ∈ reading.graph → (result z w, value) ∈ reading.graph) :
    reading.Reads (operation.run left right) value := by
  obtain ⟨leftExact, rightExact⟩ := computes.operands_isExact exact
  obtain ⟨z, leftBounded, leftDenotes, member⟩ := reads.gaussian leftExact
  obtain ⟨w, rightBounded, rightDenotes, otherMember⟩ := otherReads.gaussian rightExact
  obtain ⟨z', w', leftValue, rightValue, represents⟩ := computes.run_represents exact
  obtain rfl := Option.some.inj (leftDenotes.symm.trans leftValue)
  obtain rfl := Option.some.inj (rightDenotes.symm.trans rightValue)
  exact reads_of_represents (represents leftBounded rightBounded)
    (closed z w rightDenotes member otherMember)

/-- An exact negative is read as the negative. -/
theorem Reads.neg (reads : reading.Reads number value)
    (kept : number.isExact = true → number.neg.isExact = true) :
    reading.Reads number.neg (-value) := by
  rcases reads with ⟨fraction, isFraction, rfl⟩ | ⟨embedding, found, z, represents, rfl⟩ |
    ⟨permitted, inexact⟩
  · exact .inl ⟨-fraction, isFraction.neg (kept isFraction.isExact), map_neg _ fraction⟩
  · have exact := kept represents.isExact
    exact .inr (.inl ⟨embedding, found, -z, Number.neg_represents represents.1 represents.2 exact,
      map_neg embedding z⟩)
  · exact .inr (.inr ⟨permitted, Number.neg_isExact inexact⟩)

/-- An exact integer power is read as the power. -/
theorem Reads.pow {exponent : Int} {power : K} (reads : reading.Reads number value)
    (exact : (number.pow (.int exponent)).isExact = true) (isPower : IsPower value exponent power) :
    reading.Reads (number.pow (.int exponent)) power := by
  rcases reads with
    ⟨fraction, isFraction, rfl⟩ | ⟨embedding, found, z, represents, rfl⟩ | ⟨_, inexact⟩
  · obtain ⟨defined, powered⟩ := isFraction.pow exact
    refine .inl ⟨fraction ^ exponent, powered, ?_⟩
    exact ((isPower_iff.mpr ⟨defined, rfl⟩).map (algebraMap ℚ K)).unique isPower
  · have defined : z ≠ 0 ∨ 0 ≤ exponent := by
      by_cases zero : z = 0
      · subst zero
        obtain ⟨nonzero | nonnegative, _⟩ := (Number.IsFraction.of_represents represents).pow exact
        · exact absurd rfl nonzero
        · exact .inr nonnegative
      · exact .inl zero
    refine .inr (.inl ⟨embedding, found, z ^ exponent, represents.pow_int exact, ?_⟩)
    exact ((isPower_iff.mpr ⟨defined, rfl⟩).map embedding).unique isPower
  · rw [Number.pow_int_isExact inexact] at exact
    contradiction

end Reading

theorem Expr.eq_of_asNumber? {tree : Expr} {number : Number}
    (view : tree.asNumber? = some number) : ∃ mark, tree = .number number mark := by
  cases tree with
  | number value mark => exact ⟨mark, by rw [Option.some.inj view]⟩
  | _ => contradiction

theorem Expr.eq_of_isNumber {tree : Expr} (isNumber : tree.isNumber = true) :
    ∃ number mark, tree = .number number mark := by
  obtain ⟨number, view⟩ := Option.isSome_iff_exists.mp isNumber
  exact ⟨number, eq_of_asNumber? view⟩

theorem Expr.eq_of_asArray? {tree : Expr} {items : List Expr} (view : tree.asArray? = some items) :
    ∃ mark, tree = .array items mark := by
  cases tree with
  | array own mark => exact ⟨mark, by rw [Option.some.inj view]⟩
  | _ => cases view

theorem Expr.isError_number {number : Number} {mark : Mark} (exact : number.isExact = true) :
    (Expr.number number mark).isError = false := by
  cases number <;> first | rfl | contradiction

theorem Expr.eq_of_asVar? {tree : Expr} {name : String} (view : tree.asVar? = some name) :
    ∃ mark, tree = .var name mark := by
  cases tree with
  | var other mark => exact ⟨mark, by rw [Option.some.inj view]⟩
  | _ => contradiction

theorem Expr.eq_of_asInt? {tree : Expr} {value : Int} (view : tree.asInt? = some value) :
    ∃ mark, tree = .number (.int value) mark := by
  unfold Expr.asInt? at view
  split at view
  · exact ⟨_, by rw [Option.some.inj view]⟩
  · contradiction

/-- The leaf of an integer of the range. -/
def Expr.IsWhole (tree : Expr) (value : Int) : Prop :=
  InRange value ∧ ∃ mark, tree = .number (.int value) mark

/-- The tree has a value under a reading. -/
inductive Means (reading : Reading K) : Expr → K → Prop where
  | number {number : Number} {value : K} {mark : Mark} :
      reading.Reads number value → Means reading (.number number mark) value
  | var {name : String} {value : K} {mark : Mark} :
      reading.valuation name = some value → Means reading (.var name mark) value
  | neg {operand : Expr} {value : K} {mark : Mark} :
      Means reading operand value → Means reading (.unary .neg operand mark) (-value)
  | add {left right : Expr} {first second : K} {mark : Mark} :
      Means reading left first → Means reading right second →
        Means reading (.arith .add left right mark) (first + second)
  | sub {left right : Expr} {first second : K} {mark : Mark} :
      Means reading left first → Means reading right second →
        Means reading (.arith .sub left right mark) (first - second)
  | mul {left right : Expr} {first second : K} {mark : Mark} :
      Means reading left first → Means reading right second →
        Means reading (.arith .mul left right mark) (first * second)
  | div {left right : Expr} {first second quotient : K} {mark : Mark} :
      Means reading left first → Means reading right second → IsUnit second →
        quotient * second = first → Means reading (.arith .div left right mark) quotient
  | pow {base : Expr} {first power : K} {exponent : Int} {inner mark : Mark} :
      Means reading base first → InRange exponent → IsPower first exponent power →
        Means reading (.arith .pow base (.number (.int exponent) inner) mark) power
  | call {function : UnaryFunction} {argument : Expr} {first result : K} {mark : Mark} :
      Means reading argument first → reading.call function first = some result →
        Means reading (.call function argument mark) result

namespace Means

variable {reading : Reading K} {tree left right operand : Expr} {value first second : K}
  {mark : Mark}

/-! ## Forms of trees -/

@[simp] theorem number_iff {number : Number} :
    Means reading (.number number mark) value ↔ reading.Reads number value :=
  ⟨fun | .number reads => reads, .number⟩

@[simp] theorem var_iff {name : String} :
    Means reading (.var name mark) value ↔ reading.valuation name = some value :=
  ⟨fun | .var found => found, .var⟩

theorem neg_iff :
    Means reading (.unary .neg operand mark) value ↔ Means reading operand (-value) := by
  constructor
  · rintro (_ | _ | means)
    rwa [neg_neg]
  · intro means
    simpa using Means.neg means

theorem add_iff : Means reading (.arith .add left right mark) value ↔
    ∃ first second, Means reading left first ∧ Means reading right second ∧
      first + second = value :=
  ⟨fun | .add left right => ⟨_, _, left, right, rfl⟩,
    fun ⟨_, _, left, right, equal⟩ => equal ▸ .add left right⟩

theorem sub_iff : Means reading (.arith .sub left right mark) value ↔
    ∃ first second, Means reading left first ∧ Means reading right second ∧
      first - second = value :=
  ⟨fun | .sub left right => ⟨_, _, left, right, rfl⟩,
    fun ⟨_, _, left, right, equal⟩ => equal ▸ .sub left right⟩

theorem mul_iff : Means reading (.arith .mul left right mark) value ↔
    ∃ first second, Means reading left first ∧ Means reading right second ∧
      first * second = value :=
  ⟨fun | .mul left right => ⟨_, _, left, right, rfl⟩,
    fun ⟨_, _, left, right, equal⟩ => equal ▸ .mul left right⟩

theorem div_iff : Means reading (.arith .div left right mark) value ↔
    ∃ first second, Means reading left first ∧ Means reading right second ∧ IsUnit second ∧
      value * second = first :=
  ⟨fun | .div left right invertible equal => ⟨_, _, left, right, invertible, equal⟩,
    fun ⟨_, _, left, right, invertible, equal⟩ => .div left right invertible equal⟩

theorem pow_iff : Means reading (.arith .pow left right mark) value ↔
    ∃ base exponent, Means reading left base ∧ right.IsWhole exponent ∧
      IsPower base exponent value :=
  ⟨fun | .pow base inRange power => ⟨_, _, base, ⟨inRange, _, rfl⟩, power⟩,
    fun ⟨_, _, base, ⟨inRange, _, equal⟩, power⟩ => equal ▸ .pow base inRange power⟩

theorem call_iff {function : UnaryFunction} : Means reading (.call function operand mark) value ↔
    ∃ first, Means reading operand first ∧ reading.call function first = some value :=
  ⟨fun | .call argument found => ⟨_, argument, found⟩,
    fun ⟨_, argument, found⟩ => .call argument found⟩

/-- The operands of an operator have values when the node has one. -/
theorem operands {op : ArithOp} (means : Means reading (.arith op left right mark) value) :
    ∃ first second, Means reading left first ∧ Means reading right second := by
  cases means with
  | add left right => exact ⟨_, _, left, right⟩
  | sub left right => exact ⟨_, _, left, right⟩
  | mul left right => exact ⟨_, _, left, right⟩
  | div left right _ _ => exact ⟨_, _, left, right⟩
  | pow base inRange _ => exact ⟨_, _, base, .number (Reading.reads_int inRange)⟩

theorem of_mem_children {part : Expr} (means : Means reading tree value)
    (member : part ∈ tree.children) : ∃ value, Means reading part value := by
  cases tree with
  | unary op operand mark =>
      obtain rfl := List.mem_singleton.mp member
      cases means with
      | neg operandMeans => exact ⟨_, operandMeans⟩
  | arith op left right mark =>
      obtain ⟨first, second, leftMeans, rightMeans⟩ := means.operands
      rcases List.mem_pair.mp member with rfl | rfl
      · exact ⟨first, leftMeans⟩
      · exact ⟨second, rightMeans⟩
  | call function argument mark =>
      obtain rfl := List.mem_singleton.mp member
      obtain ⟨first, argumentMeans, _⟩ := call_iff.mp means
      exact ⟨first, argumentMeans⟩
  | number _ _ | var _ _ => contradiction
  | _ => cases means

theorem int {whole : Int} (inRange : InRange whole) : Means reading (.int whole) whole :=
  .number (Reading.reads_int inRange)

theorem zero : Means reading (.int 0) 0 := by simpa using int inRange_zero

theorem one : Means reading (.int 1) 1 := by simpa using int inRange_one

/-- Marks have no meaning. -/
theorem withMark (means : Means reading tree value) (mark : Mark) :
    Means reading (tree.withMark mark) value := by
  cases means with
  | number reads => exact .number reads
  | var found => exact .var found
  | neg operand => exact .neg operand
  | add left right => exact .add left right
  | sub left right => exact .sub left right
  | mul left right => exact .mul left right
  | div left right invertible equal => exact .div left right invertible equal
  | pow base inRange power => exact .pow base inRange power
  | call argument found => exact .call argument found

theorem make (means : Means reading tree value) :
    (Expr.make tree).Ensures (Means reading · value) :=
  .make means.withMark

theorem asFault? (means : Means reading tree value) : tree.asFault? = none := by
  cases means <;> rfl

theorem isError (means : Means reading tree value) (excluded : ¬ reading.inexact) :
    tree.isError = false := by
  cases means with
  | number reads => exact Expr.isError_number (reads.isExact excluded)
  | _ => rfl

theorem asArray? (means : Means reading tree value) : tree.asArray? = none := by
  cases means <;> rfl

theorem isTextual (means : Means reading tree value) : tree.isTextual = false := by
  cases means <;> rfl

theorem toNumber? (means : Means reading tree value) : tree.toNumber? = tree.asNumber? := by
  cases means <;> rfl

theorem of_asNumber? {number : Number} (means : Means reading tree value)
    (view : tree.asNumber? = some number) : reading.Reads number value := by
  cases means with
  | number reads =>
      obtain rfl := Option.some.inj view
      exact reads
  | _ => contradiction

theorem eq_zero (means : Means reading tree value) (zero : tree.isZero = true) : value = 0 := by
  obtain ⟨number, view, zero⟩ := (Option.any_eq_true _ _).mp zero
  exact (means.of_asNumber? view).eq_zero zero

theorem eq_one (means : Means reading tree value) (one : tree.isOne = true) : value = 1 := by
  obtain ⟨number, view, one⟩ := (Option.any_eq_true _ _).mp one
  exact (means.of_asNumber? view).eq_one one

theorem eq_neg_one (means : Means reading tree value) (minusOne : tree.isMinusOne = true) :
    value = -1 := by
  obtain ⟨number, view, minusOne⟩ := (Option.any_eq_true _ _).mp minusOne
  exact (means.of_asNumber? view).eq_neg_one minusOne

/-! ## Values of trees -/

theorem unique (means : Means reading tree first) (other : Means reading tree second) :
    first = second := by
  induction means generalizing second with
  | number reads => exact reads.unique (number_iff.mp other)
  | var found => exact Option.some.inj (found.symm.trans (var_iff.mp other))
  | neg _ ih => rw [ih (neg_iff.mp other), neg_neg]
  | add _ _ leftIH rightIH =>
      obtain ⟨_, _, otherLeft, otherRight, rfl⟩ := add_iff.mp other
      rw [leftIH otherLeft, rightIH otherRight]
  | sub _ _ leftIH rightIH =>
      obtain ⟨_, _, otherLeft, otherRight, rfl⟩ := sub_iff.mp other
      rw [leftIH otherLeft, rightIH otherRight]
  | mul _ _ leftIH rightIH =>
      obtain ⟨_, _, otherLeft, otherRight, rfl⟩ := mul_iff.mp other
      rw [leftIH otherLeft, rightIH otherRight]
  | div _ _ invertible divides leftIH rightIH =>
      obtain ⟨_, _, otherLeft, otherRight, _, otherDivides⟩ := div_iff.mp other
      apply invertible.mul_right_cancel
      rw [divides, leftIH otherLeft, rightIH otherRight, otherDivides]
  | pow _ _ power ih =>
      cases other with
      | pow otherBase _ otherPower =>
          obtain rfl := ih otherBase
          exact power.unique otherPower
  | call _ found ih =>
      obtain ⟨_, otherArgument, otherFound⟩ := call_iff.mp other
      rw [ih otherArgument] at found
      exact Option.some.inj (found.symm.trans otherFound)

/-- Trees that agree have equal values. -/
theorem eq_of_beq (means : Means reading left first) (other : Means reading right second)
    (equal : (left == right) = true) : first = second := by
  change left.agree right = true at equal
  induction means generalizing right second with
  | number reads =>
      cases other with
      | number otherReads =>
          rw [Expr.agree, Bool.or_eq_true, Bool.and_eq_true] at equal
          rcases equal with equal | ⟨undefined, _⟩
          · exact reads.eq_of_beq otherReads equal
          · exact reads.eq_of_inexact (Number.isExact_of_isNaN undefined) _ _
      | _ => simp [Expr.agree] at equal
  | var found =>
      cases other with
      | var otherFound =>
          simp only [Expr.agree, beq_iff_eq] at equal
          rw [equal] at found
          exact Option.some.inj (found.symm.trans otherFound)
      | _ => simp [Expr.agree] at equal
  | neg _ ih =>
      cases other with
      | neg otherOperand =>
          simp only [Expr.agree, Bool.and_eq_true] at equal
          rw [ih otherOperand equal.2]
      | _ => simp [Expr.agree] at equal
  | add _ _ leftIH rightIH =>
      cases other with
      | add otherLeft otherRight =>
          simp only [Expr.agree, Bool.and_eq_true] at equal
          rw [leftIH otherLeft equal.1.2, rightIH otherRight equal.2]
      | _ => simp [Expr.agree] at equal
  | sub _ _ leftIH rightIH =>
      cases other with
      | sub otherLeft otherRight =>
          simp only [Expr.agree, Bool.and_eq_true] at equal
          rw [leftIH otherLeft equal.1.2, rightIH otherRight equal.2]
      | _ => simp [Expr.agree] at equal
  | mul _ _ leftIH rightIH =>
      cases other with
      | mul otherLeft otherRight =>
          simp only [Expr.agree, Bool.and_eq_true] at equal
          rw [leftIH otherLeft equal.1.2, rightIH otherRight equal.2]
      | _ => simp [Expr.agree] at equal
  | div _ _ invertible divides leftIH rightIH =>
      cases other with
      | div otherLeft otherRight _ otherDivides =>
          simp only [Expr.agree, Bool.and_eq_true] at equal
          apply invertible.mul_right_cancel
          rw [divides, leftIH otherLeft equal.1.2, rightIH otherRight equal.2, otherDivides]
      | _ => simp [Expr.agree] at equal
  | pow _ _ power ih =>
      cases other with
      | pow otherBase _ otherPower =>
          simp only [Expr.agree, Bool.and_eq_true] at equal
          obtain rfl := ih otherBase equal.1.2
          have exponents := equal.2
          simp only [Number.isNaN, Bool.false_and, Bool.or_false, BEq.beq, instBEqNumber.beq,
            decide_eq_true_eq] at exponents
          subst exponents
          exact power.unique otherPower
      | _ => simp [Expr.agree] at equal
  | call _ found ih =>
      cases other with
      | call otherArgument otherFound =>
          simp only [Expr.agree, Bool.and_eq_true, beq_iff_eq] at equal
          obtain ⟨rfl, equal⟩ := equal
          rw [ih otherArgument equal] at found
          exact Option.some.inj (found.symm.trans otherFound)
      | _ => simp [Expr.agree] at equal

/-! ## Numbers -/

variable {op : ArithOp} {x y : Number} {inner outer : Mark}

/-- An exact result of an operator on numbers has the value of the operation. -/
theorem reads_of_isExact
    (means : Means reading (.arith op (.number x inner) (.number y outer) mark) value)
    (exact : (op.onNumbers x y).isExact = true) : reading.Reads (op.onNumbers x y) value := by
  cases means with
  | add left right =>
      exact (number_iff.mp left).run Number.addition_computes (number_iff.mp right) exact
        fun _ _ _ => add_mem
  | sub left right =>
      exact (number_iff.mp left).run Number.subtraction_computes (number_iff.mp right) exact
        fun _ _ _ => sub_mem
  | mul left right =>
      exact (number_iff.mp left).run Number.multiplication_computes (number_iff.mp right) exact
        fun _ _ _ => mul_mem
  | div left right invertible divides =>
      refine (number_iff.mp left).run Number.division_computes (number_iff.mp right) exact
        fun z w denotes member other => Reading.graph_div member other ?_ invertible divides
      rintro rfl
      exact absurd (exact.symm.trans (Number.div_zero_isExact denotes)) (by decide)
  | pow base inRange power => exact (number_iff.mp base).pow exact power

/-- Where an operator has no value at exact numbers no ring but the one with a
single element gives it one. -/
theorem not_isUndefinedAt [Nontrivial K]
    (means : Means reading (.arith op (.number x inner) (.number y outer) mark) value) :
    op.isUndefinedAt x y = false := by
  by_contra undefined
  rw [Bool.not_eq_false] at undefined
  cases means with
  | div left right invertible divides =>
      rw [(number_iff.mp right).eq_zero_of_isExactZero undefined] at invertible
      exact not_isUnit_zero invertible
  | pow base inRange power =>
      simp only [ArithOp.isUndefinedAt, Number.isNegative, Bool.and_eq_true,
        decide_eq_true_eq] at undefined
      rw [(number_iff.mp base).eq_zero_of_isExactZero undefined.1] at power
      exact absurd (power.eq_pow not_isUnit_zero).1 undefined.2.not_ge
  | _ => contradiction

/-- The result of an operator on numbers has the value of the operation, when
the run is allowed to go on from there. -/
theorem reads_onNumbers
    (means : Means reading (.arith op (.number x inner) (.number y outer) mark) value)
    (noted : op.isUndefinedAt x y = true → reading.allowed (.undefined op x y))
    (kept : op.isUndefinedAt x y = false → x.isExact = true → y.isExact = true →
      (op.onNumbers x y).isExact = true) :
    reading.Reads (op.onNumbers x y) value := by
  by_cases exact : (op.onNumbers x y).isExact = true
  · exact means.reads_of_isExact exact
  · refine .inr (.inr ⟨?_, by simpa using exact⟩)
    by_contra excluded
    obtain ⟨first, second, left, right⟩ := means.operands
    have xExact : x.isExact = true := (number_iff.mp left).isExact excluded
    have yExact : y.isExact = true := (number_iff.mp right).isExact excluded
    have undefined : op.isUndefinedAt x y = true := by
      by_contra defined
      exact exact (kept (by simpa using defined) xExact yExact)
    rcases reading.defined _ _ _ (noted undefined) with permitted | nontrivial
    · exact excluded permitted
    · rw [means.not_isUndefinedAt] at undefined
      contradiction

end Means

end SymbolicAlgebra

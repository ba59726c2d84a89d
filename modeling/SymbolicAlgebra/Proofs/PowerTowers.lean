import SymbolicAlgebra.Proofs.NumericLeaves
import SymbolicAlgebra.Proofs.QuarterTurns

/-!
# Towers of powers

A variable is raised to one numeric exponent after another.  Simplification multiplies
the exponents, and so reaches a variable, a power of it or a number.  With the variable
bound, evaluation takes one power after another, and so always has a number.

Where both are exact, they have the same magnitude.  They may differ by quarter turns
when the bound number is negative, for the principal square root forgets the turns
that an even power has taken.
-/

namespace SymbolicAlgebra

open SymbolicAlgebra.Expr

/-- What a tower of powers is simplified to. -/
inductive PowerForm where
  | base
  | power (exponent : Number)
  | constant (value : Number)

namespace PowerForm

/-- The variable raised to an exponent. -/
def ofExponent (exponent : Number) : PowerForm :=
  if exponent.isNaN then constant exponent
  else if exponent.isZero then constant (.int 1)
  else if exponent.isOne then base
  else power exponent

theorem ofExponent_eq_power {exponent : Number} (defined : exponent.isNaN = false)
    (nonzero : exponent.isZero = false) (notOne : exponent.isOne = false) :
    ofExponent exponent = power exponent := by
  simp [ofExponent, defined, nonzero, notOne]

theorem ofExponent_int {exponent : ℤ} (nonzero : exponent ≠ 0) (notOne : exponent ≠ 1) :
    ofExponent (.int exponent) = power (.int exponent) :=
  ofExponent_eq_power rfl (beq_false_of_ne nonzero) (beq_false_of_ne notOne)

/-- A form raised to an exponent. -/
def raise : PowerForm → Number → PowerForm
  | base, exponent => ofExponent exponent
  | power inner, exponent =>
      if exponent.isZero then constant (.int 1)
      else if exponent.isOne then power inner
      else ofExponent (inner.mul exponent)
  | constant value, exponent => constant (if value.isNaN then value else value.pow exponent)

/-- The value of a form where the variable has the given one. -/
def valueAt (number : Number) : PowerForm → Number
  | base => number
  | power exponent => number.pow exponent
  | constant value => value

/-- A tree has the form. -/
def Shows (name : String) : PowerForm → Expr → Prop
  | base, tree => ∃ mark, tree = .var name mark
  | power exponent, tree => exponent.isNaN = false ∧
      ∃ inner mark outer, tree = .arith .pow (.var name inner) (.number exponent mark) outer
  | constant value, tree => ∃ mark, tree = .number value mark

/-- The exponent of a form as a power of the variable. -/
def exponent? : PowerForm → Option ℚ
  | base => some 1
  | power exponent => exponent.toRatio?
  | constant _ => some 0

/-- A number that is left over is one, unless it is rounded. -/
def Settled : PowerForm → Prop
  | constant value => value.isExact = true → value = .int 1
  | _ => True

theorem exponent?_ofExponent {exponent : Number} {value : ℚ}
    (view : exponent.toRatio? = some value) : (ofExponent exponent).exponent? = some value := by
  rcases Number.eq_int_or_rational_of_toRatio? view with ⟨whole, rfl, rfl⟩ | rfl
  · unfold ofExponent
    by_cases zero : whole = 0
    · subst zero
      rfl
    · by_cases one : whole = 1
      · subst one
        rfl
      · simp [Number.isNaN, Number.isZero, Number.isOne, zero, one, exponent?, Number.toRatio?]
  · rfl

/-- Raising a form multiplies its exponent. -/
theorem exponent?_raise {form : PowerForm} {exponent : Number} {inner value : ℚ}
    (holds : form.exponent? = some inner) (view : exponent.toRatio? = some value)
    (inRange : Ratio.InRange (inner * value)) :
    (form.raise exponent).exponent? = some (inner * value) := by
  cases form with
  | base =>
      obtain rfl := Option.some.inj holds
      rw [raise, exponent?_ofExponent view, one_mul]
  | power first =>
      rw [raise]
      have product := exponent?_ofExponent (Number.toRatio?_mul holds view inRange)
      rcases Number.eq_int_or_rational_of_toRatio? view with ⟨whole, rfl, rfl⟩ | rfl
      · by_cases zero : whole = 0
        · subst zero
          simp [Number.isZero, exponent?]
        · by_cases one : whole = 1
          · subst one
            simpa [Number.isZero, Number.isOne, exponent?] using holds
          · simpa [Number.isZero, Number.isOne, zero, one] using product
      · exact product
  | constant number =>
      obtain rfl := Option.some.inj holds
      rw [raise, exponent?, zero_mul]

theorem settled_ofExponent (exponent : Number) : (ofExponent exponent).Settled := by
  unfold ofExponent
  split
  · rename_i undefined
    intro exact
    exact absurd (exact.symm.trans (Number.isExact_of_isNaN undefined)) (by decide)
  · split
    · exact fun _ => rfl
    · split <;> trivial

theorem settled_raise {form : PowerForm} (settled : form.Settled) (exponent : Number) :
    (form.raise exponent).Settled := by
  cases form with
  | base => exact settled_ofExponent exponent
  | power first =>
      rw [raise]
      split
      · exact fun _ => rfl
      · split
        · trivial
        · exact settled_ofExponent _
  | constant number =>
      rw [raise]
      split
      · exact settled
      · intro exact
        obtain rfl := settled (Number.isExact_of_pow exact)
        exact Number.int_one_pow exact

/-- An exact value of a form is a power of the value of the variable. -/
theorem valueAt_isPolar {form : PowerForm} {number : Number} {magnitude : ℚ} {turns : ℕ}
    (settled : form.Settled) (polar : number.IsPolar magnitude turns)
    (exact : (form.valueAt number).isExact = true) :
    ∃ power exponent : ℚ, form.exponent? = some exponent ∧
      (form.valueAt number).IsPolar power (Number.turnsAfter turns exponent) ∧
        (power : ℝ) = (magnitude : ℝ) ^ (exponent : ℝ) := by
  cases form with
  | base =>
      have unchanged : Number.turnsAfter turns 1 = turns := by
        rw [← Int.cast_one, Number.turnsAfter_int, one_mul]
        have quarter := polar.quarter
        omega
      refine ⟨magnitude, 1, rfl, ?_, by simp⟩
      rwa [unchanged]
  | power first =>
      obtain ⟨value, view⟩ := Number.exists_toRatio?_of_pow exact
      obtain ⟨power, isPolar, equal⟩ := polar.pow view exact
      exact ⟨power, value, view, isPolar, equal⟩
  | constant value =>
      have unturned : Number.turnsAfter turns 0 = 0 := by
        rw [← Int.cast_zero, Number.turnsAfter_int, zero_mul]
        rfl
      refine ⟨1, 0, rfl, ?_, by simp⟩
      rw [valueAt, settled exact, unturned]
      exact Number.isPolar_one

theorem Shows.size_le {name : String} {form : PowerForm} {tree : Expr}
    (shows : form.Shows name tree) : tree.size ≤ 3 := by
  cases form with
  | base =>
      obtain ⟨mark, rfl⟩ := shows
      exact (by decide : 1 ≤ 3)
  | power exponent =>
      obtain ⟨_, inner, mark, outer, rfl⟩ := shows
      exact le_refl 3
  | constant value =>
      obtain ⟨mark, rfl⟩ := shows
      exact (by decide : 1 ≤ 3)

end PowerForm

section Engine

open PowerForm

variable {kernel : Kernel} {allowed : Step → Prop} {name : String}
  {x exponent : Number} {inner outer mark : Mark} {tree : Expr}

/-- Numeric exponents of trees that are no numbers. -/
theorem powIdentities_symbolic (symbolic : tree.asNumber? = none) :
    powIdentities kernel tree (.number exponent mark) =
      if exponent.isZero then pure (.int 1)
      else if exponent.isOne then pure tree
      else powOfNode kernel tree (.number exponent mark) := by
  have notOne : tree.isOne = false := by rw [Expr.isOne, symbolic, Option.any_none]
  have notZero : tree.isZero = false := by rw [Expr.isZero, symbolic, Option.any_none]
  rw [powIdentities, notOne, notZero, Bool.or_false, Bool.false_and, if_neg Bool.false_ne_true]
  rfl

/-- A variable raised to a number. -/
theorem applyBinary_pow_var :
    (applyBinary kernel .pow (.var name inner) (.number exponent mark)).Ensures allowed
      ((ofExponent exponent).Shows name) := by
  rw [applyBinary, ofExponent]
  by_cases undefined : exponent.isNaN = true
  · have handsOn : firstError? (.var name inner) (.number exponent mark) =
        some (.number exponent mark) := by
      simp [firstError?, isError, asFault?, Expr.isNaN, asNumber?, undefined]
    rw [if_pos undefined]
    exact (combine_firstError handsOn).run_match fun _ same => .pure ⟨mark, same⟩
  · have defined : exponent.isNaN = false := by simpa using undefined
    rw [combine_eq_identities ⟨rfl, isError_of_defined defined⟩ ⟨rfl, rfl⟩ (.inl rfl), identities,
      powIdentities_symbolic rfl, if_neg undefined]
    by_cases zero : exponent.isZero = true
    · rw [if_pos zero, if_pos zero]
      exact .pure ⟨_, rfl⟩
    · rw [if_neg zero, if_neg zero]
      by_cases one : exponent.isOne = true
      · rw [if_pos one, if_pos one]
        exact .pure ⟨inner, rfl⟩
      · rw [if_neg one, if_neg one]
        have fails : (powOfNode kernel (.var name inner) (.number exponent mark)).Ensures allowed
            fun _ => False := .failure
        refine fails.run_none ?_
        exact .make fun outer => ⟨defined, inner, mark, outer, rfl⟩

/-- A power raised to a number multiplies the exponents. -/
theorem applyBinary_pow_power (innerDefined : x.isNaN = false) (defined : exponent.isNaN = false)
    {middle around : Mark} :
    (applyBinary kernel.above .pow (.arith .pow (.var name inner) (.number x middle) around)
      (.number exponent mark)).Ensures allowed (((power x).raise exponent).Shows name) := by
  rw [applyBinary, combine_eq_identities ⟨rfl, isError_of_defined defined⟩ ⟨rfl, rfl⟩ (.inl rfl),
    identities, powIdentities_symbolic rfl, raise]
  by_cases zero : exponent.isZero = true
  · rw [if_pos zero, if_pos zero]
    exact .pure ⟨_, rfl⟩
  · rw [if_neg zero, if_neg zero]
    by_cases one : exponent.isOne = true
    · rw [if_pos one, if_pos one]
      exact .pure ⟨innerDefined, inner, middle, around, rfl⟩
    · rw [if_neg one, if_neg one]
      have multiplies : (applyBinary kernel .mul (.number x middle)
          (.number exponent mark)).Ensures allowed _ := applyBinary_numbers innerDefined defined
      have product : (powOfNode kernel.above
          (.arith .pow (.var name inner) (.number x middle) around)
          (.number exponent mark)).Succeeds allowed ((ofExponent (x.mul exponent)).Shows name) := by
        have numeric : Rule.Succeeds allowed (guard ((Expr.number x middle).isNumber = true))
            fun _ => True := .pure trivial
        refine numeric.bind fun _ _ => .bind (.lift multiplies) ?_
        rintro _ ⟨mark, rfl⟩
        exact .lift applyBinary_pow_var
      exact product.run_match fun _ shows => .pure shows

/-- A tree of a form raised to a number. -/
theorem arithmetic_raises {form : PowerForm} (shows : form.Shows name tree)
    (defined : exponent.isNaN = false) :
    (arithmetic .pow tree (.number exponent mark)).Ensures allowed
      ((form.raise exponent).Shows name) := by
  obtain ⟨depth, engine⟩ := arithmetic_eq_ofDepth .pow tree (.number exponent mark)
  rw [engine]
  cases form with
  | base =>
      obtain ⟨inner, rfl⟩ := shows
      exact applyBinary_pow_var
  | power x =>
      obtain ⟨innerDefined, inner, middle, outer, rfl⟩ := shows
      exact applyBinary_pow_power innerDefined defined
  | constant value =>
      obtain ⟨inner, rfl⟩ := shows
      by_cases undefined : value.isNaN = true
      · have handsOn : firstError? (.number value inner) (.number exponent mark) =
            some (.number value inner) := by
          simp [firstError?, isError, asFault?, Expr.isNaN, asNumber?, undefined]
        rw [raise, if_pos undefined]
        exact (combine_firstError handsOn).run_match fun _ same => .pure ⟨inner, same⟩
      · rw [raise, if_neg undefined]
        exact applyBinary_numbers (by simpa using undefined) defined

end Engine

/-- A variable raised to numbers one after another, the innermost exponent first. -/
inductive Expr.IsPowerTower (name : String) : List ℚ → Expr → Prop where
  | var {mark : Mark} : IsPowerTower name [] (.var name mark)
  | power {values : List ℚ} {base : Expr} {exponent : Number} {value : ℚ} {inner outer : Mark} :
      IsPowerTower name values base → exponent.toRatio? = some value →
        IsPowerTower name (values ++ [value]) (.arith .pow base (.number exponent inner) outer)

section Evaluation

variable {allowed : Step → Prop} {name : String} {values : List ℚ} {tree : Expr} {scope : Scope}
  {controller : Option Controller} {fuel : Nat}

/-- A variable with a numeric exponent. -/
theorem evaluateTo_pow_var {exponent : Number} {inner middle outer : Mark}
    (enough : (Expr.arith .pow (.var name inner) (.number exponent middle) outer).size ≤ fuel) :
    (evaluateTo controller fuel
      (.arith .pow (.var name inner) (.number exponent middle) outer)).Finishes allowed .empty
        ((PowerForm.ofExponent exponent).Shows name) := by
  obtain ⟨fuel, rfl⟩ := fuel_eq_succ enough
  rw [size_arith] at enough
  have base : (evaluateTo controller fuel (.var name inner)).Finishes allowed .empty
      (· = .var name inner) := evaluateTo_leaf rfl (by omega) rfl
  have literal : (evaluateTo controller fuel (.number exponent middle)).Finishes allowed .empty
      (· = .number exponent middle) := evaluateTo_leaf rfl (by omega) rfl
  refine .ofTraced₂ base literal ?_
  rintro _ _ rfl rfl
  obtain ⟨depth, engine⟩ :=
    arithmetic_eq_applyBinary .pow (.var name inner) (.number exponent middle)
  rw [engine]
  exact applyBinary_pow_var

/-- The form that evaluation reaches, where raising a form keeps a relation between
exponents and forms. -/
theorem Expr.IsPowerTower.evaluateTo_shows (Holds : List ℚ → PowerForm → Prop)
    (tower : tree.IsPowerTower name values)
    (starts : ∀ mark fuel,
      (evaluateTo controller (fuel + 1) (.var name mark)).Finishes allowed scope
      fun result => ∃ form : PowerForm, Holds [] form ∧ form.Shows name result ∧ result.size ≤ 1)
    (raises : ∀ {values form exponent value}, Holds values form →
      Number.toRatio? exponent = some value → Holds (values ++ [value]) (form.raise exponent))
    (enough : tree.size ≤ fuel) :
    (evaluateTo controller fuel tree).Finishes allowed scope
      fun result => ∃ form : PowerForm, Holds values form ∧ form.Shows name result ∧
        result.size ≤ tree.size := by
  induction tower generalizing fuel with
  | var =>
      obtain ⟨fuel, rfl⟩ := fuel_eq_succ enough
      exact starts _ fuel
  | @power values base exponent value inner outer _ view ih =>
      obtain ⟨fuel, rfl⟩ := fuel_eq_succ enough
      rw [size_arith] at enough
      have exponentReads : (evaluateTo controller fuel (.number exponent inner)).Finishes allowed
          scope (· = .number exponent inner) := by
        obtain ⟨fuel, rfl⟩ := fuel_eq_succ (show (Expr.number exponent inner).size ≤ fuel by omega)
        exact .pure rfl
      refine .ofTraced₂ (ih (by omega)) exponentReads ?_
      have defined : exponent.isNaN = false := by
        rcases Number.eq_int_or_rational_of_toRatio? view with ⟨_, rfl, _⟩ | rfl <;> rfl
      rintro first _ ⟨form, holds, shows, _⟩ rfl
      refine (arithmetic_raises shows defined).mono fun result shows => ?_
      refine ⟨_, raises holds view, shows, shows.size_le.trans ?_⟩
      have positive := base.size_pos
      have single : (Expr.number exponent inner).size = 1 := rfl
      rw [size_arith]
      omega

/-- With the variable bound to a number, a tree of a form has the value of the form. -/
theorem PowerForm.Shows.evaluateTo {form : PowerForm} {number : Number} {mark : Mark}
    (shows : form.Shows name tree) (bound : scope.lookup? name = some (.number number mark))
    (defined : number.isNaN = false) (enough : tree.size ≤ fuel) :
    (evaluateTo controller fuel tree).Finishes allowed scope
      fun result => ∃ mark, result = .number (form.valueAt number) mark := by
  obtain ⟨fuel, rfl⟩ := fuel_eq_succ enough
  cases form with
  | base =>
      obtain ⟨inner, rfl⟩ := shows
      exact (resolve_constant bound rfl).mono fun _ same => ⟨mark, same⟩
  | power exponent =>
      obtain ⟨exponentDefined, inner, middle, outer, rfl⟩ := shows
      obtain ⟨fuel, rfl⟩ : ∃ rest, fuel = rest + 1 :=
        Nat.exists_eq_add_of_le' (Nat.le_of_succ_le_succ (le_trans (by decide : 2 ≤ 3) enough))
      have baseReads :
          (Expr.evaluateTo controller (fuel + 1) (.var name inner)).Finishes allowed scope
          (· = .number number mark) := resolve_constant bound rfl
      have exponentReads :
          (Expr.evaluateTo controller (fuel + 1) (.number exponent middle)).Finishes
          allowed scope (· = .number exponent middle) := .pure rfl
      refine .ofTraced₂ baseReads exponentReads ?_
      rintro _ _ rfl rfl
      obtain ⟨depth, engine⟩ :=
        arithmetic_eq_ofDepth .pow (.number number mark) (.number exponent middle)
      rw [engine]
      exact applyBinary_numbers defined exponentDefined
  | constant value =>
      obtain ⟨inner, rfl⟩ := shows
      exact .pure ⟨inner, rfl⟩

/-- What is known of the value of a tower at a number: an exact one is the power by the
product of the exponents, turned by one exponent after another, and no product has left
the range on the way. -/
def IsValueAt (value : ℚ) (values : List ℚ) (number : Number) : Prop :=
  number.isExact = true → ∃ magnitude : ℚ,
    number.IsPolar magnitude (values.foldl Number.turnsAfter (if 0 ≤ value then 0 else 2)) ∧
      (magnitude : ℝ) = ((|value| : ℚ) : ℝ) ^ (values.prod : ℝ) ∧
        (|value| ≠ 0 → |value| ≠ 1 → ∀ inner, inner <+: values → Ratio.InRange inner.prod)

theorem isValueAt_nil {value : ℚ} {number : Number} (represents : number.Represents ⟨value, 0⟩) :
    IsValueAt value [] number := by
  intro _
  refine ⟨|value|, Number.isPolar_of_represents represents, by simp, fun _ _ inner isPrefix => ?_⟩
  rw [List.prefix_nil.mp isPrefix, List.prod_nil]
  decide

theorem isValueAt_raise {value exponentValue : ℚ} {number exponent : Number}
    (baseInRange : Ratio.InRange (-|value|)) (holds : IsValueAt value values number)
    (view : exponent.toRatio? = some exponentValue) :
    IsValueAt value (values ++ [exponentValue])
      (if number.isNaN then number else number.pow exponent) := by
  intro exact
  by_cases undefined : number.isNaN = true
  · rw [if_pos undefined, Number.isExact_of_isNaN undefined] at exact
    cases exact
  · rw [if_neg undefined] at exact ⊢
    obtain ⟨magnitude, polar, equal, inRange⟩ := holds (Number.isExact_of_pow exact)
    obtain ⟨power, powerPolar, powerEqual⟩ := polar.pow view exact
    have total : (power : ℝ) =
        ((|value| : ℚ) : ℝ) ^ (((values ++ [exponentValue]).prod : ℚ) : ℝ) := by
      rw [powerEqual, equal, ← Real.rpow_mul (by positivity), List.prod_append, List.prod_singleton,
        Rat.cast_mul]
    refine ⟨power, ?_, total, fun nonzero notOne inner isPrefix => ?_⟩
    · rwa [List.foldl_append]
    · rcases List.prefix_concat_iff.mp isPrefix with rfl | isPrefix
      · exact Number.inRange_exponent (by positivity) notOne baseInRange powerPolar.inRange total
      · exact inRange nonzero notOne inner isPrefix

end Evaluation

theorem foldl_turnsAfter_zero (values : List ℚ) : values.foldl Number.turnsAfter 0 = 0 := by
  induction values with
  | nil => rfl
  | cons value values ih => rw [List.foldl_cons, Number.turnsAfter_zero, ih]

/-- Whole exponents turn a number as their product does. -/
theorem foldl_turnsAfter_whole {values : List ℚ} (whole : ∀ value ∈ values, value.den = 1)
    {turns : ℕ} (quarter : turns < 4) :
    values.foldl Number.turnsAfter turns = Number.turnsAfter turns values.prod := by
  suffices ∃ product : ℤ, values.prod = product ∧
      values.foldl Number.turnsAfter turns = (product * turns % 4).toNat by
    obtain ⟨product, same, turned⟩ := this
    rw [turned, same, Number.turnsAfter_int]
  induction values generalizing turns with
  | nil => exact ⟨1, by simp, by rw [List.foldl_nil]; omega⟩
  | cons value values ih =>
      rw [List.forall_mem_cons] at whole
      have first : value = value.num := (Rat.coe_int_num_of_den_eq_one whole.1).symm
      have turned : Number.turnsAfter turns value = (value.num * turns % 4).toNat := if_pos whole.1
      obtain ⟨product, same, rest⟩ := ih whole.2 (show Number.turnsAfter turns value < 4 by omega)
      refine ⟨value.num * product, ?_, ?_⟩
      · rw [List.prod_cons, same, Int.cast_mul, ← first]
      · have nonnegative : 0 ≤ value.num * turns % 4 := Int.emod_nonneg _ (by decide)
        have reduced : product * (value.num * turns % 4) % 4 = product * (value.num * turns) % 4 :=
          (Int.mod_modEq _ 4).mul_left product
        rw [List.foldl_cons, rest, turned, Int.toNat_of_nonneg nonnegative, reduced,
          mul_comm value.num product, mul_assoc]

section Binding

variable {name : String} {values : List ℚ} {tree : Expr} {value : ℚ} {number : Number}
  {scope : Scope} {mark : Mark} {controller : Option Controller} {fuel : Nat}

/-- The value of a tower of powers in a scope that binds the variable. -/
theorem Expr.IsPowerTower.evaluateTo_isValueAt (tower : tree.IsPowerTower name values)
    (represents : number.Represents ⟨value, 0⟩)
    (bound : scope.lookup? name = some (.number number mark)) (enough : tree.size ≤ fuel) :
    (evaluateTo controller fuel tree).Finishes (fun _ => True) scope
      fun result =>
        ∃ direct mark, IsValueAt value values direct ∧ result = .number direct mark := by
  have baseInRange := (Number.isPolar_of_represents represents).inRange
  refine (tower.evaluateTo_shows
    (fun values form => ∃ direct, IsValueAt value values direct ∧ form = .constant direct)
    ?_ ?_ enough).mono ?_
  · intro inner fuel
    refine (resolve_constant bound rfl).mono ?_
    rintro _ rfl
    exact ⟨_, ⟨number, isValueAt_nil represents, rfl⟩, ⟨mark, rfl⟩, le_refl 1⟩
  · rintro values _ exponent exponentValue ⟨direct, holds, rfl⟩ view
    exact ⟨_, isValueAt_raise baseInRange holds view, rfl⟩
  · rintro result ⟨_, ⟨direct, holds, rfl⟩, ⟨mark, rfl⟩, _⟩
    exact ⟨direct, mark, holds, rfl⟩

/-- The exponents have been multiplied, as long as the products are in range. -/
def PowerForm.Multiplies (values : List ℚ) (form : PowerForm) : Prop :=
  form.Settled ∧ ((∀ inner, inner <+: values → Ratio.InRange inner.prod) →
    form.exponent? = some values.prod)

/-- The form that a tower of powers is simplified to. -/
theorem Expr.IsPowerTower.evaluateTo_multiplies (tower : tree.IsPowerTower name values)
    (enough : tree.size ≤ fuel) :
    (evaluateTo controller fuel tree).Finishes (fun _ => True) .empty
      fun result => ∃ form : PowerForm, form.Multiplies values ∧
        form.Shows name result ∧ result.size ≤ tree.size := by
  refine tower.evaluateTo_shows PowerForm.Multiplies ?_ ?_ enough
  · intro inner fuel
    refine evaluateTo_leaf rfl (Nat.le_add_left 1 fuel) ?_
    exact ⟨.base, ⟨trivial, fun _ => rfl⟩, ⟨inner, rfl⟩, le_refl 1⟩
  · rintro values form exponent exponentValue ⟨settled, holds⟩ view
    refine ⟨PowerForm.settled_raise settled exponent, fun inRange => ?_⟩
    have product := inRange _ (List.prefix_refl _)
    rw [List.prod_append, List.prod_singleton] at product ⊢
    refine PowerForm.exponent?_raise (holds fun inner isPrefix => ?_) view product
    exact inRange inner (isPrefix.trans (List.prefix_append values [exponentValue]))

/-- Exact values of a tower and of what it is simplified to have one magnitude. -/
theorem IsValueAt.agrees {form : PowerForm} {direct : Number}
    (represents : number.Represents ⟨value, 0⟩) (directly : IsValueAt value values direct)
    (directExact : direct.isExact = true) (multiplies : form.Multiplies values)
    (exact : (form.valueAt number).isExact = true)
    (inRange : value = 0 ∨ value = -1 → ∀ inner, inner <+: values → Ratio.InRange inner.prod) :
    ∃ (magnitude : ℚ) (turns : ℕ),
      direct.IsPolar magnitude (values.foldl Number.turnsAfter (if 0 ≤ value then 0 else 2)) ∧
        (form.valueAt number).IsPolar magnitude turns ∧
          (0 ≤ value → turns = 0) ∧ (value < 0 → turns = Number.turnsAfter 2 values.prod) := by
  obtain ⟨magnitude, polar, equal, productsInRange⟩ := directly directExact
  obtain ⟨power, exponent, view, powerPolar, powerEqual⟩ :=
    form.valueAt_isPolar multiplies.1 (Number.isPolar_of_represents represents) exact
  by_cases one : value = 1
  · subst one
    have powers : power = magnitude := by
      rw [abs_one, Rat.cast_one, Real.one_rpow] at equal powerEqual
      exact_mod_cast powerEqual.trans equal.symm
    rw [powers, if_pos zero_le_one, Number.turnsAfter_zero] at powerPolar
    exact ⟨magnitude, 0, polar, powerPolar, fun _ => rfl, fun negative => by norm_num at negative⟩
  · have all : ∀ inner, inner <+: values → Ratio.InRange inner.prod := by
      by_cases zero : value = 0
      · exact inRange (.inl zero)
      · by_cases minusOne : value = -1
        · exact inRange (.inr minusOne)
        · refine productsInRange (abs_ne_zero.mpr zero) fun unit => ?_
          rcases eq_or_eq_neg_of_abs_eq unit with same | same
          · exact one same
          · exact minusOne same
    obtain rfl : values.prod = exponent := Option.some.inj ((multiplies.2 all).symm.trans view)
    have powers : power = magnitude := by exact_mod_cast powerEqual.trans equal.symm
    rw [powers] at powerPolar
    refine ⟨magnitude, _, polar, powerPolar, fun nonnegative => ?_, fun negative => ?_⟩
    · rw [if_pos nonnegative, Number.turnsAfter_zero]
    · rw [if_neg (not_le.mpr negative)]

end Binding

/-- A variable raised to exact numbers one after another and bound to an exact real
number.  Where both the value of the tree and that of the simplified tree are exact, they
are equal up to quarter turns, which is all that the order of squaring and taking roots
can change.  They are equal when the number is not negative or all exponents are whole,
and for a negative number exactly when the exponents turn it one by one as their product
does at once.  For zero and minus one, the products of the first exponents have to stay in
range, since the number itself does not bound the exponents. -/
theorem simplified_powers_agree_up_to_turns {name : String} {values : List ℚ} {tree : Expr}
    (tower : tree.IsPowerTower name values) {value : ℚ} {number : Number}
    (represents : number.Represents ⟨value, 0⟩) {scope : Scope} {mark : Mark}
    (bound : scope.lookup? name = some (.number number mark))
    (inRange : value = 0 ∨ value = -1 → ∀ inner, inner <+: values → Ratio.InRange inner.prod)
    (controller : Option Controller) (random : RandomSource) (marks : Nat) {fuel : Nat}
    (enough : tree.size ≤ fuel) :
    ∃ direct directMark directState simplified state late lateMark lateState,
      evaluate? fuel controller scope random marks tree =
        some (.number direct directMark, directState) ∧
      simplify? fuel controller random marks tree = some (simplified, state) ∧
      evaluate? fuel controller scope state.random state.marks simplified =
        some (.number late lateMark, lateState) ∧
      (direct.isExact = true → late.isExact = true →
        (∃ (turns : ℕ) (z : GaussianRational), late.value? = some z ∧
          direct.value? = some (⟨0, 1⟩ ^ turns * z)) ∧
        (0 ≤ value ∨ (∀ exponent ∈ values, exponent.den = 1) → direct = late) ∧
        (value < 0 → (direct = late ↔
          values.foldl Number.turnsAfter 2 = Number.turnsAfter 2 values.prod))) := by
  have directly : (evaluateTo controller fuel tree).Finishes (fun _ => True) scope _ :=
    tower.evaluateTo_isValueAt represents bound enough
  have simplifies : (evaluateTo controller fuel tree).Finishes (fun _ => True) .empty _ :=
    tower.evaluateTo_multiplies enough
  obtain ⟨_, directState, _, directRun, _, _, holds⟩ := directly (.start scope random marks) rfl
  obtain ⟨direct, directMark, isValue, rfl⟩ := holds fun _ _ => trivial
  obtain ⟨simplified, state, _, run, _, _, holds⟩ := simplifies (.start .empty random marks) rfl
  obtain ⟨form, multiplies, shows, small⟩ := holds fun _ _ => trivial
  have defined : number.isNaN = false := by
    by_contra undefined
    have inexact := Number.isExact_of_isNaN (by simpa using undefined)
    exact absurd (represents.isExact.symm.trans inexact) (by decide)
  have later : (evaluateTo controller fuel simplified).Finishes (fun _ => True) scope _ :=
    shows.evaluateTo bound defined (small.trans enough)
  obtain ⟨_, lateState, _, lateRun, _, _, holds⟩ :=
    later (.start scope state.random state.marks) rfl
  obtain ⟨lateMark, rfl⟩ := holds fun _ _ => trivial
  refine ⟨direct, directMark, directState, simplified, state, _, lateMark, lateState, directRun,
    run, lateRun, fun directExact exact => ?_⟩
  obtain ⟨magnitude, turns, polar, latePolar, unturned, turned⟩ :=
    isValue.agrees represents directExact multiplies exact inRange
  refine ⟨polar.exists_turns latePolar, fun either => ?_, fun negative => ?_⟩
  · rw [polar.eq_iff latePolar]
    by_cases nonnegative : 0 ≤ value
    · rw [if_pos nonnegative, foldl_turnsAfter_zero, unturned nonnegative]
    · have whole := either.resolve_left nonnegative
      rw [if_neg nonnegative, turned (not_le.mp nonnegative),
        foldl_turnsAfter_whole whole (by decide)]
  · rw [polar.eq_iff latePolar, turned negative, if_neg (not_le.mpr negative)]

/-- Bound to `-2/3`, the tree `(x ^ 4) ^ (1/2)` and its simplification have one value. -/
theorem root_of_fourth_power_agrees :
    let tree : Expr := .arith .pow (.arith .pow (.var "x") (.int 4)) (.number (.rational (1 / 2)))
    let scope := Scope.ofBindings [("x", .number (.rational (-2 / 3)))]
    ∃ value directMark directState simplified state lateMark lateState,
      evaluate? 5 none scope (.ofSeed 1) 0 tree = some (.number value directMark, directState) ∧
      simplify? 5 none (.ofSeed 1) 0 tree = some (simplified, state) ∧
      evaluate? 5 none scope state.random state.marks simplified =
        some (.number value lateMark, lateState) := by
  intro tree scope
  have tower : tree.IsPowerTower "x" [4, 1 / 2] :=
    .power (.power .var (show (Number.int 4).toRatio? = some 4 from rfl)) rfl
  have represents : (Number.rational (-2 / 3)).Represents ⟨-2 / 3, 0⟩ :=
    ⟨⟨by decide +kernel, by decide +kernel⟩, by decide +kernel⟩
  have bound : scope.lookup? "x" = some (.number (.rational (-2 / 3))) := rfl
  have directExact : (evaluate? 5 none scope (.ofSeed 1) 0 tree).all
      (·.1.asNumber?.all Number.isExact) = true := by decide +kernel
  have lateExact : (simplify? 5 none (.ofSeed 1) 0 tree).all (fun simplified =>
      (evaluate? 5 none scope simplified.2.random simplified.2.marks simplified.1).all
        (·.1.asNumber?.all Number.isExact)) = true := by decide +kernel
  obtain ⟨direct, directMark, directState, simplified, state, late, lateMark, lateState, directRun,
      run, lateRun, agrees⟩ :=
    simplified_powers_agree_up_to_turns tower represents bound (by norm_num) none (.ofSeed 1) 0
      (le_refl 5)
  rw [directRun] at directExact
  rw [run, Option.all_some, lateRun] at lateExact
  obtain ⟨_, _, turned⟩ := agrees directExact lateExact
  obtain rfl : direct = late := (turned (by norm_num)).mpr (by decide +kernel)
  exact ⟨direct, directMark, directState, simplified, state, lateMark, lateState, directRun, run,
    lateRun⟩

/-- Bound to `-3`, the tree `(x ^ 2) ^ (1/2)` is three, but it is simplified to `x`. -/
theorem root_of_square_forgets_sign :
    let tree : Expr := .arith .pow (.arith .pow (.var "x") (.int 2)) (.number (.rational (1 / 2)))
    let scope := Scope.ofBindings [("x", .int (-3))]
    (evaluate? 5 none scope (.ofSeed 1) 0 tree).bind (·.1.asNumber?) = some (.int 3) ∧
    ((simplify? 5 none (.ofSeed 1) 0 tree).bind fun simplified =>
      (evaluate? 5 none scope (.ofSeed 1) 0 simplified.1).bind (·.1.asNumber?)) =
        some (.int (-3)) := by
  decide +kernel

end SymbolicAlgebra

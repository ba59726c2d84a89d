import Mathlib.Algebra.Order.BigOperators.Group.List
import Mathlib.Algebra.Order.Ring.Rat
import Mathlib.Data.List.Forall2
import Mathlib.Tactic.GCongr
import Mathlib.Tactic.Linarith
import Mathlib.Tactic.Positivity
import SymbolicAlgebra.Proofs.DoubleSign
import SymbolicAlgebra.Proofs.Unmarked

/-!
# Weights of trees

The rules of arithmetic exchange signs, coefficients and exponents between
operands, so the size of the operands does not decrease from call to call.  Their
weight does: a minus sign weighs the factor `3 / 2`, whether it stands before a
tree or belongs to a number, sums are added up, with a margin that a difference
saves, and products and powers are multiplied.

Differentiation takes the derivative of the product of an exponent and a logarithm, in
place of a power.  For its sake a function weighs twice its argument, and an exponent
three times what it weighs elsewhere, unless it is a number.

Every tree weighs at least `3 / 2`, and every tree but a number at least `9 / 4`,
which is as much as a number can weigh.
-/

namespace SymbolicAlgebra

namespace Number

/-- The number shows a sign that negation may remove: it is negative or complex. -/
def isSigned (number : Number) : Bool :=
  !number.isNaN && (number.isComplex || number.isNegative)

/-- The weight of a number. -/
def weight (number : Number) : ℚ := if number.isSigned then 9 / 4 else 3 / 2

variable {number other : Number}

theorem weight_cases (number : Number) : number.weight = 3 / 2 ∨ number.weight = 9 / 4 := by
  rw [weight]
  split
  · exact .inr rfl
  · exact .inl rfl

theorem le_weight (number : Number) : 3 / 2 ≤ number.weight := by
  rcases number.weight_cases with weight | weight <;> rw [weight]
  norm_num

theorem weight_le (number : Number) : number.weight ≤ 9 / 4 := by
  rcases number.weight_cases with weight | weight <;> rw [weight]
  norm_num

theorem weight_of_isNegative (negative : number.isNegative = true) : number.weight = 9 / 4 := by
  rw [weight, isSigned, isNaN_of_isNegative negative, negative]
  simp

/-- Negation takes the sign off a negative number. -/
theorem weight_neg_of_isNegative (negative : number.isNegative = true) :
    number.neg.weight = 3 / 2 := by
  have ⟨notComplex, nonnegative⟩ := neg_of_isNegative negative
  rw [weight, isSigned, notComplex, nonnegative]
  simp

theorem weight_le_of_beq (equal : (number == other) = true) : number.weight ≤ other.weight := by
  have ⟨defined, complex, negative⟩ := signs_of_beq equal
  by_cases signed : number.isSigned = true
  · have otherSigned : other.isSigned = true := by
      simp_all [isSigned]
    rw [weight, weight, if_pos signed, if_pos otherSigned]
  · rw [weight, if_neg signed]
    exact other.le_weight

theorem weight_of_isNaN (undefined : number.isNaN = true) : number.weight = 3 / 2 := by
  rw [weight, isSigned, undefined]
  simp

/-- Against a sign in front, a number can weigh as much only when it has a sign
itself and the number it is compared with has none. -/
theorem weight_mul_below (value number : Number) {factor : ℚ} (heavy : 3 / 2 ≤ factor) :
    value.weight * factor + 1 / 4 ≤ 3 / 2 * number.weight * factor ∨
      value.isSigned = true ∧ number.isSigned = false ∧
        value.weight * factor ≤ 3 / 2 * number.weight * factor := by
  unfold weight
  split
  · split
    · left
      linarith
    · rename_i signed unsigned
      exact .inr ⟨signed, by simpa using unsigned, by linarith⟩
  · left
    split <;> linarith

end Number

namespace Expr

variable {tree other left right : Expr} {mark : Mark}

/-- The weight of a leaf. -/
def leafWeight : Expr → ℚ
  | .number value _ => value.weight
  | _ => 6

/-- The node is a power whose exponent is a number. -/
def hasNumericExponent : Expr → Bool
  | .arith _ _ exponent _ => exponent.isNumber
  | _ => false

/-- The weight of a node that arithmetic does not take apart, from those of its
children. -/
def wholeWeight (weights : List ℚ) : ℚ := (weights.map (· + 2)).sum + 6

/-- The weight of a node from those of its children. -/
def nodeWeight (head : Head) (numericExponent : Bool) (weights : List ℚ) : ℚ :=
  match head, weights with
  | .operator (.unary .neg), [operand] => 3 / 2 * operand
  | .operator (.arith .add), [left, right] => left + right + 1
  | .operator (.arith .sub), [left, right] => left + 3 / 2 * right
  | .operator (.arith .pow), [left, right] =>
      left * if numericExponent then right else 3 * right
  | .operator (.arith _), [left, right] => left * right
  | .function (.unary _), [argument] => 2 * argument
  | _, weights => wholeWeight weights

/-- The weight of a tree. -/
def weight : Expr → ℚ :=
  fold leafWeight fun node weights => nodeWeight node.head node.hasNumericExponent weights

/-- The weight of a tree as an exponent. -/
def exponentWeight (tree : Expr) : ℚ := if tree.isNumber then tree.weight else 3 * tree.weight

@[simp] theorem weight_number (number : Number) :
    (Expr.number number mark).weight = number.weight :=
  rfl

@[simp] theorem weight_neg (operand : Expr) :
    (Expr.unary .neg operand mark).weight = 3 / 2 * operand.weight :=
  rfl

@[simp] theorem weight_add :
    (Expr.arith .add left right mark).weight = left.weight + right.weight + 1 :=
  rfl

@[simp] theorem weight_sub :
    (Expr.arith .sub left right mark).weight = left.weight + 3 / 2 * right.weight :=
  rfl

@[simp] theorem weight_mul :
    (Expr.arith .mul left right mark).weight = left.weight * right.weight :=
  rfl

@[simp] theorem weight_div :
    (Expr.arith .div left right mark).weight = left.weight * right.weight :=
  rfl

@[simp] theorem weight_pow :
    (Expr.arith .pow left right mark).weight = left.weight * right.exponentWeight :=
  rfl

@[simp] theorem weight_call {function : UnaryFunction} (argument : Expr) :
    (Expr.call function argument mark).weight = 2 * argument.weight :=
  rfl

@[simp] theorem exponentWeight_number (number : Number) :
    (Expr.number number mark).exponentWeight = number.weight :=
  rfl

theorem weight_node (inner : tree.isLeaf = false) :
    tree.weight = nodeWeight tree.head tree.hasNumericExponent (tree.children.map weight) :=
  fold_node inner

@[simp] theorem weight_array (items : List Expr) :
    (Expr.array items mark).weight = (items.map fun item => item.weight + 2).sum + 6 := by
  rw [weight_node rfl]
  simp [nodeWeight, wholeWeight, head, children, Function.comp_def]

@[simp] theorem weight_withMark (mark : Mark) : (tree.withMark mark).weight = tree.weight := by
  by_cases isLeaf : tree.isLeaf = true
  · rw [weight, fold_leaf (by rwa [isLeaf_withMark]), fold_leaf isLeaf]
    cases tree <;> rfl
  · have inner : tree.isLeaf = false := by simpa using isLeaf
    have sameExponent : (tree.withMark mark).hasNumericExponent = tree.hasNumericExponent := by
      cases tree <;> rfl
    rw [weight_node (by rwa [isLeaf_withMark]), weight_node inner, head_withMark,
      children_withMark, sameExponent]

/-! ## Bounds -/

theorem le_wholeWeight {weights : List ℚ} (nonnegative : ∀ weight ∈ weights, 0 ≤ weight) :
    6 ≤ wholeWeight weights := by
  have total : 0 ≤ (weights.map (· + 2)).sum := by
    apply List.sum_nonneg
    intro shifted member
    obtain ⟨weight, mem, rfl⟩ := List.mem_map.mp member
    linarith [nonnegative weight mem]
  rw [wholeWeight]
  linarith

theorem le_nodeWeight (head : Head) (numericExponent : Bool) {weights : List ℚ}
    (bounds : ∀ weight ∈ weights, 3 / 2 ≤ weight) :
    9 / 4 ≤ nodeWeight head numericExponent weights := by
  unfold nodeWeight
  split
  · have operand := bounds _ List.mem_cons_self
    linarith
  · have ⟨left, right⟩ := List.forall_mem_cons.mp bounds
    linarith [right _ List.mem_cons_self]
  · have ⟨left, right⟩ := List.forall_mem_cons.mp bounds
    linarith [right _ List.mem_cons_self]
  · have ⟨left, right⟩ := List.forall_mem_cons.mp bounds
    have exponent := right _ List.mem_cons_self
    split <;> nlinarith
  · have ⟨left, right⟩ := List.forall_mem_cons.mp bounds
    nlinarith [right _ List.mem_cons_self]
  · have argument := bounds _ List.mem_cons_self
    linarith
  · have whole := le_wholeWeight fun weight member => by linarith [bounds weight member]
    linarith

theorem le_weight (tree : Expr) : 3 / 2 ≤ tree.weight := by
  induction tree using induction_children with
  | leaf tree isLeaf =>
      rw [weight, fold_leaf isLeaf]
      cases tree <;> first | exact Number.le_weight _ | (simp only [leafWeight]; norm_num)
  | node tree inner ih =>
      rw [weight_node inner]
      have bound := le_nodeWeight tree.head tree.hasNumericExponent
        (by simpa using ih : ∀ part ∈ tree.children.map weight, 3 / 2 ≤ part)
      linarith

/-- All trees but numbers weigh as much as any number. -/
theorem le_weight_of_not_number (notNumber : tree.isNumber = false) : 9 / 4 ≤ tree.weight := by
  by_cases isLeaf : tree.isLeaf = true
  · rw [weight, fold_leaf isLeaf]
    cases tree <;> first | (simp only [leafWeight]; norm_num; done) | cases notNumber
  · have inner : tree.isLeaf = false := by simpa using isLeaf
    rw [weight_node inner]
    apply le_nodeWeight
    intro weight member
    obtain ⟨child, _, rfl⟩ := List.mem_map.mp member
    exact child.le_weight

theorem weight_pos (tree : Expr) : 0 < tree.weight := by
  have := tree.le_weight
  linarith

theorem weight_le_exponentWeight (tree : Expr) : tree.weight ≤ tree.exponentWeight := by
  unfold exponentWeight
  split
  · exact le_refl _
  · linarith [tree.weight_pos]

theorem exponentWeight_le (tree : Expr) : tree.exponentWeight ≤ 3 * tree.weight := by
  unfold exponentWeight
  split
  · linarith [tree.weight_pos]
  · exact le_refl _

theorem le_exponentWeight (tree : Expr) : 3 / 2 ≤ tree.exponentWeight :=
  tree.le_weight.trans tree.weight_le_exponentWeight

theorem wholeWeight_mono {weights others : List ℚ}
    (below : List.Forall₂ (fun weight other => 0 ≤ weight ∧ weight ≤ other) weights others) :
    wholeWeight weights ≤ wholeWeight others := by
  have sums : (weights.map (· + 2)).sum ≤ (others.map (· + 2)).sum := by
    induction below with
    | nil => rfl
    | cons first _ ih =>
        simp only [List.map_cons, List.sum_cons]
        linarith [first.2]
  rw [wholeWeight, wholeWeight]
  linarith

theorem nodeWeight_mono (head : Head) (numericExponent : Bool) {weights others : List ℚ}
    (below : List.Forall₂ (fun weight other => 0 ≤ weight ∧ weight ≤ other) weights others) :
    nodeWeight head numericExponent weights ≤ nodeWeight head numericExponent others := by
  have whole := wholeWeight_mono below
  cases head with
  | operator op =>
      rcases below with _ | ⟨first, _ | ⟨second, _ | ⟨third, rest⟩⟩⟩
      · rcases op with (_ | _) | (_ | _ | _ | _ | _) | _ | _ <;> exact whole
      · rcases op with (_ | _) | (_ | _ | _ | _ | _) | _ | _
        · simp only [nodeWeight]
          linarith
        all_goals exact whole
      · have product := mul_le_mul first.2 second.2 second.1 (first.1.trans first.2)
        rcases op with (_ | _) | (_ | _ | _ | _ | _) | _ | _ <;> simp only [nodeWeight] <;>
          first | exact whole | linarith | exact product | skip
        cases numericExponent <;> simp only [Bool.false_eq_true, if_true, if_false] <;> linarith
      · rcases op with (_ | _) | (_ | _ | _ | _ | _) | _ | _ <;> exact whole
  | function function =>
      rcases below with _ | ⟨first, _ | ⟨second, rest⟩⟩
      · cases function <;> exact whole
      · cases function with
        | unary =>
            simp only [nodeWeight]
            linarith
        | binary => exact whole
      · cases function <;> exact whole
  | leaf | array | construct => exact whole

theorem hasNumericExponent_eq_of_agree (same : agree tree other = true) :
    tree.hasNumericExponent = other.hasNumericExponent := by
  cases tree <;> cases other <;> first | rfl | cases same | skip
  rename_i op left right mark otherOp otherLeft otherRight otherMark
  simp only [agree, Bool.and_eq_true] at same
  have exponents := same.2
  simp only [hasNumericExponent]
  cases right <;> cases otherRight <;> first | rfl | cases exponents

/-- A tree that equals another weighs no more. -/
theorem weight_le_of_beq (equal : (tree == other) = true) : tree.weight ≤ other.weight := by
  change agree tree other = true at equal
  induction tree using induction_children generalizing other with
  | leaf tree isLeaf =>
      cases tree with
      | number value mark =>
          cases other with
          | number otherValue otherMark =>
              simp only [agree, Bool.or_eq_true, Bool.and_eq_true] at equal
              rcases equal with equal | ⟨undefined, _⟩
              · exact Number.weight_le_of_beq equal
              · rw [weight_number, Number.weight_of_isNaN undefined]
                exact otherValue.le_weight
          | _ => cases equal
      | bool | char | text | var | error =>
          cases other <;> first | cases equal | exact le_refl (6 : ℚ)
      | _ => cases isLeaf
  | node tree inner ih =>
      have exponents := hasNumericExponent_eq_of_agree equal
      obtain ⟨head, children⟩ := (agree_node_iff inner).mp equal
      have otherInner : other.isLeaf = false := by rwa [Expr.isLeaf, ← head]
      rw [weight_node inner, weight_node otherInner, head, exponents]
      apply nodeWeight_mono
      rw [List.forall₂_map_left_iff, List.forall₂_map_right_iff]
      have pairs := agreeAll_iff_forall₂.mp children
      refine List.forall₂_iff_zip.mpr ⟨pairs.length_eq, fun {child twin} pair => ?_⟩
      exact ⟨child.weight_pos.le, ih child (List.of_mem_zip pair).1 (List.forall₂_zip pairs pair)⟩

theorem six_le_pow {size : Nat} (positive : 0 < size) : (6 : ℚ) ≤ 6 ^ size := by
  calc (6 : ℚ) = 6 ^ 1 := (pow_one 6).symm
    _ ≤ 6 ^ size := pow_le_pow_right₀ (by norm_num) positive

theorem foldr_add_pos (sizes : List Nat) : 0 < sizes.foldr (· + ·) 1 := by
  induction sizes with
  | nil => exact Nat.one_pos
  | cons size sizes ih => exact Nat.add_pos_right size ih

theorem wholeWeight_pow_le {sizes : List Nat} (positive : ∀ size ∈ sizes, 0 < size) :
    wholeWeight (sizes.map fun size => 6 ^ size) ≤ 6 ^ sizes.foldr (· + ·) 1 := by
  induction sizes with
  | nil => norm_num [wholeWeight]
  | cons size sizes ih =>
      have ⟨first, rest⟩ := List.forall_mem_cons.mp positive
      have sizeLeast := six_le_pow first
      have totalLeast := six_le_pow (foldr_add_pos sizes)
      have bound := ih rest
      simp only [wholeWeight, List.map_cons, List.sum_cons, List.foldr_cons, pow_add] at bound ⊢
      nlinarith

theorem nodeWeight_pow_le (head : Head) (numericExponent : Bool) {sizes : List Nat}
    (positive : ∀ size ∈ sizes, 0 < size) :
    nodeWeight head numericExponent (sizes.map fun size => 6 ^ size) ≤
      6 ^ sizes.foldr (· + ·) 1 := by
  have whole := wholeWeight_pow_le positive
  cases head with
  | operator op =>
      rcases sizes with _ | ⟨first, _ | ⟨second, _ | ⟨third, rest⟩⟩⟩
      · rcases op with (_ | _) | (_ | _ | _ | _ | _) | _ | _ <;> exact whole
      · have firstLeast := six_le_pow (positive _ List.mem_cons_self)
        rcases op with (_ | _) | (_ | _ | _ | _ | _) | _ | _
        · simp only [List.map_cons, List.map_nil, nodeWeight, List.foldr_cons, List.foldr_nil,
            pow_succ]
          linarith
        all_goals exact whole
      · have ⟨firstPositive, others⟩ := List.forall_mem_cons.mp positive
        have firstLeast := six_le_pow firstPositive
        have secondLeast := six_le_pow (others _ List.mem_cons_self)
        rcases op with (_ | _) | (_ | _ | _ | _ | _) | _ | _ <;>
          first | exact whole | skip
        all_goals
          simp only [List.map_cons, List.map_nil, nodeWeight, List.foldr_cons, List.foldr_nil,
            pow_add, pow_one]
        · nlinarith
        · nlinarith
        · nlinarith
        · nlinarith
        · cases numericExponent <;> simp only [Bool.false_eq_true, if_true, if_false] <;> nlinarith
      · rcases op with (_ | _) | (_ | _ | _ | _ | _) | _ | _ <;> exact whole
  | function function =>
      rcases sizes with _ | ⟨first, _ | ⟨second, rest⟩⟩
      · cases function <;> exact whole
      · have firstLeast := six_le_pow (positive _ List.mem_cons_self)
        cases function with
        | unary =>
            simp only [List.map_cons, List.map_nil, nodeWeight, List.foldr_cons, List.foldr_nil,
              pow_succ]
            linarith
        | binary => exact whole
      · cases function <;> exact whole
  | leaf | array | construct => exact whole

/-- The weight is bounded by a power of the size. -/
theorem weight_le_pow_size (tree : Expr) : tree.weight ≤ 6 ^ tree.size := by
  induction tree using induction_children with
  | leaf tree isLeaf =>
      rw [weight, fold_leaf isLeaf, size, fold_leaf isLeaf, pow_one]
      cases tree <;> first
        | exact le_refl (6 : ℚ)
        | exact (Number.weight_le _).trans (by norm_num)
  | node tree inner ih =>
      rw [weight_node inner, size_node inner]
      calc nodeWeight tree.head tree.hasNumericExponent (tree.children.map weight)
          ≤ nodeWeight tree.head tree.hasNumericExponent
              ((tree.children.map size).map fun size => 6 ^ size) := by
            apply nodeWeight_mono
            rw [List.map_map, List.forall₂_map_left_iff, List.forall₂_map_right_iff,
              List.forall₂_same]
            exact fun child member => ⟨child.weight_pos.le, ih child member⟩
        _ ≤ 6 ^ (tree.children.map size).foldr (· + ·) 1 := by
            apply nodeWeight_pow_le
            intro size member
            obtain ⟨child, _, rfl⟩ := List.mem_map.mp member
            exact child.size_pos

end Expr

end SymbolicAlgebra

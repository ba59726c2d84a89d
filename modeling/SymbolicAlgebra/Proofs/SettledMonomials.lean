import SymbolicAlgebra.Proofs.CollectedMonomials
import SymbolicAlgebra.Proofs.ScopeEffects

/-!
# Settled monomials

A product of numbers and powers of variables is settled when its factors have different
keys and, as soon as there are more than two of them, stand in the order in which collected
factors are read.  The same goes for a quotient of two such products.  No rule applies to a
settled monomial, and collecting its factors gives the same product or quotient, so that
simplifying it again only makes the nodes anew.

Trees are described by forms, which are free of marks.
-/

namespace SymbolicAlgebra

open SymbolicAlgebra.Expr TermKey

/-! ## Forms -/

/-- A factor without its marks. -/
inductive Factor where
  | number (value : Number)
  | var (name : String)
  | power (name : String) (exponent : Number)

namespace Factor

/-- The key by which the factor is sorted. -/
def key : Factor → TermKey
  | number _ => .numeric
  | var name | power name _ => .var name

/-- The tree is this factor. -/
inductive Shows : Factor → Expr → Prop where
  | number {value : Number} {mark : Mark} : Shows (number value) (.number value mark)
  | var {name : String} {mark : Mark} : Shows (var name) (.var name mark)
  | power {name : String} {exponent : Number} {inner middle outer : Mark} :
      Shows (power name exponent)
        (.arith .pow (.var name inner) (.number exponent middle) outer)

/-- The factor is defined, and no identity takes it away or makes it a simpler one. -/
def IsReduced : Factor → Prop
  | number value => value.isNaN = false ∧ value.isZero = false ∧ value.isOne = false ∧
      value.isMinusOne = false
  | var _ => True
  | power _ exponent => exponent.isNaN = false ∧ exponent.isZero = false ∧ exponent.isOne = false

/-- The factor is a negative number. -/
def isNegative : Factor → Bool
  | number value => value.isNegative
  | _ => false

/-- The factor is a negative power. -/
def isReciprocal : Factor → Bool
  | power _ exponent => exponent.isNegative
  | _ => false

end Factor

/-- The tree is the product of some factors, from left to right. -/
inductive Expr.HasFactors : List Factor → Expr → Prop where
  | factor {factor : Factor} {tree : Expr} : factor.Shows tree → HasFactors [factor] tree
  | mul {factors : List Factor} {factor : Factor} {left right : Expr} {mark : Mark} :
      HasFactors factors left → factor.Shows right →
        HasFactors (factors ++ [factor]) (.arith .mul left right mark)

/-- The tree is the product of some factors, and one without factors. -/
inductive Expr.HasNumerator : List Factor → Expr → Prop where
  | product {factors : List Factor} {tree : Expr} : tree.HasFactors factors →
      HasNumerator factors tree
  | one {mark : Mark} : HasNumerator [] (.number (.int 1) mark)

/-- The factors above and below the bar of a monomial.  Without factors below there is no
bar. -/
structure MonomialForm where
  above : List Factor
  below : List Factor

namespace MonomialForm

/-- The tree is this monomial. -/
inductive Shows : MonomialForm → Expr → Prop where
  | whole {factors : List Factor} {tree : Expr} : tree.HasNumerator factors →
      Shows ⟨factors, []⟩ tree
  | quotient {above below : List Factor} {left right : Expr} {mark : Mark} :
      left.HasNumerator above → right.HasFactors below →
        Shows ⟨above, below⟩ (.arith .div left right mark)

def factors (form : MonomialForm) : List Factor := form.above ++ form.below

/-- The factors are reduced and have different keys, and no number stands below a mere one.
A negative power stands alone.  From three factors on, that one included, they are in order
and there are no negative numbers. -/
structure IsSettled (form : MonomialForm) : Prop where
  reduced : ∀ factor ∈ form.factors, factor.IsReduced
  distinct : (form.factors.map Factor.key).Nodup
  unit : form.above = [] → ∀ factor ∈ form.below, factor.key ≠ .numeric
  upright : form.above.length ≤ 1 ∧ form.below = [] ∨
    ∀ factor ∈ form.factors, factor.isReciprocal = false
  ordered : max form.above.length 1 + form.below.length ≤ 2 ∨
    (form.above.map Factor.key).Pairwise ReadBefore ∧
      (form.below.map Factor.key).Pairwise ReadBefore ∧
        ∀ factor ∈ form.factors, factor.isNegative = false

end MonomialForm

/-! ## Monomials without a bar -/

section Whole

variable {factor : Factor} {factors : List Factor}

/-- Without a bar there is less to ask for. -/
theorem MonomialForm.isSettled_whole (reduced : ∀ factor ∈ factors, factor.IsReduced)
    (distinct : (factors.map Factor.key).Nodup)
    (upright : factors.length ≤ 1 ∨ ∀ factor ∈ factors, factor.isReciprocal = false)
    (ordered : factors.length ≤ 2 ∨ (factors.map Factor.key).Pairwise ReadBefore ∧
      ∀ factor ∈ factors, factor.isNegative = false) : IsSettled ⟨factors, []⟩ := by
  have whole : MonomialForm.factors ⟨factors, []⟩ = factors := List.append_nil _
  refine ⟨?_, ?_, fun _ => List.forall_mem_nil _, ?_, ?_⟩
  · rwa [whole]
  · rwa [whole]
  · rw [whole]
    exact upright.imp_left fun single => ⟨single, rfl⟩
  · rw [whole]
    refine ordered.imp (fun few => ?_) fun inOrder => ⟨inOrder.1, .nil, inOrder.2⟩
    change max factors.length 1 + 0 ≤ 2
    omega

theorem MonomialForm.isSettled_single (reduced : factor.IsReduced) : IsSettled ⟨[factor], []⟩ :=
  isSettled_whole (List.forall_mem_singleton.mpr reduced) (List.nodup_singleton _)
    (.inl (le_refl 1)) (.inl (Nat.le_succ 1))

end Whole

/-! ## Lists of forms -/

section Lists

variable {Form : Type} {Shows : Form → Expr → Prop} {forms : List Form} {terms : List Expr}

theorem forall_of_forall₂ {Holds : Form → Prop} {Result : Expr → Prop}
    (shown : List.Forall₂ Shows forms terms) (holds : ∀ form ∈ forms, Holds form)
    (implies : ∀ {form tree}, Shows form tree → Holds form → Result tree) :
    ∀ term ∈ terms, Result term := by
  induction shown with
  | nil => exact List.forall_mem_nil _
  | cons shows _ ih =>
      rw [List.forall_mem_cons] at holds ⊢
      exact ⟨implies shows holds.1, ih holds.2⟩

end Lists

/-! ## Single factors -/

/-- What the rules for two operands ask of a settled product. -/
structure Expr.IsRegular (tree : Expr) : Prop where
  isError : tree.isError = false
  asArray? : tree.asArray? = none
  isZero : tree.isZero = false
  isMinusOne : tree.isMinusOne = false
  isUnnegated : tree.IsUnnegated

section Single

variable {factor : Factor} {tree : Expr} {chain : Chain}

theorem Factor.Shows.key (shows : factor.Shows tree) : TermKey.of chain tree = factor.key := by
  cases shows <;> cases chain <;> rfl

theorem Factor.Shows.isRegular (shows : factor.Shows tree) (reduced : factor.IsReduced) :
    tree.IsRegular := by
  cases shows with
  | number =>
      exact ⟨isError_of_defined reduced.1, rfl, reduced.2.1, reduced.2.2.2, .inl ⟨_, _, rfl⟩⟩
  | var => exact ⟨rfl, rfl, rfl, rfl, .inr (.inl ⟨_, _, rfl⟩)⟩
  | power => exact ⟨rfl, rfl, rfl, rfl, .inr (.inr ⟨_, _, _, _, rfl⟩)⟩

theorem Factor.Shows.isOne (shows : factor.Shows tree) (reduced : factor.IsReduced) :
    tree.isOne = false := by
  cases shows with
  | number => exact reduced.2.2.1
  | var | power => rfl

theorem Factor.Shows.fillMultiplicative (shows : factor.Shows tree)
    (upright : factor.isReciprocal = false) (terms : Terms) :
    fillMultiplicative tree terms = pure (terms.push tree) := by
  cases shows with
  | number | var => rfl
  | power => exact if_neg (Bool.eq_false_iff.mp upright)

theorem Factor.Shows.flipped (shows : factor.Shows tree) (upright : factor.isReciprocal = false) :
    flipped .multiplicative tree = failure := by
  cases shows with
  | number | var => rfl
  | power => exact if_neg (Bool.eq_false_iff.mp upright)

theorem Factor.Shows.withoutSign (shows : factor.Shows tree)
    (notNegative : factor.isNegative = false) : withoutSign tree = failure := by
  cases shows with
  | number => exact if_neg (Bool.eq_false_iff.mp notNegative)
  | var | power => rfl

/-- A number, or a power of the variable that is the key. -/
theorem Factor.Shows.base_cases (shows : factor.Shows tree) :
    (factor.key = .numeric ∧ tree.isNumber = true ∧ (baseExponent tree).1 = tree) ∨
      ∃ name inner, factor.key = .var name ∧ (baseExponent tree).1 = .var name inner := by
  cases shows with
  | number => exact .inl ⟨rfl, rfl, rfl⟩
  | var | power => exact .inr ⟨_, _, rfl, rfl⟩

end Single

/-! ## Products -/

section Products

variable {kernel : Kernel} {allowed : Step → Prop} {factor : Factor} {factors others : List Factor}
  {tree left right : Expr} {mark : Mark} {terms : List Expr}

theorem Expr.HasFactors.ne_nil (product : tree.HasFactors factors) : factors ≠ [] := by
  cases product with
  | factor => exact List.cons_ne_nil _ _
  | mul => exact List.append_ne_nil_of_right_ne_nil _ (List.cons_ne_nil _ _)

theorem Expr.HasFactors.shows (product : tree.HasFactors [factor]) : factor.Shows tree := by
  generalize single : [factor] = factors at product
  cases product with
  | factor shows => exact (List.singleton_inj.mp single) ▸ shows
  | mul product _ =>
      rcases List.append_eq_singleton_iff.mp single.symm with ⟨empty, _⟩ | ⟨_, ⟨⟩⟩
      exact absurd empty product.ne_nil

theorem Expr.HasFactors.isRegular (product : tree.HasFactors factors)
    (reduced : ∀ factor ∈ factors, factor.IsReduced) : tree.IsRegular := by
  cases product with
  | factor shows => exact shows.isRegular (reduced _ List.mem_cons_self)
  | mul => exact ⟨rfl, rfl, rfl, rfl, .inr (.inr ⟨_, _, _, _, rfl⟩)⟩

theorem Expr.HasFactors.isOne (product : tree.HasFactors factors)
    (reduced : ∀ factor ∈ factors, factor.IsReduced) : tree.isOne = false := by
  cases product with
  | factor shows => exact shows.isOne (reduced _ List.mem_cons_self)
  | mul => rfl

/-- Only a single number is a constant. -/
theorem Expr.HasFactors.isConstant (product : tree.HasFactors factors)
    (constant : tree.isConstant = true) : factors.map Factor.key = [.numeric] := by
  cases product with
  | factor shows =>
      cases shows with
      | number => rfl
      | var | power => cases constant
  | mul => cases constant

theorem Expr.HasFactors.keys (product : tree.HasFactors factors) :
    (TermKey.factors tree).map ofFactor = factors.map Factor.key := by
  induction product with
  | factor shows => cases shows <;> rfl
  | mul _ shows ih =>
      rw [TermKey.factors, List.map_append, List.map_append, ih]
      cases shows <;> rfl

/-- Products that agree have the same keys. -/
theorem Expr.HasFactors.keys_eq_of_beq (leftProduct : left.HasFactors factors)
    (rightProduct : right.HasFactors others) (equal : (left == right) = true) :
    factors.map Factor.key = others.map Factor.key := by
  rw [← leftProduct.keys, ← rightProduct.keys, factors_eq_of_agree equal]

/-- Products without a common key are not equal and have different bases. -/
theorem Expr.HasFactors.unlike (leftProduct : left.HasFactors factors)
    (rightProduct : right.HasFactors others)
    (distinct : ((factors ++ others).map Factor.key).Nodup) :
    (left == right) = false ∧ Unlike left right := by
  rw [List.map_append, List.nodup_append'] at distinct
  have apart := distinct.2.2
  have unequal : (left == right) = false := by
    refine Bool.eq_false_iff.mpr fun equal => ?_
    have same := leftProduct.keys_eq_of_beq rightProduct equal
    obtain ⟨factor, member⟩ := List.exists_mem_of_ne_nil _ leftProduct.ne_nil
    have keyMember : factor.key ∈ factors.map Factor.key := List.mem_map_of_mem member
    exact apart keyMember (same ▸ keyMember)
  refine ⟨unequal, ?_⟩
  rw [Unlike]
  cases leftProduct with
  | factor shows =>
      rcases shows.base_cases with ⟨_, isNumber, base⟩ | ⟨name, inner, key, base⟩
      · rw [base, isNumber, Bool.true_or]
      · rw [base]
        cases rightProduct with
        | factor otherShows =>
            rcases otherShows.base_cases with ⟨_, isNumber, otherBase⟩ |
              ⟨other, outer, otherKey, otherBase⟩
            · rw [otherBase]
              cases otherShows with
              | number => rfl
              | var | power => cases isNumber
            · have names : name ≠ other := by
                rintro rfl
                simp [key, otherKey] at apart
              rw [otherBase]
              simpa [isNumber, Expr.asNumber?, bne, BEq.beq, agree] using names
        | mul => rfl
  | mul =>
      cases rightProduct with
      | factor otherShows => cases otherShows <;> rfl
      | mul => exact congrArg not unequal

/-- The factors of a product are listed behind those already there. -/
theorem Expr.HasFactors.fillMultiplicative (product : tree.HasFactors factors)
    (upright : ∀ factor ∈ factors, factor.isReciprocal = false) :
    ∃ terms, List.Forall₂ Factor.Shows factors terms ∧ ∀ listed : Terms,
      fillMultiplicative tree listed = pure ⟨listed.up ++ terms, listed.down⟩ := by
  induction product with
  | factor shows =>
      refine ⟨_, .cons shows .nil, fun listed => ?_⟩
      exact shows.fillMultiplicative (upright _ List.mem_cons_self) listed
  | mul product shows ih =>
      rw [List.forall_mem_append, List.forall_mem_singleton] at upright
      obtain ⟨terms, shown, fills⟩ := ih upright.1
      refine ⟨terms ++ [_], List.rel_append shown (.cons shows .nil), fun listed => ?_⟩
      change (SymbolicAlgebra.fillMultiplicative _ listed >>=
        SymbolicAlgebra.fillMultiplicative _) = _
      rw [fills]
      change SymbolicAlgebra.fillMultiplicative _ _ = _
      rw [shows.fillMultiplicative upright.2, Terms.push, List.append_assoc]

/-- Only constants, neutral factors, powers of one base and equal operands of a quotient are
joined by a rule. -/
theorem Expr.HasFactors.combine_fails_of_unlike (leftProduct : left.HasFactors factors)
    (rightProduct : right.HasFactors others)
    (reduced : ∀ factor ∈ factors ++ others, factor.IsReduced)
    (symbolic : left.isConstant = false ∨ right.isConstant = false) (unlike : Unlike left right)
    {op : ArithOp} (family : Chain.of? op = some .multiplicative)
    (unequal : op = .mul ∨ (left == right) = false) :
    (combine kernel op left right).Ensures allowed fun _ => False := by
  rw [List.forall_mem_append] at reduced
  have leftRegular := leftProduct.isRegular reduced.1
  have rightRegular := rightProduct.isRegular reduced.2
  have ⟨unsigned, divUnsigned, notTangent⟩ : mulSigns kernel left right = _ ∧ _ ∧ _ :=
    signs_failures leftRegular.isUnnegated rightRegular.isUnnegated
  rw [combine_eq_identities ⟨leftRegular.isError, rightRegular.isError⟩
    ⟨leftRegular.asArray?, rightRegular.asArray?⟩ symbolic]
  cases op with
  | mul =>
      have noPowers : mulPowers kernel left right = failure := if_pos unlike
      simp only [identities, mulIdentities, leftRegular.isZero, rightRegular.isZero,
        leftProduct.isOne reduced.1, rightProduct.isOne reduced.2, leftRegular.isMinusOne,
        rightRegular.isMinusOne, unsigned, noPowers, Bool.false_eq_true, if_false]
      exact .failure
  | div =>
      have noPowers : divPowers kernel left right = failure := if_pos unlike
      have different : (left == right) = false := unequal.resolve_left (by decide)
      simp only [identities, divIdentities, leftRegular.isZero, rightProduct.isOne reduced.2,
        rightRegular.isMinusOne, different, divUnsigned, notTangent, noPowers, Bool.false_and,
        Bool.false_eq_true, if_false]
      exact .failure
  | add | sub | pow => cases family

/-- No rule joins products without a common key. -/
theorem Expr.HasFactors.combine_fails (leftProduct : left.HasFactors factors)
    (rightProduct : right.HasFactors others)
    (reduced : ∀ factor ∈ factors ++ others, factor.IsReduced)
    (distinct : ((factors ++ others).map Factor.key).Nodup) {op : ArithOp}
    (family : Chain.of? op = some .multiplicative) :
    (combine kernel op left right).Ensures allowed fun _ => False := by
  have ⟨unequal, unlike⟩ : (left == right) = false ∧ Unlike left right :=
    leftProduct.unlike rightProduct distinct
  have symbolic : left.isConstant = false ∨ right.isConstant = false := by
    by_contra constants
    rw [not_or, Bool.not_eq_false, Bool.not_eq_false] at constants
    rw [List.map_append, leftProduct.isConstant constants.1,
      rightProduct.isConstant constants.2] at distinct
    exact absurd distinct (by decide)
  exact leftProduct.combine_fails_of_unlike rightProduct reduced symbolic unlike family
    (.inr unequal)

/-- One divided by a product that is no number stays a quotient. -/
theorem Expr.HasFactors.combine_one_fails (product : right.HasFactors factors)
    (reduced : ∀ factor ∈ factors, factor.IsReduced)
    (noNumber : ∀ factor ∈ factors, factor.key ≠ .numeric) :
    (combine kernel .div (.number (.int 1) mark) right).Ensures allowed fun _ => False := by
  have regular := product.isRegular reduced
  have symbolic : right.isConstant = false := by
    by_contra constant
    rw [Bool.not_eq_false] at constant
    have keys := product.isConstant constant
    obtain ⟨factor, member, key⟩ := List.mem_map.mp (keys ▸ List.mem_singleton_self _)
    exact noNumber factor member key
  have oneRegular : (Expr.number (.int 1) mark).IsRegular :=
    ⟨rfl, rfl, rfl, rfl, .inl ⟨_, _, rfl⟩⟩
  have unequal : (Expr.number (.int 1) mark == right) = false := by
    rcases regular.isUnnegated with ⟨_, _, rfl⟩ | ⟨_, _, rfl⟩ | ⟨_, _, _, _, rfl⟩
    · cases symbolic
    · rfl
    · rfl
  rw [combine_eq_identities ⟨rfl, regular.isError⟩ ⟨rfl, regular.asArray?⟩ (.inr symbolic)]
  have ⟨_, divUnsigned, notTangent⟩ : _ ∧ divSigns kernel _ right = _ ∧ _ :=
    signs_failures oneRegular.isUnnegated regular.isUnnegated
  have noPowers : divPowers kernel (.number (.int 1) mark) right = failure := rfl
  simp only [identities, divIdentities, product.isOne reduced, regular.isMinusOne,
    oneRegular.isZero, unequal, divUnsigned, notTangent, noPowers, Bool.false_and,
    Bool.false_eq_true, if_false]
  exact .failure

end Products

/-! ## Collecting settled factors -/

section Collecting

variable {kernel : Kernel} {allowed : Step → Prop} {factors others : List Factor}
  {terms up down : List Expr} {tree start : Expr}

theorem foldBack_concat {op : ArithOp} {term : Expr} :
    foldBack op start (terms ++ [term]) =
      Expr.make (.arith op start term) >>= fun first => foldBack op first terms := by
  induction terms with
  | nil => simp [foldBack]
  | cons next terms ih => simp [foldBack, ih]

/-- Terms are applied from the last to the first. -/
theorem foldBack_reads {Form : Type} {Shows : Form → Expr → Prop}
    (Reads : List Form → Expr → Prop) {op : ArithOp}
    (extend : ∀ {forms form left right} mark, Reads forms left → Shows form right →
      Reads (forms ++ [form]) (.arith op left right mark))
    {first forms : List Form} (starts : Reads first start)
    (shown : List.Forall₂ Shows forms terms) :
    (foldBack op start terms.reverse).Ensures (Reads (first ++ forms)) := by
  induction shown generalizing start first with
  | nil => exact .pure (by rwa [List.append_nil])
  | @cons form term forms terms shows _ ih =>
      have joined : (Expr.make (.arith op start term)).Ensures (Reads (first ++ [form])) :=
        .make fun mark => extend mark starts shows
      rw [List.reverse_cons, foldBack_concat, List.append_cons]
      exact .bind joined fun _ reads => ih reads

theorem foldReversed?_reads {Form : Type} {Shows : Form → Expr → Prop}
    (Reads : List Form → Expr → Prop) {op : ArithOp}
    (single : ∀ {form tree}, Shows form tree → Reads [form] tree)
    (extend : ∀ {forms form left right} mark, Reads forms left → Shows form right →
      Reads (forms ++ [form]) (.arith op left right mark))
    {forms : List Form} (shown : List.Forall₂ Shows forms terms) :
    (foldReversed? op terms.reverse).Ensures fun folded =>
      (folded = none ∧ forms = []) ∨ ∃ tree, folded = some tree ∧ Reads forms tree := by
  cases shown with
  | nil => exact .pure (.inl ⟨rfl, rfl⟩)
  | cons shows shown =>
      unfold foldReversed?
      rw [List.reverse_cons, List.getLast?_concat, List.dropLast_concat]
      exact .bind (foldBack_reads Reads extend (single shows) shown) fun tree reads =>
        .pure (.inr ⟨tree, rfl, reads⟩)

/-- The terms above the bar are the factors of a numerator, or a one. -/
inductive ListsNumerator : List Factor → List Expr → Prop where
  | factors {above : List Factor} {up : List Expr} : above ≠ [] →
      List.Forall₂ Factor.Shows above up → ListsNumerator above up
  | one {mark : Mark} : ListsNumerator [] [.number (.int 1) mark]

theorem foldMultiplicative_shows (upShown : List.Forall₂ Factor.Shows factors up)
    (downShown : List.Forall₂ Factor.Shows others down) :
    (foldMultiplicative kernel false ⟨up.reverse, down.reverse⟩).Ensures allowed
      (MonomialForm.Shows ⟨factors, others⟩) := by
  have folds {factors : List Factor} {terms : List Expr}
      (shown : List.Forall₂ Factor.Shows factors terms) :
      (foldReversed? .mul terms.reverse).Ensures fun folded =>
        (folded = none ∧ factors = []) ∨ ∃ tree, folded = some tree ∧ tree.HasFactors factors :=
    foldReversed?_reads HasFactors .factor (fun _ product shows => .mul product shows) shown
  have numerator : (foldReversed? .mul up.reverse).Ensures fun folded =>
      (folded.getD Chain.multiplicative.neutral).HasNumerator factors := by
    refine (folds upShown).mono ?_
    rintro _ (⟨rfl, rfl⟩ | ⟨tree, rfl, product⟩)
    · exact .one
    · exact .product product
  refine .bind (.pure rfl : Traced.Ensures allowed (signedNumerator kernel false up.reverse)
    (· = up.reverse)) ?_
  rintro _ rfl
  refine .bind (.ofMarking numerator) fun top isNumerator => ?_
  refine .bind (.ofMarking (folds downShown)) ?_
  rintro _ (⟨rfl, rfl⟩ | ⟨bottom, rfl, product⟩)
  · exact .pure (.whole isNumerator)
  · exact .make fun mark => .quotient isNumerator product

theorem ListsNumerator.forall_mem {Holds : Factor → Prop} {Result : Expr → Prop}
    (listed : ListsNumerator factors up) (holds : ∀ factor ∈ factors, Holds factor)
    (one : ∀ mark, Result (.number (.int 1) mark))
    (implies : ∀ {factor tree}, factor.Shows tree → Holds factor → Result tree) :
    ∀ term ∈ up, Result term := by
  cases listed with
  | factors _ shown => exact forall_of_forall₂ shown holds implies
  | one => exact List.forall_mem_singleton.mpr (one _)

/-- A mere one is left out as neutral. -/
theorem ListsNumerator.filter_reverse (listed : ListsNumerator factors up)
    (reduced : ∀ factor ∈ factors, factor.IsReduced) :
    ∃ top, List.Forall₂ Factor.Shows factors top ∧
      up.reverse.filter (!Chain.multiplicative.isNeutral ·) = top.reverse := by
  cases listed with
  | factors _ shown =>
      have notOne : ∀ term ∈ up, term.isOne = false :=
        forall_of_forall₂ shown reduced Factor.Shows.isOne
      refine ⟨up, shown, List.filter_eq_self.mpr fun term member => ?_⟩
      exact congrArg not (notOne term (List.mem_reverse.mp member))
  | one => exact ⟨[], .nil, rfl⟩

/-- The factors of a settled monomial are collected to it. -/
theorem collect_settled {form : MonomialForm} (settled : form.IsSettled)
    (upright : ∀ factor ∈ form.factors, factor.isReciprocal = false)
    (inOrder : (form.above.map Factor.key).Pairwise ReadBefore ∧
      (form.below.map Factor.key).Pairwise ReadBefore ∧
        ∀ factor ∈ form.factors, factor.isNegative = false)
    (upListed : ListsNumerator form.above up)
    (downShown : List.Forall₂ Factor.Shows form.below down) :
    (collect kernel .multiplicative ⟨up, down⟩).Ensures allowed form.Shows := by
  obtain ⟨above, below⟩ := form
  obtain ⟨aboveInOrder, belowInOrder, notNegative⟩ := inOrder
  have ⟨reduced, distinct, unit, _, _⟩ := settled
  rw [MonomialForm.factors, List.forall_mem_append] at reduced upright notNegative
  have downKeys : down.map (TermKey.of .multiplicative) = below.map Factor.key :=
    map_eq_of_forall₂ (fun shows => shows.key) downShown
  have distinctKeys : DistinctKeys .multiplicative (up ++ down) := by
    rw [DistinctKeys, List.map_append, downKeys]
    cases upListed with
    | factors _ shown =>
        rw [map_eq_of_forall₂ (fun shows => shows.key) shown, ← List.map_append]
        exact distinct
    | one =>
        refine List.nodup_cons.mpr ⟨fun member => ?_, distinct⟩
        obtain ⟨factor, member, key⟩ := List.mem_map.mp member
        exact unit rfl factor member key
  have stay : ∀ term ∈ up ++ down, flipped .multiplicative term = failure :=
    List.forall_mem_append.mpr ⟨upListed.forall_mem upright.1 (fun _ => rfl) Factor.Shows.flipped,
      forall_of_forall₂ downShown upright.2 Factor.Shows.flipped⟩
  refine collect_product
    (upListed.forall_mem notNegative.1 (fun _ => rfl) Factor.Shows.withoutSign)
    (forall_of_forall₂ downShown notNegative.2 Factor.Shows.withoutSign)
    (settle_distinct distinctKeys stay) ?_ ?_
  · rintro _ rfl term member
    have notZero : ∀ term ∈ up, term.isZero = false :=
      upListed.forall_mem reduced.1 (fun _ => rfl) fun shows reduced =>
        (shows.isRegular reduced).isZero
    exact notZero term ((sortTerms_perm .multiplicative up).mem_iff.mp member)
  · rintro _ rfl
    have upInOrder : (up.map (TermKey.of .multiplicative)).Pairwise ReadBefore := by
      cases upListed with
      | factors _ shown => rwa [map_eq_of_forall₂ (fun shows => shows.key) shown]
      | one => exact List.pairwise_singleton _ _
    obtain ⟨top, shown, kept⟩ := upListed.filter_reverse reduced.1
    have notOne : ∀ term ∈ down, term.isOne = false :=
      forall_of_forall₂ downShown reduced.2 Factor.Shows.isOne
    have belowKept : down.reverse.filter (!Chain.multiplicative.isNeutral ·) = down.reverse :=
      List.filter_eq_self.mpr fun term member =>
        congrArg not (notOne term (List.mem_reverse.mp member))
    simp only [sortTerms_eq_reverse upInOrder, sortTerms_eq_reverse (downKeys ▸ belowInOrder), kept,
      belowKept]
    exact foldMultiplicative_shows shown downShown

theorem ListsNumerator.length_eq (listed : ListsNumerator factors up) :
    up.length = max factors.length 1 := by
  cases listed with
  | factors nonempty shown =>
      rw [← shown.length_eq, Nat.max_eq_left (List.length_pos_iff.mpr nonempty)]
  | one => rfl

/-- Where no rule applies, the operands are the factors of the monomial, and it is built or
collected. -/
theorem applyBinary_settled {op : ArithOp} {left right : Expr} {form : MonomialForm}
    (settled : form.IsSettled) (family : Chain.of? op = some .multiplicative)
    (fails : (combine kernel op left right).Ensures allowed fun _ => False)
    (upright : ∀ factor ∈ form.factors, factor.isReciprocal = false)
    (fills : fillOperands .multiplicative op left right .empty = pure ⟨up, down⟩)
    (upListed : ListsNumerator form.above up)
    (downShown : List.Forall₂ Factor.Shows form.below down)
    (built : ∀ mark, form.Shows (.arith op left right mark)) :
    (applyBinary kernel op left right).Ensures allowed form.Shows := by
  refine fails.run_none ?_
  have collects : Chain.multiplicative.shouldCollect up.length down.length = true ↔
      ¬ max form.above.length 1 + form.below.length ≤ 2 := by
    rw [← upListed.length_eq, downShown.length_eq, Nat.not_le]
    exact decide_eq_true_iff
  by_cases several : max form.above.length 1 + form.below.length ≤ 2
  · exact collectOrBuild_builds _ family fills
      (Bool.eq_false_iff.mpr fun enough => collects.mp enough several) built
  · exact collectOrBuild_collects _ family fills (collects.mpr several)
      (collect_settled settled upright (settled.ordered.resolve_left several) upListed downShown)

end Collecting

/-! ## Settled monomials are final -/

section Evaluation

variable {controller : Option Controller} {allowed : Step → Prop} {fuel : Nat}
  {factor : Factor} {factors above below : List Factor} {form : MonomialForm}
  {tree left right : Expr}

/-- Some of the factors above the bar are settled by themselves. -/
theorem MonomialForm.IsSettled.numerator (settled : form.IsSettled)
    (fewer : factors.Sublist form.above) : IsSettled ⟨factors, []⟩ := by
  have within : factors.Sublist form.factors := fewer.trans (List.sublist_append_left _ _)
  have count := fewer.length_le
  refine isSettled_whole (fun factor member => settled.reduced factor (within.subset member))
    (settled.distinct.sublist (within.map Factor.key)) ?_ ?_
  · refine settled.upright.imp (fun single => count.trans single.1) ?_
    exact fun upright factor member => upright factor (within.subset member)
  · refine settled.ordered.imp (fun few => by omega) fun inOrder => ⟨?_, ?_⟩
    · exact inOrder.1.sublist (fewer.map Factor.key)
    · exact fun factor member => inOrder.2.2 factor (within.subset member)

/-- What stands below the bar is settled by itself. -/
theorem MonomialForm.IsSettled.denominator (settled : form.IsSettled) (nonempty : form.below ≠ []) :
    IsSettled ⟨form.below, []⟩ := by
  have within : form.below.Sublist form.factors := List.sublist_append_right _ _
  have upright := settled.upright.resolve_left fun single => nonempty single.2
  refine isSettled_whole (fun factor member => settled.reduced factor (within.subset member))
    (settled.distinct.sublist (within.map Factor.key))
    (.inr fun factor member => upright factor (within.subset member)) ?_
  refine settled.ordered.imp (fun few => by omega) fun inOrder => ⟨inOrder.2.1, ?_⟩
  exact fun factor member => inOrder.2.2 factor (within.subset member)

theorem Factor.Shows.evaluateTo (shows : factor.Shows tree) (reduced : factor.IsReduced)
    (enough : tree.size ≤ fuel) :
    (evaluateTo controller fuel tree).Finishes allowed .empty factor.Shows := by
  cases shows with
  | number => exact evaluateTo_leaf rfl enough .number
  | var => exact evaluateTo_leaf rfl enough .var
  | power =>
      refine (evaluateTo_pow_var enough).mono fun result shows => ?_
      rw [PowerForm.ofExponent_eq_power reduced.1 reduced.2.1 reduced.2.2] at shows
      obtain ⟨_, inner, middle, outer, rfl⟩ := shows
      exact .power

/-- A monomial without a bar is the product of its factors. -/
theorem MonomialForm.Shows.hasFactors (shows : Shows ⟨factors, []⟩ tree) (nonempty : factors ≠ []) :
    tree.HasFactors factors := by
  cases shows with
  | whole numerator =>
      cases numerator with
      | product product => exact product
      | one => exact absurd rfl nonempty
  | quotient _ product => exact absurd rfl product.ne_nil

theorem arithmetic_mul_settled (settled : MonomialForm.IsSettled ⟨factors ++ [factor], []⟩)
    (product : left.HasFactors factors) (shows : factor.Shows right) :
    (arithmetic .mul left right).Ensures allowed (HasFactors (factors ++ [factor])) := by
  obtain ⟨depth, engine⟩ := arithmetic_eq_applyBinary .mul left right
  have upright := settled.upright.resolve_left fun single => by
    have positive := List.length_pos_iff.mpr product.ne_nil
    rw [List.length_append, List.length_singleton] at single
    omega
  have ⟨reduced, distinct, _, _, _⟩ := settled
  rw [MonomialForm.factors, List.append_nil] at reduced distinct
  obtain ⟨leftTerms, leftShown, leftFills⟩ := product.fillMultiplicative
    fun other member => upright other (by simp [MonomialForm.factors, member])
  have fills : fillOperands .multiplicative .mul left right .empty =
      pure ⟨leftTerms ++ [right], []⟩ := by
    rw [fillOperands, fill, leftFills]
    exact shows.fillMultiplicative (upright factor (by simp [MonomialForm.factors])) _
  rw [engine]
  refine (applyBinary_settled settled rfl
    (product.combine_fails (.factor shows) reduced distinct rfl) upright fills
    (.factors (by simp) (List.rel_append leftShown (.cons shows .nil))) .nil
    fun mark => .whole (.product (.mul product shows))).mono fun _ result => ?_
  exact result.hasFactors (by simp)

theorem Expr.HasFactors.evaluateTo (product : tree.HasFactors factors)
    (settled : MonomialForm.IsSettled ⟨factors, []⟩) (enough : tree.size ≤ fuel) :
    (evaluateTo controller fuel tree).Finishes allowed .empty (HasFactors factors) := by
  induction product generalizing fuel with
  | factor shows =>
      refine (shows.evaluateTo (settled.reduced _ (by simp [MonomialForm.factors])) enough).mono ?_
      exact fun _ shows => .factor shows
  | @mul factors factor left right mark product shows ih =>
      obtain ⟨fuel, rfl⟩ := fuel_eq_succ enough
      rw [size_arith] at enough
      have reduced := settled.reduced factor (by simp [MonomialForm.factors])
      refine .ofTraced₂ (ih (settled.numerator (List.sublist_append_left _ _)) (by omega))
        (shows.evaluateTo reduced (by omega)) ?_
      exact fun _ _ product shows => arithmetic_mul_settled settled product shows

theorem Expr.HasNumerator.evaluateTo (numerator : tree.HasNumerator factors)
    (settled : MonomialForm.IsSettled ⟨factors, []⟩) (enough : tree.size ≤ fuel) :
    (evaluateTo controller fuel tree).Finishes allowed .empty (HasNumerator factors) := by
  cases numerator with
  | product product => exact (product.evaluateTo settled enough).mono fun _ => .product
  | one => exact evaluateTo_leaf rfl enough .one

theorem arithmetic_div_settled (settled : form.IsSettled)
    (numerator : left.HasNumerator form.above) (product : right.HasFactors form.below) :
    (arithmetic .div left right).Ensures allowed form.Shows := by
  obtain ⟨depth, engine⟩ := arithmetic_eq_applyBinary .div left right
  obtain ⟨above, below⟩ := form
  have upright := settled.upright.resolve_left fun single => product.ne_nil single.2
  have ⟨reduced, distinct, unit, _, _⟩ := settled
  have ⟨aboveUpright, belowUpright⟩ := List.forall_mem_append.mp upright
  obtain ⟨rightTerms, rightShown, rightFills⟩ := product.fillMultiplicative belowUpright
  obtain ⟨fails, leftTerms, listed, leftFills⟩ :
      ((combine (.ofDepth depth) .div left right).Ensures allowed fun _ => False) ∧
        ∃ terms, ListsNumerator above terms ∧
          fillMultiplicative left .empty = pure ⟨terms, []⟩ := by
    cases numerator with
    | product leftProduct =>
        obtain ⟨terms, shown, fills⟩ := leftProduct.fillMultiplicative aboveUpright
        exact ⟨leftProduct.combine_fails product reduced distinct rfl, terms,
          .factors leftProduct.ne_nil shown, fills .empty⟩
    | one => exact ⟨product.combine_one_fails reduced (unit rfl), _, .one, rfl⟩
  have fills : fillOperands .multiplicative .div left right .empty =
      pure ⟨leftTerms, rightTerms⟩ := by
    rw [fillOperands, fill, leftFills]
    change (fillMultiplicative right ⟨[], leftTerms⟩ >>= fun terms => pure terms.swap) = _
    rw [rightFills]
    rfl
  rw [engine]
  exact applyBinary_settled settled rfl fails upright fills listed rightShown
    fun mark => .quotient numerator product

/-- Evaluating a settled monomial makes its nodes anew. -/
theorem MonomialForm.Shows.evaluateTo (shows : form.Shows tree) (settled : form.IsSettled)
    (enough : tree.size ≤ fuel) :
    (evaluateTo controller fuel tree).Finishes allowed .empty form.Shows := by
  cases shows with
  | whole numerator => exact (numerator.evaluateTo settled enough).mono fun _ => .whole
  | quotient numerator product =>
      obtain ⟨fuel, rfl⟩ := fuel_eq_succ enough
      rw [size_arith] at enough
      refine .ofTraced₂ (numerator.evaluateTo (settled.numerator (List.Sublist.refl _)) (by omega))
        (product.evaluateTo (settled.denominator product.ne_nil) (by omega)) ?_
      exact fun _ _ numerator product => arithmetic_div_settled settled numerator product

end Evaluation

end SymbolicAlgebra

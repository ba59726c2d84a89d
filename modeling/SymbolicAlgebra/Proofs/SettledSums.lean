import SymbolicAlgebra.Proofs.SettledMonomials

/-!
# Settled sums

A sum of settled monomials and numbers without a minus sign is settled when its terms have
different keys and its addends and subtrahends stand in the order in which collected terms
are read.  No rule applies to two parts of it, and collecting its terms gives the same sum.

Without addends the sum begins with a negated subtrahend.  That must not be one that takes
the sign into a coefficient.
-/

namespace SymbolicAlgebra

open SymbolicAlgebra.Expr TermKey

/-! ## Forms -/

namespace MonomialForm

/-- The key of the monomial as a term of a sum. -/
def key (form : MonomialForm) : TermKey :=
  if form.below = [] then ((form.above.map Factor.key).find? (· ≠ .numeric)).getD .numeric
  else .other

/-- What may stand in a settled sum: a number without a minus sign, or a settled monomial
that is no number. -/
inductive IsAddend : MonomialForm → Prop where
  | number {value : Number} : value.isNaN = false → value.isZero = false →
      value.isNegative = false → IsAddend ⟨[.number value], []⟩
  | monomial {form : MonomialForm} : form.IsSettled → form.key ≠ .numeric → IsAddend form

/-- A minus sign before the monomial goes into its coefficient. -/
def TakesSign (form : MonomialForm) : Prop :=
  form.below = [] ∧ form.above.length ≤ 2 ∧ ∃ factor ∈ form.above, factor.key = .numeric

end MonomialForm

/-- The tree is the sum of some monomials less others, from left to right. -/
inductive Expr.HasTerms : List MonomialForm → List MonomialForm → Expr → Prop where
  | term {form : MonomialForm} {tree : Expr} : form.Shows tree → HasTerms [form] [] tree
  | neg {form : MonomialForm} {tree : Expr} {mark : Mark} : form.Shows tree →
      HasTerms [] [form] (.unary .neg tree mark)
  | add {added : List MonomialForm} {form : MonomialForm} {left right : Expr} {mark : Mark} :
      HasTerms added [] left → form.Shows right →
        HasTerms (added ++ [form]) [] (.arith .add left right mark)
  | sub {added subtracted : List MonomialForm} {form : MonomialForm} {left right : Expr}
      {mark : Mark} : HasTerms added subtracted left → form.Shows right →
        HasTerms added (subtracted ++ [form]) (.arith .sub left right mark)

/-- The terms have different keys and are in order, and the one that begins without addends
does not take a sign. -/
structure SettledTerms (added subtracted : List MonomialForm) : Prop where
  isAddend : ∀ form ∈ added ++ subtracted, form.IsAddend
  distinct : ((added ++ subtracted).map MonomialForm.key).Nodup
  addedInOrder : (added.map MonomialForm.key).Pairwise ReadBefore
  subtractedInOrder : (subtracted.map MonomialForm.key).Pairwise ReadBefore
  head : added = [] → ∀ form, subtracted.head? = some form → ¬ form.TakesSign

/-! ## Single terms -/

section Single

variable {kernel : Kernel} {allowed : Step → Prop} {form other : MonomialForm}
  {factors others : List Factor} {tree left right : Expr}

theorem Expr.HasFactors.key (product : tree.HasFactors factors) :
    TermKey.of .additive tree = MonomialForm.key ⟨factors, []⟩ := by
  rw [of_additive, product.keys]
  rfl

theorem MonomialForm.Shows.key (shows : form.Shows tree) :
    TermKey.of .additive tree = form.key := by
  cases shows with
  | whole numerator =>
      cases numerator with
      | product product => exact product.key
      | one => rfl
  | quotient _ product =>
      rw [MonomialForm.key, if_neg product.ne_nil]
      rfl

theorem MonomialForm.Shows.shape (shows : form.Shows tree) :
    (∃ value mark, tree = .number value mark) ∨ (∃ name mark, tree = .var name mark) ∨
      ∃ op left right mark, tree = .arith op left right mark ∧ Chain.of? op ≠ some .additive := by
  cases shows with
  | whole numerator =>
      cases numerator with
      | product product =>
          cases product with
          | factor shows =>
              cases shows with
              | number => exact .inl ⟨_, _, rfl⟩
              | var => exact .inr (.inl ⟨_, _, rfl⟩)
              | power => exact .inr (.inr ⟨_, _, _, _, rfl, by decide⟩)
          | mul => exact .inr (.inr ⟨_, _, _, _, rfl, by decide⟩)
      | one => exact .inl ⟨_, _, rfl⟩
  | quotient => exact .inr (.inr ⟨_, _, _, _, rfl, by decide⟩)

/-- Monomials that agree have the same key. -/
theorem MonomialForm.Shows.key_eq_of_beq (leftShows : form.Shows left)
    (rightShows : other.Shows right) (equal : (left == right) = true) : form.key = other.key := by
  rw [← leftShows.key, ← rightShows.key, of_eq_of_beq equal]

/-- The keys of the factors that are no numbers. -/
def symbolicKeys (factors : List Factor) : List TermKey :=
  (factors.map Factor.key).filter (· ≠ .numeric)

theorem MonomialForm.key_eq_head : MonomialForm.key ⟨factors, []⟩ =
    (symbolicKeys factors).head?.getD .numeric := by
  rw [MonomialForm.key, if_pos rfl, symbolicKeys, List.head?_filter]

theorem symbolicKeys_append :
    symbolicKeys (factors ++ others) = symbolicKeys factors ++ symbolicKeys others := by
  rw [symbolicKeys, List.map_append, List.filter_append]
  rfl

theorem Factor.Shows.symbolicKeys_eq_nil {factor : Factor} (shows : factor.Shows tree)
    {number : Number} (isNumber : tree.asNumber? = some number) : symbolicKeys [factor] = [] := by
  cases shows with
  | number => rfl
  | var | power => cases isNumber

/-- The coefficient of a product is split off, and the rest has the same other factors. -/
theorem Expr.HasFactors.splitCoefficient (product : tree.HasFactors factors) :
    (splitCoefficient tree).Ensures fun parts => ∃ others, parts.2.HasFactors others ∧
      symbolicKeys others = symbolicKeys factors := by
  induction product with
  | factor shows => cases shows <;> exact .pure ⟨_, .factor (by constructor), rfl⟩
  | @mul factors factor left right mark product shows ih =>
      rw [SymbolicAlgebra.splitCoefficient, symbolicKeys_append]
      cases leftNumber : left.asNumber? with
      | some coefficient =>
          cases product with
          | factor leftShows =>
              refine .pure ⟨_, .factor shows, ?_⟩
              rw [leftShows.symbolicKeys_eq_nil leftNumber, List.nil_append]
          | mul => cases leftNumber
      | none =>
          cases rightNumber : right.asNumber? with
          | some coefficient =>
              refine .pure ⟨_, product, ?_⟩
              rw [shows.symbolicKeys_eq_nil rightNumber, List.append_nil]
          | none =>
              refine .bind ih ?_
              rintro ⟨coefficient, rest⟩ ⟨others, restProduct, keys⟩
              dsimp only
              split
              · exact .pure ⟨_, .mul product shows, symbolicKeys_append⟩
              · have joined : (Expr.make (.arith .mul rest right)).Ensures
                    (HasFactors (others ++ [factor])) := .make fun mark => .mul restProduct shows
                refine .bind joined fun _ product => .pure ⟨_, product, ?_⟩
                rw [symbolicKeys_append, keys]

theorem MonomialForm.Shows.splitCoefficient (shows : form.Shows tree) :
    (splitCoefficient tree).Ensures fun parts => ∃ rest : MonomialForm, rest.Shows parts.2 ∧
      rest.key = form.key := by
  cases shows with
  | whole numerator =>
      cases numerator with
      | product product =>
          refine product.splitCoefficient.mono ?_
          rintro _ ⟨others, product, keys⟩
          refine ⟨⟨others, []⟩, .whole (.product product), ?_⟩
          rw [key_eq_head, key_eq_head, keys]
      | one => exact .pure ⟨_, .whole .one, rfl⟩
  | quotient numerator product => exact .pure ⟨_, .quotient numerator product, rfl⟩

theorem isNegativeNumber_of_symbolic (symbolic : (!tree.isNumber) = true) :
    tree.isNegativeNumber = false := by
  have none : tree.asNumber? = none := by simpa [isNumber] using symbolic
  rw [isNegativeNumber, none, Option.any_none]

/-- Only a number that stands alone shows a minus sign. -/
theorem Expr.HasFactors.negated_fails (product : tree.HasFactors factors)
    (unsigned : tree.isNegativeNumber = false) :
    (negated kernel tree).Ensures allowed fun _ => False := by
  induction product with
  | factor shows =>
      cases shows with
      | number =>
          rw [negated, if_neg]
          · exact .failure
          · exact Bool.eq_false_iff.mp unsigned
      | var | power => exact .failure
  | @mul factors factor left right mark product shows ih =>
      have noSign : ∀ operand mark, right ≠ .unary .neg operand mark := by
        rintro operand mark rfl
        cases shows
      rw [negated]
      · refine .orElse (.bind .guarded fun _ symbolic => .bind_none (ih ?_)) .failure
        exact isNegativeNumber_of_symbolic symbolic
      · exact noSign

theorem MonomialForm.Shows.negated_fails (shows : form.Shows tree)
    (unsigned : tree.isNegativeNumber = false) :
    (negated kernel tree).Ensures allowed fun _ => False := by
  cases shows with
  | whole numerator =>
      cases numerator with
      | product product => exact product.negated_fails unsigned
      | one => exact .failure
  | @quotient _ _ left _ _ numerator _ =>
      have fails (symbolic : (!left.isNumber) = true) :
          (negated kernel left).Ensures allowed fun _ => False := by
        cases numerator with
        | product product =>
            exact product.negated_fails (isNegativeNumber_of_symbolic symbolic)
        | one => cases symbolic
      rw [negated]
      exact .bind .guarded fun _ symbolic => .bind_none (fails symbolic)

/-- A number that can be added, or a variable, power, product or quotient. -/
inductive Expr.IsAddendTree : Expr → Prop where
  | number {value : Number} {mark : Mark} : value.isNaN = false → value.isZero = false →
      value.isNegative = false → IsAddendTree (.number value mark)
  | var {name : String} {mark : Mark} : IsAddendTree (.var name mark)
  | arith {op : ArithOp} {left right : Expr} {mark : Mark} : Chain.of? op ≠ some .additive →
      IsAddendTree (.arith op left right mark)

theorem MonomialForm.Shows.isAddendTree (shows : form.Shows tree) (isAddend : form.IsAddend) :
    tree.IsAddendTree ∧ (tree.isConstant = true → form.key = .numeric) := by
  cases isAddend with
  | number defined nonzero notNegative =>
      cases (shows.hasFactors (List.cons_ne_nil _ _)).shows
      exact ⟨.number defined nonzero notNegative, fun _ => rfl⟩
  | monomial settled symbolic =>
      rcases shows.shape with ⟨_, _, rfl⟩ | ⟨_, _, rfl⟩ | ⟨_, _, _, _, rfl, family⟩
      · exact absurd (shows.key.symm.trans rfl) symbolic
      · exact ⟨.var, fun constant => absurd constant Bool.false_ne_true⟩
      · exact ⟨.arith family, fun constant => absurd constant Bool.false_ne_true⟩

namespace Expr.IsAddendTree

theorem plain (isAddend : tree.IsAddendTree) :
    tree.isError = false ∧ tree.asArray? = none ∧ tree.isZero = false := by
  cases isAddend with
  | number defined nonzero _ => exact ⟨isError_of_defined defined, rfl, nonzero⟩
  | var | arith => exact ⟨rfl, rfl, rfl⟩

theorem isNegativeNumber (isAddend : tree.IsAddendTree) : tree.isNegativeNumber = false := by
  cases isAddend with
  | number _ _ notNegative => exact notNegative
  | var | arith => rfl

theorem fillAdditive (isAddend : tree.IsAddendTree) (terms : Terms) :
    fillAdditive tree terms = pure (terms.push tree) := by
  cases isAddend with
  | number | var => rfl
  | @arith op _ _ _ family => cases op <;> first | rfl | exact absurd rfl family

theorem flipped (isAddend : tree.IsAddendTree) : flipped .additive tree = failure := by
  cases isAddend with
  | number _ _ notNegative => exact if_neg (Bool.eq_false_iff.mp notNegative)
  | var | arith => rfl

end Expr.IsAddendTree

end Single

/-! ## Sums -/

section Sums

variable {kernel : Kernel} {allowed : Step → Prop} {added subtracted : List MonomialForm}
  {form : MonomialForm} {tree left right : Expr} {up down : List Expr}

theorem Expr.HasTerms.plain (terms : tree.HasTerms added subtracted)
    (isAddend : ∀ form ∈ added ++ subtracted, form.IsAddend) :
    tree.isError = false ∧ tree.asArray? = none ∧ tree.isZero = false ∧
      (tree.isConstant = true → ∃ form ∈ added ++ subtracted, form.key = .numeric) := by
  cases terms with
  | @term form _ shows =>
      have ⟨addendTree, constant⟩ := shows.isAddendTree (isAddend form List.mem_cons_self)
      have ⟨noError, noArray, nonzero⟩ := addendTree.plain
      exact ⟨noError, noArray, nonzero, fun isConstant =>
        ⟨form, List.mem_cons_self, constant isConstant⟩⟩
  | neg | add | sub =>
      exact ⟨rfl, rfl, rfl, fun constant => absurd constant Bool.false_ne_true⟩

/-- A sum and a monomial of another key do not agree. -/
theorem Expr.HasTerms.beq_eq_false (terms : left.HasTerms added subtracted)
    (shows : form.Shows right) (fresh : form.key ∉ (added ++ subtracted).map MonomialForm.key) :
    (left == right) = false := by
  cases terms with
  | term termShows =>
      refine Bool.eq_false_iff.mpr fun equal => fresh ?_
      rw [← termShows.key_eq_of_beq shows equal]
      exact List.mem_cons_self
  | neg => rcases shows.shape with ⟨_, _, rfl⟩ | ⟨_, _, rfl⟩ | ⟨_, _, _, _, rfl, _⟩ <;> rfl
  | add | sub =>
      rcases shows.shape with ⟨_, _, rfl⟩ | ⟨_, _, rfl⟩ | ⟨op, _, _, _, rfl, family⟩
      · rfl
      · rfl
      · cases op <;> first | rfl | exact absurd rfl family

/-- A sum and a monomial of another key are no like terms. -/
theorem Expr.HasTerms.likeTerms_fails (terms : left.HasTerms added subtracted)
    (shows : form.Shows right) (fresh : form.key ∉ (added ++ subtracted).map MonomialForm.key)
    (subtract : Bool) : (likeTerms kernel subtract left right).Ensures allowed fun _ => False := by
  have leftSplits : (splitCoefficient left).Ensures fun parts =>
      ∃ added subtracted, parts.2.HasTerms added subtracted ∧
        form.key ∉ (added ++ subtracted).map MonomialForm.key := by
    cases terms with
    | term termShows =>
        refine termShows.splitCoefficient.mono ?_
        rintro _ ⟨rest, restShows, key⟩
        refine ⟨[rest], [], .term restShows, ?_⟩
        rwa [List.append_nil, List.map_singleton, key]
    | neg termShows => exact .pure ⟨_, _, .neg termShows, fresh⟩
    | add terms termShows => exact .pure ⟨_, _, .add terms termShows, fresh⟩
    | sub terms termShows => exact .pure ⟨_, _, .sub terms termShows, fresh⟩
  refine .bind (.lift (.ofMarking leftSplits)) ?_
  rintro ⟨_, leftRest⟩ ⟨added, subtracted, restTerms, fresh⟩
  refine .bind (.lift (.ofMarking shows.splitCoefficient)) ?_
  rintro ⟨_, rightRest⟩ ⟨rest, restShows, key⟩
  have different : (leftRest.isNumber || leftRest != rightRest) = true := by
    rw [bne, restTerms.beq_eq_false restShows (key ▸ fresh), Bool.not_false, Bool.or_true]
  dsimp only
  rw [if_pos different]
  exact .failure

/-- No rule joins a settled sum and a further term. -/
theorem Expr.HasTerms.combine_fails (terms : left.HasTerms added subtracted)
    (shows : form.Shows right) (isAddend : ∀ form ∈ added ++ subtracted, form.IsAddend)
    (rightAddend : form.IsAddend)
    (fresh : form.key ∉ (added ++ subtracted).map MonomialForm.key) {op : ArithOp}
    (either : op = .add ∧ subtracted = [] ∨ op = .sub) :
    (combine kernel op left right).Ensures allowed fun _ => False := by
  have ⟨rightTree, rightConstant⟩ := shows.isAddendTree rightAddend
  have ⟨rightError, rightArray, rightNonzero⟩ := rightTree.plain
  have ⟨leftError, leftArray, leftNonzero, leftConstant⟩ := terms.plain isAddend
  have symbolic : left.isConstant = false ∨ right.isConstant = false := by
    by_contra constants
    rw [not_or, Bool.not_eq_false, Bool.not_eq_false] at constants
    obtain ⟨other, member, key⟩ := leftConstant constants.1
    rw [rightConstant constants.2, ← key] at fresh
    exact fresh (List.mem_map_of_mem member)
  have rightUnsigned : (negated kernel right).Ensures allowed fun _ => False :=
    shows.negated_fails rightTree.isNegativeNumber
  rw [combine_eq_identities ⟨leftError, rightError⟩ ⟨leftArray, rightArray⟩ symbolic]
  rcases either with ⟨rfl, noneSubtracted⟩ | rfl
  · have leftUnsigned : (negated kernel left).Ensures allowed fun _ => False := by
      cases terms with
      | term leftShows =>
          have leftTree := (leftShows.isAddendTree (isAddend _ List.mem_cons_self)).1
          exact leftShows.negated_fails leftTree.isNegativeNumber
      | neg => cases noneSubtracted
      | add | sub => exact .failure
    simp only [identities, addIdentities, leftNonzero, rightNonzero, Bool.false_eq_true, if_false]
    exact .orElse (terms.likeTerms_fails shows fresh false)
      (.orElse rightUnsigned.bind_none
        leftUnsigned.bind_none)
  · simp only [identities, subIdentities, leftNonzero, rightNonzero,
      terms.beq_eq_false shows fresh, Bool.false_eq_true, if_false]
    exact .orElse (terms.likeTerms_fails shows fresh true)
      rightUnsigned.bind_none

/-- The terms of a sum are listed behind those already there. -/
theorem Expr.HasTerms.fillAdditive (terms : tree.HasTerms added subtracted)
    (isAddend : ∀ form ∈ added ++ subtracted, form.IsAddend) :
    ∃ up down, List.Forall₂ MonomialForm.Shows added up ∧
      List.Forall₂ MonomialForm.Shows subtracted down ∧ ∀ listed : Terms,
        fillAdditive tree listed = pure ⟨listed.up ++ up, listed.down ++ down⟩ := by
  have single {form : MonomialForm} {tree : Expr} (shows : form.Shows tree)
      (isAddend : form.IsAddend) (listed : Terms) :=
    (shows.isAddendTree isAddend).1.fillAdditive listed
  induction terms with
  | @term form tree shows =>
      refine ⟨[tree], [], .cons shows .nil, .nil, fun listed => ?_⟩
      rw [single shows (isAddend _ List.mem_cons_self), List.append_nil]
      rfl
  | @neg form tree mark shows =>
      refine ⟨[], [tree], .nil, .cons shows .nil, fun listed => ?_⟩
      rw [SymbolicAlgebra.fillAdditive, single shows (isAddend _ List.mem_cons_self),
        List.append_nil]
      rfl
  | @add added form left right mark terms shows ih =>
      simp only [List.append_nil, List.forall_mem_append, List.forall_mem_singleton] at isAddend ih
      obtain ⟨up, down, upShown, downShown, fills⟩ := ih isAddend.1
      cases downShown
      refine ⟨up ++ [right], [], List.rel_append upShown (.cons shows .nil), .nil, fun listed => ?_⟩
      rw [SymbolicAlgebra.fillAdditive, fills]
      change SymbolicAlgebra.fillAdditive right _ = _
      rw [single shows isAddend.2, Terms.push, List.append_assoc]
  | @sub added subtracted form left right mark terms shows ih =>
      rw [← List.append_assoc, List.forall_mem_append, List.forall_mem_singleton] at isAddend
      obtain ⟨up, down, upShown, downShown, fills⟩ := ih isAddend.1
      refine ⟨up, down ++ [right], upShown, List.rel_append downShown (.cons shows .nil),
        fun listed => ?_⟩
      rw [SymbolicAlgebra.fillAdditive, fills]
      change (SymbolicAlgebra.fillAdditive right (Terms.swap ⟨listed.up ++ up, listed.down ++ down⟩)
        >>= fun terms => pure terms.swap) = _
      rw [single shows isAddend.2, ← List.append_assoc]
      rfl

theorem foldAdditive_hasTerms (upShown : List.Forall₂ MonomialForm.Shows added up)
    (downShown : List.Forall₂ MonomialForm.Shows subtracted down)
    (nonempty : added ≠ [] ∨ subtracted ≠ []) :
    (foldAdditive ⟨up.reverse, down.reverse⟩).Ensures (HasTerms added subtracted) := by
  have addends : (foldReversed? .add up.reverse).Ensures fun folded =>
      (folded = none ∧ added = []) ∨ ∃ tree, folded = some tree ∧ tree.HasTerms added [] :=
    foldReversed?_reads (fun added => HasTerms added []) .term
      (fun _ terms shows => .add terms shows) upShown
  have subtracts {first : List MonomialForm} {start : Expr} {forms : List MonomialForm}
      {terms : List Expr} (starts : start.HasTerms added first)
      (shown : List.Forall₂ MonomialForm.Shows forms terms) :
      (foldBack .sub start terms.reverse).Ensures (HasTerms added (first ++ forms)) :=
    foldBack_reads (HasTerms added) (fun _ terms shows => .sub terms shows) starts shown
  refine .bind addends ?_
  rintro _ (⟨rfl, rfl⟩ | ⟨sum, rfl, terms⟩)
  · cases downShown with
    | nil => simp at nonempty
    | @cons form last forms rest shows shown =>
        rw [List.reverse_cons, List.getLast?_concat]
        have negation : (Expr.make (.unary .neg last)).Ensures (HasTerms [] [form]) :=
          .make fun mark => .neg shows
        refine .bind negation fun first terms => ?_
        rw [List.dropLast_concat]
        exact subtracts terms shown
  · exact subtracts terms downShown

/-- The terms of a settled sum are collected to it. -/
theorem collect_settledTerms (settled : SettledTerms added subtracted)
    (nonempty : added ≠ [] ∨ subtracted ≠ [])
    (upShown : List.Forall₂ MonomialForm.Shows added up)
    (downShown : List.Forall₂ MonomialForm.Shows subtracted down) :
    (collect kernel .additive ⟨up, down⟩).Ensures allowed (HasTerms added subtracted) := by
  have shown := List.rel_append upShown downShown
  have upKeys : up.map (TermKey.of .additive) = added.map MonomialForm.key :=
    map_eq_of_forall₂ (fun shows => shows.key) upShown
  have downKeys : down.map (TermKey.of .additive) = subtracted.map MonomialForm.key :=
    map_eq_of_forall₂ (fun shows => shows.key) downShown
  have addendTrees : ∀ term ∈ up ++ down, term.IsAddendTree :=
    forall_of_forall₂ shown settled.isAddend fun shows isAddend => (shows.isAddendTree isAddend).1
  have distinct : DistinctKeys .additive (up ++ down) := by
    rw [DistinctKeys, List.map_append, upKeys, downKeys, ← List.map_append]
    exact settled.distinct
  refine collect_sum (settle_distinct distinct fun term member =>
    (addendTrees term member).flipped) ?_
  rintro _ rfl
  have kept {terms : List Expr} (within : terms ⊆ up ++ down) :
      terms.reverse.filter (!Chain.additive.isNeutral ·) = terms.reverse :=
    List.filter_eq_self.mpr fun term member =>
      congrArg not (addendTrees term (within (List.mem_reverse.mp member))).plain.2.2
  simp only [sortTerms_eq_reverse (upKeys ▸ settled.addedInOrder),
    sortTerms_eq_reverse (downKeys ▸ settled.subtractedInOrder),
    kept (List.subset_append_left up down), kept (List.subset_append_right up down)]
  exact foldAdditive_hasTerms upShown downShown nonempty

/-- Where no rule applies, the operands list the terms of the sum, and it is built or
collected. -/
theorem applyBinary_settledTerms {op : ArithOp} (settled : SettledTerms added subtracted)
    (nonempty : added ≠ [] ∨ subtracted ≠ []) (family : Chain.of? op = some .additive)
    (fails : (combine kernel op left right).Ensures allowed fun _ => False)
    (fills : fillOperands .additive op left right .empty = pure ⟨up, down⟩)
    (upShown : List.Forall₂ MonomialForm.Shows added up)
    (downShown : List.Forall₂ MonomialForm.Shows subtracted down)
    (built : ∀ mark, HasTerms added subtracted (.arith op left right mark)) :
    (applyBinary kernel op left right).Ensures allowed (HasTerms added subtracted) := by
  refine fails.run_none ?_
  by_cases enough : Chain.additive.shouldCollect up.length down.length = true
  · exact collectOrBuild_collects _ family fills enough
      (collect_settledTerms settled nonempty upShown downShown)
  · exact collectOrBuild_builds _ family fills (Bool.eq_false_iff.mpr enough) built

/-- The last key is a new one. -/
theorem fresh_of_nodup {forms : List MonomialForm}
    (distinct : ((forms ++ [form]).map MonomialForm.key).Nodup) :
    form.key ∉ forms.map MonomialForm.key := by
  rw [List.map_append, List.map_singleton, ← List.concat_eq_append, List.nodup_concat] at distinct
  exact distinct.1

theorem arithmetic_add_settled (settled : SettledTerms (added ++ [form]) [])
    (terms : left.HasTerms added []) (shows : form.Shows right) :
    (arithmetic .add left right).Ensures allowed (HasTerms (added ++ [form]) []) := by
  obtain ⟨depth, engine⟩ := arithmetic_eq_applyBinary .add left right
  have ⟨isAddend, distinct, _, _, _⟩ := settled
  rw [List.append_nil] at isAddend distinct
  have ⟨leftAddends, rightAddend⟩ := List.forall_mem_append.mp isAddend
  rw [List.forall_mem_singleton] at rightAddend
  have fails : (combine (.ofDepth depth) .add left right).Ensures allowed fun _ => False :=
    terms.combine_fails shows (by rwa [List.append_nil]) rightAddend
      (by rw [List.append_nil]; exact fresh_of_nodup distinct) (.inl ⟨rfl, rfl⟩)
  obtain ⟨up, _, upShown, ⟨⟩, leftFills⟩ := terms.fillAdditive (by rwa [List.append_nil])
  have fills : fillOperands .additive .add left right .empty = pure ⟨up ++ [right], []⟩ := by
    rw [fillOperands, fill, leftFills]
    exact (shows.isAddendTree rightAddend).1.fillAdditive _
  rw [engine]
  exact applyBinary_settledTerms settled (.inl (by simp)) rfl fails fills
    (List.rel_append upShown (.cons shows .nil)) .nil fun mark => .add terms shows

theorem arithmetic_sub_settled (settled : SettledTerms added (subtracted ++ [form]))
    (terms : left.HasTerms added subtracted) (shows : form.Shows right) :
    (arithmetic .sub left right).Ensures allowed (HasTerms added (subtracted ++ [form])) := by
  obtain ⟨depth, engine⟩ := arithmetic_eq_applyBinary .sub left right
  have ⟨isAddend, distinct, _, _, _⟩ := settled
  rw [← List.append_assoc] at isAddend distinct
  have ⟨leftAddends, rightAddend⟩ := List.forall_mem_append.mp isAddend
  rw [List.forall_mem_singleton] at rightAddend
  obtain ⟨up, down, upShown, downShown, leftFills⟩ := terms.fillAdditive leftAddends
  have fills : fillOperands .additive .sub left right .empty = pure ⟨up, down ++ [right]⟩ := by
    rw [fillOperands, fill, leftFills]
    change (fillAdditive right ⟨down, up⟩ >>= fun terms => pure terms.swap) = _
    rw [(shows.isAddendTree rightAddend).1.fillAdditive]
    rfl
  rw [engine]
  exact applyBinary_settledTerms settled (.inr (by simp)) rfl
    (terms.combine_fails shows leftAddends rightAddend (fresh_of_nodup distinct) (.inr rfl)) fills
    upShown (List.rel_append downShown (.cons shows .nil)) fun mark => .sub terms shows

/-! ### A negated term -/

theorem Factor.not_readBefore_numeric (factor : Factor) : ¬ factor.key.ReadBefore .numeric := by
  intro before
  cases factor <;> cases before

/-- A product with two numeric operands at most takes the sign into its number. -/
theorem Expr.HasFactors.negateByForm_fails {factors : List Factor}
    (product : tree.HasFactors factors)
    (settled : MonomialForm.IsSettled ⟨factors, []⟩)
    (keeps : ¬ MonomialForm.TakesSign ⟨factors, []⟩) :
    (negateByForm kernel tree).Ensures allowed fun _ => False := by
  cases product with
  | factor shows => cases shows <;> exact .failure
  | @mul factors factor left right mark product shows =>
      have leftSymbolic : left.asNumber? = none := by
        cases product with
        | factor leftShows =>
            cases leftShows with
            | number => exact absurd ⟨rfl, le_refl 2, _, List.mem_cons_self, rfl⟩ keeps
            | var | power => rfl
        | mul => rfl
      have rightSymbolic : right.asNumber? = none := by
        cases shows with
        | @number value =>
            have member : Factor.number value ∈ factors ++ [.number value] := by simp
            have several : 2 < (factors ++ [Factor.number value]).length :=
              Nat.lt_of_not_le fun few => keeps ⟨rfl, few, _, member, rfl⟩
            have inOrder := settled.ordered.resolve_left (by
              change ¬ max (factors ++ [Factor.number value]).length 1 + 0 ≤ 2
              omega)
            obtain ⟨first, firstMember⟩ := List.exists_mem_of_ne_nil _ product.ne_nil
            have before := inOrder.1
            rw [List.map_append, List.pairwise_append] at before
            exact absurd (before.2.2 _ (List.mem_map_of_mem firstMember) .numeric
              List.mem_cons_self) first.not_readBefore_numeric
        | var | power => rfl
      rw [negateByForm, leftSymbolic, rightSymbolic]
      exact .failure

/-- A term that does not take the sign is left below it. -/
theorem neg_settled (isAddend : form.IsAddend) (keeps : ¬ form.TakesSign)
    (shows : form.Shows tree) : tree.neg.Ensures allowed (HasTerms [] [form]) := by
  obtain ⟨depth, engine⟩ := neg_eq_applyNegation tree
  have addendTree := (shows.isAddendTree isAddend).1
  have ⟨noError, noArray, _⟩ := addendTree.plain
  obtain ⟨settled, noNumber, noText⟩ :
      form.IsSettled ∧ tree.toNumber? = none ∧ tree.isTextual = false := by
    cases isAddend with
    | number => exact absurd ⟨rfl, Nat.le_succ 1, _, List.mem_singleton_self _, rfl⟩ keeps
    | monomial settled symbolic =>
        rcases shows.shape with ⟨_, _, rfl⟩ | ⟨_, _, rfl⟩ | ⟨_, _, _, _, rfl, _⟩
        · exact absurd (shows.key.symm.trans rfl) symbolic
        · exact ⟨settled, rfl, rfl⟩
        · exact ⟨settled, rfl, rfl⟩
  have byForm : (negateByForm (.ofDepth depth) tree).Ensures allowed fun _ => False := by
    cases shows with
    | whole numerator =>
        cases numerator with
        | product product => exact product.negateByForm_fails settled keeps
        | one => exact .failure
    | quotient => exact .failure
  have bySign : (negated (.ofDepth depth) tree).Ensures allowed fun _ => False :=
    shows.negated_fails addendTree.isNegativeNumber
  rw [engine, applyNegation, noError, noNumber, noArray, noText]
  have filled : Traced.Ensures allowed (do return (← fillAdditive tree Terms.empty.swap).swap)
      (· = ⟨[], [tree]⟩) := by
    rw [addendTree.fillAdditive]
    exact .bind (.pure rfl) fun _ same => .pure (same ▸ rfl)
  refine (byForm.orElse bySign).run_none (collectFilled_ensures filled ?_)
  rintro _ rfl
  exact .make fun mark => .neg shows

end Sums

/-! ## Settled sums are final -/

section Evaluation

variable {controller : Option Controller} {allowed : Step → Prop} {fuel : Nat}
  {added subtracted : List MonomialForm} {form : MonomialForm} {tree : Expr}

theorem addend_evaluateTo (shows : form.Shows tree) (isAddend : form.IsAddend)
    (enough : tree.size ≤ fuel) :
    (evaluateTo controller fuel tree).Finishes allowed .empty form.Shows := by
  cases isAddend with
  | number =>
      cases (shows.hasFactors (List.cons_ne_nil _ _)).shows
      exact evaluateTo_leaf rfl enough shows
  | monomial settled => exact shows.evaluateTo settled enough

/-- The sum before its last subtrahend is settled. -/
theorem SettledTerms.init (settled : SettledTerms added (subtracted ++ [form])) :
    SettledTerms added subtracted := by
  have ⟨isAddend, distinct, addedInOrder, subtractedInOrder, head⟩ := settled
  rw [← List.append_assoc] at isAddend distinct
  refine ⟨fun form member => isAddend form (List.mem_append_left _ member), ?_, addedInOrder, ?_,
    fun none first isHead => head none first ?_⟩
  · exact distinct.sublist ((List.sublist_append_left _ _).map _)
  · exact subtractedInOrder.sublist ((List.sublist_append_left _ _).map _)
  · rw [List.head?_append, isHead, Option.some_or]

/-- The sum before its last addend is settled. -/
theorem SettledTerms.initAdded (settled : SettledTerms (added ++ [form]) [])
    (nonempty : added ≠ []) : SettledTerms added [] := by
  have ⟨isAddend, distinct, addedInOrder, subtractedInOrder, _⟩ := settled
  have fewer : (added ++ []).Sublist (added ++ [form] ++ []) :=
    (List.sublist_append_left _ _).append (List.Sublist.refl _)
  refine ⟨fun form member => isAddend form (fewer.subset member),
    distinct.sublist (fewer.map _), ?_,
    subtractedInOrder, fun none => absurd none nonempty⟩
  exact addedInOrder.sublist ((List.sublist_append_left _ _).map _)

theorem Expr.HasTerms.ne_nil (terms : tree.HasTerms added subtracted) :
    subtracted = [] → added ≠ [] := by
  cases terms with
  | term => exact fun _ => List.cons_ne_nil _ _
  | neg => exact fun none => absurd none (List.cons_ne_nil _ _)
  | add => simp
  | sub => simp

/-- Evaluating a settled sum makes its nodes anew. -/
theorem Expr.HasTerms.evaluateTo (terms : tree.HasTerms added subtracted)
    (settled : SettledTerms added subtracted) (enough : tree.size ≤ fuel) :
    (evaluateTo controller fuel tree).Finishes allowed .empty (HasTerms added subtracted) := by
  induction terms generalizing fuel with
  | term shows =>
      have isAddend := settled.isAddend _ List.mem_cons_self
      exact (addend_evaluateTo shows isAddend enough).mono fun _ => .term
  | @neg form operand mark shows =>
      obtain ⟨fuel, rfl⟩ := fuel_eq_succ enough
      rw [size_unary] at enough
      have isAddend := settled.isAddend form List.mem_cons_self
      have keeps := settled.head rfl form rfl
      refine (Evaluation.Finishes.bind (addend_evaluateTo shows isAddend (by omega)) fun operand =>
        .ofTraced (neg_settled isAddend keeps))
  | @add added form left right mark terms shows ih =>
      obtain ⟨fuel, rfl⟩ := fuel_eq_succ enough
      rw [size_arith] at enough
      have isAddend := settled.isAddend form (by simp)
      refine .ofTraced₂ (ih (settled.initAdded (terms.ne_nil rfl)) (by omega))
        (addend_evaluateTo shows isAddend (by omega)) ?_
      exact fun _ _ terms shows => arithmetic_add_settled settled terms shows
  | @sub added subtracted form left right mark terms shows ih =>
      obtain ⟨fuel, rfl⟩ := fuel_eq_succ enough
      rw [size_arith] at enough
      have isAddend := settled.isAddend form (by simp)
      refine .ofTraced₂ (ih settled.init (by omega))
        (addend_evaluateTo shows isAddend (by omega)) ?_
      exact fun _ _ terms shows => arithmetic_sub_settled settled terms shows

end Evaluation

end SymbolicAlgebra

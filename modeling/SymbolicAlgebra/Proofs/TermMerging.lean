import SymbolicAlgebra.Proofs.TermOrder

/-!
# Merging terms by their keys

Collection sorts the terms of a chain and merges those of one key.  Terms that agree have
one key.  Terms of different keys are only sorted: nothing absorbs them, nothing cancels
against them, and where none of them reads better on the other side, both lists come out in
order.

Where two terms of one key always merge to a term of this key, tidying leaves one term of
each key.  A property of lists that does not depend on the order and that merging keeps
holds of what is left.
-/

namespace SymbolicAlgebra

variable {kernel : Kernel} {allowed : Step → Prop} {chain : Chain} {term nearest : Expr}
  {terms others before rest up down : List Expr}

theorem sameKey_iff :
    sameKey chain nearest term = true ↔ TermKey.of chain nearest = TermKey.of chain term := by
  rw [sameKey, beq_iff_eq, TermKey.compare_eq_iff]

/-! ## Keys of trees that agree -/

section Agreement

open SymbolicAlgebra.Expr TermKey

variable {left right : Expr}

theorem Expr.agree_arith {op otherOp : ArithOp} {otherLeft otherRight : Expr}
    {mark otherMark : Mark} :
    agree (.arith op left right mark) (.arith otherOp otherLeft otherRight otherMark) = true ↔
      op = otherOp ∧ agree left otherLeft = true ∧ agree right otherRight = true := by
  simp only [agree, Bool.and_eq_true, beq_iff_eq, and_assoc]

theorem TermKey.of_additive (tree : Expr) : TermKey.of .additive tree =
    (((factors tree).map ofFactor).find? (· ≠ .numeric)).getD .numeric := by
  by_cases product : ∃ left right mark, tree = .arith .mul left right mark
  · obtain ⟨left, right, mark, rfl⟩ := product
    rfl
  · have single : ∀ left right mark, tree ≠ .arith .mul left right mark :=
      fun left right mark same => product ⟨left, right, mark, same⟩
    rw [TermKey.of, factors.eq_2 tree single, List.map_singleton]
    · by_cases numeric : ofFactor tree = .numeric
      · simp [numeric]
      · simp [numeric]
    · exact fun left right mark _ => single left right mark

theorem TermKey.ofFactor_eq_of_agree (equal : agree left right = true) :
    ofFactor left = ofFactor right := by
  cases left with
  | arith op first second mark =>
      cases right with
      | arith otherOp otherFirst otherSecond otherMark =>
          obtain ⟨rfl, firstEqual, _⟩ := agree_arith.mp equal
          cases op with
          | pow =>
              cases first <;> cases otherFirst <;> first
                | rfl
                | cases firstEqual
                | simpa [agree, ofFactor] using firstEqual
          | _ => rfl
      | _ => cases equal
  | _ => cases right <;> first | rfl | cases equal | simp_all [agree, ofFactor]

theorem TermKey.factors_eq_of_agree (equal : agree left right = true) :
    (factors left).map ofFactor = (factors right).map ofFactor := by
  induction left using factors.induct generalizing right with
  | case1 first second mark firstIH secondIH =>
      cases right with
      | arith =>
          obtain ⟨rfl, firstEqual, secondEqual⟩ := agree_arith.mp equal
          rw [factors, factors, List.map_append, List.map_append, firstIH firstEqual,
            secondIH secondEqual]
      | _ => cases equal
  | case2 left single =>
      have otherSingle : ∀ first second mark, right ≠ .arith .mul first second mark := by
        rintro first second mark rfl
        cases left with
        | arith =>
            obtain ⟨rfl, _⟩ := agree_arith.mp equal
            exact single _ _ _ rfl
        | _ => cases equal
      rw [factors.eq_2 _ single, factors.eq_2 _ otherSingle, List.map_singleton,
        List.map_singleton, ofFactor_eq_of_agree equal]

/-- Trees that agree belong to one key. -/
theorem TermKey.of_eq_of_beq (equal : (left == right) = true) :
    TermKey.of chain left = TermKey.of chain right := by
  cases chain with
  | additive => rw [of_additive, of_additive, factors_eq_of_agree equal]
  | multiplicative => exact ofFactor_eq_of_agree equal

end Agreement

/-! ## Sorting what is in order -/

/-- Only the keys matter for the order. -/
theorem inTermOrder_iff : InTermOrder chain terms ↔
    (terms.map (TermKey.of chain)).Pairwise fun first second =>
      (first.compare second).isLE = true := by
  rw [List.pairwise_map]

theorem sortTerms_of_sorted (sorted : InTermOrder chain terms) :
    sortTerms chain terms = terms :=
  (eq_sortTerms sorted fun _ => rfl).symm

@[simp] theorem sortTerms_sortTerms :
    sortTerms chain (sortTerms chain terms) = sortTerms chain terms :=
  sortTerms_of_sorted (sortTerms_sorted chain terms)

/-- A term goes behind all terms that a collected chain reads after it. -/
theorem insertTerm_eq_append
    (before : ∀ other ∈ terms, (TermKey.of chain term).ReadBefore (TermKey.of chain other)) :
    insertTerm chain term terms = terms ++ [term] := by
  induction terms with
  | nil => rfl
  | cons other rest ih =>
      rw [List.forall_mem_cons] at before
      rw [insertTerm, if_pos (beq_iff_eq.mpr before.1), ih before.2, List.cons_append]

/-- Terms in the order of reading are turned around, since a chain is read from the end. -/
theorem sortTerms_eq_reverse
    (inOrder : (terms.map (TermKey.of chain)).Pairwise TermKey.ReadBefore) :
    sortTerms chain terms = terms.reverse := by
  induction terms with
  | nil => rfl
  | cons term terms ih =>
      have ⟨before, rest⟩ := List.pairwise_cons.mp inOrder
      rw [sortTerms, List.foldr_cons, ← sortTerms, ih rest, List.reverse_cons]
      refine insertTerm_eq_append fun other member => before _ ?_
      exact List.mem_map_of_mem (List.mem_reverse.mp member)

/-! ## Terms of different keys -/

/-- The terms have different keys. -/
def DistinctKeys (chain : Chain) (terms : List Expr) : Prop :=
  (terms.map (TermKey.of chain)).Nodup

theorem DistinctKeys.perm (distinct : DistinctKeys chain terms) (permuted : others.Perm terms) :
    DistinctKeys chain others :=
  (permuted.map _).nodup_iff.mpr distinct

theorem DistinctKeys.sorted (distinct : DistinctKeys chain terms) :
    DistinctKeys chain (sortTerms chain terms) :=
  distinct.perm (sortTerms_perm chain terms)

/-- Read from the end, sorted terms of different keys come in the order of reading. -/
theorem DistinctKeys.readBefore (distinct : DistinctKeys chain terms) :
    ((sortTerms chain terms).reverse.map (TermKey.of chain)).Pairwise TermKey.ReadBefore := by
  have inOrder := (List.pairwise_map.mp distinct.sorted).and (sortTerms_sorted chain terms)
  rw [List.pairwise_map, List.pairwise_reverse]
  refine inOrder.imp fun {first second} holds => ?_
  obtain ⟨different, notAfter⟩ := holds
  rw [Ordering.isLE_iff_eq_lt_or_eq_eq] at notAfter
  rcases notAfter with before | same
  · rw [TermKey.ReadBefore, TermKey.compare_swap, Ordering.swap_eq_gt]
    exact before
  · exact absurd (TermKey.compare_eq_iff.mp same) different

/-- Terms of different keys are not merged. -/
theorem mergeRuns_distinct (distinct : DistinctKeys chain (before.reverse ++ terms)) :
    (mergeRuns kernel chain before terms).Ensures allowed (· = before.reverse ++ terms) := by
  induction terms generalizing before with
  | nil => exact .pure (List.append_nil _).symm
  | cons term rest ih =>
      have fails : (absorb kernel chain term before).Ensures allowed fun _ => False := by
        cases before with
        | nil => exact .failure
        | cons nearest before =>
            -- Only the term kept last could absorb this one, and its key is another.
            have apart := (List.pairwise_append.mp (List.pairwise_map.mp distinct)).2.2
              nearest (by simp) term (by simp)
            rw [absorb, if_neg (sameKey_iff.not.mpr apart)]
            exact .failure
      refine fails.run_none ?_
      have moved : (term :: before).reverse ++ rest = before.reverse ++ term :: rest := by simp
      rw [← moved] at distinct ⊢
      exact ih distinct

theorem tidy_distinct (distinct : DistinctKeys chain terms) :
    (tidy kernel chain terms).Ensures allowed (· = sortTerms chain terms) :=
  mergeRuns_distinct distinct.sorted

theorem tidyBoth_distinct (upDistinct : DistinctKeys chain up)
    (downDistinct : DistinctKeys chain down) :
    (tidyBoth kernel chain ⟨up, down⟩).Ensures allowed
      (· = ⟨sortTerms chain up, sortTerms chain down⟩) := by
  refine .bind (tidy_distinct upDistinct) ?_
  rintro _ rfl
  refine .bind (tidy_distinct downDistinct) ?_
  rintro _ rfl
  exact .pure rfl

theorem cancelOne_apart
    (apart : ∀ candidate ∈ terms, TermKey.of chain candidate ≠ TermKey.of chain term) :
    (cancelOne kernel chain term terms).Ensures allowed fun _ => False := by
  induction terms with
  | nil => exact .failure
  | cons candidate rest ih =>
      rw [List.forall_mem_cons] at apart
      rw [cancelOne]
      refine .orElse (.bind .guarded fun _ same => ?_) (.bind (ih apart.2)
        fun _ impossible => impossible.elim)
      exact absurd (sameKey_iff.mp same) apart.1

/-- Inverse terms of other keys than the positive ones are not cancelled. -/
theorem cancel_apart (apart : ∀ term ∈ down, ∀ candidate ∈ up,
      TermKey.of chain candidate ≠ TermKey.of chain term) :
    (cancel kernel chain up down).Ensures allowed (· = ⟨up, down⟩) := by
  induction down with
  | nil => exact .pure rfl
  | cons term rest ih =>
      rw [List.forall_mem_cons] at apart
      refine (cancelOne_apart apart.1).run_none ?_
      refine .bind (ih apart.2) ?_
      rintro _ rfl
      exact .pure rfl

theorem splitFlipped_stays (stay : ∀ term ∈ terms, flipped chain term = failure) :
    (splitFlipped chain terms).Ensures allowed (· = (terms, [])) := by
  induction terms with
  | nil => exact .pure rfl
  | cons term terms ih =>
      rw [List.forall_mem_cons] at stay
      have stays : (flipped chain term).Ensures allowed fun _ => False := by
        rw [stay.1]
        exact .failure
      refine stays.run_none ?_
      refine .bind (ih stay.2) ?_
      rintro _ rfl
      exact .pure rfl

theorem balance_stays (upStay : ∀ term ∈ up, flipped chain term = failure)
    (downStay : ∀ term ∈ down, flipped chain term = failure) :
    (balance chain ⟨up, down⟩).Ensures allowed (· = ⟨up, down⟩) := by
  refine .bind (splitFlipped_stays upStay) ?_
  rintro _ rfl
  refine .bind (splitFlipped_stays downStay) ?_
  rintro _ rfl
  exact .pure (by simp)

/-- Terms of different keys that stay on their sides are only sorted. -/
theorem settle_distinct (distinct : DistinctKeys chain (up ++ down))
    (stay : ∀ term ∈ up ++ down, flipped chain term = failure) :
    (settle kernel chain ⟨up, down⟩).Ensures allowed
      (· = ⟨sortTerms chain up, sortTerms chain down⟩) := by
  rw [DistinctKeys, List.map_append, List.nodup_append'] at distinct
  obtain ⟨upDistinct, downDistinct, apart⟩ := distinct
  have upPerm := sortTerms_perm chain up
  have downPerm := sortTerms_perm chain down
  have sortedUp : DistinctKeys chain (sortTerms chain up) :=
    DistinctKeys.sorted upDistinct
  have sortedDown : DistinctKeys chain (sortTerms chain down) :=
    DistinctKeys.sorted downDistinct
  refine .bind (tidyBoth_distinct upDistinct downDistinct) ?_
  rintro _ rfl
  refine .bind (cancel_apart fun term member candidate candidateMember same => ?_) ?_
  · exact apart (List.mem_map_of_mem (upPerm.mem_iff.mp candidateMember))
      (same ▸ List.mem_map_of_mem (downPerm.mem_iff.mp member))
  rintro _ rfl
  -- The second pass sorts what is sorted.
  refine .bind (tidyBoth_distinct sortedUp sortedDown) ?_
  rintro _ rfl
  rw [sortTerms_sortTerms, sortTerms_sortTerms]
  rw [List.forall_mem_append] at stay
  refine .bind (balance_stays (fun term member => stay.1 term (upPerm.mem_iff.mp member))
    fun term member => stay.2 term (downPerm.mem_iff.mp member)) ?_
  rintro _ rfl
  exact .pure (by rw [sortTerms_sortTerms, sortTerms_sortTerms])

/-! ## Collecting -/

section Collecting

variable {Settled : Terms → Prop} {condition : Expr → Prop}

theorem collect_sum {listed : Terms}
    (settles : (settle kernel .additive listed).Ensures allowed Settled)
    (folds : ∀ settled, Settled settled →
      (foldAdditive ⟨settled.up.filter (!Chain.additive.isNeutral ·),
        settled.down.filter (!Chain.additive.isNeutral ·)⟩).Ensures condition) :
    (collect kernel .additive listed).Ensures allowed condition := by
  refine .bind .step fun _ _ => ?_
  refine .bind (.pure rfl : Traced.Ensures allowed (pullSigns .additive listed)
    (· = (listed, false))) ?_
  rintro _ rfl
  exact .bind settles fun settled holds => .ofMarking (folds settled holds)

theorem extractSigns_stays (unsigned : ∀ term ∈ terms, withoutSign term = failure) :
    (extractSigns terms).Ensures allowed (· = (terms, false)) := by
  induction terms with
  | nil => exact .pure rfl
  | cons term terms ih =>
      rw [List.forall_mem_cons] at unsigned
      have keeps : (withoutSign term).Ensures allowed fun _ => False := by
        rw [unsigned.1]
        exact .failure
      refine keeps.run_none ?_
      refine .bind (ih unsigned.2) ?_
      rintro _ rfl
      exact .pure rfl

/-- Factors are collected without their signs, and the sign of all of them comes back when
they are put together.  None of them comes to zero. -/
theorem collect_signed {listed : Terms} {Pulled : Terms × Bool → Prop}
    (pulls : (pullSigns .multiplicative listed).Ensures allowed Pulled)
    (settles : ∀ pulled, Pulled pulled →
      (settle kernel .multiplicative pulled.1).Ensures allowed Settled)
    (nonzero : ∀ settled, Settled settled → ∀ term ∈ settled.up, term.isZero = false)
    (folds : ∀ pulled settled, Pulled pulled → Settled settled →
      (foldMultiplicative kernel pulled.2 ⟨settled.up.filter (!Chain.multiplicative.isNeutral ·),
        settled.down.filter (!Chain.multiplicative.isNeutral ·)⟩).Ensures allowed condition) :
    (collect kernel .multiplicative listed).Ensures allowed condition := by
  refine .bind .step fun _ _ => .bind pulls fun pulled isPulled => ?_
  refine .bind (settles pulled isPulled) fun settled holds => ?_
  have noZero : settled.up.any Expr.isZero = false :=
    List.any_eq_false.mpr fun term member => by simp [nonzero settled holds term member]
  simp only [noZero, Bool.and_false, Bool.false_eq_true, if_false]
  exact folds pulled settled isPulled holds

/-- Factors without signs. -/
theorem collect_product (upUnsigned : ∀ term ∈ up, withoutSign term = failure)
    (downUnsigned : ∀ term ∈ down, withoutSign term = failure)
    (settles : (settle kernel .multiplicative ⟨up, down⟩).Ensures allowed Settled)
    (nonzero : ∀ settled, Settled settled → ∀ term ∈ settled.up, term.isZero = false)
    (folds : ∀ settled, Settled settled →
      (foldMultiplicative kernel false ⟨settled.up.filter (!Chain.multiplicative.isNeutral ·),
        settled.down.filter (!Chain.multiplicative.isNeutral ·)⟩).Ensures allowed condition) :
    (collect kernel .multiplicative ⟨up, down⟩).Ensures allowed condition := by
  have pulls : (pullSigns .multiplicative ⟨up, down⟩).Ensures allowed
      (· = (⟨up, down⟩, false)) := by
    refine .bind (extractSigns_stays upUnsigned) ?_
    rintro _ rfl
    refine .bind (extractSigns_stays downUnsigned) ?_
    rintro _ rfl
    exact .pure rfl
  refine collect_signed pulls ?_ nonzero ?_
  · rintro _ rfl
    exact settles
  · rintro _ settled rfl holds
    exact folds settled holds

end Collecting

/-! ## Terms of one key -/

/-- A property of lists that does not depend on the order and is kept when two terms of
one key are merged, which they always are. -/
structure MergeInvariant (kernel : Kernel) (allowed : Step → Prop) (chain : Chain)
    (Holds : List Expr → Prop) : Prop where
  perm : ∀ {terms others}, terms.Perm others → Holds terms → Holds others
  merges : ∀ {first second rest}, Holds (first :: second :: rest) →
    TermKey.of chain first = TermKey.of chain second →
      (mergePair kernel chain.op first second).Succeeds allowed fun merged =>
        TermKey.of chain merged = TermKey.of chain first ∧ Holds (merged :: rest)

/-- A term with another key than the one just before it has a key of its own. -/
theorem InTermOrder.not_mem
    (sorted : InTermOrder chain ((nearest :: before).reverse ++ term :: rest))
    (different : TermKey.of chain nearest ≠ TermKey.of chain term) :
    TermKey.of chain term ∉ (nearest :: before).map (TermKey.of chain) := by
  rw [InTermOrder, List.reverse_cons, List.append_assoc, List.pairwise_append] at sorted
  obtain ⟨_, following, earlier⟩ := sorted
  have atMost : (termOrder chain nearest term).isLE = true :=
    List.rel_of_pairwise_cons following List.mem_cons_self
  intro member
  obtain ⟨other, member, same⟩ := List.mem_map.mp member
  rcases List.mem_cons.mp member with rfl | member
  · exact different same
  · have atLeast := earlier other (List.mem_reverse.mpr member) nearest List.mem_cons_self
    rw [termOrder, same] at atLeast
    exact different (TermKey.eq_of_isLE_isLE atMost atLeast)

variable {Holds : List Expr → Prop}

/-- Each term is absorbed by the one before it when the keys agree. -/
theorem MergeInvariant.mergeRuns_keeps (invariant : MergeInvariant kernel allowed chain Holds)
    (holds : Holds (before.reverse ++ rest)) (sorted : InTermOrder chain (before.reverse ++ rest))
    (distinct : DistinctKeys chain before) :
    (mergeRuns kernel chain before rest).Ensures allowed fun merged =>
      Holds merged ∧ DistinctKeys chain merged := by
  induction rest generalizing before with
  | nil =>
      rw [List.append_nil] at holds
      exact .pure ⟨holds, distinct.perm before.reverse_perm⟩
  | cons term rest ih =>
      have moved : (term :: before).reverse ++ rest = before.reverse ++ term :: rest := by simp
      have separate (fails : (absorb kernel chain term before).Ensures allowed fun _ => False)
          (apart : TermKey.of chain term ∉ before.map (TermKey.of chain)) :
          (mergeRuns kernel chain before (term :: rest)).Ensures allowed
            fun merged => Holds merged ∧ DistinctKeys chain merged := by
        refine fails.run_none ?_
        rw [← moved] at holds sorted
        exact ih holds sorted (List.nodup_cons.mpr ⟨apart, distinct⟩)
      cases before with
      | nil => exact separate .failure List.not_mem_nil
      | cons nearest before =>
          by_cases same : TermKey.of chain nearest = TermKey.of chain term
          · have together : ((nearest :: before).reverse ++ term :: rest).Perm
                (nearest :: term :: (before.reverse ++ rest)) := by
              rw [List.reverse_cons, List.append_assoc]
              exact List.perm_middle.trans (List.perm_middle.cons nearest)
            have absorbs : (absorb kernel chain term (nearest :: before)).Succeeds allowed
                fun absorbed => ∃ merged, TermKey.of chain merged = TermKey.of chain nearest ∧
                  Holds (merged :: (before.reverse ++ rest)) ∧ absorbed = merged :: before := by
              rw [absorb, if_pos (sameKey_iff.mpr same)]
              refine .orElse (.bind (invariant.merges (invariant.perm together holds) same) ?_)
              exact fun merged keeps => .pure ⟨merged, keeps.1, keeps.2, rfl⟩
            refine absorbs.run_match ?_
            rintro _ ⟨merged, key, mergedHolds, rfl⟩
            have apart : ((merged :: before).reverse ++ rest).Perm
                (merged :: (before.reverse ++ rest)) := by
              rw [List.reverse_cons, List.append_assoc]
              exact List.perm_middle
            have keys : ((merged :: before).reverse ++ rest).map (TermKey.of chain) =
                ((nearest :: before).reverse ++ rest).map (TermKey.of chain) := by
              simp [key]
            have fewer : ((nearest :: before).reverse ++ rest).Sublist
                ((nearest :: before).reverse ++ term :: rest) := by
              simp
            refine ih (invariant.perm apart.symm mergedHolds) ?_ ?_
            · rw [inTermOrder_iff] at sorted ⊢
              rw [keys]
              exact sorted.sublist (fewer.map _)
            · rw [DistinctKeys, List.map_cons] at distinct ⊢
              rwa [key]
          · refine separate ?_ (sorted.not_mem same)
            rw [absorb, if_neg (sameKey_iff.not.mpr same)]
            exact .failure

theorem MergeInvariant.tidy_keeps (invariant : MergeInvariant kernel allowed chain Holds)
    (holds : Holds terms) :
    (tidy kernel chain terms).Ensures allowed fun tidied =>
      Holds tidied ∧ DistinctKeys chain tidied :=
  invariant.mergeRuns_keeps (invariant.perm (sortTerms_perm chain terms).symm holds)
    (sortTerms_sorted chain terms) List.nodup_nil

/-- Terms on one side, which stay there, are merged and sorted. -/
theorem MergeInvariant.settle_keeps (invariant : MergeInvariant kernel allowed chain Holds)
    (stay : ∀ {terms}, Holds terms → ∀ term ∈ terms, flipped chain term = failure)
    (holds : Holds terms) :
    (settle kernel chain ⟨terms, []⟩).Ensures allowed fun settled =>
      ∃ merged, Holds merged ∧ DistinctKeys chain merged ∧
        settled = ⟨sortTerms chain merged, []⟩ := by
  have tidies {terms : List Expr} (holds : Holds terms) :
      (tidyBoth kernel chain ⟨terms, []⟩).Ensures allowed fun tidied =>
        ∃ merged, Holds merged ∧ DistinctKeys chain merged ∧ tidied = ⟨merged, []⟩ := by
    refine .bind (invariant.tidy_keeps holds) fun merged keeps => ?_
    refine .bind (.pure rfl : Traced.Ensures allowed (tidy kernel chain []) (· = [])) ?_
    rintro _ rfl
    exact .pure ⟨merged, keeps.1, keeps.2, rfl⟩
  refine .bind (tidies holds) ?_
  rintro _ ⟨first, firstHolds, _, rfl⟩
  refine .bind (.pure rfl : Traced.Ensures allowed (cancel kernel chain first [])
    (· = ⟨first, []⟩)) ?_
  rintro _ rfl
  refine .bind (tidies firstHolds) ?_
  rintro _ ⟨second, secondHolds, distinct, rfl⟩
  refine .bind (balance_stays (stay secondHolds) (List.forall_mem_nil _)) ?_
  rintro _ rfl
  exact .pure ⟨second, secondHolds, distinct, rfl⟩

end SymbolicAlgebra

import SymbolicAlgebra.Proofs.Hoisting

/-!
# Building a tree from its arena

The table of trees that were built so far only saves work: every entry is the tree that would
be built without the table.  As places hold wrappers that come before their own, the number of
levels does not matter either.
-/

namespace SymbolicAlgebra

namespace Arena

variable {arena : Arena} {hoisted index levels : Nat} {replacement : Expr} {memo : Memo}

/-- Places hold wrappers that come before their own. -/
def Descends (arena : Arena) : Prop :=
  ∀ index, ∀ child ∈ (arena.wrapper index).children, child < index

/-- The tree of a wrapper, built without a table. -/
def rebuiltTo (arena : Arena) (hoisted : Nat) (replacement : Expr) :
    Nat → Nat → Except NodeError Expr
  | 0, index => .ok (arena.wrapper index).node
  | levels + 1, index =>
      if index = hoisted then .ok replacement
      else if (arena.wrapper index).children.isEmpty then .ok (arena.wrapper index).node
      else do
        let parts ← Expr.allOk
          ((arena.wrapper index).children.map (arena.rebuiltTo hoisted replacement levels))
        (arena.wrapper index).node.withParts replacement parts

/-- As many levels as there are wrappers up to this one are enough. -/
def rebuilt (arena : Arena) (hoisted : Nat) (replacement : Expr) (index : Nat) :
    Except NodeError Expr :=
  arena.rebuiltTo hoisted replacement (index + 1) index

theorem rebuiltTo_eq (descends : arena.Descends) (enough : index < levels) :
    arena.rebuiltTo hoisted replacement levels index =
      arena.rebuilt hoisted replacement index := by
  induction index using Nat.strongRecOn generalizing levels with
  | ind index ih =>
      obtain ⟨levels, rfl⟩ := Nat.exists_eq_add_one.mpr (Nat.zero_lt_of_lt enough)
      have parts : (arena.wrapper index).children.map
            (arena.rebuiltTo hoisted replacement levels) =
          (arena.wrapper index).children.map (arena.rebuiltTo hoisted replacement index) := by
        refine List.map_congr_left fun child member => ?_
        have before := descends index child member
        rw [ih child before (Nat.lt_of_lt_of_le before (Nat.le_of_lt_succ enough)),
          ih child before before]
      rw [rebuilt, rebuiltTo, rebuiltTo, parts]

/-- Every wrapper is built from the trees in its places. -/
theorem rebuilt_eq (descends : arena.Descends) :
    arena.rebuilt hoisted replacement index =
      if index = hoisted then .ok replacement
      else if (arena.wrapper index).children.isEmpty then .ok (arena.wrapper index).node
      else (do
        let parts ← Expr.allOk
          ((arena.wrapper index).children.map (arena.rebuilt hoisted replacement))
        (arena.wrapper index).node.withParts replacement parts) := by
  have parts : (arena.wrapper index).children.map (arena.rebuiltTo hoisted replacement index) =
      (arena.wrapper index).children.map (arena.rebuilt hoisted replacement) :=
    List.map_congr_left fun child member => rebuiltTo_eq descends (descends index child member)
  rw [rebuilt, rebuiltTo, parts]

/-! ## The table -/

/-- All entries of the table are results. -/
def Memo.Holds (memo : Memo) (result : Nat → Except NodeError Expr) : Prop :=
  ∀ index built, memo.getD index none = some built → result index = .ok built

variable {result : Nat → Except NodeError Expr}

theorem Memo.holds_replicate (size : Nat) : Memo.Holds (.replicate size none) result := by
  intro index built found
  rw [Array.getD_eq_getD_getElem?, Array.getElem?_replicate] at found
  split at found <;> cases found

theorem Memo.Holds.enter {built : Expr} (holds : memo.Holds result)
    (isResult : result index = .ok built) :
    Memo.Holds (memo.setIfInBounds index (some built)) result := by
  intro other entry found
  rw [Array.getD_eq_getD_getElem?, Array.getElem?_setIfInBounds] at found
  by_cases same : index = other
  · subst same
    rw [if_pos rfl] at found
    split at found
    · cases found
      exact isResult
    · cases found
  · rw [if_neg same, ← Array.getD_eq_getD_getElem?] at found
    exact holds other entry found

/-- Several wrappers are built one after the other, with one table. -/
theorem run_mapM {compute : Nat → StateT Memo (Except NodeError) Expr} {items : List Nat}
    (each : ∀ item ∈ items, ∀ memo : Memo, memo.Holds result →
      ∃ next : Memo, next.Holds result ∧
        (compute item).run memo = (result item).map (·, next))
    (holds : memo.Holds result) :
    ∃ next : Memo, next.Holds result ∧
      (items.mapM compute).run memo = (Expr.allOk (items.map result)).map (·, next) := by
  induction items generalizing memo with
  | nil => exact ⟨memo, holds, rfl⟩
  | cons item items ih =>
      obtain ⟨between, betweenHolds, first⟩ := each item List.mem_cons_self memo holds
      obtain ⟨last, lastHolds, rest⟩ :=
        ih (fun other member => each other (List.mem_cons_of_mem _ member)) betweenHolds
      refine ⟨last, lastHolds, ?_⟩
      rw [List.mapM_cons, StateT.run_bind, first, List.map_cons, Expr.allOk]
      cases result item with
      | error fault => rfl
      | ok built =>
          change (items.mapM compute >>= fun parts => pure (built :: parts)).run between = _
          rw [StateT.run_bind, rest]
          cases Expr.allOk (items.map result) <;> rfl

/-- One wrapper, when those before it are built right. -/
theorem run_assemble (descends : arena.Descends)
    {part : Nat → StateT Memo (Except NodeError) Expr}
    (each : ∀ child < index, ∀ memo : Memo, memo.Holds (arena.rebuilt hoisted replacement) →
      ∃ next : Memo, next.Holds (arena.rebuilt hoisted replacement) ∧
        (part child).run memo = (arena.rebuilt hoisted replacement child).map (·, next))
    (holds : memo.Holds (arena.rebuilt hoisted replacement)) :
    ∃ next : Memo, next.Holds (arena.rebuilt hoisted replacement) ∧
      (arena.assemble hoisted replacement part index).run memo =
        (arena.rebuilt hoisted replacement index).map (·, next) := by
  rw [assemble, rebuilt_eq descends]
  by_cases here : index = hoisted
  · rw [if_pos here, if_pos here]
    exact ⟨memo, holds, rfl⟩
  rw [if_neg here, if_neg here]
  by_cases childless : (arena.wrapper index).children.isEmpty = true
  · rw [if_pos childless, if_pos childless]
    exact ⟨memo, holds, rfl⟩
  rw [if_neg childless, if_neg childless]
  obtain ⟨next, nextHolds, parts⟩ :=
    run_mapM (fun child member => each child (descends index child member)) holds
  refine ⟨next, nextHolds, ?_⟩
  rw [StateT.run_bind, parts]
  cases Expr.allOk ((arena.wrapper index).children.map (arena.rebuilt hoisted replacement)) with
  | error fault => rfl
  | ok trees => cases (arena.wrapper index).node.withParts replacement trees <;> rfl

/-- A wrapper is built when it has no entry, and then it gets one. -/
theorem run_rebuild_succ :
    (arena.rebuild hoisted replacement (levels + 1) index).run memo =
      match memo.getD index none with
      | some done => .ok (done, memo)
      | none =>
          ((arena.assemble hoisted replacement (arena.rebuild hoisted replacement levels) index).run
            memo).map fun pair => (pair.1, pair.2.setIfInBounds index (some pair.1)) := by
  rw [rebuild, StateT.run_bind]
  change StateT.run (match memo.getD index none with | some _ => _ | none => _) memo = _
  cases memo.getD index none with
  | some done => rfl
  | none =>
      change (arena.assemble _ _ _ _ >>= _).run memo = _
      rw [StateT.run_bind]
      cases StateT.run (arena.assemble _ _ _ _) memo <;> rfl

/-- Building with the table is building without it. -/
theorem run_rebuild (descends : arena.Descends) (enough : index < levels)
    (holds : memo.Holds (arena.rebuilt hoisted replacement)) :
    ∃ next : Memo, next.Holds (arena.rebuilt hoisted replacement) ∧
      (arena.rebuild hoisted replacement levels index).run memo =
        (arena.rebuilt hoisted replacement index).map (·, next) := by
  induction levels generalizing index memo with
  | zero => exact absurd enough (Nat.not_lt_zero index)
  | succ levels ih =>
      rw [run_rebuild_succ]
      cases found : memo.getD index none with
      | some done =>
          refine ⟨memo, holds, ?_⟩
          rw [holds index done found]
          rfl
      | none =>
          obtain ⟨next, nextHolds, assembled⟩ := run_assemble descends
            (fun child before _ => ih (Nat.lt_of_lt_of_le before (Nat.le_of_lt_succ enough))) holds
          rw [assembled]
          cases made : arena.rebuilt hoisted replacement index with
          | error fault => exact ⟨next, nextHolds, rfl⟩
          | ok built => exact ⟨_, nextHolds.enter made, rfl⟩

/-- What is built for a wrapper from an empty table. -/
theorem run'_rebuild (descends : arena.Descends) (inside : index < arena.size) :
    (arena.rebuild hoisted replacement arena.size index).run' (.replicate arena.size none) =
      arena.rebuilt hoisted replacement index := by
  have empty : Memo.Holds (.replicate arena.size none) (arena.rebuilt hoisted replacement) :=
    Memo.holds_replicate _
  obtain ⟨next, _, run⟩ := run_rebuild descends inside empty
  rw [StateT.run'_eq, run]
  cases arena.rebuilt hoisted replacement index <;> rfl

end Arena

end SymbolicAlgebra

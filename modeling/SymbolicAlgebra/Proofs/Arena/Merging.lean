import SymbolicAlgebra.Proofs.Arena.Redirection

/-!
# Merging equal wrappers

On trees of exact numbers merging leads all places to the first wrapper of an equal node.

The proof follows the loops.  Below the depth at hand every wrapper is redirected to the first
equal one, at this depth to the first equal one among those that were compared with all later
ones, and above it nothing has changed.  So the places of wrappers of one depth hold the same
wrappers just when the children are equal.
-/

namespace SymbolicAlgebra

namespace Arena

variable {laid arena : Arena} {target : Nat → Nat} {index child first second earlier later : Nat}

/-! ## Equal wrappers -/

/-- The first of some wrappers whose node equals that of the given one, and this one if there is
none. -/
def firstAmong (laid : Arena) (among : List Nat) (index : Nat) : Nat :=
  (among.find? fun other => (laid.wrapper other).node == (laid.wrapper index).node).getD index

/-- The first wrapper of an equal node. -/
def firstEqual (laid : Arena) : Nat → Nat := laid.firstAmong (List.range laid.size)

section Exact

variable {among done rest : List Nat} {depth : Nat}

theorem firstAmong_of_forall (none : ∀ other ∈ among,
      ((laid.wrapper other).node == (laid.wrapper index).node) = false) :
    laid.firstAmong among index = index := by
  have missing := List.find?_eq_none.mpr fun other member =>
    Bool.eq_false_iff.mp (none other member)
  rw [firstAmong, missing,
    Option.getD_none]

/-- More wrappers make no difference where one of the former is equal. -/
theorem firstAmong_append_of_exists {more : List Nat}
    (exists_equal : ∃ other ∈ among,
      ((laid.wrapper other).node == (laid.wrapper index).node) = true) :
    laid.firstAmong (among ++ more) index = laid.firstAmong among index := by
  obtain ⟨other, found⟩ := Option.isSome_iff_exists.mp (List.find?_isSome.mpr exists_equal)
  rw [firstAmong, List.find?_append, found, firstAmong, found]
  rfl

theorem firstAmong_concat_of_forall (none : ∀ other ∈ among,
      ((laid.wrapper other).node == (laid.wrapper index).node) = false) :
    laid.firstAmong (among ++ [earlier]) index =
      if (laid.wrapper earlier).node == (laid.wrapper index).node then earlier else index := by
  have missing := List.find?_eq_none.mpr fun other member =>
    Bool.eq_false_iff.mp (none other member)
  rw [firstAmong, List.find?_append, missing, Option.none_or, List.find?_singleton]
  split <;> rfl

variable (exact : ∀ index, (laid.wrapper index).node.IsExact)
include exact

theorem beq_iff : ((laid.wrapper first).node == (laid.wrapper second).node) = true ↔
    (laid.wrapper first).node.unmarked = (laid.wrapper second).node.unmarked :=
  Expr.agree_iff_unmarked_eq (exact first)

theorem find?_congr_of_beq (among : List Nat)
    (equal : ((laid.wrapper first).node == (laid.wrapper second).node) = true) :
    (among.find? fun other => (laid.wrapper other).node == (laid.wrapper first).node) =
      among.find? fun other => (laid.wrapper other).node == (laid.wrapper second).node := by
  refine List.find?_congr fun other _ => ?_
  rw [Bool.eq_iff_iff, beq_iff exact, beq_iff exact, (beq_iff exact).mp equal]

/-- The first of some equal wrappers is itself, or one of them. -/
theorem firstAmong_cases (among : List Nat) (index : Nat) :
    laid.firstAmong among index = index ∧ (∀ other ∈ among,
        ((laid.wrapper other).node == (laid.wrapper index).node) = false) ∨
      laid.firstAmong among index ∈ among ∧
        ((laid.wrapper (laid.firstAmong among index)).node == (laid.wrapper index).node) = true ∧
        laid.firstAmong among (laid.firstAmong among index) = laid.firstAmong among index := by
  cases found : among.find? fun other => (laid.wrapper other).node == (laid.wrapper index).node with
  | none =>
      have none (other : Nat) (member : other ∈ among) :=
        Bool.eq_false_iff.mpr (List.find?_eq_none.mp found other member)
      exact .inl ⟨firstAmong_of_forall none, none⟩
  | some other =>
      have equal := List.find?_some found
      have same : laid.firstAmong among index = other := by rw [firstAmong, found, Option.getD_some]
      rw [same]
      refine .inr ⟨List.mem_of_find?_eq_some found, equal, ?_⟩
      rw [firstAmong, find?_congr_of_beq exact among equal, found, Option.getD_some]

theorem firstEqual_spec (inside : index < laid.size) :
    laid.firstEqual index < laid.size ∧
      ((laid.wrapper (laid.firstEqual index)).node == (laid.wrapper index).node) = true ∧
      laid.firstEqual (laid.firstEqual index) = laid.firstEqual index := by
  rcases firstAmong_cases exact (List.range laid.size) index with ⟨_, none⟩ | ⟨member, holds⟩
  · have self : ((laid.wrapper index).node == (laid.wrapper index).node) = true :=
      (beq_iff exact).mpr rfl
    rw [none index (List.mem_range.mpr inside)] at self
    cases self
  · exact ⟨List.mem_range.mp member, holds⟩

theorem firstEqual_eq_iff (inside : first < laid.size) (otherInside : second < laid.size) :
    laid.firstEqual first = laid.firstEqual second ↔
      (laid.wrapper first).node.unmarked = (laid.wrapper second).node.unmarked := by
  rw [← beq_iff exact]
  constructor
  · intro same
    have ⟨_, equal, _⟩ := firstEqual_spec exact inside
    have ⟨_, otherEqual, _⟩ := firstEqual_spec exact otherInside
    rw [beq_iff exact] at equal otherEqual ⊢
    rw [← equal, same, otherEqual]
  · intro equal
    have found : ((List.range laid.size).find? fun other =>
        (laid.wrapper other).node == (laid.wrapper first).node).isSome :=
      List.find?_isSome.mpr ⟨first, List.mem_range.mpr inside, (beq_iff exact).mpr rfl⟩
    obtain ⟨other, found⟩ := Option.isSome_iff_exists.mp found
    have otherFound := find?_congr_of_beq exact (List.range laid.size) equal
    rw [firstEqual, firstAmong, firstAmong, ← otherFound, found, Option.getD_some, Option.getD_some]

/-- Nothing equal comes before the first. -/
theorem firstEqual_le (inside : index < laid.size) (otherInside : child < laid.size)
    (equal : (laid.wrapper child).node.unmarked = (laid.wrapper index).node.unmarked) :
    laid.firstEqual index ≤ child := by
  rw [← (firstEqual_eq_iff exact otherInside inside).mpr equal]
  by_contra before
  cases found : (List.range laid.size).find? fun other =>
      (laid.wrapper other).node == (laid.wrapper child).node with
  | none =>
      have missing := List.find?_eq_none.mp found child (List.mem_range.mpr otherInside)
      exact missing ((beq_iff exact).mpr rfl)
  | some other =>
      have same : laid.firstEqual child = other := by
        rw [firstEqual, firstAmong, found, Option.getD_some]
      rw [same] at before
      have later := (List.find?_range_eq_some.mp found).2.2 child (Nat.not_le.mp before)
      rw [(beq_iff exact).mpr rfl] at later
      cases later

omit exact in
/-- Equal nodes are of equal height. -/
theorem depth_eq_of_unmarked_eq (laidOut : laid.LaidOut)
    (same : (laid.wrapper first).node.unmarked = (laid.wrapper second).node.unmarked) :
    (laid.wrapper first).depth = (laid.wrapper second).depth := by
  rw [laidOut.depth, laidOut.depth, ← Expr.height_unmarked, same, Expr.height_unmarked]

/-- Wrappers of one depth whose children were merged are equal when their nodes are. -/
theorem Redirects.equal_eq (laidOut : laid.LaidOut) (redirects : laid.Redirects target arena)
    (inside : first < laid.size) (otherInside : second < laid.size)
    (merged : ∀ child ∈ (laid.wrapper first).children ++ (laid.wrapper second).children,
      target child = laid.firstEqual child) :
    arena.equal first second = ((laid.wrapper first).node == (laid.wrapper second).node) := by
  rw [Arena.equal, redirects.wrapper first inside, redirects.wrapper second otherInside]
  dsimp only
  split
  · rfl
  · next inner =>
      rw [Bool.or_eq_true, not_or, Bool.not_eq_true, Bool.not_eq_true] at inner
      have sameSlots : (laid.wrapper first).children.map target =
            (laid.wrapper second).children.map target ↔
          (laid.wrapper first).node.children.map Expr.unmarked =
            (laid.wrapper second).node.children.map Expr.unmarked := by
        rw [← laidOut.slots first, ← laidOut.slots second, List.map_map, List.map_map,
          ← List.forall₂_eq_eq_eq, ← List.forall₂_eq_eq_eq, List.forall₂_map_left_iff,
          List.forall₂_map_right_iff, List.forall₂_map_left_iff, List.forall₂_map_right_iff,
          List.forall₂_iff_zip, List.forall₂_iff_zip]
        refine and_congr_right fun _ =>
          ⟨fun each child twin pair => ?_, fun each child twin pair => ?_⟩
        all_goals
          have ⟨member, otherMember⟩ := List.of_mem_zip pair
          have goal := firstEqual_eq_iff exact (laidOut.child_lt member).1
            (laidOut.child_lt otherMember).1
          rw [← merged child (List.mem_append_left _ member),
            ← merged twin (List.mem_append_right _ otherMember)] at goal
        · exact goal.mp (each pair)
        · exact goal.mpr (each pair)
      rw [Bool.eq_iff_iff, Bool.and_eq_true, beq_iff_eq, sameSlots, beq_iff exact,
        Expr.unmarked_eq_iff inner.1, Expr.sameHead, inner.1, inner.2]
      simp only [Bool.false_or, Bool.false_eq_true, if_false, Bool.and_eq_true, decide_eq_true_iff]
      constructor
      · exact fun holds => ⟨holds.1.1, holds.2⟩
      · rintro ⟨head, children⟩
        exact ⟨⟨head, by simpa [Expr.arity] using congrArg List.length children⟩, children⟩

/-! ## The loops -/

/-- Where places lead when all wrappers of lesser depth were merged, and those of this depth were
compared with some others. -/
def stage (laid : Arena) (depth : Nat) (compared : Nat → List Nat) (index : Nat) : Nat :=
  if (laid.wrapper index).depth < depth then laid.firstEqual index
  else if (laid.wrapper index).depth = depth then laid.firstAmong (compared index) index
  else index

section Pair

variable (laidOut : laid.LaidOut)
  (doneOfDepth : ∀ other ∈ done, other < earlier ∧ (laid.wrapper other).depth = depth)
  (ofDepth : (laid.wrapper earlier).depth = depth)
  (restOfDepth : ∀ other ∈ rest,
    earlier < other ∧ other < laid.size ∧ (laid.wrapper other).depth = depth)
include laidOut doneOfDepth restOfDepth

/-- A wrapper to which a place leads stays. -/
theorem stage_stage (inside : index < laid.size) :
    let compared := fun other => if other ∈ rest then done else done ++ [earlier]
    laid.stage depth compared (laid.stage depth compared index) =
      laid.stage depth compared index := by
  intro compared
  unfold stage
  by_cases less : (laid.wrapper index).depth < depth
  · have ⟨_, equal, again⟩ := firstEqual_spec exact inside
    have sameDepth := depth_eq_of_unmarked_eq laidOut ((beq_iff exact).mp equal)
    rw [if_pos less, if_pos (sameDepth ▸ less), again]
  · rw [if_neg less]
    by_cases same : (laid.wrapper index).depth = depth
    · rw [if_pos same]
      rcases firstAmong_cases exact (compared index) index with
        ⟨alone, _⟩ | ⟨member, equal, again⟩
      · rw [alone, if_neg less, if_pos same, alone]
      · have sameDepth := depth_eq_of_unmarked_eq laidOut ((beq_iff exact).mp equal)
        rw [if_neg (sameDepth ▸ less), if_pos (sameDepth.trans same)]
        generalize laid.firstAmong (compared index) index = first at member equal again
        have within : first ∈ done ++ [earlier] := by
          by_cases pending : index ∈ rest
          · simp only [compared, if_pos pending] at member
            exact List.mem_append_left _ member
          · simpa only [compared, if_neg pending] using member
        have notPending : first ∉ rest := fun pending => by
          have after := (restOfDepth first pending).1
          rcases List.mem_append.mp within with isDone | isLast
          · exact absurd (doneOfDepth first isDone).1 (by omega)
          · exact absurd (List.mem_singleton.mp isLast) (by omega)
        by_cases pending : index ∈ rest
        · simp only [compared, if_pos pending] at member again
          simp only [compared, if_neg notPending]
          rw [firstAmong_append_of_exists ⟨first, member, (beq_iff exact).mpr rfl⟩, again]
        · simp only [compared, if_neg pending] at again
          simp only [compared, if_neg notPending]
          exact again
    · rw [if_neg same, if_neg less, if_neg same]

/-- Only itself leads to a wrapper that is yet to be compared. -/
theorem eq_of_stage_eq (pending : later ∈ rest) (inside : index < laid.size)
    (leads :
      laid.stage depth (fun other => if other ∈ rest then done else done ++ [earlier]) index =
      later) : index = later := by
  have ⟨after, _, laterDepth⟩ := restOfDepth later pending
  unfold stage at leads
  by_cases less : (laid.wrapper index).depth < depth
  · rw [if_pos less] at leads
    have ⟨_, equal, _⟩ := firstEqual_spec exact inside
    have sameDepth := depth_eq_of_unmarked_eq laidOut ((beq_iff exact).mp equal)
    rw [leads, laterDepth] at sameDepth
    omega
  · rw [if_neg less] at leads
    by_cases same : (laid.wrapper index).depth = depth
    · rw [if_pos same] at leads
      rcases firstAmong_cases exact (if index ∈ rest then done else done ++ [earlier]) index with
        ⟨alone, _⟩ | ⟨member, _⟩
      · exact alone.symm.trans leads
      · rw [leads] at member
        have within : later ∈ done ++ [earlier] := by
          split at member
          · exact List.mem_append_left _ member
          · exact member
        rcases List.mem_append.mp within with isDone | isLast
        · exact absurd (doneOfDepth later isDone).1 (by omega)
        · exact absurd (List.mem_singleton.mp isLast) (by omega)
    · rwa [if_neg same] at leads

end Pair

omit exact in
/-- Children are of lesser depth. -/
theorem LaidOut.depth_lt (laidOut : laid.LaidOut)
    (member : child ∈ (laid.wrapper index).children) :
    (laid.wrapper child).depth < (laid.wrapper index).depth := by
  rw [laidOut.depth, laidOut.depth]
  apply Expr.height_lt_of_mem_children
  rw [← laidOut.slots index]
  exact List.mem_map_of_mem member

/-- A wrapper is compared with one more. -/
theorem Redirects.merge_stage (laidOut : laid.LaidOut)
    (doneOfDepth : ∀ other ∈ done, other < earlier ∧ (laid.wrapper other).depth = depth)
    (ofDepth : (laid.wrapper earlier).depth = depth) (fresh : later ∉ rest)
    (restOfDepth : ∀ other ∈ later :: rest,
      earlier < other ∧ other < laid.size ∧ (laid.wrapper other).depth = depth)
    (redirects : laid.Redirects
      (laid.stage depth fun other => if other ∈ later :: rest then done else done ++ [earlier])
      arena) :
    laid.Redirects
      (laid.stage depth fun other => if other ∈ rest then done else done ++ [earlier])
      (arena.merge earlier later) := by
  have ⟨before, inside, laterDepth⟩ := restOfDepth later List.mem_cons_self
  refine (redirects.merge laidOut (fun index => stage_stage exact laidOut doneOfDepth restOfDepth)
    (fun index => eq_of_stage_eq exact laidOut doneOfDepth restOfDepth List.mem_cons_self)
    before inside).congr laidOut fun index within => ?_
  have sameNodes : arena.equal earlier later =
      ((laid.wrapper earlier).node == (laid.wrapper later).node) := by
    refine redirects.equal_eq exact laidOut (before.trans inside) inside fun child member => ?_
    have less : (laid.wrapper child).depth < depth := by
      rcases List.mem_append.mp member with member | member
      · exact ofDepth ▸ laidOut.depth_lt member
      · exact laterDepth ▸ laidOut.depth_lt member
    exact if_pos less
  -- Nothing changes for other wrappers.
  have elsewhere (different : index ≠ later) :
      laid.stage depth (fun other => if other ∈ later :: rest then done else done ++ [earlier])
          index =
        laid.stage depth (fun other => if other ∈ rest then done else done ++ [earlier]) index := by
    simp only [stage, List.mem_cons, different, false_or]
  have atEarlier : laid.stage depth
      (fun other => if other ∈ later :: rest then done else done ++ [earlier]) earlier =
        laid.firstAmong (done ++ [earlier]) earlier := by
    have notPending : earlier ∉ later :: rest := fun member =>
      Nat.lt_irrefl _ (restOfDepth earlier member).1
    simp only [stage, ofDepth, Nat.lt_irrefl, if_false, if_true, if_neg notPending]
  have atLater : laid.stage depth
      (fun other => if other ∈ later :: rest then done else done ++ [earlier]) later =
        laid.firstAmong done later := by
    simp only [stage, laterDepth, Nat.lt_irrefl, if_false, if_true, List.mem_cons, true_or]
  have compared : laid.stage depth
      (fun other => if other ∈ rest then done else done ++ [earlier]) later =
        laid.firstAmong (done ++ [earlier]) later := by
    simp only [stage, laterDepth, Nat.lt_irrefl, if_false, if_true, if_neg fresh]
  rw [atEarlier, atLater, sameNodes]
  by_cases different : index ≠ later
  · rw [← elsewhere different]
    split
    · exact Function.update_of_ne different _ _
    · rfl
  · rw [ne_eq, not_not] at different
    subst different
    rw [compared]
    by_cases found : ∃ other ∈ done,
        ((laid.wrapper other).node == (laid.wrapper index).node) = true
    · -- An earlier wrapper is equal to both, so at least one of them is merged already.
      have merged : laid.firstAmong done index ≠ index := by
        obtain ⟨other, member, equal⟩ := found
        rcases firstAmong_cases exact done index with ⟨_, none⟩ | ⟨member, _⟩
        · rw [none other member] at equal
          cases equal
        · have := (doneOfDepth _ member).1
          omega
      rw [if_neg fun holds => merged holds.2.1, atLater, firstAmong_append_of_exists found]
    · have none : ∀ other ∈ done,
          ((laid.wrapper other).node == (laid.wrapper index).node) = false := by
        simpa only [not_exists, not_and, Bool.not_eq_true] using found
      rw [firstAmong_of_forall none, firstAmong_concat_of_forall none]
      by_cases equal : ((laid.wrapper earlier).node == (laid.wrapper index).node) = true
      · have earlierNone : ∀ other ∈ done,
            ((laid.wrapper other).node == (laid.wrapper earlier).node) = false := by
          intro other member
          rw [Bool.eq_false_iff, ne_eq, beq_iff exact, (beq_iff exact).mp equal, ← beq_iff exact]
          exact Bool.eq_false_iff.mp (none other member)
        rw [firstAmong_concat_of_forall earlierNone, if_pos equal, if_pos ⟨ite_self _, rfl, equal⟩,
          Function.update_self]
      · rw [if_neg equal, if_neg fun holds => equal holds.2.2, atLater, firstAmong_of_forall none]

/-- A wrapper is compared with all later ones. -/
theorem Redirects.foldl_merge (laidOut : laid.LaidOut)
    (doneOfDepth : ∀ other ∈ done, other < earlier ∧ (laid.wrapper other).depth = depth)
    (ofDepth : (laid.wrapper earlier).depth = depth) (distinct : rest.Nodup)
    (restOfDepth : ∀ other ∈ rest,
      earlier < other ∧ other < laid.size ∧ (laid.wrapper other).depth = depth)
    (redirects : laid.Redirects
      (laid.stage depth fun other => if other ∈ rest then done else done ++ [earlier]) arena) :
    laid.Redirects (laid.stage depth fun _ => done ++ [earlier])
      (rest.foldl (fun arena later => arena.merge earlier later) arena) := by
  induction rest generalizing arena with
  | nil => exact redirects.congr laidOut fun index _ => by simp only [List.not_mem_nil, if_false]
  | cons later rest ih =>
      rw [List.nodup_cons] at distinct
      exact ih distinct.2 (fun other member => restOfDepth other (List.mem_cons_of_mem _ member))
        (redirects.merge_stage exact laidOut doneOfDepth ofDepth distinct.1 restOfDepth)

/-- All pairs of wrappers of one depth. -/
theorem Redirects.foldl_pairs (laidOut : laid.LaidOut)
    (ofDepth : ∀ other,
      other ∈ done ++ rest ↔ other < laid.size ∧ (laid.wrapper other).depth = depth)
    (sorted : (done ++ rest).Pairwise (· < ·))
    (redirects : laid.Redirects (laid.stage depth fun _ => done) arena) :
    laid.Redirects (laid.stage depth fun _ => done ++ rest)
      ((pairs rest).foldl (fun arena pair => arena.merge pair.1 pair.2) arena) := by
  induction rest generalizing done arena with
  | nil => rwa [List.append_nil]
  | cons earlier rest ih =>
      have ⟨_, restSorted, doneBefore⟩ := List.pairwise_append.mp sorted
      have ⟨restAfter, restSorted⟩ := List.pairwise_cons.mp restSorted
      have earlierOfDepth := (ofDepth earlier).mp (by simp)
      have whole : done ++ earlier :: rest = done ++ [earlier] ++ rest := by simp
      rw [pairs, List.foldl_append, List.foldl_map]
      rw [whole] at ofDepth sorted ⊢
      refine ih ofDepth sorted (redirects.congr laidOut (fun index inside => ?_)
        |>.foldl_merge exact laidOut ?_ earlierOfDepth.2 (restSorted.imp Nat.ne_of_lt) ?_)
      · unfold stage
        split
        · rfl
        · split
          · next sameDepth =>
              dsimp only
              split
              · rfl
              · next notPending =>
                  -- The wrapper was compared with itself, or it is the one that comes now.
                  have member := (ofDepth index).mpr ⟨inside, sameDepth⟩
                  rw [List.mem_append, or_iff_left notPending, List.mem_append,
                    List.mem_singleton] at member
                  by_cases found : ∃ other ∈ done,
                      ((laid.wrapper other).node == (laid.wrapper index).node) = true
                  · rw [firstAmong_append_of_exists found]
                  · have none : ∀ other ∈ done,
                        ((laid.wrapper other).node == (laid.wrapper index).node) = false := by
                      simpa only [not_exists, not_and, Bool.not_eq_true] using found
                    rcases member with isDone | rfl
                    · exact absurd ⟨index, isDone, (beq_iff exact).mpr rfl⟩ found
                    · rw [firstAmong_of_forall none, firstAmong_concat_of_forall none, ite_self]
          · rfl
      · intro other member
        refine ⟨doneBefore other member earlier List.mem_cons_self, ?_⟩
        exact ((ofDepth other).mp (by simp [member])).2
      · exact fun other member => ⟨restAfter other member, (ofDepth other).mp (by simp [member])⟩

/-- The wrappers of one depth are merged. -/
theorem Redirects.foldl_bucket (laidOut : laid.LaidOut)
    (redirects : laid.Redirects (laid.stage depth fun _ => []) arena) :
    laid.Redirects (laid.stage (depth + 1) fun _ => [])
      ((pairs (laid.buckets.getD depth [])).foldl
        (fun arena pair => arena.merge pair.1 pair.2) arena) := by
  rw [laidOut.buckets]
  generalize bucket :
    (List.range laid.size).filter (fun index => (laid.wrapper index).depth = depth) =
    indices
  have ofDepth (other : Nat) :
      other ∈ [] ++ indices ↔ other < laid.size ∧ (laid.wrapper other).depth = depth := by
    simp [← bucket]
  have sorted : ([] ++ indices).Pairwise (· < ·) := by
    rw [List.nil_append, ← bucket]
    exact List.pairwise_lt_range.sublist List.filter_sublist
  refine (redirects.foldl_pairs exact laidOut ofDepth sorted).congr laidOut fun index inside => ?_
  rw [List.nil_append]
  unfold stage
  by_cases less : (laid.wrapper index).depth < depth
  · rw [if_pos less, if_pos (Nat.lt_succ_of_lt less)]
  · rw [if_neg less]
    by_cases same : (laid.wrapper index).depth = depth
    · rw [if_pos same, if_pos (by omega), firstEqual, firstAmong, firstAmong, ← bucket,
        List.find?_filter]
      refine congrArg (Option.getD · index) (List.find?_congr fun other member => ?_)
      rw [Bool.eq_iff_iff, decide_eq_true_iff, decide_eq_true_iff]
      refine and_iff_right_of_imp fun equal => ?_
      rw [depth_eq_of_unmarked_eq laidOut ((beq_iff exact).mp equal), same]
    · rw [if_neg same, if_neg (by omega)]
      exact (ite_self _).symm

/-- Merging leads all places to the first equal wrapper. -/
theorem redirects_mergeEqual (laidOut : laid.LaidOut) :
    laid.Redirects laid.firstEqual laid.mergeEqual := by
  have loop (buckets : List (List Nat)) (depth : Nat) (arena : Arena)
      (rest : laid.buckets.drop depth = buckets)
      (redirects : laid.Redirects (laid.stage depth fun _ => []) arena) :
      laid.Redirects (laid.stage (depth + buckets.length) fun _ => [])
        (buckets.foldl (fun arena bucket =>
          (pairs bucket).foldl (fun arena pair => arena.merge pair.1 pair.2) arena) arena) := by
    induction buckets generalizing depth arena with
    | nil => exact redirects
    | cons bucket buckets ih =>
        have first : laid.buckets.getD depth [] = bucket := by
          rw [List.getD_eq_getElem?_getD, ← List.head?_drop, rest]
          rfl
        have next := ih (depth + 1) _ (by rw [← List.tail_drop, rest]; rfl)
          (redirects.foldl_bucket exact laidOut)
        rwa [first, Nat.add_right_comm] at next
  have start : laid.Redirects (laid.stage 0 fun _ => []) laid := by
    refine (redirects_id laidOut).congr laidOut fun index _ => ?_
    unfold stage
    rw [if_neg (Nat.not_lt_zero _)]
    exact (ite_self _).symm
  refine (loop laid.buckets 0 laid rfl start).congr laidOut fun index inside => ?_
  have bucketed : index ∈ laid.buckets.getD (laid.wrapper index).depth [] := by
    rw [laidOut.buckets]
    simp [inside]
  have deep : (laid.wrapper index).depth < 0 + laid.buckets.length := by
    by_contra outside
    rw [List.getD_eq_getElem?_getD, List.getElem?_eq_none (by omega)] at bucketed
    exact List.not_mem_nil bucketed
  exact if_pos deep

end Exact

end Arena

end SymbolicAlgebra

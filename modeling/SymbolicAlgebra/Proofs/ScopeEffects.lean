import Mathlib.Data.List.Forall2
import Mathlib.Data.Set.Basic
import SymbolicAlgebra.Scope

/-!
# What changes in a scope

A frame is rebound when it keeps its names in their order and gives new values only
to names of a given set, and it is extended when names of a given set come behind
the old ones.  The effect of a computation on a scope is that the frames around the
current one are rebound and the current one is extended.

Effects compose, and the effect of what happens inside a frame that is closed again
does not touch the current frame's names.
-/

namespace SymbolicAlgebra

theorem forall₂_trans {Item : Type} {related : Item → Item → Prop}
    (compose : ∀ {x y z : Item}, related x y → related y z → related x z)
    {xs ys zs : List Item} (first : List.Forall₂ related xs ys)
    (second : List.Forall₂ related ys zs) : List.Forall₂ related xs zs := by
  induction first generalizing zs with
  | nil => exact second
  | cons step _ ih =>
      cases second with
      | cons next rest => exact .cons (compose step next) (ih rest)

theorem map_eq_of_forall₂ {Item Other Image : Type} {related : Item → Other → Prop}
    {view : Item → Image} {otherView : Other → Image}
    (same : ∀ {x y}, related x y → otherView y = view x) {xs : List Item} {ys : List Other}
    (all : List.Forall₂ related xs ys) : ys.map otherView = xs.map view := by
  induction all with
  | nil => rfl
  | cons step _ ih => rw [List.map_cons, List.map_cons, same step, ih]

namespace Frame

variable {names more fresh : Set String} {old middle new : Frame} {name : String} {value : Expr}

/-- The frame binds the same names in the same order, and those outside the set to
the same values. -/
def Rebinds (names : Set String) : Frame → Frame → Prop :=
  List.Forall₂ fun before after => before.1 = after.1 ∧ (before.1 ∉ names → before.2 = after.2)

namespace Rebinds

theorem refl (frame : Frame) : Rebinds names frame frame :=
  List.forall₂_same.mpr fun _ _ => ⟨rfl, fun _ => rfl⟩

theorem trans (first : Rebinds names old middle) (second : Rebinds names middle new) :
    Rebinds names old new := by
  refine forall₂_trans (fun step next => ⟨step.1.trans next.1, fun outside => ?_⟩) first second
  exact (step.2 outside).trans (next.2 (step.1 ▸ outside))

theorem mono (rebinds : Rebinds names old new) (within : names ⊆ more) : Rebinds more old new :=
  List.Forall₂.imp (fun _ _ same => ⟨same.1, fun outside => same.2 fun inside =>
    outside (within inside)⟩) rebinds

theorem map_fst (rebinds : Rebinds names old new) : new.map Prod.fst = old.map Prod.fst :=
  map_eq_of_forall₂ (fun same => same.1.symm) rebinds

theorem lookup? (rebinds : Rebinds names old new) (outside : name ∉ names) :
    new.lookup? name = old.lookup? name := by
  induction rebinds with
  | nil => rfl
  | @cons before after _ _ same _ ih =>
      by_cases found : before.1 = name
      · have value := same.2 (found ▸ outside)
        simp [Frame.lookup?, ← same.1, found, value]
      · simpa [Frame.lookup?, ← same.1, found] using ih

theorem eq (rebinds : Rebinds ∅ old new) : new = old := by
  induction rebinds with
  | nil => rfl
  | cons same _ ih => rw [ih, Prod.ext same.1.symm (same.2 (Set.notMem_empty _)).symm]

end Rebinds

/-- The frame is rebound, and names of the second set are bound behind its own. -/
def Extends (names fresh : Set String) (old new : Frame) : Prop :=
  ∃ kept added, new = kept ++ added ∧ Rebinds names old kept ∧ ∀ binding ∈ added, binding.1 ∈ fresh

namespace Extends

theorem of_rebinds (rebinds : Rebinds names old new) : Extends names fresh old new :=
  ⟨new, [], (List.append_nil _).symm, rebinds, List.forall_mem_nil _⟩

theorem trans (first : Extends names fresh old middle) (second : Extends names fresh middle new) :
    Extends names fresh old new := by
  obtain ⟨kept, added, rfl, rebinds, addedFresh⟩ := first
  obtain ⟨next, more, rfl, rebindsNext, moreFresh⟩ := second
  -- The frame after the first part splits where its own names end.
  obtain ⟨left, right, leftRebinds, rightRebinds, rfl⟩ :
      ∃ left right, Rebinds names kept left ∧ Rebinds names added right ∧ next = left ++ right := by
    refine ⟨next.take kept.length, next.drop kept.length, ?_, ?_, (List.take_append_drop _ _).symm⟩
    · have start := List.forall₂_take kept.length rebindsNext
      rwa [List.take_left] at start
    · have rest := List.forall₂_drop kept.length rebindsNext
      rwa [List.drop_left] at rest
  refine ⟨left, right ++ more, List.append_assoc _ _ _, rebinds.trans leftRebinds, ?_⟩
  rw [List.forall_mem_append]
  refine ⟨fun binding member => ?_, moreFresh⟩
  have isName : binding.1 ∈ added.map Prod.fst :=
    rightRebinds.map_fst ▸ List.mem_map_of_mem member
  obtain ⟨source, sourceMember, sameName⟩ := List.mem_map.mp isName
  exact sameName ▸ addedFresh source sourceMember

theorem mono (grows : Extends names fresh old new) (within : names ⊆ more) {wider : Set String}
    (freshWithin : fresh ⊆ wider) : Extends more wider old new := by
  obtain ⟨kept, added, rfl, rebinds, addedFresh⟩ := grows
  exact ⟨kept, added, rfl, rebinds.mono within, fun binding member =>
    freshWithin (addedFresh binding member)⟩

theorem lookup? (grows : Extends names fresh old new) (outside : name ∉ names)
    (notFresh : name ∉ fresh) : new.lookup? name = old.lookup? name := by
  obtain ⟨kept, added, rfl, rebinds, addedFresh⟩ := grows
  have absent : added.find? (·.1 = name) = none := by
    refine List.find?_eq_none.mpr fun binding member same => notFresh ?_
    exact of_decide_eq_true same ▸ addedFresh binding member
  rw [← rebinds.lookup? outside, Frame.lookup?, List.find?_append, absent, Option.or_none]
  rfl

theorem map_fst (grows : Extends names fresh old new) :
    ∃ added, new.map Prod.fst = old.map Prod.fst ++ added ∧ ∀ name ∈ added, name ∈ fresh := by
  obtain ⟨kept, added, rfl, rebinds, addedFresh⟩ := grows
  refine ⟨added.map Prod.fst, by rw [List.map_append, rebinds.map_fst], fun name member => ?_⟩
  obtain ⟨binding, bound, rfl⟩ := List.mem_map.mp member
  exact addedFresh binding bound

end Extends

theorem bind_extends (isName : name ∈ names) (isFresh : name ∈ fresh) (frame : Frame) :
    Extends names fresh frame (frame.bind name value) := by
  induction frame with
  | nil => exact ⟨[], [(name, value)], rfl, .nil, List.forall_mem_singleton.mpr isFresh⟩
  | cons binding frame ih =>
      unfold Frame.bind
      split
      · rename_i same
        refine .of_rebinds (.cons ⟨same, fun outside => ?_⟩ (Rebinds.refl frame))
        exact absurd (same ▸ isName) outside
      · obtain ⟨kept, added, result, rebinds, addedFresh⟩ := ih
        exact ⟨binding :: kept, added, by rw [result, List.cons_append],
          .cons ⟨rfl, fun _ => rfl⟩ rebinds, addedFresh⟩

theorem bind_rebinds (isName : name ∈ names) {frame : Frame} (bound : frame.binds name = true) :
    Rebinds names frame (frame.bind name value) := by
  induction frame with
  | nil => cases bound
  | cons binding frame ih =>
      unfold Frame.bind
      split
      · rename_i same
        exact .cons ⟨same, fun outside => absurd (same ▸ isName) outside⟩ (Rebinds.refl frame)
      · rename_i other
        refine .cons ⟨rfl, fun _ => rfl⟩ (ih ?_)
        simpa [binds, Frame.lookup?, other] using bound

theorem mem_bind {binding : String × Expr} {frame : Frame}
    (member : binding ∈ frame.bind name value) : binding ∈ frame ∨ binding = (name, value) := by
  induction frame with
  | nil => exact .inr (List.mem_singleton.mp member)
  | cons first frame ih =>
      unfold Frame.bind at member
      split at member
      · rcases List.mem_cons.mp member with rfl | member
        · exact .inr rfl
        · exact .inl (List.mem_cons_of_mem _ member)
      · rcases List.mem_cons.mp member with rfl | member
        · exact .inl List.mem_cons_self
        · exact (ih member).imp_left (List.mem_cons_of_mem _)

end Frame

namespace Scope

variable {names more here wider : Set String} {before between after scope : Scope}
  {name : String} {value : Expr}

/-- The frames around the current one are rebound for the given names, and the
current one is extended by names of the second set. -/
structure Effect (names here : Set String) (before after : Scope) : Prop where
  current : Frame.Extends (names ∪ here) here before.current after.current
  enclosing : List.Forall₂ (Frame.Rebinds names) before.enclosing after.enclosing

namespace Effect

theorem refl (scope : Scope) : Effect names here scope scope :=
  ⟨.of_rebinds (.refl _), List.forall₂_same.mpr fun frame _ => .refl frame⟩

theorem trans (first : Effect names here before between)
    (second : Effect names here between after) : Effect names here before after where
  current := first.current.trans second.current
  enclosing := forall₂_trans (fun step next => step.trans next) first.enclosing second.enclosing

/-- Where no name may change, nothing does. -/
theorem eq (effect : Effect ∅ ∅ before after) : after = before := by
  obtain ⟨current, enclosing⟩ := before
  obtain ⟨newCurrent, newEnclosing⟩ := after
  obtain ⟨⟨kept, added, result, rebinds, fresh⟩, frames⟩ := effect
  obtain rfl : added = [] :=
    List.eq_nil_iff_forall_not_mem.mpr fun binding member => fresh binding member
  rw [Set.union_empty] at rebinds
  have sameFrames : newEnclosing = enclosing := by
    have same : newEnclosing.map id = enclosing.map id :=
      map_eq_of_forall₂ (fun rebound => rebound.eq) frames
    rwa [List.map_id, List.map_id] at same
  rw [sameFrames, mk.injEq]
  exact ⟨result.trans (by rw [List.append_nil, rebinds.eq]), rfl⟩

/-- Names that the effect does not cover are bound as before in every frame. -/
theorem lookup? (effect : Effect names here before after) (within : here ⊆ names)
    (outside : name ∉ names) :
    after.frames.map (·.lookup? name) = before.frames.map (·.lookup? name) := by
  have current := effect.current.lookup? (by rwa [Set.union_eq_left.mpr within]) fun isHere =>
    outside (within isHere)
  rw [frames, frames, List.map_cons, List.map_cons, current,
    map_eq_of_forall₂ (fun rebinds => rebinds.lookup? outside) effect.enclosing]

theorem enclosing_names (effect : Effect names here before after) :
    after.enclosing.map (·.map Prod.fst) = before.enclosing.map (·.map Prod.fst) :=
  map_eq_of_forall₂ (fun rebinds => rebinds.map_fst) effect.enclosing

end Effect

theorem bind_effect (isHere : name ∈ here) (scope : Scope) :
    Effect names here scope (scope.bind name value) :=
  ⟨Frame.bind_extends (.inr isHere) isHere _, List.forall₂_same.mpr fun frame _ => .refl frame⟩

theorem overwrite?_rebinds (isName : name ∈ names) {old new : List Frame}
    (overwrites : overwrite? name value old = some new) :
    List.Forall₂ (Frame.Rebinds names) old new := by
  induction old generalizing new with
  | nil => cases overwrites
  | cons frame rest ih =>
      have kept : List.Forall₂ (Frame.Rebinds names) rest rest :=
        List.forall₂_same.mpr fun frame _ => .refl frame
      unfold overwrite? at overwrites
      split at overwrites
      · obtain rfl := Option.some.inj overwrites
        exact .cons (Frame.bind_rebinds isName ‹_›) kept
      · obtain ⟨changed, found, rfl⟩ := Option.map_eq_some_iff.mp overwrites
        exact .cons (.refl frame) (ih found)

theorem assign_effect (isName : name ∈ names) (isHere : name ∈ here) (scope : Scope) :
    Effect names here scope (scope.assign name value) := by
  unfold assign
  split
  · rename_i frames overwrites
    cases overwrite?_rebinds isName overwrites with
    | cons current enclosing =>
        exact ⟨.of_rebinds (current.mono Set.subset_union_left), enclosing⟩
  · exact bind_effect isHere scope

/-- What happens in a frame that is closed again adds no name to the current one. -/
theorem pop_effect (effect : Effect names Set.univ scope.push after) :
    Effect names here scope (after.pop?.getD after) := by
  obtain ⟨current, enclosing⟩ := after
  cases effect.enclosing with
  | cons parent rest => exact ⟨.of_rebinds (parent.mono Set.subset_union_left), rest⟩

/-! ## Bound values -/

/-- All bound values have the property. -/
def AllBound (Holds : Expr → Prop) (scope : Scope) : Prop :=
  ∀ frame ∈ scope.frames, ∀ binding ∈ frame, Holds binding.2

instance (Holds : Expr → Prop) [DecidablePred Holds] (scope : Scope) :
    Decidable (scope.AllBound Holds) :=
  inferInstanceAs (Decidable (∀ frame ∈ scope.frames, ∀ binding ∈ frame, Holds binding.2))

section AllBound

variable {Holds : Expr → Prop}

theorem AllBound.push (binds : scope.AllBound Holds) : scope.push.AllBound Holds :=
  List.forall_mem_cons.mpr ⟨List.forall_mem_nil _, binds⟩

theorem AllBound.pop (binds : scope.AllBound Holds) : (scope.pop?.getD scope).AllBound Holds := by
  obtain ⟨current, enclosing⟩ := scope
  cases enclosing with
  | nil => exact binds
  | cons parent rest => exact (List.forall_mem_cons.mp binds).2

theorem AllBound.ofFrames {frames : List Frame}
    (binds : ∀ frame ∈ frames, ∀ binding ∈ frame, Holds binding.2) :
    (Scope.ofFrames frames).AllBound Holds := by
  cases frames with
  | nil => exact List.forall_mem_singleton.mpr (List.forall_mem_nil _)
  | cons current enclosing => exact binds

theorem allBound_bind (holds : Holds value) {frame : Frame}
    (binds : ∀ binding ∈ frame, Holds binding.2) :
    ∀ binding ∈ frame.bind name value, Holds binding.2 := by
  intro binding member
  rcases Frame.mem_bind member with old | new
  · exact binds binding old
  · exact new ▸ holds

theorem AllBound.bind (binds : scope.AllBound Holds) (holds : Holds value) :
    (scope.bind name value).AllBound Holds :=
  List.forall_mem_cons.mpr ⟨allBound_bind holds (List.forall_mem_cons.mp binds).1,
    (List.forall_mem_cons.mp binds).2⟩

theorem overwrite?_allBound (holds : Holds value) {old new : List Frame}
    (binds : ∀ frame ∈ old, ∀ binding ∈ frame, Holds binding.2)
    (overwrites : overwrite? name value old = some new) :
    ∀ frame ∈ new, ∀ binding ∈ frame, Holds binding.2 := by
  induction old generalizing new with
  | nil => cases overwrites
  | cons frame rest ih =>
      rw [List.forall_mem_cons] at binds
      unfold overwrite? at overwrites
      split at overwrites
      · obtain rfl := Option.some.inj overwrites
        exact List.forall_mem_cons.mpr ⟨allBound_bind holds binds.1, binds.2⟩
      · obtain ⟨changed, found, rfl⟩ := Option.map_eq_some_iff.mp overwrites
        exact List.forall_mem_cons.mpr ⟨binds.1, ih binds.2 found⟩

theorem AllBound.assign (binds : scope.AllBound Holds) (holds : Holds value) :
    (scope.assign name value).AllBound Holds := by
  unfold Scope.assign
  split
  · exact .ofFrames (overwrite?_allBound holds binds ‹_›)
  · exact binds.bind holds

/-- The frames of a scope split at the innermost binding of a name. -/
theorem split?_eq_some {frames inner outer : List Frame}
    (found : split? name frames = some (inner, value, outer)) :
    frames = inner ++ outer ∧ ∃ frame ∈ inner, ∃ binding ∈ frame, binding.2 = value := by
  induction frames generalizing inner with
  | nil => cases found
  | cons frame rest ih =>
      unfold split? at found
      split at found
      · rename_i tree bound
        cases found
        obtain ⟨binding, member, rfl⟩ := Option.map_eq_some_iff.mp bound
        exact ⟨rfl, frame, List.mem_singleton.mpr rfl, binding, List.mem_of_find?_eq_some member,
          rfl⟩
      · obtain ⟨⟨deeper, _, _⟩, found, same⟩ := Option.map_eq_some_iff.mp found
        cases same
        obtain ⟨rfl, source, member, bound⟩ := ih found
        exact ⟨rfl, source, List.mem_cons_of_mem _ member, bound⟩

/-- A scope is put together again from the frames inside and outside a binding. -/
theorem ofFrames_append {inner outer : List Frame} (frames : scope.frames = inner ++ outer) :
    (if outer.isEmpty then scope else ofFrames (inner ++ (ofFrames outer).frames)) = scope := by
  cases outer with
  | nil => rfl
  | cons frame rest =>
      rw [List.isEmpty_cons, if_neg Bool.false_ne_true, ofFrames, Scope.frames, ← frames]
      rfl

end AllBound

end Scope

end SymbolicAlgebra

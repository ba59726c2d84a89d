import Mathlib.Data.Nat.Count
import SymbolicAlgebra.Proofs.Arena.Layout

/-!
# Redirected places

Merging two wrappers redirects the only place of the later one to the earlier one.  So an
arena that is being merged is the laid out one, where places hold the targets of the wrappers
that they held, and where every wrapper counts the wrappers whose target it is.
-/

namespace SymbolicAlgebra

namespace Arena

variable {laid arena : Arena} {target other : Nat → Nat} {index child earlier later : Nat}

/-! ## Redirected places -/

/-- The arena is a laid out one, where the places that held a wrapper hold its target. -/
structure Redirects (laid : Arena) (target : Nat → Nat) (arena : Arena) : Prop where
  size : arena.size = laid.size
  buckets : arena.buckets = laid.buckets
  wrapper : ∀ index < laid.size, arena.wrapper index =
    { laid.wrapper index with
      children := (laid.wrapper index).children.map target
      references := Nat.count (fun other => target other = index) laid.size }

theorem redirects_id (laidOut : laid.LaidOut) : laid.Redirects id laid where
  size := rfl
  buckets := rfl
  wrapper := by
    intro index inside
    have single : Nat.count (fun other => id other = index) laid.size = 1 := by
      rw [Nat.count_eq_card_filter_range]
      have only : (Finset.range laid.size).filter (fun other => id other = index) = {index} := by
        ext other
        simp only [id, Finset.mem_filter, Finset.mem_range, Finset.mem_singleton]
        exact ⟨And.right, fun same => ⟨same ▸ inside, same⟩⟩
      rw [only, Finset.card_singleton]
    rw [List.map_id, single, ← laidOut.references index inside]

theorem Redirects.congr (laidOut : laid.LaidOut) (redirects : laid.Redirects target arena)
    (same : ∀ index < laid.size, target index = other index) : laid.Redirects other arena where
  size := redirects.size
  buckets := redirects.buckets
  wrapper := by
    intro index inside
    have children : (laid.wrapper index).children.map target =
        (laid.wrapper index).children.map other :=
      List.map_congr_left fun child member => same child (laidOut.child_lt member).1
    have counts : Nat.count (fun other => target other = index) laid.size =
        Nat.count (fun child => other child = index) laid.size := by
      rw [Nat.count_eq_card_filter_range, Nat.count_eq_card_filter_range]
      refine congrArg Finset.card (Finset.filter_congr fun child member => ?_)
      rw [same child (Finset.mem_range.mp member)]
    rw [redirects.wrapper index inside, children, counts]

/-- How often a wrapper is a target once another one is redirected to an earlier one. -/
theorem count_redirected {size : Nat} (inside : later < size) (alone : target later = later)
    (only : ∀ index < size, target index = later → index = later) (apart : earlier ≠ later)
    (index : Nat) :
    Nat.count (fun other => Function.update target later earlier other = index) size =
      if index = earlier then Nat.count (fun other => target other = earlier) size + 1
      else if index = later then Nat.count (fun other => target other = later) size - 1
      else Nat.count (fun other => target other = index) size := by
  simp only [Nat.count_eq_card_filter_range]
  by_cases isEarlier : index = earlier
  · have added : (Finset.range size).filter
          (fun other => Function.update target later earlier other = index) =
        Insert.insert later ((Finset.range size).filter fun other => target other = earlier) := by
      ext other
      by_cases same : other = later
      · simp [same, isEarlier, inside]
      · simp [same, isEarlier]
    have fresh : later ∉ (Finset.range size).filter fun other => target other = earlier := by
      simp [alone, apart.symm]
    rw [if_pos isEarlier, added, Finset.card_insert_of_notMem fresh]
  · rw [if_neg isEarlier]
    by_cases isLater : index = later
    · have none : (Finset.range size).filter
          (fun other => Function.update target later earlier other = index) = ∅ := by
        refine Finset.filter_eq_empty_iff.mpr fun other member same => ?_
        by_cases atLater : other = later
        · simp [atLater, Ne.symm isEarlier] at same
        · rw [Function.update_of_ne atLater, isLater] at same
          exact atLater (only other (Finset.mem_range.mp member) same)
      have single : (Finset.range size).filter (fun other => target other = later) = {later} := by
        ext other
        simp only [Finset.mem_filter, Finset.mem_range, Finset.mem_singleton]
        exact ⟨fun holds => only other holds.1 holds.2,
          fun same => same ▸ ⟨same ▸ inside, same ▸ alone⟩⟩
      rw [if_pos isLater, none, single, Finset.card_empty, Finset.card_singleton]
    · rw [if_neg isLater]
      refine congrArg Finset.card (Finset.filter_congr fun other _ => ?_)
      by_cases atLater : other = later
      · simp [atLater, alone, Ne.symm isEarlier, Ne.symm isLater]
      · rw [Function.update_of_ne atLater]

theorem Redirects.isAlive_iff (redirects : laid.Redirects target arena)
    (settled : ∀ index < laid.size, target (target index) = target index)
    (inside : index < laid.size) : arena.isAlive index = true ↔ target index = index := by
  rw [isAlive, decide_eq_true_iff, redirects.wrapper index inside]
  change 0 < Nat.count _ _ ↔ _
  rw [Nat.count_eq_card_filter_range, Finset.card_pos]
  constructor
  · rintro ⟨other, member⟩
    obtain ⟨below, rfl⟩ := Finset.mem_filter.mp member
    exact settled other (Finset.mem_range.mp below)
  · intro alone
    exact ⟨index, Finset.mem_filter.mpr ⟨Finset.mem_range.mpr inside, alone⟩⟩

/-- A wrapper stands in no other place than its own, so redirecting this is enough. -/
theorem Redirects.redirect (redirects : laid.Redirects target arena) (laidOut : laid.LaidOut)
    (inside : later < laid.size) (alone : target later = later) (earlier : Nat) :
    let redirected := arena.redirect (arena.wrapper later).parent earlier
    redirected.size = laid.size ∧ redirected.buckets = laid.buckets ∧
      ∀ index < laid.size, redirected.wrapper index =
        { arena.wrapper index with
          children := (laid.wrapper index).children.map
            (Function.update target later earlier) } := by
  have parent : (arena.wrapper later).parent = (laid.wrapper later).parent := by
    rw [redirects.wrapper later inside]
  have unchanged (index : Nat) (elsewhere : later ∉ (laid.wrapper index).children) :
      (laid.wrapper index).children.map (Function.update target later earlier) =
        (laid.wrapper index).children.map target :=
    List.map_congr_left fun child member =>
      Function.update_of_ne (ne_of_mem_of_not_mem member elsewhere) _ _
  rw [parent]
  cases place : (laid.wrapper later).parent with
  | none =>
      refine ⟨redirects.size, redirects.buckets, fun index within => ?_⟩
      rw [unchanged index, Arena.redirect, redirects.wrapper index within]
      intro member
      obtain ⟨slot, inPlace⟩ := List.mem_iff_getElem?.mp member
      rw [← laidOut.parent_iff, place] at inPlace
      cases inPlace
  | some place' =>
      obtain ⟨parent, slot⟩ := place'
      have inPlace := (laidOut.parent_iff parent slot later).mp place
      have parentInside := (laidOut.child_lt (List.mem_of_getElem? inPlace)).2
      refine ⟨size_change.trans redirects.size, redirects.buckets, fun index within => ?_⟩
      rw [Arena.redirect, wrapper_change (redirects.size ▸ parentInside)]
      by_cases same : parent = index
      · subst same
        rw [if_pos rfl, redirects.wrapper parent within]
        congr 1
        refine List.ext_getElem? fun other => ?_
        rw [List.getElem?_set, List.getElem?_map, List.getElem?_map, List.length_map]
        by_cases atSlot : slot = other
        · subst atSlot
          have inBounds := (List.getElem?_eq_some_iff.mp inPlace).1
          rw [if_pos rfl, if_pos inBounds, inPlace, Option.map_some, Function.update_self]
        · rw [if_neg atSlot]
          cases child : (laid.wrapper parent).children[other]? with
          | none => rfl
          | some child' =>
              have different : child' ≠ later := by
                rintro rfl
                rw [← laidOut.parent_iff, place, Option.some.injEq, Prod.mk.injEq] at child
                exact atSlot child.2
              rw [Option.map_some, Option.map_some, Function.update_of_ne different]
      · rw [if_neg same, unchanged index, redirects.wrapper index within]
        intro member
        obtain ⟨otherSlot, otherPlace⟩ := List.mem_iff_getElem?.mp member
        rw [← laidOut.parent_iff, place, Option.some.injEq, Prod.mk.injEq] at otherPlace
        exact same otherPlace.1

/-- One pair of wrappers. -/
theorem Redirects.merge (laidOut : laid.LaidOut) (redirects : laid.Redirects target arena)
    (settled : ∀ index < laid.size, target (target index) = target index)
    (only : ∀ index < laid.size, target index = later → index = later)
    (before : earlier < later) (inside : later < laid.size) :
    laid.Redirects
      (if target earlier = earlier ∧ target later = later ∧ arena.equal earlier later = true
        then Function.update target later earlier else target)
      (arena.merge earlier later) := by
  have earlierInside := before.trans inside
  have decides :
      (arena.isAlive earlier && arena.isAlive later && arena.equal earlier later) = true ↔
      target earlier = earlier ∧ target later = later ∧ arena.equal earlier later = true := by
    rw [Bool.and_eq_true, Bool.and_eq_true, redirects.isAlive_iff settled earlierInside,
      redirects.isAlive_iff settled inside, and_assoc]
  rw [Arena.merge]
  by_cases merges : target earlier = earlier ∧ target later = later ∧
      arena.equal earlier later = true
  · rw [if_pos merges, if_pos (decides.mpr merges)]
    have alone := merges.2.1
    have counts := count_redirected inside alone only before.ne
    have ⟨size, buckets, places⟩ := redirects.redirect laidOut inside alone earlier
    have sizeLater : ((arena.redirect (arena.wrapper later).parent earlier).change earlier
        fun wrapper => { wrapper with references := wrapper.references + 1 }).size = laid.size :=
      size_change.trans size
    refine ⟨size_change.trans sizeLater, buckets, fun index within => ?_⟩
    rw [wrapper_change (sizeLater ▸ inside), wrapper_change (size ▸ earlierInside),
      places index within, redirects.wrapper index within, counts]
    by_cases isLater : later = index
    · subst isLater
      rw [if_pos rfl, if_neg before.ne, if_neg before.ne', if_pos rfl]
    · rw [if_neg isLater, if_neg (Ne.symm isLater)]
      by_cases isEarlier : earlier = index
      · subst isEarlier
        rw [if_pos rfl, if_pos rfl]
      · rw [if_neg isEarlier, if_neg (Ne.symm isEarlier)]
  · rw [if_neg merges, if_neg (decides.not.mpr merges)]
    exact redirects

end Arena

end SymbolicAlgebra

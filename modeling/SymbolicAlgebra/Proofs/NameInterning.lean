import Mathlib.Data.Finset.Card
import Mathlib.Data.Finset.Dedup
import Mathlib.Data.List.Basic
import Mathlib.Tactic.IntervalCases
import SymbolicAlgebra.NameTable

/-!
# Interned names

The accesses to a table of names form a history.  Whoever interns a name looks it up first,
and only if it is not found comes back to register it.  Others may have used the table in
between, so a late registration is an access of its own, and it looks again.

As long as the numbers do not run out, the two directions of the table are inverse to each
other, and the names are those that the history has interned.  Both are kept by each access.
Names are only ever added behind the others, so a number that has been handed out belongs to
its name for good.
-/

namespace SymbolicAlgebra

namespace NameTable

/-! ## Histories of accesses -/

/-- One access to a table. -/
inductive Access where
  | intern (name : String)
  /-- What is left of an intern after a look-up that found nothing. -/
  | register (name : String)
  | lookup (name : String)
deriving DecidableEq

namespace Access

/-- The name that an access makes sure is in the table. -/
def interned? : Access → Option String
  | intern name | register name => some name
  | lookup _ => none

/-- The number that an access answers with. -/
def answer (table : NameTable) : Access → Option NameId
  | intern name => some (table.intern name).1
  | register name => some (table.register name).1
  | lookup name => table.lookup? name

/-- The table behind an access. -/
def run (table : NameTable) : Access → NameTable
  | intern name => (table.intern name).2
  | register name => (table.register name).2
  | lookup _ => table

end Access

/-- The table behind a history that began with no names. -/
def after (history : List Access) : NameTable := history.foldl Access.run empty

/-- The names that a history has interned. -/
def internedNames (history : List Access) : List String := history.filterMap Access.interned?

/-- The access at this place of the history interns the name and answers with the number. -/
def InternedAt (history : List Access) (place : ℕ) (name : String) (id : NameId) : Prop :=
  ∃ access, history[place]? = some access ∧ access.interned? = some name ∧
    access.answer (after (history.take place)) = some id

variable {table : NameTable} {name : String} {id : NameId} {access : Access}
  {history : List Access} {place : ℕ}

/-! ## One access -/

theorem register_of_found (found : table.lookup? name = some id) :
    table.register name = (id, table) := by
  rw [register, found]

theorem register_of_missing (missing : table.lookup? name = none) :
    table.register name = (⟨UInt32.ofNat table.names.length⟩,
      ⟨(name, ⟨UInt32.ofNat table.names.length⟩) :: table.ids, table.names ++ [name]⟩) := by
  rw [register, missing]

/-- The first look-up saves the second access, and changes nothing else. -/
theorem intern_eq_register (table : NameTable) (name : String) :
    table.intern name = table.register name := by
  rw [intern]
  split
  · rename_i id found
    exact (register_of_found found).symm
  · rfl

theorem lookup?_register (table : NameTable) (name : String) :
    (table.register name).2.lookup? name = some (table.register name).1 := by
  cases found : table.lookup? name with
  | some id => rw [register_of_found found, found]
  | none =>
      rw [register_of_missing found]
      exact List.lookup_cons_self

theorem names_prefix_register (table : NameTable) (name : String) :
    table.names <+: (table.register name).2.names := by
  cases found : table.lookup? name with
  | some id => rw [register_of_found found]
  | none =>
      rw [register_of_missing found]
      exact List.prefix_append _ _

namespace Access

theorem run_of_interned (interned : access.interned? = some name) (table : NameTable) :
    access.run table = (table.register name).2 := by
  cases access with
  | lookup other => cases interned
  | register other => rw [run, Option.some.inj interned]
  | intern other => rw [run, Option.some.inj interned, intern_eq_register]

theorem answer_of_interned (interned : access.interned? = some name) (table : NameTable) :
    access.answer table = some (table.register name).1 := by
  cases access with
  | lookup other => cases interned
  | register other => rw [answer, Option.some.inj interned]
  | intern other => rw [answer, Option.some.inj interned, intern_eq_register]

theorem run_of_not_interned (none : access.interned? = none) (table : NameTable) :
    access.run table = table := by
  cases access with
  | lookup other => rfl
  | register other => cases none
  | intern other => cases none

theorem names_prefix_run (table : NameTable) (access : Access) :
    table.names <+: (access.run table).names := by
  cases interned : access.interned? with
  | none => rw [run_of_not_interned interned]
  | some name =>
      rw [run_of_interned interned]
      exact table.names_prefix_register name

end Access

/-! ## Both directions of the table -/

theorem lookup?_cons (table : NameTable) (name other : String) (id : NameId) :
    (NameTable.mk ((name, id) :: table.ids) (table.names ++ [name])).lookup? other =
      if other = name then some id else table.lookup? other := by
  by_cases same : other = name
  · rw [if_pos same, lookup?, same, List.lookup_cons_self]
  · rw [if_neg same, lookup?, List.lookup_cons, beq_false_of_ne same]
    rfl

/-- A new name stands behind all others. -/
theorem getElem?_concat_eq_some {names : List String} (absent : name ∉ names) (other : String)
    (index : ℕ) : (names ++ [name])[index]? = some other ↔
      if other = name then index = names.length else names[index]? = some other := by
  rcases Nat.lt_trichotomy index names.length with inside | rfl | outside
  · rw [List.getElem?_append_left inside]
    split
    · rename_i same
      exact iff_of_false (fun found => absent (same ▸ List.mem_of_getElem? found)) inside.ne
    · rfl
  · rw [List.getElem?_concat_length, List.getElem?_eq_none le_rfl, Option.some.injEq]
    split
    · rename_i same
      exact iff_of_true same.symm rfl
    · rename_i different
      exact iff_of_false (fun same => different same.symm) nofun
  · have beyond : (names ++ [name]).length ≤ index := List.length_append ▸ outside
    rw [List.getElem?_eq_none beyond, List.getElem?_eq_none outside.le]
    split
    · exact iff_of_false nofun outside.ne'
    · rfl

/-- Every name has one number, and the number leads back to it. -/
structure IsPaired (table : NameTable) : Prop where
  distinct : table.names.Nodup
  few : table.names.length ≤ UInt32.size
  agree : ∀ name id, table.lookup? name = some id ↔ table.names[id.number.toNat]? = some name

theorem isPaired_empty : empty.IsPaired := ⟨.nil, Nat.zero_le _, fun _ _ => ⟨nofun, nofun⟩⟩

namespace IsPaired

theorem lookup?_eq_none (paired : table.IsPaired) :
    table.lookup? name = none ↔ name ∉ table.names := by
  constructor
  · intro missing member
    obtain ⟨index, inside, rfl⟩ := List.mem_iff_getElem.mp member
    have small : (UInt32.ofNat index).toNat = index :=
      UInt32.toNat_ofNat_of_lt' (inside.trans_le paired.few)
    have found := (paired.agree table.names[index] ⟨UInt32.ofNat index⟩).mpr
      (by rw [small, List.getElem?_eq_getElem inside])
    exact Option.some_ne_none _ (found.symm.trans missing)
  · intro absent
    refine Option.eq_none_iff_forall_ne_some.mpr fun id found => absent ?_
    exact List.mem_of_getElem? ((paired.agree name id).mp found)

/-- A registration keeps the directions inverse to each other while numbers are left. -/
theorem register (paired : table.IsPaired) (room : table.names.length < UInt32.size)
    (name : String) : (table.register name).2.IsPaired := by
  cases found : table.lookup? name with
  | some id => rwa [register_of_found found]
  | none =>
      have absent : name ∉ table.names := paired.lookup?_eq_none.mp found
      have isNext (id : NameId) : id.number.toNat = table.names.length ↔
          id.number = UInt32.ofNat table.names.length := by
        rw [← UInt32.toNat_inj, UInt32.toNat_ofNat_of_lt' room]
      rw [register_of_missing found]
      refine ⟨?_, List.length_append ▸ room, fun other id => ?_⟩
      · exact List.concat_eq_append ▸ paired.distinct.concat absent
      · rw [lookup?_cons, getElem?_concat_eq_some absent]
        split
        · rw [isNext, Option.some.injEq]
          exact ⟨fun chosen => chosen ▸ rfl, fun number => congrArg NameId.mk number.symm⟩
        · exact paired.agree other id

theorem mem_names_register (paired : table.IsPaired) (other : String) :
    other ∈ (table.register name).2.names ↔ other ∈ table.names ∨ other = name := by
  cases found : table.lookup? name with
  | some id =>
      have listed : name ∈ table.names := List.mem_of_getElem? ((paired.agree name id).mp found)
      rw [register_of_found found]
      exact ⟨.inl, fun either => either.elim (fun member => member) fun same => same ▸ listed⟩
  | none =>
      rw [register_of_missing found, List.mem_append, List.mem_singleton]

end IsPaired

/-! ## Whole histories -/

theorem after_concat (history : List Access) (access : Access) :
    after (history ++ [access]) = access.run (after history) := by
  rw [after, List.foldl_append]
  rfl

theorem after_take_succ (reached : history[place]? = some access) :
    after (history.take (place + 1)) = access.run (after (history.take place)) := by
  rw [List.take_add_one, reached, Option.toList_some, after_concat]

theorem names_prefix_after (history rest : List Access) :
    (after history).names <+: (after (history ++ rest)).names := by
  induction rest using List.reverseRecOn with
  | nil => rw [List.append_nil]
  | append_singleton rest access ih =>
      rw [← List.append_assoc, after_concat]
      exact ih.trans (Access.names_prefix_run _ access)

/-- There is a number for each of the different names that are interned. -/
def HasRoom (history : List Access) : Prop :=
  (internedNames history).toFinset.card < UInt32.size

namespace HasRoom

theorem of_append {rest : List Access} (room : HasRoom (history ++ rest)) : HasRoom history := by
  refine (Finset.card_le_card ?_).trans_lt room
  rw [internedNames, internedNames, List.filterMap_append, List.toFinset_append]
  exact Finset.subset_union_left

theorem take (room : HasRoom history) (moment : ℕ) : HasRoom (history.take moment) :=
  of_append (by rwa [List.take_append_drop])

/-- The table is paired, and it holds the interned names and no other. -/
theorem isPaired (room : HasRoom history) : (after history).IsPaired ∧
    ∀ name, name ∈ (after history).names ↔ name ∈ internedNames history := by
  induction history using List.reverseRecOn with
  | nil => exact ⟨isPaired_empty, fun _ => Iff.rfl⟩
  | append_singleton history access ih =>
      obtain ⟨paired, members⟩ := ih room.of_append
      have more (name : String) : name ∈ internedNames (history ++ [access]) ↔
          name ∈ internedNames history ∨ access.interned? = some name := by
        simp [internedNames, List.mem_filterMap]
      rw [after_concat]
      cases interned : access.interned? with
      | none =>
          rw [Access.run_of_not_interned interned]
          refine ⟨paired, fun name => ?_⟩
          rw [members, more, interned]
          simp
      | some name =>
          have length : (after history).names.length < UInt32.size := by
            rw [← List.toFinset_card_of_nodup paired.distinct]
            refine (Finset.card_le_card fun other member => ?_).trans_lt room.of_append
            rw [List.mem_toFinset] at member ⊢
            exact (members other).mp member
          rw [Access.run_of_interned interned]
          refine ⟨paired.register length name, fun other => ?_⟩
          rw [paired.mem_names_register, members, more, interned, Option.some.injEq, eq_comm]

end HasRoom

theorem exists_internedAt (reached : history[place]? = some access)
    (interned : access.interned? = some name) : ∃ id, InternedAt history place name id :=
  ⟨_, access, reached, interned, access.answer_of_interned interned _⟩

/-- A number that has been handed out leads to its name at every later moment. -/
theorem InternedAt.name_stays (interned : InternedAt history place name id)
    (room : HasRoom history) {moment : ℕ} (later : place < moment) :
    (after (history.take moment)).names[id.number.toNat]? = some name := by
  obtain ⟨access, reached, internsName, answered⟩ := interned
  have registered : (after (history.take (place + 1))).lookup? name = some id := by
    rw [access.answer_of_interned internsName] at answered
    rw [after_take_succ reached, access.run_of_interned internsName, lookup?_register, answered]
  have listed := ((room.take (place + 1)).isPaired.1.agree name id).mp registered
  have longer : (after (history.take (place + 1))).names <+:
      (after (history.take moment)).names := by
    have split : history.take moment =
        history.take (place + 1) ++ (history.take moment).drop (place + 1) := by
      conv_lhs => rw [← List.take_append_drop (place + 1) (history.take moment)]
      rw [List.take_take, Nat.min_eq_left later]
    rw [split]
    exact names_prefix_after _ _
  obtain ⟨rest, appended⟩ := longer
  rw [← appended, List.getElem?_append_left (List.getElem?_eq_some_iff.mp listed).1, listed]

/-- A name is found exactly if it was interned before, under the number it got then. -/
theorem lookup?_after_take (room : HasRoom history) (moment : ℕ) (name : String) (id : NameId) :
    (after (history.take moment)).lookup? name = some id ↔
      ∃ place < moment, InternedAt history place name id := by
  obtain ⟨paired, members⟩ := (room.take moment).isPaired
  rw [paired.agree]
  constructor
  · intro listed
    have interned := (members name).mp (List.mem_of_getElem? listed)
    obtain ⟨access, member, internsName⟩ := List.mem_filterMap.mp interned
    obtain ⟨place, reached⟩ := List.mem_iff_getElem?.mp member
    rw [List.getElem?_take] at reached
    split at reached
    · rename_i earlier
      obtain ⟨first, internedFirst⟩ := exists_internedAt reached internsName
      have firstFound := (paired.agree name first).mpr (internedFirst.name_stays room earlier)
      have found := (paired.agree name id).mpr listed
      obtain rfl : first = id := Option.some.inj (firstFound.symm.trans found)
      exact ⟨place, earlier, internedFirst⟩
    · cases reached
  · rintro ⟨place, earlier, interned⟩
    exact interned.name_stays room earlier

/-- Names are told apart by their numbers.  In a history with fewer names than there are
numbers, every intern answers; any two of them answer with one number exactly if they intern
one name; and a number leads to its name from then on.  A look-up finds the names interned
before it, under these numbers, and the table is what the interns alone would have made it. -/
theorem interning_is_stable_and_injective (history : List Access) (room : HasRoom history) :
    (∀ place access name, history[place]? = some access → access.interned? = some name →
        ∃ id, InternedAt history place name id) ∧
      (∀ first second s t x y, InternedAt history first s x → InternedAt history second t y →
        (x = y ↔ s = t)) ∧
      (∀ place moment name id, InternedAt history place name id → place < moment →
        (after (history.take moment)).name id = name) ∧
      (∀ moment name id, (after (history.take moment)).lookup? name = some id ↔
        ∃ place < moment, InternedAt history place name id) ∧
      after history = after (history.filter (·.interned?.isSome)) := by
  refine ⟨fun _ _ _ reached interned => exists_internedAt reached interned, ?_, ?_,
    lookup?_after_take room, ?_⟩
  · intro first second s t x y internedFirst internedSecond
    obtain ⟨paired, -⟩ := (room.take (max first second + 1)).isPaired
    have firstListed := internedFirst.name_stays room (Nat.lt_succ_of_le (le_max_left _ second))
    have secondListed := internedSecond.name_stays room (Nat.lt_succ_of_le (le_max_right first _))
    constructor
    · rintro rfl
      exact Option.some.inj (firstListed.symm.trans secondListed)
    · rintro rfl
      exact Option.some.inj (((paired.agree s x).mpr firstListed).symm.trans
        ((paired.agree s y).mpr secondListed))
  · intro place moment name id interned later
    rw [NameTable.name, interned.name_stays room later, Option.getD_some]
  · rw [after, after, List.foldl_filter]
    refine List.foldl_ext _ _ _ fun table access _ => ?_
    split
    · rfl
    · rename_i none
      exact access.run_of_not_interned (Option.not_isSome_iff_eq_none.mp none) table

/-- Two names are interned, the second one late, and the first is interned again. -/
theorem late_registration_keeps_earlier_number :
    let history : List Access := [.intern "x", .lookup "y", .register "y", .intern "x"]
    HasRoom history ∧ ∃ x y, InternedAt history 0 "x" x ∧ InternedAt history 2 "y" y ∧
      InternedAt history 3 "x" x ∧ x ≠ y ∧ (after history).name x = "x" ∧
      (after (history.take 2)).lookup? "y" = none := by
  intro history
  have room : HasRoom history := by
    have two : (internedNames history).toFinset.card = 2 := by decide
    rw [HasRoom, two]
    decide
  obtain ⟨answers, injective, stays, found, -⟩ := interning_is_stable_and_injective history room
  obtain ⟨x, first⟩ := answers 0 _ "x" rfl rfl
  obtain ⟨y, second⟩ := answers 2 _ "y" rfl rfl
  obtain ⟨again, third⟩ := answers 3 _ "x" rfl rfl
  obtain rfl := (injective 0 3 "x" "x" x again first third).mpr rfl
  have different : ("x" : String) ≠ "y" := by decide
  refine ⟨room, x, y, first, second, third, fun same => different ?_,
    stays 0 4 "x" x first (by decide), ?_⟩
  · exact (injective 0 2 "x" "y" x y first second).mp same
  · refine Option.eq_none_iff_forall_ne_some.mpr fun id early => ?_
    obtain ⟨place, before, access, reached, interned, -⟩ := (found 2 "y" id).mp early
    interval_cases place
    · obtain rfl := Option.some.inj reached
      exact different (Option.some.inj interned)
    · obtain rfl := Option.some.inj reached
      cases interned

end NameTable

end SymbolicAlgebra

import Mathlib.Data.List.Basic
import SymbolicAlgebra.Document.Parser

/-!
# Dictionaries as maps

What a dictionary holds after insertions, and what a document holds that is put
together from sections: for each title and key the values of the last entry for them,
and nothing else.  Keys stand in strictly ascending order, so a dictionary has no
entries but those that a look-up shows.
-/

namespace SymbolicAlgebra

namespace Dictionary

variable {Value : Type} {dictionary : Dictionary Value} {key other : String} {value : Value}

/-! ## Look-ups -/

theorem get?_cons (key other : String) (value : Value) (dictionary : Dictionary Value) :
    get? ((key, value) :: dictionary) other =
      if key = other then some value else get? dictionary other := by
  by_cases same : key = other <;> simp [get?, same]

theorem get?_append (first second : Dictionary Value) (key : String) :
    get? (first ++ second) key = (get? first key).or (get? second key) := by
  rw [get?, List.find?_append, Option.map_or]
  rfl

theorem get?_insert (key other : String) (value : Value) (dictionary : Dictionary Value) :
    get? (insert key value dictionary) other =
      if key = other then some value else get? dictionary other := by
  induction dictionary with
  | nil => exact get?_cons key other value []
  | cons entry dictionary ih =>
      obtain ⟨first, old⟩ := entry
      unfold insert
      split
      · exact get?_cons key other value _
      · rename_i equal
        obtain rfl : key = first := Std.LawfulEqOrd.compare_eq_iff_eq.mp equal
        rw [get?_cons, get?_cons]
        split <;> rfl
      · rename_i greater
        have differs : key ≠ first := by
          rintro rfl
          rw [Std.ReflOrd.compare_self] at greater
          cases greater
        rw [get?_cons, get?_cons, ih]
        by_cases here : first = other
        · rw [if_pos here, if_pos here, if_neg fun same => differs (same.trans here.symm)]
        · rw [if_neg here, if_neg here]

/-- The value of the last of some entries for a key, else the value before. -/
theorem get?_insertAll (entries : List (String × Value)) (dictionary : Dictionary Value)
    (key : String) :
    get? (insertAll dictionary entries) key =
      (get? entries.reverse key).or (get? dictionary key) := by
  induction entries generalizing dictionary with
  | nil => rfl
  | cons entry entries ih =>
      have step : insertAll dictionary (entry :: entries) =
          insertAll (insert entry.1 entry.2 dictionary) entries := rfl
      rw [step, ih, get?_insert, List.reverse_cons, get?_append, Option.or_assoc, get?_cons]
      congr 1
      split <;> rfl

/-! ## Order -/

/-- The keys stand in strictly ascending order. -/
def Ascends (dictionary : Dictionary Value) : Prop :=
  dictionary.Pairwise fun first second => compare first.1 second.1 = .lt

theorem mem_insert {entry : String × Value}
    (member : entry ∈ insert key value dictionary) :
    entry = (key, value) ∨ entry ∈ dictionary := by
  induction dictionary with
  | nil => exact .inl (List.mem_singleton.mp member)
  | cons first dictionary ih =>
      unfold insert at member
      split at member
      · exact List.mem_cons.mp member
      · exact (List.mem_cons.mp member).imp_right (List.mem_cons_of_mem _)
      · rcases List.mem_cons.mp member with rfl | later
        · exact .inr List.mem_cons_self
        · exact (ih later).imp_right (List.mem_cons_of_mem _)

theorem Ascends.insert (ascends : dictionary.Ascends) :
    (Dictionary.insert key value dictionary).Ascends := by
  induction dictionary with
  | nil => exact List.pairwise_singleton _ _
  | cons first dictionary ih =>
      obtain ⟨before, rest⟩ := List.pairwise_cons.mp ascends
      unfold Dictionary.insert
      split
      · rename_i less
        refine List.pairwise_cons.mpr ⟨fun entry member => ?_, ascends⟩
        rcases List.mem_cons.mp member with rfl | later
        · exact less
        · exact Std.TransCmp.lt_trans less (before entry later)
      · rename_i equal
        obtain rfl : key = first.1 := Std.LawfulEqOrd.compare_eq_iff_eq.mp equal
        exact List.pairwise_cons.mpr ⟨before, rest⟩
      · rename_i greater
        refine List.pairwise_cons.mpr ⟨fun entry member => ?_, ih rest⟩
        rcases mem_insert member with rfl | old
        · exact Std.OrientedCmp.gt_iff_lt.mp greater
        · exact before entry old

theorem Ascends.insertAll (ascends : dictionary.Ascends) (entries : List (String × Value)) :
    (Dictionary.insertAll dictionary entries).Ascends := by
  induction entries generalizing dictionary with
  | nil => exact ascends
  | cons entry entries ih => exact ih ascends.insert

theorem mem_of_get? (found : get? dictionary key = some value) : (key, value) ∈ dictionary := by
  obtain ⟨entry, present, rfl⟩ := Option.map_eq_some_iff.mp found
  have matched := List.find?_some present
  obtain rfl : entry.1 = key := of_decide_eq_true matched
  exact List.mem_of_find?_eq_some present

end Dictionary

namespace Document

open Dictionary (get?)

variable {document : Document} {sections : List (String × List Entry)} {title key : String}

/-! ## Documents from sections -/

/-- The values of a key in the section of a title. -/
def valuesOf? (document : Document) (title key : String) : Option (List Value) :=
  (get? document title).bind (get? · key)

/-- Adds the entries of a section to those of the section with its title. -/
def addSection (document : Document) (found : String × List Entry) : Document :=
  Dictionary.insert found.1
    (Dictionary.insertAll ((get? document found.1).getD []) found.2) document

theorem ofSections_eq_foldl (sections : List (String × List Entry)) :
    ofSections sections = sections.foldl addSection [] :=
  rfl

/-- All entries of some sections in order, each with the title of its section. -/
def titledEntries (sections : List (String × List Entry)) :
    List ((String × String) × List Value) :=
  sections.flatMap fun found => found.2.map fun entry => ((found.1, entry.1), entry.2)

/-- The values of the last entry for a title and a key. -/
def lastValues? (sections : List (String × List Entry)) (title key : String) :
    Option (List Value) :=
  ((titledEntries sections).reverse.find? (·.1 = (title, key))).map (·.2)

theorem lastValues?_append (first second : List (String × List Entry)) (title key : String) :
    lastValues? (first ++ second) title key =
      (lastValues? second title key).or (lastValues? first title key) := by
  rw [lastValues?, titledEntries, List.flatMap_append, List.reverse_append, List.find?_append,
    Option.map_or]
  rfl

theorem lastValues?_singleton (found : String × List Entry) (title key : String) :
    lastValues? [found] title key =
      if found.1 = title then get? found.2.reverse key else none := by
  obtain ⟨other, entries⟩ := found
  rw [lastValues?, titledEntries, List.flatMap_cons, List.flatMap_nil, List.append_nil,
    ← List.map_reverse, List.find?_map, get?]
  by_cases same : other = title <;> simp [Function.comp_def, same]

theorem valuesOf?_addSection (document : Document) (found : String × List Entry)
    (title key : String) :
    valuesOf? (addSection document found) title key =
      (lastValues? [found] title key).or (valuesOf? document title key) := by
  rw [valuesOf?, addSection, Dictionary.get?_insert, lastValues?_singleton]
  split
  · rename_i same
    subst same
    rw [Option.bind_some, Dictionary.get?_insertAll, valuesOf?]
    cases get? document found.1 <;> rfl
  · rfl

theorem valuesOf?_foldl_addSection (sections : List (String × List Entry)) (document : Document)
    (title key : String) :
    valuesOf? (sections.foldl addSection document) title key =
      (lastValues? sections title key).or (valuesOf? document title key) := by
  induction sections generalizing document with
  | nil => rfl
  | cons found sections ih =>
      rw [List.foldl_cons, ih, valuesOf?_addSection, ← Option.or_assoc, ← lastValues?_append]
      rfl

/-- A document from sections holds the last values for each title and key. -/
theorem valuesOf?_ofSections (sections : List (String × List Entry)) (title key : String) :
    valuesOf? (ofSections sections) title key = lastValues? sections title key := by
  rw [ofSections_eq_foldl, valuesOf?_foldl_addSection]
  exact Option.or_none

theorem isSome_get?_foldl_addSection (sections : List (String × List Entry))
    (document : Document) (title : String) :
    (get? (sections.foldl addSection document) title).isSome ↔
      title ∈ sections.map Prod.fst ∨ (get? document title).isSome := by
  induction sections generalizing document with
  | nil => simp
  | cons found sections ih =>
      rw [List.foldl_cons, ih, addSection, Dictionary.get?_insert, List.map_cons, List.mem_cons]
      by_cases same : found.1 = title
      · simp [same]
      · simp [same, Ne.symm same]

/-- A document from sections holds a section for each of their titles. -/
theorem isSome_get?_ofSections (sections : List (String × List Entry)) (title : String) :
    (get? (ofSections sections) title).isSome ↔ title ∈ sections.map Prod.fst := by
  rw [ofSections_eq_foldl, isSome_get?_foldl_addSection]
  simp [get?]

/-- Titles and keys stand in strictly ascending order. -/
def Ascends (document : Document) : Prop :=
  Dictionary.Ascends document ∧ ∀ found ∈ document, Dictionary.Ascends found.2

theorem Ascends.addSection (ascends : document.Ascends) (found : String × List Entry) :
    (Document.addSection document found).Ascends := by
  refine ⟨ascends.1.insert, fun part member => ?_⟩
  rcases Dictionary.mem_insert member with rfl | old
  · refine Dictionary.Ascends.insertAll ?_ found.2
    cases present : get? document found.1 with
    | none => exact List.Pairwise.nil
    | some old => exact ascends.2 _ (Dictionary.mem_of_get? present)
  · exact ascends.2 part old

theorem ascends_ofSections (sections : List (String × List Entry)) :
    (ofSections sections).Ascends := by
  have grows (document : Document) (ascends : document.Ascends) :
      (sections.foldl addSection document).Ascends := by
    induction sections generalizing document with
    | nil => exact ascends
    | cons found sections ih => exact ih _ (ascends.addSection found)
  exact grows [] ⟨List.Pairwise.nil, List.forall_mem_nil _⟩

end Document

end SymbolicAlgebra

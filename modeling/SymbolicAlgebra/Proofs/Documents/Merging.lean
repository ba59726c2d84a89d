import SymbolicAlgebra.Configuration
import SymbolicAlgebra.Proofs.Documents.Dictionaries
import SymbolicAlgebra.Proofs.Documents.Lines

/-!
# Documents put together

Two documents, one behind the other on lines of their own, are one document with the
entries of both, in which the second wins.  Settings depend on the values of a few keys
only, so a text behind without any of these does not change them.
-/

namespace SymbolicAlgebra

namespace Document

open Dictionary (get?)

/-! ## Texts with documents -/

/-- There is no white space but spaces, tabs and line breaks. -/
def HasPlainBlanks (text : String) : Prop :=
  ∀ c ∈ text.toList, Text.isBlank c = true → isSpaceOrBreak c = true

instance (text : String) : Decidable (HasPlainBlanks text) :=
  decidable_of_iff (text.toList.all fun c => !Text.isBlank c || isSpaceOrBreak c) <| by
    simp [HasPlainBlanks, Decidable.imp_iff_not_or]

variable {text : String} {sections : List (String × List Entry)} {document : Document}

theorem parse_of_reads (reads : Reads (withoutComments text.toList) sections) :
    parse text = .ok (ofSections sections) :=
  ofPlainText_of_reads reads

theorem reads_of_parse (plain : HasPlainBlanks text) (parsed : parse text = .ok document) :
    ∃ sections, Reads (withoutComments text.toList) sections ∧
      document = ofSections sections := by
  refine reads_of_ofPlainText (fun c member blank => ?_) parsed
  rcases mem_of_mem_withoutComments member with rfl | inText
  · decide
  · exact plain c inText blank

/-! ## Merged documents -/

/-- The document holds the entries of both others, and those of the second for keys that
both of them have. -/
structure Merges (document first second : Document) : Prop where
  ascends : document.Ascends
  isSome_get?_iff (title : String) :
    (get? document title).isSome ↔ (get? first title).isSome ∨ (get? second title).isSome
  valuesOf?_eq (title key : String) :
    valuesOf? document title key = (valuesOf? second title key).or (valuesOf? first title key)

theorem merges_ofSections_append (sections later : List (String × List Entry)) :
    (ofSections (sections ++ later)).Merges (ofSections sections) (ofSections later) where
  ascends := ascends_ofSections _
  isSome_get?_iff title := by
    rw [isSome_get?_ofSections, isSome_get?_ofSections, isSome_get?_ofSections, List.map_append,
      List.mem_append]
  valuesOf?_eq title key := by
    rw [valuesOf?_ofSections, valuesOf?_ofSections, valuesOf?_ofSections, lastValues?_append]

end Document

namespace Configuration

open Document (valuesOf?)

variable {first second : Document}

/-! ## Settings -/

/-- The keys that are looked up for settings, with the titles of their sections. -/
def knownKeys : List (String × String) :=
  [("controller", "allow_loops"), ("controller", "allow_random"), ("controller", "scratch_pool"),
    ("controller", "sleep_poll_ms"), ("logging", "level"), ("logging", "file")]

theorem read_congr {Setting : Type} {title key : String}
    (same : valuesOf? first title key = valuesOf? second title key) (fallback : Setting)
    (convert? : Document.Value → Option Setting) :
    read first title key fallback convert? = read second title key fallback convert? := by
  unfold valuesOf? at same
  rw [read, read, single?, single?, same]

/-- Settings depend on nothing but the values of the known keys. -/
theorem ofDocument_congr
    (same : ∀ known ∈ knownKeys,
      valuesOf? first known.1 known.2 = valuesOf? second known.1 known.2) :
    ofDocument first = ofDocument second := by
  simp only [knownKeys, List.forall_mem_cons] at same
  obtain ⟨loops, random, pool, poll, level, file, -⟩ := same
  rw [ofDocument, ofDocument, read_congr loops, read_congr random, read_congr pool,
    read_congr poll, read_congr level, read_congr file]

end Configuration

namespace Document

variable {first second : String} {firstDocument secondDocument : Document}

/-- Two texts with documents, one behind the other on lines of their own, have the merged
document; and if the second has none of the known keys, the settings of the first. -/
theorem parse_append_merges (plain : HasPlainBlanks first) (plain' : HasPlainBlanks second)
    (parsed : parse first = .ok firstDocument) (parsed' : parse second = .ok secondDocument) :
    (∃ document, parse (first ++ "\n" ++ second) = .ok document ∧
      document.Merges firstDocument secondDocument) ∧
    ((∀ known ∈ Configuration.knownKeys, valuesOf? secondDocument known.1 known.2 = none) →
      Configuration.parse (first ++ "\n" ++ second) = Configuration.parse first) := by
  obtain ⟨sections, reads, rfl⟩ := reads_of_parse plain parsed
  obtain ⟨later, reads', rfl⟩ := reads_of_parse plain' parsed'
  have characters : (first ++ "\n" ++ second).toList = first.toList ++ '\n' :: second.toList := by
    simp
  have whole : parse (first ++ "\n" ++ second) = .ok (ofSections (sections ++ later)) := by
    refine parse_of_reads ?_
    rw [characters]
    exact reads_withoutComments_append reads reads'
  have merges := merges_ofSections_append sections later
  refine ⟨⟨_, whole, merges⟩, fun unknown => ?_⟩
  rw [Configuration.parse, Configuration.parse, whole, parsed]
  refine Configuration.ofDocument_congr fun known listed => ?_
  rw [merges.valuesOf?_eq, unknown known listed]
  rfl

/-- The second text stands behind a comment and a carriage return. -/
theorem parse_append_behind_comment :
    (∃ document,
      parse ("controller\n scratch_pool: 4\n# end\r" ++ "\n" ++ "logging\n width: 80") =
        .ok document ∧
      document.Merges [("controller", [("scratch_pool", [.integer 4])])]
        [("logging", [("width", [.integer 80])])]) ∧
    Configuration.parse
        ("controller\n scratch_pool: 4\n# end\r" ++ "\n" ++ "logging\n width: 80") =
      Configuration.parse "controller\n scratch_pool: 4\n# end\r" := by
  have merged := parse_append_merges (by decide) (by decide)
    (rfl : parse "controller\n scratch_pool: 4\n# end\r" = .ok _)
    (rfl : parse "logging\n width: 80" = .ok _)
  exact ⟨merged.1, merged.2 (by decide)⟩

end Document

end SymbolicAlgebra

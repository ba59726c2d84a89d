import SymbolicAlgebra.Proofs.FormulaReader
import SymbolicAlgebra.Proofs.Hoisting
import SymbolicAlgebra.Proofs.Substitution

/-!
# Formulas and their text

The text of a tree is read as the tree.  An operand without parentheses binds at least as
strongly as the reader asks for in its place, and what stands behind it is a sign that
binds too weakly to be taken into it.  On both sides this is a comparison of strengths: of
a node itself for the signs around it, and of its last operand for the sign behind it.

So different trees of variables and integers have different texts.
-/

namespace SymbolicAlgebra

namespace Formula

open Document (isName continuesName)

variable {rest : List Char} {c : Char} {strength strength' : Nat}

/-! ## Ends of operands -/

/-- The text neither goes on with the name or number before it, nor starts with a sign
that binds at least this strongly. -/
structure Ends (strength : Nat) (rest : List Char) : Prop where
  noName : ∀ c ∈ rest.head?, continuesName c = false ∧ c ≠ '('
  weak : ∀ sign later, sign? rest = some (sign, later) → sign.strength < strength

theorem Ends.mono (le : strength ≤ strength') (ends : Ends strength rest) :
    Ends strength' rest where
  noName := ends.noName
  weak sign later starts := Nat.lt_of_lt_of_le (ends.weak sign later starts) le

theorem ends_nil (strength : Nat) : Ends strength [] where
  noName _ next := nomatch next
  weak _ _ starts := nomatch starts

theorem ends_comma (rest : List Char) (strength : Nat) : Ends strength (',' :: rest) where
  noName _ next := by cases next; decide
  weak _ _ starts := nomatch starts

theorem ends_close (closing : c = ')' ∨ c = '\x7d') (rest : List Char) (strength : Nat) :
    Ends strength (c :: rest) where
  noName _ next := by cases next; rcases closing with rfl | rfl <;> decide
  weak _ _ starts := by rcases closing with rfl | rfl <;> cases starts

theorem ends_sign {sign : Sign} (weak : sign.strength < strength) (rest : List Char) :
    Ends strength (sign.text.toList ++ rest) where
  noName c next := by
    cases sign with
    | arith op => cases op <;> (cases next; decide)
    | relation comparison => cases comparison <;> (cases next; decide)
    | connective link => cases link <;> (cases next; decide)
    | assignment => cases next; decide
  weak other later starts := by
    rw [sign?_text] at starts
    cases starts
    exact weak

end Formula

namespace Expr

open Formula
open Document (isName)

variable {tree left right operand child : Expr} {trees arguments : List Expr}
  {rest last : List Char} {whole : Expr} {sign : Sign} {least bound : Nat} {close : Char}

/-! ## Strengths -/

/-- The least strength of the last operand of a node without parentheses. -/
def rightStrength : Expr → Nat
  | .unary op _ _ => max (Operator.unary op).strength 5
  | .arith op _ _ _ => (Sign.arith op).rightStrength
  | .relation comparison _ _ _ => (Sign.relation comparison).rightStrength
  | .connective link _ _ _ => (Sign.connective link).rightStrength
  | .assignment _ _ _ => Sign.assignment.rightStrength
  | _ => solidStrength

theorem strength_number (number : Number) (mark : Mark) :
    (Expr.number number mark).strength = 4 ∨ (Expr.number number mark).strength = 5 ∨
      (Expr.number number mark).strength = solidStrength := by
  by_cases sum : (number.isNegative || number.isComplex) = true
  · exact .inl (if_pos sum)
  · refine .inr ?_
    cases number with
    | rational value => exact .inl (if_neg sum)
    | _ => exact .inr (if_neg sum)

theorem one_le_strength (tree : Expr) : 1 ≤ tree.strength := by
  cases tree with
  | number value mark =>
      rcases strength_number value mark with same | same | same <;> rw [same] <;> decide
  | unary op => cases op <;> exact Nat.le_of_ble_eq_true rfl
  | arith op => cases op <;> exact Nat.le_of_ble_eq_true rfl
  | _ => exact Nat.le_of_ble_eq_true rfl

/-- A node binds no stronger than its last operand has to. -/
theorem strength_le_rightStrength (tree : Expr) : tree.strength ≤ tree.rightStrength := by
  cases tree with
  | number value mark =>
      rcases strength_number value mark with same | same | same <;> rw [same] <;>
        exact Nat.le_of_ble_eq_true rfl
  | unary op => cases op <;> exact Nat.le_of_ble_eq_true rfl
  | arith op => cases op <;> exact Nat.le_of_ble_eq_true rfl
  | _ => exact Nat.le_of_ble_eq_true rfl

/-- Signs between sums and relations associate to the left. -/
theorem lt_rightStrength (low : 1 < bound) (high : bound < 6) (strong : bound ≤ tree.strength) :
    bound < tree.rightStrength := by
  cases tree with
  | unary op =>
      cases op with
      | neg => exact Nat.lt_succ_of_le strong
      | not => exact Nat.lt_of_lt_of_le high (Nat.le_of_ble_eq_true rfl)
  | arith op =>
      cases op with
      | pow => exact high
      | _ => exact Nat.lt_succ_of_le strong
  | relation => exact Nat.lt_succ_of_le strong
  | connective => exact Nat.lt_succ_of_le strong
  | assignment => exact absurd (Nat.lt_of_lt_of_le low strong) (Nat.lt_irrefl 1)
  | _ => exact Nat.lt_of_lt_of_le high (Nat.le_of_ble_eq_true rfl)

/-- A first operand without parentheses is not split by the sign behind it. -/
theorem strong_of_not_wrapsLeft {op : Operator} (binary : op.arity = 2)
    (free : wrapsLeft op left = false) :
    op.strength ≤ left.strength ∧ op.strength < left.rightStrength := by
  by_cases power : op = .arith .pow
  · subst power
    rw [wrapsLeft, if_pos rfl] at free
    have strong := Nat.lt_of_not_le (of_decide_eq_false free)
    exact ⟨Nat.le_of_lt strong, Nat.lt_of_lt_of_le strong (strength_le_rightStrength left)⟩
  · rw [wrapsLeft, if_neg power] at free
    have strong := Nat.le_of_not_lt (of_decide_eq_false free)
    have bounds : 1 < op.strength ∧ op.strength < 6 := by
      cases op with
      | unary op => cases binary
      | arith op => cases op <;> first | exact absurd rfl power | decide
      | relation comparison => cases comparison <;> decide
      | connective link => cases link <;> decide
    exact ⟨strong, lt_rightStrength bounds.1 bounds.2 strong⟩

theorem strong_of_not_wrapsRight {op : Operator} (free : wrapsRight op right = false) :
    (if op = .arith .pow then 6 else op.strength + 1) ≤ right.strength := by
  by_cases power : op = .arith .pow
  · rw [wrapsRight, if_pos power] at free
    rw [if_pos power]
    subst power
    exact Nat.le_of_not_lt (of_decide_eq_false free)
  · rw [wrapsRight, if_neg power] at free
    rw [if_neg power]
    exact Nat.lt_of_not_le (of_decide_eq_false free)

/-! ## Reading back -/

/-- The text of the tree is read as the tree, whatever ends it. -/
def Readable (tree : Expr) : Prop :=
  ∀ ⦃least rest whole last⦄, least ≤ tree.strength → Ends tree.rightStrength rest →
    Gives (further? least tree.unmarked) rest whole last →
    Gives (formula? least) (tree.toText.toList ++ rest) whole last

/-- Nothing behind a closing bracket or a comma, or at the end, goes on with a tree. -/
theorem Readable.gives (readable : tree.Readable) (ends : ∀ strength, Ends strength rest) :
    Gives (formula? 0) (tree.toText.toList ++ rest) tree.unmarked rest :=
  readable (Nat.zero_le _) (ends _) (gives_further_end (ends 0).weak)

/-- An operand with the parentheses it needs. -/
theorem Readable.wrapped {needed : Bool} (readable : operand.Readable)
    (free : needed = false → least ≤ operand.strength ∧ Ends operand.rightStrength rest)
    (further : Gives (further? least operand.unmarked) rest whole last) :
    Gives (formula? least) ((Style.plain.wrap needed operand.toText).toList ++ rest) whole
      last := by
  cases needed with
  | false => exact readable (free rfl).1 (free rfl).2 further
  | true =>
      have inner := readable.gives (ends_close (.inl rfl) rest)
      have text : (Style.plain.wrap true operand.toText).toList ++ rest =
          '(' :: (operand.toText.toList ++ ')' :: rest) := by
        simp [Style.wrap, Style.parenthesized]
      rw [text]
      exact gives_formula (gives_parenthesized inner) further

/-- Two operands around a sign. -/
theorem Readable.join (readLeft : left.Readable) (readRight : right.Readable) (sign : Sign)
    (needsLeft needsRight : Bool)
    (text : tree.toText = Style.plain.wrap needsLeft left.toText ++ sign.text ++
      Style.plain.wrap needsRight right.toText)
    (unmarked : tree.unmarked = sign.join left.unmarked right.unmarked)
    (strength : tree.strength = sign.strength)
    (rightStrength : tree.rightStrength = sign.rightStrength)
    (freeLeft : needsLeft = false →
      sign.strength ≤ left.strength ∧ sign.strength < left.rightStrength)
    (freeRight : needsRight = false → sign.rightStrength ≤ right.strength) : tree.Readable := by
  -- the reader meets the sign while it goes on behind the first operand
  intro least rest whole last weak ends further
  rw [strength] at weak
  rw [rightStrength] at ends
  rw [unmarked] at further
  have second := readRight.wrapped
    (fun free => ⟨freeRight free,
      ends.mono (Nat.le_trans (freeRight free) right.strength_le_rightStrength)⟩)
    (gives_further_end ends.weak)
  have first := readLeft.wrapped
    (fun free => ⟨Nat.le_trans weak (freeLeft free).1, ends_sign (freeLeft free).2 _⟩)
    (gives_further_sign weak second further)
  rw [text]
  simpa using first

/-- A node that is one operand by itself. -/
theorem Readable.of_operand
    (gives : ∀ rest, Ends tree.rightStrength rest →
      Gives operand? (tree.toText.toList ++ rest) tree.unmarked rest) : tree.Readable :=
  fun _ rest _ _ _ ends further => gives_formula (gives rest ends) further

/-- Trees separated by commas up to a closing bracket. -/
theorem gives_items (closing : close = ')' ∨ close = '\x7d')
    (readable : ∀ tree ∈ trees, tree.Readable) (rest : List Char) :
    Gives (items? close) ((String.intercalate ", " (trees.map toText)).toList ++ close :: rest)
      (trees.map unmarked) rest := by
  induction trees with
  | nil => exact gives_items_nil closing
  | cons tree trees ih =>
      have first := readable tree List.mem_cons_self
      cases trees with
      | nil =>
          have item := first.gives (ends_close closing rest)
          simpa using gives_items_last closing item
      | cons next trees =>
          have later := ih fun other listed => readable other (List.mem_cons_of_mem _ listed)
          generalize shown : (String.intercalate ", " ((next :: trees).map toText)).toList ++
            close :: rest = behind at later
          have item := first.gives (ends_comma (' ' :: behind))
          simpa [← shown] using gives_items_cons item later

theorem Readable.call {name : String} (word : isName name.toList = true)
    (readable : ∀ argument ∈ arguments, argument.Readable)
    (text : tree.toText = Style.plain.application name (arguments.map toText))
    (built : call? name (arguments.map unmarked) = some tree.unmarked) : tree.Readable := by
  refine Readable.of_operand fun rest _ => ?_
  have items := gives_items (.inl rfl) readable rest
  rw [← String.ofList_toList (s := name)] at built
  have given := gives_call word items built
  have shown : tree.toText.toList ++ rest = name.toList ++ '(' ::
      ((String.intercalate ", " (arguments.map toText)).toList ++ ')' :: rest) := by
    rw [text]
    simp [Style.application, Style.parenthesized]
  rwa [shown]

/-! ## Trees that are read back -/

/-- A variable with a valid name, or an integer that is not negative. -/
def isPlainLeaf : Expr → Bool
  | .var name _ => isValidName name
  | .number (.int value) _ => decide (0 ≤ value)
  | _ => false

/-- Checked construction accepts the tree, and its leaves are variables with valid names
and integers that are not negative. -/
structure IsFormula (tree : Expr) : Prop where
  accepted : tree.Accepted
  leaves : ∀ leaf ∈ tree.subtrees, leaf.isLeaf = true → leaf.isPlainLeaf = true

instance : Decidable tree.IsFormula :=
  decidable_of_iff
    (tree.Accepted ∧ ∀ leaf ∈ tree.subtrees, leaf.isLeaf = true → leaf.isPlainLeaf = true)
    ⟨fun both => ⟨both.1, both.2⟩, fun formula => ⟨formula.accepted, formula.leaves⟩⟩

theorem IsFormula.of_mem_children (formula : tree.IsFormula) (member : child ∈ tree.children) :
    child.IsFormula where
  accepted node below := formula.accepted node (subtrees_subset_of_mem_children member below)
  leaves leaf below := formula.leaves leaf (subtrees_subset_of_mem_children member below)

theorem IsFormula.isExact (formula : tree.IsFormula) : tree.IsExact := by
  intro leaf below number isNumber
  have plain := formula.leaves leaf below
  cases leaf with
  | number value mark =>
      cases isNumber
      cases number with
      | int value => rfl
      | _ => cases plain rfl
  | _ => cases isNumber

theorem readable_leaf (isLeaf : tree.isLeaf = true) (plain : tree.isPlainLeaf = true) :
    tree.Readable := by
  cases tree with
  | var name mark =>
      refine Readable.of_operand fun rest ends => ?_
      have given : Gives operand? (name.toList ++ rest)
          (.var (String.ofList name.toList) .unset) rest :=
        gives_variable plain ends.noName
      rwa [String.ofList_toList] at given
  | number value mark =>
      cases value with
      | int value =>
          obtain ⟨magnitude, rfl⟩ := Int.eq_ofNat_of_zero_le (of_decide_eq_true plain)
          refine Readable.of_operand fun rest ends => ?_
          have digits : (Expr.number (.int magnitude) mark).toText.toList =
              Nat.toDigits 10 magnitude := Decimal.toList_toString_ofNat magnitude
          rw [digits]
          exact gives_number magnitude fun c next => (ends.noName c next).1
      | _ => cases plain
  | _ => cases plain

theorem renderAll_eq_map (trees : List Expr) : renderAll .plain trees = trees.map toText := by
  induction trees with
  | nil => rfl
  | cons tree trees ih => rw [renderAll, ih]; rfl

theorem readable_unary {op : UnaryOp} {mark : Mark} (readable : operand.Readable) :
    (Expr.unary op operand mark).Readable := by
  refine Readable.of_operand fun rest ends => ?_
  have free : wrapsOperand op operand = false →
      (Expr.unary op operand mark).rightStrength ≤ operand.strength := fun unwrapped =>
    Nat.le_of_not_lt (of_decide_eq_false unwrapped)
  have given := readable.wrapped
    (fun unwrapped => ⟨free unwrapped,
      ends.mono (Nat.le_trans (free unwrapped) operand.strength_le_rightStrength)⟩)
    (gives_further_end ends.weak)
  have text : (Expr.unary op operand mark).toText =
      Style.plain.symbol (.unary op) ++ Style.plain.wrap (wrapsOperand op operand) operand.toText :=
    rfl
  rw [text, String.toList_append, List.append_assoc]
  cases op with
  | neg => exact gives_neg given
  | not => exact gives_not given

theorem readable_arith {op : ArithOp} {mark : Mark} (readLeft : left.Readable)
    (readRight : right.Readable) : (Expr.arith op left right mark).Readable := by
  refine readLeft.join readRight (.arith op) _ _ rfl rfl rfl rfl (strong_of_not_wrapsLeft rfl)
    fun free => ?_
  have strong := strong_of_not_wrapsRight free
  cases op <;> exact strong

theorem readable_relation {comparison : Relation} {mark : Mark} (readLeft : left.Readable)
    (readRight : right.Readable) : (Expr.relation comparison left right mark).Readable :=
  readLeft.join readRight (.relation comparison) _ _ rfl rfl rfl rfl
    (strong_of_not_wrapsLeft rfl) strong_of_not_wrapsRight

theorem readable_connective {link : Connective} {mark : Mark} (readLeft : left.Readable)
    (readRight : right.Readable) : (Expr.connective link left right mark).Readable :=
  readLeft.join readRight (.connective link) _ _ rfl rfl rfl rfl
    (strong_of_not_wrapsLeft rfl) strong_of_not_wrapsRight

theorem readable_assignment {target value : Expr} {mark : Mark} (isVar : target.asVar?.isSome)
    (readTarget : target.Readable) (readValue : value.Readable) :
    (Expr.assignment target value mark).Readable := by
  refine readTarget.join readValue .assignment false false rfl rfl rfl rfl (fun _ => ?_)
    fun _ => value.one_le_strength
  cases target with
  | var => exact ⟨Nat.le_of_ble_eq_true rfl, Nat.le_of_ble_eq_true rfl⟩
  | _ => cases isVar

theorem readable_array {mark : Mark} (readable : ∀ tree ∈ trees, tree.Readable) :
    (Expr.array trees mark).Readable := by
  refine Readable.of_operand fun rest _ => ?_
  have items := gives_array (gives_items (.inr rfl) readable rest)
  have unmarked : (Expr.array trees mark).unmarked = .array (trees.map Expr.unmarked) .unset := by
    rw [unmarked_node rfl]
    rfl
  have text : (Expr.array trees mark).toText.toList ++ rest = '\x7b' ::
      ((String.intercalate ", " (trees.map toText)).toList ++ '\x7d' :: rest) := by
    have shown : (Expr.array trees mark).toText =
        Style.braced (String.intercalate ", " (renderAll .plain trees)) := rfl
    rw [shown, renderAll_eq_map]
    simp [Style.braced]
  rwa [text, unmarked]

theorem readable_function (function : Function)
    (readable : ∀ argument ∈ arguments, argument.Readable)
    (text : tree.toText = Style.plain.application function.name (arguments.map toText))
    (built : (ofFunction function (arguments.map Expr.unmarked)).toOption.map (withMark .unset) =
      some tree.unmarked) : tree.Readable := by
  have word : isName function.name.toList = true := by
    rcases function with function | function <;> cases function <;> rfl
  have known : Function.ofName? function.name = some function := by
    rcases function with function | function <;> cases function <;> rfl
  refine .call word readable text ?_
  rw [call?, known]
  exact built

theorem readable_construct (construct : Construct)
    (readable : ∀ argument ∈ arguments, argument.Readable)
    (text : tree.toText = Style.plain.application construct.name (arguments.map toText))
    (built : (ofConstruct construct (arguments.map Expr.unmarked)).toOption.map (withMark .unset) =
      some tree.unmarked) : tree.Readable := by
  have word : isName construct.name.toList = true := by cases construct <;> rfl
  have noFunction : Function.ofName? construct.name = none := by cases construct <;> rfl
  have known : Construct.ofName? construct.name = some construct := by cases construct <;> rfl
  refine Readable.call word readable text ?_
  rw [call?, noFunction]
  simp only [known, Option.bind_some]
  exact built

/-- Checked construction accepts nothing but variables for the index of a sum. -/
theorem isSome_asVar?_index {body index first last : Expr} {mark : Mark}
    (accepted : (Expr.summation body index first last mark).Accepted) :
    index.asVar?.isSome = true := by
  obtain ⟨built, ok⟩ := accepted _ mem_subtrees_self
  by_contra other
  cases ok.symm.trans (if_neg other)

/-- Checked construction accepts nothing but variables for the target of an assignment. -/
theorem isSome_asVar?_target {target value : Expr} {mark : Mark}
    (accepted : (Expr.assignment target value mark).Accepted) :
    target.asVar?.isSome = true := by
  obtain ⟨built, ok⟩ := accepted _ mem_subtrees_self
  by_contra other
  cases ok.symm.trans (if_neg other)

/-- Every formula is read back from its text. -/
theorem readable_of_isFormula (formula : tree.IsFormula) : tree.Readable := by
  induction tree using induction_children with
  | leaf tree isLeaf => exact readable_leaf isLeaf (formula.leaves tree mem_subtrees_self isLeaf)
  | node tree inner ih =>
      have readable (child : Expr) (member : child ∈ tree.children) : child.Readable :=
        ih child member (formula.of_mem_children member)
      cases tree with
      | array items mark => exact readable_array readable
      | unary op operand mark => exact readable_unary (readable operand (by simp [children]))
      | arith op left right mark =>
          exact readable_arith (readable left (by simp [children]))
            (readable right (by simp [children]))
      | relation comparison left right mark =>
          exact readable_relation (readable left (by simp [children]))
            (readable right (by simp [children]))
      | connective link left right mark =>
          exact readable_connective (readable left (by simp [children]))
            (readable right (by simp [children]))
      | call function argument mark =>
          exact readable_function (.unary function) readable rfl rfl
      | call₂ function first second mark =>
          exact readable_function (.binary function) readable rfl rfl
      | conditional test consequence alternative mark =>
          exact readable_construct .conditional readable rfl rfl
      | whileLoop test body mark =>
          exact readable_construct .whileLoop readable rfl rfl
      | forLoop start test step body mark =>
          exact readable_construct .forLoop readable rfl rfl
      | summation body index first last mark =>
          have isVar : index.unmarked.asVar?.isSome = true := by
            rw [asVar?_unmarked]
            exact isSome_asVar?_index formula.accepted
          have built : ofConstruct .summation ([body, index, first, last].map unmarked) =
              .ok (.summation body.unmarked index.unmarked first.unmarked last.unmarked) :=
            if_pos isVar
          refine readable_construct .summation readable rfl ?_
          simp only [children, built]
          rfl
      | pause seconds mark => exact readable_construct .pause readable rfl rfl
      | assignment target value mark =>
          exact readable_assignment (isSome_asVar?_target formula.accepted)
            (readable target (by simp [children])) (readable value (by simp [children]))
      | _ => cases inner

/-- The text of a formula is read as the formula, to the end. -/
theorem gives_toText (formula : tree.IsFormula) :
    Gives (formula? 0) tree.toText.toList tree.unmarked [] := by
  simpa using (readable_of_isFormula formula).gives ends_nil

example : (formula? 0 10 "-x^2 < y".toList).any (fun found =>
    found.1 == .relation .less (.unary .neg (.arith .pow (.var "x") (.int 2))) (.var "y")) =
      true := by
  decide +kernel

/-- Formulas with the same text are equal. -/
theorem beq_of_toText_eq {other : Expr} (formula : tree.IsFormula) (formula' : other.IsFormula)
    (same : tree.toText = other.toText) : (tree == other) = true := by
  have reads := gives_toText formula
  rw [same] at reads
  exact (agree_iff_unmarked_eq formula.isExact).mpr (reads.unique (gives_toText formula')).1

/-- Both trees are written `a^(-2*b)`; their marks differ. -/
theorem negated_product_beq :
    (Expr.arith .pow (.var "a") (.unary .neg (.arith .mul (.int 2) (.var "b"))) (.made 0) ==
      Expr.arith .pow (.var "a") (.unary .neg (.arith .mul (.int 2) (.var "b")) (.made 1))
        (.made 2)) = true :=
  beq_of_toText_eq (by decide) (by decide) rfl

end Expr

end SymbolicAlgebra

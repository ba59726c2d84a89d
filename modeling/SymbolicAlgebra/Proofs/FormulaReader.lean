import SymbolicAlgebra.Proofs.Documents.Grammar
import SymbolicAlgebra.Proofs.IntegerText
import SymbolicAlgebra.Proofs.Unmarked

/-!
# Reading formulas

A reader for formulas in plain text.  It reads an operand and then goes on with each sign
behind it that binds strongly enough; the second operand of a sign is read in the same
way, up to the next sign that binds no stronger.  So signs associate to the left, except
those of powers and assignments.  The trees that are read have no marks.

Every step takes a round.  What matters is what the reader gives when there are enough of
them, and a text has at most one such result.
-/

namespace SymbolicAlgebra

namespace Formula

open Document (Reader isName name? name?_append continuesName takeWhile_append_end
  dropWhile_append_end)

/-! ## Signs between operands -/

/-- What stands between two operands. -/
inductive Sign where
  | arith (op : ArithOp)
  | relation (comparison : Relation)
  | connective (link : Connective)
  | assignment
deriving DecidableEq

namespace Sign

def text : Sign → String
  | arith op => Style.plain.symbol (.arith op)
  | relation comparison => Style.plain.symbol (.relation comparison)
  | connective link => Style.plain.symbol (.connective link)
  | assignment => " := "

def strength : Sign → Nat
  | arith op => (Operator.arith op).strength
  | relation comparison => (Operator.relation comparison).strength
  | connective link => (Operator.connective link).strength
  | assignment => 1

/-- The least strength of a second operand without parentheses. -/
def rightStrength : Sign → Nat
  | arith .pow => 6
  | assignment => 1
  | sign => sign.strength + 1

/-- The node of two operands. -/
def join : Sign → Expr → Expr → Expr
  | arith op, left, right => .arith op left right .unset
  | relation comparison, left, right => .relation comparison left right .unset
  | connective link, left, right => .connective link left right .unset
  | assignment, left, right => .assignment left right .unset

end Sign

/-- A sign at the start of a text. -/
def sign? : Reader Sign
  | '*' :: rest => some (.arith .mul, rest)
  | '/' :: rest => some (.arith .div, rest)
  | '^' :: rest => some (.arith .pow, rest)
  | ' ' :: '+' :: ' ' :: rest => some (.arith .add, rest)
  | ' ' :: '-' :: ' ' :: rest => some (.arith .sub, rest)
  | ' ' :: '=' :: ' ' :: rest => some (.relation .equal, rest)
  | ' ' :: '<' :: ' ' :: rest => some (.relation .less, rest)
  | ' ' :: '>' :: ' ' :: rest => some (.relation .greater, rest)
  | ' ' :: '<' :: '=' :: ' ' :: rest => some (.relation .lessEq, rest)
  | ' ' :: '>' :: '=' :: ' ' :: rest => some (.relation .greaterEq, rest)
  | ' ' :: '&' :: ' ' :: rest => some (.connective .and, rest)
  | ' ' :: '|' :: ' ' :: rest => some (.connective .or, rest)
  | ' ' :: ':' :: '=' :: ' ' :: rest => some (.assignment, rest)
  | _ => none

theorem sign?_text (sign : Sign) (rest : List Char) :
    sign? (sign.text.toList ++ rest) = some (sign, rest) := by
  cases sign with
  | arith op => cases op <;> rfl
  | relation comparison => cases comparison <;> rfl
  | connective link => cases link <;> rfl
  | assignment => rfl

/-! ## The reader -/

/-- An integer without a sign. -/
def number? : Reader Expr := fun text =>
  (Decimal.readDigits? (text.takeWhile Char.isDigit)).map fun value =>
    (.number (.int value) .unset, text.dropWhile Char.isDigit)

/-- The node of a function or control construct known by name. -/
def call? (name : String) (arguments : List Expr) : Option Expr :=
  match Function.ofName? name with
  | some function => (Expr.ofFunction function arguments).toOption.map (Expr.withMark .unset)
  | none =>
      (Construct.ofName? name).bind fun construct =>
        (Expr.ofConstruct construct arguments).toOption.map (Expr.withMark .unset)

mutual

/-- A formula whose signs bind at least this strongly. -/
def formula? : Nat → Nat → Reader Expr
  | _, 0, _ => none
  | least, rounds + 1, text =>
      match operand? rounds text with
      | some (left, rest) => further? least left rounds rest
      | none => none
termination_by structural _ rounds => rounds

/-- The formula that goes on behind its first operand. -/
def further? : Nat → Expr → Nat → Reader Expr
  | _, _, 0, _ => none
  | least, left, rounds + 1, text =>
      match sign? text with
      | none => some (left, text)
      | some (sign, behind) =>
          if sign.strength < least then some (left, text)
          else
            match formula? sign.rightStrength rounds behind with
            | some (right, rest) => further? least (sign.join left right) rounds rest
            | none => none
termination_by structural _ _ rounds => rounds

/-- An operand: a formula in parentheses, an array, an operand behind a minus sign or an
exclamation mark, a number, a call, or a variable. -/
def operand? : Nat → Reader Expr
  | 0, _ => none
  | rounds + 1, text =>
      match text with
      | '(' :: behind =>
          match formula? 0 rounds behind with
          | some (tree, ')' :: rest) => some (tree, rest)
          | _ => none
      | '\x7b' :: behind =>
          (items? '\x7d' rounds behind).map fun found => (.array found.1 .unset, found.2)
      | '-' :: behind =>
          (formula? 5 rounds behind).map fun found => (.unary .neg found.1 .unset, found.2)
      | '!' :: behind =>
          (formula? 7 rounds behind).map fun found => (.unary .not found.1 .unset, found.2)
      | _ =>
          match number? text, name? text with
          | some found, _ => some found
          | none, some (name, '(' :: behind) =>
              (items? ')' rounds behind).bind fun found =>
                (call? name found.1).map fun tree => (tree, found.2)
          | none, some (name, rest) => some (.var name .unset, rest)
          | none, none => none
termination_by structural rounds => rounds

/-- Formulas separated by commas up to a closing bracket. -/
def items? : Char → Nat → Reader (List Expr)
  | _, 0, _ => none
  | close, rounds + 1, text =>
      match formula? 0 rounds text with
      | none => if text.head? = some close then some ([], text.tail) else none
      | some (tree, ',' :: ' ' :: behind) =>
          (items? close rounds behind).map fun found => (tree :: found.1, found.2)
      | some (tree, rest) => if rest.head? = some close then some ([tree], rest.tail) else none
termination_by structural _ rounds => rounds

end

example : formula? 0 9 "x + 2".toList =
    some (.arith .add (.var "x" .unset) (.number (.int 2) .unset) .unset, []) := by
  cbv

/-! ## Results with enough rounds -/

variable {Found : Type} {read : Nat → Reader Found} {found : Found}
  {text behind rest last : List Char} {tree left right whole : Expr} {trees : List Expr}
  {sign : Sign} {least : Nat} {word : List Char} {close : Char}

/-- With enough rounds the reader finds this at the start of the text. -/
def Gives (read : Nat → Reader Found) (text : List Char) (found : Found)
    (rest : List Char) : Prop :=
  ∃ enough, ∀ rounds, enough ≤ rounds → read rounds text = some (found, rest)

theorem Gives.unique {found' : Found} {rest' : List Char} (first : Gives read text found rest)
    (second : Gives read text found' rest') : found = found' ∧ rest = rest' := by
  obtain ⟨enough, gives⟩ := first
  obtain ⟨enough', gives'⟩ := second
  have one := gives (max enough enough') (Nat.le_max_left ..)
  have other := gives' (max enough enough') (Nat.le_max_right ..)
  exact Prod.mk.inj (Option.some.inj (one.symm.trans other))

/-- One round is spent on the step itself. -/
theorem Gives.intro (enough : Nat)
    (gives : ∀ rounds, enough ≤ rounds → read (rounds + 1) text = some (found, rest)) :
    Gives read text found rest := by
  refine ⟨enough + 1, fun rounds bound => ?_⟩
  cases rounds with
  | zero => exact absurd bound (Nat.not_succ_le_zero enough)
  | succ rounds => exact gives rounds (Nat.le_of_succ_le_succ bound)

/-! ## Rules of reading -/

theorem gives_formula (operand : Gives operand? text left behind)
    (further : Gives (further? least left) behind whole rest) :
    Gives (formula? least) text whole rest := by
  obtain ⟨enough, operand⟩ := operand
  obtain ⟨enough', further⟩ := further
  refine .intro (max enough enough') fun rounds bound => ?_
  rw [formula?, operand rounds (by omega)]
  exact further rounds (by omega)

/-- No sign that binds strongly enough stands behind the formula. -/
theorem gives_further_end
    (weak : ∀ sign later, sign? rest = some (sign, later) → sign.strength < least) :
    Gives (further? least left) rest left rest := by
  refine .intro 0 fun rounds _ => ?_
  rw [further?]
  cases reads : sign? rest with
  | none => rfl
  | some found => exact if_pos (weak found.1 found.2 reads)

theorem gives_further_sign (strong : least ≤ sign.strength)
    (operand : Gives (formula? sign.rightStrength) behind right rest)
    (further : Gives (further? least (sign.join left right)) rest whole last) :
    Gives (further? least left) (sign.text.toList ++ behind) whole last := by
  obtain ⟨enough, operand⟩ := operand
  obtain ⟨enough', further⟩ := further
  refine .intro (max enough enough') fun rounds bound => ?_
  rw [further?, sign?_text]
  simp only [Nat.not_lt.mpr strong, if_false, operand rounds (by omega)]
  exact further rounds (by omega)

theorem gives_parenthesized (inner : Gives (formula? 0) text tree (')' :: rest)) :
    Gives operand? ('(' :: text) tree rest := by
  obtain ⟨enough, inner⟩ := inner
  refine .intro enough fun rounds bound => ?_
  rw [operand?]
  simp only [inner rounds bound]

theorem gives_neg (operand : Gives (formula? 5) text tree rest) :
    Gives operand? ('-' :: text) (.unary .neg tree .unset) rest := by
  obtain ⟨enough, operand⟩ := operand
  refine .intro enough fun rounds bound => ?_
  rw [operand?, operand rounds bound]
  rfl

theorem gives_not (operand : Gives (formula? 7) text tree rest) :
    Gives operand? ('!' :: text) (.unary .not tree .unset) rest := by
  obtain ⟨enough, operand⟩ := operand
  refine .intro enough fun rounds bound => ?_
  rw [operand?, operand rounds bound]
  rfl

theorem gives_array (items : Gives (items? '\x7d') text trees rest) :
    Gives operand? ('\x7b' :: text) (.array trees .unset) rest := by
  obtain ⟨enough, items⟩ := items
  refine .intro enough fun rounds bound => ?_
  rw [operand?, items rounds bound]
  rfl

/-- A closing bracket is not the start of a formula. -/
theorem gives_items_nil (closing : close = ')' ∨ close = '\x7d') :
    Gives (items? close) (close :: rest) [] rest := by
  refine .intro 0 fun rounds _ => ?_
  -- this holds for any number of rounds, so no list is taken to begin here
  have nothing : formula? 0 rounds (close :: rest) = none := by
    cases rounds with
    | zero => rfl
    | succ rounds =>
        rw [formula?]
        cases rounds with
        | zero => rfl
        | succ rounds => rcases closing with rfl | rfl <;> rfl
  rw [items?, nothing]
  simp

theorem gives_items_last (closing : close = ')' ∨ close = '\x7d')
    (item : Gives (formula? 0) text tree (close :: rest)) :
    Gives (items? close) text [tree] rest := by
  obtain ⟨enough, item⟩ := item
  refine .intro enough fun rounds bound => ?_
  rw [items?, item rounds bound]
  rcases closing with rfl | rfl <;> rfl

theorem gives_items_cons (item : Gives (formula? 0) text tree (',' :: ' ' :: behind))
    (items : Gives (items? close) behind trees rest) :
    Gives (items? close) text (tree :: trees) rest := by
  obtain ⟨enough, item⟩ := item
  obtain ⟨enough', items⟩ := items
  refine .intro (max enough enough') fun rounds bound => ?_
  rw [items?, item rounds (by omega)]
  simp only [items rounds (by omega)]
  rfl

/-! ## Names and numbers -/

/-- A letter, a digit or an underscore opens a number, a call or a variable. -/
theorem operand?_word {c : Char} (plain : continuesName c = true) (rounds : Nat) :
    operand? (rounds + 1) (c :: text) =
      match number? (c :: text), name? (c :: text) with
      | some found, _ => some found
      | none, some (name, '(' :: behind) =>
          (items? ')' rounds behind).bind fun found =>
            (call? name found.1).map fun tree => (tree, found.2)
      | none, some (name, rest) => some (.var name .unset, rest)
      | none, none => none := by
  rw [operand?]
  -- the other forms start with marks
  all_goals
    rintro behind same
    cases same
    cases plain

theorem continuesName_of_isDigit {c : Char} (digit : c.isDigit = true) :
    continuesName c = true := by
  simp [continuesName, Char.isAlphanum, digit]

theorem gives_number (value : Nat) (ends : ∀ c ∈ rest.head?, continuesName c = false) :
    Gives operand? (Nat.toDigits 10 value ++ rest) (.number (.int value) .unset) rest := by
  have digits := List.all_eq_true.mp (Decimal.all_isDigit_toDigits value)
  have ends' : ∀ c ∈ rest.head?, c.isDigit = false := by
    intro c next
    by_contra digit
    have continues := continuesName_of_isDigit (eq_true_of_ne_false digit)
    rw [ends c next] at continues
    cases continues
  have reads : number? (Nat.toDigits 10 value ++ rest) =
      some (.number (.int value) .unset, rest) := by
    rw [number?, takeWhile_append_end digits ends', dropWhile_append_end digits ends',
      Decimal.readDigits?_toDigits]
    rfl
  obtain ⟨first, more, shown⟩ :=
    List.exists_cons_of_ne_nil (Nat.toDigits_ne_nil (n := value) (b := 10))
  rw [shown, List.cons_append] at reads ⊢
  refine .intro 0 fun rounds _ => ?_
  rw [operand?_word (continuesName_of_isDigit (digits first (shown ▸ List.mem_cons_self))), reads]

theorem isDigit_of_startsName {c : Char} (starts : Document.startsName c = true) :
    c.isDigit = false := by
  have code := Document.toNat_of_startsName starts
  have toNat : c.val.toNat = c.toNat := rfl
  simp only [Char.isDigit, Bool.and_eq_false_iff, decide_eq_false_iff_not,
    UInt32.le_iff_toNat_le, toNat]
  refine .inr fun low => ?_
  have bound : c.toNat ≤ 57 := low
  omega

/-- A name is no number. -/
theorem number?_name (name : isName word = true) (rest : List Char) :
    number? (word ++ rest) = none := by
  cases word with
  | nil => cases name
  | cons first word =>
      have starts := (Bool.and_eq_true_iff.mp name).1
      rw [number?, List.cons_append, List.takeWhile_cons_of_neg
        (by simp [isDigit_of_startsName starts])]
      rfl

/-- What opens with a name is a call or a variable. -/
theorem operand?_name (name : isName word = true)
    (ends : ∀ c ∈ rest.head?, continuesName c = false) (rounds : Nat) :
    operand? (rounds + 1) (word ++ rest) =
      if rest.head? = some '(' then
        (items? ')' rounds rest.tail).bind fun found =>
          (call? (String.ofList word) found.1).map fun tree => (tree, found.2)
      else some (.var (String.ofList word) .unset, rest) := by
  have named := name?_append name ends
  have noNumber := number?_name name rest
  cases word with
  | nil => cases name
  | cons first word =>
      have starts := (Bool.and_eq_true_iff.mp name).1
      rw [List.cons_append] at named noNumber ⊢
      rw [operand?_word (Document.continuesName_of_startsName starts), noNumber, named]
      split
      · rename_i absent
        cases absent
      · rename_i reads
        cases reads
        rfl
      · rename_i other _ reads
        cases reads
        refine (if_neg fun opens => ?_).symm
        obtain ⟨behind, shown⟩ := List.head?_eq_some_iff.mp opens
        exact other behind shown
      · rename_i reads
        cases reads

theorem gives_variable (name : isName word = true)
    (ends : ∀ c ∈ rest.head?, continuesName c = false ∧ c ≠ '(') :
    Gives operand? (word ++ rest) (.var (String.ofList word) .unset) rest := by
  refine .intro 0 fun rounds _ => ?_
  have noCall : ¬ rest.head? = some '(' := fun opens => (ends '(' opens).2 rfl
  rw [operand?_name name fun c next => (ends c next).1, if_neg noCall]

theorem gives_call (name : isName word = true) (items : Gives (items? ')') text trees rest)
    (built : call? (String.ofList word) trees = some tree) :
    Gives operand? (word ++ '(' :: text) tree rest := by
  obtain ⟨enough, items⟩ := items
  refine .intro enough fun rounds bound => ?_
  rw [operand?_name name (by simp; decide), List.head?_cons, if_pos rfl, List.tail_cons,
    items rounds bound, Option.bind_some, built]
  rfl

end Formula

end SymbolicAlgebra

import SymbolicAlgebra.Decimal.Reader

/-!
# Integers as text

The digits of a natural number are digits, and reading them gives the number back.  An
integer with its sign is read back in the same way, as long as it lies in the bounded
range.
-/

namespace SymbolicAlgebra

namespace Decimal

variable {value : Int}

theorem toList_toString_nat (number : Nat) :
    (toString number).toList = Nat.toDigits 10 number := by
  rw [Nat.toString_eq_ofList_toDigits, String.toList_ofList]

theorem all_isDigit_toDigits (number : Nat) :
    (Nat.toDigits 10 number).all Char.isDigit = true :=
  List.all_eq_true.mpr fun _ member =>
    Nat.isDigit_of_mem_toDigits (by decide) (by decide) member

theorem readDigits?_toDigits (number : Nat) :
    readDigits? (Nat.toDigits 10 number) = some number := by
  have digits : (!(Nat.toDigits 10 number).isEmpty &&
      (Nat.toDigits 10 number).all Char.isDigit) = true := by
    simp [all_isDigit_toDigits, Nat.toDigits_ne_nil]
  rw [readDigits?, if_pos digits, ← Nat.ofDigitChars_eq_foldl, Nat.ofDigitChars_ten_toDigits]

/-- Digits start without a sign. -/
theorem splitSign_toDigits (number : Nat) (rest : List Char) :
    splitSign (Nat.toDigits 10 number ++ rest) = (false, Nat.toDigits 10 number ++ rest) := by
  cases digits : Nat.toDigits 10 number with
  | nil => exact absurd digits Nat.toDigits_ne_nil
  | cons first others =>
      have isDigit : first.isDigit = true :=
        Nat.isDigit_of_mem_toDigits (by decide) (by decide) (digits ▸ List.mem_cons_self)
      rw [List.cons_append]
      unfold splitSign
      split
      · rename_i same
        cases same
        exact absurd isDigit (by decide)
      · rename_i same
        cases same
        exact absurd isDigit (by decide)
      · rfl

theorem toList_toString_ofNat (magnitude : Nat) :
    (toString (Int.ofNat magnitude)).toList = Nat.toDigits 10 magnitude :=
  toList_toString_nat magnitude

theorem toList_toString_negSucc (magnitude : Nat) :
    (toString (Int.negSucc magnitude)).toList = '-' :: Nat.toDigits 10 (magnitude + 1) := by
  have text : toString (Int.negSucc magnitude) = "-" ++ toString (magnitude + 1) := rfl
  rw [text, String.toList_append, toList_toString_nat]
  rfl

/-- An integer is printed with digits and perhaps a minus sign. -/
theorem isDigit_of_mem_toString {c : Char} (member : c ∈ (toString value).toList) :
    c = '-' ∨ c.isDigit = true := by
  cases value with
  | ofNat magnitude =>
      rw [toList_toString_ofNat] at member
      exact .inr (List.all_eq_true.mp (all_isDigit_toDigits magnitude) c member)
  | negSucc magnitude =>
      rw [toList_toString_negSucc] at member
      exact (List.mem_cons.mp member).imp_right
        (List.all_eq_true.mp (all_isDigit_toDigits _) c)

theorem readSigned?_toString (value : Int) :
    readSigned? (toString value).toList = some value := by
  cases value with
  | ofNat magnitude =>
      have unsigned := splitSign_toDigits magnitude []
      rw [List.append_nil] at unsigned
      rw [toList_toString_ofNat, readSigned?, unsigned]
      simp [readDigits?_toDigits]
  | negSucc magnitude =>
      rw [toList_toString_negSucc, readSigned?, splitSign]
      simp [readDigits?_toDigits, Int.negSucc_eq]

theorem readInt?_toString (inRange : InRange value) :
    readInt? (toString value).toList = some value := by
  rw [readInt?, readSigned?_toString]
  exact checked_eq_some_iff.mpr ⟨inRange, rfl⟩

end Decimal

end SymbolicAlgebra

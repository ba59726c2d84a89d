import SymbolicAlgebra.Proofs.NumericTower

/-!
# Normal forms of exact numbers

A Gaussian rational has one normal form, so what a number looks like and what it is worth
tell each other.
-/

namespace SymbolicAlgebra

namespace Number

namespace Represents

variable {number other : Number} {value otherValue : GaussianRational}

theorem isExact (represents : number.Represents value) : number.isExact = true :=
  isExact_iff_value?.mpr ⟨value, represents.2⟩

theorem isZero_iff (represents : number.Represents value) :
    number.isZero = true ↔ value = 0 := by
  obtain ⟨canonical, denotes⟩ := represents
  cases number with
  | int whole =>
      obtain rfl := Option.some.inj denotes
      simp [Number.isZero, QuadraticAlgebra.ext_iff]
  | rational ratio =>
      obtain rfl := Option.some.inj denotes
      have nonzero : ratio ≠ 0 := by
        rintro rfl
        exact canonical.2 rfl
      simp [Number.isZero, QuadraticAlgebra.ext_iff, nonzero]
  | complexInt parts =>
      obtain rfl := Option.some.inj denotes
      simp [Number.isZero, QuadraticAlgebra.ext_iff, canonical.2.2]
  | complexRational parts =>
      obtain rfl := Option.some.inj denotes
      simp [Number.isZero, QuadraticAlgebra.ext_iff, canonical.2.2.1]
  | real _ | complexReal _ => contradiction

theorem eq_one (represents : number.Represents value) (one : number.isOne = true) :
    value = 1 := by
  cases number with
  | int whole =>
      obtain rfl : whole = 1 := by simpa [Number.isOne] using one
      exact (Option.some.inj represents.2).symm
  | real _ => cases represents.2
  | _ => cases one

theorem eq_neg_one (represents : number.Represents value) (minusOne : number.isMinusOne = true) :
    value = -1 := by
  cases number with
  | int whole =>
      obtain rfl : whole = -1 := by simpa [Number.isMinusOne] using minusOne
      rw [← Option.some.inj represents.2]
      exact QuadraticAlgebra.ext (by simp [QuadraticAlgebra.re_one])
        (by simp [QuadraticAlgebra.im_one])
  | real _ => cases represents.2
  | _ => cases minusOne

/-- Only a number without imaginary part is negative. -/
theorem isNegative_iff (represents : number.Represents value) :
    number.isNegative = true ↔ value.im = 0 ∧ value.re < 0 := by
  obtain ⟨canonical, denotes⟩ := represents
  cases number with
  | int whole =>
      obtain rfl := Option.some.inj denotes
      simp [Number.isNegative]
  | rational ratio =>
      obtain rfl := Option.some.inj denotes
      simp [Number.isNegative, Rat.num_neg]
  | complexInt parts =>
      obtain rfl := Option.some.inj denotes
      simp [Number.isNegative, canonical.2.2]
  | complexRational parts =>
      obtain rfl := Option.some.inj denotes
      simp [Number.isNegative, canonical.2.2.1]
  | real _ | complexReal _ => contradiction

/-- A value has one normal form. -/
theorem eq_ofComplexRatio (represents : number.Represents value) :
    number = ofComplexRatio value.re value.im := by
  obtain ⟨canonical, denotes⟩ := represents
  cases number with
  | int whole =>
      obtain rfl := Option.some.inj denotes
      simp [ofComplexRatio, ofRatio, Ratio.isInteger]
  | rational ratio =>
      obtain rfl := Option.some.inj denotes
      simp [ofComplexRatio, ofRatio, Ratio.isInteger, canonical.2]
  | complexInt parts =>
      obtain rfl := Option.some.inj denotes
      simp [ofComplexRatio, Ratio.isInteger, canonical.2.2]
  | complexRational parts =>
      obtain rfl := Option.some.inj denotes
      rw [ofComplexRatio, if_neg canonical.2.2.1, if_neg]
      simpa [Ratio.isInteger] using canonical.2.2.2
  | real _ | complexReal _ => contradiction

theorem run {operation : TierOperation}
    {result : GaussianRational → GaussianRational → GaussianRational}
    (computes : operation.Computes result) (represents : number.Represents value)
    (otherRepresents : other.Represents otherValue)
    (exact : (operation.run number other).isExact = true) :
    (operation.run number other).Represents (result value otherValue) := by
  obtain ⟨z, w, denotes, otherDenotes, computed⟩ := computes.run_represents exact
  obtain rfl := Option.some.inj (represents.2.symm.trans denotes)
  obtain rfl := Option.some.inj (otherRepresents.2.symm.trans otherDenotes)
  exact computed represents.1.bounded otherRepresents.1.bounded

end Represents

end Number

end SymbolicAlgebra

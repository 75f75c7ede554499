import StackCompiler.Machine.Value

/-!
Sums of values. Numbers may change places in a sum; texts are put one behind the other, so that it
matters which comes first.
-/

namespace StackCompiler.Machine

section

open Float.Model

/-- Rounding comes after an exact sum, and signs of zeros and infinities are treated alike. -/
theorem unpackedAdd_comm (format : Format) (a b : UnpackedFloat) :
    UnpackedFloat.add format a b = UnpackedFloat.add format b a := by
  cases a with
  | notANumber => cases b <;> rfl
  | infinity sign =>
    cases b with
    | infinity sign' => cases sign <;> cases sign' <;> rfl
    | _ => rfl
  | zero sign =>
    cases b with
    | zero sign' => cases sign <;> cases sign' <;> rfl
    | _ => rfl
  | finite sign mantissa exponent positive =>
    cases b with
    | finite sign' mantissa' exponent' positive' =>
      show UnpackedFloat.normalize _ _ _ _ = UnpackedFloat.normalize _ _ _ _
      rw [Int.add_comm, Int.min_comm exponent exponent']
    | _ => rfl

theorem float_add_comm (x y : Float) : x + y = y + x := by
  have h := unpackedAdd_comm .binary64 x.toModel.unpack y.toModel.unpack
  exact congrArg (fun sum => Float.ofModel (pack sum)) h

end

namespace Value

def isNumber : Value → Bool
  | number _ => true
  | str _ => false

/-- Numbers are added, and all else is put together as text. -/
def sum : Value → Value → Value
  | number x, number y => number (x + y)
  | left, right => str (left.text ++ right.text)

/-- There is a sum of any two values. -/
theorem applyBinary_add (left right : Value) :
    applyBinary .add left right = .ok (sum left right) := by
  cases left <;> cases right <;> rfl

theorem sum_of_text {left right : Value} (h : ¬ (left.isNumber ∧ right.isNumber)) :
    sum left right = str (left.text ++ right.text) := by
  cases left with
  | str s => rfl
  | number x =>
    cases right with
    | str t => rfl
    | number y => exact absurd ⟨rfl, rfl⟩ h

theorem isNumber_sum {left right : Value} (hl : left.isNumber) (hr : right.isNumber) :
    (sum left right).isNumber := by
  cases left with
  | str s => cases hl
  | number x =>
    cases right with
    | str t => cases hr
    | number y => rfl

/-- Two values may change places only if they are numbers or if their texts do not show it. -/
theorem sum_comm_iff (left right : Value) : sum left right = sum right left ↔
    (left.isNumber ∧ right.isNumber) ∨ left.text ++ right.text = right.text ++ left.text := by
  by_cases numbers : left.isNumber ∧ right.isNumber
  · cases left with
    | str s => cases numbers.1
    | number x =>
      cases right with
      | str t => cases numbers.2
      | number y => exact ⟨fun _ => .inl numbers, fun _ => congrArg number (float_add_comm x y)⟩
  · rw [sum_of_text numbers, sum_of_text fun h => numbers h.symm]
    simp [numbers]

end Value

end StackCompiler.Machine

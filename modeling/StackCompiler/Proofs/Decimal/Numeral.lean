import Mathlib.Data.List.TakeWhile
import StackCompiler.Decimal.Layout
import StackCompiler.Decimal.Reader

/-!
Whatever float is written, the text is read as a number.
-/

namespace StackCompiler.Decimal

/-- Digits, and then more digits after a point if there is one. -/
inductive IsNumeral : List Char → Prop where
  | whole {digits : List Char} (hne : digits ≠ []) (h : ∀ c ∈ digits, c.isDigit) :
      IsNumeral digits
  | point {digits fraction : List Char} (hne : digits ≠ []) (h : ∀ c ∈ digits, c.isDigit)
      (hf : ∀ c ∈ fraction, c.isDigit) : IsNumeral (digits ++ '.' :: fraction)

namespace IsNumeral

variable {cs : List Char}

theorem mem (h : IsNumeral cs) {c : Char} (hc : c ∈ cs) : c.isDigit ∨ c = '.' := by
  cases h with
  | whole hne h => exact .inl (h c hc)
  | point hne h hf =>
    obtain hc | hc := List.mem_append.mp hc
    · exact .inl (h c hc)
    · obtain rfl | hc := List.mem_cons.mp hc
      · exact .inr rfl
      · exact .inl (hf c hc)

theorem head (h : IsNumeral cs) : ∃ c rest, cs = c :: rest ∧ c.isDigit := by
  cases h with
  | whole hne h =>
    obtain ⟨c, rest, rfl⟩ := List.exists_cons_of_ne_nil hne
    exact ⟨c, rest, rfl, h c List.mem_cons_self⟩
  | point hne h hf =>
    obtain ⟨c, rest, rfl⟩ := List.exists_cons_of_ne_nil hne
    exact ⟨c, _, rfl, h c List.mem_cons_self⟩

theorem isSome_unsigned? (h : IsNumeral cs) : (unsigned? cs).isSome := by
  cases h with
  | whole hne h =>
    have whole : cs.takeWhile Char.isDigit = cs := List.takeWhile_eq_self_iff.mpr h
    have rest : cs.dropWhile Char.isDigit = [] := List.dropWhile_eq_nil_iff.mpr h
    simp [unsigned?, whole, rest, exponent?, hne]
  | @point digits fraction hne h hf =>
    have whole : (digits ++ '.' :: fraction).takeWhile Char.isDigit = digits := by
      rw [List.takeWhile_append_of_pos h, List.takeWhile_cons_of_neg (by decide), List.append_nil]
    have rest : (digits ++ '.' :: fraction).dropWhile Char.isDigit = '.' :: fraction := by
      rw [List.dropWhile_append_of_pos h, List.dropWhile_cons_of_neg (by decide)]
    have tail : fraction.dropWhile Char.isDigit = [] := List.dropWhile_eq_nil_iff.mpr hf
    simp [unsigned?, whole, rest, tail, exponent?, hne]

theorem splitSign_eq (h : IsNumeral cs) : splitSign cs = (false, cs) := by
  obtain ⟨c, rest, rfl, hc⟩ := h.head
  unfold splitSign
  split
  · next same => cases same; cases hc
  · next same => cases same; cases hc
  · rfl

theorem isSome_read? (h : IsNumeral cs) : (read? (String.ofList cs)).isSome := by
  rw [read?, String.toList_ofList, h.splitSign_eq]
  simp [h.isSome_unsigned?]

theorem isSome_read?_neg (h : IsNumeral cs) : (read? ("-" ++ String.ofList cs)).isSome := by
  have text : ("-" ++ String.ofList cs).toList = '-' :: cs := by simp
  rw [read?, text, splitSign]
  simp [h.isSome_unsigned?]

end IsNumeral

theorem isNumeral_positional {digits : List Char} (hne : digits ≠ [])
    (h : ∀ c ∈ digits, c.isDigit) (exponent : Int) :
    ∃ cs, positional "" digits exponent = String.ofList cs ∧ IsNumeral cs := by
  have zeros {count : Nat} : ∀ c ∈ List.replicate count '0', c.isDigit := by
    intro c hc
    rw [List.eq_of_mem_replicate hc]
    rfl
  unfold positional
  split
  · refine ⟨_, String.append_empty, .whole (by simp [hne]) fun c hc => ?_⟩
    exact (List.mem_append.mp hc).elim (h c) (zeros c)
  · dsimp only
    generalize hpad : List.replicate ((-exponent).toNat + 1 - digits.length) '0' ++ digits = padded
    have all : ∀ c ∈ padded, c.isDigit := by
      intro c hc
      rw [← hpad] at hc
      exact (List.mem_append.mp hc).elim (zeros c) (h c)
    have long : (-exponent).toNat + 1 ≤ padded.length := by
      rw [← hpad, List.length_append, List.length_replicate]
      omega
    have whole : padded.take (padded.length - (-exponent).toNat) ≠ [] := by
      rw [← List.length_pos_iff, List.length_take]
      omega
    exact ⟨_, rfl, .point whole (fun c hc => all c (List.mem_of_mem_take hc))
      fun c hc => all c (List.mem_of_mem_drop hc)⟩

/-- A plain number has no exponent. -/
theorem write_plain (x : Float) :
    plain.write x ∈ ["NaN", "inf", "-inf"] ∨
      ∃ cs, IsNumeral cs ∧ plain.write x ∈ [String.ofList cs, "-" ++ String.ofList cs] := by
  unfold Layout.write
  split
  · exact .inl (by decide)
  · next negative hx => cases negative <;> exact .inl (by decide)
  · next negative significand exponent hx =>
    right
    dsimp only
    generalize shortest significand exponent = numeral
    rw [Nat.repr_eq_ofList_toDigits, String.toList_ofList]
    have digits : ∀ c ∈ Nat.toDigits 10 numeral.coefficient, c.isDigit := fun c hc =>
      Nat.isDigit_of_mem_toDigits (by decide) (by decide) hc
    obtain ⟨cs, text, hcs⟩ :=
      isNumeral_positional Nat.toDigits_ne_nil digits numeral.exponent
    have unused (leading : Int) : ¬(significand ≠ 0 ∧ plain.scientific leading = true) := by
      simp [plain]
    refine ⟨cs, hcs, ?_⟩
    rw [if_neg (unused _), show plain.wholeFraction = "" from rfl, text]
    cases negative <;> simp

theorem isSome_read?_write (x : Float) : (read? (plain.write x)).isSome := by
  obtain named | ⟨cs, hcs, digits⟩ := write_plain x
  · simp only [List.mem_cons, List.not_mem_nil, or_false] at named
    obtain text | text | text := named <;> rw [text] <;> rfl
  · simp only [List.mem_cons, List.not_mem_nil, or_false] at digits
    obtain text | text := digits <;> rw [text]
    · exact hcs.isSome_read?
    · exact hcs.isSome_read?_neg

theorem newline_not_mem_write (x : Float) : '\n' ∉ (plain.write x).toList := by
  obtain named | ⟨cs, hcs, digits⟩ := write_plain x
  · simp only [List.mem_cons, List.not_mem_nil, or_false] at named
    obtain text | text | text := named <;> rw [text] <;> decide
  · have free : '\n' ∉ cs := fun h => by simpa using hcs.mem h
    simp only [List.mem_cons, List.not_mem_nil, or_false] at digits
    obtain text | text := digits <;> rw [text] <;> simpa using free

end StackCompiler.Decimal

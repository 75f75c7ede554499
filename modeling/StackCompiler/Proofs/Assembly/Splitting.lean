import StackCompiler.Proofs.Assembly.Reading

/-!
What the words of a line are, said without splitting it. Quotes pair off from the left; a line whose
quotes do not come out even has no words, and any other line has the one list of words that lie
between its blanks outside quotes.
-/

namespace StackCompiler.Assembly

/-- A quote that opens outside of any other quote is never closed. -/
def Unterminated (line : List Char) : Prop :=
  ∃ before q rest, line = before ++ q :: rest ∧ Paired (fun _ => True) before ∧
    isQuote q = true ∧ q ∉ rest

/-- The words in their order with nothing but blanks before, between and behind them; between two of
them there is a blank. -/
inductive Spaced : List Char → List (List Char) → Prop where
  | blank {gap} (blank : ∀ c ∈ gap, Text.isBlank c = true) : Spaced gap []
  | word {gap w rest words} (blank : ∀ c ∈ gap, Text.isBlank c = true)
      (apart : ∀ c, rest.head? = some c → Text.isBlank c = true) (later : Spaced rest words) :
      Spaced (gap ++ (w ++ rest)) (w :: words)

variable {quote : Option Char} {c q : Char} {cs line word rest gap inside : List Char}
  {later words : List (List Char)} {p : Char → Prop}

/-! ### Words of a line -/

theorem Spaced.cons (blank : Text.isBlank c = true) (h : Spaced cs words) :
    Spaced (c :: cs) words := by
  cases h with
  | blank all => exact .blank (List.forall_mem_cons.mpr ⟨blank, all⟩)
  | word all apart later => exact .word (List.forall_mem_cons.mpr ⟨blank, all⟩) apart later

theorem Spaced.pushWord (apart : ∀ c, rest.head? = some c → Text.isBlank c = true)
    (h : Spaced rest later) : Spaced (word ++ rest) (pushWord word later) := by
  cases word with
  | nil => exact h
  | cons c word =>
    show Spaced ([] ++ (c :: word ++ rest)) ((c :: word) :: later)
    exact .word (by simp) apart h

/-- The text is the rest of the word at hand and, behind a blank, the words after it. -/
theorem spaced_of_splitWords (h : splitWords quote cs = some (word, later)) :
    ∃ rest, cs = word ++ rest ∧ (∀ c, rest.head? = some c → Text.isBlank c = true) ∧
      Spaced rest later := by
  induction cs generalizing quote word later with
  | nil =>
    cases quote <;> cases h
    exact ⟨[], rfl, by simp, .blank (by simp)⟩
  | cons c cs ih =>
    obtain ⟨w, ws, hw, ⟨-, blank, rfl, rfl⟩ | ⟨-, rfl, rfl⟩⟩ := exists_of_splitWords_cons h
    · obtain ⟨rest, rfl, apart, spaced⟩ := ih hw
      refine ⟨c :: (w ++ rest), rfl, fun d hd => ?_, (spaced.pushWord apart).cons blank⟩
      cases hd
      exact blank
    · obtain ⟨rest, rfl, apart, spaced⟩ := ih hw
      exact ⟨rest, rfl, apart, spaced⟩

theorem words?_blank (blank : Text.isBlank c = true) (rest : List Char) :
    words? (c :: rest) = words? rest := by
  rw [words?_eq, splitWords_blank blank, Option.map_map]
  exact Option.map_id_apply

theorem words?_gap (blank : ∀ c ∈ gap, Text.isBlank c = true) (rest : List Char) :
    words? (gap ++ rest) = words? rest := by
  induction gap with
  | nil => rfl
  | cons c gap ih =>
    obtain ⟨first, others⟩ := List.forall_mem_cons.mp blank
    rw [List.cons_append, words?_blank first, ih others]

theorem words?_of_spaced (h : Spaced line words) (hw : ∀ w ∈ words, IsWord w) :
    words? line = some words := by
  induction h with
  | @blank gap blank =>
    have all := words?_gap blank []
    rw [List.append_nil] at all
    exact all
  | @word gap w rest words blank apart later ih =>
    obtain ⟨first, others⟩ := List.forall_mem_cons.mp hw
    have behind := ih others
    rw [words?_gap blank]
    cases rest with
    | nil =>
      cases behind
      simpa [IsWord] using first
    | cons c rest =>
      have gap : Text.isBlank c = true := apart c rfl
      rw [words?_blank gap] at behind
      rw [words?_append first gap, behind]
      rfl

theorem words?_eq_some_iff :
    words? line = some words ↔ Spaced line words ∧ ∀ w ∈ words, Solid w := by
  constructor
  · intro h
    have all := isWord_of_mem_words? h
    rw [words?_eq] at h
    obtain ⟨⟨w, ws⟩, hw, rfl⟩ := Option.map_eq_some_iff.mp h
    obtain ⟨rest, rfl, apart, spaced⟩ := spaced_of_splitWords hw
    exact ⟨spaced.pushWord apart, fun v hv => isWord_iff.mp (all v hv)⟩
  · rintro ⟨spaced, solid⟩
    exact words?_of_spaced spaced fun w hw => isWord_iff.mpr (solid w hw)

/-! ### Lines without words -/

theorem splitWords_cons_eq_none :
    splitWords quote (c :: cs) = none ↔ splitWords (quoteAfter quote c) cs = none := by
  rw [splitWords_cons, Option.map_eq_none_iff]

theorem splitWords_paired_append (h : Paired p cs) :
    splitWords none (cs ++ rest) = none ↔ splitWords none rest = none := by
  induction h with
  | nil => rfl
  | plain bare _ _ ih =>
    rw [List.cons_append, splitWords_cons_eq_none, quoteAfter, bare, if_neg Bool.false_ne_true, ih]
  | @quoted q inside cs opens closes _ ih =>
    rw [List.cons_append, splitWords_cons_eq_none, quoteAfter, if_pos opens, List.append_assoc,
      List.cons_append, List.append_cons, splitWords_append (splitWords_closed closes),
      Option.map_eq_none_iff, ih]

theorem splitWords_open (h : q ∉ cs) : splitWords (some q) cs = none := by
  induction cs with
  | nil => rfl
  | cons c cs ih =>
    rw [List.mem_cons, not_or] at h
    obtain ⟨other, later⟩ := h
    rw [splitWords_cons_eq_none, quoteAfter, if_neg (Ne.symm other), ih later]

theorem Unterminated.plain (bare : isQuote c = false) (h : Unterminated cs) :
    Unterminated (c :: cs) := by
  obtain ⟨before, q, rest, rfl, paired, open_⟩ := h
  exact ⟨c :: before, q, rest, rfl, .plain bare trivial paired, open_⟩

theorem Unterminated.quoted (opens : isQuote q = true) (closes : q ∉ inside)
    (h : Unterminated cs) : Unterminated (q :: (inside ++ q :: cs)) := by
  obtain ⟨before, q', rest, rfl, paired, open_⟩ := h
  exact ⟨q :: (inside ++ q :: before), q', rest, by simp, .quoted opens closes paired, open_⟩

/-- The quote that is open stays so, or there is such a quote behind its end. -/
theorem unterminated_of_splitWords (h : splitWords quote cs = none) :
    (∃ q, quote = some q ∧ q ∉ cs) ∨ BehindQuote Unterminated quote cs := by
  induction cs generalizing quote with
  | nil =>
    cases quote with
    | none => cases h
    | some q => exact .inl ⟨q, rfl, List.not_mem_nil⟩
  | cons c cs ih =>
    obtain ⟨q, hq, never⟩ | behind := ih (splitWords_cons_eq_none.mp h)
    · cases quote with
      | none =>
        rw [quoteAfter] at hq
        split at hq
        · next opens =>
          cases hq
          exact .inr ⟨[], c, cs, rfl, .nil, opens, never⟩
        · cases hq
      | some q' =>
        rw [quoteAfter] at hq
        split at hq
        · cases hq
        · next other =>
          cases hq
          exact .inl ⟨q, rfl, List.not_mem_cons_of_ne_of_not_mem (Ne.symm other) never⟩
    · exact .inr (behind.cons (fun _ => .plain) fun _ _ => .quoted)

theorem words?_eq_none_iff : words? line = none ↔ Unterminated line := by
  rw [words?_eq, Option.map_eq_none_iff]
  constructor
  · intro h
    obtain ⟨q, bad, -⟩ | unterminated := unterminated_of_splitWords h
    · cases bad
    · exact unterminated
  · rintro ⟨before, q, rest, rfl, paired, opens, never⟩
    rw [splitWords_paired_append paired, splitWords_cons_eq_none, quoteAfter, if_pos opens,
      splitWords_open never]

/-! ### Faults of a line -/

namespace Instruction

theorem labelOfWord_map_ne {make : Label → Instruction} {word : String} :
    (labelOfWord word).map make ≠ .error .unterminatedString := by
  unfold labelOfWord
  split <;> exact fun h => by cases h

theorem popCount_map_ne {make : Nat → Instruction} {words : List String} :
    (popCount words).map make ≠ .error .unterminatedString := by
  unfold popCount
  split <;> exact fun h => by cases h

theorem ofMnemonic_ne (mnemonic : String) (args : List String) :
    ofMnemonic mnemonic args ≠ .error .unterminatedString := by
  intro h
  unfold ofMnemonic at h
  dsimp only at h
  split at h
  case h_1 | h_6 => -- mov, out
    split at h <;> cases h
  case h_2 | h_3 | h_4 | h_5 => -- lbl, jmp, jf, call
    split at h
    · exact labelOfWord_map_ne h
    · cases h
  case h_7 | h_8 => -- prn, read
    exact popCount_map_ne h
  case h_9 => -- UNKNOWN
    split at h
    · exact popCount_map_ne h
    · cases h
  case h_10 => -- an operator
    split at h
    · split at h <;> cases h
    · split at h <;> cases h
    · cases h

/-- Only splitting finds a quote that is left open. -/
theorem ofChars_eq_unterminatedString_iff :
    ofChars line = .error .unterminatedString ↔ words? line = none := by
  unfold ofChars
  cases words? line with
  | none => exact ⟨fun _ => rfl, fun _ => rfl⟩
  | some words =>
    refine ⟨fun h => ?_, fun h => by cases h⟩
    cases hw : words.map String.ofList with
    | nil =>
      simp only [hw] at h
      cases h
    | cons mnemonic args =>
      simp only [hw] at h
      exact absurd h (ofMnemonic_ne mnemonic args)

end Instruction

/-- A line has no words, and is refused for that, exactly if a quote that opens outside of any other
one is never closed. Otherwise its words are the one list of texts without blanks outside quotes
that the line holds in this order with nothing but blanks around them, and with single blanks
between them they are the words of their line again. -/
theorem words?_tokenizes (line : List Char) (words : List (List Char)) :
    (words? line = none ↔ Unterminated line) ∧
    (Instruction.ofChars line = .error .unterminatedString ↔ Unterminated line) ∧
    (words? line = some words ↔ Spaced line words ∧ ∀ w ∈ words, Solid w) ∧
    ((words? line).bind fun found => words? ([' '].intercalate found)) = words? line := by
  refine ⟨words?_eq_none_iff, ?_, words?_eq_some_iff, ?_⟩
  · rw [Instruction.ofChars_eq_unterminatedString_iff, words?_eq_none_iff]
  · cases h : words? line with
    | none => rfl
    | some found => exact words?_intercalate (isWord_of_mem_words? h)

end StackCompiler.Assembly

import StackCompiler.Assembly.Reader

/-!
Words of a line. A text is a word if it is split into itself: its quotes pair off from the left, and
no blank stands outside of them. Words with single blanks between them are split into the same
words.
-/

namespace StackCompiler.Text

/-- A text without outer blanks stays as it is. -/
theorem trim_eq_self {cs : List Char} (head : ∀ c, cs.head? = some c → isBlank c = false)
    (last : ∀ c, cs.getLast? = some c → isBlank c = false) : trim cs = cs := by
  have start : trimStart cs = cs := by
    cases cs with
    | nil => rfl
    | cons c cs => rw [trimStart, List.dropWhile_cons_of_neg (by simp [head c rfl])]
  have stop : cs.reverse.dropWhile isBlank = cs.reverse := by
    cases hr : cs.reverse with
    | nil => rfl
    | cons c rest =>
      have : cs.getLast? = some c := by rw [List.getLast?_eq_head?_reverse, hr]; rfl
      rw [List.dropWhile_cons_of_neg (by simp [last c this])]
  rw [trim, start, trimEnd, stop, List.reverse_reverse]

/-- Only what is behind a character that is no blank can go at the end. -/
theorem trimEnd_cons {c : Char} (h : isBlank c = false) (cs : List Char) :
    trimEnd (c :: cs) = c :: trimEnd cs := by
  have stays : (cs.reverse ++ [c]).dropWhile isBlank = cs.reverse.dropWhile isBlank ++ [c] := by
    rw [List.dropWhile_append]
    split
    · next empty => simp [List.isEmpty_iff.mp empty, h]
    · rfl
  rw [trimEnd, List.reverse_cons, stays, List.reverse_append]
  rfl

end StackCompiler.Text

namespace StackCompiler.Assembly

/-- The quote that is open behind the character. -/
def quoteAfter : (quote : Option Char) → Char → Option Char
  | some q, c => if c = q then none else some q
  | none, c => if isQuote c then some c else none

/-- Nothing before a blank is no word. -/
def pushWord (word : List Char) (later : List (List Char)) : List (List Char) :=
  if word.isEmpty then later else word :: later

/-- From left to right, every quote that opens is closed by the next quote of its kind, and what
stands outside of quotes has the property. -/
inductive Paired (p : Char → Prop) : List Char → Prop where
  | nil : Paired p []
  | plain {c cs} (bare : isQuote c = false) (holds : p c) (rest : Paired p cs) : Paired p (c :: cs)
  | quoted {q inside cs} (opens : isQuote q = true) (closes : q ∉ inside) (rest : Paired p cs) :
      Paired p (q :: (inside ++ q :: cs))

/-- The quote that is open, if there is one, is closed, and what follows it has the property. -/
def BehindQuote (p : List Char → Prop) : (quote : Option Char) → List Char → Prop
  | none, cs => p cs
  | some q, cs => ∃ inside rest, cs = inside ++ q :: rest ∧ q ∉ inside ∧ p rest

variable {quote : Option Char} {c : Char} {cs word rest : List Char} {later : List (List Char)}

theorem isBlank_of_isQuote (h : isQuote c = true) : Text.isBlank c = false := by
  rw [isQuote, Bool.or_eq_true, beq_iff_eq, beq_iff_eq] at h
  obtain rfl | rfl := h <;> rfl

theorem not_isQuote_of_isBlank (h : Text.isBlank c = true) : isQuote c = false := by
  cases hc : isQuote c with
  | false => rfl
  | true => rw [isBlank_of_isQuote hc] at h; cases h

theorem words?_eq (cs : List Char) :
    words? cs = (splitWords none cs).map fun (word, later) => pushWord word later := rfl

/-- The first character parts words, or it belongs to the first word. -/
theorem splitWords_cons (quote : Option Char) (c : Char) (cs : List Char) :
    splitWords quote (c :: cs) = (splitWords (quoteAfter quote c) cs).map fun (word, later) =>
      if quote = none ∧ Text.isBlank c = true then ([], pushWord word later)
      else (c :: word, later) := by
  cases quote with
  | none =>
    simp only [splitWords, quoteAfter, true_and]
    rfl
  | some q =>
    simp only [splitWords, quoteAfter, reduceCtorEq, false_and, if_false]

theorem exists_of_splitWords_cons (h : splitWords quote (c :: cs) = some (word, later)) :
    ∃ w ws, splitWords (quoteAfter quote c) cs = some (w, ws) ∧
      (quote = none ∧ Text.isBlank c = true ∧ word = [] ∧ later = pushWord w ws ∨
        ¬ (quote = none ∧ Text.isBlank c = true) ∧ word = c :: w ∧ later = ws) := by
  rw [splitWords_cons] at h
  obtain ⟨⟨w, ws⟩, hw, he⟩ := Option.map_eq_some_iff.mp h
  dsimp only at he
  refine ⟨w, ws, hw, ?_⟩
  split at he
  · next blank =>
    cases he
    exact .inl ⟨blank.1, blank.2, rfl, rfl⟩
  · next solid =>
    cases he
    exact .inr ⟨solid, rfl, rfl⟩

theorem BehindQuote.cons {p : List Char → Prop} (h : BehindQuote p (quoteAfter quote c) cs)
    (plain : quote = none → isQuote c = false → p cs → p (c :: cs))
    (quoted : ∀ inside rest, isQuote c = true → c ∉ inside → p rest →
      p (c :: (inside ++ c :: rest))) : BehindQuote p quote (c :: cs) := by
  cases quote with
  | none =>
    rw [quoteAfter] at h
    split at h
    · next opens =>
      obtain ⟨inside, rest, rfl, closes, holds⟩ := h
      exact quoted inside rest opens closes holds
    · next bare => exact plain rfl (eq_false_of_ne_true bare) h
  | some q =>
    rw [quoteAfter] at h
    split at h
    · next same => exact ⟨[], cs, by rw [same]; rfl, List.not_mem_nil, h⟩
    · next other =>
      obtain ⟨inside, rest, rfl, closes, holds⟩ := h
      exact ⟨c :: inside, rest, rfl, List.not_mem_cons_of_ne_of_not_mem (Ne.symm other) closes,
        holds⟩

/-- Splitting only leaves characters out. -/
theorem length_splitWords (h : splitWords quote cs = some (word, later)) :
    word.length + later.flatten.length ≤ cs.length := by
  induction cs generalizing quote word later with
  | nil =>
    cases quote <;> cases h
    exact Nat.le_refl _
  | cons c cs ih =>
    obtain ⟨w, ws, hw, ⟨-, -, rfl, rfl⟩ | ⟨-, rfl, rfl⟩⟩ := exists_of_splitWords_cons h
    · have := ih hw
      unfold pushWord
      split <;> simp only [List.length_nil, List.length_cons, List.flatten_cons,
        List.length_append] <;> omega
    · have := ih hw
      simp only [List.length_cons]
      omega

/-- The text is one word, the quotes included. -/
def IsWord (cs : List Char) : Prop := words? cs = some [cs]

instance (cs : List Char) : Decidable (IsWord cs) := inferInstanceAs (Decidable (_ = _))

theorem IsWord.ne_nil (h : IsWord cs) : cs ≠ [] := by
  rintro rfl
  cases h

/-- Where splitting finds no end of a word in what is no empty text, the text is a word. -/
theorem isWord_of_splitWords (hne : cs ≠ []) (h : splitWords none cs = some (cs, [])) :
    IsWord cs := by
  rw [IsWord, words?_eq, h]
  simp [pushWord, hne]

/-- Splitting finds no end of a word within the word. -/
theorem IsWord.splitWords (h : IsWord cs) : splitWords none cs = some (cs, []) := by
  have whole := h
  rw [IsWord, words?_eq] at h
  obtain ⟨⟨w, ws⟩, hw, he⟩ := Option.map_eq_some_iff.mp h
  cases cs with
  | nil => cases whole
  | cons c cs =>
    obtain ⟨w', ws', hw', ⟨-, -, rfl, rfl⟩ | ⟨-, rfl, rfl⟩⟩ := exists_of_splitWords_cons hw
    · have short := length_splitWords hw'
      have long : (pushWord w' ws').flatten = c :: cs := by
        dsimp only [pushWord] at he ⊢
        rw [List.isEmpty_nil, if_pos rfl] at he
        rw [he, List.flatten_singleton]
      have := congrArg List.length long
      unfold pushWord at this
      split at this <;> simp only [List.length_cons, List.flatten_cons, List.length_append] at this <;>
        omega
    · cases he
      exact hw

/-- What follows a text in which no word ends goes on with the same word. -/
theorem splitWords_append (h : splitWords quote cs = some (cs, [])) (rest : List Char) :
    splitWords quote (cs ++ rest) =
      (splitWords none rest).map fun (word, later) => (cs ++ word, later) := by
  induction cs generalizing quote with
  | nil =>
    cases quote with
    | some q => cases h
    | none =>
      cases hr : splitWords none rest <;> simp [hr]
  | cons c cs ih =>
    obtain ⟨w, ws, hw, ⟨-, -, bad, -⟩ | ⟨solid, same, rfl⟩⟩ := exists_of_splitWords_cons h
    · cases bad
    · cases same
      rw [List.cons_append, splitWords_cons, ih hw, Option.map_map]
      simp only [if_neg solid]
      rfl

/-- Inside quotes nothing but the same quote ends a word. -/
theorem splitWords_closed {q : Char} (h : q ∉ cs) :
    splitWords (some q) (cs ++ [q]) = some (cs ++ [q], []) := by
  induction cs with
  | nil => simp [splitWords]
  | cons c cs ih =>
    rw [List.mem_cons, not_or] at h
    rw [List.cons_append, splitWords, if_neg (Ne.symm h.1), ih h.2]
    rfl

theorem splitWords_of_paired (h : Paired (fun c => Text.isBlank c = false) cs) :
    splitWords none cs = some (cs, []) := by
  induction h with
  | nil => rfl
  | plain bare solid rest ih =>
    rw [splitWords_cons, quoteAfter, bare, if_neg Bool.false_ne_true, ih]
    simp [solid]
  | @quoted q inside cs opens closes rest ih =>
    rw [splitWords_cons, quoteAfter, if_pos opens, List.append_cons,
      splitWords_append (splitWords_closed closes), ih]
    simp [isBlank_of_isQuote opens]

/-- In a text in which no word ends, quotes are paired. -/
theorem paired_of_splitWords (h : splitWords quote cs = some (cs, [])) :
    BehindQuote (Paired fun c => Text.isBlank c = false) quote cs := by
  induction cs generalizing quote with
  | nil =>
    cases quote with
    | none => exact .nil
    | some q => cases h
  | cons c cs ih =>
    obtain ⟨w, ws, hw, ⟨-, -, bad, -⟩ | ⟨solid, same, rfl⟩⟩ := exists_of_splitWords_cons h
    · cases bad
    · cases same
      refine (ih hw).cons (fun outside bare paired => ?_) fun inside rest => .quoted
      exact .plain bare (by simpa [outside] using solid) paired

/-- What follows a blank outside quotes is split as if it stood alone. -/
theorem splitWords_blank (blank : Text.isBlank c = true) (rest : List Char) :
    splitWords none (c :: rest) = (words? rest).map fun later => ([], later) := by
  rw [splitWords_cons, quoteAfter, not_isQuote_of_isBlank blank, words?_eq, Option.map_map]
  simp only [blank]
  rfl

/-- Some text without blanks outside quotes. -/
structure Solid (w : List Char) : Prop where
  ne_nil : w ≠ []
  paired : Paired (fun c => Text.isBlank c = false) w

theorem isWord_iff : IsWord cs ↔ Solid cs :=
  ⟨fun h => ⟨h.ne_nil, paired_of_splitWords h.splitWords⟩,
    fun h => isWord_of_splitWords h.ne_nil (splitWords_of_paired h.paired)⟩

theorem words?_append (h : IsWord cs) (blank : Text.isBlank c = true) (rest : List Char) :
    words? (cs ++ c :: rest) = (words? rest).map (cs :: ·) := by
  rw [words?_eq, splitWords_append h.splitWords, splitWords_blank blank, Option.map_map,
    Option.map_map]
  congr 1
  funext later
  simp [pushWord, h.ne_nil]

/-- Words with single blanks between them are the words of their line. -/
theorem words?_intercalate {words : List (List Char)} (h : ∀ w ∈ words, IsWord w) :
    words? ([' '].intercalate words) = some words := by
  induction words with
  | nil => rfl
  | cons w words ih =>
    cases words with
    | nil => simpa [IsWord] using h w List.mem_cons_self
    | cons w' words =>
      rw [List.intercalate_cons_cons, List.append_assoc, List.singleton_append,
        words?_append (h w List.mem_cons_self) rfl, ih fun v hv => h v (List.mem_cons_of_mem w hv)]
      rfl

/-- The line starts as its first word does and ends as its last word does. -/
theorem head?_intercalate (hw : word ≠ []) (words : List (List Char)) :
    ([' '].intercalate (word :: words)).head? = word.head? := by
  obtain ⟨c, cs, rfl⟩ := List.exists_cons_of_ne_nil hw
  cases words with
  | nil => rw [List.intercalate_singleton]
  | cons w words =>
    rw [List.intercalate_cons_cons]
    rfl

theorem getLast?_intercalate {words : List (List Char)} (h : ∀ w ∈ words, w ≠ []) :
    ([' '].intercalate words).getLast? = words.getLast?.bind List.getLast? := by
  induction words with
  | nil => rfl
  | cons w words ih =>
    cases words with
    | nil => rw [List.intercalate_singleton]; rfl
    | cons w' words =>
      have filled : ([' '].intercalate (w' :: words)).getLast? ≠ none := by
        intro empty
        have start := head?_intercalate (h w' (by simp)) words
        rw [List.getLast?_eq_none_iff.mp empty, List.head?_nil, eq_comm, List.head?_eq_none_iff]
          at start
        exact h w' (by simp) start
      obtain ⟨c, hc⟩ := Option.ne_none_iff_exists'.mp filled
      rw [List.intercalate_cons_cons, List.getLast?_append, List.getLast?_cons_cons,
        ← ih fun v hv => h v (List.mem_cons_of_mem w hv), hc]
      rfl

theorem IsWord.head (h : IsWord cs) (hc : cs.head? = some c) : Text.isBlank c = false := by
  cases cs with
  | nil => cases hc
  | cons d cs =>
    cases hc
    obtain ⟨w, ws, -, ⟨-, -, bad, -⟩ | ⟨solid, -⟩⟩ := exists_of_splitWords_cons h.splitWords
    · cases bad
    · simpa using solid

/-- The last character is no blank outside quotes, or it is the quote that closes. -/
theorem Paired.last (h : Paired (fun c => Text.isBlank c = false) cs) (hc : cs.getLast? = some c) :
    Text.isBlank c = false := by
  induction h with
  | nil => cases hc
  | @plain d cs bare solid rest ih =>
    cases cs with
    | nil =>
      cases hc
      exact solid
    | cons e cs => exact ih (List.getLast?_cons_cons ▸ hc)
  | @quoted q inside cs opens closes rest ih =>
    rw [List.append_cons, ← List.cons_append, List.getLast?_append] at hc
    cases hl : cs.getLast? with
    | none =>
      rw [hl, Option.none_or, ← List.cons_append, List.getLast?_concat] at hc
      cases hc
      exact isBlank_of_isQuote opens
    | some d =>
      rw [hl, Option.some_or] at hc
      exact ih (hl.trans hc)

theorem IsWord.last (h : IsWord cs) (hc : cs.getLast? = some c) : Text.isBlank c = false :=
  (isWord_iff.mp h).paired.last hc

/-- A line of words has no outer blanks. -/
theorem trim_intercalate {words : List (List Char)} (h : ∀ w ∈ words, IsWord w) :
    Text.trim ([' '].intercalate words) = [' '].intercalate words := by
  refine Text.trim_eq_self (fun c hc => ?_) fun c hc => ?_
  · cases words with
    | nil => cases hc
    | cons w words =>
      have word := h w List.mem_cons_self
      exact word.head (head?_intercalate word.ne_nil words ▸ hc)
  · rw [getLast?_intercalate fun w hw => (h w hw).ne_nil] at hc
    obtain ⟨w, hw, hc⟩ := Option.bind_eq_some_iff.mp hc
    exact (h w (List.mem_of_getLast? hw)).last hc

end StackCompiler.Assembly

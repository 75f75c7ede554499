import StackCompiler.Proofs.Assembly.Printing

/-!
What is read. Whatever the text, the code that is read from it has no comments, and its texts are
words that are read as what they are. So it is printed in a form that reads back unchanged, and no
other code has such a form.
-/

namespace StackCompiler

/-- A label keeps its text but for outer blanks. -/
theorem Label.toList_text_of_read? {text : String} {l : Label} (h : read? text = some l) :
    l.text.toList = Text.trim text.toList := by
  unfold read? ofChars? at h
  split at h
  · next rest trimmed =>
    split at h
    · next c before turned =>
      have whole : rest = before.reverse ++ [c] ++ ['$', '$'] := by
        rw [← rest.reverse_reverse, turned]
        simp
      dsimp only at h
      split at h
      · cases h
      · cases h
        rw [trimmed, whole]
        simp [Label.text]
    · cases h
  · cases h

namespace Assembly

variable {quote : Option Char} {c : Char} {cs word : List Char} {later words : List (List Char)}

theorem mem_pushWord {w : List Char} :
    w ∈ pushWord word later ↔ w ≠ [] ∧ w = word ∨ w ∈ later := by
  unfold pushWord
  split
  · next empty =>
    rw [List.isEmpty_iff] at empty
    simp [empty]
  · next filled =>
    rw [List.isEmpty_iff] at filled
    rw [List.mem_cons]
    refine or_congr_left ⟨?_, And.right⟩
    rintro rfl
    exact ⟨filled, rfl⟩

/-- Splitting gives pieces that are split no further: what is left of the word at hand, and
words. -/
theorem splitWords_pieces (h : splitWords quote cs = some (word, later)) :
    splitWords quote word = some (word, []) ∧ ∀ w ∈ later, IsWord w := by
  induction cs generalizing quote word later with
  | nil =>
    cases quote <;> cases h
    exact ⟨rfl, by simp⟩
  | cons c cs ih =>
    obtain ⟨w, ws, hw, ⟨rfl, blank, rfl, rfl⟩ | ⟨solid, rfl, rfl⟩⟩ := exists_of_splitWords_cons h
    · rw [quoteAfter, not_isQuote_of_isBlank blank] at hw
      obtain ⟨whole, rest⟩ := ih hw
      refine ⟨rfl, fun v hv => ?_⟩
      obtain ⟨hne, rfl⟩ | hv := mem_pushWord.mp hv
      · exact isWord_of_splitWords hne whole
      · exact rest v hv
    · obtain ⟨whole, rest⟩ := ih hw
      refine ⟨?_, rest⟩
      rw [splitWords_cons, whole, Option.map_some]
      exact congrArg some (if_neg solid)

/-- The words of a line are words by themselves. -/
theorem isWord_of_mem_words? (h : words? cs = some words) : ∀ w ∈ words, IsWord w := by
  rw [words?_eq] at h
  obtain ⟨⟨w, ws⟩, hw, rfl⟩ := Option.map_eq_some_iff.mp h
  obtain ⟨whole, rest⟩ := splitWords_pieces hw
  intro v hv
  obtain ⟨hne, rfl⟩ | hv := mem_pushWord.mp hv
  · exact isWord_of_splitWords hne whole
  · exact rest v hv

theorem mem_of_mem_splitWords (h : splitWords quote cs = some (word, later)) :
    (c ∈ word → c ∈ cs) ∧ ∀ w ∈ later, c ∈ w → c ∈ cs := by
  induction cs generalizing quote word later with
  | nil =>
    cases quote <;> cases h
    simp
  | cons d cs ih =>
    obtain ⟨w, ws, hw, ⟨-, -, rfl, rfl⟩ | ⟨-, rfl, rfl⟩⟩ := exists_of_splitWords_cons h
    · obtain ⟨first, rest⟩ := ih hw
      refine ⟨by simp, fun v hv hc => List.mem_cons_of_mem d ?_⟩
      obtain ⟨-, rfl⟩ | hv := mem_pushWord.mp hv
      · exact first hc
      · exact rest v hv hc
    · obtain ⟨first, rest⟩ := ih hw
      refine ⟨fun hc => ?_, fun v hv hc => List.mem_cons_of_mem d (rest v hv hc)⟩
      obtain rfl | hc := List.mem_cons.mp hc
      · exact List.mem_cons_self
      · exact List.mem_cons_of_mem d (first hc)

/-- Splitting into words adds no characters. -/
theorem mem_of_mem_words? (h : words? cs = some words) : ∀ w ∈ words, c ∈ w → c ∈ cs := by
  rw [words?_eq] at h
  obtain ⟨⟨w, ws⟩, hw, rfl⟩ := Option.map_eq_some_iff.mp h
  obtain ⟨first, rest⟩ := mem_of_mem_splitWords (c := c) hw
  intro v hv hc
  obtain ⟨-, rfl⟩ | hv := mem_pushWord.mp hv
  · exact first hc
  · exact rest v hv hc

theorem IsWord.trim (h : IsWord cs) : Text.trim cs = cs :=
  Text.trim_eq_self (fun _ => h.head) fun _ => h.last

theorem text_of_labelOfWord {word : String} {l : Label} (h : labelOfWord word = .ok l)
    (hw : IsWord word.toList) : l.text = word := by
  unfold labelOfWord at h
  split at h
  · next read =>
    cases h
    have text := Label.toList_text_of_read? read
    rw [hw.trim] at text
    exact String.toList_injective text
  · cases h

/-- Whatever the word is read as, it is printed as that word. -/
theorem Operand.text_ofWord (word : String) : (ofWord word).text = word := by
  unfold ofWord
  split
  · next h => exact h.symm
  · split <;> rfl

theorem Target.text_ofWord (word : String) : (ofWord word).text = word := by
  unfold ofWord
  split
  · next h => exact h.symm
  · rfl

/-- What a word is read as is told from the word. -/
theorem Operand.worded_ofWord {word : String} (h : IsWord word.toList) :
    (ofWord word).Worded ∧ (ofWord word).Literate := by
  unfold ofWord
  split
  · exact ⟨trivial, trivial⟩
  · next hpop =>
    split
    · next known =>
      rw [Bool.or_eq_true] at known
      exact ⟨h, known⟩
    · next unknown =>
      rw [Bool.or_eq_true, not_or, Bool.not_eq_true, Bool.not_eq_true,
        Option.isSome_eq_false_iff] at unknown
      exact ⟨⟨h, hpop, unknown⟩, trivial⟩

theorem Target.worded_ofWord {word : String} (h : IsWord word.toList) : (ofWord word).Worded := by
  unfold ofWord
  split
  · trivial
  · next hpush => exact ⟨h, hpush⟩

theorem UnaryOp.mnemonic_of_ofMnemonic? {mnemonic : String} {op : UnaryOp}
    (h : ofMnemonic? mnemonic = some op) : op.mnemonic = mnemonic := by
  unfold ofMnemonic? at h
  split at h <;> cases h <;> rfl

theorem BinaryOp.mnemonic_of_ofMnemonic? {mnemonic : String} {op : BinaryOp}
    (h : ofMnemonic? mnemonic = some op) : op.mnemonic = mnemonic := by
  unfold ofMnemonic? at h
  split at h <;> cases h <;> rfl

theorem eq_replicate_of_popCount {words : List String} {count : Nat}
    (h : popCount words = .ok count) : words = List.replicate count "pop" := by
  unfold popCount at h
  split at h
  · cases h
  · next all =>
    cases h
    rw [List.find?_eq_none] at all
    exact List.eq_replicate_iff.mpr ⟨rfl, fun w hw => by simpa using all w hw⟩

theorem map_eq_ok {ε α β : Type} {result : Except ε α} {f : α → β} {b : β}
    (h : result.map f = .ok b) : ∃ a, result = .ok a ∧ f a = b := by
  cases result with
  | ok a =>
    cases h
    exact ⟨a, rfl, rfl⟩
  | error cause => cases h

namespace Instruction

/-- What is read is printed in the words that it was read from, and there are no comments in it. -/
structure ReadFrom (i : Instruction) (words : List String) : Prop where
  words : i.words = words
  worded : i.Worded
  literate : ∀ o ∈ i.operands, o.Literate
  noComment : i.isComment = false

theorem readFrom_label {make : Label → Instruction} {mnemonic word : String} {i : Instruction}
    (h : (labelOfWord word).map make = .ok i) (hw : IsWord word.toList)
    (printed : ∀ l, (make l).words = [mnemonic, l.text])
    (plain : ∀ l, (make l).operands = [] ∧ (make l).isComment = false)
    (worded : ∀ l, (make l).Worded ↔ IsWord l.text.toList) : i.ReadFrom [mnemonic, word] := by
  obtain ⟨l, hl, rfl⟩ := map_eq_ok h
  have text := text_of_labelOfWord hl hw
  refine ⟨by rw [printed, text], (worded l).mpr (text.symm ▸ hw), ?_, (plain l).2⟩
  rw [(plain l).1]
  simp

theorem readFrom_ofMnemonic {mnemonic : String} {args : List String} {i : Instruction}
    (h : ofMnemonic mnemonic args = .ok i) (hw : ∀ w ∈ args, IsWord w.toList) :
    i.ReadFrom (mnemonic :: args) := by
  unfold ofMnemonic at h
  dsimp only at h
  split at h
  case h_1 => -- mov
    split at h <;> cases h
    next target source =>
    simp only [List.forall_mem_cons] at hw
    obtain ⟨htarget, hsource, -⟩ := hw
    have operand := Operand.worded_ofWord hsource
    exact ⟨by simp [Instruction.words, Target.text_ofWord, Operand.text_ofWord],
      ⟨Target.worded_ofWord htarget, operand.1⟩, by simpa [operands] using operand.2, rfl⟩
  case h_2 => -- lbl
    split at h
    · simp only [List.forall_mem_cons] at hw
      exact readFrom_label h hw.1 (fun _ => rfl) (fun _ => ⟨rfl, rfl⟩) fun _ => Iff.rfl
    · cases h
  case h_3 => -- jmp
    split at h
    · simp only [List.forall_mem_cons] at hw
      exact readFrom_label h hw.1 (fun _ => rfl) (fun _ => ⟨rfl, rfl⟩) fun _ => Iff.rfl
    · cases h
  case h_4 => -- jf
    split at h
    · next word condition =>
      simp only [List.forall_mem_cons] at hw
      obtain ⟨l, hl, rfl⟩ := map_eq_ok h
      have text := text_of_labelOfWord hl hw.1
      have operand := Operand.worded_ofWord hw.2.1
      exact ⟨by simp [Instruction.words, text, Operand.text_ofWord],
        ⟨text.symm ▸ hw.1, operand.1⟩, by simpa [operands] using operand.2, rfl⟩
    · cases h
  case h_5 => -- call
    split at h
    · simp only [List.forall_mem_cons] at hw
      exact readFrom_label h hw.1 (fun _ => rfl) (fun _ => ⟨rfl, rfl⟩) fun _ => Iff.rfl
    · cases h
  case h_6 => -- out
    split at h <;> cases h
    exact ⟨rfl, trivial, by simp [operands], rfl⟩
  case h_7 => -- prn
    obtain ⟨count, hcount, rfl⟩ := map_eq_ok h
    rw [eq_replicate_of_popCount hcount]
    exact ⟨rfl, trivial, by simp [operands], rfl⟩
  case h_8 => -- read
    obtain ⟨count, hcount, rfl⟩ := map_eq_ok h
    rw [eq_replicate_of_popCount hcount]
    exact ⟨rfl, trivial, by simp [operands], rfl⟩
  case h_9 => -- UNKNOWN
    split at h
    · next last =>
      obtain ⟨count, hcount, rfl⟩ := map_eq_ok h
      obtain ⟨before, rfl⟩ := List.getLast?_eq_some_iff.mp last
      rw [List.dropLast_concat] at hcount
      rw [eq_replicate_of_popCount hcount]
      exact ⟨rfl, trivial, by simp [operands], rfl⟩
    · cases h
  case h_10 => -- an operator
    split at h
    · next op found =>
      split at h <;> cases h
      next source target =>
      simp only [List.forall_mem_cons] at hw
      obtain ⟨hsource, htarget, -⟩ := hw
      have operand := Operand.worded_ofWord hsource
      exact ⟨by simp [Instruction.words, UnaryOp.mnemonic_of_ofMnemonic? found,
          Target.text_ofWord, Operand.text_ofWord],
        ⟨operand.1, Target.worded_ofWord htarget⟩, by simpa [operands] using operand.2, rfl⟩
    · next op _ found =>
      split at h <;> cases h
      next first second target =>
      simp only [List.forall_mem_cons] at hw
      obtain ⟨hfirst, hsecond, htarget, -⟩ := hw
      have right := Operand.worded_ofWord hfirst
      have left := Operand.worded_ofWord hsecond
      exact ⟨by simp [Instruction.words, BinaryOp.mnemonic_of_ofMnemonic? found,
          Target.text_ofWord, Operand.text_ofWord],
        ⟨right.1, left.1, Target.worded_ofWord htarget⟩,
        by simpa [operands] using ⟨right.2, left.2⟩, rfl⟩
    · cases h

theorem readFrom_ofChars {cs : List Char} {i : Instruction} (h : ofChars cs = .ok i) :
    ∃ words, words? cs = some words ∧ i.ReadFrom (words.map String.ofList) := by
  unfold ofChars at h
  split at h
  · next words split =>
    refine ⟨words, split, ?_⟩
    have all : ∀ w ∈ words.map String.ofList, IsWord w.toList := by
      intro w hw
      obtain ⟨cs, hcs, rfl⟩ := List.mem_map.mp hw
      rw [String.toList_ofList]
      exact isWord_of_mem_words? split cs hcs
    cases hmap : words.map String.ofList with
    | nil =>
      rw [hmap] at h
      cases h
    | cons mnemonic args =>
      rw [hmap] at h all
      exact readFrom_ofMnemonic h (List.forall_mem_cons.mp all).2
  · cases h

end Instruction

namespace Code

variable {code : Code}

theorem exists_of_mem_mapM {ε α β : Type} {f : α → Except ε β} {as : List α} {bs : List β}
    (h : as.mapM f = .ok bs) : ∀ b ∈ bs, ∃ a ∈ as, f a = .ok b := by
  induction as generalizing bs with
  | nil =>
    cases h
    simp
  | cons a as ih =>
    rw [List.mapM_cons] at h
    cases first : f a with
    | error cause =>
      rw [first] at h
      cases h
    | ok b =>
      rw [first] at h
      cases rest : as.mapM f with
      | error cause =>
        rw [rest] at h
        cases h
      | ok later =>
        rw [rest] at h
        cases h
        intro b' hb'
        obtain rfl | hb' := List.mem_cons.mp hb'
        · exact ⟨a, List.mem_cons_self, first⟩
        · obtain ⟨a', ha', found⟩ := ih rest b' hb'
          exact ⟨a', List.mem_cons_of_mem a ha', found⟩

/-- Every instruction that is read stands on a line of its own. -/
theorem exists_line_of_ofText {text : String} (h : ofText text = .ok code) {i : Instruction}
    (hi : i ∈ code) : ∃ line ∈ Text.lines text.toList,
      Instruction.ofChars (Text.trim line) = .ok i := by
  obtain ⟨⟨number, line⟩, hline, read⟩ := exists_of_mem_mapM h i hi
  obtain ⟨⟨whole, index⟩, hwhole, kept⟩ := List.mem_filterMap.mp hline
  have member : whole ∈ Text.lines text.toList := by
    have := List.mem_zipIdx hwhole
    exact this.2.2 ▸ List.getElem_mem _
  refine ⟨whole, member, ?_⟩
  dsimp only at kept read
  split at kept
  · cases kept
  · cases kept
  · cases kept
    cases found : Instruction.ofChars (Text.trim whole) with
    | ok j =>
      rw [found] at read
      cases read
      rfl
    | error fault =>
      rw [found] at read
      cases read

/-- Code that is read has no comments, and all its texts are words without line feeds that are read
as what they are. -/
theorem legible_of_ofText {text : String} (h : ofText text = .ok code) {i : Instruction}
    (hi : i ∈ code) : i.Worded ∧ (∀ o ∈ i.operands, o.Literate) ∧ i.isComment = false ∧
      ∀ w ∈ i.words, '\n' ∉ w.toList := by
  obtain ⟨line, member, read⟩ := exists_line_of_ofText h hi
  obtain ⟨words, split, source⟩ := Instruction.readFrom_ofChars read
  refine ⟨source.worded, source.literate, source.noComment, fun w hw feed => ?_⟩
  rw [source.words] at hw
  obtain ⟨cs, hcs, rfl⟩ := List.mem_map.mp hw
  rw [String.toList_ofList] at feed
  have inLine := Text.mem_of_mem_trim (mem_of_mem_words? split cs hcs feed)
  exact Text.not_mem_of_mem_split '\n' member inLine

theorem bare_eq_self (h : ∀ i ∈ code, i.isComment = false) : code.bare = code := by
  rw [bare, List.filter_eq_self]
  intro i hi
  rw [h i hi]
  rfl

/-- Code none of whose texts has a line feed reads back from its text, without its comments, if and
only if every text in it is a word that is read as what it is. -/
theorem ofText_text_eq_bare_iff (hlf : ∀ i ∈ code, ∀ w ∈ i.words, '\n' ∉ w.toList) :
    ofText code.text = .ok code.bare ↔
      ∀ i ∈ code, i.isComment = false → i.Worded ∧ ∀ o ∈ i.operands, o.Literate := by
  constructor
  · intro read i hi plain
    have kept : i ∈ code.bare := List.mem_filter.mpr ⟨hi, by simp [plain]⟩
    obtain ⟨worded, literate, -⟩ := legible_of_ofText read kept
    exact ⟨worded, literate⟩
  · intro legible
    have all : ∀ i ∈ code, i.Worded ∧ ∀ o ∈ i.operands, o.Literate := by
      intro i hi
      cases plain : i.isComment with
      | false => exact legible i hi plain
      | true =>
        cases i <;> cases plain
        exact ⟨trivial, by simp [Instruction.operands]⟩
    exact ofText_text (fun i hi => Instruction.newline_not_mem_text (hlf i hi))
      (fun i hi => (all i hi).1) fun i hi => (all i hi).2

theorem ofText_text_eq_bare_iff_sample :
    ofText (text [.comment "greet", .mov (.slot "_x") (.literal "'a  b'"), .print 1]) =
        .ok [.mov (.slot "_x") (.literal "'a  b'"), .print 1] ∧
      ofText (text [.mov .push (.slot "a b")]) ≠ .ok [.mov .push (.slot "a b")] := by
  constructor
  · exact (ofText_text_eq_bare_iff (by decide)).mpr (by decide +kernel)
  · intro read
    have words := (ofText_text_eq_bare_iff (by decide)).mp read
    revert words
    decide +kernel

/-- Code that was read is printed in a form that reads back as just that code, however the text was
laid out that it was read from. -/
theorem ofText_text_of_ofText {text : String} (h : ofText text = .ok code) :
    ofText code.text = .ok code := by
  have legible := fun i hi => @legible_of_ofText code text h i hi
  have read := ofText_text
    (fun i hi => Instruction.newline_not_mem_text (legible i hi).2.2.2)
    (fun i hi => (legible i hi).1) fun i hi => (legible i hi).2.1
  rwa [bare_eq_self fun i hi => (legible i hi).2.2.1] at read

theorem ofText_text_of_ofText_sample :
    ofText "  mov _x\t\"a  'b\"\r\n\n// note\nlbl\u3000$$a$$ \n prn pop  pop" =
        .ok [.mov (.slot "_x") (.literal "\"a  'b\""), .label ⟨"a", by decide⟩, .print 2] ∧
      ofText (text [.mov (.slot "_x") (.literal "\"a  'b\""), .label ⟨"a", by decide⟩, .print 2]) =
        .ok [.mov (.slot "_x") (.literal "\"a  'b\""), .label ⟨"a", by decide⟩, .print 2] :=
  have read : ofText "  mov _x\t\"a  'b\"\r\n\n// note\nlbl\u3000$$a$$ \n prn pop  pop" =
      .ok [.mov (.slot "_x") (.literal "\"a  'b\""), .label ⟨"a", by decide⟩, .print 2] := rfl
  ⟨read, ofText_text_of_ofText read⟩

end Code

end Assembly

end StackCompiler

import StackCompiler.Proofs.Construction.Drive

/-!
Expressions inside of expressions. A sub-expression that is ended on top of another expression
leaves its tokens there, and one that is ended on top of a call waits to become an argument.
-/

namespace StackCompiler

mutual

/-- What a caller appends to an expression. -/
inductive Piece where
  | literal (text : String)
  | operator (symbol : String) (unary : Bool)
  | identifier (name : String)
  | call (name : String) (args : List Subexpression)
  | nested (inner : Subexpression)

/-- An expression as a caller builds it, piece by piece. -/
structure Subexpression where
  pieces : List Piece

end

mutual

def Piece.cues : Piece → List Cue
  | .literal text => [.act (.literal text)]
  | .operator symbol unary => [.act (.operator symbol unary)]
  | .identifier name => [.act (.start .identifier), .act (.name name), .act .identifierToken]
  | .call name args =>
    [.act (.start .identifier), .act (.name name), .act .identifierToCall] ++
      Subexpression.argumentCues args ++ [.act .callToken]
  | .nested inner => inner.cues
termination_by structural p => p

def Piece.allCues : List Piece → List Cue
  | [] => []
  | p :: pieces => p.cues ++ Piece.allCues pieces
termination_by structural pieces => pieces

def Subexpression.cues : Subexpression → List Cue
  | ⟨pieces⟩ => .act (.start .expression) :: Piece.allCues pieces ++ [.act .endExpression]
termination_by structural e => e

def Subexpression.argumentCues : List Subexpression → List Cue
  | [] => []
  | e :: args => e.cues ++ [.act .attach] ++ Subexpression.argumentCues args
termination_by structural args => args

end

mutual

/-- How many numbers are used up. An operator has none, and a call has one as an identifier before
it has its own. -/
def Piece.numbers : Piece → Nat
  | .literal _ => 1
  | .operator _ _ => 0
  | .identifier _ => 1
  | .call _ args => 2 + Subexpression.allNumbers args
  | .nested inner => inner.numbers
termination_by structural p => p

def Piece.allNumbers : List Piece → Nat
  | [] => 0
  | p :: pieces => p.numbers + Piece.allNumbers pieces
termination_by structural pieces => pieces

def Subexpression.numbers : Subexpression → Nat
  | ⟨pieces⟩ => 1 + Piece.allNumbers pieces
termination_by structural e => e

def Subexpression.allNumbers : List Subexpression → Nat
  | [] => 0
  | e :: args => e.numbers + Subexpression.allNumbers args
termination_by structural args => args

end

mutual

/-- The tokens that come of it if the next number is `k`. -/
def Piece.tokens (k : Nat) : Piece → List (Token Leaf)
  | .literal text => [.leaf (Construction.literalLeaf k text)]
  | .operator symbol unary => [.ofSymbol symbol unary]
  | .identifier name => [.leaf (.identifier ⟨k, name⟩)]
  | .call name args => [.leaf (.call ⟨k + 1, name, Subexpression.arguments (k + 2) args⟩)]
  | .nested inner => inner.tokens k
termination_by structural p => p

def Piece.allTokens (k : Nat) : List Piece → List (Token Leaf)
  | [] => []
  | p :: pieces => p.tokens k ++ Piece.allTokens (k + p.numbers) pieces
termination_by structural pieces => pieces

def Subexpression.tokens (k : Nat) : Subexpression → List (Token Leaf)
  | ⟨pieces⟩ => Piece.allTokens (k + 1) pieces
termination_by structural e => e

def Subexpression.arguments (k : Nat) : List Subexpression → List Expression
  | [] => []
  | e :: args => ⟨k, e.tokens k⟩ :: Subexpression.arguments (k + e.numbers) args
termination_by structural args => args

end

namespace Drives

variable {items : List Node} {k : Nat}

mutual

/-- A piece becomes the last tokens of the expression on top. -/
theorem piece (p : Piece) (e : Expression) (items : List Node) (k : Nat) :
    Drives p.cues (.expression e :: items) k
      (.expression (e.append (p.tokens k)) :: items) (k + p.numbers) := by
  cases p with
  | literal text => exact .literalLeaf text
  | operator symbol unary => exact .operator symbol unary
  | identifier name =>
    exact (Drives.start .identifier).cons ((Drives.name rfl).cons .identifierToken)
  | call name args =>
    have begun : Drives [.act (.start .identifier), .act (.name name), .act .identifierToCall]
        (.expression e :: items) k (.call ⟨k + 1, name, []⟩ :: .expression e :: items) (k + 2) :=
      (Drives.start .identifier).cons ((Drives.name rfl).cons .identifierToCall)
    have filled := Drives.argumentList args ⟨k + 1, name, []⟩ (.expression e :: items) (k + 2)
    have whole := (begun.append filled).append .callToken
    rw [Nat.add_assoc] at whole
    exact whole
  | nested inner => exact Drives.subexpression inner (.expression e :: items) k

theorem pieceList (pieces : List Piece) (e : Expression) (items : List Node) (k : Nat) :
    Drives (Piece.allCues pieces) (.expression e :: items) k
      (.expression (e.append (Piece.allTokens k pieces)) :: items)
      (k + Piece.allNumbers pieces) := by
  cases pieces with
  | nil =>
    have same : e.append [] = e := by cases e; simp [Expression.append]
    rw [Piece.allTokens, same]
    exact .nil
  | cons p pieces =>
    have whole := (Drives.piece p e items k).append
      (Drives.pieceList pieces (e.append (p.tokens k)) items (k + p.numbers))
    rw [Nat.add_assoc] at whole
    simpa [Expression.append, Piece.allCues, Piece.allTokens, Piece.allNumbers] using whole

theorem subexpression (e : Subexpression) (items : List Node) (k : Nat) :
    Drives e.cues items k (Construction.closeExpression ⟨k, e.tokens k⟩ items) (k + e.numbers) := by
  obtain ⟨pieces⟩ := e
  have fed := Drives.pieceList pieces (.empty k) items (k + 1)
  have whole := ((Drives.start .expression).cons fed).append .close
  rw [Nat.add_assoc] at whole
  exact whole

theorem argumentList (args : List Subexpression) (c : Call) (items : List Node) (k : Nat) :
    Drives (Subexpression.argumentCues args) (.call c :: items) k
      (.call { c with args := c.args ++ Subexpression.arguments k args } :: items)
      (k + Subexpression.allNumbers args) := by
  cases args with
  | nil =>
    obtain ⟨id, name, done⟩ := c
    rw [Subexpression.arguments, List.append_nil]
    exact .nil
  | cons e args =>
    have placed : Drives (e.cues ++ [.act .attach]) (.call c :: items) k
        (.call { c with args := c.args ++ [⟨k, e.tokens k⟩] } :: items) (k + e.numbers) :=
      (Drives.subexpression e (.call c :: items) k).append (.attach rfl)
    have whole := placed.append (Drives.argumentList args _ items (k + e.numbers))
    rw [Nat.add_assoc] at whole
    simpa [Subexpression.argumentCues, Subexpression.arguments, Subexpression.allNumbers]
      using whole

end

end Drives

/-- A caller who builds an expression makes no mistake whatever it is made of, and changes nothing
but the top of what is open: on top of another expression all tokens, those of inner expressions
among them, are appended to that one in their order, and on top of anything else they are the tokens
of one more expression. Arguments are in their calls, in their order. -/
theorem Subexpression.flattens {s : Construction} (free : s.Free) (e : Subexpression) :
    (∀ parent below, s.items = .expression parent :: below → s.drive e.cues =
      .ok (s.standing (.expression (parent.append (e.tokens s.nextId)) :: below)
        (s.nextId + e.numbers))) ∧
    (s.items.head?.map Node.kind ≠ some .expression → s.drive e.cues =
      .ok (s.standing (.expression ⟨s.nextId, e.tokens s.nextId⟩ :: s.items)
        (s.nextId + e.numbers))) := by
  have driven : s.drive e.cues =
      .ok (s.standing (Construction.closeExpression ⟨s.nextId, e.tokens s.nextId⟩ s.items)
        (s.nextId + e.numbers)) := Drives.subexpression e s.items s.nextId s free
  constructor
  · intro parent below top
    rw [driven, top]
    rfl
  · intro other
    rw [driven, Construction.closeExpression_of_kind other]

/-- An inner expression that ends with a call, one of whose arguments has parentheses of its own. -/
def Subexpression.nesting : Subexpression where
  pieces := [.literal "1", .operator "+" false, .nested ⟨[.identifier "x", .operator "*" false,
    .call "f" [⟨[.literal "_y"]⟩, ⟨[.nested ⟨[.literal "2"]⟩]⟩]]⟩]

theorem Subexpression.flattens_nesting :
    let s : Construction := { nextId := 1, nodes := ⟨⟨[.ret ⟨0, none⟩]⟩, {}⟩ }
    s.Free ∧ s.items.head?.map Node.kind ≠ some .expression ∧ s.drive nesting.cues =
      .ok { s with
        nextId := 12
        nodes := ⟨⟨[
          .expression ⟨1, [.leaf (.constant ⟨2, "1"⟩), .operator .add, .leaf (.identifier ⟨4, "x"⟩),
            .operator .multiply, .leaf (.call ⟨6, "f", [⟨7, [.leaf (.identifier ⟨8, "_y"⟩)]⟩,
              ⟨9, [.leaf (.constant ⟨11, "2"⟩)]⟩]⟩)]⟩,
          .ret ⟨0, none⟩]⟩, {}⟩ } := by
  intro s
  have free : s.Free := ⟨rfl, rfl⟩
  have other : s.items.head?.map Node.kind ≠ some .expression := by decide
  exact ⟨free, other, (nesting.flattens free).2 other⟩

end StackCompiler

import StackCompiler.Proofs.Construction.Fill
import StackCompiler.Proofs.Construction.Invariant

/-!
Whatever tree is given, its cues build it.
-/

namespace StackCompiler

open Scope (ofOpen Shelters)

/-- An exit leaves what is innermost around it, and there is something. -/
def Scope.Hits (σ : Scope) (n : Node) : Prop := σ.Shelters n ∧ σ.Aims n

namespace Node

variable {n : Node} {items : List Node} {k : Nat}

/-- No expression is opened directly on top of another one, of which it would become a part. -/
def Apart (n : Node) (items : List Node) : Prop :=
  n.kind = .expression → items.head?.map kind ≠ some .expression

theorem apart_of_kind (h : n.kind ≠ .expression) : n.Apart items := fun bad => absurd bad h

theorem apart_cons {top : Node} (h : top.kind ≠ .expression) : n.Apart (top :: items) := by
  intro _ bad
  exact h (Option.some.inj bad)

/-- The cues of the node leave it on top of the open nodes, and its exits leave what is innermost
around them. -/
def Builds (n : Node) : Prop :=
  ∀ items k, n.Follows Shelters (ofOpen items) → n.Apart items →
    ∃ m k', Drives n.cues items k (m :: items) k' ∧ m.erase = n.erase ∧
      m.Follows Scope.Hits (ofOpen items)

/-- The cues of a case put it into the switch on top. -/
def BuildsCase (c : SwitchCase) : Prop :=
  ∀ w items k, (switchCase c).Follows Shelters (ofOpen (switch w :: items)) →
    w.fallbackSeen = false →
    ∃ c' k', Drives c.cues (switch w :: items) k
        (switch { w with cases := w.cases ++ [c'] } :: items) k' ∧ c'.erase = c.erase ∧
      (switchCase c').Follows Scope.Hits (ofOpen (switch w :: items))

theorem hits_of_kind {σ : Scope} (hs : n.kind ≠ .switchExit) (hl : n.kind ≠ .loopExit) :
    σ.Hits n := by
  cases n <;> first | exact ⟨trivial, trivial⟩ | exact absurd rfl hs | exact absurd rfl hl

theorem eq_switch_of_mem_children {c : SwitchCase} (h : switchCase c ∈ n.children) :
    ∃ w, n = switch w ∧ c ∈ w.cases := by
  cases n with
  | switch w => exact ⟨w, rfl, by simpa [children] using h⟩
  | block b =>
    obtain ⟨s, -, hs⟩ := List.mem_map.mp h
    cases s <;> cases hs
  | expression e =>
    obtain ⟨t, -, ht⟩ := List.mem_filterMap.mp h
    cases t with
    | leaf l => cases l <;> cases ht
    | _ => cases ht
  | _ => simp [children] at h

/-- Each child is built on top of the node that it goes into, and the scope stays the same. -/
theorem drives_children {cs : List Node} (hb : ∀ c ∈ cs, c.Builds) {top : Node}
    (hs : ∀ c ∈ cs, c.Follows Shelters (ofOpen (top :: items))) (he : top.kind ≠ .expression)
    (fits : ∀ ms, ms.map erase = cs.map erase → (top.fill ms).isSome) (k : Nat) :
    ∃ ms m k', Drives (cs.flatMap fun c => c.cues ++ [.act .attach]) (top :: items) k
        (m :: items) k' ∧ ms.map erase = cs.map erase ∧ top.fill ms = some m ∧
      ∀ c ∈ ms, c.Follows Scope.Hits (ofOpen (top :: items)) := by
  induction cs generalizing top k with
  | nil => exact ⟨[], top, k, .nil, rfl, rfl, by simp⟩
  | cons c cs ih =>
    rw [List.forall_mem_cons] at hb hs
    obtain ⟨m, j, hm, same, hits⟩ := hb.1 (top :: items) k hs.1 (apart_cons he)
    obtain ⟨whole, hwhole⟩ := Option.isSome_iff_exists.mp (fits (m :: cs) (by simp [same]))
    rw [fill_cons] at hwhole
    obtain ⟨next, hnext, -⟩ := Option.bind_eq_some_iff.mp hwhole
    have scope : ofOpen (next :: items) = ofOpen (top :: items) := by
      rw [Scope.ofOpen_cons, Scope.ofOpen_cons]
      exact Scope.enter_congr _ (place_same hnext).1 (place_same hnext).2
    have rest (ms : List Node) (hms : ms.map erase = cs.map erase) : (next.fill ms).isSome := by
      have all := fits (m :: ms) (by simp [same, hms])
      rwa [fill_cons, hnext, Option.bind_some] at all
    obtain ⟨ms, last, k', later, hms, hfill, hhits⟩ :=
      ih hb.2 (scope ▸ hs.2) ((place_same hnext).1 ▸ he) rest j
    refine ⟨m :: ms, last, k', ?_, by simp [same, hms], ?_, ?_⟩
    · rw [List.flatMap_cons]
      exact (hm.append (.attach hnext)).append later
    · rw [fill_cons, hnext, Option.bind_some, hfill]
    · rw [scope] at hhits
      exact List.forall_mem_cons.mpr ⟨hits, hhits⟩

theorem drives_opening (h : n.attaches) (items : List Node) (k : Nat) :
    ∃ j k', Drives n.opening items k (n.opened j :: items) k' := by
  cases n with
  | program p => exact ⟨k, k + 1, .start .program⟩
  | function f =>
    refine ⟨k, k + 1, (((Drives.start .function).cons (.name rfl)).append (.parameters _ _))⟩
  | block b => exact ⟨k, k + 1, .start .block⟩
  | assignment a => exact ⟨k, k + 1, (Drives.start .assignment).cons (.name rfl)⟩
  | ret r => exact ⟨k, k + 1, .start .ret⟩
  | loop l => exact ⟨k, k + 1, (Drives.start .loop).cons (.name rfl)⟩
  | conditional c => exact ⟨k, k + 1, .start .conditional⟩
  | call c =>
    exact ⟨k + 1, k + 2, (Drives.start .identifier).cons ((Drives.name rfl).cons .identifierToCall)⟩
  | _ => cases h

theorem children_opened (h : n.attaches) (k : Nat) : (n.opened k).children = [] := by
  cases n <;> simp [attaches] at h <;> rfl

theorem kind_opened (n : Node) (k : Nat) : (n.opened k).kind = n.kind := by
  cases n <;> rfl

theorem kind_of_attaches (h : n.attaches) :
    n.kind ≠ .switchExit ∧ n.kind ≠ .loopExit ∧ n.kind ≠ .expression := by
  cases n <;> simp [attaches, kind] at h ⊢

theorem builds_of_attaches (h : n.attaches) (complete : n.Complete)
    (hb : ∀ c ∈ n.children, c.Builds) : n.Builds := by
  intro items k shelters _
  obtain ⟨notSwitchExit, notLoopExit, notExpression⟩ := kind_of_attaches h
  obtain ⟨j, k', opening⟩ := drives_opening h items k
  have kind := kind_opened n j
  have inside : ∀ c ∈ n.children, c.Follows Shelters (ofOpen (n.opened j :: items)) := by
    intro c hc
    rw [Scope.ofOpen_cons]
    exact (shelters.inside c hc).shelters_of_covers ((Scope.Covers.refl _).enter kind)
  have fits (ms : List Node) (hms : ms.map erase = n.children.map erase) :
      ((n.opened j).fill ms).isSome := by
    obtain ⟨m, hm, -⟩ := fill_opened h complete j hms
    rw [hm]
    rfl
  obtain ⟨ms, m, last, driven, hms, hfill, hits⟩ :=
    drives_children hb inside (kind ▸ notExpression) fits k'
  obtain ⟨m', hm', same⟩ := fill_opened h complete j hms
  obtain rfl : m' = m := Option.some.inj (hm'.symm.trans hfill)
  obtain ⟨children, hkind, hid⟩ := children_fill hfill
  rw [children_opened h, List.nil_append] at children
  refine ⟨m', last, ?_, same, .intro (hits_of_kind ?_ ?_) fun c hc => ?_⟩
  · rw [cues_of_attaches h]
    exact opening.append driven
  · rw [hkind, kind]
    exact notSwitchExit
  · rw [hkind, kind]
    exact notLoopExit
  · rw [Scope.enter_congr _ hkind hid, ← Scope.ofOpen_cons]
    exact hits c (children.mem_iff.mp hc)

theorem follows_leaf {rule : Scope → Node → Prop} {σ : Scope} (own : rule σ n)
    (h : n.children = []) : n.Follows rule σ := .intro own (by simp [h])

theorem builds_exit (exit : ExitKind) (id : Nat) (old : Option Nat) :
    (exit.node id old).Builds := by
  intro items k shelters _
  have aimed : ((ofOpen items).target exit).isSome := by cases exit <;> exact shelters.own
  obtain ⟨target, found⟩ := Option.isSome_iff_exists.mp aimed
  have cues : (exit.node id old).cues = [.act (.startExit exit)] := by
    cases exit <;> rfl
  have hits : (ofOpen items).Hits (exit.node k (some target)) := by
    cases exit <;> exact ⟨aimed, found.symm⟩
  refine ⟨exit.node k (some target), k + 1, cues ▸ .startExit exit found, ?_,
    follows_leaf hits (children_exit exit k _)⟩
  cases exit <;> rfl

theorem builds_identifier (i : Identifier) : (identifier i).Builds := by
  intro items k _ _
  exact ⟨identifier ⟨k, i.name⟩, k + 1, (Drives.start .identifier).cons (.name rfl), rfl,
    follows_leaf ⟨trivial, trivial⟩ rfl⟩

section

theorem drives_operator {op : Operator} (h : (Token.operator op : Token Leaf).Plain)
    (e : Expression) : Drives [op.cue] (expression e :: items) k
      (expression (e.append [.operator op]) :: items) k := by
  unfold Operator.cue
  split
  · exact .operator "-" true
  · have appended : Drives [.act (.operator op.symbol false)] (expression e :: items) k
        (expression (e.append [.ofSymbol op.symbol false]) :: items) k := .operator op.symbol false
    rwa [h] at appended

/-- The cues of a token append a token that is the same without its numbers. -/
theorem drives_token {t : Token Leaf} (plain : t.Plain) (hb : ∀ n, t.node? = some n → n.Builds)
    (hs : ∀ n, t.node? = some n → n.Follows Shelters (ofOpen items)) (e : Expression) (k : Nat) :
    ∃ t' k', Drives t.cues (expression e :: items) k (expression (e.append [t']) :: items) k' ∧
      t'.map Leaf.erase = t.map Leaf.erase ∧
      ∀ n, t'.node? = some n → n.Follows Scope.Hits (ofOpen items) := by
  cases t with
  | leaf l =>
    cases l with
    | identifier i =>
      refine ⟨.leaf (.identifier ⟨k, i.name⟩), k + 1, ?_, rfl, ?_⟩
      · exact (Drives.start .identifier).cons ((Drives.name rfl).cons .identifierToken)
      · rintro n ⟨⟩
        exact follows_leaf ⟨trivial, trivial⟩ rfl
    | constant c =>
      exact ⟨.leaf (.constant ⟨k, c.literal⟩), k + 1, .literal plain, rfl,
        by simp [Token.node?, Leaf.node?]⟩
    | call c =>
      obtain ⟨m, k', built, erased, hits⟩ :=
        hb (call c) rfl (expression e :: items) k (hs (call c) rfl)
          (apart_of_kind (by simp [kind]))
      obtain ⟨c', rfl, same⟩ := eq_call_of_erase erased
      refine ⟨.leaf (.call c'), k', built.append .callToken, ?_, ?_⟩
      · simp [Token.map, Leaf.erase, same]
      · rintro n ⟨⟩
        exact hits
  | operator op => exact ⟨.operator op, k, drives_operator plain e, rfl, by simp [Token.node?]⟩
  | opening => exact ⟨.opening, k, .operator "(" false, rfl, by simp [Token.node?]⟩
  | closing => exact ⟨.closing, k, .operator ")" false, rfl, by simp [Token.node?]⟩

theorem drives_tokens {tokens : List (Token Leaf)} (plain : ∀ t ∈ tokens, t.Plain)
    (hb : ∀ n ∈ tokens.filterMap Token.node?, n.Builds)
    (hs : ∀ n ∈ tokens.filterMap Token.node?, n.Follows Shelters (ofOpen items)) (e : Expression)
    (k : Nat) : ∃ tokens' k', Drives (tokens.flatMap Token.cues) (expression e :: items) k
        (expression (e.append tokens') :: items) k' ∧
      tokens'.map (Token.map Leaf.erase) = tokens.map (Token.map Leaf.erase) ∧
      ∀ n ∈ tokens'.filterMap Token.node?, n.Follows Scope.Hits (ofOpen items) := by
  induction tokens generalizing e k with
  | nil =>
    have same : e.append [] = e := by cases e; simp [Expression.append]
    exact ⟨[], k, by rw [same]; exact .nil, rfl, by simp⟩
  | cons t tokens ih =>
    rw [List.forall_mem_cons] at plain
    simp only [List.mem_filterMap, List.mem_cons, forall_exists_index, and_imp] at hb hs ih
    obtain ⟨t', j, first, same, hits⟩ := drives_token plain.1 (fun n hn => hb n t (.inl rfl) hn)
      (fun n hn => hs n t (.inl rfl) hn) e k
    obtain ⟨tokens', k', later, sames, hhits⟩ :=
      ih plain.2 (fun n u hu hn => hb n u (.inr hu) hn) (fun n u hu hn => hs n u (.inr hu) hn)
        (e.append [t']) j
    refine ⟨t' :: tokens', k', ?_, by simp [same, sames], ?_⟩
    · rw [List.flatMap_cons]
      have whole := first.append later
      simpa [Expression.append] using whole
    · intro n hn
      obtain ⟨u, hu, hun⟩ := List.mem_filterMap.mp hn
      obtain rfl | hu := List.mem_cons.mp hu
      · exact hits n hun
      · exact hhits n u hu hun

theorem builds_expression {e : Expression} (plain : ∀ t ∈ e.tokens, t.Plain)
    (hb : ∀ c ∈ (expression e).children, c.Builds) : (expression e).Builds := by
  intro items k shelters apart
  obtain ⟨id, tokens⟩ := e
  obtain ⟨tokens', k', built, same, hits⟩ :=
    drives_tokens plain hb shelters.inside (.empty k) (k + 1)
  refine ⟨expression ⟨k, tokens'⟩, k', ?_, ?_, .intro ⟨trivial, trivial⟩ hits⟩
  · have cues : (expression ⟨id, tokens⟩).cues =
        .act (.start .expression) :: tokens.flatMap Token.cues ++ [.act .endExpression] := by
      rw [← tokenCues_eq]
      rfl
    rw [cues]
    exact ((Drives.start .expression).cons built).append (.endExpression (apart rfl))
  · simp [erase, Expression.erase_eq, same]

end

section

variable {w : Switch} {p : SwitchCase}

/-- More values of a case that is open. -/
theorem drives_values {vs : List Expression} (hb : ∀ v ∈ vs, (expression v).Builds)
    (hs : ∀ v ∈ vs, (expression v).Follows Shelters (ofOpen items)) (p : SwitchCase) (k : Nat) :
    ∃ vs' k', Drives (vs.flatMap fun v => v.cues ++ [.caseOfTop]) (switchCase p :: items) k
        (switchCase { p with values := p.values ++ vs' } :: items) k' ∧
      vs'.map Expression.erase = vs.map Expression.erase ∧
      ∀ v ∈ vs', (expression v).Follows Scope.Hits (ofOpen items) := by
  induction vs generalizing p k with
  | nil =>
    obtain ⟨id, values, inner⟩ := p
    exact ⟨[], k, by simpa using .nil, rfl, by simp⟩
  | cons v vs ih =>
    rw [List.forall_mem_cons] at hb hs
    obtain ⟨m, j, built, erased, hits⟩ :=
      hb.1 (switchCase p :: items) k hs.1 (apart_cons (by simp [kind]))
    obtain ⟨v', rfl, same⟩ := eq_expression_of_erase erased
    obtain ⟨vs', k', later, sames, hhits⟩ :=
      ih hb.2 hs.2 { p with values := p.values ++ [v'] } j
    refine ⟨v' :: vs', k', ?_, by simp [same, sames], List.forall_mem_cons.mpr ⟨hits, hhits⟩⟩
    have first : Drives (v.cues ++ [.caseOfTop]) (switchCase p :: items) k
        (switchCase { p with values := p.values ++ [v'] } :: items) j := built.append .nextValue
    simpa using first.append later

theorem buildsCase {c : SwitchCase} (complete : (switchCase c).Complete)
    (hb : ∀ m ∈ (switchCase c).children, m.Builds) : BuildsCase c := by
  intro w items k shelters unseen
  obtain ⟨id, values, inner⟩ := c
  obtain ⟨hvalues, hinner⟩ := complete
  obtain ⟨v, vs, rfl⟩ := List.exists_cons_of_ne_nil hvalues
  obtain ⟨b, rfl⟩ := Option.isSome_iff_exists.mp hinner
  have shelters := shelters.inside
  simp only [children, List.forall_mem_append, List.forall_mem_map, List.forall_mem_cons,
    Option.toList_some, List.not_mem_nil, false_implies, implies_true, and_true] at hb shelters
  obtain ⟨⟨hv, hvs⟩, hbody⟩ := hb
  obtain ⟨⟨sv, svs⟩, sbody⟩ := shelters
  obtain ⟨m, i, first, erased, hits⟩ :=
    hv (switch w :: items) k sv (apart_cons (by simp [kind]))
  obtain ⟨v', rfl, same⟩ := eq_expression_of_erase erased
  obtain ⟨vs', j, more, sames, hhits⟩ := drives_values hvs svs (.first i v') (i + 1)
  obtain ⟨m, k', last, erased, bodyHits⟩ :=
    hbody (switchCase ⟨i, v' :: vs', none⟩ :: switch w :: items) j sbody
      (apart_cons (by simp [kind]))
  obtain ⟨b', rfl, bodySame⟩ := eq_block_of_erase erased
  refine ⟨⟨i, v' :: vs', some b'⟩, k', ?_, ?_, .intro ⟨trivial, trivial⟩ ?_⟩
  · have cues : SwitchCase.cues ⟨id, v :: vs, some b⟩ = v.cues ++ [.caseOfTop] ++
        (vs.flatMap fun v => v.cues ++ [.caseOfTop]) ++ (b.cues ++ [.act .endCase]) := rfl
    rw [cues]
    exact ((first.append .firstValue).append more).append (last.append (.endCase unseen))
  · simp [SwitchCase.erase_eq, same, sames, bodySame]
  · simp only [children, List.forall_mem_append, List.forall_mem_map, List.forall_mem_cons,
      Option.toList_some, List.not_mem_nil, false_implies, implies_true, and_true]
    exact ⟨⟨hits, hhits⟩, bodyHits⟩

theorem drives_cases {cs : List SwitchCase} (hb : ∀ c ∈ cs, BuildsCase c)
    (hs : ∀ c ∈ cs, (switchCase c).Follows Shelters (ofOpen (switch w :: items)))
    (unseen : w.fallbackSeen = false) (k : Nat) :
    ∃ cs' k', Drives (cs.flatMap SwitchCase.cues) (switch w :: items) k
        (switch { w with cases := w.cases ++ cs' } :: items) k' ∧
      cs'.map SwitchCase.erase = cs.map SwitchCase.erase ∧
      ∀ c ∈ cs', (switchCase c).Follows Scope.Hits (ofOpen (switch w :: items)) := by
  induction cs generalizing w k with
  | nil =>
    obtain ⟨id, scrutinee, cases, fallback, seen⟩ := w
    exact ⟨[], k, by simpa using .nil, rfl, by simp⟩
  | cons c cs ih =>
    rw [List.forall_mem_cons] at hb hs
    obtain ⟨c', j, built, same, hits⟩ := hb.1 w items k hs.1 unseen
    obtain ⟨cs', k', later, sames, hhits⟩ :=
      ih (w := { w with cases := w.cases ++ [c'] }) hb.2 hs.2 unseen j
    refine ⟨c' :: cs', k', ?_, by simp [same, sames], List.forall_mem_cons.mpr ⟨hits, hhits⟩⟩
    simpa using built.append later

/-- The default is announced once all cases are finished. -/
theorem builds_switch (complete : (switch w).Complete)
    (hb : ∀ m ∈ (switch w).children, m.kind ≠ .switchCase → m.Builds)
    (hc : ∀ c ∈ w.cases, BuildsCase c) : (switch w).Builds := by
  intro items k shelters _
  have inside : ∀ c ∈ (switch w).children,
      c.Follows Shelters (ofOpen (switch (.empty k) :: items)) := by
    intro c hcw
    rw [Scope.ofOpen_cons]
    exact (shelters.inside c hcw).shelters_of_covers ((Scope.Covers.refl _).enter rfl)
  obtain ⟨id, scrutinee, cases, fallback, seen⟩ := w
  obtain ⟨hscrutinee, hseen⟩ := complete
  obtain ⟨e, rfl⟩ := Option.isSome_iff_exists.mp hscrutinee
  have member {m : Node} (hm : m = expression e ∨ (∃ c ∈ cases, m = switchCase c) ∨
      ∃ b ∈ fallback, m = block b) : m ∈ (switch ⟨id, some e, cases, fallback, seen⟩).children := by
    simpa [children, eq_comm] using hm
  obtain ⟨m, j, first, erased, hits⟩ :=
    hb (expression e) (member (.inl rfl)) (by simp [kind]) (switch (.empty k) :: items) (k + 1)
      (inside _ (member (.inl rfl))) (apart_cons (by simp [kind]))
  obtain ⟨e', rfl, same⟩ := eq_expression_of_erase erased
  obtain ⟨cs, j, built, sames, caseHits⟩ :=
    drives_cases (w := ⟨k, some e', [], none, false⟩) hc
      (fun c hcw => inside _ (member (.inr (.inl ⟨c, hcw, rfl⟩)))) rfl j
  have front : Drives (.act (.start .switch) :: (e.cues ++ [.act .attach]) ++ caseCues cases)
      items k (switch ⟨k, some e', cs, none, false⟩ :: items) j := by
    rw [caseCues_eq]
    exact ((Drives.start .switch).cons (first.append (.attach rfl))).append built
  have hits : ∀ c ∈ expression e' :: cs.map switchCase,
      c.Follows Scope.Hits (ofOpen (switch (.empty k) :: items)) :=
    List.forall_mem_cons.mpr ⟨hits, List.forall_mem_map.mpr caseHits⟩
  cases fallback with
  | none =>
    obtain rfl : seen = false := hseen
    refine ⟨switch ⟨k, some e', cs, none, false⟩, j, ?_, ?_, .intro ⟨trivial, trivial⟩ ?_⟩
    · have cues : (switch ⟨id, some e, cases, none, false⟩).cues =
          .act (.start .switch) :: (e.cues ++ [.act .attach]) ++ caseCues cases ++ [] ++ [] := rfl
      rw [cues, List.append_nil, List.append_nil]
      exact front
    · simp [erase, Switch.erase_eq, same, sames]
    · rw [← Scope.ofOpen_cons]
      intro c hcw
      exact hits c (by simpa [children] using hcw)
  | some b =>
    obtain rfl : seen = true := hseen
    obtain ⟨m, k', last, erased, bodyHits⟩ := hb (block b) (member (.inr (.inr ⟨b, rfl, rfl⟩)))
      (by simp [kind]) (switch ⟨k, some e', cs, none, true⟩ :: items) j
      (inside _ (member (.inr (.inr ⟨b, rfl, rfl⟩)))) (apart_cons (by simp [kind]))
    obtain ⟨b', rfl, bodySame⟩ := eq_block_of_erase erased
    refine ⟨switch ⟨k, some e', cs, some b', true⟩, k', ?_, ?_, .intro ⟨trivial, trivial⟩ ?_⟩
    · have cues : (switch ⟨id, some e, cases, some b, true⟩).cues =
          .act (.start .switch) :: (e.cues ++ [.act .attach]) ++ caseCues cases ++
            [.act .announceDefault] ++ (b.cues ++ [.act .endCase]) := rfl
      rw [cues]
      exact (front.append .announceDefault).append (last.append (.endDefault rfl rfl))
    · simp [erase, Switch.erase_eq, same, sames, bodySame]
    · rw [← Scope.ofOpen_cons]
      intro c hcw
      have parts : c ∈ expression e' :: cs.map switchCase ∨ c = block b' := by
        simpa [children, or_assoc] using hcw
      obtain hc | rfl := parts
      · exact hits c hc
      · exact bodyHits

end

/-- A tree that is complete is built by its cues, where its exits have something to leave. -/
theorem builds (n : Node) (complete : n.Every Complete) :
    (n.kind ≠ .switchCase → n.Builds) ∧ ∀ c, n = switchCase c → BuildsCase c := by
  induction n using Node.induction with
  | step n ih =>
    have own := complete.self
    have below {c : Node} (hc : c ∈ n.children) : c.kind ≠ .switchCase → c.Builds :=
      (ih c hc (complete.child hc)).1
    -- only a switch has cases below it, and they are not built by themselves
    have all (hn : ∀ w, n ≠ switch w) : ∀ c ∈ n.children, c.Builds := by
      intro c hc
      refine below hc fun bad => ?_
      cases c <;> cases bad
      obtain ⟨w, rfl, -⟩ := eq_switch_of_mem_children hc
      exact hn w rfl
    cases n with
    | switchCase c =>
      refine ⟨fun h => absurd rfl h, ?_⟩
      rintro _ ⟨⟩
      exact buildsCase own (all (by simp))
    | switch w =>
      refine ⟨fun _ => builds_switch own (fun m hm => below hm) fun c hc => ?_, by simp⟩
      have member : switchCase c ∈ (switch w).children := by simp [children, hc]
      exact (ih _ member (complete.child member)).2 c rfl
    | expression e => exact ⟨fun _ => builds_expression own (all (by simp)), by simp⟩
    | identifier i => exact ⟨fun _ => builds_identifier i, by simp⟩
    | switchExit e => exact ⟨fun _ => builds_exit .switch e.id e.target, by simp⟩
    | loopExit e => exact ⟨fun _ => builds_exit .loop e.id e.target, by simp⟩
    | _ => exact ⟨fun _ => builds_of_attaches rfl own (all (by simp)), by simp⟩

end Node

/-- A switch with a case that leaves it. -/
def Program.switching : Program where
  id := 0
  functions := [
    { id := 0
      name := "main"
      body := some ⟨0, [.switch ⟨0, some ⟨0, [.leaf (.identifier ⟨0, "x"⟩)]⟩,
        [⟨0, [⟨0, [.leaf (.constant ⟨0, "1"⟩)]⟩, ⟨0, [.leaf (.constant ⟨0, "2"⟩)]⟩],
          some ⟨0, [.switchExit ⟨0, none⟩]⟩⟩], some ⟨0, []⟩, true⟩]⟩ }]

end StackCompiler

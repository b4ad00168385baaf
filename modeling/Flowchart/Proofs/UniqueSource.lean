/-
Distinct trees have distinct source text.

The source text of a compiled tree can be read back. The first line of a statement says which statement it is: a keyword
is followed by a blank and then by no operator, while a variable of that name is followed by a point or an operator. The
blocks are told from what follows by their closing braces, with or without indentation, since no statement starts with a
brace or a blank. Operators need no parentheses, because formulas are grouped one way only.

- `Statement.head_append_inj`: the first line of a statement.
- `Statement.text_append_inj`: the statements of a block, to any depth.
- `render_injective`: compiled trees with one source text are equal.
-/
import Flowchart.Proofs.Separation

namespace Flowchart

open Statement

/-! ## How formulas start -/

/-- what no operand starts with -/
def noStart : List Char := [' ', '}', '+', '=']

theorem not_noStart_of_isNameStart {c : Char} (h : Text.isNameStart c) : c ∉ noStart := by
  intro hc
  fin_cases hc <;> cases h

theorem not_noStart_of_numeral {c : Char} (h : c = '-' ∨ c.isDigit) : c ∉ noStart := by
  intro hc
  fin_cases hc <;> revert h <;> decide

namespace Formula

variable {e : Expression}

theorem IsAtom.source_eq_cons (h : IsAtom e) (hp : e.Plain) : ∃ c s, e.source = c :: s ∧ c ∉ noStart := by
  cases h with
  | reference name =>
    obtain ⟨c, s, hs, hc⟩ := Text.isName_eq_cons (Expression.plain_identifier.1 hp).1
    exact ⟨c, s, hs, not_noStart_of_isNameStart hc⟩
  | property object property =>
    obtain ⟨c, s, hs, hc⟩ := Text.isName_eq_cons (Expression.plain_identifier.1 (Expression.plain_member.1 hp).2).1
    exact ⟨c, s ++ '.' :: property.toList, by simp [Expression.isGrouped, hs], not_noStart_of_isNameStart hc⟩
  | scalar value hvalue =>
    cases value with
    | null => exact ⟨'n', "ull".toList, rfl, by decide⟩
    | bool b =>
      cases b with
      | true => exact ⟨'t', "rue".toList, rfl, by decide⟩
      | false => exact ⟨'f', "alse".toList, rfl, by decide⟩
    | num n =>
      obtain ⟨c, s, hs, hc⟩ := n.proper_numeral.written_eq_cons
      rw [n.written_numeral] at hs
      exact ⟨c, s, hs, not_noStart_of_numeral hc⟩
    | str s => exact ⟨'"', s.toList.flatMap escape ++ ['"'], rfl, by decide⟩
    | arr items => cases hvalue
    | obj members => cases hvalue

/-- The expression starts with an operand, and after it there is nothing or an operator. -/
def Splits (e : Expression) : Prop :=
  ∃ a s, IsAtom a ∧ a.Plain ∧ e.source = a.source ++ s ∧ (s = [] ∨ ∃ c t, s = ' ' :: c :: t ∧ (c = '+' ∨ c = '='))

theorem IsComparison.splits (h : IsComparison e) (hp : e.Plain) : Splits e := by
  cases h with
  | atom ha => exact ⟨e, [], ha, hp, (List.append_nil _).symm, Or.inl rfl⟩
  | @equal l r hl hr =>
    have hsource := source_equal_append l r []
    rw [List.append_nil, List.append_nil] at hsource
    exact ⟨l, _, hl, (Expression.plain_binary.1 hp).1, hsource, Or.inr ⟨'=', _, rfl, Or.inr rfl⟩⟩

theorem IsSum.splits (h : IsSum e) (hp : e.Plain) : Splits e := by
  cases h with
  | comparison hc => exact hc.splits hp
  | @add l r hl hr =>
    obtain ⟨a, s, ha, hpa, hl, hs⟩ := hl.splits (Expression.plain_binary.1 hp).1
    have hsource := source_add_append l r []
    rw [List.append_nil, List.append_nil, hl, List.append_assoc] at hsource
    refine ⟨a, _, ha, hpa, hsource, Or.inr ?_⟩
    rcases hs with rfl | ⟨c, t, rfl, hc⟩
    · exact ⟨'+', _, rfl, Or.inl rfl⟩
    · exact ⟨c, _, rfl, hc⟩

end Formula

theorem Expression.PlainFormula.source_eq_cons {e : Expression} (h : e.PlainFormula) :
    ∃ c s, e.source = c :: s ∧ c ∉ noStart := by
  obtain ⟨a, s, ha, hpa, hsource, -⟩ := h.1.splits h.2
  obtain ⟨c, t, ht, hc⟩ := ha.source_eq_cons hpa
  exact ⟨c, t ++ s, by rw [hsource, ht, List.cons_append], hc⟩

/-- The target of an assignment is no keyword: after a variable and a blank there is an operator. -/
theorem target_ne_keyword {e : Expression} (h : e.PlainFormula) {word : String}
    (hword : (Expression.identifier word).Plain) {c : Char} (hc : c ∉ noStart) {s r : List Char} :
    e.source ++ ' ' :: '=' :: r ≠ word.toList ++ ' ' :: c :: s := by
  intro heq
  obtain ⟨a, t, ha, hpa, hsource, ht⟩ := h.1.splits h.2
  obtain ⟨c', t', ht', hc'⟩ : ∃ c' t', t ++ ' ' :: '=' :: r = ' ' :: c' :: t' ∧ (c' = '+' ∨ c' = '=') := by
    rcases ht with rfl | ⟨c', t', rfl, hc'⟩
    · exact ⟨'=', r, rfl, Or.inr rfl⟩
    · exact ⟨c', _, rfl, hc'⟩
  rw [hsource, List.append_assoc, ht'] at heq
  have hatom : a.source ++ ' ' :: c' :: t' = (Expression.identifier word).source ++ ' ' :: c :: s := heq
  obtain ⟨-, hrest⟩ := separable_atom ⟨ha, hpa⟩ ⟨.reference word, hword⟩ (.blank _) (.blank _) hatom
  simp only [List.cons.injEq, true_and] at hrest
  rw [← hrest.1] at hc
  rcases hc' with rfl | rfl <;> exact hc (by decide)

/-! ## First lines -/

namespace Statement

/-- the first line of a statement -/
def head (s : Statement) : List Char := ((lines 0 s).head?.map Line.text).getD []

theorem head_expression (value : Expression) : (expression value).head = value.source ++ [';'] := rfl

theorem head_declaration (name : String) (init : Expression) :
    (declaration name init).head = "const ".toList ++ name.toList ++ " = ".toList ++ init.source ++ [';'] := rfl

theorem head_conditional (test : Expression) (consequent alternate : List Statement) :
    (conditional test consequent alternate).head = "if (".toList ++ test.source ++ [')', ' ', '{'] := rfl

theorem head_forEach (item : String) (iterable : Expression) (body : List Statement) :
    (forEach item iterable body).head =
      "for (let ".toList ++ item.toList ++ " of ".toList ++ iterable.source ++ [')', ' ', '{'] := rfl

theorem head_ret (argument : Expression) : (ret argument).head = "return ".toList ++ argument.source ++ [';'] := rfl

/-- the keyword that a statement starts with -/
def keyword? : Statement → Option String
  | .expression _ => none
  | .declaration _ _ => some "const"
  | .conditional _ _ _ => some "if"
  | .forEach _ _ _ => some "for"
  | .ret _ => some "return"

/-- a statement of a compiled tree with plain names -/
def Plain (client : String) : Statement → Prop := MadeOf client Expression.PlainFormula Expression.PlainFormula

variable {client : String} {s s' : Statement}

/-- after a keyword there is a blank, and then no operator -/
theorem Plain.head_of_keyword (h : s.Plain client) {word : String} (hword : s.keyword? = some word) :
    ∃ c t, s.head = word.toList ++ ' ' :: c :: t ∧ c ∉ noStart := by
  cases h with
  | assignment hl hr => cases hword
  | @call name method properties hname hmethod url hproperties =>
    cases hword
    obtain ⟨c, t, ht, hc⟩ := Text.isName_eq_cons hname
    refine ⟨c, t ++ (" = ".toList ++ (Node.call client method url properties).source ++ [';']), ?_, ?_⟩
    · change (declaration name (Node.call client method url properties)).head = _
      simp [head_declaration, ht]
    · exact not_noStart_of_isNameStart hc
  | @conditional test h _ _ =>
    cases hword
    exact ⟨'(', test.source ++ [')', ' ', '{'], by simp [head_conditional], by decide⟩
  | @loop item iterable hitem h _ =>
    cases hword
    refine ⟨'(', "let ".toList ++ item.toList ++ " of ".toList ++ iterable.source ++ [')', ' ', '{'], ?_, by decide⟩
    simp [head_forEach]
  | output h =>
    cases hword
    obtain ⟨c, t, ht, hc⟩ := h.source_eq_cons
    exact ⟨c, t ++ [';'], by simp [head_ret, ht], hc⟩

theorem plain_of_keyword {word : String} (h : s.keyword? = some word) : (Expression.identifier word).Plain := by
  rw [Expression.plain_identifier]
  cases s with
  | expression value => cases h
  | _ =>
    cases h
    decide

/-- a statement without a keyword is an assignment -/
theorem Plain.head_of_no_keyword (h : s.Plain client) (hword : s.keyword? = none) :
    ∃ (e : Expression) (r : List Char), e.PlainFormula ∧ s.head = e.source ++ ' ' :: '=' :: r := by
  cases h with
  | @assignment left right hl hr =>
    exact ⟨left, ' ' :: (right.source ++ [';']), hl, by simp [head_expression]⟩
  | _ => cases hword

theorem Plain.head_eq_cons (h : s.Plain client) : ∃ c t, s.head = c :: t ∧ c ∉ noStart := by
  cases hword : s.keyword? with
  | none =>
    obtain ⟨e, r, he, hhead⟩ := h.head_of_no_keyword hword
    obtain ⟨c, t, ht, hc⟩ := he.source_eq_cons
    exact ⟨c, t ++ ' ' :: '=' :: r, by rw [hhead, ht, List.cons_append], hc⟩
  | some word =>
    obtain ⟨c, t, hhead, -⟩ := h.head_of_keyword hword
    obtain ⟨c', t', ht', hc'⟩ := Text.isName_eq_cons (Expression.plain_identifier.1 (plain_of_keyword hword)).1
    exact ⟨c', t' ++ ' ' :: c :: t, by rw [hhead, ht', List.cons_append], not_noStart_of_isNameStart hc'⟩

/-- the keyword is seen from the first line -/
theorem Plain.keyword_eq (h : s.Plain client) (h' : s'.Plain client) {r r' : List Char}
    (heq : s.head ++ r = s'.head ++ r') : s.keyword? = s'.keyword? := by
  cases hword : s.keyword? with
  | none =>
    cases hword' : s'.keyword? with
    | none => rfl
    | some word' =>
      obtain ⟨e, u, he, hhead⟩ := h.head_of_no_keyword hword
      obtain ⟨c, t, hhead', hc⟩ := h'.head_of_keyword hword'
      rw [hhead, hhead', List.append_assoc, List.append_assoc] at heq
      exact absurd heq (target_ne_keyword he (plain_of_keyword hword') hc)
  | some word =>
    obtain ⟨c, t, hhead, hc⟩ := h.head_of_keyword hword
    cases hword' : s'.keyword? with
    | none =>
      obtain ⟨e, u, he, hhead'⟩ := h'.head_of_no_keyword hword'
      rw [hhead, hhead', List.append_assoc, List.append_assoc] at heq
      exact absurd heq.symm (target_ne_keyword he (plain_of_keyword hword) hc)
    | some word' =>
      obtain ⟨c', t', hhead', -⟩ := h'.head_of_keyword hword'
      rw [hhead, hhead', List.append_assoc, List.append_assoc] at heq
      have hname := (Expression.plain_identifier.1 (plain_of_keyword hword)).1
      have hname' := (Expression.plain_identifier.1 (plain_of_keyword hword')).1
      obtain ⟨hwords, -⟩ :=
        separable_name hname hname' (Text.endsName_cons rfl _) (Text.endsName_cons rfl _) heq
      rw [hwords]

end Statement

/-- a call and what follows it -/
theorem source_call_append (client method : String) (url : Json) (ps : List (String × Expression)) (r : List Char) :
    (Node.call client method url ps).source ++ r = "(await ".toList ++ (client.toList ++ '.' :: (method.toList ++
      '(' :: (url.compact ++ ',' :: ' ' :: ((Expression.object ps).source ++ (")).data".toList ++ r))))) := by
  simp [Node.call, Expression.isGrouped, Expression.sourceArguments]

/-- **Calls by one client are told from what follows**, whatever text the client is. -/
theorem call_append_inj {client method method' : String} {url url' : Json} {ps ps' : List (String × Expression)}
    {r r' : List Char} (hmethod : Text.isName method.toList) (hmethod' : Text.isName method'.toList)
    (hps : PlainProperties ps) (hps' : PlainProperties ps')
    (h : (Node.call client method url ps).source ++ r = (Node.call client method' url' ps').source ++ r') :
    Node.call client method url ps = Node.call client method' url' ps' ∧ r = r' := by
  rw [source_call_append, source_call_append] at h
  have hname := (List.cons.inj (List.append_cancel_left (List.append_cancel_left h))).2
  obtain ⟨rfl, hurl⟩ := separable_name hmethod hmethod' (Text.endsName_cons rfl _) (Text.endsName_cons rfl _) hname
  simp only [List.cons.injEq, true_and] at hurl
  obtain ⟨rfl, hobject⟩ := separable_compact trivial trivial (Numeral.ends_cons rfl _) (Numeral.ends_cons rfl _) hurl
  simp only [List.cons.injEq, true_and] at hobject
  obtain ⟨rfl, hrest⟩ := separable_object hps hps' trivial trivial hobject
  exact ⟨rfl, List.append_cancel_left hrest⟩

namespace Statement

variable {client : String} {s s' : Statement}

theorem bare_conditional (test : Expression) (consequent alternate : List Statement) :
    (conditional test consequent alternate).bare = conditional test [] [] := by
  simp [bare, prune, pruneAll_eq]

theorem bare_forEach (item : String) (iterable : Expression) (body : List Statement) :
    (forEach item iterable body).bare = forEach item iterable [] := by
  simp [bare, prune, pruneAll_eq]

theorem bare_leaf (h : s.isLeaf) : s.bare = s := by
  cases s with
  | conditional test consequent alternate => cases h
  | forEach item iterable body => cases h
  | _ => rfl

/-- **The first line of a statement** determines all of it but what is inside its blocks, and is told from what
follows. -/
theorem head_append_inj (h : s.Plain client) (h' : s'.Plain client) {r r' : List Char}
    (heq : s.head ++ r = s'.head ++ r') : s.bare = s'.bare ∧ r = r' := by
  have hword := h.keyword_eq h' heq
  cases h with
  | @assignment left right hl hr =>
    cases h' with
    | @assignment left' right' hl' hr' =>
      have htext : left.source ++ ' ' :: '=' :: ' ' :: (right.source ++ ';' :: r) =
          left'.source ++ ' ' :: '=' :: ' ' :: (right'.source ++ ';' :: r') := by
        simpa [head_expression] using heq
      obtain ⟨rfl, hvalue⟩ := separable_formula hl hl' (.assignment _) (.assignment _) htext
      simp only [List.cons.injEq, true_and] at hvalue
      obtain ⟨rfl, hrest⟩ := separable_formula hr hr' (.statement _) (.statement _) hvalue
      exact ⟨rfl, (List.cons.inj hrest).2⟩
    | _ => simp [keyword?] at hword
  | @call name method properties hname hmethod url hproperties =>
    cases h' with
    | @call name' method' properties' hname' hmethod' url' hproperties' =>
      change (declaration name (Node.call client method url properties)).head ++ r =
        (declaration name' (Node.call client method' url' properties')).head ++ r' at heq
      have htext : name.toList ++ ' ' :: '=' :: ' ' :: ((Node.call client method url properties).source ++ ';' :: r) =
          name'.toList ++ ' ' :: '=' :: ' ' :: ((Node.call client method' url' properties').source ++ ';' :: r') := by
        simpa [head_declaration] using heq
      obtain ⟨rfl, hcall⟩ :=
        separable_name hname hname' (Text.endsName_cons rfl _) (Text.endsName_cons rfl _) htext
      simp only [List.cons.injEq, true_and] at hcall
      obtain ⟨hcall, hrest⟩ := call_append_inj hmethod hmethod' hproperties hproperties' hcall
      exact ⟨congrArg (fun init => (declaration name init).bare) hcall, (List.cons.inj hrest).2⟩
    | _ => simp [keyword?] at hword
  | @conditional test h _ _ =>
    cases h' with
    | @conditional test' h' _ _ =>
      have htext : test.source ++ ')' :: ' ' :: '{' :: r = test'.source ++ ')' :: ' ' :: '{' :: r' := by
        simpa [head_conditional] using heq
      obtain ⟨rfl, hrest⟩ := separable_formula h h' (.bracket _) (.bracket _) htext
      simp only [List.cons.injEq, true_and] at hrest
      exact ⟨by rw [bare_conditional, bare_conditional], hrest⟩
    | _ => simp [keyword?] at hword
  | @loop item iterable hitem h _ =>
    cases h' with
    | @loop item' iterable' hitem' h' _ =>
      have htext : item.toList ++ ' ' :: 'o' :: 'f' :: ' ' :: (iterable.source ++ ')' :: ' ' :: '{' :: r) =
          item'.toList ++ ' ' :: 'o' :: 'f' :: ' ' :: (iterable'.source ++ ')' :: ' ' :: '{' :: r') := by
        simpa [head_forEach] using heq
      obtain ⟨rfl, hiterable⟩ :=
        separable_name hitem hitem' (Text.endsName_cons rfl _) (Text.endsName_cons rfl _) htext
      simp only [List.cons.injEq, true_and] at hiterable
      obtain ⟨rfl, hrest⟩ := separable_formula h h' (.bracket _) (.bracket _) hiterable
      simp only [List.cons.injEq, true_and] at hrest
      exact ⟨by rw [bare_forEach, bare_forEach], hrest⟩
    | _ => simp [keyword?] at hword
  | @output argument h =>
    cases h' with
    | @output argument' h' =>
      have htext : argument.source ++ ';' :: r = argument'.source ++ ';' :: r' := by simpa [head_ret] using heq
      obtain ⟨rfl, hrest⟩ := separable_formula h h' (.statement _) (.statement _) htext
      exact ⟨rfl, (List.cons.inj hrest).2⟩
    | _ => simp [keyword?] at hword

/-! ## Blocks -/

/-- the text of the statements of a block -/
def text (width depth : Nat) (ts : List Statement) : List Char := (linesAll depth ts).flatMap (Line.render width)

/-- the blanks before a line -/
def pad (width depth : Nat) : List Char := List.replicate (depth * width) ' '

/-- the lines of a statement after the first -/
def blocks (width depth : Nat) : Statement → List Char
  | .conditional _ consequent alternate => text width (depth + 1) consequent ++ (pad width depth ++
      '}' :: (" else \x7b\n".toList ++ (text width (depth + 1) alternate ++ (pad width depth ++ ['}', '\n']))))
  | .forEach _ _ body => text width (depth + 1) body ++ (pad width depth ++ ['}', '\n'])
  | _ => []

variable {width depth : Nat}

theorem text_cons_append (s : Statement) (rest : List Statement) (r : List Char) : text width depth (s :: rest) ++ r =
    pad width depth ++ (s.head ++ '\n' :: (s.blocks width depth ++ (text width depth rest ++ r))) := by
  cases s <;> simp [text, linesAll, lines, head, blocks, Line.render, pad]

theorem eq_of_bare_eq (hs : s.isLeaf) (h : s.bare = s'.bare) : s' = s := by
  rw [bare_leaf hs] at h
  cases s' with
  | conditional test consequent alternate =>
    rw [h, bare_conditional] at hs
    cases hs
  | forEach item iterable body =>
    rw [h, bare_forEach] at hs
    cases hs
  | _ => exact h.symm

theorem exists_of_bare_eq_conditional {test : Expression} {consequent alternate : List Statement}
    (h : (conditional test consequent alternate).bare = s'.bare) : ∃ c a, s' = conditional test c a := by
  rw [bare_conditional] at h
  cases s' with
  | conditional test' c a =>
    rw [bare_conditional] at h
    cases h
    exact ⟨c, a, rfl⟩
  | forEach item iterable body =>
    rw [bare_forEach] at h
    cases h
  | _ => cases h

theorem exists_of_bare_eq_forEach {item : String} {iterable : Expression} {body : List Statement}
    (h : (forEach item iterable body).bare = s'.bare) : ∃ b, s' = forEach item iterable b := by
  rw [bare_forEach] at h
  cases s' with
  | forEach item' iterable' b =>
    rw [bare_forEach] at h
    cases h
    exact ⟨b, rfl⟩
  | conditional test c a =>
    rw [bare_conditional] at h
    cases h
  | _ => cases h

/-- what follows the statements of a block: a line that starts with a closing brace -/
def EndsBlock (r : List Char) : Prop := ∃ n t, r = List.replicate n ' ' ++ '}' :: t

/-- a block that goes on is told from one that ends, with or without indentation -/
theorem text_cons_ne (h : s.Plain client) {rest : List Statement} {r r' : List Char} (hr' : EndsBlock r') :
    text width depth (s :: rest) ++ r ≠ r' := by
  obtain ⟨n, t, rfl⟩ := hr'
  obtain ⟨c, u, hhead, hc⟩ := h.head_eq_cons
  intro heq
  rw [text_cons_append, hhead, List.cons_append] at heq
  have hblank : ∀ n, ∀ c ∈ List.replicate n ' ', (c == ' ') = true := by
    intro n c hc
    rw [List.eq_of_mem_replicate hc]
    rfl
  have hstart : ∀ u : List Char, ∀ x ∈ (c :: u).head?, (x == ' ') = false := by
    rintro u _ ⟨⟩
    exact beq_false_of_ne fun hx => hc (by simp [hx, noStart])
  have hbrace : ∀ x ∈ ('}' :: t).head?, (x == ' ') = false := by
    rintro _ ⟨⟩
    rfl
  obtain ⟨-, hrest⟩ := Text.append_inj_of_all (hblank _) (hblank n) (hstart _) hbrace heq
  exact hc (by simp [(List.cons.inj hrest).1, noStart])

/-- two blocks that go on start with the same statement, apart from what is inside it -/
theorem text_cons_append_inj (h : s.Plain client) (h' : s'.Plain client) {rest rest' : List Statement}
    {r r' : List Char} (heq : text width depth (s :: rest) ++ r = text width depth (s' :: rest') ++ r') :
    s.bare = s'.bare ∧
      s.blocks width depth ++ (text width depth rest ++ r) =
        s'.blocks width depth ++ (text width depth rest' ++ r') := by
  rw [text_cons_append, text_cons_append] at heq
  obtain ⟨hbare, hrest⟩ := head_append_inj h h' (List.append_cancel_left heq)
  exact ⟨hbare, (List.cons.inj hrest).2⟩

/-- the line that closes a statement -/
theorem close_append_inj {r r' : List Char}
    (h : pad width depth ++ '}' :: '\n' :: ([] ++ r) = pad width depth ++ '}' :: '\n' :: ([] ++ r')) : r = r' := by
  have hclose := List.append_cancel_left h
  simp only [List.cons.injEq, true_and, List.nil_append] at hclose
  exact hclose

/-- **The statements of a block are told from what follows**, to any depth and for any indentation. -/
theorem text_append_inj {ts ts' : List Statement} {r r' : List Char} (h : ∀ s ∈ walkAll ts, s.Plain client)
    (h' : ∀ s ∈ walkAll ts', s.Plain client) (hr : EndsBlock r) (hr' : EndsBlock r')
    (heq : text width depth ts ++ r = text width depth ts' ++ r') : ts = ts' ∧ r = r' := by
  induction ts using forest_induction generalizing depth ts' r r' with
  | nil =>
    cases ts' with
    | nil => exact ⟨rfl, heq⟩
    | cons s' rest' => exact absurd heq.symm (text_cons_ne (h' s' (by simp)) hr)
  | leaf s rest hs ih =>
    cases ts' with
    | nil => exact absurd heq (text_cons_ne (h s (by simp)) hr')
    | cons s' rest' =>
      obtain ⟨hbare, hrest⟩ := text_cons_append_inj (h s (by simp)) (h' s' (by simp)) heq
      obtain rfl := eq_of_bare_eq hs hbare
      rw [walkAll_cons, List.forall_mem_cons, List.forall_mem_append] at h h'
      obtain ⟨rfl, hend⟩ := ih h.2.2 h'.2.2 hr hr' (List.append_cancel_left hrest)
      exact ⟨rfl, hend⟩
  | conditional test consequent alternate rest ihc iha ih =>
    cases ts' with
    | nil => exact absurd heq (text_cons_ne (h _ (by simp)) hr')
    | cons s' rest' =>
      obtain ⟨hbare, hrest⟩ := text_cons_append_inj (h _ (by simp)) (h' s' (by simp)) heq
      obtain ⟨consequent', alternate', rfl⟩ := exists_of_bare_eq_conditional hbare
      rw [walkAll_cons, inside, List.forall_mem_cons, List.forall_mem_append, List.forall_mem_append] at h h'
      obtain ⟨-, ⟨hc, ha⟩, htail⟩ := h
      obtain ⟨-, ⟨hc', ha'⟩, htail'⟩ := h'
      simp only [blocks, List.append_assoc, List.cons_append] at hrest
      obtain ⟨rfl, hmiddle⟩ := ihc hc hc' ⟨_, _, rfl⟩ ⟨_, _, rfl⟩ hrest
      have helse := List.append_cancel_left (List.cons.inj (List.append_cancel_left hmiddle)).2
      obtain ⟨rfl, hclose⟩ := iha ha ha' ⟨_, _, rfl⟩ ⟨_, _, rfl⟩ helse
      obtain ⟨rfl, hend⟩ := ih htail htail' hr hr' (close_append_inj hclose)
      exact ⟨rfl, hend⟩
  | forEach item iterable body rest ihb ih =>
    cases ts' with
    | nil => exact absurd heq (text_cons_ne (h _ (by simp)) hr')
    | cons s' rest' =>
      obtain ⟨hbare, hrest⟩ := text_cons_append_inj (h _ (by simp)) (h' s' (by simp)) heq
      obtain ⟨body', rfl⟩ := exists_of_bare_eq_forEach hbare
      rw [walkAll_cons, inside, List.forall_mem_cons, List.forall_mem_append] at h h'
      obtain ⟨-, hb, htail⟩ := h
      obtain ⟨-, hb', htail'⟩ := h'
      simp only [blocks, List.append_assoc, List.cons_append] at hrest
      obtain ⟨rfl, hclose⟩ := ihb hb hb' ⟨_, _, rfl⟩ ⟨_, _, rfl⟩ hrest
      obtain ⟨rfl, hend⟩ := ih htail htail' hr hr' (close_append_inj hclose)
      exact ⟨rfl, hend⟩

end Statement

/-! ## Trees -/

/-- the first line, the statements, and the last line -/
theorem Program.toList_render (p : Program) (o : RenderOptions) : (p.render o).toList =
    Line.render o.indentWidth ⟨0, "async function ".toList ++ o.functionName.toList ++ ['(', ')', ' ', '{']⟩ ++
      (text o.indentWidth 1 p.body ++ ['}', '\n']) := by
  have hlast : Line.render o.indentWidth ⟨0, ['}']⟩ = ['}', '\n'] := by simp [Line.render]
  rw [Program.render, String.toList_ofList, Program.lines, List.cons_append, List.flatMap_cons, List.flatMap_append,
    List.flatMap_singleton, hlast]
  rfl

/-- All variables and properties in the tree have plain names, what is called aside. -/
def Program.Plain (p : Program) : Prop := ∀ s ∈ p.walk, s.content.Plain

instance (p : Program) : Decidable p.Plain := inferInstanceAs (Decidable (∀ s ∈ p.walk, s.content.Plain))

/-- a call has plain names if its parameters have -/
theorem Expression.plain_call {client method : String} {url : Json} {ps : List (String × Expression)}
    (h : (member (asyncCall (member (identifier client) method) [literal url, object ps]) "data").Plain) :
    ∀ p ∈ ps, p.2.Plain := by
  intro p hp x hx
  apply h
  have hmem : x ∈ partsProperties false ps := mem_partsProperties.2 ⟨p, hp, hx⟩
  simp [parts, partsAll, hmem]

theorem Node.Gives.plain {n : Node} {client : String} {s : Statement} (h : n.Gives client s) (hp : s.content.Plain) :
    s.Plain client := by
  cases h with
  | assignment hl hr =>
    obtain ⟨hpl, hpr⟩ := Expression.plain_assignment.1 hp
    exact .assignment ⟨hl.isSum, hpl⟩ ⟨hr.isSum, hpr⟩
  | call hname hmethod url hproperties =>
    exact .call hname hmethod url fun x hx => ⟨(hproperties x hx).isSum, Expression.plain_call hp x hx⟩
  | conditional h consequent alternate => exact .conditional ⟨h.isSum, hp⟩ consequent alternate
  | loop hitem h body => exact .loop hitem ⟨h.isSum, hp⟩ body
  | output h => exact .output ⟨h.isSum, hp⟩

/-- **Distinct trees have distinct source text.** Two trees that are compiled with the same options, from any documents,
are equal if their source texts are, provided that their variables and properties have plain names. The client may be
any text, and there need be no indentation. -/
theorem render_injective {d d' : Document} {o : Options} {p q : Program} (hp : (d.build o).outcome = .ok p)
    (hq : (d'.build o).outcome = .ok q) (hplain : p.Plain) (hplain' : q.Plain)
    (h : p.render o.render = q.render o.render) : p = q := by
  have hstatements : ∀ s ∈ walkAll p.body, s.Plain o.httpClient := by
    intro s hs
    obtain ⟨n, -, hn⟩ := d.gives_of_build hp s hs
    exact hn.plain (hplain s hs)
  have hstatements' : ∀ s ∈ walkAll q.body, s.Plain o.httpClient := by
    intro s hs
    obtain ⟨n, -, hn⟩ := d'.gives_of_build hq s hs
    exact hn.plain (hplain' s hs)
  have htext : text o.indentWidth 1 p.body ++ ['}', '\n'] = text o.indentWidth 1 q.body ++ ['}', '\n'] := by
    have hlists := congrArg String.toList h
    rw [Program.toList_render, Program.toList_render] at hlists
    exact List.append_cancel_left hlists
  obtain ⟨hbody, -⟩ := text_append_inj hstatements hstatements' ⟨0, ['\n'], rfl⟩ ⟨0, ['\n'], rfl⟩ htext
  cases p
  cases q
  rw [Program.mk.injEq]
  exact hbody

/-- no indentation, and a client that is no name -/
def tightOptions : Options where
  httpClient := "a.b c"
  indentWidth := 0

/-- a flow whose variables have the names of keywords -/
def keywordFlow : Document where
  nodes := [⟨"s", .start, [], []⟩, ⟨"c", .conditional, [("expression", .str "$if/for")], []⟩,
    ⟨"v", .setVariable, [("key", .str "const"), ("value", .str "$return+null")], []⟩]
  edges := [⟨"s", "c", none⟩, ⟨"c", "v", some true⟩]

/-- the tree of `keywordFlow` and of `respelledFlow` -/
def keywordTree : Program :=
  ⟨[.conditional (.member (.identifier "if") "for")
    [.expression
      (.assignment (.identifier "const") (.binary .add (.identifier "return") (.literal (.str "null"))))] []]⟩

/-- the same flow with other ids, in another order and with other blanks -/
def respelledFlow : Document where
  nodes := [⟨"a", .setVariable, [("key", .str " const"), ("value", .str "$return + null")], []⟩,
    ⟨"b", .conditional, [("expression", .str "$if/for")], []⟩, ⟨"c", .start, [], []⟩]
  edges := [⟨"b", "a", some true⟩, ⟨"c", "b", none⟩]

theorem build_keywordFlow : (keywordFlow.build tightOptions).outcome = .ok keywordTree := by cbv

theorem build_respelledFlow : (respelledFlow.build tightOptions).outcome = .ok keywordTree := by cbv

theorem render_injective_keywords :
    ∃ p q, (keywordFlow.build tightOptions).outcome = .ok p ∧ (respelledFlow.build tightOptions).outcome = .ok q ∧
      p.Plain ∧ q.Plain ∧ p = q :=
  ⟨keywordTree, keywordTree, build_keywordFlow, build_respelledFlow, by decide, by decide,
    render_injective build_keywordFlow build_respelledFlow (by decide) (by decide) rfl⟩

end Flowchart

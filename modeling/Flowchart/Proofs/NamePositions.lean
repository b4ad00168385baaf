/-
Names in generated code.

The source text shows the variables and properties of a tree as they are, without quotes. Most of these names are names
indeed, because the reading of a node checks them: the variables that it binds, the method of a call, a plain target.
A reference is not checked that way. It may be any text without blanks, operators and further separators, so a document
can put such a text into the code. It does so exactly when one of its references is no name.

- `Written`: text that is made of marks and of what a tree shows.
- `Expression.written`, `Statement.written_linesAll`, `Program.written`: source text is.
- `build_names`: which names a compiled tree has, and when all of them are names.
- `not_isName_of_build`: a reference can put other text into the code.
-/
import Flowchart.Proofs.References
import Flowchart.Proofs.TreeReading

namespace Flowchart

open Statement

/-! ## Source text -/

/-- what is written around names, keys and literals -/
def marks : List String :=
  ["(", ")", ".", " ", "+", "===", " = ", "await ", ", ", "\x7b\x7d", "\x7b ", ": ", " \x7d", ";", "const ", "if (",
    ") \x7b", "\x7d else \x7b", "\x7d", "for (let ", " of ", "return ", "\n"]

/-- Text that is made of marks and of what is shown: names as they are, keys as they are if they are names and in quotes
otherwise, and literals as JSON text. -/
inductive Written (shown : Lexeme → Prop) : List Char → Prop
  | nil : Written shown []
  | append {s t : List Char} (hs : Written shown s) (ht : Written shown t) : Written shown (s ++ t)
  | mark (text : String) (h : text ∈ marks) : Written shown text.toList
  | name {text : String} (h : shown (.name text)) : Written shown text.toList
  | plainKey {text : String} (h : shown (.key text)) (hname : Text.isName text.toList) : Written shown text.toList
  | quotedKey {text : String} (h : shown (.key text)) (hname : ¬Text.isName text.toList) :
    Written shown (quote text.toList)
  | literal {value : Json} (h : shown (.literal value)) : Written shown value.compact

section Written

variable {shown : Lexeme → Prop}

theorem Written.flatMap {α : Type} {f : α → List Char} {xs : List α} (h : ∀ x ∈ xs, Written shown (f x)) :
    Written shown (xs.flatMap f) := by
  induction xs with
  | nil => exact .nil
  | cons x xs ih =>
    rw [List.flatMap_cons]
    obtain ⟨hx, hxs⟩ := List.forall_mem_cons.1 h
    exact .append hx (ih hxs)

theorem Written.replicate (n : Nat) : Written shown (List.replicate n ' ') := by
  induction n with
  | zero => exact .nil
  | succ n ih => exact .append (.mark " " (by simp [marks])) ih

theorem Written.key {text : String} (h : shown (.key text)) : Written shown (keySource text) := by
  unfold keySource
  split
  · rename_i hname
    exact .plainKey h hname
  · rename_i hname
    exact .quotedKey h hname

namespace Expression

theorem written_sourceArguments {es : List Expression} (h : ∀ e ∈ es, Written shown e.source) :
    Written shown (sourceArguments es) := by
  induction es with
  | nil => exact .nil
  | cons e es ih =>
    obtain ⟨he, hes⟩ := List.forall_mem_cons.1 h
    exact .append (.append (.mark ", " (by simp [marks])) he) (ih hes)

/-- a property of an object -/
theorem written_property {key : String} {value : Expression} (hkey : shown (.key key))
    (h : Written shown value.source) : Written shown (keySource key ++ (": ".toList ++ value.source)) :=
  .append (.key hkey) (.append (.mark ": " (by simp [marks])) h)

theorem written_sourceProperties {ps : List (String × Expression)}
    (h : ∀ p ∈ ps, shown (.key p.1) ∧ Written shown p.2.source) :
    Written shown (sourceProperties ps) := by
  induction ps with
  | nil => exact .nil
  | cons p ps ih =>
    obtain ⟨hp, hps⟩ := List.forall_mem_cons.1 h
    have hsource : sourceProperties (p :: ps) =
        ", ".toList ++ (keySource p.1 ++ (": ".toList ++ p.2.source)) ++ sourceProperties ps := by simp
    rw [hsource]
    exact .append (.append (.mark ", " (by simp [marks])) (written_property hp.1 hp.2)) (ih hps)

/-- **The source text of an expression shows the expression and nothing else.** -/
theorem written (e : Expression) (h : ∀ x ∈ e.lexemes, shown x) : Written shown e.source := by
  induction e using Expression.induction with
  | identifier name => exact .name (h _ (by simp))
  | literal value => exact .literal (h _ (by simp))
  | member base property ih =>
    rw [lexemes_member, List.forall_mem_cons] at h
    have hbase := ih h.2
    have hproperty : Written shown ('.' :: property.toList) := .append (.mark "." (by simp [marks])) (.name h.1)
    rw [source_member]
    refine .append ?_ hproperty
    split
    · exact .append (.append (.mark "(" (by simp [marks])) hbase) (.mark ")" (by simp [marks]))
    · exact hbase
  | binary operator left right ihl ihr =>
    rw [lexemes_binary, List.forall_mem_append] at h
    have hblank : Written shown " ".toList := .mark " " (by simp [marks])
    have hsymbol : Written shown operator.symbol.toList :=
      .mark _ (by cases operator <;> simp [marks, Operator.symbol])
    have hsource : (binary operator left right).source =
        left.source ++ (" ".toList ++ (operator.symbol.toList ++ (" ".toList ++ right.source))) := by simp
    rw [hsource]
    exact .append (ihl h.1) (.append hblank (.append hsymbol (.append hblank (ihr h.2))))
  | assignment left right ihl ihr =>
    rw [lexemes_assignment, List.forall_mem_append] at h
    have hmark : Written shown " = ".toList := .mark " = " (by simp [marks])
    exact .append (.append (ihl h.1) hmark) (ihr h.2)
  | asyncCall callee arguments ihc iha =>
    rw [lexemes_asyncCall, List.forall_mem_append] at h
    have hcallee : Written shown ("await ".toList ++ callee.source) :=
      .append (.mark "await " (by simp [marks])) (ihc h.1)
    have harguments : ∀ a ∈ arguments, Written shown a.source := fun a ha =>
      iha a ha fun x hx => h.2 x (List.mem_flatMap.2 ⟨a, ha, hx⟩)
    have hopen : Written shown "(".toList := .mark "(" (by simp [marks])
    have hclose : Written shown ")".toList := .mark ")" (by simp [marks])
    cases arguments with
    | nil =>
      rw [source_asyncCall_nil]
      exact .append hcallee (.append hopen hclose)
    | cons a arguments =>
      obtain ⟨ha, harguments⟩ := List.forall_mem_cons.1 harguments
      have hsource : (asyncCall callee (a :: arguments)).source = "await ".toList ++ callee.source ++
          ("(".toList ++ (a.source ++ (sourceArguments arguments ++ ")".toList))) := by simp
      rw [hsource]
      exact .append hcallee (.append hopen (.append ha (.append (written_sourceArguments harguments) hclose)))
  | object properties ih =>
    rw [lexemes_object, List.forall_mem_append] at h
    have hproperties : ∀ p ∈ properties, shown (.key p.1) ∧ Written shown p.2.source := by
      intro p hp
      exact ⟨h.1 _ (List.mem_map.2 ⟨p, hp, rfl⟩), ih p hp fun x hx => h.2 x (List.mem_flatMap.2 ⟨p, hp, hx⟩)⟩
    cases properties with
    | nil => exact .mark "\x7b\x7d" (by simp [marks])
    | cons p properties =>
      obtain ⟨hp, hproperties⟩ := List.forall_mem_cons.1 hproperties
      have hsource : (object (p :: properties)).source = "\x7b ".toList ++
          (keySource p.1 ++ (": ".toList ++ p.2.source) ++ (sourceProperties properties ++ " \x7d".toList)) := by simp
      rw [hsource]
      have hopen : Written shown "\x7b ".toList := .mark "\x7b " (by simp [marks])
      have hclose : Written shown " \x7d".toList := .mark " \x7d" (by simp [marks])
      exact .append hopen
        (.append (written_property hp.1 hp.2) (.append (written_sourceProperties hproperties) hclose))

end Expression

namespace Statement

/-- what a statement without blocks shows -/
theorem written_lines_leaf {s : Statement} (hs : s.isLeaf) (depth : Nat) (h : ∀ x ∈ s.lexemes, shown x) :
    ∀ l ∈ lines depth s, Written shown l.text := by
  have hcontent := s.content.written fun x hx => h x (List.mem_append_right _ hx)
  have hend : Written shown ";".toList := .mark ";" (by simp [marks])
  cases s with
  | expression value =>
    rw [lines, List.forall_mem_singleton]
    exact .append hcontent hend
  | declaration name init =>
    rw [lines, List.forall_mem_singleton]
    have hname : Written shown name.toList := .name (h _ (by simp [lexemes, bound]))
    have hhead : Written shown ("const ".toList ++ name.toList ++ " = ".toList) :=
      .append (.append (.mark "const " (by simp [marks])) hname) (.mark " = " (by simp [marks]))
    exact .append (.append hhead hcontent) hend
  | ret argument =>
    rw [lines, List.forall_mem_singleton]
    exact .append (.append (.mark "return " (by simp [marks])) hcontent) hend
  | conditional test consequent alternate => cases hs
  | forEach item iterable body => cases hs

/-- **The lines of statements show the statements and nothing else.** -/
theorem written_linesAll (ts : List Statement) (depth : Nat) (h : ∀ s ∈ walkAll ts, ∀ x ∈ s.lexemes, shown x) :
    ∀ l ∈ linesAll depth ts, Written shown l.text := by
  have hopen : Written shown ") \x7b".toList := .mark ") \x7b" (by simp [marks])
  have hclose : Written shown "\x7d".toList := .mark "\x7d" (by simp [marks])
  induction ts using forest_induction generalizing depth with
  | nil => exact List.forall_mem_nil _
  | leaf s rest hs ih =>
    rw [walkAll_cons, inside_leaf hs, List.nil_append, List.forall_mem_cons] at h
    rw [linesAll, List.forall_mem_append]
    exact ⟨written_lines_leaf hs depth h.1, ih depth h.2⟩
  | conditional test consequent alternate rest ihc iha ih =>
    rw [walkAll_cons, inside, List.forall_mem_cons, List.forall_mem_append, List.forall_mem_append] at h
    obtain ⟨htest, ⟨hc, ha⟩, hrest⟩ := h
    simp only [linesAll, lines, List.forall_mem_append, List.forall_mem_cons]
    refine ⟨⟨⟨⟨?_, ihc _ hc⟩, .mark "\x7d else \x7b" (by simp [marks]), iha _ ha⟩, hclose, List.forall_mem_nil _⟩,
      ih depth hrest⟩
    exact .append (.append (.mark "if (" (by simp [marks])) (test.written htest)) hopen
  | forEach item iterable body rest ihb ih =>
    rw [walkAll_cons, inside, List.forall_mem_cons, List.forall_mem_append] at h
    obtain ⟨hhead, hbody, hrest⟩ := h
    simp only [linesAll, lines, List.forall_mem_append, List.forall_mem_cons]
    refine ⟨⟨⟨?_, ihb _ hbody⟩, hclose, List.forall_mem_nil _⟩, ih depth hrest⟩
    have hitem : Written shown ("for (let ".toList ++ item.toList ++ " of ".toList) :=
      .append (.append (.mark "for (let " (by simp [marks])) (.name (hhead _ (by simp [lexemes, bound]))))
        (.mark " of " (by simp [marks]))
    have hiterable := iterable.written fun x hx => hhead x (List.mem_append_right _ hx)
    exact .append (.append hitem hiterable) hopen

end Statement

end Written

namespace Program

/-- **The source text of a tree shows the tree and nothing else**, its first line aside. -/
theorem written (p : Program) (o : RenderOptions) : ∃ body : List Char,
    (p.render o).toList = "async function ".toList ++ o.functionName.toList ++ "() \x7b\n".toList ++ body ∧
      Written (· ∈ p.lexemes) body := by
  refine ⟨(Statement.linesAll 1 p.body ++ [Line.mk 0 ['}']]).flatMap (Line.render o.indentWidth), ?_, ?_⟩
  · have hfirst (text : List Char) : Line.render o.indentWidth ⟨0, text⟩ = text ++ ['\n'] := by simp [Line.render]
    rw [render, String.toList_ofList, Program.lines, List.cons_append, List.flatMap_cons, hfirst]
    simp
  · apply Written.flatMap
    intro l hl
    have htext : Written (· ∈ p.lexemes) l.text := by
      rcases List.mem_append.1 hl with hl | hl
      · apply Statement.written_linesAll p.body 1 _ l hl
        intro s hs x hx
        exact List.mem_flatMap.2 ⟨s, hs, hx⟩
      · rw [List.mem_singleton.1 hl]
        exact .mark "\x7d" (by simp [marks])
    exact .append (.append (.replicate _) htext) (.mark "\n" (by simp [marks]))

end Program

/-- **The names of compiled trees.** The variables that statements bind are names. Any other name that the tree shows is
a name, too, or it stands in a reference of the document; then it holds no blank, no operator and no separator, but may
hold other marks. What stands in a reference is in the tree, so the tree has only names exactly when the references of
the document have. The source text, its first line aside, is made of marks and of what the tree shows: these names,
keys, which stand in quotes unless they are names, and literals as JSON text. -/
theorem build_names {d : Document} {o : Options} {p : Program} (hclient : Text.isName o.httpClient.toList)
    (h : (d.build o).outcome = .ok p) :
    (∀ s ∈ p.walk, ∀ name ∈ s.bound, Text.isName name.toList) ∧
      (∀ name ∈ p.names, Text.isName name.toList ∨ d.Refers name ∧ Formula.IsPlainName name.toList) ∧
      (∀ name, d.Refers name → name ∈ p.names) ∧
      ((∀ name ∈ p.names, Text.isName name.toList) ↔ ∀ name, d.Refers name → Text.isName name.toList) ∧
      ∃ body : List Char,
        (p.render o.render).toList = "async function ".toList ++ o.functionName.toList ++ "() \x7b\n".toList ++ body ∧
          Written (· ∈ p.lexemes) body := by
  have hnames : ∀ name ∈ p.names, Text.isName name.toList ∨ d.Refers name := by
    intro name hname
    rcases Document.refers_of_mem_names h hname with rfl | hname
    · exact Or.inl hclient
    · exact hname
  have hrefers : ∀ name, d.Refers name → name ∈ p.names := fun name => Document.mem_names_of_refers h
  refine ⟨Document.isName_of_bound h, ?_, hrefers, ⟨?_, ?_⟩, p.written o.render⟩
  · intro name hname
    exact (hnames name hname).imp_right fun hname => ⟨hname, Document.isPlainName_of_refers h hname⟩
  · intro hall name hname
    exact hall name (hrefers name hname)
  · intro hall name hname
    exact (hnames name hname).elim id (hall name)

/-- a flow whose result is a reference with marks in it -/
def markedFlow : Document where
  nodes := [⟨"s", .start, [], []⟩, ⟨"e", .finish, [("output", .str "$x;stop()")], []⟩]
  edges := [⟨"s", "e", none⟩]

/-- the tree of `markedFlow` -/
def markedTree : Program := ⟨[.ret (.identifier "x;stop()")]⟩

theorem build_markedFlow : (markedFlow.build {}).outcome = .ok markedTree := by cbv

theorem build_names_markedFlow :
    (markedFlow.build {}).outcome = .ok markedTree ∧ markedTree.names = ["x;stop()"] ∧
      markedFlow.Refers "x;stop()" ∧ ¬∀ name, markedFlow.Refers name → Text.isName name.toList := by
  have hnames : markedTree.names = ["x;stop()"] := rfl
  obtain ⟨-, hrefers, -, hall, -⟩ := build_names (by decide) build_markedFlow
  rw [hnames, List.forall_mem_singleton] at hrefers hall
  refine ⟨build_markedFlow, hnames, (hrefers.resolve_left (by decide)).1, fun h => ?_⟩
  exact absurd (hall.2 h) (by decide)

/-- **A reference can put other text than names into the code.** -/
theorem not_isName_of_build :
    ¬∀ (d : Document) (o : Options) (p : Program), Text.isName o.httpClient.toList → (d.build o).outcome = .ok p →
      ∀ name ∈ p.names, Text.isName name.toList := by
  intro h
  have hname := h markedFlow {} markedTree (by decide) build_markedFlow "x;stop()" (by decide)
  revert hname
  decide

end Flowchart

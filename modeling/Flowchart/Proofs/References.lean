/-
The references of a document.

A text that starts with a sigil refers to a variable, or with a separator to a property of one. The names in what a
formula reads as are those of its references and no others, so the names of a compiled tree are known from the formulas
of the document: each of them stands in a reference, or was checked to be a name.

- `Program.lexemes`: the names, keys and literals that a tree shows, and `Program.names`: the names among them.
- `Formula.Refers`: a name stands in a reference of a formula. `Formula.mem_names_of_parse`: these are the names of the
  expression.
- `Document.Refers`: a name stands in a reference of a node that takes part in the tree.
- `Document.mem_names_of_refers`, `Document.refers_of_mem_names`: the names of a compiled tree.
-/
import Flowchart.Proofs.CallChecks

namespace Flowchart

open Statement

/-! ## What a tree shows -/

/-- what stands in source text between its marks: a name as it is, a key of an object, or a literal -/
inductive Lexeme where
  | name (text : String)
  | key (text : String)
  | literal (value : Json)

def Lexeme.name? : Lexeme → Option String
  | .name text => some text
  | _ => none

/-- what an expression shows, apart from what is inside it -/
def Expression.shown : Expression → List Lexeme
  | .identifier name => [.name name]
  | .literal value => [.literal value]
  | .member _ property => [.name property]
  | .object properties => properties.map fun x => .key x.1
  | _ => []

/-- all that an expression shows -/
def Expression.lexemes (e : Expression) : List Lexeme := (e.parts true).flatMap shown

/-- the names of all variables and properties in an expression -/
def Expression.names (e : Expression) : List String := e.lexemes.filterMap Lexeme.name?

/-- the variable that a statement binds -/
def Statement.bound : Statement → Option String
  | .declaration name _ => some name
  | .forEach item _ _ => some item
  | _ => none

/-- what a statement shows, apart from what is inside its blocks -/
def Statement.lexemes (s : Statement) : List Lexeme := s.bound.toList.map .name ++ s.content.lexemes

/-- all that a tree shows -/
def Program.lexemes (p : Program) : List Lexeme := p.walk.flatMap Statement.lexemes

/-- the names that a tree shows -/
def Program.names (p : Program) : List String := p.lexemes.filterMap Lexeme.name?

namespace Expression

@[simp] theorem lexemes_identifier (name : String) : (identifier name).lexemes = [.name name] := rfl

@[simp] theorem lexemes_literal (value : Json) : (literal value).lexemes = [.literal value] := rfl

@[simp] theorem lexemes_member (base : Expression) (property : String) :
    (member base property).lexemes = .name property :: base.lexemes := rfl

@[simp] theorem lexemes_binary (operator : Operator) (left right : Expression) :
    (binary operator left right).lexemes = left.lexemes ++ right.lexemes := by
  simp [lexemes, parts, shown]

@[simp] theorem lexemes_assignment (left right : Expression) :
    (assignment left right).lexemes = left.lexemes ++ right.lexemes := by
  simp [lexemes, parts, shown]

theorem flatMap_shown_partsAll (es : List Expression) : (partsAll true es).flatMap shown = es.flatMap lexemes := by
  induction es with
  | nil => simp [partsAll]
  | cons e es ih => simp [partsAll, ih, lexemes]

theorem flatMap_shown_partsProperties (ps : List (String × Expression)) :
    (partsProperties true ps).flatMap shown = ps.flatMap fun x => x.2.lexemes := by
  induction ps with
  | nil => simp [partsProperties]
  | cons x ps ih => simp [partsProperties, ih, lexemes]

@[simp] theorem lexemes_asyncCall (callee : Expression) (arguments : List Expression) :
    (asyncCall callee arguments).lexemes = callee.lexemes ++ arguments.flatMap lexemes := by
  rw [← flatMap_shown_partsAll]
  simp [lexemes, parts, shown]

@[simp] theorem lexemes_object (properties : List (String × Expression)) :
    (object properties).lexemes = (properties.map fun x => .key x.1) ++ properties.flatMap fun x => x.2.lexemes := by
  rw [← flatMap_shown_partsProperties]
  simp [lexemes, parts, shown]

@[simp] theorem names_identifier (name : String) : (identifier name).names = [name] := rfl

@[simp] theorem names_literal (value : Json) : (literal value).names = [] := rfl

@[simp] theorem names_member (base : Expression) (property : String) :
    (member base property).names = property :: base.names := rfl

@[simp] theorem names_binary (operator : Operator) (left right : Expression) :
    (binary operator left right).names = left.names ++ right.names := by
  simp [names]

@[simp] theorem names_assignment (left right : Expression) :
    (assignment left right).names = left.names ++ right.names := by
  simp [names]

@[simp] theorem names_asyncCall (callee : Expression) (arguments : List Expression) :
    (asyncCall callee arguments).names = callee.names ++ arguments.flatMap names := by
  simp only [names, lexemes_asyncCall, List.filterMap_append, List.filterMap_flatMap]
  rfl

@[simp] theorem names_object (properties : List (String × Expression)) :
    (object properties).names = properties.flatMap fun x => x.2.names := by
  simp [names, List.filterMap_flatMap, List.filterMap_map, Function.comp_def, Lexeme.name?]

/-- the names of a call: the property that is read, the method, the client, and those of the parameters -/
theorem mem_names_call {client method name : String} {url : Json} {properties : List (String × Expression)} :
    name ∈ (member (asyncCall (member (identifier client) method) [literal url, object properties]) "data").names ↔
      name = "data" ∨ (name = method ∨ name = client) ∨ ∃ x ∈ properties, name ∈ x.2.names := by
  simp only [names_member, names_asyncCall, names_identifier, List.flatMap_cons, names_literal, names_object,
    List.flatMap_nil, List.append_nil, List.nil_append, List.mem_cons, List.mem_append, List.mem_flatMap,
    List.not_mem_nil, or_false]

end Expression

theorem Program.mem_names {p : Program} {name : String} :
    name ∈ p.names ↔ ∃ s ∈ p.walk, name ∈ s.bound ∨ name ∈ s.content.names := by
  simp [names, lexemes, Statement.lexemes, Expression.names, List.filterMap_flatMap, List.filterMap_map, Lexeme.name?,
    Function.comp_def]

/-! ## Formulas -/

namespace Formula

variable {s a r : List Char} {e : Expression} {name : String}

/-- An operand of a formula: one of its atoms. A text without operators is its own operand, and is not trimmed. -/
inductive Operand (s : List Char) : List Char → Prop
  | whole (h : ¬HasOperator s) : Operand s s
  | atom {piece : List (List Char)} {a : List Char} (h : HasOperator s) (hpiece : piece ∈ atoms s) (ha : a ∈ piece) :
    Operand s a

/-- the name stands in a reference of the formula, on a side of the separator if there is one -/
def Refers (s name : List Char) : Prop := ∃ r, Operand s ('$' :: r) ∧ name ∈ r.splitOn '/'

/-- a reference is one name, or two with a separator between them -/
theorem IsReference.cases (h : IsReference r) :
    '/' ∉ r ∨ ∃ object property, r = object ++ '/' :: property ∧ '/' ∉ object ∧ '/' ∉ property := by
  by_cases hr : '/' ∈ r
  · obtain ⟨object, property, rfl, hobject⟩ := List.eq_append_cons_of_mem hr
    refine Or.inr ⟨object, property, rfl, hobject, ?_⟩
    intro hproperty
    have hcount := h.separators
    have hpos := List.count_pos_iff.2 hproperty
    rw [List.count_append, List.count_cons_self] at hcount
    omega
  · exact Or.inl hr

theorem splitOn_name (h : '/' ∉ r) : r.splitOn '/' = [r] := by
  have hsplit : (List.intercalate ['/'] [r]).splitOn '/' = [r] :=
    List.splitOn_intercalate '/' (by simpa using h) (List.cons_ne_nil _ _)
  simpa using hsplit

theorem splitOn_property {object property : List Char} (hobject : '/' ∉ object) (hproperty : '/' ∉ property) :
    (object ++ '/' :: property).splitOn '/' = [object, property] := by
  have hsplit : (List.intercalate ['/'] [object, property]).splitOn '/' = [object, property] :=
    List.splitOn_intercalate '/' (by simp [hobject, hproperty]) (List.cons_ne_nil _ _)
  simpa [List.intercalate] using hsplit

theorem mem_names_referent (h : IsReference r) : name ∈ (referent r).names ↔ name.toList ∈ r.splitOn '/' := by
  rcases h.cases with hr | ⟨object, property, rfl, hobject, hproperty⟩
  · rw [referent_name hr, splitOn_name hr]
    simp [String.ext_iff]
  · rw [referent_property hobject, splitOn_property hobject hproperty]
    simp [String.ext_iff, or_comm]

theorem names_constant (s : List Char) : (constant s).names = [] := by
  unfold constant
  split <;> rfl

theorem mem_names_operand (h : ∀ r, a = '$' :: r → IsReference r) :
    name ∈ (operand a).names ↔ ∃ r, a = '$' :: r ∧ name.toList ∈ r.splitOn '/' := by
  unfold operand
  split
  · rename_i r
    rw [mem_names_referent (h r rfl)]
    simp
  · rename_i hsigil
    rw [names_constant]
    refine iff_of_false List.not_mem_nil ?_
    rintro ⟨r, rfl, -⟩
    exact hsigil r rfl

theorem names_joined {operator : Operator} {es : List Expression} (h : es ≠ []) :
    (joined operator es).names = es.flatMap Expression.names := by
  induction es with
  | nil => exact absurd rfl h
  | cons e es ih =>
    by_cases hes : es = []
    · simp [hes]
    · rw [joined_cons hes, Expression.names_binary, ih hes, List.flatMap_cons]

theorem mem_names_flat : name ∈ (flat s).names ↔ ∃ piece ∈ atoms s, ∃ a ∈ piece, name ∈ (operand a).names := by
  have hpiece : ∀ piece ∈ atoms s, piece ≠ [] := by
    intro piece hpiece
    obtain ⟨t, -, rfl⟩ := List.mem_map.1 hpiece
    exact comparands_ne_nil t
  rw [flat, names_joined (by simp [atoms_ne_nil]), List.flatMap_map, List.mem_flatMap]
  refine exists_congr fun piece => and_congr_right fun hmem => ?_
  rw [names_joined (by simp [hpiece piece hmem]), List.flatMap_map, List.mem_flatMap]

/-- **The names in what a formula reads as are those of its references.** -/
theorem mem_names_of_parse (h : parse s = .ok e) : name ∈ e.names ↔ Refers s name.toList := by
  by_cases hs : HasOperator s
  · obtain ⟨hread, rfl⟩ := (parse_iff (Or.inl hs)).1 h
    rw [mem_names_flat]
    constructor
    · rintro ⟨piece, hpiece, a, ha, hname⟩
      obtain ⟨r, rfl, hr⟩ := (mem_names_operand (hread piece hpiece a ha).reference).1 hname
      exact ⟨r, .atom hs hpiece ha, hr⟩
    · rintro ⟨r, hr | ⟨-, hpiece, ha⟩, hname⟩
      · contradiction
      · exact ⟨_, hpiece, _, ha, (mem_names_operand (hread _ hpiece _ ha).reference).2 ⟨r, rfl, hname⟩⟩
  · obtain ⟨hread, rfl⟩ := (parse_atom hs).1 h
    rw [mem_names_operand hread]
    constructor
    · rintro ⟨r, rfl, hr⟩
      exact ⟨r, .whole hs, hr⟩
    · rintro ⟨r, ⟨⟩ | ⟨hop, -, -⟩, hr⟩
      · exact ⟨r, rfl, hr⟩
      · contradiction

/-- what stands on a side of the separator -/
theorem IsReference.isPlainName (h : IsReference r) (hr : ¬HasOperator r) : ∀ x ∈ r.splitOn '/', IsPlainName x := by
  rcases h.cases with hslash | ⟨object, property, rfl, hobject, hproperty⟩
  · rw [splitOn_name hslash, List.forall_mem_singleton]
    exact ⟨h.ne_nil, h.not_blank, hslash, hr⟩
  · rw [hasOperator_append_cons (by decide), not_or] at hr
    have hblank := h.not_blank
    rw [List.forall_mem_append, List.forall_mem_cons] at hblank
    obtain ⟨hleft, hright⟩ := h.sides object property rfl
    rw [splitOn_property hobject hproperty, List.forall_mem_cons, List.forall_mem_singleton]
    exact ⟨⟨hleft, hblank.1, hobject, hr.1⟩, hright, hblank.2.2, hproperty, hr.2⟩

/-- the names of a formula have no blank, no separator and no operator in them -/
theorem isPlainName_of_parse (h : parse s = .ok e) : ∀ name ∈ e.names, IsPlainName name.toList := by
  refine parse_induction (motive := fun _ e => ∀ name ∈ e.names, IsPlainName name.toList) ?_ ?_ h
  · intro s e hread name hname
    have hs := not_hasOperator_of_read hread
    obtain ⟨href, rfl⟩ := (parse_atom hs).1 ((parse_of_not_hasOperator hs).2 hread)
    obtain ⟨r, rfl, hr⟩ := (mem_names_operand href).1 hname
    exact (href r rfl).isPlainName (fun hop => hs (hasOperator_sigil.2 hop)) _ hr
  · intro s op l r el er _ ihl ihr
    rw [Expression.names_binary, List.forall_mem_append]
    exact ⟨ihl, ihr⟩

/-- the name stands in a reference, if the value is a formula -/
def RefersIn : Json → List Char → Prop
  | .str s, name => Refers s.toList name
  | _, _ => False

theorem mem_names_of_ofJson {v : Json} (h : ofJson v = .ok e) : name ∈ e.names ↔ RefersIn v name.toList := by
  cases v with
  | str s => exact mem_names_of_parse h
  | arr items => cases h
  | obj members => cases h
  | _ =>
    cases h
    exact iff_of_false List.not_mem_nil id

theorem isPlainName_of_ofJson {v : Json} (h : ofJson v = .ok e) : ∀ name ∈ e.names, IsPlainName name.toList := by
  cases v with
  | str s => exact isPlainName_of_parse h
  | arr items => cases h
  | obj members => cases h
  | _ =>
    cases h
    exact List.forall_mem_nil _

end Formula

/-! ## Nodes -/

/-- the value is read as an expression whose names the statement shows -/
def Statement.Shows (s : Statement) (v : Json) : Prop :=
  ∃ e, Formula.ofJson v = .ok e ∧ ∀ name ∈ e.names, name ∈ s.content.names

namespace Node

variable {n : Node} {client : String} {s : Statement} {e : Expression}

/-- the name stands in a reference of a formula that the node has read -/
def Refers (n : Node) (name : String) : Prop := ∃ v, n.Reads v ∧ Formula.RefersIn v name.toList

theorem Expresses.refers (h : n.Expresses e) : ∀ name ∈ e.names, n.Refers name := by
  obtain ⟨v, hv, he⟩ := h
  intro name hname
  exact ⟨v, hv, (Formula.mem_names_of_ofJson he).1 hname⟩

theorem Targets.refers (h : n.Targets e) : ∀ name ∈ e.names, Text.isName name.toList ∨ n.Refers name := by
  rcases h with ⟨name, hname, rfl⟩ | h
  · rw [Expression.names_identifier, List.forall_mem_singleton]
    exact Or.inl hname
  · exact fun name hname => Or.inr (h.refers name hname)

/-- what a statement binds is a name -/
theorem Gives.isName_of_bound (h : n.Gives client s) : ∀ name ∈ s.bound, Text.isName name.toList := by
  cases h with
  | call hname _ _ _ =>
    rintro name ⟨⟩
    exact hname
  | loop hitem _ _ =>
    rintro name ⟨⟩
    exact hitem
  | _ => nofun

/-- the other names of a statement: the client, names that were checked, and those of references -/
theorem Gives.refers (h : n.Gives client s) :
    ∀ name ∈ s.content.names, name = client ∨ Text.isName name.toList ∨ n.Refers name := by
  cases h with
  | assignment hl hr =>
    rw [content, Expression.names_assignment, List.forall_mem_append]
    exact ⟨fun name hname => Or.inr (hl.refers name hname), fun name hname => Or.inr (Or.inr (hr.refers name hname))⟩
  | call _ hmethod url hproperties =>
    intro name hname
    rcases Expression.mem_names_call.1 hname with rfl | (rfl | rfl) | ⟨x, hx, hname⟩
    · exact Or.inr (Or.inl (by decide))
    · exact Or.inr (Or.inl hmethod)
    · exact Or.inl rfl
    · exact Or.inr (Or.inr ((hproperties x hx).refers name hname))
  | conditional h _ _ => exact fun name hname => Or.inr (Or.inr (h.refers name hname))
  | loop _ h _ => exact fun name hname => Or.inr (Or.inr (h.refers name hname))
  | output h => exact fun name hname => Or.inr (Or.inr (h.refers name hname))

/-- the formula in the property for the kind of the node -/
theorem Adds.shows_formula (h : n.Adds client s) {name : String} {v : Json} (hk : n.kind.formula? = some name)
    (hv : n.property? [name] = some v) : s.Shows v := by
  have hread : ∀ e, (n.expression name).outcome = .ok e → Formula.ofJson v = .ok e := by
    intro e he
    obtain ⟨w, hw, he⟩ := n.expression_eq_ok.1 he
    rw [hv] at hw
    cases hw
    exact he
  cases h with
  | assignment hkind h =>
    rw [hkind] at hk
    cases hk
    obtain ⟨key, left, right, -, -, hright, rfl⟩ := assignment_eq_ok.1 h
    exact ⟨right, hread right hright, fun name hname => by simp [content, hname]⟩
  | conditional hkind h =>
    rw [hkind] at hk
    cases hk
    exact ⟨_, hread _ h, fun name hname => hname⟩
  | call hkind h =>
    rw [hkind] at hk
    cases hk
  | loop hkind h =>
    rw [hkind] at hk
    cases hk
    exact ⟨_, hread _ (loopHead_eq_ok.1 h).1, fun name hname => hname⟩
  | output hkind h =>
    rw [hkind] at hk
    cases hk
    exact ⟨_, hread _ h, fun name hname => hname⟩

/-- the target of an assignment that is no plain name -/
theorem shows_target {v : Json} (h : n.assignment.outcome = .ok s) (hv : n.property? ["key"] = some v)
    (hplain : ∀ t : String, v = .str t → Text.isName (Text.trim t.toList) → (Text.trim t.toList).head? = some '$') :
    s.Shows v := by
  obtain ⟨key, left, right, hkey, hleft, -, rfl⟩ := assignment_eq_ok.1 h
  rw [hv] at hkey
  cases hkey
  refine ⟨left, ?_, fun name hname => by simp [content, hname]⟩
  cases v with
  | str t =>
    rw [Formula.target] at hleft
    split at hleft
    · rename_i hname
      obtain ⟨⟨hhead, hname⟩, rfl⟩ := plainName?_eq_some.1 hname
      exact absurd (hplain t rfl hname) hhead
    · exact hleft
  | _ => exact hleft

/-- the values of parameters -/
theorem shows_parameter {items : List Json} {item v : Json} {key : String} (h : (n.httpCall client).outcome = .ok s)
    (hparams : n.property? ["params"] = some (.arr items)) (hitem : item ∈ items)
    (hv : IsEntry item key v) : s.Shows v := by
  obtain ⟨url, method, name, pairs, properties, hcalls, rfl⟩ := n.httpCall_eq_ok.1 h
  have hlists := hcalls.lists
  rw [hparams] at hlists
  cases hlists with
  | entries hentries =>
    obtain ⟨pair, hpair, hentry⟩ := exists_left_of_forall₂ hentries.flip item hitem
    have heq : some (key, v) = some pair := (parameter?_eq_some.2 hv).symm.trans (parameter?_eq_some.2 hentry)
    cases heq
    obtain ⟨x, hx, hevaluates⟩ := exists_left_of_forall₂ hcalls.evaluates.flip _ hpair
    exact ⟨x.2, hevaluates.2, fun name hname => Expression.mem_names_call.2 (Or.inr (Or.inr ⟨x, hx, hname⟩))⟩

/-- **The statement of a node shows the names of all formulas that the node has read.** -/
theorem Adds.shows (h : n.Adds client s) {v : Json} (hv : n.Reads v) : s.Shows v := by
  cases hv with
  | formula hk hv => exact h.shows_formula hk hv
  | target hk hv hplain =>
    cases h with
    | assignment _ h => exact shows_target h hv hplain
    | _ hkind _ => simp [hk] at hkind
  | parameter hk hparams hitem hv =>
    cases h with
    | call _ h => exact shows_parameter h hparams hitem hv
    | _ hkind _ => simp [hk] at hkind

theorem Reads.kind_ne {v : Json} (h : n.Reads v) : n.kind ≠ .start := by
  intro hk
  cases h with
  | formula hf _ => simp [hk, NodeKind.formula?] at hf
  | target hk' _ _ => simp [hk] at hk'
  | parameter hk' _ _ _ => simp [hk] at hk'

end Node

/-! ## Documents -/

namespace Document

variable {d : Document} {o : Options} {p : Program} {name : String}

/-- the name stands in a reference of a node that takes part in the tree -/
def Refers (d : Document) (name : String) : Prop := ∃ n, d.Compiles n ∧ n.Refers name

theorem exists_adds_of_compiles (h : (d.build o).outcome = .ok p) {n : Node} (hn : d.Compiles n)
    (hk : n.kind ≠ .start) : ∃ s, n.Adds o.httpClient s := by
  have hbuild := build_agrees d o
  rw [h] at hbuild
  obtain ⟨q, hq, -⟩ := hbuild.exists_right
  obtain ⟨hclear, hreadable, hfirst⟩ := traversal_of_buildDirect hq
  refine Node.exists_adds (hreadable n (hclear.mem_traversal.2 hn.1)) hk ?_
  intro hend
  rw [hn.2 hend] at hfirst
  obtain ⟨a, ha, -⟩ := hfirst
  exact ⟨a, ha⟩

/-- the names of what the nodes have read are names of the tree -/
theorem exists_of_reads (h : (d.build o).outcome = .ok p) {n : Node} (hn : d.Compiles n) {v : Json} (hv : n.Reads v) :
    ∃ e, Formula.ofJson v = .ok e ∧ ∀ name ∈ e.names, name ∈ p.names := by
  obtain ⟨s, hs⟩ := exists_adds_of_compiles h hn hv.kind_ne
  obtain ⟨t, ht, rfl⟩ := List.mem_map.1 ((mem_map_bare_of_build h).2 ⟨n, hn, hs⟩)
  obtain ⟨e, he, hnames⟩ := hs.shows hv
  have hcontent : t.bare.content = t.content := by cases t <;> simp [bare, prune, content]
  refine ⟨e, he, fun name hname => Program.mem_names.2 ⟨t, ht, Or.inr ?_⟩⟩
  rw [← hcontent]
  exact hnames name hname

/-- **Whatever stands in a reference is in the tree.** -/
theorem mem_names_of_refers (h : (d.build o).outcome = .ok p) (hname : d.Refers name) : name ∈ p.names := by
  obtain ⟨n, hn, v, hv, hrefers⟩ := hname
  obtain ⟨e, he, hnames⟩ := exists_of_reads h hn hv
  exact hnames name ((Formula.mem_names_of_ofJson he).2 hrefers)

theorem isPlainName_of_refers (h : (d.build o).outcome = .ok p) (hname : d.Refers name) :
    Formula.IsPlainName name.toList := by
  obtain ⟨n, hn, v, hv, hrefers⟩ := hname
  obtain ⟨e, he, -⟩ := exists_of_reads h hn hv
  exact Formula.isPlainName_of_ofJson he name ((Formula.mem_names_of_ofJson he).2 hrefers)

theorem isName_of_bound (h : (d.build o).outcome = .ok p) :
    ∀ s ∈ p.walk, ∀ name ∈ s.bound, Text.isName name.toList := by
  intro s hs
  obtain ⟨n, -, hn⟩ := d.gives_of_build h s hs
  exact hn.isName_of_bound

/-- **Every name of the tree is the client, a name that was checked, or stands in a reference.** -/
theorem refers_of_mem_names (h : (d.build o).outcome = .ok p) (hname : name ∈ p.names) :
    name = o.httpClient ∨ Text.isName name.toList ∨ d.Refers name := by
  obtain ⟨s, hs, hname | hname⟩ := Program.mem_names.1 hname
  · exact Or.inr (Or.inl (isName_of_bound h s hs name hname))
  · obtain ⟨n, hn, hgives⟩ := d.gives_of_build h s hs
    rcases hgives.refers name hname with hclient | hchecked | hrefers
    · exact Or.inl hclient
    · exact Or.inr (Or.inl hchecked)
    · exact Or.inr (Or.inr ⟨n, hn, hrefers⟩)

end Document

end Flowchart

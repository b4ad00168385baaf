/-
The tree view, line by line.

The view gives a line to each statement, block and expression of a tree. A place in the tree is the list of the numbers
of the children on the way to it, counted from zero, so its length is the depth of the part. Parts are drawn depth
first, each before what is below it: that is the lexicographic order of their places. In front of a part stand a column
for each part above it, with a bar where that part has a later sibling, and a branch that tells whether it has one
itself.

- `TreePart.children`, `TreePart.label`: what is below a part, in the order in which it is drawn, and what its own line
  shows.
- `TreePart.draw_eq`: the printers draw the outline of a part, with the right branch in front of each child.
- `Outline.places`: the places in an outline, in order.
- `TreePart.row`: the line of the part at a place.
- `TreePart.drawsRows`: these are the lines that are drawn.
- `Program.view_rows`: the view is made of them.
-/
import Flowchart.Proofs.SourceLines

namespace Flowchart

open Statement

/-! ## The parts of a tree -/

/-- what tells a statement from others of its kind, apart from what is inside it -/
def Statement.detail : Statement → String
  | .declaration name _ => " (const " ++ name ++ ")"
  | .forEach item _ _ => " (" ++ item ++ ")"
  | _ => ""

/-- what tells an expression from others of its kind, apart from what is inside it -/
def Expression.detail : Expression → String
  | .identifier name => ": " ++ name
  | .literal value => ": " ++ String.ofList value.compact
  | .member _ property => " (." ++ property ++ ")"
  | .binary operator _ _ => " (" ++ operator.symbol ++ ")"
  | .assignment _ _ => " (=)"
  | _ => ""

/-- a tree of labels -/
inductive Outline where
  | node (label : List Char) (children : List Outline)

namespace Outline

mutual

/-- the lines of a node and of all below it -/
def draw (columns : List Char) (last : Bool) : Outline → List (List Char)
  | .node label children => View.line columns last label :: drawAll (columns ++ View.column last) children

/-- the lines of the children of a node -/
def drawAll (columns : List Char) : List Outline → List (List Char)
  | [] => []
  | o :: rest => draw columns rest.isEmpty o ++ drawAll columns rest

end

end Outline

/-- what has a line in the view: a tree, a statement, a block or an expression, the last two with their role -/
inductive TreePart where
  | program (p : Program)
  | statement (s : Statement)
  | block (role : String) (ts : List Statement)
  | expression (role : List Char) (e : Expression)

namespace TreePart

/-- what is right below a part -/
def children : TreePart → List TreePart
  | .program p => p.body.map statement
  | .block _ ts => ts.map statement
  | .statement (.expression value) => [.expression [] value]
  | .statement (.declaration _ init) => [.expression [] init]
  | .statement (.conditional test consequent alternate) =>
    [.expression "test: ".toList test, .block "consequent" consequent, .block "alternate" alternate]
  | .statement (.forEach _ iterable body) => [.expression "of: ".toList iterable, .block "body" body]
  | .statement (.ret argument) => [.expression [] argument]
  | .expression _ (.identifier _) => []
  | .expression _ (.literal _) => []
  | .expression _ (.member base _) => [.expression [] base]
  | .expression _ (.binary _ left right) => [.expression [] left, .expression [] right]
  | .expression _ (.assignment left right) => [.expression [] left, .expression [] right]
  | .expression _ (.asyncCall callee arguments) =>
    .expression "callee: ".toList callee :: arguments.map (.expression [])
  | .expression _ (.object properties) =>
    properties.map fun x => .expression (x.1.toList ++ [':', ' ']) x.2

/-- what the line of a part shows: its role, the tag of its kind, and what tells it from others of its kind -/
def label : TreePart → List Char
  | .program _ => "Program".toList
  | .statement s => s.kind.tag.toList ++ s.detail.toList
  | .block role ts => role.toList ++ ": BlockStatement".toList ++ if ts.isEmpty then " (empty)".toList else []
  | .expression role e => role ++ e.kind.tag.toList ++ e.detail.toList

theorem label_statement (s : Statement) : (statement s).label = s.kind.tag.toList ++ s.detail.toList := rfl

theorem label_block (role : String) (ts : List Statement) :
    (block role ts).label =
      role.toList ++ ": BlockStatement".toList ++ if ts.isEmpty then " (empty)".toList else [] := rfl

theorem label_expression (role : List Char) (e : Expression) :
    (expression role e).label = role ++ e.kind.tag.toList ++ e.detail.toList := rfl

/-- how much there is in a part, whatever its role -/
noncomputable def weight : TreePart → Nat
  | .program p => sizeOf p.body + 1
  | .statement s => sizeOf s
  | .block _ ts => sizeOf ts
  | .expression _ e => sizeOf e

theorem weight_lt {t c : TreePart} (h : c ∈ t.children) : c.weight < t.weight := by
  cases t with
  | program p =>
    obtain ⟨s, hs, rfl⟩ := List.mem_map.1 h
    have hlt := List.sizeOf_lt_of_mem hs
    simp only [weight]
    omega
  | block role ts =>
    obtain ⟨s, hs, rfl⟩ := List.mem_map.1 h
    exact List.sizeOf_lt_of_mem hs
  | statement s =>
    cases s <;> simp only [children, List.mem_cons, List.not_mem_nil, or_false] at h
    all_goals
      rcases h with rfl | rfl | rfl <;>
        simp only [weight, Statement.expression.sizeOf_spec, Statement.declaration.sizeOf_spec,
          Statement.conditional.sizeOf_spec, Statement.forEach.sizeOf_spec, Statement.ret.sizeOf_spec] <;> omega
  | expression role e =>
    cases e with
    | asyncCall callee arguments =>
      rw [children, List.mem_cons, List.mem_map] at h
      rcases h with rfl | ⟨a, ha, rfl⟩
      · simp only [weight, Expression.asyncCall.sizeOf_spec]
        omega
      · have hlt := List.sizeOf_lt_of_mem ha
        simp only [weight, Expression.asyncCall.sizeOf_spec]
        omega
    | object properties =>
      obtain ⟨⟨key, value⟩, hx, rfl⟩ := List.mem_map.1 h
      have hlt := List.sizeOf_lt_of_mem hx
      simp only [weight, Expression.object.sizeOf_spec, Prod.mk.sizeOf_spec] at hlt ⊢
      omega
    | identifier name => cases h
    | literal value => cases h
    | member base property =>
      rw [List.mem_singleton.1 h]
      simp only [weight, Expression.member.sizeOf_spec]
      omega
    | _ =>
      simp only [children, List.mem_cons, List.not_mem_nil, or_false] at h
      rcases h with rfl | rfl
      all_goals
        simp only [weight, Expression.binary.sizeOf_spec, Expression.assignment.sizeOf_spec]
        omega

/-- a statement about a part may use the statements about what is right below it -/
theorem children_induction {motive : TreePart → Prop} (step : ∀ t, (∀ c ∈ t.children, motive c) → motive t)
    (t : TreePart) : motive t := by
  induction hweight : t.weight using Nat.strong_induction_on generalizing t with
  | _ weight ih =>
    apply step
    intro c hc
    exact ih c.weight (hweight ▸ weight_lt hc) c rfl

/-- a part as a tree of labels -/
def outline (t : TreePart) : Outline := .node t.label (t.children.attach.map fun c => outline c.1)
termination_by t.weight
decreasing_by exact weight_lt c.2

theorem outline_eq (t : TreePart) : t.outline = .node t.label (t.children.map outline) := by
  rw [outline, List.attach_map_val]

/-! ## The printers -/

/-- the lines that a part is drawn with, by the printer for it; a tree has none -/
def draw (columns : List Char) (last : Bool) : TreePart → List (List Char)
  | .program _ => []
  | .statement s => s.draw columns last
  | .block role ts => View.block columns last role ts.isEmpty fun columns => drawAll columns ts
  | .expression role e => e.draw columns last role

/-- the lines that parts are drawn with, of which only the last is told so -/
def drawParts (columns : List Char) : List TreePart → List (List Char)
  | [] => []
  | c :: rest => c.draw columns rest.isEmpty ++ drawParts columns rest

theorem drawAll_eq (columns : List Char) (ts : List Statement) :
    drawAll columns ts = drawParts columns (ts.map statement) := by
  induction ts with
  | nil => simp [drawAll, drawParts]
  | cons s ts ih => simp [drawAll, drawParts, draw, ih]

theorem drawArguments_eq (columns : List Char) (es : List Expression) :
    Expression.drawArguments columns es = drawParts columns (es.map (expression [])) := by
  induction es with
  | nil => simp [Expression.drawArguments, drawParts]
  | cons e es ih => simp [Expression.drawArguments, drawParts, draw, ih]

theorem drawProperties_eq (columns : List Char) (ps : List (String × Expression)) :
    Expression.drawProperties columns ps =
      drawParts columns (ps.map fun x => expression (x.1.toList ++ [':', ' ']) x.2) := by
  induction ps with
  | nil => simp [Expression.drawProperties, drawParts]
  | cons x ps ih => simp [Expression.drawProperties, drawParts, draw, ih]

/-- The line of a part comes first, and then its children are drawn. The flags that the printers pass on are right: each
child but the last one is told that there are others after it. -/
theorem draw_children {t : TreePart} (h : ∀ p, t ≠ .program p) (columns : List Char) (last : Bool) :
    t.draw columns last =
      View.line columns last t.label :: drawParts (columns ++ View.column last) t.children := by
  cases t with
  | program p => exact absurd rfl (h p)
  | statement s =>
    cases s <;> simp [label_statement, draw, Statement.draw, children, drawParts, Statement.detail, Statement.kind,
      StatementKind.tag]
  | block role ts =>
    cases ts with
    | nil => simp [label_block, draw, View.block, children, drawParts]
    | cons s ts => simp [label_block, draw, View.block, children, drawAll_eq]
  | expression role e =>
    cases e <;> simp [label_expression, draw, Expression.draw, children, drawParts, drawArguments_eq,
      drawProperties_eq, Expression.detail, Expression.kind, ExpressionKind.tag]

theorem drawParts_eq {columns : List Char} {cs : List TreePart}
    (h : ∀ c ∈ cs, ∀ columns last, c.draw columns last = c.outline.draw columns last) :
    drawParts columns cs = Outline.drawAll columns (cs.map outline) := by
  induction cs with
  | nil => simp [drawParts, Outline.drawAll]
  | cons c cs ih =>
    obtain ⟨hc, hcs⟩ := List.forall_mem_cons.1 h
    rw [drawParts, List.map_cons, Outline.drawAll, List.isEmpty_map, hc, ih hcs]

theorem ne_program_of_mem_children {t c : TreePart} (h : c ∈ t.children) (p : Program) : c ≠ .program p := by
  rintro rfl
  cases t with
  | statement s => cases s <;> simp [children] at h
  | expression role e => cases e <;> simp [children] at h
  | _ => simp [children] at h

/-- **The printers draw the outline** of a part. -/
theorem draw_eq (t : TreePart) (h : ∀ p, t ≠ .program p) (columns : List Char) (last : Bool) :
    t.draw columns last = t.outline.draw columns last := by
  induction t using children_induction generalizing columns last with
  | step t ih =>
    rw [draw_children h, outline_eq, Outline.draw]
    congr 1
    apply drawParts_eq
    intro c hc
    exact ih c hc (ne_program_of_mem_children hc)

end TreePart

/-! ## Places -/

namespace Outline

mutual

/-- the places in an outline, depth first -/
def places : Outline → List (List Nat)
  | .node _ children => [] :: placesFrom 0 children

/-- the places in the children of a node, whose first is counted as `k` -/
def placesFrom (k : Nat) : List Outline → List (List Nat)
  | [] => []
  | o :: rest => (places o).map (k :: ·) ++ placesFrom (k + 1) rest

end

theorem mem_placesFrom {k : Nat} {os : List Outline} {place : List Nat} :
    place ∈ placesFrom k os ↔ ∃ i rest o, place = (k + i) :: rest ∧ os[i]? = some o ∧ rest ∈ o.places := by
  induction os generalizing k with
  | nil => simp [placesFrom]
  | cons o os ih =>
    rw [placesFrom, List.mem_append, List.mem_map, ih]
    constructor
    · intro h
      rcases h with ⟨rest, hrest, rfl⟩ | ⟨i, rest, o', rfl, ho', hrest⟩
      · exact ⟨0, rest, o, rfl, rfl, hrest⟩
      · exact ⟨i + 1, rest, o', by rw [Nat.add_right_comm, Nat.add_assoc], ho', hrest⟩
    · intro h
      obtain ⟨i, rest, o', rfl, ho', hrest⟩ := h
      cases i with
      | zero =>
        cases ho'
        exact Or.inl ⟨rest, hrest, rfl⟩
      | succ i => exact Or.inr ⟨i, rest, o', by rw [Nat.add_right_comm, Nat.add_assoc], ho', hrest⟩

theorem ne_nil_of_mem_placesFrom {k : Nat} {os : List Outline} {place : List Nat} (h : place ∈ placesFrom k os) :
    place ≠ [] := by
  obtain ⟨i, rest, o, rfl, -, -⟩ := mem_placesFrom.1 h
  exact List.cons_ne_nil _ rest

theorem cons_mem_places {i : Nat} {place : List Nat} {title : List Char} {os : List Outline} :
    i :: place ∈ places (.node title os) ↔ ∃ o, os[i]? = some o ∧ place ∈ o.places := by
  rw [places, List.mem_cons, mem_placesFrom]
  simp

mutual

/-- places come in lexicographic order -/
theorem pairwise_places : ∀ o : Outline, o.places.Pairwise (· < ·)
  | .node _ children => by
    rw [places, List.pairwise_cons]
    refine ⟨?_, pairwise_placesFrom 0 children⟩
    intro place hplace
    obtain ⟨i, rest, o, rfl, -, -⟩ := mem_placesFrom.1 hplace
    exact List.nil_lt_cons _ rest

theorem pairwise_placesFrom (k : Nat) : ∀ os : List Outline, (placesFrom k os).Pairwise (· < ·)
  | [] => by
    rw [placesFrom]
    exact .nil
  | o :: os => by
    rw [placesFrom, List.pairwise_append, List.pairwise_map]
    refine ⟨?_, pairwise_placesFrom (k + 1) os, ?_⟩
    · exact (pairwise_places o).imp fun hlt => List.cons_lt_cons_iff.2 (Or.inr ⟨rfl, hlt⟩)
    · intro place hplace place' hplace'
      obtain ⟨rest, -, rfl⟩ := List.mem_map.1 hplace
      obtain ⟨i, rest', o', rfl, -, -⟩ := mem_placesFrom.1 hplace'
      exact List.cons_lt_cons_iff.2 (Or.inl (by omega))

end

end Outline

namespace TreePart

/-- the part at a place -/
def part? : TreePart → List Nat → Option TreePart
  | t, [] => some t
  | t, i :: place => t.children[i]?.bind fun c => c.part? place

/-- there is a sibling after the part at a place -/
def hasLater (t : TreePart) (place : List Nat) : Bool :=
  match place.getLast?, t.part? place.dropLast with
  | some i, some parent => i + 1 < parent.children.length
  | _, _ => false

/-- The line of the part at a place: a column for each part above it, apart from the root, then its branch and its
label. -/
def row (t : TreePart) (place : List Nat) : List Char :=
  ((List.range (place.length - 1)).flatMap fun d =>
    if t.hasLater (place.take (d + 1)) then "│   ".toList else "    ".toList) ++
  (if t.hasLater place then "├── ".toList else "└── ".toList) ++ ((t.part? place).map label).getD []

variable {t c : TreePart} {i : Nat} {place : List Nat}

theorem part?_cons (hc : t.children[i]? = some c) (place : List Nat) : t.part? (i :: place) = c.part? place := by
  rw [part?, hc, Option.bind_some]

/-- the places of an outline are those where a part is -/
theorem mem_places : place ∈ t.outline.places ↔ (t.part? place).isSome := by
  induction place generalizing t with
  | nil =>
    rw [outline_eq, Outline.places]
    exact iff_of_true List.mem_cons_self rfl
  | cons i place ih =>
    rw [outline_eq, Outline.cons_mem_places, part?]
    cases hc : t.children[i]? with
    | none => simp [hc]
    | some c => simp [hc, ih]

/-! ## Lines -/

theorem hasLater_singleton {before after : List TreePart} (h : t.children = before ++ c :: after) :
    t.hasLater [before.length] = !after.isEmpty := by
  have hlater : t.hasLater [before.length] = decide (before.length + 1 < t.children.length) := rfl
  rw [hlater, h]
  cases after <;> simp

theorem hasLater_cons (hc : t.children[i]? = some c) (hplace : place ≠ []) :
    t.hasLater (i :: place) = c.hasLater place := by
  obtain ⟨j, place, rfl⟩ := List.exists_cons_of_ne_nil hplace
  rw [hasLater, hasLater, List.getLast?_cons_cons, List.dropLast_cons_cons, part?_cons hc]

theorem row_singleton (hc : t.children[i]? = some c) :
    t.row [i] = View.branch (!t.hasLater [i]) ++ c.label := by
  rw [row, part?_cons hc]
  cases t.hasLater [i] <;> rfl

theorem row_cons (hc : t.children[i]? = some c) (hplace : place ≠ []) :
    t.row (i :: place) = View.column (!t.hasLater [i]) ++ c.row place := by
  have hcolumn : View.column (!t.hasLater [i]) = if t.hasLater [i] then "│   ".toList else "    ".toList := by
    cases t.hasLater [i] <;> rfl
  have hlater : ∀ d, t.hasLater (i :: place.take (d + 1)) = c.hasLater (place.take (d + 1)) := by
    intro d
    apply hasLater_cons hc
    simpa using hplace
  have hlength : (i :: place).length - 1 = place.length - 1 + 1 := by
    have := List.length_pos_iff.2 hplace
    simp only [List.length_cons]
    omega
  rw [row, row, hlength, List.range_succ_eq_map, List.flatMap_cons, List.flatMap_map, hasLater_cons hc hplace,
    part?_cons hc, hcolumn]
  simp only [Nat.succ_eq_add_one, List.take_succ_cons, List.take_zero, hlater, List.append_assoc]
  rfl

/-- the lines below the part are the rows of the places below it -/
def DrawsRows (t : TreePart) : Prop :=
  ∀ columns, Outline.drawAll columns (t.children.map outline) =
    (Outline.placesFrom 0 (t.children.map outline)).map fun place => columns ++ t.row place

/-- the lines of one child and of what is below it -/
theorem DrawsRows.draw {last : Bool} (h : c.DrawsRows) (hc : t.children[i]? = some c)
    (hlast : t.hasLater [i] = !last) (columns : List Char) :
    Outline.draw columns last c.outline = (c.outline.places.map (i :: ·)).map fun place => columns ++ t.row place := by
  have hbelow : ∀ place ∈ Outline.placesFrom 0 (c.children.map outline),
      columns ++ View.column last ++ c.row place = columns ++ t.row (i :: place) := by
    intro place hplace
    rw [row_cons hc (Outline.ne_nil_of_mem_placesFrom hplace), hlast, Bool.not_not, List.append_assoc]
  have hfirst : View.line columns last c.label = columns ++ t.row [i] := by
    rw [View.line, row_singleton hc, hlast, Bool.not_not, List.append_assoc]
  rw [outline_eq, Outline.draw, Outline.places, h, List.map_congr_left hbelow, hfirst, List.map_map]
  rfl

theorem drawAll_from (columns : List Char) (ih : ∀ c ∈ t.children, c.DrawsRows) (rest before : List TreePart)
    (h : t.children = before ++ rest) :
    Outline.drawAll columns (rest.map outline) =
      (Outline.placesFrom before.length (rest.map outline)).map fun place => columns ++ t.row place := by
  induction rest generalizing before with
  | nil => simp [Outline.drawAll, Outline.placesFrom]
  | cons c rest ihrest =>
    have hc : t.children[before.length]? = some c := by simp [h]
    have hlast : t.hasLater [before.length] = !(rest.map outline).isEmpty := by
      rw [hasLater_singleton h, List.isEmpty_map]
    have htail := ihrest (before ++ [c]) (by rw [h, List.append_assoc, List.singleton_append])
    rw [List.length_append, List.length_singleton] at htail
    rw [List.map_cons, Outline.drawAll, Outline.placesFrom, List.map_append, htail,
      (ih c (List.mem_of_getElem? hc)).draw hc hlast]

/-- **The lines below a part** are the rows of the places below it. -/
theorem drawsRows (t : TreePart) : t.DrawsRows := by
  induction t using children_induction with
  | step t ih =>
    intro columns
    exact drawAll_from columns ih t.children [] rfl

end TreePart

/-! ## Line breaks -/

def Lexeme.key? : Lexeme → Option String
  | .key text => some text
  | _ => none

/-- the keys of all objects in a tree -/
def Program.keys (p : Program) : List String := p.lexemes.filterMap Lexeme.key?

/-- no line break is shown, but perhaps in a literal -/
def Lexeme.Unbroken : Lexeme → Prop
  | .name text => '\n' ∉ text.toList
  | .key text => '\n' ∉ text.toList
  | .literal _ => True

/-- no name and no key in the expression has a line break -/
def Expression.Unbroken (e : Expression) : Prop := ∀ x ∈ e.lexemes, x.Unbroken

/-- no name and no key in the statement has a line break, apart from what is inside its blocks -/
def Statement.Unbroken (s : Statement) : Prop := ∀ x ∈ s.lexemes, x.Unbroken

theorem Statement.Unbroken.bound {s : Statement} (h : s.Unbroken) : ∀ name ∈ s.bound, '\n' ∉ name.toList :=
  fun name hname => h (.name name) (List.mem_append_left _ (List.mem_map_of_mem (Option.mem_toList.2 hname)))

theorem Statement.Unbroken.content {s : Statement} (h : s.Unbroken) : s.content.Unbroken :=
  fun x hx => h x (List.mem_append_right _ hx)

theorem Expression.Unbroken.mono {e x : Expression} (h : e.Unbroken) (hx : x.lexemes ⊆ e.lexemes) :
    x.Unbroken := fun y hy => h y (hx hy)

theorem Statement.walk_subset {s : Statement} {ts : List Statement} (h : s ∈ ts) : s.walk ⊆ walkAll ts := by
  obtain ⟨before, after, rfl⟩ := List.append_of_mem h
  rw [walkAll_append, walkAll]
  intro u hu
  exact List.mem_append_right _ (List.mem_append_left _ hu)

/-- a tree whose names and keys have no line breaks -/
theorem Program.unbroken {p : Program} (hnames : ∀ name ∈ p.names, '\n' ∉ name.toList)
    (hkeys : ∀ key ∈ p.keys, '\n' ∉ key.toList) : ∀ s ∈ p.walk, s.Unbroken := by
  intro s hs x hx
  have hmem : x ∈ p.lexemes := List.mem_flatMap.2 ⟨s, hs, hx⟩
  cases x with
  | name text => exact hnames text (List.mem_filterMap.2 ⟨_, hmem, rfl⟩)
  | key text => exact hkeys text (List.mem_filterMap.2 ⟨_, hmem, rfl⟩)
  | literal value => exact trivial

namespace TreePart

/-- no name, key or role in the part has a line break -/
def Unbroken : TreePart → Prop
  | .program p => ∀ s ∈ p.walk, s.Unbroken
  | .statement s => ∀ u ∈ s.walk, u.Unbroken
  | .block role ts => '\n' ∉ role.toList ∧ ∀ s ∈ walkAll ts, s.Unbroken
  | .expression role e => '\n' ∉ role ∧ e.Unbroken

variable {t c : TreePart} {place : List Nat}

theorem Unbroken.expression_children {role : List Char} {e : Expression} (h : e.Unbroken) :
    ∀ c ∈ (expression role e).children, c.Unbroken := by
  cases e with
  | identifier name => exact List.forall_mem_nil _
  | literal value => exact List.forall_mem_nil _
  | member base property =>
    rw [children, List.forall_mem_singleton]
    exact ⟨List.not_mem_nil, h.mono fun x hx => by simp [hx]⟩
  | binary operator left right =>
    rw [children, List.forall_mem_cons, List.forall_mem_singleton]
    exact ⟨⟨List.not_mem_nil, h.mono fun x hx => by simp [hx]⟩, List.not_mem_nil, h.mono fun x hx => by simp [hx]⟩
  | assignment left right =>
    rw [children, List.forall_mem_cons, List.forall_mem_singleton]
    exact ⟨⟨List.not_mem_nil, h.mono fun x hx => by simp [hx]⟩, List.not_mem_nil, h.mono fun x hx => by simp [hx]⟩
  | asyncCall callee arguments =>
    rw [children, List.forall_mem_cons, List.forall_mem_map]
    refine ⟨⟨by decide, h.mono fun x hx => by simp [hx]⟩, ?_⟩
    intro a ha
    refine ⟨List.not_mem_nil, h.mono ?_⟩
    intro x hx
    rw [Expression.lexemes_asyncCall]
    exact List.mem_append_right _ (List.mem_flatMap.2 ⟨a, ha, hx⟩)
  | object properties =>
    rw [Expression.Unbroken, Expression.lexemes_object, List.forall_mem_append] at h
    rw [children, List.forall_mem_map]
    intro x hx
    have hkey : '\n' ∉ x.1.toList := h.1 (.key x.1) (List.mem_map.2 ⟨x, hx, rfl⟩)
    exact ⟨by simpa using hkey, fun y hy => h.2 y (List.mem_flatMap.2 ⟨x, hx, hy⟩)⟩

theorem Unbroken.of_mem_children (h : t.Unbroken) : ∀ c ∈ t.children, c.Unbroken := by
  cases t with
  | program p =>
    rw [children, List.forall_mem_map]
    intro s hs u hu
    exact h u (walk_subset hs hu)
  | block role ts =>
    rw [children, List.forall_mem_map]
    intro s hs u hu
    exact h.2 u (walk_subset hs hu)
  | expression role e => exact expression_children h.2
  | statement s =>
    rw [Unbroken, walk_eq, List.forall_mem_cons] at h
    obtain ⟨hown, hinside⟩ := h
    have hcontent := hown.content
    cases s with
    | expression value => exact List.forall_mem_singleton.2 ⟨List.not_mem_nil, hcontent⟩
    | declaration name init => exact List.forall_mem_singleton.2 ⟨List.not_mem_nil, hcontent⟩
    | conditional test consequent alternate =>
      rw [inside, List.forall_mem_append] at hinside
      rw [children, List.forall_mem_cons, List.forall_mem_cons, List.forall_mem_singleton]
      exact ⟨⟨by decide, hcontent⟩, ⟨by decide, hinside.1⟩, by decide, hinside.2⟩
    | forEach item iterable body =>
      rw [children, List.forall_mem_cons, List.forall_mem_singleton]
      exact ⟨⟨by decide, hcontent⟩, by decide, hinside⟩
    | ret argument => exact List.forall_mem_singleton.2 ⟨List.not_mem_nil, hcontent⟩

theorem Unbroken.of_part? (h : t.Unbroken) (hc : t.part? place = some c) : c.Unbroken := by
  induction place generalizing t with
  | nil =>
    cases hc
    exact h
  | cons i place ih =>
    obtain ⟨d, hd, hc⟩ := Option.bind_eq_some_iff.1 hc
    exact ih (h.of_mem_children d (List.mem_of_getElem? hd)) hc

theorem Unbroken.newline_not_mem_label (h : t.Unbroken) : '\n' ∉ t.label := by
  cases t with
  | program p =>
    change '\n' ∉ "Program".toList
    decide
  | block role ts =>
    cases ts with
    | nil => simpa [label_block] using h.1
    | cons s ts => simpa [label_block] using h.1
  | statement s =>
    have hbound := (h s (by simp [walk_eq])).bound
    have htag : '\n' ∉ s.kind.tag.toList := by cases s.kind <;> decide
    have hdetail : '\n' ∉ s.detail.toList := by
      cases s with
      | declaration name init => simpa [Statement.detail] using hbound name rfl
      | forEach item iterable body => simpa [Statement.detail] using hbound item rfl
      | _ => exact List.not_mem_nil
    rw [label_statement, List.mem_append, not_or]
    exact ⟨htag, hdetail⟩
  | expression role e =>
    obtain ⟨hrole, he⟩ := h
    have htag : '\n' ∉ e.kind.tag.toList := by cases e.kind <;> decide
    have hdetail : '\n' ∉ e.detail.toList := by
      cases e with
      | identifier name => simpa [Expression.detail, Lexeme.Unbroken] using he (.name name) (by simp)
      | member base property => simpa [Expression.detail, Lexeme.Unbroken] using he (.name property) (by simp)
      | literal value => simpa [Expression.detail] using value.newline_not_mem_compact
      | binary operator left right =>
        have hsymbol : '\n' ∉ operator.symbol.toList := by cases operator <;> decide
        simpa [Expression.detail] using hsymbol
      | assignment left right => simp [Expression.detail]
      | _ => exact List.not_mem_nil
    rw [label_expression, List.mem_append, List.mem_append, not_or, not_or]
    exact ⟨⟨hrole, htag⟩, hdetail⟩

theorem Unbroken.newline_not_mem_row (h : t.Unbroken) : '\n' ∉ t.row place := by
  rw [row, List.mem_append, List.mem_append, List.mem_flatMap, not_or, not_or]
  refine ⟨⟨?_, ?_⟩, ?_⟩
  · rintro ⟨d, -, hmem⟩
    split at hmem <;> revert hmem <;> decide
  · split <;> decide
  · cases hc : t.part? place with
    | none => exact List.not_mem_nil
    | some c => exact (h.of_part? hc).newline_not_mem_label

end TreePart

/-! ## The view -/

namespace Program

/-- the lines of the view after the first are the rows of the places below the root -/
theorem viewLines_eq (p : Program) :
    p.viewLines = "Program".toList ::
      (Outline.placesFrom 0 ((TreePart.program p).children.map TreePart.outline)).map (TreePart.program p).row := by
  have hdraw := fun c hc => TreePart.draw_eq c (TreePart.ne_program_of_mem_children (t := .program p) hc)
  have hrows := (TreePart.program p).drawsRows []
  rw [← TreePart.drawParts_eq hdraw] at hrows
  rw [viewLines, TreePart.drawAll_eq]
  exact congrArg _ hrows

/-- **The tree view.** If no name and no key of a tree has a line break, the view has the line of the tree and then one
line for each of its parts. These come depth first, each with the columns and the branch of its place. -/
theorem view_rows (p : Program) (hnames : ∀ name ∈ p.names, '\n' ∉ name.toList)
    (hkeys : ∀ key ∈ p.keys, '\n' ∉ key.toList) :
    ∃ places : List (List Nat),
      places.Pairwise (· < ·) ∧
      (∀ place, place ∈ places ↔ place ≠ [] ∧ ((TreePart.program p).part? place).isSome) ∧
      p.view.toList.splitOn '\n' = "Program".toList :: places.map (TreePart.program p).row ++ [[]] := by
  set root := TreePart.program p
  have hroot : root.Unbroken := unbroken hnames hkeys
  refine ⟨Outline.placesFrom 0 (root.children.map TreePart.outline), Outline.pairwise_placesFrom 0 _, ?_, ?_⟩
  · intro place
    rw [← TreePart.mem_places, TreePart.outline_eq, Outline.places, List.mem_cons]
    constructor
    · intro hplace
      exact ⟨Outline.ne_nil_of_mem_placesFrom hplace, Or.inr hplace⟩
    · intro hplace
      exact hplace.2.resolve_left hplace.1
  · rw [view, String.toList_ofList, viewLines_eq]
    apply splitOn_rows
    rw [List.forall_mem_cons, List.forall_mem_map]
    exact ⟨by decide, fun place _ => hroot.newline_not_mem_row⟩

/-- a loop around a conditional with an empty block, and a call after it -/
def loopTree : Program :=
  ⟨[.forEach "x" (.identifier "xs") [.conditional (.identifier "x") [] [.ret (.literal .null)]],
    .expression (.asyncCall (.member (.identifier "http") "get") [.object [("url", .literal .null)]])]⟩

theorem view_rows_loopTree :
    (∀ name ∈ loopTree.names, '\n' ∉ name.toList) ∧ (∀ key ∈ loopTree.keys, '\n' ∉ key.toList) ∧
    ∃ places : List (List Nat), places.Pairwise (· < ·) ∧
      (∀ place, place ∈ places ↔ place ≠ [] ∧ ((TreePart.program loopTree).part? place).isSome) ∧
      loopTree.view.toList.splitOn '\n' = "Program".toList :: places.map (TreePart.program loopTree).row ++ [[]] := by
  have hnames : ∀ name ∈ loopTree.names, '\n' ∉ name.toList := by decide
  have hkeys : ∀ key ∈ loopTree.keys, '\n' ∉ key.toList := by decide
  exact ⟨hnames, hkeys, view_rows loopTree hnames hkeys⟩

example : (TreePart.program loopTree).row [0, 1, 0, 1] =
    "│           ├── consequent: BlockStatement (empty)".toList := by
  decide

example : (TreePart.program loopTree).row [1, 0, 1, 0] = "            └── url: Literal: null".toList := by
  decide

end Program

end Flowchart

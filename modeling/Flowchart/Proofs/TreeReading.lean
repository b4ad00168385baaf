/-
Reading back a written tree.

A tree is written with the tag first and the fields in order, and it is read with the members sorted by key. Decoding
gives the tree back. What a literal holds is read as it was written only if its own objects are sorted, and nothing in it
counts as a tag.

- `Expression.decode_sorted`, `Statement.decodeItems_sorted`: written trees are decoded as they were.
- `Expression.unknownTag?_sorted`, `Statement.unknownTagItems?_sorted`: all their tags are known.
- `renderTree_written`: the source text of a written tree is that of the tree.
-/
import Flowchart.Compile
import Flowchart.Proofs.JsonReading
import Flowchart.Proofs.Layout
import Flowchart.Proofs.Outcome
import Mathlib

namespace Flowchart

open ReadError (required)

/-! ## Nodes -/

@[simp] theorem required_some {α : Type} (name : String) (a : α) : required name (some a) = .ok a := rfl

@[simp] theorem Json.text_str (s : String) : (Json.str s).text = .ok s := rfl

@[simp] theorem Operator.decode_symbol (o : Operator) : Operator.decode (.str o.symbol) = .ok o := by
  cases o <;> rfl

theorem sortedMembers_zip (fields : List String) (values : List Json) :
    Json.sortedMembers (fields.zip values) = fields.zip (values.map Json.sorted) := by
  induction fields generalizing values with
  | nil => rfl
  | cons key fields ih =>
    cases values with
    | nil => rfl
    | cons v values => rw [List.zip_cons_cons, Json.sortedMembers, ih, List.map_cons, List.zip_cons_cons]

/-- a written node is read with its members sorted -/
theorem sorted_nodeJson (tag : String) (fields : List String) (values : List Json) :
    (nodeJson tag fields values).sorted = .ofMembers (("type", .str tag) :: fields.zip (values.map Json.sorted)) := by
  have h : (nodeJson tag fields values).sorted =
    .ofMembers (("type", .str tag) :: Json.sortedMembers (fields.zip values)) := rfl
  rw [h, sortedMembers_zip]

namespace Expression

/-- Induction over an expression: a statement about it may use the statements about its parts. -/
theorem induction {motive : Expression → Prop} (identifier : ∀ name, motive (.identifier name))
    (literal : ∀ value, motive (.literal value))
    (member : ∀ base property, motive base → motive (.member base property))
    (binary : ∀ operator left right, motive left → motive right → motive (.binary operator left right))
    (assignment : ∀ left right, motive left → motive right → motive (.assignment left right))
    (asyncCall : ∀ callee arguments, motive callee → (∀ e ∈ arguments, motive e) →
      motive (.asyncCall callee arguments))
    (object : ∀ properties, (∀ p ∈ properties, motive p.2) → motive (.object properties)) (e : Expression) :
    motive e := by
  refine @Expression.rec motive (fun es => ∀ e ∈ es, motive e) (fun ps => ∀ p ∈ ps, motive p.2) (fun p => motive p.2)
    identifier literal member binary assignment asyncCall object ?_ ?_ ?_ ?_ ?_ e
  · simp
  · intro e es he hes
    exact List.forall_mem_cons.2 ⟨he, hes⟩
  · simp
  · intro p ps hp hps
    exact List.forall_mem_cons.2 ⟨hp, hps⟩
  · intro _ _ h
    exact h

theorem sorted_identifier (name : String) :
    (toJson (.identifier name)).sorted = .obj [("name", .str name), ("type", .str "Identifier")] := by
  rw [toJson, node, sorted_nodeJson]
  cbv

theorem sorted_literal (value : Json) :
    (toJson (.literal value)).sorted = .obj [("type", .str "Literal"), ("value", value.sorted)] := by
  rw [toJson, node, sorted_nodeJson]
  cbv

theorem sorted_member (base : Expression) (property : String) :
    (toJson (.member base property)).sorted =
      .obj [("object", base.toJson.sorted), ("property", .str property), ("type", .str "MemberExpression")] := by
  rw [toJson, node, sorted_nodeJson]
  cbv

theorem sorted_binary (operator : Operator) (left right : Expression) :
    (toJson (.binary operator left right)).sorted =
      .obj [("left", left.toJson.sorted), ("operator", .str operator.symbol), ("right", right.toJson.sorted),
        ("type", .str "BinaryExpression")] := by
  rw [toJson, node, sorted_nodeJson]
  cbv

theorem sorted_assignment (left right : Expression) :
    (toJson (.assignment left right)).sorted =
      .obj [("left", left.toJson.sorted), ("right", right.toJson.sorted), ("type", .str "AssignmentExpression")] := by
  rw [toJson, node, sorted_nodeJson]
  cbv

theorem sorted_asyncCall (callee : Expression) (arguments : List Expression) :
    (toJson (.asyncCall callee arguments)).sorted =
      .obj [("arguments", .arr (Json.sortedItems (toJsonAll arguments))), ("callee", callee.toJson.sorted),
        ("type", .str "AsyncCallExpression")] := by
  rw [toJson, node, sorted_nodeJson]
  cbv

theorem sorted_object (properties : List (String × Expression)) :
    (toJson (.object properties)).sorted =
      .obj [("properties", .arr (Json.sortedItems (toJsonProperties properties))),
        ("type", .str "ObjectExpression")] := by
  rw [toJson, node, sorted_nodeJson]
  cbv

theorem sorted_property (key : String) (value : Json) :
    (Json.obj [("key", .str key), ("value", value)]).sorted = .obj [("key", .str key), ("value", value.sorted)] := by
  cbv

mutual

/-- the values of all literals in an expression -/
def literals : Expression → List Json
  | .identifier _ => []
  | .literal value => [value]
  | .member base _ => literals base
  | .binary _ left right => literals left ++ literals right
  | .assignment left right => literals left ++ literals right
  | .asyncCall callee arguments => literals callee ++ literalsAll arguments
  | .object properties => literalsProperties properties

/-- the values of all literals in a list of expressions -/
def literalsAll : List Expression → List Json
  | [] => []
  | e :: rest => literals e ++ literalsAll rest

/-- the values of all literals in the properties of an object -/
def literalsProperties : List (String × Expression) → List Json
  | [] => []
  | (_, e) :: rest => literals e ++ literalsProperties rest

end

/-- in every literal the keys of objects rise from member to member -/
def IsSorted (e : Expression) : Prop := ∀ v ∈ e.literals, v.isSorted

/-- the written expression is decoded as it was -/
def ReadsBack (e : Expression) : Prop := e.IsSorted → decode e.toJson.sorted = .ok e

theorem tagged_tag (k : ExpressionKind) (numbered : Bool) :
    tagged ExpressionKind.all ExpressionKind.tag numbered (.str k.tag) = .ok k := by
  cases k <;> rfl

/-- the tag of an object decides how its members are decoded -/
theorem decode_obj {members : List (String × Json)} (k : ExpressionKind)
    (h : Json.get? "type" members = some (.str k.tag)) :
    decode (.obj members) = decodeMembers k members {} >>= fun parts => parts.build k := by
  rw [decode, h, required, ok_bind, tagged_tag, ok_bind]

theorem decodeItems_sorted {es : List Expression} (h : ∀ e ∈ es, e.ReadsBack) (hes : ∀ v ∈ literalsAll es, v.isSorted) :
    decodeItems (Json.sortedItems (toJsonAll es)) = .ok es := by
  induction es with
  | nil => rfl
  | cons e es ih =>
    obtain ⟨he, hrest⟩ := List.forall_mem_cons.1 h
    obtain ⟨hliterals, hliterals'⟩ := List.forall_mem_append.1 hes
    rw [toJsonAll, Json.sortedItems, decodeItems, he hliterals, ok_bind, ih hrest hliterals']
    rfl

theorem decodePropertyItems_sorted {ps : List (String × Expression)} (h : ∀ p ∈ ps, p.2.ReadsBack)
    (hps : ∀ v ∈ literalsProperties ps, v.isSorted) :
    decodePropertyItems (Json.sortedItems (toJsonProperties ps)) = .ok ps := by
  induction ps with
  | nil => rfl
  | cons p ps ih =>
    obtain ⟨key, e⟩ := p
    obtain ⟨he, hrest⟩ := List.forall_mem_cons.1 h
    obtain ⟨hliterals, hliterals'⟩ := List.forall_mem_append.1 hps
    rw [toJsonProperties, Json.sortedItems, sorted_property, decodePropertyItems, ih hrest hliterals']
    simp [decodePropertyMembers, he hliterals]

/-- **A written expression is decoded as it was.** -/
theorem decode_sorted (e : Expression) : e.ReadsBack := by
  induction e using Expression.induction with
  | identifier name =>
    intro _
    rw [sorted_identifier, decode_obj .identifier rfl]
    simp [decodeMembers, ExpressionKind.fields, Parts.read, Parts.build]
  | literal value =>
    intro h
    rw [sorted_literal, decode_obj .literal rfl, Json.sorted_of_isSorted value (h value (by simp [literals]))]
    simp [decodeMembers, ExpressionKind.fields, Parts.read, Parts.build]
  | member base property ih =>
    intro h
    rw [sorted_member, decode_obj .member rfl]
    simp [decodeMembers, ExpressionKind.fields, Parts.read, Parts.build, ih h]
  | binary operator left right ihl ihr =>
    intro h
    obtain ⟨hl, hr⟩ := List.forall_mem_append.1 h
    rw [sorted_binary, decode_obj .binary rfl]
    simp [decodeMembers, ExpressionKind.fields, Parts.read, Parts.build, ihl hl, ihr hr]
  | assignment left right ihl ihr =>
    intro h
    obtain ⟨hl, hr⟩ := List.forall_mem_append.1 h
    rw [sorted_assignment, decode_obj .assignment rfl]
    simp [decodeMembers, ExpressionKind.fields, Parts.read, Parts.build, ihl hl, ihr hr]
  | asyncCall callee arguments ihc iha =>
    intro h
    obtain ⟨hc, ha⟩ := List.forall_mem_append.1 h
    rw [sorted_asyncCall, decode_obj .asyncCall rfl]
    simp [decodeMembers, ExpressionKind.fields, Parts.read, Parts.build, ihc hc, decodeAll, decodeItems_sorted iha ha]
  | object properties ih =>
    intro h
    rw [sorted_object, decode_obj .object rfl]
    simp [decodeMembers, ExpressionKind.fields, Parts.read, Parts.build, decodeProperties,
      decodePropertyItems_sorted ih h]

/-! ### Tags -/

theorem unknownTagItems?_sorted {es : List Expression} (h : ∀ e ∈ es, e.toJson.sorted.unknownTag? = none) :
    Json.unknownTagItems? (Json.sortedItems (toJsonAll es)) = none := by
  induction es with
  | nil => rfl
  | cons e es ih =>
    obtain ⟨he, hrest⟩ := List.forall_mem_cons.1 h
    rw [toJsonAll, Json.sortedItems, Json.unknownTagItems?, he, ih hrest, Option.none_or]

theorem unknownTagItems?_sorted_properties {ps : List (String × Expression)}
    (h : ∀ p ∈ ps, p.2.toJson.sorted.unknownTag? = none) :
    Json.unknownTagItems? (Json.sortedItems (toJsonProperties ps)) = none := by
  induction ps with
  | nil => rfl
  | cons p ps ih =>
    obtain ⟨key, e⟩ := p
    obtain ⟨he, hrest⟩ := List.forall_mem_cons.1 h
    rw [toJsonProperties, Json.sortedItems, sorted_property, Json.unknownTagItems?, ih hrest]
    simp [Json.unknownTag?, Json.get?, Json.unknownTagMembers?, he]

/-- the tag of a node is known, and only what is no literal is searched further -/
theorem unknownTag?_obj {members : List (String × Json)} (k : ExpressionKind)
    (h : Json.get? "type" members = some (.str k.tag)) :
    Json.unknownTag? (.obj members) = if k = .literal then none else Json.unknownTagMembers? members := by
  rw [Json.unknownTag?, h]
  cases k <;> rfl

/-- **All tags of a written expression are known**, whatever its literals hold. -/
theorem unknownTag?_sorted (e : Expression) : e.toJson.sorted.unknownTag? = none := by
  induction e using Expression.induction with
  | identifier name =>
    rw [sorted_identifier, unknownTag?_obj .identifier rfl]
    rfl
  | literal value =>
    rw [sorted_literal, unknownTag?_obj .literal rfl]
    rfl
  | member base property ih =>
    rw [sorted_member, unknownTag?_obj .member rfl]
    simp [Json.unknownTagMembers?, Json.unknownTag?, ih]
  | binary operator left right ihl ihr =>
    rw [sorted_binary, unknownTag?_obj .binary rfl]
    simp [Json.unknownTagMembers?, Json.unknownTag?, ihl, ihr]
  | assignment left right ihl ihr =>
    rw [sorted_assignment, unknownTag?_obj .assignment rfl]
    simp [Json.unknownTagMembers?, Json.unknownTag?, ihl, ihr]
  | asyncCall callee arguments ihc iha =>
    rw [sorted_asyncCall, unknownTag?_obj .asyncCall rfl]
    simp [Json.unknownTagMembers?, Json.unknownTag?, ihc, unknownTagItems?_sorted iha]
  | object properties ih =>
    rw [sorted_object, unknownTag?_obj .object rfl]
    simp [Json.unknownTagMembers?, Json.unknownTag?, unknownTagItems?_sorted_properties ih]

end Expression

/-! ## Statements -/

namespace Statement

theorem sorted_expression (value : Expression) :
    (toJson (.expression value)).sorted =
      .obj [("expression", value.toJson.sorted), ("type", .str "ExpressionStatement")] := by
  rw [toJson, node, sorted_nodeJson]
  cbv

theorem sorted_declaration (name : String) (init : Expression) :
    (toJson (.declaration name init)).sorted =
      .obj [("init", init.toJson.sorted), ("name", .str name), ("type", .str "VariableDeclaration")] := by
  rw [toJson, node, sorted_nodeJson]
  cbv

theorem sorted_conditional (test : Expression) (consequent alternate : List Statement) :
    (toJson (.conditional test consequent alternate)).sorted =
      .obj [("alternate", (block (toJsonAll alternate)).sorted), ("consequent", (block (toJsonAll consequent)).sorted),
        ("test", test.toJson.sorted), ("type", .str "IfStatement")] := by
  rw [toJson, node, sorted_nodeJson]
  cbv

theorem sorted_forEach (item : String) (iterable : Expression) (body : List Statement) :
    (toJson (.forEach item iterable body)).sorted =
      .obj [("body", (block (toJsonAll body)).sorted), ("iterable", iterable.toJson.sorted),
        ("type", .str "ForEachStatement"), ("variable", .str item)] := by
  rw [toJson, node, sorted_nodeJson]
  cbv

theorem sorted_ret (argument : Expression) :
    (toJson (.ret argument)).sorted =
      .obj [("argument", argument.toJson.sorted), ("type", .str "ReturnStatement")] := by
  rw [toJson, node, sorted_nodeJson]
  cbv

theorem sorted_block (body : List Json) :
    (block body).sorted = .obj [("body", .arr (Json.sortedItems body)), ("type", .str "BlockStatement")] := by
  rw [block, sorted_nodeJson]
  cbv

mutual

/-- the values of all literals in a statement -/
def literals : Statement → List Json
  | .expression value => value.literals
  | .declaration _ init => init.literals
  | .conditional test consequent alternate => test.literals ++ (literalsAll consequent ++ literalsAll alternate)
  | .forEach _ iterable body => iterable.literals ++ literalsAll body
  | .ret argument => argument.literals

/-- the values of all literals in a list of statements -/
def literalsAll : List Statement → List Json
  | [] => []
  | s :: rest => literals s ++ literalsAll rest

end

theorem tagged_tag (k : StatementKind) (numbered : Bool) :
    tagged StatementKind.all StatementKind.tag numbered (.str k.tag) = .ok k := by
  cases k <;> rfl

/-- the tag of an object decides how its members are decoded -/
theorem decode_obj {members : List (String × Json)} (inner : Bool) (k : StatementKind)
    (h : Json.get? "type" members = some (.str k.tag)) :
    decode inner (.obj members) = decodeMembers k members {} >>= fun parts => parts.build k := by
  rw [decode, h, required_some, ok_bind, tagged_tag, ok_bind]

/-- the written statements are decoded as they were, inside another statement or not -/
def ReadBack (ts : List Statement) : Prop :=
  (∀ v ∈ literalsAll ts, v.isSorted) → ∀ inner, decodeItems inner (Json.sortedItems (toJsonAll ts)) = .ok ts

theorem ReadBack.cons {s : Statement} {rest : List Statement} (hrest : ReadBack rest)
    (hs : (∀ v ∈ s.literals, v.isSorted) → ∀ inner, decode inner s.toJson.sorted = .ok s) : ReadBack (s :: rest) := by
  intro h inner
  obtain ⟨hliterals, hliterals'⟩ := List.forall_mem_append.1 h
  rw [toJsonAll, Json.sortedItems, decodeItems, hs hliterals, ok_bind, hrest hliterals']
  rfl

theorem ReadBack.decodeBlock {ts : List Statement} (h : ReadBack ts) (hts : ∀ v ∈ literalsAll ts, v.isSorted) :
    decodeBlock (block (toJsonAll ts)).sorted = .ok ts := by
  rw [sorted_block, Statement.decodeBlock]
  simp [decodeBlockMembers, decodeBody, h hts]

/-- **Written statements are decoded as they were.** -/
theorem decodeItems_sorted (ts : List Statement) : ReadBack ts := by
  induction ts using forest_induction with
  | nil => exact fun _ _ => rfl
  | leaf s rest hs ih =>
    refine ih.cons fun h inner => ?_
    cases s with
    | expression value =>
      rw [sorted_expression, decode_obj inner .expression rfl]
      simp [decodeMembers, StatementKind.fields, Parts.read, Parts.build, value.decode_sorted h]
    | declaration name init =>
      rw [sorted_declaration, decode_obj inner .declaration rfl]
      simp [decodeMembers, StatementKind.fields, Parts.read, Parts.build, init.decode_sorted h]
    | ret argument =>
      rw [sorted_ret, decode_obj inner .ret rfl]
      simp [decodeMembers, StatementKind.fields, Parts.read, Parts.build, argument.decode_sorted h]
    | conditional => cases hs
    | forEach => cases hs
  | conditional test consequent alternate rest ihc iha ih =>
    refine ih.cons fun h inner => ?_
    obtain ⟨ht, hblocks⟩ := List.forall_mem_append.1 h
    obtain ⟨hc, ha⟩ := List.forall_mem_append.1 hblocks
    rw [sorted_conditional, decode_obj inner .conditional rfl]
    simp [decodeMembers, StatementKind.fields, Parts.read, Parts.build, test.decode_sorted ht, ihc.decodeBlock hc,
      iha.decodeBlock ha]
  | forEach item iterable body rest ihb ih =>
    refine ih.cons fun h inner => ?_
    obtain ⟨hi, hb⟩ := List.forall_mem_append.1 h
    rw [sorted_forEach, decode_obj inner .forEach rfl]
    simp [decodeMembers, StatementKind.fields, Parts.read, Parts.build, iterable.decode_sorted hi, ihb.decodeBlock hb]

/-! ### Tags -/

theorem unknownTag?_obj {members : List (String × Json)} (k : StatementKind)
    (h : Json.get? "type" members = some (.str k.tag)) :
    Json.unknownTag? (.obj members) = Json.unknownTagMembers? members := by
  rw [Json.unknownTag?, h]
  cases k <;> rfl

/-- **All tags of written statements are known.** -/
theorem unknownTagItems?_sorted (ts : List Statement) :
    Json.unknownTagItems? (Json.sortedItems (toJsonAll ts)) = none := by
  have hcons : ∀ (s : Statement) rest, s.toJson.sorted.unknownTag? = none →
      Json.unknownTagItems? (Json.sortedItems (toJsonAll rest)) = none →
      Json.unknownTagItems? (Json.sortedItems (toJsonAll (s :: rest))) = none := by
    intro s rest hs hrest
    rw [toJsonAll, Json.sortedItems, Json.unknownTagItems?, hs, hrest, Option.none_or]
  have hblock : ∀ body, Json.unknownTagItems? (Json.sortedItems (toJsonAll body)) = none →
      (block (toJsonAll body)).sorted.unknownTag? = none := by
    intro body hbody
    rw [sorted_block]
    simp [Json.unknownTag?, Json.get?, knownTags, Json.unknownTagMembers?, hbody]
  induction ts using forest_induction with
  | nil => rfl
  | leaf s rest hs ih =>
    refine hcons s rest ?_ ih
    cases s with
    | expression value =>
      rw [sorted_expression, unknownTag?_obj .expression rfl]
      simp [Json.unknownTagMembers?, Json.unknownTag?, value.unknownTag?_sorted]
    | declaration name init =>
      rw [sorted_declaration, unknownTag?_obj .declaration rfl]
      simp [Json.unknownTagMembers?, Json.unknownTag?, init.unknownTag?_sorted]
    | ret argument =>
      rw [sorted_ret, unknownTag?_obj .ret rfl]
      simp [Json.unknownTagMembers?, Json.unknownTag?, argument.unknownTag?_sorted]
    | conditional => cases hs
    | forEach => cases hs
  | conditional test consequent alternate rest ihc iha ih =>
    refine hcons _ rest ?_ ih
    rw [sorted_conditional, unknownTag?_obj .conditional rfl]
    simp [Json.unknownTagMembers?, Json.unknownTag?, test.unknownTag?_sorted, hblock _ ihc, hblock _ iha]
  | forEach item iterable body rest ihb ih =>
    refine hcons _ rest ?_ ih
    rw [sorted_forEach, unknownTag?_obj .forEach rfl]
    simp [Json.unknownTagMembers?, Json.unknownTag?, iterable.unknownTag?_sorted, hblock _ ihb]

end Statement

/-! ## Programs -/

namespace Program

/-- the values of all literals in a program -/
def literals (p : Program) : List Json := Statement.literalsAll p.body

theorem sorted_toJson (p : Program) :
    p.toJson.sorted =
      .obj [("body", .arr (Json.sortedItems (Statement.toJsonAll p.body))), ("type", .str "Program")] := by
  rw [toJson, sorted_nodeJson]
  cbv

theorem decode_sorted {p : Program} (h : ∀ v ∈ p.literals, v.isSorted) : decode p.toJson.sorted = .ok p := by
  rw [sorted_toJson, decode]
  simp [Json.get?, Statement.decodeBody, Statement.decodeItems_sorted p.body h]

theorem unknownTag?_sorted (p : Program) : p.toJson.sorted.unknownTag? = none := by
  rw [sorted_toJson]
  simp [Json.unknownTag?, Json.get?, knownTags, Json.unknownTagMembers?, Statement.unknownTagItems?_sorted]

/-- a text with the tokens of a tree is loaded as that tree, unless it nests too deep -/
theorem load_of_tokens {p : Program} (h : ∀ v ∈ p.literals, v.isSorted) {t : String}
    (ht : Token.tokens t.toList = p.toJson.tokens) :
    load t = if nestingOfText t ≤ depthLimit then .ok p else .error (.tree .malformed) := by
  rw [load, Json.parse?_of_tokens ht]
  by_cases hdepth : nestingOfText t ≤ depthLimit
  · simp [hdepth, unknownTag?_sorted, decode_sorted h]
  · simp [hdepth]

end Program

/-- **A written tree has the source text of the tree.** An object stands for a map, whose one form is that of
`Json.ofMembers`: each key once, in rising order. Let the literals of the tree be in this form. Then its compact and its
pretty text render as the tree does if they nest at most as deep as texts may, and are refused as malformed otherwise. -/
theorem renderTree_written {p : Program} (h : ∀ v ∈ p.literals, v.isSorted) (o : RenderOptions) {t : String}
    (ht : t = p.toJson.toText ∨ t = p.toJson.toPrettyText) :
    (nestingOfText t ≤ depthLimit → renderTree o t = .ok (p.render o)) ∧
      (depthLimit < nestingOfText t → renderTree o t = .error (.tree .malformed)) := by
  have htokens : Token.tokens t.toList = p.toJson.tokens := by
    rcases ht with rfl | rfl
    · exact p.toJson.tokens_toText
    · exact p.toJson.tokens_toPrettyText
  have hload := Program.load_of_tokens h htokens
  constructor
  · intro hdepth
    rw [renderTree, hload, if_pos hdepth]
    rfl
  · intro hdepth
    rw [renderTree, hload, if_neg (Nat.not_le.2 hdepth)]
    rfl

/-- an object with a tag of its own, inside this many arrays -/
def Json.nested : Nat → Json
  | 0 => .obj [("list", .arr []), ("type", .str "Other")]
  | n + 1 => .arr [nested n]

/-- a function that returns a literal -/
def Program.returning (v : Json) : Program := ⟨[.ret (.literal v)]⟩

theorem Json.nesting_nested (n : Nat) : (nested n).nesting = n + 2 := by
  induction n with
  | zero => rfl
  | succ n ih => rw [nested, nesting, nestingItems, nestingItems, ih, Nat.max_zero]

theorem Json.isSorted_nested (n : Nat) : (nested n).isSorted := by
  induction n with
  | zero => decide
  | succ n ih => rw [nested, isSorted, isSortedItems, isSortedItems, ih, Bool.and_true]

theorem Program.isSorted_returning (n : Nat) : ∀ v ∈ (returning (.nested n)).literals, v.isSorted := by
  intro v hv
  simp only [literals, returning, Statement.literalsAll, Statement.literals, Expression.literals, List.append_nil,
    List.mem_singleton] at hv
  rw [hv]
  exact Json.isSorted_nested n

/-- the literal stands inside a node, a statement, the body and the program -/
theorem Program.nesting_returning (v : Json) : (returning v).toJson.nesting = v.nesting + 4 := by
  simp [returning, toJson, Statement.toJsonAll, Statement.toJson, Statement.node, Expression.toJson, Expression.node,
    nodeJson, Json.nesting, Json.nestingItems, Json.nestingMembers, StatementKind.fields, ExpressionKind.fields]

/-- the deepest tree that is read back, and one that is a level deeper -/
theorem renderTree_written_nested :
    (∀ v ∈ (Program.returning (.nested 121)).literals, v.isSorted) ∧
      renderTree ⟨"flow", 2⟩ (Program.returning (.nested 121)).toJson.toPrettyText =
        .ok ((Program.returning (.nested 121)).render ⟨"flow", 2⟩) ∧
      renderTree ⟨"flow", 2⟩ (Program.returning (.nested 122)).toJson.toText = .error (.tree .malformed) := by
  have hnesting : ∀ n t, Token.tokens t.toList = (Program.returning (.nested n)).toJson.tokens →
      nestingOfText t = n + 6 := by
    intro n t ht
    rw [Json.nestingOfText_eq ht, Program.nesting_returning, Json.nesting_nested]
  refine ⟨Program.isSorted_returning 121, ?_, ?_⟩
  · refine (renderTree_written (Program.isSorted_returning 121) _ (Or.inr rfl)).1 ?_
    rw [hnesting 121 _ (Json.tokens_toPrettyText _)]
    decide
  · refine (renderTree_written (Program.isSorted_returning 122) _ (Or.inl rfl)).2 ?_
    rw [hnesting 122 _ (Json.tokens_toText _)]
    decide

end Flowchart

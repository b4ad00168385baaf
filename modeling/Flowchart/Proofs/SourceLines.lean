/-
The lines of source text.

A simple statement takes a line. A conditional takes three lines and a loop two around the lines of what is inside,
which stand one level deeper. The first line of a statement ends with `;` if it is simple and otherwise with an opening
brace, and a block is closed by a line of its own. So the lines of a block are balanced, and the last line of the
function is the first one after which all blocks are closed.

- `Statement.Framed`: the lines of the statements of a block, with their indentation.
- `Statement.framed_linesAll`: the lines that are written are such lines.
- `Balanced.wrap_pos`: between an opening line and its closing line, more blocks are opened than closed.
- `render_lines`: how many lines there are and what they look like, for every tree without line breaks in its names, and
  that compiled trees are such trees.
-/
import Flowchart.Proofs.LineBreaks

namespace Flowchart

open Statement

/-! ## Lines that open and close blocks -/

/-- the line between the blocks of a conditional -/
def turnText : List Char := ['}', ' ', 'e', 'l', 's', 'e', ' ', '{']

namespace Row

/-- the line opens a block -/
def opens (row : List Char) : Bool := row.getLast? = some '{'

/-- the line closes a block, its indentation aside -/
def closes (row : List Char) : Bool := row.dropWhile (· == ' ') ∈ [['}'], turnText]

/-- how many more blocks are open after the line than before -/
def change (row : List Char) : Int := (if opens row then 1 else 0) - (if closes row then 1 else 0)

variable {row : List Char}

/-- a line that closes a block ends with a brace -/
theorem getLast?_of_closes (h : closes row) : row.getLast? = some '}' ∨ row.getLast? = some '{' := by
  have hsuffix : row.dropWhile (· == ' ') <:+ row := List.dropWhile_suffix _
  obtain ⟨before, hrow⟩ := hsuffix
  rw [closes, decide_eq_true_eq, List.mem_pair] at h
  rcases h with h | h
  · rw [h] at hrow
    rw [← hrow, List.getLast?_append_of_ne_nil _ (List.cons_ne_nil _ _)]
    exact Or.inl rfl
  · rw [h] at hrow
    rw [← hrow, List.getLast?_append_of_ne_nil _ (show turnText ≠ [] from List.cons_ne_nil _ _)]
    exact Or.inr rfl

/-- a simple statement neither opens nor closes a block -/
theorem closes_of_semicolon (h : row.getLast? = some ';') : closes row = false := by
  rw [← Bool.not_eq_true]
  intro hcloses
  rcases getLast?_of_closes hcloses with hlast | hlast
  · rw [h] at hlast
    cases hlast
  · rw [h] at hlast
    cases hlast

/-- a line that starts with a letter closes no block -/
theorem closes_cons {c : Char} {s : List Char} (hblank : c ≠ ' ') (hbrace : c ≠ '}') : closes (c :: s) = false := by
  rw [closes, List.dropWhile_cons_of_neg (by simpa using hblank), decide_eq_false_iff_not, List.mem_pair]
  rintro (h | h)
  · exact hbrace (List.cons.inj h).1
  · exact hbrace (List.cons.inj h).1

variable {width depth : Nat}

theorem closes_pad (row : List Char) : closes (pad width depth ++ row) = closes row := by
  have hpad : ∀ c ∈ pad width depth, (c == ' ') = true := by
    intro c hc
    rw [List.eq_of_mem_replicate hc]
    rfl
  rw [closes, List.dropWhile_append_of_pos hpad, closes]

theorem opens_pad (h : row ≠ []) : opens (pad width depth ++ row) = opens row := by
  rw [opens, List.getLast?_append_of_ne_nil _ h, opens]

/-- indentation does not matter -/
theorem change_pad (h : row ≠ []) : change (pad width depth ++ row) = change row := by
  rw [change, opens_pad h, closes_pad, change]

end Row

namespace Statement

/-- the last character of the first line of a statement -/
theorem getLast?_head (s : Statement) : s.head.getLast? = some (if s.isLeaf then ';' else '{') := by
  have happend : ∀ (x : List Char) (c : Char) (y : List Char), (x ++ c :: y).getLast? = (c :: y).getLast? :=
    fun x c y => List.getLast?_append_of_ne_nil x (List.cons_ne_nil c y)
  cases s with
  | expression value => exact happend _ _ _
  | declaration name init => exact happend _ _ _
  | conditional test consequent alternate => exact happend _ _ _
  | forEach item iterable body => exact happend _ _ _
  | ret argument => exact happend _ _ _

theorem head_ne_nil (s : Statement) : s.head ≠ [] := by
  intro hnil
  have hlast := s.getLast?_head
  rw [hnil] at hlast
  cases hlast

/-- no block is closed by the first line of a statement -/
theorem closes_head (s : Statement) : Row.closes s.head = false := by
  by_cases hs : s.isLeaf
  · apply Row.closes_of_semicolon
    rw [s.getLast?_head, if_pos hs]
  · cases s with
    | conditional test consequent alternate => exact Row.closes_cons (c := 'i') (by decide) (by decide)
    | forEach item iterable body => exact Row.closes_cons (c := 'f') (by decide) (by decide)
    | _ => exact absurd rfl hs

/-- the first line of a statement opens a block unless the statement is simple -/
theorem change_head (s : Statement) : Row.change s.head = if s.isLeaf then 0 else 1 := by
  rw [Row.change, closes_head, Row.opens, getLast?_head]
  cases s.isLeaf <;> rfl

end Statement

/-! ## Balanced lines -/

/-- how many more blocks the lines open than they close -/
def balance (rows : List (List Char)) : Int := (rows.map Row.change).sum

@[simp] theorem balance_nil : balance [] = 0 := rfl

@[simp] theorem balance_cons (row : List Char) (rows : List (List Char)) :
    balance (row :: rows) = Row.change row + balance rows := by
  rw [balance, List.map_cons, List.sum_cons, balance]

@[simp] theorem balance_append (rows rows' : List (List Char)) :
    balance (rows ++ rows') = balance rows + balance rows' := by
  rw [balance, List.map_append, List.sum_append, balance, balance]

/-- the lines close the blocks that they open, and no others -/
structure Balanced (rows : List (List Char)) : Prop where
  total : balance rows = 0
  low : ∀ before, before <+: rows → 0 ≤ balance before

namespace Balanced

variable {rows rows' : List (List Char)} {opener row closer : List Char}

theorem nil : Balanced [] := by
  refine ⟨rfl, ?_⟩
  intro before hbefore
  rw [List.prefix_nil.1 hbefore]
  exact le_rfl

theorem append (h : Balanced rows) (h' : Balanced rows') : Balanced (rows ++ rows') := by
  refine ⟨by rw [balance_append, h.total, h'.total, add_zero], ?_⟩
  intro before hbefore
  rcases List.prefix_or_prefix_of_prefix hbefore (List.prefix_append rows rows') with hbefore | ⟨more, rfl⟩
  · exact h.low before hbefore
  · rw [balance_append, h.total, zero_add]
    exact h'.low more ((List.prefix_append_right_inj rows).1 hbefore)

/-- a line that opens as many blocks as it closes -/
theorem cons (hrow : Row.change row = 0) (h : Balanced rows) : Balanced (row :: rows) := by
  refine ⟨by rw [balance_cons, hrow, h.total, add_zero], ?_⟩
  intro before hbefore
  rcases List.prefix_cons_iff.1 hbefore with rfl | ⟨more, rfl, hmore⟩
  · exact le_rfl
  · rw [balance_cons, hrow, zero_add]
    exact h.low more hmore

/-- **Between an opening line and its closing line there are open blocks.** -/
theorem wrap_pos (h : Balanced rows) (hopener : Row.change opener = 1) {before : List (List Char)}
    (hbefore : before <+: opener :: (rows ++ [closer])) (hne : before ≠ [])
    (hne' : before ≠ opener :: (rows ++ [closer])) : 0 < balance before := by
  rcases List.prefix_cons_iff.1 hbefore with rfl | ⟨more, rfl, hmore⟩
  · exact absurd rfl hne
  · rcases List.prefix_concat_iff.1 hmore with rfl | hmore
    · exact absurd rfl hne'
    · have hlow := h.low more hmore
      rw [balance_cons, hopener]
      omega

theorem total_wrap (h : Balanced rows) (hopener : Row.change opener = 1) (hcloser : Row.change closer = -1) :
    balance (opener :: (rows ++ [closer])) = 0 := by
  rw [balance_cons, balance_append, balance_cons, hopener, hcloser, h.total, balance_nil]
  rfl

/-- a block with its opening and its closing line -/
theorem wrap (h : Balanced rows) (hopener : Row.change opener = 1) (hcloser : Row.change closer = -1) :
    Balanced (opener :: (rows ++ [closer])) := by
  refine ⟨h.total_wrap hopener hcloser, ?_⟩
  intro before hbefore
  by_cases hnil : before = []
  · rw [hnil]
    exact le_rfl
  by_cases hall : before = opener :: (rows ++ [closer])
  · rw [hall, h.total_wrap hopener hcloser]
  · exact (h.wrap_pos hopener hbefore hnil hall).le

end Balanced

/-! ## The lines of a block -/

namespace Statement

mutual

/-- the number of lines of a statement -/
def height : Statement → Nat
  | .expression _ => 1
  | .declaration _ _ => 1
  | .conditional _ consequent alternate => 3 + heightAll consequent + heightAll alternate
  | .forEach _ _ body => 2 + heightAll body
  | .ret _ => 1

/-- the number of lines of a list of statements -/
def heightAll : List Statement → Nat
  | [] => 0
  | s :: rest => height s + heightAll rest

end

theorem height_leaf {s : Statement} (hs : s.isLeaf) : s.height = 1 := by
  cases s with
  | conditional test consequent alternate => cases hs
  | forEach item iterable body => cases hs
  | _ => rw [height]

/-- The lines of statements at a depth of nesting. Each starts with the blanks of its depth, and the statements inside
a block stand one level deeper, between the line that opens the block and the line that closes it. -/
inductive Framed (width : Nat) : Nat → List Statement → List (List Char) → Prop
  | nil (depth : Nat) : Framed width depth [] []
  | simple {depth : Nat} {s : Statement} {rest : List Statement} {rows : List (List Char)} (hs : s.isLeaf)
    (hend : s.head.getLast? = some ';') (hrest : Framed width depth rest rows) :
    Framed width depth (s :: rest) ((pad width depth ++ s.head) :: rows)
  | conditional {depth : Nat} {test : Expression} {consequent alternate rest : List Statement}
    {rows first second : List (List Char)}
    (hend : (Statement.conditional test consequent alternate).head.getLast? = some '{')
    (hfirst : Framed width (depth + 1) consequent first) (hsecond : Framed width (depth + 1) alternate second)
    (hrest : Framed width depth rest rows) :
    Framed width depth (.conditional test consequent alternate :: rest)
      ((pad width depth ++ (Statement.conditional test consequent alternate).head) ::
        (first ++ (pad width depth ++ turnText) :: second ++ [pad width depth ++ ['}']]) ++ rows)
  | forEach {depth : Nat} {item : String} {iterable : Expression} {body rest : List Statement}
    {rows inner : List (List Char)} (hend : (Statement.forEach item iterable body).head.getLast? = some '{')
    (hinner : Framed width (depth + 1) body inner) (hrest : Framed width depth rest rows) :
    Framed width depth (.forEach item iterable body :: rest)
      ((pad width depth ++ (Statement.forEach item iterable body).head) ::
        (inner ++ [pad width depth ++ ['}']]) ++ rows)

end Statement

/-- the line with its indentation, without its line break -/
def Line.row (width : Nat) (l : Line) : List Char := pad width l.depth ++ l.text

namespace Statement

/-- **The lines that are written for statements are framed.** -/
theorem framed_linesAll (width depth : Nat) (ts : List Statement) :
    Framed width depth ts ((linesAll depth ts).map (Line.row width)) := by
  induction ts using forest_induction generalizing depth with
  | nil => exact .nil depth
  | leaf s rest hs ih =>
    have hrows : (linesAll depth (s :: rest)).map (Line.row width) =
        (pad width depth ++ s.head) :: (linesAll depth rest).map (Line.row width) := by
      cases s with
      | conditional test consequent alternate => cases hs
      | forEach item iterable body => cases hs
      | _ => rfl
    rw [hrows]
    exact .simple hs (by rw [getLast?_head, if_pos hs]) (ih depth)
  | conditional test consequent alternate rest ihc iha ih =>
    rw [linesAll, lines]
    simp only [List.map_append, List.map_cons, List.map_nil]
    have hend : (Statement.conditional test consequent alternate).head.getLast? = some '{' := getLast?_head _
    exact .conditional hend (ihc _) (iha _) (ih depth)
  | forEach item iterable body rest ihb ih =>
    rw [linesAll, lines]
    simp only [List.map_append, List.map_cons, List.map_nil]
    have hend : (Statement.forEach item iterable body).head.getLast? = some '{' := getLast?_head _
    exact .forEach hend (ihb _) (ih depth)

namespace Framed

variable {width depth : Nat} {ts : List Statement} {rows : List (List Char)}

theorem length_eq (h : Framed width depth ts rows) : rows.length = heightAll ts := by
  induction h with
  | nil depth => rfl
  | simple hs hend hrest ih => rw [List.length_cons, heightAll, height_leaf hs, ih, Nat.add_comm]
  | conditional hend hfirst hsecond hrest ihf ihs ih =>
    simp only [List.length_append, List.length_cons, List.length_nil, heightAll, height, ihf, ihs, ih]
    omega
  | forEach hend hinner hrest ihi ih =>
    simp only [List.length_append, List.length_cons, List.length_nil, heightAll, height, ihi, ih]
    omega

theorem change_closing : Row.change (pad width depth ++ ['}']) = -1 := Row.change_pad (List.cons_ne_nil _ _)

theorem change_turn : Row.change (pad width depth ++ turnText) = 0 := Row.change_pad (List.cons_ne_nil _ _)

theorem change_first (s : Statement) : Row.change (pad width depth ++ s.head) = if s.isLeaf then 0 else 1 := by
  rw [Row.change_pad s.head_ne_nil, s.change_head]

/-- **The lines of a block are balanced.** -/
theorem balanced (h : Framed width depth ts rows) : Balanced rows := by
  induction h with
  | nil depth => exact .nil
  | simple hs hend hrest ih =>
    refine .cons ?_ ih
    rw [change_first, if_pos hs]
  | conditional hend hfirst hsecond hrest ihf ihs ih =>
    exact .append (.wrap (ihf.append (.cons change_turn ihs)) (change_first _) change_closing) ih
  | forEach hend hinner hrest ihi ih => exact (ihi.wrap (change_first _) change_closing).append ih

/-- **The lines that close no block are the first lines of the statements**, in the order of the walk. -/
theorem filter_closes (h : Framed width depth ts rows) :
    List.Forall₂ (fun row s => ∃ depth, row = pad width depth ++ s.head) (rows.filter fun row => !Row.closes row)
      (walkAll ts) := by
  have hfirst : ∀ (depth : Nat) (s : Statement), (!Row.closes (pad width depth ++ s.head)) = true := by
    intro depth s
    rw [Row.closes_pad, s.closes_head]
    rfl
  have hturn : ∀ depth : Nat, (!Row.closes (pad width depth ++ turnText)) = false := by
    intro depth
    rw [Row.closes_pad]
    rfl
  have hclosing : ∀ depth : Nat, (!Row.closes (pad width depth ++ ['}'])) = false := by
    intro depth
    rw [Row.closes_pad]
    rfl
  induction h with
  | nil depth => exact .nil
  | simple hs hend hrest ih =>
    rw [List.filter_cons, if_pos (hfirst _ _), walkAll_cons, inside_leaf hs, List.nil_append]
    exact .cons ⟨_, rfl⟩ ih
  | conditional hend hc ha hrest ihc iha ih =>
    simp only [List.cons_append, List.filter_append, List.filter_cons, hfirst, hturn, hclosing, List.filter_nil,
      List.append_nil, walkAll_cons, inside, if_true, Bool.false_eq_true, if_false]
    exact .cons ⟨_, rfl⟩ (List.rel_append (List.rel_append ihc iha) ih)
  | forEach hend hinner hrest ihi ih =>
    simp only [List.cons_append, List.filter_append, List.filter_cons, hfirst, hclosing, List.filter_nil,
      List.append_nil, walkAll_cons, inside, if_true, Bool.false_eq_true, if_false]
    exact .cons ⟨_, rfl⟩ (List.rel_append ihi ih)

/-- the lines have no line breaks if the first lines of statements have none -/
theorem newline_not_mem (h : Framed width depth ts rows) (hts : ∀ s ∈ walkAll ts, '\n' ∉ s.head) :
    ∀ row ∈ rows, '\n' ∉ row := by
  have hpad : ∀ (depth : Nat) (text : List Char), '\n' ∉ text → '\n' ∉ pad width depth ++ text := by
    intro depth text htext
    rw [List.mem_append, not_or]
    refine ⟨fun hmem => ?_, htext⟩
    exact absurd (List.eq_of_mem_replicate hmem) (by decide)
  have hturn : '\n' ∉ turnText := by decide
  have hclosing : '\n' ∉ ['}'] := by decide
  induction h with
  | nil depth => exact List.forall_mem_nil _
  | simple hs hend hrest ih =>
    rw [walkAll_cons, inside_leaf hs, List.nil_append, List.forall_mem_cons] at hts
    exact List.forall_mem_cons.2 ⟨hpad _ _ hts.1, ih hts.2⟩
  | conditional hend hc ha hrest ihc iha ih =>
    rw [walkAll_cons, inside, List.forall_mem_cons, List.forall_mem_append, List.forall_mem_append] at hts
    obtain ⟨hfirst, ⟨hconsequent, halternate⟩, hnext⟩ := hts
    simp only [List.cons_append, List.forall_mem_cons, List.forall_mem_append]
    exact ⟨hpad _ _ hfirst, ⟨⟨ihc hconsequent, hpad _ _ hturn, iha halternate⟩, hpad _ _ hclosing,
      List.forall_mem_nil _⟩, ih hnext⟩
  | forEach hend hinner hrest ihi ih =>
    rw [walkAll_cons, inside, List.forall_mem_cons, List.forall_mem_append] at hts
    obtain ⟨hfirst, hbody, hnext⟩ := hts
    simp only [List.cons_append, List.forall_mem_cons, List.forall_mem_append]
    exact ⟨hpad _ _ hfirst, ⟨ihi hbody, hpad _ _ hclosing, List.forall_mem_nil _⟩, ih hnext⟩

end Framed

end Statement

/-! ## The lines of the function -/

/-- lines that end with a line break each are joined by line breaks, with nothing after the last -/
theorem intercalate_rows (rows : List (List Char)) :
    ['\n'].intercalate (rows ++ [[]]) = rows.flatMap fun row => row ++ ['\n'] := by
  induction rows with
  | nil => rfl
  | cons row rows ih =>
    rw [List.cons_append, List.intercalate_cons_of_ne_nil (by simp), ih, List.flatMap_cons, List.append_assoc]

/-- lines are found again at the line breaks -/
theorem splitOn_rows {rows : List (List Char)} (h : ∀ row ∈ rows, '\n' ∉ row) :
    (rows.flatMap fun row => row ++ ['\n']).splitOn '\n' = rows ++ [[]] := by
  rw [← intercalate_rows]
  apply List.splitOn_intercalate
  · rw [List.forall_mem_append, List.forall_mem_singleton]
    exact ⟨h, List.not_mem_nil⟩
  · simp

namespace Program

/-- the first line of the function -/
def opening (functionName : String) : List Char :=
  "async function ".toList ++ functionName.toList ++ ['(', ')', ' ', '{']

theorem opening_eq (functionName : String) :
    opening functionName = "async function ".toList ++ functionName.toList ++ ['(', ')', ' ', '{'] := rfl

theorem lines_eq (functionName : String) (p : Program) :
    p.lines functionName = ⟨0, opening functionName⟩ :: (linesAll 1 p.body ++ [⟨0, ['}']⟩]) := rfl

/-- How the source text of a tree is laid out. These are its lines: all of them end with a line break, and nothing
follows the last. Between the first and the last line of the function are the lines of its statements, and the lines
that close no block are the first lines of the statements in the order of the walk. Blocks are open after every line but
the last. -/
structure LaidOut (o : RenderOptions) (p : Program) (rows : List (List Char)) : Prop where
  split : (p.render o).toList.splitOn '\n' = rows ++ [[]]
  length_eq : rows.length = 2 + heightAll p.body
  frame : ∃ inner, rows = opening o.functionName :: (inner ++ [['}']]) ∧ Framed o.indentWidth 1 p.body inner ∧
    List.Forall₂ (fun row s => ∃ depth, row = pad o.indentWidth depth ++ s.head)
      (inner.filter fun row => !Row.closes row) p.walk
  running : ∀ before after, rows = before ++ after → before ≠ [] →
    (after ≠ [] → 0 < balance before) ∧ (after = [] → balance before = 0)

theorem change_opening (functionName : String) : Row.change (opening functionName) = 1 := by
  have hcloses : Row.closes (opening functionName) = false := Row.closes_cons (c := 'a') (by decide) (by decide)
  have hopens : Row.opens (opening functionName) = true := by
    rw [Row.opens, opening_eq, List.getLast?_append_of_ne_nil _ (List.cons_ne_nil _ _)]
    rfl
  rw [Row.change, hcloses, hopens]
  rfl

/-- **The source text of a tree without line breaks in its names.** -/
theorem laidOut (o : RenderOptions) (p : Program) (hfunction : '\n' ∉ o.functionName.toList)
    (hnames : ∀ name ∈ p.names, '\n' ∉ name.toList) :
    p.LaidOut o ((p.lines o.functionName).map (Line.row o.indentWidth)) := by
  have hframed := framed_linesAll o.indentWidth 1 p.body
  set inner := (linesAll 1 p.body).map (Line.row o.indentWidth)
  have hrows : (p.lines o.functionName).map (Line.row o.indentWidth) =
      opening o.functionName :: (inner ++ [['}']]) := by
    have hroot : ∀ text : List Char, Line.row o.indentWidth ⟨0, text⟩ = text := by
      intro text
      simp [Line.row, pad]
    rw [lines_eq, List.map_cons, List.map_append, List.map_singleton, hroot, hroot]
  have hunbroken : ∀ row ∈ opening o.functionName :: (inner ++ [['}']]), '\n' ∉ row := by
    rw [List.forall_mem_cons, List.forall_mem_append, List.forall_mem_singleton]
    refine ⟨by simpa [opening_eq] using hfunction, ?_, by decide⟩
    apply hframed.newline_not_mem
    intro s hs
    apply newline_not_mem_head
    · exact fun name hname => hnames name (mem_names.2 ⟨s, hs, Or.inl hname⟩)
    · exact fun name hname => hnames name (mem_names.2 ⟨s, hs, Or.inr hname⟩)
  have htext : (p.render o).toList =
      (opening o.functionName :: (inner ++ [['}']])).flatMap fun row => row ++ ['\n'] := by
    rw [← hrows, render, String.toList_ofList, List.flatMap_map]
    rfl
  rw [hrows]
  constructor
  · rw [htext, splitOn_rows hunbroken]
  · rw [List.length_cons, List.length_append, hframed.length_eq, List.length_singleton]
    omega
  · exact ⟨inner, rfl, hframed, hframed.filter_closes⟩
  · intro before after heq hne
    have hopening := change_opening o.functionName
    constructor
    · intro hafter
      refine hframed.balanced.wrap_pos hopening ⟨after, heq.symm⟩ hne ?_
      intro hall
      rw [hall, List.self_eq_append_right] at heq
      exact hafter heq
    · rintro rfl
      rw [List.append_nil] at heq
      rw [← heq]
      exact hframed.balanced.total_wrap hopening rfl

end Program

/-- **The lines of source text.** If no name of a tree has a line break, and neither has the name of the function, then
the source text has two lines more than the statements take, laid out by depth. Whatever texts and keys a document
holds, the names of its compiled tree have no line breaks, unless the name of the client has. -/
theorem render_lines :
    (∀ (o : RenderOptions) (p : Program), '\n' ∉ o.functionName.toList → (∀ name ∈ p.names, '\n' ∉ name.toList) →
      ∃ rows, p.LaidOut o rows) ∧
      ∀ (d : Document) (o : Options) (p : Program), '\n' ∉ o.httpClient.toList → (d.build o).outcome = .ok p →
        ∀ name ∈ p.names, '\n' ∉ name.toList := by
  refine ⟨?_, ?_⟩
  · intro o p hfunction hnames
    exact ⟨_, p.laidOut o hfunction hnames⟩
  · intro d o p hclient h
    exact d.newline_not_mem_of_build hclient h

/-- a loop around a conditional that returns a text with a line break -/
def brokenTree : Program :=
  ⟨[.forEach "x" (.identifier "xs") [.conditional (.identifier "x") [.ret (.literal (.str "a\nb"))] []]]⟩

theorem render_lines_brokenTree :
    (∀ name ∈ brokenTree.names, '\n' ∉ name.toList) ∧
      (∃ rows, brokenTree.LaidOut {} rows ∧ rows.length = 8) ∧
      ∀ name ∈ markedTree.names, '\n' ∉ name.toList := by
  have hnames : ∀ name ∈ brokenTree.names, '\n' ∉ name.toList := by decide
  obtain ⟨rows, hrows⟩ := render_lines.1 {} brokenTree (by decide) hnames
  exact ⟨hnames, ⟨rows, hrows, hrows.length_eq⟩, render_lines.2 markedFlow {} markedTree (by decide) build_markedFlow⟩

end Flowchart

/-
Where line breaks cannot stand.

The source text of an expression has no line break, whatever texts, numbers and keys it holds: a line break in a text is
escaped, a key is quoted unless it is a name, and a number has digits and signs only. What is left are the names. A name
that is read from a document holds no blank, and a line break is one.

- `Json.newline_not_mem_compact`: JSON text without blanks is one line.
- `Expression.newline_not_mem_source`: the source text of an expression is one line if its names are.
- `Statement.newline_not_mem_head`: so is the first line of a statement.
- `Document.newline_not_mem_of_build`: the names of a compiled tree have no line breaks.
-/
import Flowchart.Proofs.NamePositions
import Flowchart.Proofs.UniqueSource

namespace Flowchart

open Statement

/-! ## Literals -/

theorem newline_not_mem_of_isDigit {s : List Char} (h : ∀ c ∈ s, c.isDigit) : '\n' ∉ s := by
  intro hmem
  exact absurd (h '\n' hmem) (by decide)

/-- a numeral is one line -/
theorem Numeral.newline_not_mem_written {n : Numeral} (h : n.Proper) : '\n' ∉ n.written := by
  have hwhole : '\n' ∉ n.whole := newline_not_mem_of_isDigit h.whole
  have hfraction : '\n' ∉ fractionText n.fraction := by
    cases hfraction : n.fraction with
    | none => exact List.not_mem_nil
    | some ds => simpa [fractionText] using newline_not_mem_of_isDigit (h.fraction ds hfraction).1
  have hexponent : '\n' ∉ exponentText n.exponent := by
    cases n.exponent with
    | none => exact List.not_mem_nil
    | some e =>
      have hdigits : '\n' ∉ natText e.natAbs := newline_not_mem_of_isDigit isDigit_of_mem_natText
      rw [exponentText, List.mem_cons, List.mem_cons]
      split <;> simpa using hdigits
  have hsign : '\n' ∉ (if n.negative then ['-'] else []) := by split <;> simp
  simp only [written, List.mem_append, not_or]
  exact ⟨⟨⟨hsign, hwhole⟩, hfraction⟩, hexponent⟩

theorem Number.newline_not_mem_text (n : Number) : '\n' ∉ n.text := by
  rw [← n.written_numeral]
  exact Numeral.newline_not_mem_written n.proper_numeral

/-- a character inside a quoted text, a line break included -/
theorem newline_not_mem_escape (c : Char) : '\n' ∉ escape c := by
  have hhex : ∀ n, n < 16 → '\n' ≠ hexDigit n := by
    intro n hn heq
    have hvalue := Quoted.hexValue?_hexDigit hn
    rw [← heq] at hvalue
    cases hvalue
  rcases Quoted.escape_cases c with ⟨e, heq, he⟩ | ⟨hlt, heq⟩ | ⟨-, -, hge, heq⟩
  · rw [heq]
    rintro (_ | ⟨_, _ | ⟨_, ⟨⟩⟩⟩)
    cases he
  · rw [heq]
    simp [hhex _ (show c.toNat / 16 < 16 by omega), hhex _ (show c.toNat % 16 < 16 by omega)]
  · rw [heq, List.mem_singleton]
    rintro rfl
    exact hge (by decide)

theorem newline_not_mem_quote (s : List Char) : '\n' ∉ quote s := by
  have hinside : '\n' ∉ s.flatMap escape := by
    rw [List.mem_flatMap]
    rintro ⟨c, -, hc⟩
    exact newline_not_mem_escape c hc
  simp [quote, hinside]

namespace Json

theorem newline_not_mem_compactItems {items : List Json} (h : ∀ v ∈ items, '\n' ∉ v.compact) :
    '\n' ∉ compactItems items := by
  induction items with
  | nil => exact List.not_mem_nil
  | cons v items ih =>
    obtain ⟨hv, hitems⟩ := List.forall_mem_cons.1 h
    simp [compactItems, hv, ih hitems]

theorem newline_not_mem_compactMembers {members : List (String × Json)} (h : ∀ m ∈ members, '\n' ∉ m.2.compact) :
    '\n' ∉ compactMembers members := by
  induction members with
  | nil => exact List.not_mem_nil
  | cons m members ih =>
    obtain ⟨hm, hmembers⟩ := List.forall_mem_cons.1 h
    simp [compactMembers, newline_not_mem_quote, hm, ih hmembers]

/-- **JSON text without blanks is one line.** -/
theorem newline_not_mem_compact (v : Json) : '\n' ∉ v.compact := by
  induction v using Json.induction with
  | null => decide
  | bool b => cases b <;> decide
  | num n => exact n.newline_not_mem_text
  | str s => exact newline_not_mem_quote s.toList
  | arr items ih =>
    cases items with
    | nil => decide
    | cons v items =>
      obtain ⟨hv, hitems⟩ := List.forall_mem_cons.1 ih
      simp [compact, hv, newline_not_mem_compactItems hitems]
  | obj members ih =>
    cases members with
    | nil => decide
    | cons m members =>
      obtain ⟨hm, hmembers⟩ := List.forall_mem_cons.1 ih
      simp [compact, newline_not_mem_quote, hm, newline_not_mem_compactMembers hmembers]

end Json

/-! ## Source text -/

theorem newline_not_mem_of_isName {s : List Char} (h : Text.isName s) : '\n' ∉ s := by
  intro hmem
  exact absurd (Text.isNamePart_of_isName h '\n' hmem) (by decide)

theorem newline_not_mem_keySource (key : String) : '\n' ∉ keySource key := by
  unfold keySource
  split
  · rename_i hname
    exact newline_not_mem_of_isName hname
  · exact newline_not_mem_quote _

namespace Expression

theorem newline_not_mem_sourceArguments {es : List Expression} (h : ∀ e ∈ es, '\n' ∉ e.source) :
    '\n' ∉ sourceArguments es := by
  induction es with
  | nil => exact List.not_mem_nil
  | cons e es ih =>
    obtain ⟨he, hes⟩ := List.forall_mem_cons.1 h
    simp [sourceArguments, he, ih hes]

theorem newline_not_mem_sourceProperties {ps : List (String × Expression)} (h : ∀ p ∈ ps, '\n' ∉ p.2.source) :
    '\n' ∉ sourceProperties ps := by
  induction ps with
  | nil => exact List.not_mem_nil
  | cons p ps ih =>
    obtain ⟨hp, hps⟩ := List.forall_mem_cons.1 h
    simp [newline_not_mem_keySource, hp, ih hps]

/-- **The source text of an expression is one line if its names are.** -/
theorem newline_not_mem_source (e : Expression) (h : ∀ name ∈ e.names, '\n' ∉ name.toList) : '\n' ∉ e.source := by
  induction e using Expression.induction with
  | identifier name => exact h name (by simp)
  | literal value => exact value.newline_not_mem_compact
  | member base property ih =>
    rw [names_member, List.forall_mem_cons] at h
    have hbase := ih h.2
    rw [source_member]
    split <;> simp [hbase, h.1]
  | binary operator left right ihl ihr =>
    rw [names_binary, List.forall_mem_append] at h
    have hsymbol : '\n' ∉ operator.symbol.toList := by cases operator <;> decide
    simp [ihl h.1, hsymbol, ihr h.2]
  | assignment left right ihl ihr =>
    rw [names_assignment, List.forall_mem_append] at h
    simp [ihl h.1, ihr h.2]
  | asyncCall callee arguments ihc iha =>
    rw [names_asyncCall, List.forall_mem_append] at h
    have hcallee := ihc h.1
    have harguments : ∀ a ∈ arguments, '\n' ∉ a.source := by
      intro a ha
      apply iha a ha
      intro name hname
      exact h.2 name (List.mem_flatMap.2 ⟨a, ha, hname⟩)
    cases arguments with
    | nil => simp [hcallee]
    | cons a arguments =>
      obtain ⟨ha, hrest⟩ := List.forall_mem_cons.1 harguments
      simp [hcallee, ha, newline_not_mem_sourceArguments hrest]
  | object properties ih =>
    rw [names_object] at h
    have hproperties : ∀ p ∈ properties, '\n' ∉ p.2.source := by
      intro p hp
      apply ih p hp
      intro name hname
      exact h name (List.mem_flatMap.2 ⟨p, hp, hname⟩)
    cases properties with
    | nil => decide
    | cons p properties =>
      obtain ⟨hp, hrest⟩ := List.forall_mem_cons.1 hproperties
      simp [newline_not_mem_keySource, hp, newline_not_mem_sourceProperties hrest]

end Expression

/-- the first line of a statement is one line -/
theorem Statement.newline_not_mem_head {s : Statement} (hbound : ∀ name ∈ s.bound, '\n' ∉ name.toList)
    (hnames : ∀ name ∈ s.content.names, '\n' ∉ name.toList) : '\n' ∉ s.head := by
  have hcontent := s.content.newline_not_mem_source hnames
  cases s with
  | expression value => simpa [head_expression, content] using hcontent
  | declaration name init => simpa [head_declaration] using ⟨hbound name rfl, hcontent⟩
  | conditional test consequent alternate => simpa [head_conditional, content] using hcontent
  | forEach item iterable body => simpa [head_forEach] using ⟨hbound item rfl, hcontent⟩
  | ret argument => simpa [head_ret, content] using hcontent

/-! ## Compiled trees -/

namespace Document

variable {d : Document}

/-- **The names of a compiled tree have no line breaks**, if the name of the client has none. -/
theorem newline_not_mem_of_build {o : Options} {p : Program} (hclient : '\n' ∉ o.httpClient.toList)
    (h : (d.build o).outcome = .ok p) : ∀ name ∈ p.names, '\n' ∉ name.toList := by
  intro name hname
  rcases refers_of_mem_names h hname with rfl | hname | hrefers
  · exact hclient
  · exact newline_not_mem_of_isName hname
  · intro hmem
    exact absurd ((isPlainName_of_refers h hrefers).not_blank '\n' hmem) (by decide)

end Document

end Flowchart

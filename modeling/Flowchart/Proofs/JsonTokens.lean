/-
The tokens of written JSON.

A text closes with its tokens when reading it gives these and then the tokens of whatever follows (`Token.Closes`). A
number has no closing mark, so that a value only spells its tokens: what follows must not go on with a numeral
(`Token.Spells`). The compact and the pretty text of a value have the same tokens, since the blanks of the latter stand
between tokens.

- `Quoted.scan?_quote`: a quoted text is read back.
- `Token.Spells.append`: texts are put together if the second does not go on with a numeral.
- `Json.spells_compact`, `Json.spells_pretty`: both texts spell the tokens of the value.
-/
import Flowchart.Json.Token
import Flowchart.Proofs.NumberText

namespace Flowchart

/-! ## Strings -/

namespace Quoted

/-- the piece that an escaped character is read as -/
def piece (c : Char) : Piece := if (escape c).length = 6 then .unit c.toNat else .char c

theorem hexValue?_hexDigit {n : Nat} (h : n < 16) : hexValue? (hexDigit n) = some n := by
  interval_cases n <;> decide

theorem ofNat_of_toNat_eq {c : Char} {n : Nat} (h : c.toNat = n) : Char.ofNat n = c := by
  rw [← h, Char.ofNat_toNat]

theorem scan?_escaped {e c : Char} (h : escaped? e = some c) (s : List Char) :
    scan? ('\\' :: e :: s) = (scan? s).map fun r => (.char c :: r.1, r.2) := by
  rw [scan?]
  · rw [h]
    cases scan? s <;> rfl
  · rintro _ _ _ _ _ rfl
    cases h

theorem scan?_unit {a b c d : Char} {u : Nat} (h : unit? a b c d = some u) (s : List Char) :
    scan? ('\\' :: 'u' :: a :: b :: c :: d :: s) = (scan? s).map fun r => (.unit u :: r.1, r.2) := by
  rw [scan?, h]
  cases scan? s <;> rfl

theorem scan?_plain {c : Char} (hquote : c ≠ '"') (hslash : c ≠ '\\') (h : ¬c.toNat < 32) (s : List Char) :
    scan? (c :: s) = (scan? s).map fun r => (.char c :: r.1, r.2) := by
  rw [scan?]
  · rw [if_neg (by simp [h, hslash])]
    cases scan? s <;> rfl
  · exact hquote
  · exact fun _ _ _ _ _ hc _ => hslash hc
  · exact fun _ _ hc _ => hslash hc

/-- the four hexadecimal digits of a control character -/
theorem unit?_control {n : Nat} (h : n < 32) : unit? '0' '0' (hexDigit (n / 16)) (hexDigit (n % 16)) = some n := by
  have hzero : hexValue? '0' = some 0 := by decide
  simp only [unit?, hzero, hexValue?_hexDigit (show n / 16 < 16 by omega),
    hexValue?_hexDigit (show n % 16 < 16 by omega), Option.some.injEq]
  omega

/-- how a character stands in a quoted text: after a backslash, as four hexadecimal digits, or as it is -/
theorem escape_cases (c : Char) :
    (∃ e, escape c = ['\\', e] ∧ escaped? e = some c) ∨
      (c.toNat < 32 ∧ escape c = ['\\', 'u', '0', '0', hexDigit (c.toNat / 16), hexDigit (c.toNat % 16)]) ∨
      (c ≠ '"' ∧ c ≠ '\\' ∧ ¬c.toNat < 32 ∧ escape c = [c]) := by
  unfold escape
  split
  · exact Or.inl ⟨'"', rfl, by simp_all [escaped?]⟩
  split
  · exact Or.inl ⟨'\\', rfl, by simp_all [escaped?]⟩
  split
  · exact Or.inl ⟨'n', rfl, by simp_all [escaped?]⟩
  split
  · exact Or.inl ⟨'r', rfl, by simp_all [escaped?]⟩
  split
  · exact Or.inl ⟨'t', rfl, by simp_all [escaped?]⟩
  split
  · rename_i h
    exact Or.inl ⟨'b', rfl, congrArg some (ofNat_of_toNat_eq h)⟩
  split
  · rename_i h
    exact Or.inl ⟨'f', rfl, congrArg some (ofNat_of_toNat_eq h)⟩
  split
  · rename_i h
    exact Or.inr (Or.inl ⟨h, rfl⟩)
  · rename_i hquote hslash _ _ _ _ _ h
    exact Or.inr (Or.inr ⟨hquote, hslash, h, rfl⟩)

/-- one character is read as its piece -/
theorem scan?_escape (c : Char) (s : List Char) :
    scan? (escape c ++ s) = (scan? s).map fun r => (piece c :: r.1, r.2) := by
  unfold piece
  rcases escape_cases c with ⟨e, heq, he⟩ | ⟨h, heq⟩ | ⟨hquote, hslash, h, heq⟩
  · rw [heq]
    exact scan?_escaped he s
  · rw [heq]
    exact scan?_unit (unit?_control h) s
  · rw [heq]
    exact scan?_plain hquote hslash h s

/-- a piece is decoded as its character -/
theorem decode?_piece (c : Char) (pieces : List Piece) :
    decode? (piece c :: pieces) = (decode? pieces).map (c :: ·) := by
  unfold piece
  rcases escape_cases c with ⟨e, heq, -⟩ | ⟨h, heq⟩ | ⟨-, -, -, heq⟩
  · rw [heq]
    rfl
  · -- a control character is no half of a pair
    have hlead : isLeading c.toNat = false := by
      simp only [isLeading, Bool.and_eq_false_iff, decide_eq_false_iff_not]
      omega
    have htrail : isTrailing c.toNat = false := by
      simp only [isTrailing, Bool.and_eq_false_iff, decide_eq_false_iff_not]
      omega
    rw [heq]
    match pieces with
    | [] => simp [decode?, hlead, htrail]
    | .char d :: rest => simp [decode?, hlead, htrail]
    | .unit v :: rest => simp [decode?, hlead, htrail]
  · rw [heq]
    rfl

/-- **A quoted text is read back**, whatever follows it. -/
theorem scan?_quote (s rest : List Char) :
    scan? (s.flatMap escape ++ '"' :: rest) = some (s.map piece, rest) ∧ decode? (s.map piece) = some s := by
  induction s with
  | nil => exact ⟨by rw [List.flatMap_nil, List.nil_append, scan?]; rfl, rfl⟩
  | cons c s ih =>
    rw [List.flatMap_cons, List.append_assoc, scan?_escape, ih.1, List.map_cons, decode?_piece, ih.2]
    exact ⟨rfl, rfl⟩

end Quoted

/-! ## Texts that spell tokens -/

namespace Numeral

theorem ends_nil : Ends [] := fun _ hc => nomatch hc

theorem ends_cons {c : Char} (hc : continues c = false) (s : List Char) : Ends (c :: s) := by
  rintro _ ⟨⟩
  exact hc

theorem Ends.append {s rest : List Char} (hs : Ends s) (hrest : Ends rest) : Ends (s ++ rest) := by
  cases s with
  | nil => exact hrest
  | cons c s => exact ends_cons (hs c rfl) _

end Numeral

namespace Token

open Numeral (Ends ends_nil ends_cons)

/-- reading the text gives these tokens and then those of whatever follows -/
def Closes (s : List Char) (ts : List Token) : Prop := ∀ rest, tokens (s ++ rest) = ts ++ tokens rest

/-- reading the text gives these tokens and then those of what follows, if that does not go on with a numeral -/
def Spells (s : List Char) (ts : List Token) : Prop := ∀ rest, Ends rest → tokens (s ++ rest) = ts ++ tokens rest

variable {s s' : List Char} {ts ts' : List Token}

theorem tokens_eq_nil (h : next? s = none) : tokens s = [] := by
  rw [tokens]
  split
  · rfl
  · rename_i hsome
    rw [h] at hsome
    cases hsome

theorem tokens_eq_cons {t : Token} {rest : List Char} (h : next? s = some (t, rest)) :
    tokens s = t :: tokens rest := by
  rw [tokens]
  split
  · rename_i hnone
    rw [h] at hnone
    cases hnone
  · rename_i hsome
    rw [h] at hsome
    cases hsome
    rfl

namespace Closes

theorem nil : Closes [] [] := fun _ => rfl

theorem spells (h : Closes s ts) : Spells s ts := fun rest _ => h rest

theorem append (h : Closes s ts) (h' : Closes s' ts') : Closes (s ++ s') (ts ++ ts') := by
  intro rest
  rw [List.append_assoc, h, h', List.append_assoc]

theorem append_spells (h : Closes s ts) (h' : Spells s' ts') : Spells (s ++ s') (ts ++ ts') := by
  intro rest hrest
  rw [List.append_assoc, h, h' rest hrest, List.append_assoc]

theorem of_next? {t : Token} (h : ∀ rest, next? (s ++ rest) = some (t, rest)) : Closes s [t] :=
  fun rest => tokens_eq_cons (h rest)

theorem gap {c : Char} (hc : isGap c) : Closes [c] [] := by
  intro rest
  have h : next? (c :: rest) = next? rest := by rw [next?, if_pos hc]
  cases hrest : next? rest with
  | none => exact (tokens_eq_nil (h.trans hrest)).trans (tokens_eq_nil hrest).symm
  | some r => exact (tokens_eq_cons (h.trans hrest)).trans (tokens_eq_cons hrest).symm

theorem newline (level : Nat) : Closes (Json.newline level) [] := by
  have hblanks : ∀ n, Closes (List.replicate n ' ') [] := by
    intro n
    induction n with
    | zero => exact nil
    | succ n ih => exact (gap rfl).append ih
  exact (gap rfl).append (hblanks _)

theorem word (c : Char) (mark : String) (t : Token) (hc : ∀ s, next? (c :: s) = some (Token.word mark t s)) :
    Closes (c :: mark.toList) [t] := by
  refine of_next? fun rest => ?_
  rw [List.cons_append, hc, Token.word, Text.after?_append]

theorem quote (k : String) : Closes (Flowchart.quote k.toList) [.str (some k)] := by
  refine of_next? fun rest => ?_
  obtain ⟨hscan, hdecode⟩ := Quoted.scan?_quote k.toList rest
  have hshape : Flowchart.quote k.toList ++ rest = '"' :: (k.toList.flatMap escape ++ '"' :: rest) := by
    simp [Flowchart.quote]
  rw [hshape]
  simp only [next?, read, hscan, hdecode, Option.map_some, String.ofList_toList]
  rfl

end Closes

theorem not_isGap_of_numeral {c : Char} (hc : c = '-' ∨ c.isDigit) : ¬isGap c := by
  intro hgap
  simp only [isGap, Bool.or_eq_true, beq_iff_eq] at hgap
  rcases hgap with ((rfl | rfl) | rfl) | rfl <;> exact absurd hc (by decide)

theorem read_numeral {c : Char} (hc : c = '-' ∨ c.isDigit) (s : List Char) :
    read c s = match Numeral.strict? (c :: s) with
      | some (n, rest) => (num n, rest)
      | none => (bad, []) := by
  unfold read
  split
  case h_11 => exact if_pos hc
  all_goals exact absurd hc (by decide)

namespace Spells

theorem append (h : Spells s ts) (h' : Spells s' ts') (hends : Ends s') : Spells (s ++ s') (ts ++ ts') := by
  intro rest hrest
  rw [List.append_assoc, h _ (hends.append hrest), h' rest hrest, List.append_assoc]

theorem number (n : Number) : Spells n.text [.num n.numeral] := by
  intro rest hrest
  have hstrict := Numeral.strict?_written n.proper_numeral hrest
  obtain ⟨c, s, hwritten, hc⟩ := n.proper_numeral.written_eq_cons
  have hnext : next? (c :: s ++ rest) = some (.num n.numeral, rest) := by
    rw [hwritten] at hstrict
    rw [List.cons_append, next?, if_neg (not_isGap_of_numeral hc), read_numeral hc, ← List.cons_append, hstrict]
  rw [← n.written_numeral, hwritten]
  exact tokens_eq_cons hnext

/-- Texts one after another. `F` and `G` put the texts and tokens of the elements together. -/
theorem list {α : Type} {F : List α → List Char} {G : List α → List Token} {f : α → List Char} {g : α → List Token}
    {l : List α} (hF : F [] = [] ∧ ∀ x l, F (x :: l) = f x ++ F l) (hG : G [] = [] ∧ ∀ x l, G (x :: l) = g x ++ G l)
    (hl : ∀ x ∈ l, Spells (f x) (g x) ∧ Ends (f x)) : Spells (F l) (G l) ∧ Ends (F l) := by
  induction l with
  | nil =>
    rw [hF.1, hG.1]
    exact ⟨Closes.nil.spells, ends_nil⟩
  | cons x l ih =>
    obtain ⟨hx, hends⟩ := hl x List.mem_cons_self
    obtain ⟨hrest, hends'⟩ := ih fun y hy => hl y (List.mem_cons_of_mem x hy)
    rw [hF.2, hG.2]
    exact ⟨hx.append hrest hends', hends.append hends'⟩

/-- An array or object that is not empty: its marks, blanks inside them, what comes first and the rest. -/
theorem bracketed {opening closing : Char} {t t' : Token} {gap gap' : List Char} (hopen : Closes [opening] [t])
    (hclose : Closes [closing] [t']) (hgap : Closes gap []) (hgap' : Closes gap' []) (hends : Ends (gap' ++ [closing]))
    (hfirst : Spells s ts) (hrest : Spells s' ts' ∧ Ends s') :
    Spells (opening :: gap ++ s ++ s' ++ gap' ++ [closing]) (t :: ts ++ ts' ++ [t']) := by
  have hbody := (((hopen.append hgap).append_spells hfirst).append hrest.1 hrest.2).append
    (hgap'.append hclose).spells hends
  rw [← List.append_assoc] at hbody
  exact hbody

end Spells

theorem closes_arrOpen : Closes ['['] [.arrOpen] := .of_next? fun _ => rfl
theorem closes_arrClose : Closes [']'] [.arrClose] := .of_next? fun _ => rfl
theorem closes_objOpen : Closes ['{'] [.objOpen] := .of_next? fun _ => rfl
theorem closes_objClose : Closes ['}'] [.objClose] := .of_next? fun _ => rfl
theorem closes_comma : Closes [','] [.comma] := .of_next? fun _ => rfl
theorem closes_colon : Closes [':'] [.colon] := .of_next? fun _ => rfl

end Token

/-! ## Values -/

namespace Json

/-- Induction over a value: a statement about an array or object may use the statements about what it holds. -/
theorem induction {motive : Json → Prop} (null : motive .null) (bool : ∀ b, motive (.bool b))
    (num : ∀ n, motive (.num n)) (str : ∀ s, motive (.str s))
    (arr : ∀ items, (∀ v ∈ items, motive v) → motive (.arr items))
    (obj : ∀ members, (∀ m ∈ members, motive m.2) → motive (.obj members)) (v : Json) : motive v := by
  refine @Json.rec motive (fun items => ∀ v ∈ items, motive v) (fun members => ∀ m ∈ members, motive m.2)
    (fun m => motive m.2) null bool num str arr obj ?_ ?_ ?_ ?_ ?_ v
  · simp
  · intro v items hv hitems
    exact List.forall_mem_cons.2 ⟨hv, hitems⟩
  · simp
  · intro m members hm hmembers
    exact List.forall_mem_cons.2 ⟨hm, hmembers⟩
  · intro k v hv
    exact hv

mutual

/-- the tokens of a value -/
def tokens : Json → List Token
  | .null => [.null]
  | .bool b => [.bool b]
  | .num n => [.num n.numeral]
  | .str s => [.str (some s)]
  | .arr [] => [.arrOpen, .arrClose]
  | .arr (v :: items) => .arrOpen :: tokens v ++ tokensItems items ++ [.arrClose]
  | .obj [] => [.objOpen, .objClose]
  | .obj ((k, v) :: members) =>
    .objOpen :: .str (some k) :: .colon :: tokens v ++ tokensMembers members ++ [.objClose]

/-- the tokens of the items after the first -/
def tokensItems : List Json → List Token
  | [] => []
  | v :: items => .comma :: tokens v ++ tokensItems items

/-- the tokens of the members after the first -/
def tokensMembers : List (String × Json) → List Token
  | [] => []
  | (k, v) :: members => .comma :: .str (some k) :: .colon :: tokens v ++ tokensMembers members

end

open Token
open Numeral (Ends ends_cons)

theorem closes_null : Closes "null".toList [.null] := Closes.word 'n' "ull" .null fun _ => rfl
theorem closes_true : Closes "true".toList [.bool true] := Closes.word 't' "rue" (.bool true) fun _ => rfl
theorem closes_false : Closes "false".toList [.bool false] := Closes.word 'f' "alse" (.bool false) fun _ => rfl

theorem ends_newline (level : Nat) (s : List Char) : Ends (newline level ++ s) := ends_cons rfl _

/-- **The compact text spells the tokens of the value.** -/
theorem spells_compact (v : Json) : Spells v.compact v.tokens := by
  induction v using Json.induction with
  | null => exact closes_null.spells
  | bool b =>
    cases b with
    | true => exact closes_true.spells
    | false => exact closes_false.spells
  | num n => exact Spells.number n
  | str s => exact (Closes.quote s).spells
  | arr items ih =>
    cases items with
    | nil => exact (closes_arrOpen.append closes_arrClose).spells
    | cons v items =>
      obtain ⟨hv, hitems⟩ := List.forall_mem_cons.1 ih
      have hrest := Spells.list (F := compactItems) (G := tokensItems) (f := fun v => ',' :: compact v)
        (g := fun v => .comma :: tokens v) ⟨rfl, fun _ _ => rfl⟩ ⟨rfl, fun _ _ => rfl⟩
        fun v hv => ⟨closes_comma.append_spells (hitems v hv), ends_cons rfl _⟩
      have h := Spells.bracketed closes_arrOpen closes_arrClose .nil .nil (ends_cons rfl _) hv hrest
      rw [List.append_nil] at h
      exact h
  | obj members ih =>
    cases members with
    | nil => exact (closes_objOpen.append closes_objClose).spells
    | cons m members =>
      have hmember : ∀ x ∈ m :: members,
          Spells (quote x.1.toList ++ ':' :: compact x.2) (.str (some x.1) :: .colon :: tokens x.2) :=
        fun x hx => (Closes.quote x.1).append_spells (closes_colon.append_spells (ih x hx))
      obtain ⟨hm, hmembers⟩ := List.forall_mem_cons.1 hmember
      have hrest := Spells.list (F := compactMembers) (G := tokensMembers)
        (f := fun m => ',' :: (quote m.1.toList ++ ':' :: compact m.2))
        (g := fun m => .comma :: .str (some m.1) :: .colon :: tokens m.2) ⟨rfl, fun _ _ => rfl⟩ ⟨rfl, fun _ _ => rfl⟩
        fun m hm => ⟨closes_comma.append_spells (hmembers m hm), ends_cons rfl _⟩
      have h := Spells.bracketed closes_objOpen closes_objClose .nil .nil (ends_cons rfl _) hm hrest
      rw [List.append_nil] at h
      exact h

/-- **The pretty text spells the tokens of the value**, at every level. -/
theorem spells_pretty (level : Nat) (v : Json) : Spells (v.pretty level) v.tokens := by
  induction v using Json.induction generalizing level with
  | null => exact closes_null.spells
  | bool b =>
    cases b with
    | true => exact closes_true.spells
    | false => exact closes_false.spells
  | num n => exact Spells.number n
  | str s => exact (Closes.quote s).spells
  | arr items ih =>
    cases items with
    | nil => exact (closes_arrOpen.append closes_arrClose).spells
    | cons v items =>
      obtain ⟨hv, hitems⟩ := List.forall_mem_cons.1 ih
      have hrest := Spells.list (F := prettyItems (level + 1)) (G := tokensItems)
        (f := fun v => ',' :: newline (level + 1) ++ pretty (level + 1) v) (g := fun v => .comma :: tokens v)
        ⟨rfl, fun _ _ => rfl⟩ ⟨rfl, fun _ _ => rfl⟩
        fun v hv => ⟨(closes_comma.append (.newline _)).append_spells (hitems v hv _), ends_cons rfl _⟩
      exact .bracketed closes_arrOpen closes_arrClose (.newline _) (.newline _) (ends_newline _ _) (hv _) hrest
  | obj members ih =>
    cases members with
    | nil => exact (closes_objOpen.append closes_objClose).spells
    | cons m members =>
      have hmember : ∀ x ∈ m :: members,
          Spells (quote x.1.toList ++ ':' :: ' ' :: pretty (level + 1) x.2) (.str (some x.1) :: .colon :: tokens x.2) :=
        fun x hx => (Closes.quote x.1).append_spells ((closes_colon.append (.gap rfl)).append_spells (ih x hx _))
      obtain ⟨hm, hmembers⟩ := List.forall_mem_cons.1 hmember
      have hrest := Spells.list (F := prettyMembers (level + 1)) (G := tokensMembers)
        (f := fun m => ',' :: newline (level + 1) ++ quote m.1.toList ++ ':' :: ' ' :: pretty (level + 1) m.2)
        (g := fun m => .comma :: .str (some m.1) :: .colon :: tokens m.2) ⟨rfl, fun _ _ => rfl⟩ ⟨rfl, fun _ _ => rfl⟩
        fun m hm => by
          rw [List.append_assoc]
          exact ⟨(closes_comma.append (.newline _)).append_spells (hmembers m hm), ends_cons rfl _⟩
      have h := Spells.bracketed closes_objOpen closes_objClose (.newline (level + 1)) (.newline level)
        (ends_newline _ _) hm hrest
      rw [← List.append_assoc (_ :: _)] at h
      exact h

end Json

end Flowchart

/-
Calls of services.

A call reads five properties, and each of them can be wrong. The url must be there, the method is a name, the parameters
are a list of entries whose values are read one after the other, and the result is bound to a variable. What is wrong
first is reported: all checks are in one list, and a call fails as the first check of the list that fails.

- `Node.Calls`: what the properties of a call say, and `Node.httpCall_eq_ok`: a call is read as they say.
- `Node.Callable`: which calls can be read.
- `FirstFailure`: the first of several checks that fails, and `Makes.bind`: checks one after the other.
- `Node.Fails`: when a check fails, and with which error.
- `Node.httpCall_checked`: the outcome of reading a call, and the line of its statement.
-/
import Flowchart.Proofs.VariableNames

namespace Flowchart

/-! ## Checks one after the other -/

section Checks

variable {κ ε α β : Type} {fails : κ → ε → Prop} {c : κ} {cs cs' : List κ} {e : ε}

/-- one of the checks fails with this error, and those before it pass -/
def FirstFailure (fails : κ → ε → Prop) (checks : List κ) (e : ε) : Prop :=
  ∃ before c after, checks = before ++ c :: after ∧ (∀ b ∈ before, ∀ e, ¬fails b e) ∧ fails c e

theorem not_firstFailure_nil : ¬FirstFailure fails [] e := by
  rintro ⟨before, c, after, h, -⟩
  exact absurd h (by simp)

theorem firstFailure_cons :
    FirstFailure fails (c :: cs) e ↔ fails c e ∨ (∀ e, ¬fails c e) ∧ FirstFailure fails cs e := by
  constructor
  · rintro ⟨before, c', after, h, hbefore, hc'⟩
    cases before with
    | nil =>
      cases h
      exact Or.inl hc'
    | cons b before =>
      cases h
      obtain ⟨hc, hbefore⟩ := List.forall_mem_cons.1 hbefore
      exact Or.inr ⟨hc, before, c', after, rfl, hbefore, hc'⟩
  · rintro (hc | ⟨hc, before, c', after, rfl, hbefore, hc'⟩)
    · exact ⟨[], c, cs, rfl, List.forall_mem_nil _, hc⟩
    · exact ⟨c :: before, c', after, rfl, List.forall_mem_cons.2 ⟨hc, hbefore⟩, hc'⟩

theorem firstFailure_append :
    FirstFailure fails (cs ++ cs') e ↔
      FirstFailure fails cs e ∨ (∀ c ∈ cs, ∀ e, ¬fails c e) ∧ FirstFailure fails cs' e := by
  induction cs with
  | nil => simp [not_firstFailure_nil]
  | cons c cs ih =>
    rw [List.cons_append, firstFailure_cons, ih, firstFailure_cons, List.forall_mem_cons]
    tauto

/-- if one of the checks fails, there is a first that fails -/
theorem exists_firstFailure (h : ∃ c ∈ cs, ∃ e, fails c e) : ∃ e, FirstFailure fails cs e := by
  induction cs with
  | nil =>
    obtain ⟨c, hc, -⟩ := h
    cases hc
  | cons c cs ih =>
    by_cases hc : ∃ e, fails c e
    · obtain ⟨e, he⟩ := hc
      exact ⟨e, firstFailure_cons.2 (Or.inl he)⟩
    · obtain ⟨c', hc', e', he'⟩ := h
      rcases List.mem_cons.1 hc' with rfl | hc'
      · exact absurd ⟨e', he'⟩ hc
      · obtain ⟨e, he⟩ := ih ⟨c', hc', e', he'⟩
        exact ⟨e, firstFailure_cons.2 (Or.inr ⟨not_exists.1 hc, he⟩)⟩

/-- the computation makes these checks: it fails as the first of them that fails -/
def Makes (fails : κ → ε → Prop) (checks : List κ) (x : Except ε α) : Prop :=
  ∀ e, x = .error e ↔ FirstFailure fails checks e

theorem Makes.ok (a : α) : Makes fails [] (.ok a : Except ε α) := by
  intro e
  constructor
  · intro h
    cases h
  · intro h
    exact absurd h not_firstFailure_nil

theorem Makes.single {x : Except ε α} (h : ∀ e, x = .error e ↔ fails c e) : Makes fails [c] x := by
  intro e
  rw [h e, firstFailure_cons, or_iff_left]
  rintro ⟨-, hnil⟩
  exact not_firstFailure_nil hnil

/-- **Checks one after the other.** -/
theorem Makes.bind {x : Except ε α} {f : α → Except ε β} (hx : Makes fails cs x)
    (hf : ∀ a, x = .ok a → Makes fails cs' (f a)) : Makes fails (cs ++ cs') (x >>= f) := by
  intro e
  rw [firstFailure_append, ← hx e]
  cases x with
  | error e' =>
    rw [error_bind, Except.error.injEq, Except.error.injEq]
    constructor
    · intro h
      exact Or.inl h
    · intro h
      rcases h with h | ⟨hpass, -⟩
      · exact h
      · -- the first computation failed, so one of its checks did
        obtain ⟨before, c, after, rfl, -, hc⟩ := (hx e').1 rfl
        exact absurd hc (hpass c (by simp) e')
  | ok a =>
    have hpass : ∀ c ∈ cs, ∀ e, ¬fails c e := by
      intro c hc e' hfails
      obtain ⟨e'', hfirst⟩ := exists_firstFailure ⟨c, hc, e', hfails⟩
      cases (hx e'').2 hfirst
    rw [ok_bind, hf a rfl e]
    constructor
    · intro h
      exact Or.inr ⟨hpass, h⟩
    · intro h
      rcases h with h | ⟨-, h⟩
      · cases h
      · exact h

end Checks

namespace Node

/-! ## What a call says -/

/-- the method that a property asks for, `get` if it is not there or null -/
inductive AsksFor : Option Json → String → Prop
  | absent : AsksFor none "get"
  | null : AsksFor (some .null) "get"
  | name (s : String) (h : Text.isName (Text.trim s.toList)) :
    AsksFor (some (.str s)) (String.ofList (Text.trim s.toList))

/-- the keys and values that a property lists, none if it is not there or null -/
inductive Lists : Option Json → List (String × Json) → Prop
  | absent : Lists none []
  | null : Lists (some .null) []
  | entries {items : List Json} {pairs : List (String × Json)}
    (h : List.Forall₂ (fun item pair => IsEntry item pair.1 pair.2) items pairs) : Lists (some (.arr items)) pairs

/-- what names the variable for the result; the second property counts only if the first is not there -/
def resultName? (n : Node) : Option Json := (n.property? ["saveAs"]).or (n.property? ["saveResponseAsVariableName"])

/-- What the properties of a call say: its url, its method, the variable for the result, and the keys with their values,
which read as the properties of an object in the same order. -/
structure Calls (n : Node) (url : Json) (method name : String) (pairs : List (String × Json))
    (properties : List (String × Expression)) : Prop where
  url : n.property? ["url"] = some url
  method : AsksFor (n.property? ["method"]) method
  lists : Lists (n.property? ["params"]) pairs
  evaluates : List.Forall₂ Evaluates pairs properties
  name : ∃ r : String, n.resultName? = some (.str r) ∧ Formula.Binds r.toList name.toList

/-- The call can be read: it has a url, its method is a name, its parameters are entries whose values are expressions,
and a variable is named for its result. Method and parameters may be left out or null. -/
structure Callable (n : Node) : Prop where
  url : ∃ v, n.property? ["url"] = some v
  method : ∀ v, n.property? ["method"] = some v →
    v = .null ∨ ∃ s : String, v = .str s ∧ Text.isName (Text.trim s.toList)
  params : ∀ v, n.property? ["params"] = some v → v = .null ∨ ∃ items, v = .arr items ∧
    ∀ item ∈ items, ∃ key value, IsEntry item key value ∧ ∃ e, Formula.ofJson value = .ok e
  name : ∃ (r : String) (x : List Char), n.resultName? = some (.str r) ∧ Formula.Binds r.toList x

/-! ## Reading the properties -/

variable (n : Node)

theorem property?_cons (name : String) (others : List String) :
    n.property? (name :: others) = (n.property? [name]).or (n.property? others) := by
  rw [property?, property?, property?, List.findSome?_cons, List.findSome?_singleton]
  cases Json.get? name n.properties <;> rfl

theorem resultName?_eq : n.resultName? = n.property? ["saveAs", "saveResponseAsVariableName"] :=
  (n.property?_cons "saveAs" ["saveResponseAsVariableName"]).symm

theorem method_eq_ok {method : String} : n.method = .ok method ↔ AsksFor (n.property? ["method"]) method := by
  unfold Node.method
  constructor
  · intro h
    split at h
    · rename_i hv
      cases h
      rw [hv]
      exact .absent
    · rename_i hv
      cases h
      rw [hv]
      exact .null
    · rename_i s hv
      split at h
      · rename_i hname
        cases h
        rw [hv]
        exact .name s hname
      · cases h
    · cases h
  · intro h
    generalize hv : n.property? ["method"] = v at h ⊢
    cases h with
    | absent => rfl
    | null => rfl
    | name s hname => exact if_pos hname

theorem parameters_eq_ok {pairs : List (String × Json)} :
    n.parameters = .ok pairs ↔ Lists (n.property? ["params"]) pairs := by
  have hentries : ∀ items, items.mapM parameter? = some pairs ↔
      List.Forall₂ (fun item pair => IsEntry item pair.1 pair.2) items pairs := by
    intro items
    rw [mapM_eq_some]
    simp only [← parameter?_eq_some]
  unfold parameters
  constructor
  · intro h
    split at h
    · rename_i hv
      cases h
      rw [hv]
      exact .absent
    · rename_i hv
      cases h
      rw [hv]
      exact .null
    · rename_i items hv
      rw [hv]
      split at h
      · rename_i hitems
        cases h
        exact .entries ((hentries items).1 hitems)
      · cases h
    · cases h
  · intro h
    generalize hv : n.property? ["params"] = v at h ⊢
    cases h with
    | absent => rfl
    | null => rfl
    | entries h => simp only [(hentries _).2 h]

/-- **A call is read as its properties say.** -/
theorem httpCall_eq_ok {client : String} {s : Statement} :
    (n.httpCall client).outcome = .ok s ↔
      ∃ url method name pairs properties, n.Calls url method name pairs properties ∧
        s = .declaration name (call client method url properties) := by
  simp only [httpCall, Logged.outcome_bind, Logged.outcome_lift, Logged.outcome_pure, bind_eq_ok, required_eq_ok,
    method_eq_ok, parameters_eq_ok, arguments_eq_ok, variableName_eq_ok, Except.ok.injEq, ← resultName?_eq]
  constructor
  · intro h
    obtain ⟨url, hurl, method, hmethod, pairs, hpairs, properties, hproperties, name, hname, hs⟩ := h
    exact ⟨url, method, name, pairs, properties, ⟨hurl, hmethod, hpairs, hproperties, hname⟩, hs.symm⟩
  · intro h
    obtain ⟨url, method, name, pairs, properties, hcalls, hs⟩ := h
    exact ⟨url, hcalls.url, method, hcalls.method, pairs, hcalls.lists, properties, hcalls.evaluates, name,
      hcalls.name, hs.symm⟩

/-! ## Which calls can be read -/

theorem isMethod_iff {v : Json} :
    isMethod v ↔ v = .null ∨ ∃ s : String, v = .str s ∧ Text.isName (Text.trim s.toList) := by
  cases v <;> simp [isMethod]

theorem areParameters_iff {v : Json} :
    areParameters v ↔ v = .null ∨ ∃ items, v = .arr items ∧
      ∀ item ∈ items, ∃ key value, IsEntry item key value ∧ ∃ e, Formula.ofJson value = .ok e := by
  cases v with
  | arr items =>
    simp only [areParameters, List.all_eq_true, Option.any_eq_true, isOk_iff, Prod.exists, parameter?_eq_some,
      reduceCtorEq, Json.arr.injEq, exists_eq_left', false_or]
  | _ => simp [areParameters]

theorem hasVariable_iff :
    n.hasVariable ["saveAs", "saveResponseAsVariableName"] ↔
      ∃ (r : String) (x : List Char), n.resultName? = some (.str r) ∧ Formula.Binds r.toList x := by
  simp only [hasVariable, ← resultName?_eq, Option.any_eq_true, Option.isSome_iff_exists, Formula.boundName?_eq_some]
  constructor
  · intro h
    obtain ⟨_, hv, x, r, rfl, hx⟩ := h
    exact ⟨r, x.toList, hv, hx⟩
  · intro h
    obtain ⟨r, x, hr, hx⟩ := h
    exact ⟨.str r, hr, String.ofList x, r, rfl, by rwa [String.toList_ofList]⟩

theorem isOk_httpCall_iff {client : String} : (∃ s, (n.httpCall client).outcome = .ok s) ↔ n.Callable := by
  rw [← isOk_iff, isOk_httpCall]
  simp only [Bool.and_eq_true, Option.isSome_iff_exists, Option.all_eq_true, isMethod_iff, areParameters_iff,
    hasVariable_iff]
  constructor
  · intro h
    obtain ⟨⟨⟨hurl, hmethod⟩, hparams⟩, hname⟩ := h
    exact ⟨hurl, hmethod, hparams, hname⟩
  · intro h
    exact ⟨⟨⟨h.url, h.method⟩, h.params⟩, h.name⟩

/-! ## What is wrong with a call -/

/-- what is checked of a call -/
inductive CallCheck where
  | url
  | method
  | params
  | value (pair : String × Json)
  | name

/-- A check of a call fails with this error. -/
inductive Fails (n : Node) : CallCheck → Error → Prop
  | url (h : n.property? ["url"] = none) : Fails n .url (.graph (.missingProperty n.id "url"))
  | method {v : Json} (h : n.property? ["method"] = some v) (hv : ∀ method, ¬AsksFor (some v) method) :
    Fails n .method (.property n.id "method" ⟨v.toText, .notMethod⟩)
  | params {v : Json} (h : n.property? ["params"] = some v) (hv : ∀ pairs, ¬Lists (some v) pairs) :
    Fails n .params (.property n.id "params" ⟨v.toText, .notParameters⟩)
  | value {pair : String × Json} {cause : Unparsable} (h : Formula.ofJson pair.2 = .error cause) :
    Fails n (.value pair) (.property n.id ("params." ++ pair.1) cause)
  | noName (h : n.resultName? = none) : Fails n .name (.graph (.missingProperty n.id "saveAs"))
  | name {v : Json} (h : n.resultName? = some v)
    (hv : ¬∃ (r : String) (x : List Char), v = .str r ∧ Formula.Binds r.toList x) :
    Fails n .name (.property n.id "saveAs" ⟨v.toText, .notVariable⟩)

/-- the keys and values of the parameters, none if they are not well formed -/
def pairs : List (String × Json) := n.parameters.toOption.getD []

/-- the checks of a call in order: url, method, the form of the parameters, their values, the variable for the result -/
def callChecks : List CallCheck := .url :: .method :: .params :: (n.pairs.map CallCheck.value ++ [CallCheck.name])

variable {e : Error}

theorem required_eq_error_iff {name : String} {others : List String} :
    n.required name others = .error e ↔
      n.property? (name :: others) = none ∧ e = .graph (.missingProperty n.id name) := by
  unfold required
  cases n.property? (name :: others) with
  | none => simp [eq_comm]
  | some v => simp

theorem fails_url : n.required "url" [] = .error e ↔ n.Fails .url e := by
  rw [required_eq_error_iff]
  constructor
  · intro h
    obtain ⟨hurl, rfl⟩ := h
    exact .url hurl
  · intro h
    cases h with
    | url h => exact ⟨h, rfl⟩

/-- A reading of a property that refuses what it finds in one way, refuses what does not say what it should. -/
theorem refuses_iff {α : Type} {x : Except Error α} {P : Option Json → α → Prop} {names : List String} {name : String}
    {reason : Reason} (hok : ∀ a, x = .ok a ↔ P (n.property? names) a)
    (hcause : ∀ e, x = .error e → ∃ v, n.property? names = some v ∧ e = .property n.id name ⟨v.toText, reason⟩) :
    x = .error e ↔
      ∃ v, n.property? names = some v ∧ (∀ a, ¬P (some v) a) ∧ e = .property n.id name ⟨v.toText, reason⟩ := by
  constructor
  · intro h
    obtain ⟨v, hv, he⟩ := hcause e h
    refine ⟨v, hv, ?_, he⟩
    intro a ha
    rw [(hok a).2 (hv ▸ ha)] at h
    cases h
  · intro h
    obtain ⟨v, hv, hnot, rfl⟩ := h
    cases hx : x with
    | ok a => exact absurd (hv ▸ (hok a).1 hx) (hnot a)
    | error e =>
      obtain ⟨w, hw, rfl⟩ := hcause e hx
      rw [hv] at hw
      cases hw
      rfl

theorem fails_method : n.method = .error e ↔ n.Fails .method e := by
  have hcause : ∀ e, n.method = .error e →
      ∃ v, n.property? ["method"] = some v ∧ e = .property n.id "method" ⟨v.toText, .notMethod⟩ := by
    intro e h
    unfold Node.method at h
    split at h
    · cases h
    · cases h
    · rename_i s hv
      split at h
      · cases h
      · cases h
        exact ⟨.str s, hv, rfl⟩
    · rename_i v _ _ hv
      cases h
      exact ⟨v, hv, rfl⟩
  rw [n.refuses_iff (fun _ => n.method_eq_ok) hcause]
  constructor
  · intro h
    obtain ⟨v, hv, hnot, rfl⟩ := h
    exact .method hv hnot
  · intro h
    cases h with
    | method hv hnot => exact ⟨_, hv, hnot, rfl⟩

theorem fails_params : n.parameters = .error e ↔ n.Fails .params e := by
  have hcause : ∀ e, n.parameters = .error e →
      ∃ v, n.property? ["params"] = some v ∧ e = .property n.id "params" ⟨v.toText, .notParameters⟩ := by
    intro e h
    unfold parameters at h
    split at h
    · cases h
    · cases h
    · rename_i items hv
      split at h
      · cases h
      · cases h
        exact ⟨.arr items, hv, rfl⟩
    · rename_i v _ _ hv
      cases h
      exact ⟨v, hv, rfl⟩
  rw [n.refuses_iff (fun _ => n.parameters_eq_ok) hcause]
  constructor
  · intro h
    obtain ⟨v, hv, hnot, rfl⟩ := h
    exact .params hv hnot
  · intro h
    cases h with
    | params hv hnot => exact ⟨_, hv, hnot, rfl⟩

theorem fails_value {pair : String × Json} : (n.argument pair).outcome = .error e ↔ n.Fails (.value pair) e := by
  simp only [argument, parsed, Logged.outcome_bind, Logged.outcome_log, Logged.outcome_lift, Logged.outcome_pure,
    ok_bind, bind_eq_error, mapError_eq_error, reduceCtorEq, and_false, exists_false, or_false]
  constructor
  · intro h
    obtain ⟨cause, hcause, rfl⟩ := h
    exact .value hcause
  · intro h
    cases h with
    | value h => exact ⟨_, h, rfl⟩

theorem fails_name : n.variableName "saveAs" ["saveResponseAsVariableName"] = .error e ↔ n.Fails .name e := by
  rw [variableName, bind_eq_error, required_eq_error_iff]
  simp only [required_eq_ok, ← resultName?_eq]
  constructor
  · intro h
    rcases h with ⟨hnone, rfl⟩ | ⟨v, hv, h⟩
    · exact .noName hnone
    · split at h
      · cases h
      · rename_i hbound
        cases h
        apply Fails.name hv
        intro hbinds
        obtain ⟨r, x, hr, hx⟩ := hbinds
        rw [← String.toList_ofList (l := x)] at hx
        rw [Formula.boundName?_eq_some.2 ⟨r, hr, hx⟩] at hbound
        cases hbound
  · intro h
    cases h with
    | noName hnone => exact Or.inl ⟨hnone, rfl⟩
    | name hv hnot =>
      refine Or.inr ⟨_, hv, ?_⟩
      split
      · rename_i x hbound
        obtain ⟨r, hr, hx⟩ := Formula.boundName?_eq_some.1 hbound
        exact absurd ⟨r, x.toList, hr, hx⟩ hnot
      · rfl

/-! ## The order of the checks -/

theorem pairs_of_lists {pairs : List (String × Json)} (h : Lists (n.property? ["params"]) pairs) : n.pairs = pairs := by
  rw [Node.pairs, n.parameters_eq_ok.2 h]
  rfl

/-- the values of parameters are read from the left to the right -/
theorem makes_arguments (pairs : List (String × Json)) :
    Makes n.Fails (pairs.map .value) (pairs.mapM n.argument).outcome := by
  induction pairs with
  | nil => exact .ok []
  | cons pair pairs ih =>
    simp only [List.mapM_cons, Logged.outcome_bind, Logged.outcome_pure]
    apply Makes.bind (.single fun e => n.fails_value)
    intro p _
    rw [← List.append_nil (pairs.map _)]
    apply Makes.bind ih
    intro rest _
    exact .ok (p :: rest)

/-- **A call fails as the first of its checks that fails.** -/
theorem makes_httpCall (client : String) : Makes n.Fails n.callChecks (n.httpCall client).outcome := by
  simp only [callChecks, httpCall, Logged.outcome_bind, Logged.outcome_lift, Logged.outcome_pure]
  apply Makes.bind (.single fun e => n.fails_url)
  intro url _
  apply Makes.bind (.single fun e => n.fails_method)
  intro method _
  apply Makes.bind (.single fun e => n.fails_params)
  intro pairs hpairs
  rw [n.pairs_of_lists (n.parameters_eq_ok.1 hpairs)]
  apply Makes.bind (n.makes_arguments pairs)
  intro properties _
  apply Makes.bind (.single fun e => n.fails_name)
  intro name _
  exact .ok _

end Node

/-! ## The line of a call -/

/-- the source text of a property of an object -/
def propertySource (p : String × Expression) : List Char := keySource p.1 ++ ':' :: ' ' :: p.2.source

/-- the source text of an object: its properties in braces, with commas between them -/
def objectSource : List (String × Expression) → List Char
  | [] => ['{', '}']
  | properties => '{' :: ' ' :: [',', ' '].intercalate (properties.map propertySource) ++ [' ', '}']

theorem intercalate_propertySource (p : String × Expression) (ps : List (String × Expression)) :
    [',', ' '].intercalate ((p :: ps).map propertySource) = propertySource p ++ Expression.sourceProperties ps := by
  induction ps generalizing p with
  | nil => simp [Expression.sourceProperties]
  | cons q ps ih =>
    rw [List.map_cons, List.intercalate_cons_of_ne_nil (by simp), ih q]
    simp [propertySource]

theorem Expression.source_object (properties : List (String × Expression)) :
    (Expression.object properties).source = objectSource properties := by
  cases properties with
  | nil => rfl
  | cons p properties =>
    rw [objectSource, intercalate_propertySource]
    · simp [propertySource]
    · nofun

namespace Node

/-- the source text of a call, up to the object and after it -/
theorem source_call (client method : String) (url : Json) (properties : List (String × Expression)) :
    (call client method url properties).source =
      "(await ".toList ++ (client.toList ++ '.' :: method.toList) ++ '(' :: url.compact ++ ", ".toList ++
        objectSource properties ++ ")).data".toList := by
  rw [← Expression.source_object]
  simp [call, Expression.isGrouped, Expression.sourceArguments]

/-- **The outcome of reading a call.** A call can be read exactly when its url is there, its method is a name, its
parameters are entries whose values are expressions and its result is bound to a variable. Then it is one statement, in
which the url is a literal and the properties of the object are the entries in order. Otherwise the error is that of the
first check that fails. -/
theorem httpCall_checked (n : Node) (o : Options) :
    ((∃ s, (n.httpCall o.httpClient).outcome = .ok s) ↔ n.Callable) ∧
      (∀ s, (n.httpCall o.httpClient).outcome = .ok s →
        ∃ url method name pairs properties, n.Calls url method name pairs properties ∧
          s = .declaration name (call o.httpClient method url properties) ∧
          ∀ depth width, (s.lines depth).flatMap (Line.render width) =
            List.replicate (depth * width) ' ' ++
              ("const ".toList ++ name.toList ++ " = (await ".toList ++ o.httpClient.toList ++ '.' :: method.toList ++
                '(' :: url.compact ++ ", ".toList ++ objectSource properties ++ ")).data;\n".toList)) ∧
      ∀ e, (n.httpCall o.httpClient).outcome = .error e ↔ FirstFailure n.Fails n.callChecks e := by
  refine ⟨n.isOk_httpCall_iff, ?_, n.makes_httpCall o.httpClient⟩
  intro s hs
  obtain ⟨url, method, name, pairs, properties, hcalls, rfl⟩ := n.httpCall_eq_ok.1 hs
  refine ⟨url, method, name, pairs, properties, hcalls, rfl, ?_⟩
  intro depth width
  rw [Statement.lines, source_call]
  simp [Line.render]

/-- a call with a repeated key, whose url looks like a formula -/
def postCall : Node where
  id := "c"
  kind := .httpCall
  properties :=
    [("method", .str " post "),
      ("params", .arr [.obj [("key", .str "k"), ("value", .str "$x")], .arr [.str "k", .null]]),
      ("saveResponseAsVariableName", .str "$r"), ("url", .str "$u + 1")]

/-- the statement of `postCall` -/
def postStatement : Statement :=
  .declaration "r" (call "axios" "post" (.str "$u + 1") [("k", .identifier "x"), ("k", .literal .null)])

theorem httpCall_postCall : (postCall.httpCall "axios").outcome = .ok postStatement := by cbv

/-- a call with an operand too few and no variable for its result -/
def faultyCall : Node where
  id := "c"
  kind := .httpCall
  properties := [("params", .arr [.arr [.str "k", .str "a +"]]), ("url", .null)]

theorem httpCall_checked_postCall :
    (postCall.httpCall "axios").outcome = .ok postStatement ∧ postCall.Callable ∧
      (∃ url method name pairs properties, postCall.Calls url method name pairs properties ∧
        postStatement = .declaration name (call "axios" method url properties)) ∧
      (faultyCall.httpCall "axios").outcome = .error (.property "c" "params.k" ⟨"a +", .missingOperand .add⟩) := by
  obtain ⟨hcallable, hcalls, -⟩ := httpCall_checked postCall {}
  obtain ⟨url, method, name, pairs, properties, h, hs, -⟩ := hcalls postStatement httpCall_postCall
  refine ⟨httpCall_postCall, hcallable.1 ⟨_, httpCall_postCall⟩, ⟨url, method, name, pairs, properties, h, hs⟩, ?_⟩
  apply ((httpCall_checked faultyCall {}).2.2 _).2
  refine ⟨[.url, .method, .params], .value ("k", .str "a +"), [.name], by cbv, ?_, ?_⟩
  · simp only [List.forall_mem_cons]
    refine ⟨?_, ?_, ?_, List.forall_mem_nil _⟩
    · intro e h
      cases h with
      | url h => cases h
    · intro e h
      cases h with
      | method hv _ => cases hv
    · intro e h
      cases h with
      | params hv hnot =>
        cases hv
        exact hnot [("k", .str "a +")] (.entries (.cons (.pair "k" (.str "a +")) .nil))
  · have hcause : Formula.ofJson (.str "a +") = .error ⟨"a +", .missingOperand .add⟩ := by cbv
    exact .value hcause

end Node

end Flowchart

import Mathlib.Data.List.Perm.Basic
import Knowrob.Queries.TimeIntervals

/-!
# The agent and confidence options of `B` and `K`

What `QueryParser::parse` makes of `B[...] φ` and `K[...] φ`. The `options` rule reads a list of
constants (atoms, double-quoted strings, numbers) and `key=constant` entries with an atom as key,
with no space inside. An atom is a lower-case identifier, a single-quoted text or an IRI `ns:name`,
which `createIRI` expands, or rejects, while the list is read. After the body, `createB` or
`createK` walks the options in order.

The specification (`beliefOf`, `knowledgeOf`): `B` accepts an option list when every entry
supplies the agent (a string, or a string under the key `agent` or `a`) or the confidence (a
number, or a number under `confidence` or `c`), at most one of each, and is then `B` of that agent,
`self` read as no agent, and that confidence; `K` takes the agent only. `createB_toOption` and
`createK_toOption`: the loops accept exactly these lists and build exactly these operators, and
every error they raise names one of the options. By `beliefOf_perm` and `knowledgeOf_perm`,
whether an option list is accepted, and the operator, do not depend on the order of the options;
the error names the first option the loop rejects, which does.

`parse_belief_knowledge`: over a body that the body rule `unary | brackets` reads, the query
`B[...] φ` or `K[...] φ` succeeds exactly as the specification says, and otherwise raises the
unrecognized-option error for one of its options, in every order of the options.
-/

namespace Knowrob

open Parser Formula

namespace QueryParser

/-! ### Option lists with quoted and IRI atoms -/

/-- The entity of an IRI: single-quoted text or an identifier. -/
inductive IriEntity where
  | quoted (s : String) (hne : s.data ≠ []) (hq : '\'' ∉ s.data)
  | ident (name : String) (h : isIdent Char.isAlpha name.data)

/-- The text of an atom, as `atomRaw` reads it. -/
inductive AtomText where
  /-- `singleQuotes`. -/
  | quoted (s : String) (hne : s.data ≠ []) (hq : '\'' ∉ s.data)
  /-- `iri`: a namespace, a colon and an entity. -/
  | iri (ns : String) (hns : isIdent Char.isAlpha ns.data) (entity : IriEntity)
  /-- `lowerPrefix`. -/
  | lower (name : String) (h : isIdent Char.isLower name.data)

/-- A constant of an option list. -/
inductive OptionConstant where
  | atom (a : AtomText)
  /-- A string in double quotes. -/
  | string (s : String) (hne : s.data ≠ []) (hq : '"' ∉ s.data)
  | number (n : ConstantNumber)

/-- An entry of an option list: a constant, or an atom as key and a constant. -/
inductive OptionItem where
  | positional (value : OptionConstant)
  | keyed (key : AtomText) (value : OptionConstant)

namespace IriEntity

def render : IriEntity → List Char
  | quoted s _ _ => '\'' :: (s.data ++ ['\''])
  | ident name _ => name.data

/-- The name `iri_entity` reads. -/
def name : IriEntity → String
  | quoted s _ _ => s
  | ident name _ => name

end IriEntity

namespace AtomText

def render : AtomText → List Char
  | quoted s _ _ => '\'' :: (s.data ++ ['\''])
  | iri ns _ e => ns.data ++ ':' :: e.render
  | lower name _ => name.data

/-- The string `atomRaw` reads, or the error `createIRI` throws. -/
def read (registry : PrefixRegistry) : AtomText → Except QueryError String
  | quoted s _ _ => .ok s
  | iri ns _ e => createIRI registry ns e.name
  | lower name _ => .ok name

end AtomText

namespace OptionConstant

def render : OptionConstant → List Char
  | atom a => a.render
  | string s _ _ => '"' :: (s.data ++ ['"'])
  | number n => n.literal.render

/-- The term `constant` reads, or the error it throws. -/
def read (registry : PrefixRegistry) : OptionConstant → Except QueryError Term
  | atom a => Term.string <$> a.read registry
  | string s _ _ => .ok (.string s)
  | number n => .ok (.double n.literal.value)

end OptionConstant

namespace OptionItem

def render : OptionItem → List Char
  | positional v => v.render
  | keyed key v => key.render ++ '=' :: v.render

/-- The term `option` reads, a keyed entry being the predicate `=(key, value)`, or the error it
throws. -/
def read (registry : PrefixRegistry) : OptionItem → Except QueryError Term
  | positional v => v.read registry
  | keyed key v => do
    let k ← key.read registry
    let value ← v.read registry
    pure (.predicate "=" [.string k, value])

end OptionItem

def itemsText (es : List OptionItem) : List Char :=
  '[' :: (joinWith ',' (es.map OptionItem.render) ++ [']'])

theorem length_le_itemsText (es : List OptionItem) : es.length ≤ (itemsText es).length := by
  have := length_le_joinWith (es.map OptionItem.render)
  simp only [itemsText, List.length_cons, List.length_append, List.length_map] at this ⊢
  omega

/-! ### Reading an option list -/

section Reading

variable {registry : PrefixRegistry}

theorem iriEntity_reads (e : IriEntity) {u : List Char} (hu : EndsIdent u) :
    iriEntity (e.render ++ u) = .ok e.name u := by
  cases e with
  | quoted s hne hq =>
    simp [iriEntity, singleQuotes, IriEntity.render, IriEntity.name, quoted_reads hne hq]
  | ident name h =>
    simp [iriEntity, IriEntity.render, IriEntity.name, singleQuotes_fail_of_ident (fun _ => id) h,
      identifier_append h hu]

/-- An atom followed by a character that cannot extend it reads to its string, or to the error of
`createIRI`. -/
theorem atomRaw_reads (a : AtomText) {u : List Char} (hu : EndsIdent u)
    (hcolon : ∀ c ∈ u.head?, c ≠ ':') :
    atomRaw registry (a.render ++ u) = ofExcept (a.read registry) u := by
  cases a with
  | quoted s hne hq =>
    simp [atomRaw, singleQuotes, AtomText.render, AtomText.read, quoted_reads hne hq]
  | iri ns hns e =>
    have hns' : EndsIdent (':' :: (e.render ++ u)) := by simp [EndsIdent]; decide
    cases h : createIRI registry ns e.name <;>
    simp [atomRaw, AtomText.render, AtomText.read, singleQuotes_fail_of_ident (fun _ => id) hns,
      iri, iriNs, identifier_append hns hns', iriEntity_reads e hu, h]
  | lower name h => simp [AtomText.render, AtomText.read, atomRaw_lower h hu hcolon]

theorem optionConstant_reads (c : OptionConstant) {u : List Char} (hu : EntryFollows u) :
    constant registry (c.render ++ u) = ofExcept (c.read registry) u := by
  cases c with
  | atom a =>
    cases h : a.read registry <;>
    simp [constant, atom, OptionConstant.render, OptionConstant.read,
      atomRaw_reads a hu.endsIdent hu.ne_colon, h]
  | string s hne hq => exact constant_reads (.string s hne hq) hu
  | number n => exact constant_reads (.number n) hu

theorem optionItem_reads (x : OptionItem) {u : List Char} (hu : EntryFollows u) :
    option registry (x.render ++ u) = ofExcept (x.read registry) u := by
  cases x with
  | positional c =>
    cases c with
    | atom a =>
      cases h : a.read registry <;>
      simp [option, keyvalue, constant, atom, OptionItem.render, OptionItem.read,
        OptionConstant.render, OptionConstant.read, atomRaw_reads a hu.endsIdent hu.ne_colon, h,
        char_fail hu.ne_eq]
    | string s hne hq => exact option_reads (.positional (.string s hne hq)) hu
    | number n => exact option_reads (.positional (.number n)) hu
  | keyed key c =>
    have hkey : atomRaw registry (key.render ++ '=' :: (c.render ++ u)) =
        ofExcept (key.read registry) ('=' :: (c.render ++ u)) :=
      atomRaw_reads key (by simp [EndsIdent]; decide) (by simp)
    cases hk : key.read registry <;> cases hc : c.read registry <;>
    simp [option, keyvalue, atom, OptionItem.render, OptionItem.read, hkey, hk,
      optionConstant_reads c hu, hc]

/-- `p % sep` over the texts of `xs`, each of which `p` reads to a value or an error, whether a
separator or the text after the list follows it: the values, or the first error. -/
theorem sepBy_joinWith_except {α β γ : Type} {p : Parser α} {sep : Parser β} {c : Char}
    {r : γ → List Char} {f : γ → Except QueryError α} {rest : List Char}
    (hsep : ∀ u, ∃ b, sep (c :: u) = .ok b u) (hend : sep rest = .fail) :
    ∀ (xs : List γ),
      (∀ x ∈ xs, ∀ u, (u = rest ∨ ∃ u', u = c :: u') → p (r x ++ u) = ofExcept (f x) u) →
      xs ≠ [] → ∀ n, xs.length ≤ n →
        sepBy p sep n (joinWith c (xs.map r) ++ rest) = ofExcept (xs.mapM f) rest
  | [], _, h, _, _ => absurd rfl h
  | [x], hp, _, n + 1, _ => by
    have hx := hp x (by simp) rest (.inl rfl)
    cases hf : f x <;> simp [sepBy, hx, hf, hend, -List.mapM]
  | x :: y :: xs, hp, _, n + 1, hn => by
    obtain ⟨b, hb⟩ := hsep (joinWith c (r y :: xs.map r) ++ rest)
    have htail := sepBy_joinWith_except hsep hend (y :: xs) (fun z hz => hp z (by simp [hz]))
      (List.cons_ne_nil _ _) n (by simpa using hn)
    have hx := hp x (by simp) (c :: (joinWith c (r y :: xs.map r) ++ rest)) (.inr ⟨_, rfl⟩)
    simp only [List.map_cons] at htail ⊢
    rw [joinWith_cons_cons, List.append_assoc, List.cons_append, List.mapM_cons]
    cases hf : f x with
    | error e => simp [sepBy, hx, hf, -List.mapM]
    | ok a =>
      cases hys : (y :: xs).mapM f <;> rw [hys] at htail <;>
      simp [sepBy, hx, hf, hb, htail, hys, -List.mapM, -List.mapM_cons]

theorem items_reads {es : List OptionItem} (hes : es ≠ []) (rest : List Char) {n : Nat}
    (hn : es.length ≤ n) :
    options registry n (itemsText es ++ rest) =
      ofExcept (Term.list <$> es.mapM (·.read registry)) rest := by
  have h : sepBy (option registry) (char ',') n
      (joinWith ',' (es.map OptionItem.render) ++ ']' :: rest) =
        ofExcept (es.mapM (·.read registry)) (']' :: rest) :=
    sepBy_joinWith_except (fun u => ⟨',', char_cons_self _ _⟩) (char_cons_of_ne (by decide) _)
      es
      (fun x _ u hu => optionItem_reads x (by
        rcases hu with rfl | ⟨u', rfl⟩
        exacts [⟨rest, .inr rfl⟩, ⟨u', .inl rfl⟩])) hes n hn
  cases hm : es.mapM (·.read registry) <;>
  simp [options, bracketList, itemsText, h, hm, -List.mapM]

end Reading

/-! ### What the specification asks of `B` and `K` -/

/-- Modelled from the spec: the agent an option supplies, a string or the string value of the key
`agent` or `a`. -/
def agentOption : Term → Option String
  | .string v => some v
  | .predicate _ [key, .string v] =>
    if key = .string "agent" ∨ key = .string "a" then some v else none
  | _ => none

/-- Modelled from the spec: the confidence an option supplies, a number or the number value of the
key `confidence` or `c`. -/
def confidenceOption : Term → Option Binary64
  | .double d => some d
  | .predicate _ [key, .double d] =>
    if key = .string "confidence" ∨ key = .string "c" then some d else none
  | _ => none

/-- Modelled from the spec: the agent `self` is no agent. -/
def noSelf (agent : Option String) : Option String := if agent = some "self" then none else agent

/-- Modelled from the spec: the agent and the confidence `B` reads from the options `ts` after
the values `a` and `c`: every option supplies one of them, and at most one of each is supplied in
all. -/
def beliefValues (a : Option String) (c : Option Binary64) (ts : List Term) :
    Option (Option String × Option Binary64) :=
  if ts.all (fun t => (agentOption t).isSome || (confidenceOption t).isSome) ∧
      (a.toList ++ ts.filterMap agentOption).length ≤ 1 ∧
      (c.toList ++ ts.filterMap confidenceOption).length ≤ 1 then
    some ((a.toList ++ ts.filterMap agentOption).head?,
      (c.toList ++ ts.filterMap confidenceOption).head?)
  else none

/-- Modelled from the spec: the operator `B` is with the options `ts`, if it accepts them. -/
def beliefOf (ts : List Term) : Option ModalOperator :=
  (beliefValues none none ts).map fun v => .belief (noSelf v.1) v.2

/-- Modelled from the spec: the agent `K` reads from the options `ts` after the value `a`: every
option supplies the agent, and at most one is supplied in all. -/
def knowledgeValues (a : Option String) (ts : List Term) : Option (Option String) :=
  if ts.all (fun t => (agentOption t).isSome) ∧
      (a.toList ++ ts.filterMap agentOption).length ≤ 1 then
    some (a.toList ++ ts.filterMap agentOption).head?
  else none

/-- Modelled from the spec: the operator `K` is with the options `ts`, if it accepts them. -/
def knowledgeOf (ts : List Term) : Option ModalOperator :=
  (knowledgeValues none ts).map fun a => .knowledge (noSelf a)

/-! ### The loops of `createB` and `createK` -/

@[simp] theorem except_toOption_ok {ε α : Type} (a : α) :
    (Except.ok a : Except ε α).toOption = some a := rfl

@[simp] theorem except_toOption_error {ε α : Type} (e : ε) :
    (Except.error e : Except ε α).toOption = none := rfl

/-- Everything one round of `createB`'s loop can do: take the agent an option supplies if none was
read yet, take the confidence it supplies likewise, or reject it. -/
theorem beliefOption_cases (a : Option String) (c : Option Binary64) (t : Term) :
    (∃ v, agentOption t = some v ∧ confidenceOption t = none ∧
      beliefOption (a, c) t = if a.isNone then .ok (some v, c) else reportUnrecognized t) ∨
    (∃ d, agentOption t = none ∧ confidenceOption t = some d ∧
      beliefOption (a, c) t = if c.isNone then .ok (a, some d) else reportUnrecognized t) ∨
    (agentOption t = none ∧ confidenceOption t = none ∧
      beliefOption (a, c) t = reportUnrecognized t) := by
  rcases t with _ | v | d | _ | _ |
    ⟨f, _ | ⟨key, _ | ⟨_ | v | d | _ | _ | _ | _ | _ | _, _ | _⟩⟩⟩ | _ | _ | _
  all_goals first
    | exact .inr (.inr ⟨rfl, rfl, rfl⟩)
    | exact .inl ⟨_, rfl, rfl, rfl⟩
    | exact .inr (.inl ⟨_, rfl, rfl, rfl⟩)
    | skip
  · by_cases hk : key = .string "agent" ∨ key = .string "a"
    · refine .inl ⟨v, if_pos hk, rfl, ?_⟩
      unfold beliefOption
      simp only [hk, and_true]
    · refine .inr (.inr ⟨if_neg hk, rfl, ?_⟩)
      unfold beliefOption
      simp only [hk, and_false, if_false]
  · by_cases hk : key = .string "confidence" ∨ key = .string "c"
    · refine .inr (.inl ⟨d, rfl, if_pos hk, ?_⟩)
      unfold beliefOption
      simp only [hk, and_true]
    · refine .inr (.inr ⟨rfl, if_neg hk, ?_⟩)
      unfold beliefOption
      simp only [hk, and_false, if_false]

/-- Everything one round of `createK`'s loop can do: take the agent an option supplies if none was
read yet, or reject it. -/
theorem knowledgeOption_cases (a : Option String) (t : Term) :
    (∃ v, agentOption t = some v ∧
      knowledgeOption a t = if a.isNone then .ok (some v) else reportUnrecognized t) ∨
    (agentOption t = none ∧ knowledgeOption a t = reportUnrecognized t) := by
  rcases t with _ | v | d | _ | _ |
    ⟨f, _ | ⟨key, _ | ⟨_ | v | d | _ | _ | _ | _ | _ | _, _ | _⟩⟩⟩ | _ | _ | _
  all_goals first
    | exact .inr ⟨rfl, rfl⟩
    | exact .inl ⟨_, rfl, rfl⟩
    | skip
  by_cases hk : key = .string "agent" ∨ key = .string "a"
  · refine .inl ⟨v, if_pos hk, ?_⟩
    unfold knowledgeOption
    simp only [hk, and_true]
  · refine .inr ⟨if_neg hk, ?_⟩
    unfold knowledgeOption
    simp only [hk, and_false, if_false]

theorem foldlM_beliefOption : ∀ (ts : List Term) (a : Option String) (c : Option Binary64),
    (ts.foldlM beliefOption (a, c)).toOption = beliefValues a c ts
  | [], a, c => by cases a <;> cases c <;> rfl
  | t :: ts, a, c => by
    have ih := foldlM_beliefOption ts
    rw [List.foldlM_cons]
    rcases beliefOption_cases a c t with ⟨v, ha, hc, h⟩ | ⟨d, ha, hc, h⟩ | ⟨ha, hc, h⟩ <;>
      rw [h]
    · cases a <;> simp [ih, beliefValues, ha, hc, reportUnrecognized]
    · cases c <;> simp [ih, beliefValues, ha, hc, reportUnrecognized]
    · simp [beliefValues, ha, hc, reportUnrecognized]

theorem foldlM_knowledgeOption : ∀ (ts : List Term) (a : Option String),
    (ts.foldlM knowledgeOption a).toOption = knowledgeValues a ts
  | [], a => by cases a <;> rfl
  | t :: ts, a => by
    have ih := foldlM_knowledgeOption ts
    rw [List.foldlM_cons]
    rcases knowledgeOption_cases a t with ⟨v, ha, h⟩ | ⟨ha, h⟩ <;> rw [h]
    · cases a <;> simp [ih, knowledgeValues, ha, reportUnrecognized]
    · simp [knowledgeValues, ha, reportUnrecognized]

/-- `createB` accepts exactly the option lists `beliefOf` accepts, with the operator it gives. -/
theorem createB_toOption (ts : List Term) : (createB (.list ts)).toOption = beliefOf ts := by
  rw [beliefOf, ← foldlM_beliefOption]
  unfold createB
  dsimp only
  rcases ts.foldlM beliefOption (none, none) with e | ⟨a, c⟩ <;> rfl

/-- `createK` accepts exactly the option lists `knowledgeOf` accepts, with the operator it gives. -/
theorem createK_toOption (ts : List Term) : (createK (.list ts)).toOption = knowledgeOf ts := by
  rw [knowledgeOf, ← foldlM_knowledgeOption]
  unfold createK
  dsimp only
  rcases ts.foldlM knowledgeOption none with e | _ | a
  · rfl
  · rfl
  · by_cases h : a = "self" <;> simp [noSelf, h]

/-- A loop whose rounds raise only the unrecognized-option error for the option at hand raises
only that error, for one of its options. -/
theorem foldlM_error_unrecognized {σ : Type} {step : σ → Term → Except QueryError σ}
    (hstep : ∀ s t e, step s t = .error e → e = .unrecognizedOption t) :
    ∀ (ts : List Term) (s : σ) (e : QueryError), ts.foldlM step s = .error e →
      ∃ o ∈ ts, e = .unrecognizedOption o
  | [], _, _, h => nomatch h
  | t :: ts, s, e, h => by
    rw [List.foldlM_cons] at h
    cases hs : step s t with
    | error e' =>
      rw [hs] at h
      cases h
      exact ⟨t, List.mem_cons_self _ _, hstep s t _ hs⟩
    | ok s' =>
      rw [hs] at h
      obtain ⟨o, ho, rfl⟩ := foldlM_error_unrecognized hstep ts s' e h
      exact ⟨o, List.mem_cons_of_mem _ ho, rfl⟩

theorem beliefOption_error {s : Option String × Option Binary64} {t : Term} {e : QueryError}
    (h : beliefOption s t = .error e) : e = .unrecognizedOption t := by
  obtain ⟨a, c⟩ := s
  rcases beliefOption_cases a c t with ⟨v, -, -, h'⟩ | ⟨d, -, -, h'⟩ | ⟨-, -, h'⟩ <;>
    rw [h'] at h <;> (try split at h) <;> simp_all [reportUnrecognized]

theorem knowledgeOption_error {a : Option String} {t : Term} {e : QueryError}
    (h : knowledgeOption a t = .error e) : e = .unrecognizedOption t := by
  rcases knowledgeOption_cases a t with ⟨v, -, h'⟩ | ⟨-, h'⟩ <;>
    rw [h'] at h <;> (try split at h) <;> simp_all [reportUnrecognized]

/-- Every error `createB` raises names one of the options. -/
theorem createB_error {ts : List Term} {e : QueryError} (h : createB (.list ts) = .error e) :
    ∃ o ∈ ts, e = .unrecognizedOption o := by
  unfold createB at h
  dsimp only at h
  cases hf : ts.foldlM beliefOption (none, none) with
  | error e' =>
    rw [hf] at h
    cases h
    exact foldlM_error_unrecognized (fun _ _ _ => beliefOption_error) ts _ _ hf
  | ok v => rw [hf] at h; cases h

/-- Every error `createK` raises names one of the options. -/
theorem createK_error {ts : List Term} {e : QueryError} (h : createK (.list ts) = .error e) :
    ∃ o ∈ ts, e = .unrecognizedOption o := by
  unfold createK at h
  dsimp only at h
  cases hf : ts.foldlM knowledgeOption none with
  | error e' =>
    rw [hf] at h
    cases h
    exact foldlM_error_unrecognized (fun _ _ _ => knowledgeOption_error) ts _ _ hf
  | ok v => rw [hf] at h; cases h

/-! ### The order of the options -/

theorem perm_eq_of_length_le_one {α : Type} {l l' : List α} (h : l.Perm l')
    (hl : l.length ≤ 1) : l = l' :=
  match l, hl with
  | [], _ => h.nil_eq
  | [_], _ => (List.perm_singleton.1 h.symm).symm

theorem all_eq_of_perm {p : Term → Bool} {ts ts' : List Term} (h : ts.Perm ts') :
    ts.all p = ts'.all p := by
  simp only [List.all_eq, h.mem_iff]

/-- Whether `B` accepts options, and the operator, do not depend on their order. -/
theorem beliefOf_perm {ts ts' : List Term} (h : ts.Perm ts') : beliefOf ts = beliefOf ts' := by
  have ha := h.filterMap agentOption
  have hc := h.filterMap confidenceOption
  simp only [beliefOf, beliefValues, Option.toList_none, List.nil_append, all_eq_of_perm h,
    ha.length_eq, hc.length_eq]
  split_ifs with hcond
  · rw [perm_eq_of_length_le_one ha (ha.length_eq ▸ hcond.2.1),
      perm_eq_of_length_le_one hc (hc.length_eq ▸ hcond.2.2)]
  · rfl

/-- Whether `K` accepts options, and the operator, do not depend on their order. -/
theorem knowledgeOf_perm {ts ts' : List Term} (h : ts.Perm ts') :
    knowledgeOf ts = knowledgeOf ts' := by
  have ha := h.filterMap agentOption
  simp only [knowledgeOf, knowledgeValues, Option.toList_none, List.nil_append, all_eq_of_perm h,
    ha.length_eq]
  split_ifs with hcond
  · rw [perm_eq_of_length_le_one ha (ha.length_eq ▸ hcond.2)]
  · rfl

theorem mapM_cons_eq_ok {α β : Type} {f : α → Except QueryError β} {x : α} {xs : List α}
    {ys : List β} :
    (x :: xs).mapM f = .ok ys ↔
      ∃ b bs, f x = .ok b ∧ xs.mapM f = .ok bs ∧ ys = b :: bs := by
  rw [List.mapM_cons]
  cases f x <;> cases xs.mapM f <;> simp [eq_comm, -List.mapM]

/-- `mapM` succeeds exactly when every element does, with their values. -/
theorem mapM_eq_ok_iff {α β : Type} {f : α → Except QueryError β} :
    ∀ {xs : List α} {ys : List β},
      xs.mapM f = .ok ys ↔ List.Forall₂ (fun x y => f x = .ok y) xs ys
  | [], ys => by
    rw [List.mapM_nil, List.forall₂_nil_left_iff]
    exact ⟨fun h => by cases h; rfl, fun h => h ▸ rfl⟩
  | x :: xs, ys => by
    rw [mapM_cons_eq_ok]
    constructor
    · rintro ⟨b, bs, hb, hbs, rfl⟩
      exact .cons hb (mapM_eq_ok_iff.1 hbs)
    · intro h
      cases h with
      | cons hb hbs => exact ⟨_, _, hb, mapM_eq_ok_iff.2 hbs, rfl⟩

/-- Options that read in one order read in every order, to the terms in that order. -/
theorem mapM_perm {α β : Type} {f : α → Except QueryError β} {xs xs' : List α} {ys : List β}
    (hp : xs'.Perm xs) (h : xs.mapM f = .ok ys) :
    ∃ ys', xs'.mapM f = .ok ys' ∧ ys'.Perm ys := by
  obtain ⟨ys', h', hperm⟩ := List.perm_comp_forall₂ hp (mapM_eq_ok_iff.1 h)
  exact ⟨ys', mapM_eq_ok_iff.2 h', hperm⟩

/-! ### `B` and `K` as formulas -/

section Parsing

variable {registry : PrefixRegistry}

/-- `B` and `K` are read by their modal rule, unless it fails. -/
theorem unary_of_agentModal {symbol : Char} {create : Term → Except QueryError ModalOperator}
    (hmk : symbol = 'B' ∧ create = createB ∨ symbol = 'K' ∧ create = createK) {s : List Char}
    {o : Outcome Formula} (k : Nat)
    (h : modal registry symbol create (operandRule registry k 0) k (symbol :: s) = o)
    (ho : Settled o) : formulaRule registry (k + 3) .unary (symbol :: s) = o := by
  simp only [operandRule, levelRule_zero] at h
  rcases hmk with ⟨rfl, rfl⟩ | ⟨rfl, rfl⟩ <;>
  simp [formulaRule.eq_2, formulaStep, modal_fail_of_head, isSpace, h, ho.orElse]

theorem modal_items_reads (symbol : Char) (create : Term → Except QueryError ModalOperator)
    (hsym : isSpace symbol = false) {es : List OptionItem} (hes : es ≠ []) {body : Parser Formula}
    {s rest : List Char} {φ : Formula} (hbody : body s = .ok φ rest) {n : Nat}
    (hn : es.length ≤ n) :
    modal registry symbol create body n (symbol :: (itemsText es ++ s)) =
      ofExcept ((Formula.modal · φ) <$>
        (es.mapM (·.read registry) >>= fun ts => create (.list ts))) rest := by
  have hpre : preskip (options registry n) (itemsText es ++ s) =
      options registry n (itemsText es ++ s) := preskip_of_head (by simp [itemsText, isSpace])
  simp only [modal, bind_apply, preskip_cons _ hsym, char_cons_self, Outcome.ok_bind, orElse_apply,
    hpre, items_reads hes s hn]
  cases es.mapM (·.read registry) with
  | error e => rfl
  | ok ts =>
    simp only [except_map_ok, ofExcept_ok, Outcome.ok_orElse, Outcome.ok_bind, bind_apply, hbody,
      except_ok_bind]
    cases create (.list ts) <;> rfl

/-- `B` or `K` with options that read to `ts`, over a body that the body rule reads: what the
operator's function makes of `ts`, over the body. -/
theorem parse_agentModal {symbol : Char} {create : Term → Except QueryError ModalOperator}
    (hmk : symbol = 'B' ∧ create = createB ∨ symbol = 'K' ∧ create = createK)
    {es : List OptionItem} (hes : es ≠ []) {ts : List Term}
    (hts : es.mapM (·.read registry) = .ok ts) {t : String} {ψ : Formula}
    (ht : parse_ (fun n => operandRule registry n 0) t = some (.ok ψ)) :
    parse registry (String.mk (symbol :: (itemsText es ++ t.data))) =
      some ((Formula.modal · ψ) <$> create (.list ts)) := by
  have hsym : isSpace symbol = false := by rcases hmk with ⟨rfl, -⟩ | ⟨rfl, -⟩ <;> rfl
  rw [parse_modal ht
    (fun hk hbody => modal_items_reads _ _ hsym hes hbody ((length_le_itemsText es).trans hk))
    (fun h hs => unary_of_agentModal hmk _ h hs), hts]
  rfl

/-- From an operator function that accepts what `spec` accepts and names an option in every error:
`B` or `K` succeeds with `spec`'s operator, or raises the error for one of the options, and
whether it succeeds, and with what, is the same in every order of the options. -/
theorem parse_agentModal_spec {symbol : Char} {create : Term → Except QueryError ModalOperator}
    {spec : List Term → Option ModalOperator}
    (hmk : symbol = 'B' ∧ create = createB ∨ symbol = 'K' ∧ create = createK)
    (hspec : ∀ ts, (create (.list ts)).toOption = spec ts)
    (herr : ∀ ts e, create (.list ts) = .error e → ∃ o ∈ ts, e = .unrecognizedOption o)
    (hperm : ∀ ts ts', ts.Perm ts' → spec ts = spec ts') {es : List OptionItem}
    (hes : es ≠ []) {ts : List Term} (hts : es.mapM (·.read registry) = .ok ts) {t : String}
    {ψ : Formula} (ht : parse_ (fun n => operandRule registry n 0) t = some (.ok ψ)) :
    (∀ op, spec ts = some op →
      parse registry (String.mk (symbol :: (itemsText es ++ t.data))) =
        some (.ok (.modal op ψ))) ∧
    (spec ts = none → ∃ o ∈ ts,
      parse registry (String.mk (symbol :: (itemsText es ++ t.data))) =
        some (.error (.unrecognizedOption o))) ∧
    ∀ es' : List OptionItem, es'.Perm es →
      (parse registry (String.mk (symbol :: (itemsText es' ++ t.data)))).map Except.toOption =
        some ((spec ts).map (.modal · ψ)) := by
  rw [parse_agentModal hmk hes hts ht]
  refine ⟨fun op hop => ?_, fun hnone => ?_, fun es' hp => ?_⟩
  · rw [← hspec] at hop
    cases h : create (.list ts) <;> simp_all
  · rw [← hspec] at hnone
    cases h : create (.list ts) with
    | error e =>
      obtain ⟨o, ho, rfl⟩ := herr ts e h
      exact ⟨o, ho, rfl⟩
    | ok op => simp [h] at hnone
  · obtain ⟨ts', hts', hperm'⟩ := mapM_perm hp hts
    rw [parse_agentModal hmk (by rintro rfl; exact hes hp.nil_eq.symm) hts' ht,
      ← hperm _ _ hperm', ← hspec]
    cases create (.list ts') <;> rfl

end Parsing

/-- Over a body that the body rule `unary | brackets` reads, and with options that read to `ts`:
`B[...] φ` is the operator `beliefOf ts` over the body if the specification accepts `ts`, and
otherwise raises the unrecognized-option error for one of them; likewise `K[...] φ` with
`knowledgeOf ts`; and in every order of the options, whether the query succeeds, and with what,
is the same. -/
theorem parse_belief_knowledge (registry : PrefixRegistry) {t : String} {ψ : Formula}
    (ht : parse_ (fun n => operandRule registry n 0) t = some (.ok ψ)) {es : List OptionItem}
    (hes : es ≠ []) {ts : List Term} (hts : es.mapM (·.read registry) = .ok ts) :
    (∀ op, beliefOf ts = some op →
      parse registry (String.mk ('B' :: (itemsText es ++ t.data))) = some (.ok (.modal op ψ))) ∧
    (beliefOf ts = none → ∃ o ∈ ts,
      parse registry (String.mk ('B' :: (itemsText es ++ t.data))) =
        some (.error (.unrecognizedOption o))) ∧
    (∀ op, knowledgeOf ts = some op →
      parse registry (String.mk ('K' :: (itemsText es ++ t.data))) = some (.ok (.modal op ψ))) ∧
    (knowledgeOf ts = none → ∃ o ∈ ts,
      parse registry (String.mk ('K' :: (itemsText es ++ t.data))) =
        some (.error (.unrecognizedOption o))) ∧
    ∀ es' : List OptionItem, es'.Perm es →
      (parse registry (String.mk ('B' :: (itemsText es' ++ t.data)))).map Except.toOption =
        some ((beliefOf ts).map (.modal · ψ)) ∧
      (parse registry (String.mk ('K' :: (itemsText es' ++ t.data)))).map Except.toOption =
        some ((knowledgeOf ts).map (.modal · ψ)) := by
  obtain ⟨hB, hBerr, hBperm⟩ := parse_agentModal_spec (.inl ⟨rfl, rfl⟩) createB_toOption
    (fun _ _ => createB_error) (fun _ _ => beliefOf_perm) hes hts ht
  obtain ⟨hK, hKerr, hKperm⟩ := parse_agentModal_spec (.inr ⟨rfl, rfl⟩) createK_toOption
    (fun _ _ => createK_error) (fun _ _ => knowledgeOf_perm) hes hts ht
  exact ⟨hB, hBerr, hK, hKerr, fun es' hp => ⟨hBperm es' hp, hKperm es' hp⟩⟩

/-- `B[fred,confidence=0.8] p(x)`: the belief of `fred` with the confidence the double nearest
`0.8`. -/
theorem parse_belief_fred_confidence :
    parse (fun _ _ => none) "B[fred,confidence=0.8] p(x)" =
      some (.ok (.modal (.belief (some "fred") (some (Binary64.ofFraction 4 5)))
        (.predicate ⟨"p", [.string "x"]⟩))) :=
  let point8 : ConstantNumber := ⟨.decimal ⟨none, ['0'], some ['8'], none, by decide, by decide,
    by decide, by decide, by decide, by decide⟩, rfl⟩
  ((@parse_belief_knowledge (fun _ _ => none) " p(x)" (.predicate ⟨"p", [.string "x"]⟩) rfl
    [.positional (.atom (.lower "fred" (by decide))),
      .keyed (.lower "confidence" (by decide)) (.number point8)]
    (List.cons_ne_nil _ _) [.string "fred", .predicate "=" [.string "confidence",
      .double point8.literal.value]] rfl).1 _ rfl).trans (by decide)

/-- The error names the first option the loop rejects, so it changes with the order of the
options; the body of `B[fred] p,q` is `p` alone; an option with an unregistered IRI prefix raises
that error; `B[] p` has no option list; and `1e400`, beyond the range of a double, is no
number. -/
theorem parse_belief_error_depends_on_order :
    parse (fun _ _ => none) "B[x,y] p" = some (.error (.unrecognizedOption (.string "y"))) ∧
    parse (fun _ _ => none) "B[y,x] p" = some (.error (.unrecognizedOption (.string "x"))) ∧
    parse (fun _ _ => none) "B[fred] p,q" =
      some (.ok (.conjunction [.modal (.belief (some "fred") none) (.predicate ⟨"p", []⟩),
        .predicate ⟨"q", []⟩])) ∧
    parse (fun _ _ => none) "B[foo:bar] p" = some (.error (.unregisteredPrefix "bar" "foo")) ∧
    parse (fun _ _ => none) "B[] p" = some (.error (.invalidSyntax "B[] p")) ∧
    parse (fun _ _ => none) "B[1e400] p" = some (.error (.invalidSyntax "B[1e400] p")) :=
  ⟨rfl, rfl, rfl, rfl, rfl, rfl⟩

end QueryParser

end Knowrob

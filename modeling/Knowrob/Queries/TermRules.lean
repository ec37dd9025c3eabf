import Knowrob.Queries.RealParser

/-!
# The term rules of the query grammar

The `StringRule`s and `TermRule`s of `QueryParser.cpp`: identifiers and quoted text, IRIs,
numbers (`qi::double_`, in `RealParser`), constants, option lists, and the arguments of
predicates. None of these rules is declared with a skipper, so none of them skips a space inside
itself; a rule with a skipper that uses one of them skips spaces before it (`Parser.preskip`).

An IRI `ns:name` is expanded by the prefix registry, which is not part of the sources: it is the
parameter `registry` of every rule that can read an atom.
-/

namespace Knowrob

open Parser

/-- Modelled from the spec: the hook `PrefixRegistry::createIRI(prefix, name)`, which expands a
registered prefix and gives nothing for an unregistered one. -/
abbrev PrefixRegistry := String → String → Option String

namespace QueryParser

/-! ### Lexemes -/

/-- `ascii::alnum | '_'`, a character of an identifier after its first. -/
def isIdentChar (c : Char) : Bool := c.isAlphanum || c == '_'

/-- `raw[first >> *(ascii::alnum | '_')]`: an identifier whose first character satisfies
`first`. -/
def identifier (first : Char → Bool) : Parser String := do
  let c ← satisfy first
  let cs ← manyChars isIdentChar
  pure (String.mk (c :: cs))

def lowerPrefix : Parser String := identifier Char.isLower

def upperPrefix : Parser String := identifier Char.isUpper

/-- `q >> +(char_ - q) >> q`: the non-empty text between two quote characters `q`. -/
def quoted (q : Char) : Parser String := do
  let _ ← char q
  let cs ← many1Chars (· != q)
  let _ ← char q
  pure (String.mk cs)

def singleQuotes : Parser String := quoted '\''

def doubleQuotes : Parser String := quoted '"'

/-- `createIRI`: the registry's expansion of `ns:name`, or the error it throws. -/
def createIRI (registry : PrefixRegistry) (ns name : String) : Except QueryError String :=
  match registry ns name with
  | some uri => .ok uri
  | none => .error (.unregisteredPrefix name ns)

/-- `iri_ns`. -/
def iriNs : Parser String := identifier Char.isAlpha

/-- `iri_entity`. -/
def iriEntity : Parser String := singleQuotes <|> identifier Char.isAlpha

/-- `iri`: `iri_ns >> ':' >> iri_entity`, expanded by `createIRI` once all three matched. -/
def iri (registry : PrefixRegistry) : Parser String := do
  let ns ← iriNs
  let _ ← char ':'
  let name ← iriEntity
  ofExcept (createIRI registry ns name)

def atomRaw (registry : PrefixRegistry) : Parser String :=
  singleQuotes <|> iri registry <|> lowerPrefix

/-! ### Constants and option lists -/

def atom (registry : PrefixRegistry) : Parser Term := Term.string <$> atomRaw registry

def string : Parser Term := Term.string <$> doubleQuotes

def number : Parser Term := Term.double <$> double

def constant (registry : PrefixRegistry) : Parser Term :=
  atom registry <|> string <|> number

/-- `keyvalue`: `atom >> '=' >> constant`, read as the predicate `=(key, value)`. -/
def keyvalue (registry : PrefixRegistry) : Parser Term := do
  let key ← atom registry
  let _ ← char '='
  let value ← constant registry
  pure (.predicate "=" [key, value])

def option (registry : PrefixRegistry) : Parser Term := keyvalue registry <|> constant registry

/-- `'[' >> (element % ',') >> ']'`, read as a list term. -/
def bracketList (element : Parser Term) (n : Nat) : Parser Term := do
  let _ ← char '['
  let elements ← sepBy element (char ',') n
  let _ ← char ']'
  pure (.list elements)

def options (registry : PrefixRegistry) (n : Nat) : Parser Term := bracketList (option registry) n

/-- `nil`: `qi::attr(ListTerm::nil())`, the empty list, without reading anything. -/
def nil : Parser Term := pure (.list [])

def constantList (registry : PrefixRegistry) (n : Nat) : Parser Term :=
  bracketList (constant registry) n

def «variable» : Parser Term := Term.variable <$> upperPrefix

/-! ### Arguments -/

/-- A part of a sequence in a rule with the `ascii::space` skipper (`skipper`) or without one. -/
def token {α : Type} (skipper : Bool) (p : Parser α) : Parser α := if skipper then preskip p else p

@[simp] theorem token_false {α : Type} (p : Parser α) : token false p = p := rfl

@[simp] theorem token_true {α : Type} (p : Parser α) : token true p = preskip p := rfl

/-- `atomRaw >> '(' >> (argument % ',') >> ')'`, the sequence of both `compound` (a rule without
a skipper) and `predicateWithArgs` (a rule with one). -/
def functorArguments (registry : PrefixRegistry) (skipper : Bool) (argument : Parser Term)
    (n : Nat) : Parser (String × List Term) := do
  let functor ← token skipper (atomRaw registry)
  let _ ← token skipper (char '(')
  let arguments ← sepBy (token skipper argument) (token skipper (char ',')) n
  let _ ← token skipper (char ')')
  pure (functor, arguments)

/-- `compound`, with `argument` the rule it calls. -/
def compound (registry : PrefixRegistry) (argument : Parser Term) (n : Nat) : Parser Term :=
  (fun p => Term.predicate p.1 p.2) <$> functorArguments registry false argument n

/-- `argument`, with fuel `n`. -/
def argument (registry : PrefixRegistry) : Nat → Parser Term
  | 0 => fun _ => .exhausted
  | n + 1 =>
    compound registry (argument registry n) n <|> «variable» <|> constant registry <|>
      constantList registry n

/-! ### More fuel never changes a result -/

variable {registry : PrefixRegistry}

theorem token_approx {α : Type} (skipper : Bool) {p p' : Parser α} (hp : Approx p p') :
    Approx (token skipper p) (token skipper p') := by
  cases skipper
  · exact hp
  · exact hp.preskip

theorem bracketList_approx {element element' : Parser Term} (h : Approx element element')
    {n m : Nat} (hnm : n ≤ m) : Approx (bracketList element n) (bracketList element' m) :=
  (Approx.refl _).bind fun _ => (Approx.sepBy _ h hnm).bind fun _ =>
    (Approx.refl _).bind fun _ => .refl _

theorem functorArguments_approx (skipper : Bool) {a a' : Parser Term} (h : Approx a a') {n m : Nat}
    (hnm : n ≤ m) :
    Approx (functorArguments registry skipper a n) (functorArguments registry skipper a' m) :=
  (Approx.refl _).bind fun _ => (Approx.refl _).bind fun _ =>
    (Approx.sepBy _ (token_approx skipper h) hnm).bind fun _ => (Approx.refl _).bind fun _ => .refl _

theorem compound_approx {a a' : Parser Term} (h : Approx a a') {n m : Nat} (hnm : n ≤ m) :
    Approx (compound registry a n) (compound registry a' m) :=
  (functorArguments_approx false h hnm).map _

theorem argument_approx : ∀ n, Approx (argument registry n) (argument registry (n + 1))
  | 0 => approx_exhausted _
  | n + 1 => by
    rw [argument.eq_2 registry n, argument.eq_2 registry (n + 1)]
    exact (compound_approx (argument_approx n) n.le_succ).orElse <|
      (Approx.refl _).orElse <| (Approx.refl _).orElse <| bracketList_approx (.refl _) n.le_succ

theorem argument_mono {n m : Nat} (h : n ≤ m) : Approx (argument registry n) (argument registry m) := by
  induction h with
  | refl => exact .refl _
  | step _ ih => exact ih.trans (argument_approx _)

end QueryParser

end Knowrob

import Knowrob.Queries.TermRules
import Knowrob.Queries.ModalOptions

/-!
# The query grammar

The `PredicateRule`s and `FormulaRule`s of `QueryParser.cpp`, which are declared with the
`ascii::space` skipper, and the entry points `parse`, `parsePredicate`, `parseConstant` and
`parseRawAtom`.

The formula rules call each other recursively; `formulaRule registry n r` is rule `r` with fuel `n`,
and each rule calls the others with one unit less. Every rule is a function of the rules one level
down, through the combinators of `Knowrob.Queries.Qi`, so more fuel never changes a result
(`formulaRule_mono`). The binary rules share one shape, `connective`, and the four modal rules
another, `modal`.
-/

namespace Knowrob

open Parser

namespace QueryParser

/-! ### Predicates -/

def predicateWithArgs (registry : PrefixRegistry) (n : Nat) : Parser Predicate :=
  (fun p => ⟨p.1, p.2⟩) <$> functorArguments registry true (argument registry n) n

def predicateNullary (registry : PrefixRegistry) : Parser Predicate :=
  (fun f => ⟨f, []⟩) <$> preskip (atomRaw registry)

def predicate (registry : PrefixRegistry) (n : Nat) : Parser Predicate :=
  predicateWithArgs registry n <|> predicateNullary registry

/-! ### Formulas -/

/-- The rules of `ParserRules` whose attribute is a formula. -/
inductive FormulaRule where
  | formula
  | implication
  | disjunction
  | conjunction
  | unary
  | brackets
  | negation
  | modalFormula
  | belief
  | knowledge
  | oncePast
  | alwaysPast
  deriving DecidableEq, Repr

/-- `((lower | brackets) >> sep >> (self | brackets))[combine] | lower`, the shape of
`conjunction`, `disjunction` and `implication`. -/
def connective {β : Type} (lower self brackets : Parser Formula) (sep : Parser β)
    (combine : Formula → Formula → Formula) : Parser Formula :=
  (do
    let φ ← lower <|> brackets
    let _ ← sep
    let ψ ← self <|> brackets
    pure (combine φ ψ)) <|> lower

/-- `symbol >> (options | nil) >> body`, the shape of `belief`, `knowledge`, `oncePast` and
`alwaysPast`; the operator is built by `create` from the options once all three matched. -/
def modal (registry : PrefixRegistry) (symbol : Char) (create : Term → Except QueryError ModalOperator)
    (body : Parser Formula) (n : Nat) : Parser Formula := do
  let _ ← preskip (char symbol)
  let optionsTerm ← preskip (options registry n) <|> preskip nil
  let φ ← body
  let op ← ofExcept (create optionsTerm)
  pure (.modal op φ)

/-- The formula rules of `QueryParser::QueryParser`, each written with `rule` for the rules it calls
and `n` for the fuel of the term rules it calls. -/
def formulaStep (registry : PrefixRegistry) (rule : FormulaRule → Parser Formula) (n : Nat) :
    FormulaRule → Parser Formula
  | .formula => rule .implication <|> rule .brackets
  | .implication =>
    connective (rule .disjunction) (rule .implication) (rule .brackets) (preskip (lit ['-', '>']))
      .implication
  | .disjunction =>
    connective (rule .conjunction) (rule .disjunction) (rule .brackets)
      (preskip (char ';') <|> preskip (char '|')) Formula.or
  | .conjunction =>
    connective (rule .unary) (rule .conjunction) (rule .brackets)
      (preskip (char ',') <|> preskip (char '&')) Formula.and
  | .unary => rule .modalFormula <|> rule .negation <|> (Formula.predicate <$> predicate registry n)
  | .brackets => do
    let _ ← preskip (char '(')
    let φ ← rule .formula
    let _ ← preskip (char ')')
    pure φ
  | .negation => do
    let _ ← preskip (char '~')
    let φ ← rule .unary <|> rule .brackets
    pure φ.not
  | .modalFormula => rule .belief <|> rule .knowledge <|> rule .oncePast <|> rule .alwaysPast
  | .belief => modal registry 'B' createB (rule .unary <|> rule .brackets) n
  | .knowledge => modal registry 'K' createK (rule .unary <|> rule .brackets) n
  | .oncePast => modal registry 'P' createP (rule .unary <|> rule .brackets) n
  | .alwaysPast => modal registry 'H' createH (rule .unary <|> rule .brackets) n

/-- The formula rules with fuel `n`: each call of a rule takes one unit. -/
def formulaRule (registry : PrefixRegistry) : Nat → FormulaRule → Parser Formula
  | 0 => fun _ _ => .exhausted
  | n + 1 => formulaStep registry (formulaRule registry n) n

/-! ### More fuel never changes a result -/

section Monotone

variable {registry : PrefixRegistry}

theorem predicate_approx {n m : Nat} (h : n ≤ m) :
    Approx (predicate registry n) (predicate registry m) :=
  ((functorArguments_approx true (argument_mono h) h).map _).orElse (.refl _)

theorem connective_approx {β : Type} {l l' s s' b b' : Parser Formula} (sep : Parser β)
    (combine : Formula → Formula → Formula) (hl : Approx l l') (hs : Approx s s') (hb : Approx b b') :
    Approx (connective l s b sep combine) (connective l' s' b' sep combine) :=
  ((hl.orElse hb).bind fun _ => (Approx.refl sep).bind fun _ =>
    (hs.orElse hb).bind fun _ => .refl _).orElse hl

theorem modal_approx (symbol : Char) (create : Term → Except QueryError ModalOperator)
    {body body' : Parser Formula} (h : Approx body body') {n m : Nat} (hnm : n ≤ m) :
    Approx (modal registry symbol create body n) (modal registry symbol create body' m) :=
  (Approx.refl _).bind fun _ => ((bracketList_approx (.refl _) hnm).preskip.orElse (.refl _)).bind
    fun _ => h.bind fun _ => (Approx.refl _).bind fun _ => .refl _

theorem formulaStep_approx {rule rule' : FormulaRule → Parser Formula}
    (h : ∀ r, Approx (rule r) (rule' r)) {n m : Nat} (hnm : n ≤ m) :
    ∀ r, Approx (formulaStep registry rule n r) (formulaStep registry rule' m r)
  | .formula => (h _).orElse (h _)
  | .implication | .disjunction | .conjunction => connective_approx _ _ (h _) (h _) (h _)
  | .unary => (h _).orElse <| (h _).orElse <| (predicate_approx hnm).map _
  | .brackets => (Approx.refl _).bind fun _ => (h _).bind fun _ => (Approx.refl _).bind fun _ => .refl _
  | .negation => (Approx.refl _).bind fun _ => ((h _).orElse (h _)).bind fun _ => .refl _
  | .modalFormula => (h _).orElse <| (h _).orElse <| (h _).orElse (h _)
  | .belief | .knowledge | .oncePast | .alwaysPast => modal_approx _ _ ((h _).orElse (h _)) hnm

theorem formulaRule_approx :
    ∀ n r, Approx (formulaRule registry n r) (formulaRule registry (n + 1) r)
  | 0, _ => approx_exhausted _
  | n + 1, r => formulaStep_approx (formulaRule_approx n) n.le_succ r

/-- More fuel never changes what a formula rule gives, unless it ran out. -/
theorem formulaRule_mono {n m : Nat} (h : n ≤ m) (r : FormulaRule) :
    Approx (formulaRule registry n r) (formulaRule registry m r) := by
  induction h with
  | refl => exact .refl _
  | step _ ih => exact ih.trans (formulaRule_approx _ _)

end Monotone

/-! ### Entry points -/

/-- The fuel the entry points give a rule: enough for every query (each character of the query
opens at most a bounded number of rule calls). -/
def fuelFor (queryString : String) : Nat := 8 * (queryString.length + 1)

/-- `parse_`: `qi::phrase_parse` of the query with `ascii::space` as skipper, which skips the
spaces after a match, and then the check that the whole query was read. `none` only if the fuel
runs out. -/
def parse_ {α : Type} (rule : Nat → Parser α) (queryString : String) :
    Option (Except QueryError α) :=
  match rule (fuelFor queryString) queryString.toList with
  | .ok v rest =>
    some (if rest.dropWhile isSpace = [] then .ok v else .error (.invalidSyntax queryString))
  | .fail => some (.error (.invalidSyntax queryString))
  | .error e => some (.error e)
  | .exhausted => none

/-- `QueryParser::parse`. -/
def parse (registry : PrefixRegistry) : String → Option (Except QueryError Formula) :=
  parse_ fun n => formulaRule registry n .formula

/-- `QueryParser::parsePredicate`. -/
def parsePredicate (registry : PrefixRegistry) : String → Option (Except QueryError Predicate) :=
  parse_ (predicate registry)

/-- `QueryParser::parseConstant`; `constant` has no skipper, so it skips the leading spaces as a
whole. -/
def parseConstant (registry : PrefixRegistry) : String → Option (Except QueryError Term) :=
  parse_ fun _ => preskip (constant registry)

/-- `QueryParser::parseRawAtom`. -/
def parseRawAtom (registry : PrefixRegistry) : String → Option (Except QueryError String) :=
  parse_ fun _ => preskip (atomRaw registry)

/-- Spaces between the tokens of a nested compound, or of a modal option list, make the query
invalid, though the same spaces after the functor's parenthesis are skipped: `compound`,
`argument`, `options` and `option` are rules without a skipper, `predicateWithArgs` has one. -/
theorem parse_rejects_spaces_inside_term_rules (registry : PrefixRegistry) :
    parsePredicate registry "p(X,f(a,b))" =
      some (.ok ⟨"p", [.variable "X", .predicate "f" [.string "a", .string "b"]]⟩) ∧
    parsePredicate registry "p(X, f(a, b))" = some (.error (.invalidSyntax "p(X, f(a, b))")) ∧
    parse registry "B[fred,confidence=0.8] p(x)" =
      some (.ok (.modal (.belief (some "fred") (some (Binary64.ofFraction 4 5)))
        (.predicate ⟨"p", [.string "x"]⟩))) ∧
    parse registry "B[fred, confidence=0.8] p(x)" =
      some (.error (.invalidSyntax "B[fred, confidence=0.8] p(x)")) :=
  ⟨rfl, rfl, rfl, rfl⟩

end QueryParser

end Knowrob

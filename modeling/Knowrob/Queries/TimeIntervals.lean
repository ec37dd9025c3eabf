import Knowrob.Queries.Numbers
import Knowrob.Queries.RoundTrip

/-!
# The time intervals of the past operators

What `QueryParser::parse` makes of `P[...] φ` and `H[...] φ`. The option list is read by the
`options` rule, a list of constants and `key=constant` entries with no space inside, and turned
into an interval by `readTimeInterval`, after the body has been read.

`parse_past_interval`: with a body that the body rule `unary | brackets` reads, the positional
forms `[b,e]` and `[b]` and the keyed forms (`begin` or `since`, `end` or `until`, in either
order, a side left out) give the operator with the interval of the written numbers; the empty
slots `[,e]` and `[b,]` are invalid syntax, whatever follows; and an option list with an entry
`readTimeInterval` never accepts raises the unrecognized-option error.
-/

namespace Knowrob

open Parser Formula

namespace QueryParser

/-! ### Option lists -/

/-- The text of a constant in an option list. -/
inductive ConstantText where
  /-- An atom, written as a lower-case identifier. -/
  | atom (name : String) (h : isIdent Char.isLower name.data)
  /-- A string in double quotes. -/
  | string (s : String) (hne : s.data ≠ []) (hq : '"' ∉ s.data)
  /-- A number that `constant` reads as a number. -/
  | number (n : ConstantNumber)

namespace ConstantText

def render : ConstantText → List Char
  | atom name _ => name.data
  | string s _ _ => '"' :: (s.data ++ ['"'])
  | number n => n.literal.render

/-- The term `constant` reads from the text. -/
def term : ConstantText → Term
  | atom name _ => .string name
  | string s _ _ => .string s
  | number n => .double n.literal.value

end ConstantText

/-- An entry of an option list: a constant, or a key and a constant. -/
inductive OptionEntry where
  | positional (value : ConstantText)
  | keyed (key : String) (hkey : isIdent Char.isLower key.data) (value : ConstantText)

namespace OptionEntry

def render : OptionEntry → List Char
  | positional v => v.render
  | keyed key _ v => key.data ++ '=' :: v.render

/-- The term `option` reads from the text: a keyed entry is the predicate `=(key, value)`. -/
def term : OptionEntry → Term
  | positional v => v.term
  | keyed key _ v => .predicate "=" [.string key, v.term]

/-- The entries `readTimeInterval` never accepts: a positional constant that is not a number, an
unknown key, and a key whose value is not a number. -/
def isBad : OptionEntry → Bool
  | positional (.number _) => false
  | positional _ => true
  | keyed key _ (.number _) => !(key = "begin" || key = "since" || key = "end" || key = "until")
  | keyed _ _ _ => true

end OptionEntry

def optionsText (entries : List OptionEntry) : List Char :=
  '[' :: (joinWith ',' (entries.map OptionEntry.render) ++ [']'])

/-! ### Reading an option list -/

/-- What follows an entry of an option list: a comma or the closing bracket. -/
def EntryFollows (u : List Char) : Prop := ∃ u', u = ',' :: u' ∨ u = ']' :: u'

theorem EntryFollows.head {u : List Char} (h : EntryFollows u) :
    ∀ c ∈ u.head?, c = ',' ∨ c = ']' := by
  obtain ⟨u', rfl | rfl⟩ := h <;> simp

theorem EntryFollows.endsIdent {u : List Char} (h : EntryFollows u) : EndsIdent u :=
  fun c hc => by rcases h.head c hc with rfl | rfl <;> decide

theorem EntryFollows.ne_colon {u : List Char} (h : EntryFollows u) : ∀ c ∈ u.head?, c ≠ ':' :=
  fun c hc => by rcases h.head c hc with rfl | rfl <;> decide

theorem EntryFollows.ne_eq {u : List Char} (h : EntryFollows u) : ∀ c ∈ u.head?, c ≠ '=' :=
  fun c hc => by rcases h.head c hc with rfl | rfl <;> decide

theorem EntryFollows.numberEnds {u : List Char} (h : EntryFollows u) : NumberEnds u :=
  fun c hc => by rcases h.head c hc with rfl | rfl <;> decide

theorem quoted_reads {q : Char} {cs : List Char} (hne : cs ≠ []) (hq : q ∉ cs) (u : List Char) :
    quoted q (q :: (cs ++ q :: u)) = .ok (String.mk cs) u := by
  obtain _ | ⟨c, cs⟩ := cs
  · exact absurd rfl hne
  have hc : c ≠ q := fun h => hq (h ▸ List.mem_cons_self _ _)
  have hcs : manyChars (· != q) (cs ++ q :: u) = .ok cs (q :: u) := manyChars_append
    (fun d hd => by simp only [bne_iff_ne, ne_eq]; rintro rfl; exact hq (List.mem_cons_of_mem _ hd))
    (by simp)
  simp [quoted, many1Chars, hc, hcs, -manyChars_apply]

variable {registry : PrefixRegistry}

theorem constant_reads (c : ConstantText) {u : List Char} (hu : EntryFollows u) :
    constant registry (c.render ++ u) = .ok c.term u := by
  cases c with
  | atom name h =>
    simp [constant, atom, ConstantText.render, ConstantText.term,
      atomRaw_lower h hu.endsIdent hu.ne_colon]
  | string s hne hq =>
    simp [constant, atom, string, doubleQuotes, ConstantText.render, ConstantText.term,
      atomRaw_fail_of_head (c := '"') (by decide) (by decide), quoted_reads hne hq]
  | number n => exact constant_number n hu.numberEnds

/-- A constant on its own is not a `key=value` entry. -/
theorem keyvalue_positional_fail (c : ConstantText) {u : List Char} (hu : EntryFollows u) :
    keyvalue registry (c.render ++ u) = .fail := by
  cases c with
  | atom name h =>
    simp [keyvalue, atom, ConstantText.render, atomRaw_lower h hu.endsIdent hu.ne_colon,
      char_fail hu.ne_eq]
  | string s hne hq =>
    simp [keyvalue, atom, ConstantText.render, atomRaw_fail_of_head (c := '"') (by decide) (by decide)]
  | number n =>
    simp [keyvalue, atom, ConstantText.render, atomRaw_number_fail n hu.numberEnds]

theorem option_reads (x : OptionEntry) {u : List Char} (hu : EntryFollows u) :
    option registry (x.render ++ u) = .ok x.term u := by
  cases x with
  | positional c =>
    simp [option, OptionEntry.render, OptionEntry.term, keyvalue_positional_fail c hu,
      constant_reads c hu]
  | keyed key hkey c =>
    have hkeyText := @atomRaw_lower registry _ ('=' :: (c.render ++ u)) hkey
      (by simp [EndsIdent]; decide) (by simp)
    simp [option, keyvalue, atom, OptionEntry.render, OptionEntry.term, hkeyText, constant_reads c hu]

theorem options_reads {es : List OptionEntry} (hes : es ≠ []) (rest : List Char) {n : Nat}
    (hn : es.length ≤ n) :
    options registry n (optionsText es ++ rest) = .ok (.list (es.map OptionEntry.term)) rest := by
  have h := bracketList_joinWith es (r := OptionEntry.render) (f := OptionEntry.term)
    (fun x _ u (hu : u = ']' :: rest ∨ ∃ u', u = ',' :: u') => @option_reads registry x _
      (by rcases hu with rfl | ⟨u', rfl⟩; exacts [⟨rest, .inr rfl⟩, ⟨u', .inl rfl⟩])) hes hn
  simpa [optionsText, options] using h

/-- A list of texts joined by commas has at least one character fewer than texts. -/
theorem length_le_joinWith (xs : List (List Char)) : xs.length ≤ (joinWith ',' xs).length + 1 := by
  induction xs using joinWith.induct ',' with
  | case1 => simp
  | case2 => simp [joinWith]
  | case3 x y xs ih => simp only [joinWith, List.length_append, List.length_cons] at ih ⊢; omega

theorem length_le_optionsText (es : List OptionEntry) : es.length ≤ (optionsText es).length := by
  have := length_le_joinWith (es.map OptionEntry.render)
  simp only [optionsText, List.length_cons, List.length_append, List.length_map] at this ⊢
  omega

/-! ### Failing option lists -/

/-- No entry starts with a comma or a closing bracket. -/
theorem option_fail_of_head {c : Char} (hc : c = ',' ∨ c = ']') (s : List Char) :
    option registry (c :: s) = .fail := by
  have hq : c ≠ '\'' ∧ c ≠ '"' ∧ c.isAlpha = false ∧ c.isDigit = false := by
    rcases hc with rfl | rfl <;> decide
  have hnum : c ≠ '-' ∧ c ≠ '+' ∧ c ≠ '.' ∧ c ≠ 'n' ∧ c ≠ 'N' ∧ c ≠ 'i' ∧ c ≠ 'I' := by
    rcases hc with rfl | rfl <;> decide
  simp [option, keyvalue, constant, atom, string, number, doubleQuotes,
    atomRaw_fail_of_head hq.1 hq.2.2.1, quoted_fail hq.2.1, double_fail_of_head hq.2.2.2 hnum]

/-- `[,e]`: the list has no first entry. -/
theorem options_fail_empty_first (u : List Char) {n : Nat} (hn : 1 ≤ n) :
    options registry n ('[' :: ',' :: u) = .fail := by
  obtain ⟨n, rfl⟩ : ∃ k, n = k + 1 := ⟨n - 1, by omega⟩
  simp [options, bracketList, sepBy, option_fail_of_head (.inl rfl)]

/-- `[b,]`: the comma has no entry after it, so the list ends before it, where `]` is missing. -/
theorem options_fail_empty_last (x : OptionEntry) (u : List Char) {n : Nat} (hn : 2 ≤ n) :
    options registry n ('[' :: (x.render ++ ',' :: ']' :: u)) = .fail := by
  obtain ⟨n, rfl⟩ : ∃ k, n = k + 2 := ⟨n - 2, by omega⟩
  simp [options, bracketList, sepBy, option_reads x ⟨_, .inl rfl⟩, option_fail_of_head (.inr rfl),
    char_cons_of_ne]

/-! ### The past operators as formulas -/

/-- The query of a past operator `mk` with an option text and a body text. -/
def pastQuery (mk : Option TimeInterval → ModalOperator) (options body : List Char) : String :=
  String.mk ((mk none).symbol :: (options ++ body))

/-- An outcome the rules above `unary` pass on unchanged: an error, or a formula followed only by
spaces. -/
def Settled (o : Outcome Formula) : Prop :=
  (∃ e, o = .error e) ∨ ∃ φ r, o = .ok φ r ∧ r.dropWhile isSpace = []

theorem Settled.orElse {o : Outcome Formula} (h : Settled o) (o' : Outcome Formula) :
    o.orElse o' = o := by
  rcases h with ⟨e, rfl⟩ | ⟨φ, r, rfl, -⟩ <;> rfl

theorem connective_of_settled {β : Type} {lower self brackets : Parser Formula} {sep : Parser β}
    {combine : Formula → Formula → Formula} {s : List Char} {o : Outcome Formula}
    (h : lower s = o) (ho : Settled o) (hsep : ∀ r, r.dropWhile isSpace = [] → sep r = .fail) :
    connective lower self brackets sep combine s = o := by
  rcases ho with ⟨e, rfl⟩ | ⟨φ, r, rfl, hr⟩
  · simp [connective, h]
  · exact connective_of_lower h (hsep r hr)

/-- What the unary rule settles on, every rule above it gives. -/
theorem formula_of_unary {s : List Char} {o : Outcome Formula} {m : Nat}
    (h : formulaRule registry m .unary s = o) (ho : Settled o) :
    formulaRule registry (m + 4) .formula s = o := by
  have h1 : formulaRule registry (m + 1) .conjunction s = o :=
    connective_of_settled h ho fun r hr => by simp [preskip_apply, hr]
  have h2 : formulaRule registry (m + 2) .disjunction s = o :=
    connective_of_settled h1 ho fun r hr => by simp [preskip_apply, hr]
  have h3 : formulaRule registry (m + 3) .implication s = o :=
    connective_of_settled h2 ho fun r hr => by simp [preskip_apply, hr, lit]
  show (formulaRule registry (m + 3) .implication <|> formulaRule registry (m + 3) .brackets) s = o
  rw [orElse_apply, h3, ho.orElse]

theorem connective_fail_of_fail {β : Type} {lower self brackets : Parser Formula} {sep : Parser β}
    {combine : Formula → Formula → Formula} {s : List Char} (hl : lower s = .fail)
    (hb : brackets s = .fail) : connective lower self brackets sep combine s = .fail := by
  simp [connective, hl, hb]

/-- Text on which the unary rule fails, and which does not start with a bracket, is no formula. -/
theorem formula_fail_of_unary {c : Char} {s : List Char} (hc : c ≠ '(') (hsp : isSpace c = false)
    {m : Nat} (h : formulaRule registry (m + 1) .unary (c :: s) = .fail) :
    formulaRule registry (m + 1 + 4) .formula (c :: s) = .fail := by
  have hb : ∀ k, formulaRule registry (k + 1) .brackets (c :: s) = .fail := fun k => by
    simp [formulaRule, formulaStep, hsp, char_cons_of_ne hc]
  have h1 : formulaRule registry (m + 1 + 1) .conjunction (c :: s) = .fail :=
    connective_fail_of_fail h (hb m)
  have h2 : formulaRule registry (m + 1 + 2) .disjunction (c :: s) = .fail :=
    connective_fail_of_fail h1 (hb (m + 1))
  have h3 : formulaRule registry (m + 1 + 3) .implication (c :: s) = .fail :=
    connective_fail_of_fail h2 (hb (m + 2))
  show (formulaRule registry (m + 1 + 3) .implication <|>
    formulaRule registry (m + 1 + 3) .brackets) _ = _
  rw [orElse_apply, h3, hb]
  rfl

/-- `P` and `H` are read by their modal rule, unless it fails. -/
theorem unary_of_past {mk : Option TimeInterval → ModalOperator}
    (hmk : mk = .oncePast ∨ mk = .alwaysPast) {s : List Char} {o : Outcome Formula} (k : Nat)
    (h : modal registry (mk none).symbol (createPast mk) (operandRule registry k 0) k
      ((mk none).symbol :: s) = o) (ho : Settled o) :
    formulaRule registry (k + 3) .unary ((mk none).symbol :: s) = o := by
  simp only [operandRule, levelRule_zero] at h
  rcases hmk with rfl | rfl <;> simp only [ModalOperator.symbol] at h ⊢ <;>
  simp [formulaRule.eq_2, formulaStep, modal_fail_of_head, isSpace, createP, createH, h, ho.orElse]

theorem modal_options_reads (symbol : Char) (create : Term → Except QueryError ModalOperator)
    (hsym : isSpace symbol = false) {es : List OptionEntry} (hes : es ≠ []) {body : Parser Formula}
    {s rest : List Char} {φ : Formula} (hbody : body s = .ok φ rest) {n : Nat} (hn : es.length ≤ n) :
    modal registry symbol create body n (symbol :: (optionsText es ++ s)) =
      ofExcept ((Formula.modal · φ) <$> create (.list (es.map OptionEntry.term))) rest := by
  have hpre : preskip (options registry n) (optionsText es ++ s) =
      options registry n (optionsText es ++ s) := preskip_of_head (by simp [optionsText, isSpace])
  simp only [modal, bind_apply, preskip_cons _ hsym, char_cons_self, Outcome.ok_bind, orElse_apply,
    hpre, options_reads hes s hn, Outcome.ok_orElse, hbody]
  cases create (.list (es.map OptionEntry.term)) <;> rfl

/-- The text `parse_` reads to a value, and the spaces after it. -/
theorem parse__eq_ok {α : Type} {rule : Nat → Parser α} {t : String} {v : α}
    (h : parse_ rule t = some (.ok v)) :
    ∃ r, rule (fuelFor t) t.data = .ok v r ∧ r.dropWhile isSpace = [] := by
  simp only [parse_] at h
  split at h
  · rename_i v' r hr
    split_ifs at h with hsp
    · simp only [Option.some.injEq, Except.ok.injEq] at h
      exact ⟨r, by rw [← h]; exact hr, hsp⟩
    · simp at h
  all_goals simp at h

/-- A modal query `symbol :: (opts ++ t)`: if the modal rule, given fuel for the option text and a
body it reads, gives the result of `x` over that body, and the unary rule picks the modal rule's
settled outcomes, then `parse` gives the result of `x` over what the body rule reads from `t`. -/
theorem parse_modal {symbol : Char} {create : Term → Except QueryError ModalOperator}
    {opts : List Char} {x : Except QueryError ModalOperator} {t : String} {ψ : Formula}
    (ht : parse_ (fun n => operandRule registry n 0) t = some (.ok ψ))
    (hmodal : ∀ {k s rest φ}, opts.length ≤ k → operandRule registry k 0 s = .ok φ rest →
      modal registry symbol create (operandRule registry k 0) k (symbol :: (opts ++ s)) =
        ofExcept ((Formula.modal · φ) <$> x) rest)
    (hunary : ∀ {k s o}, modal registry symbol create (operandRule registry k 0) k (symbol :: s) = o →
      Settled o → formulaRule registry (k + 3) .unary (symbol :: s) = o) :
    parse registry (String.mk (symbol :: (opts ++ t.data))) = some ((Formula.modal · ψ) <$> x) := by
  obtain ⟨r, hbody, hr⟩ := parse__eq_ok ht
  obtain ⟨k, hk⟩ : ∃ k, fuelFor (String.mk (symbol :: (opts ++ t.data))) = k + 3 + 4 :=
    ⟨fuelFor (String.mk (symbol :: (opts ++ t.data))) - 7, by simp [fuelFor]; omega⟩
  have hbound : fuelFor t ≤ k ∧ opts.length ≤ k := by
    have htl : t.length = t.data.length := rfl
    simp only [fuelFor, String.length_mk, List.length_cons, List.length_append] at hk ⊢
    omega
  have happrox : (operandRule registry (fuelFor t) 0 t.data).Approx (operandRule registry k 0 t.data) :=
    ((formulaRule_mono hbound.1 _).orElse (formulaRule_mono hbound.1 _)) t.data
  have hbody' : operandRule registry k 0 t.data = .ok ψ r :=
    (happrox.of_ne_exhausted (by simp [hbody])).trans hbody
  have hsettled : Settled (ofExcept ((Formula.modal · ψ) <$> x) r) := by
    cases x with
    | error e => exact .inl ⟨e, rfl⟩
    | ok op => exact .inr ⟨_, r, rfl, hr⟩
  have hformula := formula_of_unary (hunary (hmodal hbound.2 hbody') hsettled) hsettled
  simp only [parse, parse_, hk, String.toList]
  rw [hformula]
  cases x <;> simp [hr]

/-- A past operator with an option list and a body that the body rule reads: the operator that
`createP` or `createH` makes of the options, over the body. -/
theorem parse_past_options {mk : Option TimeInterval → ModalOperator}
    (hmk : mk = .oncePast ∨ mk = .alwaysPast) {es : List OptionEntry} (hes : es ≠ [])
    {t : String} {ψ : Formula} (ht : parse_ (fun n => operandRule registry n 0) t = some (.ok ψ)) :
    parse registry (pastQuery mk (optionsText es) t.data) =
      some ((Formula.modal · ψ) <$> createPast mk (.list (es.map OptionEntry.term))) := by
  have hsym : isSpace (mk none).symbol = false := by rcases hmk with rfl | rfl <;> rfl
  exact parse_modal ht
    (fun hk hbody => modal_options_reads _ _ hsym hes hbody ((length_le_optionsText es).trans hk))
    (fun h hs => unary_of_past hmk _ h hs)

/-- `P` and `H` fail as formulas when their modal rule fails: the letter is not an atom. -/
theorem unary_past_fail {mk : Option TimeInterval → ModalOperator}
    (hmk : mk = .oncePast ∨ mk = .alwaysPast) {s : List Char} (k : Nat)
    (h : modal registry (mk none).symbol (createPast mk) (operandRule registry k 0) k
      ((mk none).symbol :: s) = .fail)
    (hatom : atomRaw registry ((mk none).symbol :: s) = .fail) :
    formulaRule registry (k + 3) .unary ((mk none).symbol :: s) = .fail := by
  simp only [operandRule, levelRule_zero] at h
  rcases hmk with rfl | rfl <;> simp only [ModalOperator.symbol] at h hatom ⊢ <;>
  simp [formulaRule.eq_2, formulaStep, modal_fail_of_head, isSpace, createP, createH, h,
    char_cons_of_ne, predicate, predicateWithArgs, predicateNullary, functorArguments, hatom]

/-- A past operator whose option list does not read makes the query invalid. -/
theorem parse_past_fail {mk : Option TimeInterval → ModalOperator}
    (hmk : mk = .oncePast ∨ mk = .alwaysPast) {u : List Char}
    (hopts : ∀ n, 2 ≤ n → options registry n ('[' :: u) = .fail) :
    parse registry (String.mk ((mk none).symbol :: '[' :: u)) =
      some (.error (.invalidSyntax (String.mk ((mk none).symbol :: '[' :: u)))) := by
  obtain ⟨k, hk⟩ : ∃ k, fuelFor (String.mk ((mk none).symbol :: '[' :: u)) = k + 3 + 3 + 4 :=
    ⟨fuelFor (String.mk ((mk none).symbol :: '[' :: u)) - 10, by simp [fuelFor]; omega⟩
  have hbody : operandRule registry (k + 3) 0 ('[' :: u) = .fail := by
    simp only [operandRule, levelRule_zero, orElse_apply, Outcome.fail_orElse,
      unary_fail_of_head (c := '[') (by decide) (by decide) (by decide) (by decide)]
    rw [formulaRule.eq_2]
    simp [formulaStep, isSpace, char_cons_of_ne]
  have hmodal : modal registry (mk none).symbol (createPast mk) (operandRule registry (k + 3) 0)
      (k + 3) ((mk none).symbol :: '[' :: u) = .fail := by
    rcases hmk with rfl | rfl <;>
    simp [modal, ModalOperator.symbol, isSpace, hopts (k + 3) (by omega), nil, hbody]
  have hupper : (mk none).symbol.isUpper := by rcases hmk with rfl | rfl <;> rfl
  have hatom : atomRaw registry ((mk none).symbol :: '[' :: u) = .fail := by
    simpa using @atomRaw_upper_fail registry [(mk none).symbol] ('[' :: u)
      (by simp [isIdent, hupper]) (by simp [EndsIdent]; decide) (by simp)
  have hsym : (mk none).symbol ≠ '(' ∧ isSpace (mk none).symbol = false := by
    rcases hmk with rfl | rfl <;> decide
  have hformula : formulaRule registry (k + 3 + 3 + 4) .formula ((mk none).symbol :: '[' :: u) =
      .fail := formula_fail_of_unary hsym.1 hsym.2 (unary_past_fail hmk (k + 3) hmodal hatom)
  simp only [parse, parse_, hk, String.toList, hformula]

/-! ### Intervals -/

/-- `begin`, or `since`. -/
def beginKey (since : Bool) : String := if since then "since" else "begin"

/-- `end`, or `until`. -/
def endKey (untilKey : Bool) : String := if untilKey then "until" else "end"

theorem isIdent_beginKey (since : Bool) : isIdent Char.isLower (beginKey since).data := by
  cases since <;> decide

theorem isIdent_endKey (untilKey : Bool) : isIdent Char.isLower (endKey untilKey).data := by
  cases untilKey <;> decide

/-- The option lists of an interval with begin `b` and end `e`. -/
inductive IntervalOptions where
  /-- `[b,e]`, or `[b]` without an end. -/
  | positional (b : ConstantNumber) (e : Option ConstantNumber)
  /-- A begin key with `b` and an end key with `e`, the end first if `endFirst`; the entry of an
  absent side is left out. -/
  | keyed (since untilKey endFirst : Bool) (b e : Option ConstantNumber) (h : b.isSome ∨ e.isSome)

namespace IntervalOptions

def entries : IntervalOptions → List OptionEntry
  | positional b e => .positional (.number b) :: (e.map fun e => .positional (.number e)).toList
  | keyed since untilKey endFirst b e _ =>
    let bs := (b.map fun b => OptionEntry.keyed (beginKey since) (isIdent_beginKey since) (.number b))
    let es := (e.map fun e => OptionEntry.keyed (endKey untilKey) (isIdent_endKey untilKey) (.number e))
    if endFirst then es.toList ++ bs.toList else bs.toList ++ es.toList

def render (opts : IntervalOptions) : List Char := optionsText opts.entries

/-- The interval the option list writes: the doubles of its numbers. -/
def interval : IntervalOptions → TimeInterval
  | positional b e => ⟨some b.literal.value, e.map (·.literal.value), .inl rfl⟩
  | keyed _ _ _ b e h => ⟨b.map (·.literal.value), e.map (·.literal.value), by simpa using h⟩

theorem entries_ne_nil : ∀ opts : IntervalOptions, opts.entries ≠ []
  | positional _ _ => List.cons_ne_nil _ _
  | keyed _ _ endFirst b e h => by
    rcases h with h | h <;> obtain ⟨x, rfl⟩ := Option.isSome_iff_exists.1 h <;> cases endFirst <;>
    simp [entries]

end IntervalOptions

theorem intervalOption_begin (since : Bool) (v : Binary64) (e : Option Binary64) :
    intervalOption (none, e) (.predicate "=" [.string (beginKey since), .double v]) =
      .ok (some v, e) := by
  cases since <;> simp [intervalOption, beginKey]

theorem intervalOption_end (untilKey : Bool) (v : Binary64) (b : Option Binary64) :
    intervalOption (b, none) (.predicate "=" [.string (endKey untilKey), .double v]) =
      .ok (b, some v) := by
  cases untilKey <;> simp [intervalOption, endKey]

/-- Each interval form gives the interval of its numbers. -/
theorem readTimeInterval_entries (opts : IntervalOptions) :
    readTimeInterval (opts.entries.map OptionEntry.term) = .ok (some opts.interval) := by
  cases opts with
  | positional b e =>
    cases e <;>
    simp [IntervalOptions.entries, IntervalOptions.interval, readTimeInterval, intervalOption,
      OptionEntry.term, ConstantText.term]
  | keyed since untilKey endFirst b e h =>
    cases b <;> cases e <;> cases endFirst <;> simp at h ⊢ <;>
    simp [IntervalOptions.entries, IntervalOptions.interval, readTimeInterval, OptionEntry.term,
      ConstantText.term, intervalOption_begin, intervalOption_end]

/-- Every error of `readTimeInterval`'s loop is an unrecognized option. -/
theorem intervalOption_cases (st : Option Binary64 × Option Binary64) (t : Term) :
    (∃ o, intervalOption st t = .error (.unrecognizedOption o)) ∨
      ∃ st', intervalOption st t = .ok st' := by
  obtain ⟨b, e⟩ := st
  simp only [intervalOption, reportUnrecognized]
  split <;> (try split_ifs) <;> simp

/-- An entry `readTimeInterval` never accepts is reported, whatever was read before it. -/
theorem intervalOption_bad (st : Option Binary64 × Option Binary64) {x : OptionEntry}
    (hx : x.isBad) :
    intervalOption st x.term = .error (.unrecognizedOption x.term) := by
  obtain ⟨b, e⟩ := st
  cases x with
  | positional c =>
    cases c with
    | number n => exact absurd hx (by simp [OptionEntry.isBad])
    | _ => simp [OptionEntry.term, ConstantText.term, intervalOption, reportUnrecognized]
  | keyed key _ c =>
    cases c with
    | number n =>
      simp only [OptionEntry.isBad, Bool.not_eq_true', Bool.or_eq_false_iff,
        decide_eq_false_iff_not] at hx
      simp [OptionEntry.term, ConstantText.term, intervalOption, reportUnrecognized, hx]
    | _ => simp [OptionEntry.term, ConstantText.term, intervalOption, reportUnrecognized]

theorem foldlM_intervalOption_bad :
    ∀ (es : List OptionEntry) (st : Option Binary64 × Option Binary64),
    (∃ x ∈ es, x.isBad) →
      ∃ o, (es.map OptionEntry.term).foldlM intervalOption st = .error (.unrecognizedOption o)
  | [], _, ⟨_, hx, _⟩ => absurd hx (List.not_mem_nil _)
  | x :: es, st, ⟨y, hy, hbad⟩ => by
    simp only [List.map_cons, List.foldlM_cons]
    rcases List.mem_cons.1 hy with rfl | hy
    · exact ⟨_, by rw [intervalOption_bad st hbad]; rfl⟩
    · rcases intervalOption_cases st x.term with ⟨o, ho⟩ | ⟨st', ho⟩
      · exact ⟨o, by rw [ho]; rfl⟩
      · obtain ⟨o, h⟩ := foldlM_intervalOption_bad es st' ⟨y, hy, hbad⟩
        exact ⟨o, by rw [ho]; exact h⟩

/-! ### The interval forms -/

/-- For `P` and `H` over a body the body rule `unary | brackets` reads: every interval form gives
the operator with the interval of its numbers, `[,e]` and `[b,]` are invalid syntax whatever
follows them, and an option list with an entry `readTimeInterval` never accepts raises the
unrecognized-option error. -/
theorem parse_past_interval (registry : PrefixRegistry) {mk : Option TimeInterval → ModalOperator}
    (hmk : mk = .oncePast ∨ mk = .alwaysPast) {t : String} {ψ : Formula}
    (ht : parse_ (fun n => operandRule registry n 0) t = some (.ok ψ)) :
    (∀ opts : IntervalOptions, parse registry (pastQuery mk opts.render t.data) =
      some (.ok (.modal (mk (some opts.interval)) ψ))) ∧
    (∀ (e : ConstantNumber) (u : List Char),
      parse registry (pastQuery mk ('[' :: ',' :: (e.literal.render ++ [']'])) u) =
        some (.error (.invalidSyntax (pastQuery mk ('[' :: ',' :: (e.literal.render ++ [']'])) u)))) ∧
    (∀ (b : ConstantNumber) (u : List Char),
      parse registry (pastQuery mk ('[' :: (b.literal.render ++ [',', ']'])) u) =
        some (.error (.invalidSyntax (pastQuery mk ('[' :: (b.literal.render ++ [',', ']'])) u)))) ∧
    (∀ es : List OptionEntry, (∃ x ∈ es, x.isBad) →
      ∃ o, parse registry (pastQuery mk (optionsText es) t.data) =
        some (.error (.unrecognizedOption o))) := by
  refine ⟨fun opts => ?_, fun e u => ?_, fun b u => ?_, fun es hbad => ?_⟩
  · rw [IntervalOptions.render, parse_past_options hmk opts.entries_ne_nil ht]
    rcases hmk with rfl | rfl <;>
    simp [createPast, readTimeInterval_entries]
  · simpa [pastQuery] using @parse_past_fail registry mk hmk _
      fun n hn => options_fail_empty_first _ (by omega)
  · simpa [pastQuery] using @parse_past_fail registry mk hmk _
      fun n hn => options_fail_empty_last (.positional (.number b)) u hn
  · obtain ⟨o, ho⟩ := foldlM_intervalOption_bad es (none, none) hbad
    have hes : es ≠ [] := by rintro rfl; simp at hbad
    refine ⟨o, ?_⟩
    rw [parse_past_options hmk hes ht]
    rcases hmk with rfl | rfl <;>
    simp [createPast, readTimeInterval, ho]

/-- `P[until=20,since=10] p(x)` is `P` of the interval from 10 to 20, and the empty slots of
`P[,10.0] p(x)` and `P[10.0,] p(x)` make these queries invalid. -/
theorem parse_past_until_since_and_empty_slots :
    parse (fun _ _ => none) "P[until=20,since=10] p(x)" =
      some (.ok (.modal (.oncePast (some ⟨some (Binary64.ofNat 10), some (Binary64.ofNat 20),
        .inl rfl⟩)) (.predicate ⟨"p", [.string "x"]⟩))) ∧
    parse (fun _ _ => none) "P[,10.0] p(x)" = some (.error (.invalidSyntax "P[,10.0] p(x)")) ∧
    parse (fun _ _ => none) "P[10.0,] p(x)" = some (.error (.invalidSyntax "P[10.0,] p(x)")) := by
  have h := parse_past_interval (fun _ _ => none) (.inl rfl) (t := " p(x)")
    (ψ := .predicate ⟨"p", [.string "x"]⟩) rfl
  let ten : ConstantNumber := ⟨.decimal ⟨none, ['1', '0'], some ['0'], none, by decide, by decide,
    by decide, by decide, by decide, by decide⟩, rfl⟩
  refine ⟨(h.1 (.keyed true true true
      (some ⟨.decimal ⟨none, ['1', '0'], none, none, by decide, by decide, by decide, by decide,
        by decide, by decide⟩, rfl⟩)
      (some ⟨.decimal ⟨none, ['2', '0'], none, none, by decide, by decide, by decide, by decide,
        by decide, by decide⟩, rfl⟩)
      (.inl rfl))).trans (by decide), h.2.1 ten " p(x)".data, h.2.2.1 ten " p(x)".data⟩

end QueryParser

end Knowrob

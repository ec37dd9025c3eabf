import Knowrob.Terms.Term

/-!
# Spirit Qi parsers

The query grammar of `QueryParser.cpp` is written with Boost Spirit Qi. This module gives the part
of Qi the grammar uses, as parsers over the remaining input:

* a parser matches and leaves the rest of the input, fails (so that an enclosing alternative tries
  its next branch, from the same position), or throws: the semantic actions of the grammar throw
  `QueryError`, and nothing between the action and the caller of `parse_` catches it;
* sequences are `do` blocks, alternatives are `<|>` and try their branches in order;
* a terminal, or a rule declared without a skipper, used inside a rule with the `ascii::space`
  skipper first skips spaces (`preskip`): this is what Qi does for both, and it is the only place
  where spaces are skipped.

The grammar is recursive, and its recursion is bounded by fuel; a parser that runs out reports
`exhausted`, which is not a behaviour of the code. `Approx p q` says that `q` gives what `p` gives
wherever `p` does not run out, and every combinator keeps it: this is how more fuel is shown never
to change a result.
-/

namespace Knowrob

/-- `QueryError`, with the arguments of its format strings. -/
inductive QueryError where
  /-- "Query string ({}) has invalid syntax." -/
  | invalidSyntax (queryString : String)
  /-- "Unrecognized option ({}) in modal operator." -/
  | unrecognizedOption (option : Term)
  /-- "Cannot construct IRI for '{}': IRI prefix '{}' is not registered!" -/
  | unregisteredPrefix (name ns : String)
  deriving DecidableEq, Repr

instance instDecidableEqExcept {ε α : Type} [DecidableEq ε] [DecidableEq α] :
    DecidableEq (Except ε α)
  | .ok a, .ok b => decidable_of_iff (a = b) (by simp)
  | .error e, .error e' => decidable_of_iff (e = e') (by simp)
  | .ok _, .error _ => isFalse nofun
  | .error _, .ok _ => isFalse nofun

@[simp] theorem except_ok_bind {ε α β : Type} (a : α) (f : α → Except ε β) :
    (Except.ok a >>= f) = f a := rfl

@[simp] theorem except_error_bind {ε α β : Type} (e : ε) (f : α → Except ε β) :
    (Except.error e >>= f) = .error e := rfl

@[simp] theorem except_map_ok {ε α β : Type} (f : α → β) (a : α) :
    (f <$> (Except.ok a : Except ε α)) = .ok (f a) := rfl

@[simp] theorem except_map_error {ε α β : Type} (f : α → β) (e : ε) :
    (f <$> (Except.error e : Except ε α)) = .error e := rfl

/-- What a parser does with the input it is given. -/
inductive Outcome (α : Type) where
  | ok (value : α) (rest : List Char)
  | fail
  | error (e : QueryError)
  | exhausted
  deriving DecidableEq, Repr

/-- A parser over the remaining input. -/
def Parser (α : Type) : Type := List Char → Outcome α

namespace Outcome

variable {α β : Type}

/-- Continue a sequence with the rest of the input. -/
def bind : Outcome α → (α → Parser β) → Outcome β
  | ok a r, f => f a r
  | fail, _ => fail
  | error e, _ => error e
  | exhausted, _ => exhausted

/-- Try the next branch of an alternative, on the same input, only if this one failed. -/
def orElse : Outcome α → Outcome α → Outcome α
  | fail, o => o
  | o, _ => o

@[simp] theorem ok_bind (a : α) (r : List Char) (f : α → Parser β) : (ok a r).bind f = f a r := rfl
@[simp] theorem fail_bind (f : α → Parser β) : (fail : Outcome α).bind f = fail := rfl
@[simp] theorem error_bind (e : QueryError) (f : α → Parser β) :
    (error e : Outcome α).bind f = error e := rfl
@[simp] theorem exhausted_bind (f : α → Parser β) : (exhausted : Outcome α).bind f = exhausted :=
  rfl

@[simp] theorem ok_orElse (a : α) (r : List Char) (o : Outcome α) : (ok a r).orElse o = ok a r := rfl
@[simp] theorem fail_orElse (o : Outcome α) : fail.orElse o = o := rfl
@[simp] theorem error_orElse (e : QueryError) (o : Outcome α) : (error e).orElse o = error e := rfl
@[simp] theorem exhausted_orElse (o : Outcome α) : exhausted.orElse o = exhausted := rfl

end Outcome

namespace Parser

variable {α β : Type}

instance : Monad Parser where
  pure a := fun s => .ok a s
  bind p f := fun s => (p s).bind f

instance : OrElse (Parser α) := ⟨fun p q s => (p s).orElse (q () s)⟩

@[simp] theorem pure_apply (a : α) (s : List Char) : (pure a : Parser α) s = .ok a s := rfl
@[simp] theorem bind_apply (p : Parser α) (f : α → Parser β) (s : List Char) :
    (p >>= f) s = (p s).bind f := rfl
@[simp] theorem map_apply (f : α → β) (p : Parser α) (s : List Char) :
    (f <$> p) s = (p s).bind fun a => pure (f a) := rfl
@[simp] theorem orElse_apply (p q : Parser α) (s : List Char) :
    (p <|> q) s = (p s).orElse (q s) := rfl

/-- A character parser (`ascii::lower`, `qi::char_ - '\''`, ...). -/
def satisfy (p : Char → Bool) : Parser Char
  | c :: s => if p c then .ok c s else .fail
  | [] => .fail

/-- `qi::char_(c)`, and the literal `'c'`. -/
def char (c : Char) : Parser Char := satisfy (· == c)

/-- A literal string such as `"->"`. -/
def lit : List Char → Parser Unit
  | [] => pure ()
  | c :: cs => do
    let _ ← char c
    lit cs

/-- `*p` for a character parser `p`: the longest run of matching characters. -/
def manyChars (p : Char → Bool) : Parser (List Char) := fun s => .ok (s.takeWhile p) (s.dropWhile p)

/-- `+p` for a character parser `p`. -/
def many1Chars (p : Char → Bool) : Parser (List Char) := do
  let c ← satisfy p
  let cs ← manyChars p
  pure (c :: cs)

/-- `ascii::space`, the skipper of the formula and predicate rules. -/
def isSpace (c : Char) : Bool :=
  c == ' ' || c == '\t' || c == '\n' || c == '\r' || c == '\x0b' || c == '\x0c'

/-- A terminal, or a rule declared without a skipper, used in a rule with the `ascii::space`
skipper: Qi skips spaces before it. -/
def preskip (p : Parser α) : Parser α := fun s => p (s.dropWhile isSpace)

/-- `p % sep`: `p`, then `sep >> p` for as long as both match; a `sep` whose `p` does not match is
given back. Each element takes one unit of the fuel `n`. -/
def sepBy (p : Parser α) (sep : Parser β) : Nat → Parser (List α)
  | 0 => fun _ => .exhausted
  | n + 1 => do
    let a ← p
    let as ← (do let _ ← sep; sepBy p sep n) <|> pure []
    pure (a :: as)

/-- A semantic action's result: its value, or the `QueryError` it throws. -/
def ofExcept : Except QueryError α → Parser α
  | .ok a => pure a
  | .error e => fun _ => .error e

@[simp] theorem satisfy_nil (p : Char → Bool) : satisfy p [] = .fail := rfl
@[simp] theorem satisfy_cons (p : Char → Bool) (c : Char) (s : List Char) :
    satisfy p (c :: s) = if p c then .ok c s else .fail := rfl
@[simp] theorem manyChars_apply (p : Char → Bool) (s : List Char) :
    manyChars p s = .ok (s.takeWhile p) (s.dropWhile p) := rfl
theorem preskip_apply (p : Parser α) (s : List Char) :
    preskip p s = p (s.dropWhile isSpace) := rfl
@[simp] theorem ofExcept_ok (a : α) (s : List Char) : ofExcept (.ok a) s = .ok a s := rfl
@[simp] theorem ofExcept_error (e : QueryError) (s : List Char) :
    (ofExcept (.error e) : Parser α) s = .error e := rfl

theorem char_apply (c : Char) (s : List Char) :
    char c s = match s with
      | d :: s' => if d = c then .ok d s' else .fail
      | [] => .fail := by
  cases s <;> simp [char]

@[simp] theorem char_cons_self (c : Char) (s : List Char) : char c (c :: s) = .ok c s := by
  simp [char]

theorem char_cons_of_ne {c d : Char} (h : d ≠ c) (s : List Char) : char c (d :: s) = .fail := by
  simp [char, h]

@[simp] theorem char_nil (c : Char) : char c [] = .fail := rfl

@[simp] theorem lit_append (cs s : List Char) : lit cs (cs ++ s) = .ok () s := by
  induction cs with
  | nil => rfl
  | cons c cs ih => simp [lit, ih]

end Parser

/-! ### More fuel never changes a result -/

namespace Outcome

variable {α β : Type}

/-- `o'` is `o`, unless `o` ran out of fuel. -/
def Approx (o o' : Outcome α) : Prop := o = exhausted ∨ o' = o

theorem Approx.refl (o : Outcome α) : o.Approx o := .inr rfl

theorem Approx.trans {o o' o'' : Outcome α} (h : o.Approx o') (h' : o'.Approx o'') : o.Approx o'' := by
  rcases h with h | rfl
  · exact .inl h
  · exact h'

theorem Approx.of_ne_exhausted {o o' : Outcome α} (h : o.Approx o') (hne : o ≠ exhausted) : o' = o :=
  h.resolve_left hne

theorem Approx.bind {o o' : Outcome α} {f f' : α → Parser β} (h : o.Approx o')
    (hf : ∀ a s, (f a s).Approx (f' a s)) : (o.bind f).Approx (o'.bind f') := by
  rcases h with h | h
  · simp [h, Approx]
  · rw [h]; cases o <;> first | exact hf _ _ | exact .refl _

theorem Approx.orElse {o o' p p' : Outcome α} (h : o.Approx o') (hp : p.Approx p') :
    (o.orElse p).Approx (o'.orElse p') := by
  rcases h with h | h
  · simp [h, Approx]
  · rw [h]; cases o <;> first | exact hp | exact .refl _

end Outcome

namespace Parser

variable {α β : Type}

/-- `q` gives what `p` gives, wherever `p` does not run out of fuel. -/
def Approx (p q : Parser α) : Prop := ∀ s, (p s).Approx (q s)

theorem Approx.refl (p : Parser α) : Approx p p := fun _ => .refl _

theorem Approx.trans {p q r : Parser α} (h : Approx p q) (h' : Approx q r) : Approx p r :=
  fun s => (h s).trans (h' s)

theorem approx_exhausted (q : Parser α) : Approx (fun _ => .exhausted) q := fun _ => .inl rfl

theorem Approx.bind {p p' : Parser α} {f f' : α → Parser β} (hp : Approx p p')
    (hf : ∀ a, Approx (f a) (f' a)) : Approx (p >>= f) (p' >>= f') :=
  fun s => (hp s).bind fun a => hf a

theorem Approx.orElse {p p' q q' : Parser α} (hp : Approx p p') (hq : Approx q q') :
    Approx (p <|> q) (p' <|> q') :=
  fun s => (hp s).orElse (hq s)

theorem Approx.map (f : α → β) {p p' : Parser α} (hp : Approx p p') : Approx (f <$> p) (f <$> p') :=
  fun s => (hp s).bind fun _ _ => .refl _

theorem Approx.preskip {p p' : Parser α} (hp : Approx p p') : Approx (preskip p) (preskip p') :=
  fun _ => hp _

theorem Approx.sepBy {p p' : Parser α} (sep : Parser β) (hp : Approx p p') :
    ∀ {n m : Nat}, n ≤ m → Approx (Parser.sepBy p sep n) (Parser.sepBy p' sep m)
  | 0, _, _ => approx_exhausted _
  | n + 1, m + 1, h =>
    hp.bind fun _ => ((Approx.refl sep).bind fun _ => Approx.sepBy sep hp (by omega)).orElse
      (.refl _) |>.bind fun _ => .refl _

end Parser

end Knowrob

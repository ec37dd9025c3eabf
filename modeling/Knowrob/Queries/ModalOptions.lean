import Knowrob.Formulas.Formula
import Knowrob.Queries.Qi

/-!
# Modal operators from option lists

The functions `createK`, `createB`, `createP` and `createH` of `QueryParser.cpp`, which turn the
option list written after a modal letter into the operator. Each walks the options once, in order,
with the values read so far as its state, and throws at the first option it does not accept
(`reportUnrecognized`).

The options term is the list the `options` rule builds, or `ListTerm::nil()` when there is none;
the code tells these apart by pointer, but a list the `options` rule builds is never empty, and the
walk over the empty list changes nothing, so the model reads both as lists.
-/

namespace Knowrob

namespace QueryParser

/-- The error `reportUnrecognized` throws. -/
def reportUnrecognized {α : Type} (option : Term) : Except QueryError α :=
  .error (.unrecognizedOption option)

/-- One round of `createK`'s loop: a first string is the agent, and so is the string value of a
binary predicate with key `agent` or `a`, if no agent was read yet. -/
def knowledgeOption (agentName : Option String) (option : Term) :
    Except QueryError (Option String) :=
  match option with
  | .string v => if agentName.isNone then .ok (some v) else reportUnrecognized option
  | .predicate _ [key, .string v] =>
    if agentName.isNone ∧ (key = .string "agent" ∨ key = .string "a") then .ok (some v)
    else reportUnrecognized option
  | _ => reportUnrecognized option

/-- `createK`: the agent `self` is no agent. -/
def createK (optionsTerm : Term) : Except QueryError ModalOperator :=
  match optionsTerm with
  | .list options => do
    let agentName ← options.foldlM knowledgeOption none
    pure (match agentName with
      | some a => if a ≠ "self" then .knowledge (some a) else .knowledge none
      | none => .knowledge none)
  | _ => pure (.knowledge none)

/-- One round of `createB`'s loop: a first string is the agent, a first number the confidence, and
the keys `agent`/`a` and `confidence`/`c` set them if they are not set yet. -/
def beliefOption (state : Option String × Option Binary64) (option : Term) :
    Except QueryError (Option String × Option Binary64) :=
  let (agentName, confidenceValue) := state
  match option with
  | .string v =>
    if agentName.isNone then .ok (some v, confidenceValue) else reportUnrecognized option
  | .double d =>
    if confidenceValue.isNone then .ok (agentName, some d) else reportUnrecognized option
  | .predicate _ [key, value] =>
    match value with
    | .string v =>
      if agentName.isNone ∧ (key = .string "agent" ∨ key = .string "a") then
        .ok (some v, confidenceValue)
      else reportUnrecognized option
    | .double d =>
      if confidenceValue.isNone ∧ (key = .string "confidence" ∨ key = .string "c") then
        .ok (agentName, some d)
      else reportUnrecognized option
    | _ => reportUnrecognized option
  | _ => reportUnrecognized option

/-- `createB`: the agent `self` is no agent. -/
def createB (optionsTerm : Term) : Except QueryError ModalOperator :=
  match optionsTerm with
  | .list options => do
    let (agentName, confidenceValue) ← options.foldlM beliefOption (none, none)
    pure (.belief (if agentName = some "self" then none else agentName) confidenceValue)
  | _ => pure (.belief none none)

/-- One round of `readTimeInterval`'s loop: a number is the begin time, or else the end time, if
that is not set yet; the keys `begin`/`since` and `end`/`until` set them with a number value. -/
def intervalOption (state : Option Binary64 × Option Binary64) (option : Term) :
    Except QueryError (Option Binary64 × Option Binary64) :=
  let (beginTime, endTime) := state
  match option with
  | .double d =>
    if beginTime.isNone then .ok (some d, endTime)
    else if endTime.isNone then .ok (beginTime, some d)
    else reportUnrecognized option
  | .predicate _ [key, .double d] =>
    if beginTime.isNone ∧ (key = .string "begin" ∨ key = .string "since") then .ok (some d, endTime)
    else if endTime.isNone ∧ (key = .string "end" ∨ key = .string "until") then
      .ok (beginTime, some d)
    else reportUnrecognized option
  | _ => reportUnrecognized option

/-- `readTimeInterval`: an interval if some side was given. -/
def readTimeInterval (options : List Term) : Except QueryError (Option TimeInterval) := do
  let (beginTime, endTime) ← options.foldlM intervalOption (none, none)
  pure (if h : beginTime.isSome ∨ endTime.isSome then some ⟨beginTime, endTime, h⟩ else none)

/-- The body shared by `createP` and `createH`, with `op` the operator to build. -/
def createPast (op : Option TimeInterval → ModalOperator) (optionsTerm : Term) :
    Except QueryError ModalOperator :=
  match optionsTerm with
  | .list options => op <$> readTimeInterval options
  | _ => pure (op none)

def createP : Term → Except QueryError ModalOperator := createPast .oncePast

def createH : Term → Except QueryError ModalOperator := createPast .alwaysPast

end QueryParser

end Knowrob

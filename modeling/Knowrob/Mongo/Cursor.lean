import Mathlib.Logic.Function.Basic

/-!
# The option methods of `MongoCursor`

`MongoCursor::limit`, `ascending` and `descending` append fields to the cursor's options document
`opts_`, which is handed to the query when the cursor is first read. `ascending(key)` appends the
document `{"sort": {key: 1}}` and `descending(key)` the document `{"sort": {key: -1}}`, but each
builds that document in a function-local `static`, initialized on the first call in the process
and reused by every later call, on every cursor.

The process is modelled by the two statics and the options of every cursor; the methods are
steps on it, and the two sorting methods one definition, `sortBy`, with the direction as its
parameter. `cursor_sort_keeps_first_key`: every `ascending` call appends the sort document of
the first key `ascending` was called with in the process, whatever key it is passed, and likewise
`descending`; after `ascending(a)` on one cursor, `ascending(b)` on another sorts it on `a`.

The query, the collection, the session fields `appendSession` adds and the cursor's reads are not
modelled: none of the three methods reads them.
-/

namespace Knowrob

/-- A BSON value, as far as the cursor's options use them. -/
inductive BsonValue where
  | int32 (value : BitVec 32)
  | int64 (value : BitVec 64)
  | document (fields : List (String × BsonValue))
  deriving Repr

/-- A BSON document: its fields, in the order they were appended. -/
abbrev BsonDocument := List (String × BsonValue)

/-- `BCON_NEW("sort", "{", key, BCON_INT32(direction), "}")`. -/
def sortDocument (key : String) (direction : BitVec 32) : BsonDocument :=
  [("sort", .document [(key, .int32 direction)])]

/-- The two sorting methods, `ascending` and `descending`, each with its own `static` document. -/
inductive SortDirection where
  | ascending
  | descending
  deriving DecidableEq, Repr

/-- The direction `BCON_INT32` writes: `1` for `ascending`, `-1` for `descending`. -/
def SortDirection.value : SortDirection → BitVec 32
  | .ascending => 1
  | .descending => -1

/-- What the option methods of all cursors of one process read and write: the `static` document
of each sorting method, unset before its first call, and the `opts_` of each cursor. -/
structure CursorProcess where
  sortDoc : SortDirection → Option BsonDocument
  options : Nat → BsonDocument

/-- A call of one of the option methods on a cursor. -/
inductive CursorCall where
  | limit (cursor : Nat) (limit : UInt32)
  | ascending (cursor : Nat) (key : String)
  | descending (cursor : Nat) (key : String)

/-- The key of a call of the sorting method `dir`. -/
def CursorCall.sortKey? (dir : SortDirection) : CursorCall → Option String
  | .ascending _ key => if dir = .ascending then some key else none
  | .descending _ key => if dir = .descending then some key else none
  | .limit _ _ => none

namespace CursorProcess

/-- `bson_concat(opts_, doc)` on cursor `c`; other cursors keep their options. -/
def append (p : CursorProcess) (c : Nat) (doc : BsonDocument) : CursorProcess :=
  { p with options := Function.update p.options c (p.options c ++ doc) }

/-- `MongoCursor::limit(limit)`: `BSON_APPEND_INT64(opts_, "limit", limit)`. -/
def limit (p : CursorProcess) (c : Nat) (limit : UInt32) : CursorProcess :=
  p.append c [("limit", .int64 (BitVec.ofNat 64 limit.toNat))]

/-- The body shared by `ascending` and `descending`: `static bson_t *doc = BCON_NEW(...)` is built
from `key` on the method's first call only, and appended to the options. -/
def sortBy (p : CursorProcess) (dir : SortDirection) (c : Nat) (key : String) : CursorProcess :=
  let doc := (p.sortDoc dir).getD (sortDocument key dir.value)
  { p.append c doc with sortDoc := Function.update p.sortDoc dir (some doc) }

/-- `MongoCursor::ascending(key)`. -/
def ascending (p : CursorProcess) (c : Nat) (key : String) : CursorProcess :=
  p.sortBy .ascending c key

/-- `MongoCursor::descending(key)`. -/
def descending (p : CursorProcess) (c : Nat) (key : String) : CursorProcess :=
  p.sortBy .descending c key

def step (p : CursorProcess) : CursorCall → CursorProcess
  | .limit c n => p.limit c n
  | .ascending c key => p.ascending c key
  | .descending c key => p.descending c key

/-- A run of calls, in order. -/
def run (p : CursorProcess) (calls : List CursorCall) : CursorProcess := calls.foldl step p

@[simp] theorem run_nil (p : CursorProcess) : p.run [] = p := rfl

@[simp] theorem run_cons (p : CursorProcess) (call : CursorCall) (calls : List CursorCall) :
    p.run (call :: calls) = (p.step call).run calls := rfl

/-- A call sets the `static` of `dir` if it is the first call of that method, and else keeps it. -/
theorem step_sortDoc (p : CursorProcess) (call : CursorCall) (dir : SortDirection) :
    (p.step call).sortDoc dir = (p.sortDoc dir).or ((call.sortKey? dir).map (sortDocument · dir.value)) := by
  have hset : ∀ doc, some ((p.sortDoc dir).getD doc) = (p.sortDoc dir).or (some doc) := fun doc => by
    cases p.sortDoc dir <;> rfl
  cases call <;> cases dir <;>
    simp [step, limit, append, ascending, descending, sortBy, CursorCall.sortKey?, hset]

/-- Once set, the `static` of a sorting method never changes; before, the method's first call in
the run sets it. -/
theorem run_sortDoc (dir : SortDirection) : ∀ (p : CursorProcess) (calls : List CursorCall),
    (p.run calls).sortDoc dir =
      (p.sortDoc dir).or ((calls.findSome? (·.sortKey? dir)).map (sortDocument · dir.value))
  | p, [] => by simp
  | p, call :: calls => by
    rw [run_cons, run_sortDoc dir _ calls, step_sortDoc, List.findSome?_cons]
    cases call.sortKey? dir <;> simp [Option.or_assoc]

/-- In a process whose statics are unset, a sorting call after any earlier calls appends the sort
document of the method's first key in the run, or of its own key if it is the first. -/
theorem sortBy_after_run (options : Nat → BsonDocument) (calls : List CursorCall)
    (dir : SortDirection) (c : Nat) (key : String) :
    ((run ⟨fun _ => none, options⟩ calls).sortBy dir c key).options =
      Function.update (run ⟨fun _ => none, options⟩ calls).options c
        ((run ⟨fun _ => none, options⟩ calls).options c ++
          sortDocument ((calls.findSome? (·.sortKey? dir)).getD key) dir.value) := by
  simp only [sortBy, append, run_sortDoc, Option.none_or]
  cases calls.findSome? (·.sortKey? dir) <;> rfl

end CursorProcess

open CursorProcess in
/-- In a process that starts with unset statics, every `ascending(key)` on any cursor, after any
earlier calls, appends the sort document of the process's first `ascending` key, not of `key`;
likewise `descending`. So `ascending(a)` on cursor 0 and then `ascending(b)` on cursor 1 leaves
cursor 1 sorted on `a`. -/
theorem cursor_sort_keeps_first_key (options : Nat → BsonDocument) :
    (∀ calls c key, let p := run ⟨fun _ => none, options⟩ calls
      (p.step (.ascending c key)).options =
        Function.update p.options c
          (p.options c ++ sortDocument ((calls.findSome? (·.sortKey? .ascending)).getD key) 1)) ∧
    (∀ calls c key, let p := run ⟨fun _ => none, options⟩ calls
      (p.step (.descending c key)).options =
        Function.update p.options c
          (p.options c ++ sortDocument ((calls.findSome? (·.sortKey? .descending)).getD key) (-1))) ∧
    (run ⟨fun _ => none, options⟩ [.ascending 0 "a", .ascending 1 "b"]).options 1 =
      options 1 ++ sortDocument "a" 1 ∧
    sortDocument "a" 1 ≠ sortDocument "b" 1 :=
  ⟨fun calls c key => sortBy_after_run options calls .ascending c key,
    fun calls c key => sortBy_after_run options calls .descending c key,
    by simp [step, ascending, sortBy, append, SortDirection.value], by simp [sortDocument]⟩

end Knowrob

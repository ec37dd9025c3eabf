import Knowrob.Terms.Term

/-!
# Reasoner configurations

`ReasonerConfiguration::loadPropertyTree` of `reasoner.cpp` flattens a property tree into the
list `settings` of key and value terms, and collects the data files listed under `data-sources`.
The first loop runs over the root's children: a leaf is a setting whose key is the child's key as a
string term, and an inner node is handed to `loadSettings` with that key. `loadSettings` runs over
the children of a node: it skips a child under the empty key (a list item, with the warning
"todo: handle list values in options"), and otherwise builds the key `':'(key1, key2)` and recurses
the same way.

The specification flattens a tree into one setting per leaf reached by non-empty keys, in document
order, keyed by the left-nested `':'` term of its path (`settingsOf`). `load_settings_flatten`:
`loadPropertyTree` appends exactly these when no child of the root is a list item, but the first
loop does not skip the empty key, so a list item at the root is a setting keyed by `""`.
-/

namespace Knowrob

/-- A `boost::property_tree::ptree`: the node's data, and its children in document order, each
under its key. A list item is a child under the empty key. -/
inductive PTree where
  | node (data : String) (children : List (String × PTree))
  deriving Repr

namespace PTree

/-- `get_value<std::string>()`. -/
def data : PTree → String
  | node d _ => d

def children : PTree → List (String × PTree)
  | node _ cs => cs

/-- `ptree::empty()`: the node has no children. -/
def empty (t : PTree) : Bool := t.children.isEmpty

/-- `get_child_optional(key)` for a key without a `.` in it: the first child under `key`. -/
def getChild? (t : PTree) (key : String) : Option PTree :=
  (t.children.find? (·.1 == key)).map (·.2)

end PTree

/-- `DataFile`: a path and a format, the empty string when the format is unknown. -/
structure DataFile where
  path : String
  format : String
  deriving DecidableEq, Repr

/-- `ReasonerConfiguration`: the settings and the data files. -/
structure ReasonerConfiguration where
  settings : List (Term × Term)
  dataFiles : List DataFile

mutual
/-- `ReasonerConfiguration::loadSettings(key1, ptree)`: the pairs it appends to `settings`. -/
def loadSettings (key1 : Term) : PTree → List (Term × Term)
  | .node _ children => loadSettings1 key1 children

/-- The loop of `loadSettings` over the children from one on. -/
def loadSettings1 (key1 : Term) : List (String × PTree) → List (Term × Term)
  | [] => []
  | (key, child) :: rest =>
    (if key = "" then []
    else if child.empty then [(.predicate ":" [key1, .string key], .string child.data)]
    else loadSettings (.predicate ":" [key1, .string key]) child) ++ loadSettings1 key1 rest
end

/-- The first loop of `loadPropertyTree`, over the root's children: no key is skipped. -/
def loadTopSettings : List (String × PTree) → List (Term × Term)
  | [] => []
  | (key, child) :: rest =>
    (if child.empty then [(.string key, .string child.data)] else loadSettings (.string key) child) ++
      loadTopSettings rest

/-- The second part of `loadPropertyTree`: every child of `data-sources` with a `file`, whose
format is its `format`, or the empty string. -/
def dataSourceFiles (config : PTree) : List DataFile :=
  match config.getChild? "data-sources" with
  | none => []
  | some sources => sources.children.filterMap fun source =>
    (source.2.getChild? "file").map fun file =>
      ⟨file.data, ((source.2.getChild? "format").map PTree.data).getD ""⟩

/-- `ReasonerConfiguration::loadPropertyTree(config)`. -/
def ReasonerConfiguration.loadPropertyTree (cfg : ReasonerConfiguration) (config : PTree) :
    ReasonerConfiguration :=
  ⟨cfg.settings ++ loadTopSettings config.children, cfg.dataFiles ++ dataSourceFiles config⟩

/-! ### The flattening the specification describes -/

/-- Modelled from the spec: the key term of the keys `k1 … km` after a key term `key`:
`':'(…':'(key, k1)…, km)`. -/
def extendKey (key : Term) (keys : List String) : Term :=
  keys.foldl (fun key k => .predicate ":" [key, .string k]) key

mutual
/-- Every node below a tree's root, with the keys that reach it, in document order: a node, then
the nodes below it, then its next sibling. -/
def descendants : PTree → List (List String × PTree)
  | .node _ children => descendants1 children

/-- `descendants` of the children from one on. -/
def descendants1 : List (String × PTree) → List (List String × PTree)
  | [] => []
  | (key, child) :: rest =>
    ([key], child) :: ((descendants child).map fun d => (key :: d.1, d.2)) ++ descendants1 rest
end

/-- Modelled from the spec: the setting of a node reached by the keys `d.1` from a node whose key
term is `key`, if it is a leaf and no key on the way is empty. -/
def settingBelow (key : Term) (d : List String × PTree) : Option (Term × Term) :=
  if d.2.empty ∧ d.1.all (· ≠ "") then some (extendKey key d.1, .string d.2.data) else none

/-- Modelled from the spec: the settings of a tree, one per leaf reached by non-empty keys
`k1 … km`, in document order, keyed by `k1` for `m = 1` and by `':'(…':'(k1, k2)…, km)` else. -/
def settingsOf (t : PTree) : List (Term × Term) :=
  (descendants t).filterMap fun d =>
    match d.1 with
    | [] => none
    | k :: ks => if k = "" then none else settingBelow (.string k) (ks, d.2)

/-! ### `loadSettings` is the flattening -/

theorem extendKey_cons (key : Term) (k : String) (ks : List String) :
    extendKey key (k :: ks) = extendKey (.predicate ":" [key, .string k]) ks := rfl

theorem settingBelow_cons (key : Term) (k : String) (d : List String × PTree) :
    settingBelow key (k :: d.1, d.2) =
      if k = "" then none else settingBelow (.predicate ":" [key, .string k]) d := by
  by_cases hk : k = "" <;> simp [settingBelow, hk, extendKey_cons]

theorem settingBelow_of_not_empty (key : Term) {d : List String × PTree} (h : d.2.empty = false) :
    settingBelow key d = none := by
  simp [settingBelow, h]

mutual
/-- `loadSettings key t` is the setting of every leaf below `t`, keyed from `key`. -/
theorem loadSettings_eq (key : Term) :
    ∀ t : PTree, loadSettings key t = (descendants t).filterMap (settingBelow key)
  | .node _ children => by rw [loadSettings, descendants]; exact loadSettings1_eq key children

theorem loadSettings1_eq (key : Term) :
    ∀ cs : List (String × PTree), loadSettings1 key cs = (descendants1 cs).filterMap (settingBelow key)
  | [] => rfl
  | (k, child) :: rest => by
    have ih := loadSettings_eq (.predicate ":" [key, .string k]) child
    rw [loadSettings1, descendants1, List.cons_append, List.filterMap_cons, List.filterMap_append,
      List.filterMap_map, loadSettings1_eq key rest]
    by_cases hk : k = ""
    · simp [Function.comp_def, settingBelow, hk]
    · obtain ⟨d, _ | ⟨c, cs⟩⟩ := child
      · simp [settingBelow, extendKey, PTree.empty, PTree.children, PTree.data, descendants,
          descendants1, hk]
      · simp [Function.comp_def, settingBelow_cons, settingBelow_of_not_empty, hk, PTree.empty,
          PTree.children, ih]
end

/-- Setting by setting, the first loop is `loadSettings` with the child's key, except that it also
takes a child under the empty key. -/
theorem loadTopSettings_eq : ∀ cs : List (String × PTree), (∀ c ∈ cs, c.1 ≠ "") →
    loadTopSettings cs = settingsOf (.node "" cs)
  | [], _ => rfl
  | (k, child) :: rest, hkeys => by
    have hk : k ≠ "" := hkeys (k, child) (List.mem_cons_self _ _)
    have ih := loadTopSettings_eq rest fun c hc => hkeys c (List.mem_cons_of_mem _ hc)
    simp only [settingsOf, descendants] at ih
    rw [loadTopSettings, ih, settingsOf, descendants, descendants1, List.cons_append,
      List.filterMap_cons, List.filterMap_append, List.filterMap_map]
    obtain ⟨d, _ | ⟨c, cs⟩⟩ := child
    · simp [settingBelow, extendKey, PTree.empty, PTree.children, PTree.data, descendants,
        descendants1, hk]
    · simp [Function.comp_def, PTree.empty, PTree.children, loadSettings_eq, settingBelow_of_not_empty,
        hk]

/-- `loadPropertyTree` appends one setting per leaf reached by non-empty keys, in document order,
keyed by the `':'` term of its path, when no child of the root is a list item; a list item at the
root, which the specification has dropped, is a setting keyed by the empty string. -/
theorem load_settings_flatten (cfg : ReasonerConfiguration) :
    (∀ config : PTree, (∀ c ∈ config.children, c.1 ≠ "") →
      (cfg.loadPropertyTree config).settings = cfg.settings ++ settingsOf config) ∧
    (cfg.loadPropertyTree (.node "" [("", .node "x" [])])).settings =
      cfg.settings ++ [(.string "", .string "x")] ∧
    settingsOf (.node "" [("", .node "x" [])]) = [] := by
  refine ⟨fun config hkeys => ?_, rfl, by decide⟩
  obtain ⟨d, cs⟩ := config
  rw [ReasonerConfiguration.loadPropertyTree, PTree.children, loadTopSettings_eq cs hkeys]
  rfl

end Knowrob

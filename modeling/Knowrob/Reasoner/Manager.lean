import Mathlib.Data.Nat.Digits
import Knowrob.Reasoner.Configuration
import Knowrob.Queries.RealParser

/-!
# The reasoner manager

`ReasonerManager::loadReasoner(config)` of `reasoner.cpp` resolves a factory: from the plugin
library under the key `lib` (`loadReasonerPlugin`, which caches the plugin of each path, loaded or
not), or else the factory registered under the type name `type`. It throws
`ReasonerError("failed to load a reasoner.")` when there is none. Otherwise it creates a reasoner
whose ID is the configuration's `name`, or the factory's name followed by `reasonerIndex_` in
decimal, loads the reasoner's configuration, adds it to the pool if that succeeds, and advances
`reasonerIndex_` whether it succeeded or not.

The shared libraries are modelled by what `dlopen` and `dlsym` find at each path, and the
reasoners' `loadConfiguration` by a function of the reasoner and its configuration; the log
messages are not modelled.

`loadReasoner_cases` says once what a call can do, and `generatedIDs_eq` follows over any run: the
IDs generated for configurations without a name are factory names followed by strictly increasing
indices. Such IDs are distinct when no factory name ends in a digit, since a name that does not end
in a digit and a decimal number can be read back from their concatenation; but a plugin may be
named `Prolog1`, and its ID at index 0 is the ID of the built-in `Prolog` at index 10.
-/

namespace Knowrob

/-! ### Decimal numbers -/

section Decimal

open QueryParser

theorem digitChar_digit : ∀ d < 10,
    (Nat.digitChar d).isDigit ∧ (Nat.digitChar d).toNat - '0'.toNat = d := by
  decide

/-- `Nat.toDigitsCore` puts in front of `ds` the decimal digits of `n`, given enough fuel. -/
theorem toDigitsCore_digits : ∀ (fuel n : Nat) (ds : List Char), n < fuel →
    ∃ xs, Nat.toDigitsCore 10 fuel n ds = xs ++ ds ∧ xs ≠ [] ∧ (∀ c ∈ xs, c.isDigit) ∧
      digitsValue xs = n
  | 0, n, _, h => absurd h (Nat.not_lt_zero n)
  | fuel + 1, n, ds, h => by
    have hd := digitChar_digit (n % 10) (Nat.mod_lt n (by decide))
    by_cases hn : n / 10 = 0
    · refine ⟨[Nat.digitChar (n % 10)], by simp [Nat.toDigitsCore, hn], by simp,
        by simpa using hd.1, ?_⟩
      show 10 * 0 + ((n % 10).digitChar.toNat - '0'.toNat) = n
      omega
    · obtain ⟨xs, hxs, hne, hdig, hval⟩ :=
        toDigitsCore_digits fuel (n / 10) (Nat.digitChar (n % 10) :: ds) (by omega)
      refine ⟨xs ++ [Nat.digitChar (n % 10)], by simp [Nat.toDigitsCore, hn, hxs], by simp, ?_,
        ?_⟩
      · intro c hc
        rcases List.mem_append.1 hc with hc | hc
        · exact hdig c hc
        · exact List.eq_of_mem_singleton hc ▸ hd.1
      · show List.foldl _ 0 (xs ++ _) = n
        rw [List.foldl_append]
        show 10 * digitsValue xs + ((n % 10).digitChar.toNat - '0'.toNat) = n
        omega

/-- `toString n` (`std::to_string`) is a non-empty string of decimal digits whose value is `n`. -/
theorem toString_digits (n : Nat) :
    (toString n).data ≠ [] ∧ (∀ c ∈ (toString n).data, c.isDigit) ∧
      digitsValue (toString n).data = n := by
  obtain ⟨xs, h, hne, hdig, hval⟩ := toDigitsCore_digits (n + 1) n [] (Nat.lt_succ_self n)
  have : (toString n).data = xs := by simpa using h
  rw [this]
  exact ⟨hne, hdig, hval⟩

theorem toString_inj {i j : Nat} (h : toString i = toString j) : i = j := by
  rw [← (toString_digits i).2.2, ← (toString_digits j).2.2, h]

/-- A name that does not end in a digit, followed by digits, determines both. -/
theorem append_digits_inj {a b xs ys : List Char} (ha : ∀ c ∈ a.getLast?, c.isDigit = false)
    (hb : ∀ c ∈ b.getLast?, c.isDigit = false) (hxd : ∀ c ∈ xs, c.isDigit)
    (hyd : ∀ c ∈ ys, c.isDigit) (h : a ++ xs = b ++ ys) : a = b ∧ xs = ys := by
  -- the part of the digits that would belong to the longer name is empty
  have nil_of_digits : ∀ {a b xs ys a' : List Char}, (∀ c ∈ b.getLast?, c.isDigit = false) →
      (∀ c ∈ xs, c.isDigit) → b = a ++ a' → xs = a' ++ ys → a' = [] := by
    rintro a b xs ys a' hb hxd rfl rfl
    by_contra hne
    have hlast := hb _ (List.mem_getLast?_append_of_mem_getLast? (List.getLast_mem_getLast? hne))
    rw [hxd _ (List.mem_append_left ys (List.getLast_mem hne))] at hlast
    exact Bool.noConfusion hlast
  rcases List.append_eq_append_iff.1 h with ⟨a', hb', hxs⟩ | ⟨c', ha', hys⟩
  · obtain rfl := nil_of_digits hb hxd hb' hxs
    exact ⟨by simpa using hb'.symm, by simpa using hxs⟩
  · obtain rfl := nil_of_digits ha hyd ha' hys
    exact ⟨by simpa using ha', by simpa using hys.symm⟩

/-- A name that does not end in a digit, followed by an index in decimal, determines both. -/
theorem append_toString_inj {a b : String} {i j : Nat}
    (ha : ∀ c ∈ a.data.getLast?, c.isDigit = false)
    (hb : ∀ c ∈ b.data.getLast?, c.isDigit = false)
    (h : a ++ toString i = b ++ toString j) : a = b ∧ i = j := by
  obtain ⟨hab, hij⟩ := append_digits_inj ha hb (toString_digits i).2.1 (toString_digits j).2.1
    (congrArg String.data h)
  exact ⟨String.ext hab, toString_inj (String.ext hij)⟩

end Decimal

/-! ### The model -/

/-- `config.get_optional<std::string>(key)`, for a key without a `.` in it. -/
def PTree.getOptional (t : PTree) (key : String) : Option String :=
  (t.getChild? key).map PTree.data

/-- A `ReasonerFactory`, as far as `loadReasoner` reads it: its `name()`. -/
structure ReasonerFactory where
  name : String
  deriving DecidableEq, Repr

/-- A reasoner made by `createReasoner(reasonerID)`: its ID, and the factory that made it. -/
structure IReasoner where
  reasonerID : String
  factory : ReasonerFactory
  deriving DecidableEq, Repr

/-- `ReasonerError`, with its formatted message. -/
structure ReasonerError where
  message : String
  deriving DecidableEq, Repr

/-- What `dlopen` and `dlsym` find at each library path: the string `knowrob_getPluginName`
returns, if the library opens and has both `knowrob_createReasoner` and `knowrob_getPluginName`. -/
def PluginLibraries : Type := String → Option String

/-- A `ReasonerPlugin`: its `dllPath_`, and the name its library exposes once `loadDLL` resolved
both symbols; `none` before `loadDLL`, or when it failed. -/
structure ReasonerPlugin where
  dllPath : String
  pluginName : Option String

namespace ReasonerPlugin

/-- `isLoaded()`: both symbols were resolved. -/
def isLoaded (p : ReasonerPlugin) : Bool := p.pluginName.isSome

/-- `loadDLL()`, on the plugin as it stands after the call. -/
def loadDLL (libs : PluginLibraries) (p : ReasonerPlugin) : ReasonerPlugin :=
  { p with pluginName := libs p.dllPath }

/-- Modelled from the spec: the plugin as a factory, whose `name()` is the name its library
exposes, when it is loaded. -/
def factory? (p : ReasonerPlugin) : Option ReasonerFactory :=
  if p.isLoaded then p.pluginName.map ReasonerFactory.mk else none

end ReasonerPlugin

/-- `ReasonerManager`: the fields `loadReasoner` reads and writes, and `dlopenCalls`, the paths
`loadDLL` has passed to `dlopen`, oldest first. The C++ class has no such member: it records the
calls, so that what the cache saves can be stated. -/
structure ReasonerManager where
  reasonerIndex : Nat
  reasonerFactories : String → Option ReasonerFactory
  loadedPlugins : String → Option ReasonerPlugin
  reasonerPool : List IReasoner
  dlopenCalls : List String

namespace ReasonerManager

def addReasonerFactory (m : ReasonerManager) (typeName : String) (factory : ReasonerFactory) :
    ReasonerManager :=
  { m with reasonerFactories := Function.update m.reasonerFactories typeName (some factory) }

def addReasoner (m : ReasonerManager) (reasoner : IReasoner) : ReasonerManager :=
  { m with reasonerPool := m.reasonerPool ++ [reasoner] }

/-- `ReasonerManager()`: index 0 and the four built-in factories, each named by its type. -/
def init : ReasonerManager :=
  (((⟨0, fun _ => none, fun _ => none, [], []⟩ : ReasonerManager).addReasonerFactory "Mongolog"
    ⟨"Mongolog"⟩).addReasonerFactory "Prolog" ⟨"Prolog"⟩ |>.addReasonerFactory "ESG" ⟨"ESG"⟩)
    |>.addReasonerFactory "SWRL" ⟨"SWRL"⟩

section Load

variable (libs : PluginLibraries) (loadConfiguration : IReasoner → ReasonerConfiguration → Bool)

/-- `loadReasonerPlugin(path)`: the cached plugin of `path`, if it is loaded; on the first call for
`path`, a new plugin is cached and `loadDLL` opens its library. -/
def loadReasonerPlugin (m : ReasonerManager) (path : String) :
    ReasonerManager × Option ReasonerFactory :=
  match m.loadedPlugins path with
  | none =>
    let p := ReasonerPlugin.mk path none
    ({ m with loadedPlugins := Function.update m.loadedPlugins path (some (p.loadDLL libs)),
              dlopenCalls := m.dlopenCalls ++ [p.dllPath] }, (p.loadDLL libs).factory?)
  | some p => (m, p.factory?)

/-- The first part of `loadReasoner`: the factory of the library `lib` if the configuration has one,
else the factory registered for `type`. -/
def resolveFactory (m : ReasonerManager) (config : PTree) :
    ReasonerManager × Option ReasonerFactory :=
  match config.getOptional "lib", config.getOptional "type" with
  | some lib, _ => m.loadReasonerPlugin libs lib
  | none, some type => (m, m.reasonerFactories type)
  | none, none => (m, none)

/-- `loadReasoner(config)`: the manager after the call, and the reasoner it created or the error it
threw. The C++ method returns nothing; the created reasoner is where a run's IDs are read from. -/
def loadReasoner (m : ReasonerManager) (config : PTree) :
    ReasonerManager × Except ReasonerError IReasoner :=
  match m.resolveFactory libs config with
  | (m, none) => (m, .error ⟨"failed to load a reasoner."⟩)
  | (m, some factory) =>
    let reasonerID := (config.getOptional "name").getD (factory.name ++ toString m.reasonerIndex)
    let reasoner : IReasoner := ⟨reasonerID, factory⟩
    let m := if loadConfiguration reasoner (ReasonerConfiguration.loadPropertyTree ⟨[], []⟩ config)
      then m.addReasoner reasoner else m
    ({ m with reasonerIndex := m.reasonerIndex + 1 }, .ok reasoner)

/-- The ID a call generates: that of the reasoner it created, if the configuration has no `name`. -/
def generatedID? (config : PTree) (r : Except ReasonerError IReasoner) : Option String :=
  if (config.getOptional "name").isNone then r.toOption.map (·.reasonerID) else none

/-- The IDs generated over a run of `loadReasoner` calls, in order. -/
def generatedIDs (m : ReasonerManager) : List PTree → List String
  | [] => []
  | config :: configs =>
    (generatedID? config (m.loadReasoner libs loadConfiguration config).2).toList ++
      generatedIDs (m.loadReasoner libs loadConfiguration config).1 configs

/-! ### What one call can do -/

/-- The names a factory resolved from `m` can have: those of the registered factories, of the
cached plugins, and those the libraries expose. -/
def FactoryName (m : ReasonerManager) (name : String) : Prop :=
  (∃ type f, m.reasonerFactories type = some f ∧ f.name = name) ∨
    (∃ path p, m.loadedPlugins path = some p ∧ p.pluginName = some name) ∨
    ∃ path, libs path = some name

/-- What resolving a factory does to the manager: it keeps the index and the factories, caches
only plugins the libraries expose, and finds a factory of one of `m`'s factory names. -/
structure Resolves (m : ReasonerManager) (r : ReasonerManager × Option ReasonerFactory) :
    Prop where
  index : r.1.reasonerIndex = m.reasonerIndex
  names : ∀ name, FactoryName libs r.1 name → FactoryName libs m name
  factory : ∀ f ∈ r.2, FactoryName libs m f.name

theorem factory?_name {p : ReasonerPlugin} {f : ReasonerFactory} (h : f ∈ p.factory?) :
    p.pluginName = some f.name := by
  unfold ReasonerPlugin.factory? at h
  cases hp : p.pluginName <;> simp [ReasonerPlugin.isLoaded, hp] at h
  subst h
  rfl

theorem loadReasonerPlugin_resolves (m : ReasonerManager) (path : String) :
    Resolves libs m (m.loadReasonerPlugin libs path) := by
  unfold loadReasonerPlugin
  split
  · dsimp only
    refine ⟨rfl, ?_, fun f hf => .inr (.inr ⟨path, factory?_name hf⟩)⟩
    rintro name (h | ⟨path', p, hp, hn⟩ | h)
    · exact .inl h
    · simp only [Function.update_apply] at hp
      split_ifs at hp
      · cases hp
        exact .inr (.inr ⟨path, hn⟩)
      · exact .inr (.inl ⟨path', p, hp, hn⟩)
    · exact .inr (.inr h)
  · rename_i p hp
    exact ⟨rfl, fun _ => id, fun f hf => .inr (.inl ⟨path, p, hp, factory?_name hf⟩)⟩

theorem resolveFactory_resolves (m : ReasonerManager) (config : PTree) :
    Resolves libs m (m.resolveFactory libs config) := by
  unfold resolveFactory
  split
  · exact loadReasonerPlugin_resolves libs m _
  · exact ⟨rfl, fun _ => id, fun f hf => .inl ⟨_, f, hf, rfl⟩⟩
  · exact ⟨rfl, fun _ => id, fun f hf => nomatch hf⟩

/-- Everything one call can do: throw and keep the index, or create a reasoner of one of `m`'s
factory names, under the configuration's name or that name and the index, and advance the index.
Either way it adds no factory name. -/
theorem loadReasoner_cases (m : ReasonerManager) (config : PTree) :
    (∀ name, FactoryName libs (m.loadReasoner libs loadConfiguration config).1 name →
      FactoryName libs m name) ∧
    (((m.loadReasoner libs loadConfiguration config).2 = .error ⟨"failed to load a reasoner."⟩ ∧
      (m.loadReasoner libs loadConfiguration config).1.reasonerIndex = m.reasonerIndex) ∨
    ∃ factory : ReasonerFactory, FactoryName libs m factory.name ∧
      (m.loadReasoner libs loadConfiguration config).2 =
        .ok ⟨(config.getOptional "name").getD (factory.name ++ toString m.reasonerIndex), factory⟩ ∧
      (m.loadReasoner libs loadConfiguration config).1.reasonerIndex = m.reasonerIndex + 1) := by
  unfold loadReasoner
  have h := resolveFactory_resolves libs m config
  revert h
  rcases m.resolveFactory libs config with ⟨m', _ | f⟩ <;> rintro ⟨hidx, hnames, hfactory⟩
  · exact ⟨hnames, .inl ⟨rfl, hidx⟩⟩
  · dsimp only at hidx ⊢
    rw [← hidx]
    split <;> exact ⟨hnames, .inr ⟨f, hfactory f rfl, rfl, rfl⟩⟩

/-! ### Over a run -/

/-- Over any run, the generated IDs are factory names of the first manager, each followed by an
index no smaller than its `reasonerIndex_`, the indices strictly increasing. -/
theorem generatedIDs_eq : ∀ (m : ReasonerManager) (configs : List PTree),
    ∃ ids : List (String × Nat),
      generatedIDs libs loadConfiguration m configs = ids.map (fun p => p.1 ++ toString p.2) ∧
      ids.Pairwise (fun p q => p.2 < q.2) ∧
      ∀ p ∈ ids, FactoryName libs m p.1 ∧ m.reasonerIndex ≤ p.2
  | _, [] => ⟨[], rfl, .nil, nofun⟩
  | m, config :: configs => by
    obtain ⟨ids, hids, hpw, hmem⟩ :=
      generatedIDs_eq (m.loadReasoner libs loadConfiguration config).1 configs
    obtain ⟨hnames, ⟨herr, hidx⟩ | ⟨f, hf, hok, hidx⟩⟩ :=
      loadReasoner_cases libs loadConfiguration m config
    · refine ⟨ids, by simp [generatedIDs, generatedID?, Except.toOption, herr, hids], hpw,
        fun p hp => ?_⟩
      exact ⟨hnames _ (hmem p hp).1, hidx ▸ (hmem p hp).2⟩
    · have later : ∀ p ∈ ids, FactoryName libs m p.1 ∧ m.reasonerIndex < p.2 := fun p hp =>
        ⟨hnames _ (hmem p hp).1, by have := (hmem p hp).2; omega⟩
      by_cases hname : config.getOptional "name" = none
      · refine ⟨(f.name, m.reasonerIndex) :: ids, ?_, List.pairwise_cons.2 ⟨fun p hp =>
          (later p hp).2, hpw⟩, ?_⟩
        · simp [generatedIDs, generatedID?, Except.toOption, hok, hname, hids]
        · rintro p (_ | ⟨_, hp⟩)
          · exact ⟨hf, le_rfl⟩
          · exact ⟨(later p hp).1, (later p hp).2.le⟩
      · refine ⟨ids, ?_, hpw, fun p hp => ⟨(later p hp).1, (later p hp).2.le⟩⟩
        simp [generatedIDs, generatedID?, hname, hids]

/-- When no factory name of `m` ends in a digit, the IDs generated over any run are distinct. -/
theorem generatedIDs_nodup (m : ReasonerManager) (configs : List PTree)
    (hnames : ∀ name, FactoryName libs m name →
      ∀ c ∈ name.data.getLast?, c.isDigit = false) :
    (generatedIDs libs loadConfiguration m configs).Nodup := by
  obtain ⟨ids, hids, hpw, hmem⟩ := generatedIDs_eq libs loadConfiguration m configs
  rw [hids, List.Nodup, List.pairwise_map]
  refine hpw.imp_of_mem fun {p q} hp hq hlt heq => ?_
  have := (append_toString_inj (hnames _ (hmem p hp).1) (hnames _ (hmem q hq).1) heq).2
  omega

end Load

/-- The factory names of the constructed manager are the four built-in ones and those the libraries
expose. -/
theorem factoryName_init {libs : PluginLibraries} {name : String} (h : FactoryName libs init name) :
    name ∈ ["Mongolog", "Prolog", "ESG", "SWRL"] ∨ ∃ path, libs path = some name := by
  rcases h with ⟨type, f, hf, rfl⟩ | ⟨_, _, hp, _⟩ | h
  · left
    simp only [init, addReasonerFactory, Function.update_apply] at hf
    split_ifs at hf <;> cases hf <;> decide
  · exact nomatch hp
  · exact .inr h

end ReasonerManager

open ReasonerManager in
/-- From the constructed manager, the IDs generated over any run are distinct when no library
exposes a plugin name ending in a digit; but a plugin named `Prolog1`, loaded first, and the
built-in `Prolog` at index 10 are both given the ID `Prolog10`. -/
theorem generated_ids_distinct_unless_digit_suffix :
    (∀ (libs : PluginLibraries) (loadConfiguration : IReasoner → ReasonerConfiguration → Bool)
      (configs : List PTree),
      (∀ path name, libs path = some name → ∀ c ∈ name.data.getLast?, c.isDigit = false) →
        (generatedIDs libs loadConfiguration init configs).Nodup) ∧
    generatedIDs (fun path => if path = "libprolog1.so" then some "Prolog1" else none)
      (fun _ _ => true) init
      (.node "" [("lib", .node "libprolog1.so" [])] ::
        List.replicate 9 (.node "" [("type", .node "Prolog" []), ("name", .node "prolog" [])]) ++
        [.node "" [("type", .node "Prolog" [])]]) = ["Prolog10", "Prolog10"] := by
  refine ⟨fun libs loadConfiguration configs hlibs => ?_, by decide⟩
  refine generatedIDs_nodup libs loadConfiguration init configs fun name h => ?_
  rcases factoryName_init h with h | ⟨path, h⟩
  · simp only [List.mem_cons, List.mem_singleton, List.not_mem_nil, or_false] at h
    rcases h with rfl | rfl | rfl | rfl <;> decide
  · exact hlibs path name h

end Knowrob

import Knowrob.Reasoner.Manager

/-!
# The reasoner manager over whole runs

The operations that change a `ReasonerManager` are `loadReasoner`, `addReasonerFactory` and
`addReasoner`. A run is any sequence of them, each with what `dlopen` and `dlsym` find at the time
of the call (`ManagerOp`, `run`), so that a library may change between two calls.
`loadReasonerPlugin` caches a plugin for every library path it is asked for, before `loadDLL`
opens the library and whatever the load gives, and answers every later request for the path from
the cache (`step_cases`). Over every run:

* `loadDLL` opens no path twice: the paths it passes to `dlopen` are distinct and none had a plugin
  at the start, so from the constructed manager a library is opened at most once, and one that
  failed to load is never opened again (`dlopenCalls_nodup`);
* the cache changes no result as long as no library changes after it was first asked for
  (`LibrariesKept`): the manager then refines `AbstractManager`, the manager of the specification,
  which has no plugin cache and resolves the factory of a library from the library at the time of
  the call. A library fixed after a failed load is not seen by the manager, which keeps the failed
  plugin (`run_refines`).
-/

namespace Knowrob

namespace ReasonerManager

/-- A call of one of the operations that change a `ReasonerManager`. -/
inductive ManagerOp where
  | loadReasoner (config : PTree)
  | addReasonerFactory (typeName : String) (factory : ReasonerFactory)
  | addReasoner (reasoner : IReasoner)

/-- The library path an operation asks for: the `lib` of a `loadReasoner` configuration. -/
def requestedLibrary : ManagerOp → Option String
  | .loadReasoner config => config.getOptional "lib"
  | _ => none

section Run

variable (loadConfiguration : IReasoner → ReasonerConfiguration → Bool)

/-- One operation, with the libraries `libs` of its time: the manager after it, and for
`loadReasoner` the reasoner it created or the error it threw. -/
def step (libs : PluginLibraries) (m : ReasonerManager) :
    ManagerOp → ReasonerManager × Option (Except ReasonerError IReasoner)
  | .loadReasoner config =>
    ((m.loadReasoner libs loadConfiguration config).1,
      some (m.loadReasoner libs loadConfiguration config).2)
  | .addReasonerFactory typeName factory => (m.addReasonerFactory typeName factory, none)
  | .addReasoner reasoner => (m.addReasoner reasoner, none)

/-- A run, each operation with the libraries of its time: the manager at its end, and the results
of its `loadReasoner` calls in order. -/
def run (m : ReasonerManager) : List (PluginLibraries × ManagerOp) →
    ReasonerManager × List (Except ReasonerError IReasoner)
  | [] => (m, [])
  | (libs, op) :: ops =>
    ((run (step loadConfiguration libs m op).1 ops).1,
      (step loadConfiguration libs m op).2.toList ++
        (run (step loadConfiguration libs m op).1 ops).2)

/-! ### What one operation does to the cache -/

variable (libs : PluginLibraries)

/-- `loadReasoner` changes the cache and the record of `dlopen` calls only where resolving the
factory does. -/
theorem loadReasoner_cache (m : ReasonerManager) (config : PTree) :
    (m.loadReasoner libs loadConfiguration config).1.loadedPlugins =
        (m.resolveFactory libs config).1.loadedPlugins ∧
      (m.loadReasoner libs loadConfiguration config).1.dlopenCalls =
        (m.resolveFactory libs config).1.dlopenCalls := by
  unfold loadReasoner
  rcases m.resolveFactory libs config with ⟨m', _ | f⟩
  · exact ⟨rfl, rfl⟩
  · dsimp only
    split <;> exact ⟨rfl, rfl⟩

theorem resolveFactory_of_lib {m : ReasonerManager} {config : PTree} {lib : String}
    (hlib : config.getOptional "lib" = some lib) :
    m.resolveFactory libs config = m.loadReasonerPlugin libs lib := by
  simp only [resolveFactory, hlib]

theorem resolveFactory_of_no_lib {m : ReasonerManager} {config : PTree}
    (hlib : config.getOptional "lib" = none) :
    m.resolveFactory libs config = (m, (config.getOptional "type").bind m.reasonerFactories) := by
  simp only [resolveFactory, hlib]
  cases config.getOptional "type" <;> rfl

/-- What one operation does to the cache and to the record of `dlopen` calls: `loadDLL` opens the
library it asks for, if it has no plugin for it, and the plugin is cached; or neither changes. -/
theorem step_cases (m : ReasonerManager) (op : ManagerOp) :
    (∃ path, requestedLibrary op = some path ∧ m.loadedPlugins path = none ∧
      (step loadConfiguration libs m op).1.dlopenCalls = m.dlopenCalls ++ [path] ∧
      (step loadConfiguration libs m op).1.loadedPlugins = Function.update m.loadedPlugins path
        (some ((ReasonerPlugin.mk path none).loadDLL libs))) ∨
    ((step loadConfiguration libs m op).1.dlopenCalls = m.dlopenCalls ∧
      (step loadConfiguration libs m op).1.loadedPlugins = m.loadedPlugins) := by
  cases op with
  | loadReasoner config =>
    obtain ⟨hplugins, hcalls⟩ := loadReasoner_cache loadConfiguration libs m config
    simp only [step, requestedLibrary, hplugins, hcalls]
    rcases Option.eq_none_or_eq_some (config.getOptional "lib") with hlib | ⟨lib, hlib⟩
    · exact .inr (by simp [resolveFactory_of_no_lib _ hlib])
    · rw [resolveFactory_of_lib _ hlib, hlib]
      unfold loadReasonerPlugin
      cases hp : m.loadedPlugins lib with
      | none => exact .inl ⟨lib, rfl, hp, rfl, rfl⟩
      | some p => exact .inr ⟨rfl, rfl⟩
  | _ => exact .inr ⟨rfl, rfl⟩

/-! ### No library is opened twice -/

/-- Over any run, whatever the libraries do, the paths `loadDLL` passes to `dlopen` are distinct
and none had a plugin at the start; from the constructed manager, no path is ever opened twice. -/
theorem dlopenCalls_nodup :
    (∀ (m : ReasonerManager) (ops : List (PluginLibraries × ManagerOp)), ∃ opened : List String,
      (run loadConfiguration m ops).1.dlopenCalls = m.dlopenCalls ++ opened ∧ opened.Nodup ∧
        ∀ path ∈ opened, m.loadedPlugins path = none) ∧
    ∀ ops : List (PluginLibraries × ManagerOp), (run loadConfiguration init ops).1.dlopenCalls.Nodup := by
  have hrun : ∀ (m : ReasonerManager) (ops : List (PluginLibraries × ManagerOp)), ∃ opened,
      (run loadConfiguration m ops).1.dlopenCalls = m.dlopenCalls ++ opened ∧ opened.Nodup ∧
        ∀ path ∈ opened, m.loadedPlugins path = none := by
    intro m ops
    induction ops generalizing m with
    | nil => exact ⟨[], by simp [run], .nil, nofun⟩
    | cons x ops ih =>
      obtain ⟨libs, op⟩ := x
      obtain ⟨opened, hcalls, hnd, hnew⟩ := ih (step loadConfiguration libs m op).1
      rcases step_cases loadConfiguration libs m op with
        ⟨path, -, hnone, hcalls', hplugins⟩ | ⟨hcalls', hplugins⟩
      · -- the path opened now has a plugin at every later call
        have hlater : ∀ q ∈ opened, q ≠ path ∧ m.loadedPlugins q = none := fun q hq => by
          have h := hnew q hq
          rw [hplugins, Function.update_apply] at h
          split_ifs at h with hq'
          exact ⟨hq', h⟩
        refine ⟨path :: opened, by simp [run, hcalls, hcalls'], ?_, ?_⟩
        · exact List.nodup_cons.2 ⟨fun h => (hlater path h).1 rfl, hnd⟩
        · rintro q (_ | ⟨_, hq⟩)
          exacts [hnone, (hlater q hq).2]
      · refine ⟨opened, by simp [run, hcalls, hcalls'], hnd, fun q hq => ?_⟩
        rw [← hplugins]
        exact hnew q hq
  refine ⟨hrun, fun ops => ?_⟩
  obtain ⟨opened, hcalls, hnd, -⟩ := hrun init ops
  rw [hcalls]
  exact hnd

/-! ### The cache changes no result -/

/-- Every cached plugin is what loading its library with `libs` gives. -/
def PluginsCoherent (m : ReasonerManager) : Prop :=
  ∀ path p, m.loadedPlugins path = some p → p.pluginName = libs path

/-- An operation keeps the plugins coherent with libraries `libs'` that agree with `libs`, the
libraries of its time, at the path it asks for. -/
theorem PluginsCoherent.step {libs' : PluginLibraries} {m : ReasonerManager}
    (hm : PluginsCoherent libs' m) (op : ManagerOp)
    (hkept : ∀ lib ∈ requestedLibrary op, libs' lib = libs lib) :
    PluginsCoherent libs' (step loadConfiguration libs m op).1 := by
  intro path p h
  rcases step_cases loadConfiguration libs m op with
    ⟨lib, hlib, -, -, hplugins⟩ | ⟨-, hplugins⟩ <;> rw [hplugins] at h
  · rw [Function.update_apply] at h
    split_ifs at h with hpath
    · cases h
      subst hpath
      exact (hkept path hlib).symm
    · exact hm path p h
  · exact hm path p h

end Run

/-- No library changes after it was first asked for: at every later call, what `dlopen` and
`dlsym` find at its path is what they found then. -/
def LibrariesKept (ops : List (PluginLibraries × ManagerOp)) : Prop :=
  ops.Pairwise fun x y => ∀ lib ∈ requestedLibrary x.2, y.1 lib = x.1 lib

instance (ops : List (PluginLibraries × ManagerOp)) : Decidable (LibrariesKept ops) :=
  inferInstanceAs (Decidable (List.Pairwise _ ops))

end ReasonerManager

/-- The manager of the specification: the factories, the pool and the index of generated IDs,
and no plugin cache. -/
structure AbstractManager where
  reasonerIndex : Nat
  reasonerFactories : String → Option ReasonerFactory
  reasonerPool : List IReasoner

namespace AbstractManager

open ReasonerManager (ManagerOp)

variable (loadConfiguration : IReasoner → ReasonerConfiguration → Bool)

/-- The factory a configuration asks for: the one the library `lib` exposes, if it loads, else
the one registered for `type`. -/
def factory? (libs : PluginLibraries) (a : AbstractManager) (config : PTree) :
    Option ReasonerFactory :=
  match config.getOptional "lib", config.getOptional "type" with
  | some lib, _ => (libs lib).map ReasonerFactory.mk
  | none, some type => a.reasonerFactories type
  | none, none => none

/-- Loading a reasoner: the error if no factory is found, and else a new reasoner under the
configuration's name or the factory's name and the index, kept if its configuration loads; the
index advances. -/
def loadReasoner (libs : PluginLibraries) (a : AbstractManager) (config : PTree) :
    AbstractManager × Except ReasonerError IReasoner :=
  match a.factory? libs config with
  | none => (a, .error ⟨"failed to load a reasoner."⟩)
  | some factory =>
    let reasoner : IReasoner :=
      ⟨(config.getOptional "name").getD (factory.name ++ toString a.reasonerIndex), factory⟩
    (⟨a.reasonerIndex + 1, a.reasonerFactories,
      if loadConfiguration reasoner (ReasonerConfiguration.loadPropertyTree ⟨[], []⟩ config)
      then a.reasonerPool ++ [reasoner] else a.reasonerPool⟩, .ok reasoner)

/-- One operation, with the libraries of its time. -/
def step (libs : PluginLibraries) (a : AbstractManager) :
    ManagerOp → AbstractManager × Option (Except ReasonerError IReasoner)
  | .loadReasoner config =>
    ((a.loadReasoner loadConfiguration libs config).1,
      some (a.loadReasoner loadConfiguration libs config).2)
  | .addReasonerFactory typeName factory =>
    ({ a with reasonerFactories := Function.update a.reasonerFactories typeName (some factory) },
      none)
  | .addReasoner reasoner => ({ a with reasonerPool := a.reasonerPool ++ [reasoner] }, none)

/-- A run, each operation with the libraries of its time: the manager at its end, and the results
of its `loadReasoner` calls in order. -/
def run (a : AbstractManager) : List (PluginLibraries × ManagerOp) →
    AbstractManager × List (Except ReasonerError IReasoner)
  | [] => (a, [])
  | (libs, op) :: ops =>
    ((run (step loadConfiguration libs a op).1 ops).1,
      (step loadConfiguration libs a op).2.toList ++
        (run (step loadConfiguration libs a op).1 ops).2)

end AbstractManager

namespace ReasonerManager

variable {libs : PluginLibraries} {loadConfiguration : IReasoner → ReasonerConfiguration → Bool}

/-- The abstract manager a manager stands for: all but its plugin cache and the record of `dlopen`
calls. -/
def abstract (m : ReasonerManager) : AbstractManager :=
  ⟨m.reasonerIndex, m.reasonerFactories, m.reasonerPool⟩

theorem factory?_eq (p : ReasonerPlugin) : p.factory? = p.pluginName.map ReasonerFactory.mk := by
  unfold ReasonerPlugin.factory? ReasonerPlugin.isLoaded
  cases p.pluginName <;> rfl

/-- On a cache coherent with the libraries of the call, resolving a factory finds what the
abstract manager finds, and changes nothing but the cache and the record of `dlopen` calls. -/
theorem resolveFactory_refines {m : ReasonerManager} (hm : PluginsCoherent libs m)
    (config : PTree) :
    abstract (m.resolveFactory libs config).1 = abstract m ∧
      (m.resolveFactory libs config).2 = (abstract m).factory? libs config := by
  rcases Option.eq_none_or_eq_some (config.getOptional "lib") with hlib | ⟨lib, hlib⟩
  · rw [resolveFactory_of_no_lib _ hlib]
    refine ⟨rfl, ?_⟩
    simp only [AbstractManager.factory?, hlib]
    cases config.getOptional "type" <;> rfl
  · rw [resolveFactory_of_lib _ hlib]
    simp only [AbstractManager.factory?, hlib, loadReasonerPlugin]
    cases hp : m.loadedPlugins lib with
    | none => exact ⟨rfl, by rw [factory?_eq]; rfl⟩
    | some p => exact ⟨rfl, by simp only [factory?_eq, hm lib p hp]⟩

/-- On a cache coherent with the libraries of the call, one operation gives what the abstract
manager gives. -/
theorem step_refines {m : ReasonerManager} (hm : PluginsCoherent libs m) (op : ManagerOp) :
    abstract (step loadConfiguration libs m op).1 =
        (AbstractManager.step loadConfiguration libs (abstract m) op).1 ∧
      (step loadConfiguration libs m op).2 =
        (AbstractManager.step loadConfiguration libs (abstract m) op).2 := by
  cases op with
  | loadReasoner config =>
    obtain ⟨habs, hfac⟩ := resolveFactory_refines hm config
    simp only [step, AbstractManager.step, loadReasoner, AbstractManager.loadReasoner, ← hfac]
    revert habs
    rcases m.resolveFactory libs config with ⟨m', _ | f⟩ <;> intro habs <;>
      simp only [abstract, AbstractManager.mk.injEq] at habs ⊢
    · exact ⟨habs, trivial⟩
    · obtain ⟨hidx, hfact, hpool⟩ := habs
      simp only [hidx]
      split_ifs <;> simp [addReasoner, hidx, hfact, hpool]
  | _ => exact ⟨rfl, rfl⟩

/-- From a cache coherent with the libraries of every call, a run in which no library changes
after it was first asked for gives what the abstract manager's run gives: the same results, and
the same index, factories and pool at the end. -/
theorem run_refines_of_coherent : ∀ {m : ReasonerManager} (ops : List (PluginLibraries × ManagerOp)),
    LibrariesKept ops → (∀ x ∈ ops, PluginsCoherent x.1 m) →
      abstract (run loadConfiguration m ops).1 =
          (AbstractManager.run loadConfiguration (abstract m) ops).1 ∧
        (run loadConfiguration m ops).2 = (AbstractManager.run loadConfiguration (abstract m) ops).2
  | _, [], _, _ => ⟨rfl, rfl⟩
  | m, (libs, op) :: ops, hkept, hm => by
    obtain ⟨hfirst, hrest⟩ := List.pairwise_cons.1 hkept
    obtain ⟨hstate, hresult⟩ := @step_refines libs loadConfiguration m
      (hm (libs, op) (List.mem_cons_self _ _)) op
    obtain ⟨ih₁, ih₂⟩ := run_refines_of_coherent ops hrest fun x hx =>
      (hm x (List.mem_cons_of_mem _ hx)).step loadConfiguration libs op (hfirst x hx)
    simp only [run, AbstractManager.run, ← hstate, ← hresult, ih₁, ih₂, and_self]

/-- The libraries of `run_refines`'s second part: none at first, then `liba.so` exposing `A`. -/
def libsBefore : PluginLibraries := fun _ => none

/-- `liba.so`, exposing the plugin `A`. -/
def libsAfter : PluginLibraries := fun path => if path = "liba.so" then some "A" else none

/-- The configuration asking for the library `liba.so`. -/
def libaConfig : PTree := .node "" [("lib", .node "liba.so" [])]

/-- From the constructed manager, every run in which no library changes after it was first asked
for gives the results the specification's manager without a plugin cache gives, and ends with the
same index, factories and pool: the cache changes no result. When a library is fixed after a
failed load, the manager keeps the failed plugin and throws again, while the manager without a
cache loads the reasoner. -/
theorem run_refines :
    (∀ (loadConfiguration : IReasoner → ReasonerConfiguration → Bool)
      (ops : List (PluginLibraries × ManagerOp)), LibrariesKept ops →
      abstract (run loadConfiguration init ops).1 =
          (AbstractManager.run loadConfiguration (abstract init) ops).1 ∧
        (run loadConfiguration init ops).2 =
          (AbstractManager.run loadConfiguration (abstract init) ops).2) ∧
    (run (fun _ _ => true) init [(libsBefore, .loadReasoner libaConfig),
        (libsAfter, .loadReasoner libaConfig)]).2 =
      [.error ⟨"failed to load a reasoner."⟩, .error ⟨"failed to load a reasoner."⟩] ∧
    (AbstractManager.run (fun _ _ => true) (abstract init) [(libsBefore, .loadReasoner libaConfig),
        (libsAfter, .loadReasoner libaConfig)]).2 =
      [.error ⟨"failed to load a reasoner."⟩, .ok ⟨"A0", ⟨"A"⟩⟩] :=
  ⟨fun _ ops hkept => run_refines_of_coherent ops hkept fun _ _ _ _ h => (nomatch h), rfl, rfl⟩

/-- A run that loads `liba.so` twice, with the library unchanged, gives what the manager without a
cache gives. -/
theorem run_refines_kept_library :
    LibrariesKept [(libsAfter, .loadReasoner libaConfig), (libsAfter, .loadReasoner libaConfig)] ∧
    (run (fun _ _ => true) init [(libsAfter, .loadReasoner libaConfig),
        (libsAfter, .loadReasoner libaConfig)]).2 =
      (AbstractManager.run (fun _ _ => true) (abstract init) [(libsAfter, .loadReasoner libaConfig),
        (libsAfter, .loadReasoner libaConfig)]).2 :=
  ⟨by decide, (run_refines.1 _ _ (by decide)).2⟩

end ReasonerManager

end Knowrob

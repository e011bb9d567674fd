import Census.Project.Session
import Census.Proofs.Project.Method

namespace Census

variable {texts : Set String} {session other : Session} {tree : FileTree}

-- All files have known texts.
def FileTree.Within (texts : Set String) (tree : FileTree) : Prop :=
  ∀ location content, tree.load location = .ok content → content ∈ texts

theorem FileTree.Proper.mem_walk (h : tree.Proper) {location : FileTree.Location}
    (hlocation : FileTree.ProperLocation location) {found : List FileTree.Location}
    (hwalk : tree.walk location = .ok found) : ∀ other ∈ found, FileTree.ProperLocation other := by
  rw [FileTree.walk] at hwalk
  cases hbelow : tree.get? location with
  | none =>
      rw [hbelow] at hwalk
      cases hwalk
  | some below =>
      rw [hbelow] at hwalk
      obtain rfl := Except.ok.inj hwalk
      intro other hother
      obtain ⟨rest, hrest, rfl⟩ := List.mem_map.1 hother
      have hrest := (h.of_get? hbelow).mem_files rest hrest
      exact hlocation.append hrest

theorem FileTree.properLocation_of_input {kind : InputKind} {path : Path}
    {location : FileTree.Location} (h : tree.input kind path = .ok location) :
    FileTree.ProperLocation location := by
  rw [FileTree.input] at h
  cases hfound : tree.resolve? path with
  | none =>
      rw [hfound] at h
      cases h
  | some found =>
      have hproper := FileTree.properLocation_of_resolve? hfound
      rw [hfound] at h
      dsimp only at h
      split at h
      · rw [← Except.ok.inj h]
        exact hproper
      · rw [← Except.ok.inj h]
        exact hproper
      · cases h

-- Cache directories that nothing has been stored in.
def Disk.Blank (disk : Disk) : Prop := ∀ location, (disk.directory location).files = []

namespace Session

theorem tree_keep (session : Session) (storage : Storage) :
    (session.keep storage).tree = session.tree := by
  rw [keep]
  split <;> rfl

theorem project_keep (session : Session) (storage : Storage) :
    ∃ cache, (session.keep storage).project = { session.project with cache := cache } := by
  rw [keep]
  split
  · exact ⟨session.project.cache, rfl⟩
  · exact ⟨_, rfl⟩

theorem tree_addInput (session : Session) (kind : InputKind) (path : Path) :
    (session.addInput kind path).1.tree = session.tree := by
  rw [addInput]
  split <;> rfl

end Session

variable [ContentHash]

namespace Session

-- What a run does to its session. It stops where an input is gone, where no workers can be had or
-- where a file fails; and from the workers on it keeps the cache that it has chosen.
inductive Runs (session : Session) : Prop
  | lost (e : ProjectError) (discover : session.project.discover session.tree = .error e)
      (result : session.run = (session, .error e))
  | unmanned (locations : List FileTree.Location) (cause : String)
      (discover : session.project.discover session.tree = .ok locations)
      (workers : session.workers session.method.stackSize = some cause)
      (result : session.run = (session.keep session.storage, .error (.workersNotStarted cause)))
  | failed (locations : List FileTree.Location) (e : ProjectError)
      (discover : session.project.discover session.tree = .ok locations)
      (workers : session.workers session.method.stackSize = none)
      (files : combined (session.method.ofFiles session.tree locations session.storage).1 = .error e)
      (result : session.run =
        (session.keep (session.method.ofFiles session.tree locations session.storage).2, .error e))
  | succeeded (locations : List FileTree.Location) (a : Analysis)
      (discover : session.project.discover session.tree = .ok locations)
      (workers : session.workers session.method.stackSize = none)
      (files : combined (session.method.ofFiles session.tree locations session.storage).1 =
        .ok a.registry)
      (result : session.run =
        let kept := session.keep (session.method.ofFiles session.tree locations session.storage).2
        ({ kept with runs := a.run, project := { kept.project with analysis := some a } }, .ok a))

theorem runs_of_run (session : Session) : session.Runs := by
  cases hdiscover : session.project.discover session.tree with
  | error e => exact .lost e hdiscover (by rw [run, hdiscover])
  | ok locations =>
      cases hworkers : session.workers session.method.stackSize with
      | some cause =>
          exact .unmanned locations cause hdiscover hworkers (by simp only [run, hdiscover, hworkers])
      | none =>
          cases hfiles : combined (session.method.ofFiles session.tree locations session.storage).1 with
          | error e =>
              exact .failed locations e hdiscover hworkers hfiles
                (by simp only [run, hdiscover, hworkers, hfiles])
          | ok registry =>
              exact .succeeded locations ⟨_, registry⟩ hdiscover hworkers hfiles
                (by simp only [run, hdiscover, hworkers, hfiles]; rfl)

-- An analysis that is not answered at once is a run.
theorem analyze_eq_run (hinput : session.project.hasInput)
    (hnone : session.project.analysis = none) : session.analyze = session.run := by
  rw [analyze, hnone]
  dsimp only
  rw [if_pos hinput]

theorem fst_analyze (session : Session) :
    session.analyze.1 = session ∨ session.project.analysis = none ∧ session.analyze = session.run := by
  cases hmemo : session.project.analysis with
  | some a => exact .inl (by rw [analyze, hmemo])
  | none =>
      by_cases hinput : session.project.hasInput = true
      · exact .inr ⟨rfl, analyze_eq_run hinput hmemo⟩
      · refine .inl ?_
        rw [analyze, hmemo]
        dsimp only
        rw [if_neg hinput]

-- A run leaves the files and all of its project but the cache and the result as they are.
theorem fst_run (session : Session) : session.run.1.tree = session.tree ∧
    ∃ cache analysis, session.run.1.project =
      { session.project with cache := cache, analysis := analysis } := by
  have hkeep (storage : Storage) : (session.keep storage).tree = session.tree ∧
      ∃ cache analysis, (session.keep storage).project =
        { session.project with cache := cache, analysis := analysis } := by
    obtain ⟨cache, hcache⟩ := session.project_keep storage
    exact ⟨session.tree_keep storage, cache, session.project.analysis, hcache⟩
  cases session.runs_of_run with
  | lost e discover result =>
      rw [result]
      exact ⟨rfl, session.project.cache, session.project.analysis, rfl⟩
  | unmanned locations cause discover workers result =>
      rw [result]
      exact hkeep session.storage
  | failed locations e discover workers files result =>
      rw [result]
      exact hkeep _
  | succeeded locations a discover workers files result =>
      obtain ⟨htree, cache, analysis, hproject⟩ :=
        hkeep (session.method.ofFiles session.tree locations session.storage).2
      rw [result]
      exact ⟨htree, cache, some a, by simp only [hproject]⟩

theorem tree_analyze (session : Session) : session.analyze.1.tree = session.tree := by
  rcases session.fst_analyze with hsame | ⟨-, hrun⟩
  · rw [hsame]
  · rw [hrun]
    exact session.fst_run.1

theorem inputs_analyze (session : Session) :
    session.analyze.1.project.directories = session.project.directories ∧
      session.analyze.1.project.files = session.project.files := by
  rcases session.fst_analyze with hsame | ⟨-, hrun⟩
  · rw [hsame]
    exact ⟨rfl, rfl⟩
  · obtain ⟨-, cache, analysis, hproject⟩ := session.fst_run
    rw [hrun, hproject]
    exact ⟨rfl, rfl⟩

end Session

-- The sessions that come about where all files ever have known texts. Between the operations
-- files change in any way, as does whether workers can be started, and caches and cache
-- directories may be those of other sessions.
inductive Reachable (texts : Set String) : Session → Prop where
  | start {tree : FileTree} {disk : Disk} (settings shared : Settings) (proper : tree.Proper)
      (within : tree.Within texts) (blank : disk.Blank) :
      Reachable texts
        { tree := tree, disk := disk, shared := .ofSettings shared, project := .ofSettings settings }
  | step {session : Session} (h : Reachable texts session) (operation : Operation)
      (within : (session.step operation).1.tree.Within texts) :
      Reachable texts (session.step operation).1
  | edit {session : Session} {tree : FileTree} (h : Reachable texts session) (proper : tree.Proper)
      (within : tree.Within texts) : Reachable texts (session.setTree tree)
  | workers {session : Session} (h : Reachable texts session) (workers : Nat → Option String) :
      Reachable texts { session with workers := workers }
  | adopt {session other : Session} (h : Reachable texts session) (h' : Reachable texts other) :
      Reachable texts { session with shared := other.shared, usage := other.usage }
  | visit {session other : Session} (h : Reachable texts session) (h' : Reachable texts other) :
      Reachable texts { session with disk := other.disk }

namespace Session

-- What every operation preserves: the files are known, the inputs are locations, and all
-- caches hold genuine fragments only.
structure Sound (texts : Set String) (session : Session) : Prop where
  proper : session.tree.Proper
  within : session.tree.Within texts
  directories : ∀ location ∈ session.project.directories, FileTree.ProperLocation location
  files : ∀ location ∈ session.project.files, FileTree.ProperLocation location
  disk : session.disk.Genuine texts
  shared : session.shared.Genuine texts
  own : ∀ cache, session.project.cache = .own cache → cache.Genuine texts

-- All caches hold genuine fragments only.
structure Held (texts : Set String) (session : Session) : Prop where
  disk : session.disk.Genuine texts
  shared : session.shared.Genuine texts
  own : ∀ cache, session.project.cache = .own cache → cache.Genuine texts

-- Whatever an analysis parses has a known text.
def Feeds (texts : Set String) (session : Session) : Prop :=
  ∀ location content root, session.tree.load location = .ok content →
    parse content session.method.nesting = .ok root → content ∈ texts

namespace Held

theorem storage (h : session.Held texts) : session.storage.Genuine texts := by
  rw [Session.storage]
  cases hcache : session.project.cache with
  | undecided => exact ⟨Cache.genuine_ofSettings _, h.disk⟩
  | own cache => exact ⟨h.own cache hcache, h.disk⟩
  | shared => exact ⟨h.shared, h.disk⟩

theorem keep (h : session.Held texts) {storage : Storage} (hs : storage.Genuine texts) :
    (session.keep storage).Held texts := by
  rw [Session.keep]
  split
  · exact { h with disk := hs.disk, shared := hs.cache }
  · refine { h with disk := hs.disk, own := fun cache hcache => ?_ }
    rw [← CacheChoice.own.inj hcache]
    exact hs.cache

theorem run (h : session.Held texts) (hfeeds : session.Feeds texts) : session.run.1.Held texts := by
  have hfiles (locations : List FileTree.Location) :
      (session.keep (session.method.ofFiles session.tree locations session.storage).2).Held texts :=
    h.keep (Method.genuine_ofFiles h.storage hfeeds)
  cases session.runs_of_run with
  | lost e discover result =>
      rw [result]
      exact h
  | unmanned locations cause discover workers result =>
      rw [result]
      exact h.keep h.storage
  | failed locations e discover workers files result =>
      rw [result]
      exact hfiles locations
  | succeeded locations a discover workers files result =>
      rw [result]
      exact { hfiles locations with }

theorem analyze (h : session.Held texts)
    (hfeeds : session.project.analysis = none → session.Feeds texts) :
    session.analyze.1.Held texts := by
  rcases session.fst_analyze with hsame | ⟨hnone, hrun⟩
  · rw [hsame]
    exact h
  · rw [hrun]
    exact h.run (hfeeds hnone)

theorem addInput (h : session.Held texts) (kind : InputKind) (path : Path) :
    (session.addInput kind path).1.Held texts := by
  rw [Session.addInput]
  split
  · exact h
  · cases kind with
    | directory => exact { h with }
    | file => exact { h with }

-- A cache that the old settings selected is gone, and the others stay as they were.
theorem setSettings (h : session.Held texts) (settings : Settings) :
    (session.setProject (session.project.setSettings settings)).Held texts := by
  refine { h with own := fun cache hcache => ?_ }
  have hchoice : (session.project.setSettings settings).cache ≠ .own cache := by
    rw [Project.setSettings]
    dsimp only
    split <;> nofun
  exact absurd hcache hchoice

-- Only an analysis that really runs puts anything into a cache.
theorem step (h : session.Held texts) (operation : Operation)
    (hfeeds : operation = .analyze → session.project.analysis = none → session.Feeds texts) :
    (session.step operation).1.Held texts := by
  cases operation with
  | restart settings => exact { h with own := nofun }
  | write path content => exact { h with }
  | makeDirectory path => exact { h with }
  | remove path => exact { h with }
  | addInput kind path => exact h.addInput kind path
  | addFilter filter => exact { h with }
  | ignoreAnnotations => exact { h with }
  | setSettings settings => exact h.setSettings settings
  | shareCache => exact { h with own := nofun }
  | analyze => exact h.analyze (hfeeds rfl)
  | invalidate => exact { h with }
  | count kind => exact h
  | countPackages => exact h
  | package name => exact h
  | packages => exact h

end Held

namespace Sound

theorem held (h : session.Sound texts) : session.Held texts := ⟨h.disk, h.shared, h.own⟩

theorem feeds (h : session.Sound texts) : session.Feeds texts :=
  fun location content _ hload _ => h.within location content hload

theorem storage (h : session.Sound texts) : session.storage.Genuine texts := h.held.storage

theorem analyze (h : session.Sound texts) : session.analyze.1.Sound texts := by
  have htree := session.tree_analyze
  obtain ⟨hdirectories, hfiles⟩ := session.inputs_analyze
  have hheld := h.held.analyze fun _ => h.feeds
  exact {
    proper := htree ▸ h.proper
    within := htree ▸ h.within
    directories := hdirectories ▸ h.directories
    files := hfiles ▸ h.files
    disk := hheld.disk
    shared := hheld.shared
    own := hheld.own }

theorem addInput (h : session.Sound texts) (kind : InputKind) (path : Path) :
    (session.addInput kind path).1.Sound texts := by
  rw [Session.addInput]
  cases hinput : session.tree.input kind path with
  | error e => exact h
  | ok location =>
      have hlocation := FileTree.properLocation_of_input hinput
      have hpush (locations : List FileTree.Location)
          (hall : ∀ location ∈ locations, FileTree.ProperLocation location) :
          ∀ other ∈ locations ++ [location], FileTree.ProperLocation other := by
        intro other hother
        rcases List.mem_append.1 hother with hold | hnew
        · exact hall other hold
        · rw [List.mem_singleton.1 hnew]
          exact hlocation
      cases kind with
      | directory => exact { h with directories := hpush _ h.directories }
      | file => exact { h with files := hpush _ h.files }

theorem setTree (h : session.Sound texts) (proper : tree.Proper) (within : tree.Within texts) :
    (session.setTree tree).Sound texts :=
  { h with proper := proper, within := within }

theorem step (h : session.Sound texts) (operation : Operation)
    (within : (session.step operation).1.tree.Within texts) :
    (session.step operation).1.Sound texts := by
  cases operation with
  | restart settings =>
      exact { h with directories := nofun, files := nofun, own := nofun }
  | write path content => exact h.setTree (h.proper.write path content) within
  | makeDirectory path => exact h.setTree (h.proper.makeDirectory path) within
  | remove path => exact h.setTree (h.proper.remove path) within
  | addInput kind path => exact h.addInput kind path
  | addFilter filter => exact { h with }
  | ignoreAnnotations => exact { h with }
  | setSettings settings => exact { h with own := (h.held.setSettings settings).own }
  | shareCache => exact { h with own := nofun }
  | analyze => exact h.analyze
  | invalidate => exact { h with }
  | count kind => exact h
  | countPackages => exact h
  | package name => exact h
  | packages => exact h

end Sound

end Session

-- Every session that comes about is sound.
theorem Reachable.sound (h : Reachable texts session) : session.Sound texts := by
  induction h with
  | start settings shared proper within blank =>
      exact {
        proper := proper
        within := within
        directories := nofun
        files := nofun
        disk := fun location => CacheDirectory.genuine_of_files_eq_nil (blank location)
        shared := Cache.genuine_ofSettings shared
        own := nofun }
  | step _ operation within ih => exact ih.step operation within
  | edit _ proper within ih => exact ih.setTree proper within
  | workers _ _ ih => exact { ih with }
  | adopt _ _ ih ih' => exact { ih with shared := ih'.shared }
  | visit _ _ ih ih' => exact { ih with disk := ih'.disk }

end Census

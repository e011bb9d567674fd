import Census.Proofs.Project.Serial

namespace Census

-- The question that an operation asks of an analyzed project, if it asks one.
def Operation.query? : Operation → Option Query
  | .count .classType => some .countClasses
  | .count .interfaceType => some .countInterfaces
  | .count .function => some .countFunctions
  | .countPackages => some .countPackages
  | .package _ => some .getPackage
  | .packages => some .getPackages
  | _ => none

namespace Session

-- What happens to a session: its operations, and between them anything may become of the files,
-- of the workers, of the cache directories and of the shared cache.
inductive Event where
  | operation (o : Operation)
  | files (tree : FileTree)
  | workers (workers : Nat → Option String)
  | caches (disk : Disk) (shared : Cache) (usage : Usage)

-- Whether a memoized result outlives an event.
def Event.keeps : Event → Bool
  | .operation .invalidate | .operation (.restart _) => false
  | _ => true

variable [ContentHash]

def happen (session : Session) : Event → Session
  | .operation o => (session.step o).1
  | .files tree => session.setTree tree
  | .workers workers => { session with workers := workers }
  | .caches disk shared usage => { session with disk := disk, shared := shared, usage := usage }

def after (session : Session) (events : List Event) : Session := events.foldl happen session

-- What an analysis answers that really runs.
def ran? (session : Session) : Event → Option (Except ProjectError Analysis)
  | .operation .analyze =>
      if session.project.analysis.isNone && session.project.hasInput then some session.analyze.2
      else none
  | _ => none

-- What the last analysis answered that really ran, `last` if none did.
def lastRun? (session : Session) (last : Option (Except ProjectError Analysis)) :
    List Event → Option (Except ProjectError Analysis)
  | [] => last
  | event :: rest => (session.happen event).lastRun? ((session.ran? event).or last) rest

-- What an analysis does to its session.
inductive Analyzes (session : Session) : Prop
  | memoized (a : Analysis) (memo : session.project.analysis = some a)
      (result : session.analyze = (session, .ok a))
  | withoutInput (memo : session.project.analysis = none) (input : session.project.hasInput = false)
      (result : session.analyze = (session, .error .noInput))
  | failed (e : ProjectError) (cache : CacheChoice) (memo : session.project.analysis = none)
      (input : session.project.hasInput = true) (result : session.analyze.2 = .error e)
      (other : e ≠ .noInput)
      (project : session.analyze.1.project = { session.project with cache := cache })
  | succeeded (a : Analysis) (cache : CacheChoice) (memo : session.project.analysis = none)
      (input : session.project.hasInput = true) (result : session.analyze.2 = .ok a)
      (project : session.analyze.1.project =
        { session.project with cache := cache, analysis := some a })

end Session

section Failure

variable {α β : Type} {e : ProjectError}

theorem error_of_mapM {f : α → Except ProjectError β} {xs : List α} (h : xs.mapM f = .error e) :
    ∃ x ∈ xs, f x = .error e := by
  induction xs with
  | nil => cases h
  | cons x rest ih =>
      rw [List.mapM_cons] at h
      cases hx : f x with
      | error cause =>
          rw [hx] at h
          exact ⟨x, List.mem_cons_self, hx.trans (congrArg _ (Except.error.inj h))⟩
      | ok y =>
          rw [hx] at h
          cases hrest : rest.mapM f with
          | error cause =>
              rw [hrest] at h
              obtain ⟨other, hother, herror⟩ := ih (hrest.trans (congrArg _ (Except.error.inj h)))
              exact ⟨other, List.mem_cons_of_mem _ hother, herror⟩
          | ok ys =>
              rw [hrest] at h
              cases h

theorem mem_of_combined {results : List (Except ProjectError Registry)}
    (h : combined results = .error e) : .error e ∈ results := by
  rw [combined] at h
  cases hall : results.mapM id with
  | ok fragments =>
      rw [hall] at h
      cases h
  | error cause =>
      obtain ⟨result, hresult, rfl⟩ := error_of_mapM hall
      rw [hall] at h
      rwa [← Except.error.inj h]

theorem ProjectError.ne_noInput (h : e.path?.isSome = true) : e ≠ .noInput := by
  rintro rfl
  cases h

theorem Method.located_of_failure? [ContentHash] {method : Method} {tree : FileTree} {storage : Storage}
    {location : FileTree.Location} (h : method.failure? tree storage location = some e) :
    e.path?.isSome = true := by
  rw [failure?] at h
  cases hload : tree.load location with
  | error cause =>
      rw [hload] at h
      obtain rfl := Option.some.inj h
      rw [FileTree.load] at hload
      split at hload
      · cases hload
      · rw [← Except.error.inj hload]
        rfl
  | ok content =>
      rw [hload] at h
      dsimp only at h
      split at h
      · cases h
      · split at h
        · rw [← Option.some.inj h]
          rfl
        · cases h

-- An analysis of files fails with an error about one of them.
theorem Method.located_of_ofFiles [ContentHash] {method : Method} {tree : FileTree}
    {locations : List FileTree.Location} {storage : Storage}
    (h : .error e ∈ (method.ofFiles tree locations storage).1) : e.path?.isSome = true := by
  induction locations generalizing storage with
  | nil => cases h
  | cons location rest ih =>
      rcases List.mem_cons.1 h with hfile | hrest
      · exact located_of_failure? (ofFile_eq_error.1 hfile.symm)
      · exact ih hrest

theorem Project.located_of_discover {project : Project} {tree : FileTree}
    (h : project.discover tree = .error e) : e.path?.isSome = true := by
  rw [Project.discover] at h
  cases hwalks : project.directories.mapM tree.walk with
  | ok walked =>
      rw [hwalks] at h
      cases h
  | error cause =>
      rw [hwalks] at h
      obtain ⟨directory, -, hwalk⟩ := error_of_mapM hwalks
      rw [FileTree.walk] at hwalk
      split at hwalk
      · cases hwalk
      · rw [← Except.error.inj h, ← Except.error.inj hwalk]
        rfl

end Failure

namespace Session

variable {session : Session} {a : Analysis} {event : Event}

theorem analysis_addInput (project : Project) (kind : InputKind) (location : FileTree.Location) :
    (project.addInput kind location).analysis = project.analysis := by
  cases kind <;> rfl

-- No input is ever taken away again.
theorem hasInput_addInput (project : Project) (kind : InputKind) (location : FileTree.Location) :
    (project.addInput kind location).hasInput = true := by
  cases kind <;> simp [Project.addInput, Project.hasInput]

theorem hasInput_iff {project : Project} :
    project.hasInput = true ↔ project.directories ≠ [] ∨ project.files ≠ [] := by
  simp [Project.hasInput]

-- What every event preserves: a result that is there was answered by the last analysis that
-- really ran, and its project has an input.
structure Settled (session : Session) (last : Option (Except ProjectError Analysis)) : Prop where
  input : session.project.analysis ≠ none → session.project.hasInput = true
  last : ∀ a, session.project.analysis = some a → last = some (.ok a)

theorem Settled.of_none {last : Option (Except ProjectError Analysis)}
    (h : session.project.analysis = none) : session.Settled last where
  input := absurd h
  last a ha := by
    rw [h] at ha
    cases ha

variable [ContentHash]

theorem analyzes (session : Session) : session.Analyzes := by
  cases hmemo : session.project.analysis with
  | some a => exact .memoized a hmemo (by rw [analyze, hmemo])
  | none =>
      cases hinput : session.project.hasInput with
      | false =>
          refine .withoutInput hmemo hinput ?_
          rw [analyze, hmemo]
          simp [hinput]
      | true =>
          have hrun := analyze_eq_run hinput hmemo
          cases session.runs_of_run with
          | lost e discover result =>
              rw [result] at hrun
              exact .failed e session.project.cache hmemo hinput (congrArg Prod.snd hrun)
                (ProjectError.ne_noInput (Project.located_of_discover discover)) (by rw [hrun])
          | unmanned locations cause discover workers result =>
              obtain ⟨cache, hcache⟩ := session.project_keep session.storage
              rw [result] at hrun
              exact .failed _ cache hmemo hinput (congrArg Prod.snd hrun) (ProjectError.noConfusion ·)
                (by rw [hrun, hcache])
          | failed locations e discover workers files result =>
              obtain ⟨cache, hcache⟩ := session.project_keep
                (session.method.ofFiles session.tree locations session.storage).2
              rw [result] at hrun
              exact .failed e cache hmemo hinput (congrArg Prod.snd hrun)
                (ProjectError.ne_noInput (Method.located_of_ofFiles (mem_of_combined files)))
                (by rw [hrun, hcache])
          | succeeded locations a discover workers files result =>
              obtain ⟨cache, hcache⟩ := session.project_keep
                (session.method.ofFiles session.tree locations session.storage).2
              rw [result] at hrun
              exact .succeeded a cache hmemo hinput (congrArg Prod.snd hrun)
                (by simp only [hrun, hcache])

theorem step_analyze (session : Session) :
    session.step .analyze = (session.analyze.1, session.analyze.2.map .analysis) := rfl

theorem step_analyze_eq_ok : (session.step .analyze).2 = .ok (.analysis a) ↔ session.analyze.2 = .ok a := by
  rw [step_analyze]
  cases session.analyze.2 with
  | error e => simp [Except.map]
  | ok other => simp [Except.map]

theorem step_analyze_eq_error {e : ProjectError} :
    (session.step .analyze).2 = .error e ↔ session.analyze.2 = .error e := by
  rw [step_analyze]
  cases session.analyze.2 with
  | error cause => simp [Except.map]
  | ok a => simp [Except.map]

theorem step_addInput (session : Session) (kind : InputKind) (path : Path) :
    (∃ e, session.step (.addInput kind path) = (session, .error e)) ∨
      ∃ location, session.step (.addInput kind path) =
        (session.setProject (session.project.addInput kind location), .ok .done) := by
  rw [step, addInput]
  cases session.tree.input kind path with
  | error e => exact .inl ⟨e, rfl⟩
  | ok location => exact .inr ⟨location, rfl⟩

-- An operation that fails leaves all but the cache of its project as it was.
theorem project_of_step_error {o : Operation} {e : ProjectError} (h : (session.step o).2 = .error e) :
    ∃ cache, (session.step o).1.project = { session.project with cache := cache } := by
  have unchanged (hsame : (session.step o).1 = session) :
      ∃ cache, (session.step o).1.project = { session.project with cache := cache } :=
    ⟨session.project.cache, by rw [hsame]⟩
  cases o with
  | analyze =>
      cases session.analyzes with
      | memoized a memo result => exact unchanged (congrArg Prod.fst result)
      | withoutInput memo input result => exact unchanged (congrArg Prod.fst result)
      | failed e cache memo input result other project => exact ⟨cache, project⟩
      | succeeded a cache memo input result project =>
          rw [step_analyze, result] at h
          cases h
  | addInput kind path =>
      rcases session.step_addInput kind path with ⟨cause, hstep⟩ | ⟨location, hstep⟩
      · exact unchanged (congrArg Prod.fst hstep)
      · rw [hstep] at h
        cases h
  | restart | write | makeDirectory | remove | addFilter | ignoreAnnotations | setSettings
  | shareCache | invalidate => cases h
  | count | countPackages | package | packages => exact unchanged rfl

-- A memoized result outlives everything that does not drop it.
theorem analysis_happen (h : session.project.analysis = some a) (hkeeps : event.keeps = true) :
    (session.happen event).project.analysis = some a := by
  cases event with
  | files | workers | caches => exact h
  | operation o =>
      cases o with
      | analyze =>
          rw [happen, step_analyze, analyze, h]
          exact h
      | addInput kind path =>
          rcases session.step_addInput kind path with ⟨e, hstep⟩ | ⟨location, hstep⟩
          · rw [happen, hstep]
            exact h
          · rw [happen, hstep]
            exact (analysis_addInput ..).trans h
      | restart | invalidate => cases hkeeps
      | write | makeDirectory | remove | addFilter | ignoreAnnotations | setSettings | shareCache
      | count | countPackages | package | packages => exact h

theorem analysis_after {events : List Event} (h : session.project.analysis = some a)
    (hkeeps : ∀ event ∈ events, event.keeps = true) :
    (session.after events).project.analysis = some a := by
  induction events generalizing session with
  | nil => exact h
  | cons event rest ih =>
      obtain ⟨hevent, hrest⟩ := List.forall_mem_cons.1 hkeeps
      exact ih (analysis_happen h hevent) hrest

namespace Settled

variable {last : Option (Except ProjectError Analysis)}

theorem analyze (h : session.Settled last) :
    session.analyze.1.Settled ((session.ran? (.operation .analyze)).or last) := by
  have hran (memo : session.project.analysis = none) (input : session.project.hasInput = true) :
      session.ran? (.operation .analyze) = some session.analyze.2 := by
    simp [ran?, memo, input]
  cases session.analyzes with
  | memoized a memo result =>
      rw [result]
      simpa [ran?, memo] using h
  | withoutInput memo input result =>
      rw [result]
      exact .of_none memo
  | failed e cache memo input result other project =>
      exact .of_none (by rw [project]; exact memo)
  | succeeded a cache memo input result project =>
      refine ⟨fun _ => ?_, fun other hother => ?_⟩
      · rw [project]
        exact input
      · rw [project] at hother
        rw [hran memo input, result, Option.some_or, Option.some.inj hother]

theorem happen (h : session.Settled last) (event : Event) :
    (session.happen event).Settled ((session.ran? event).or last) := by
  cases event with
  | files | workers | caches => exact ⟨h.input, h.last⟩
  | operation o =>
      cases o with
      | analyze => exact h.analyze
      | addInput kind path =>
          rcases session.step_addInput kind path with ⟨e, hstep⟩ | ⟨location, hstep⟩
          · rw [Session.happen, hstep]
            exact h
          · rw [Session.happen, hstep]
            refine ⟨fun _ => hasInput_addInput .., fun a ha => h.last a ?_⟩
            exact (analysis_addInput ..).symm.trans ha
      | restart | invalidate => exact .of_none rfl
      | write | makeDirectory | remove | addFilter | ignoreAnnotations | setSettings | shareCache
      | count | countPackages | package | packages => exact ⟨h.input, h.last⟩

theorem after (h : session.Settled last) (events : List Event) :
    (session.after events).Settled (session.lastRun? last events) := by
  induction events generalizing session last with
  | nil => exact h
  | cons event rest ih => exact ih (h.happen event)

end Settled

theorem analysis_analyze (h : session.analyze.2 = .ok a) :
    session.analyze.1.project.analysis = some a := by
  cases session.analyzes with
  | memoized other memo result =>
      rw [result] at h ⊢
      rw [← Except.ok.inj h]
      exact memo
  | withoutInput memo input result =>
      rw [result] at h
      cases h
  | failed e cache memo input result other project =>
      rw [result] at h
      cases h
  | succeeded other cache memo input result project =>
      rw [result] at h
      rw [project, Except.ok.inj h]

-- An analysis is refused for want of an input when there is none and no result either.
theorem analyze_eq_noInput : session.analyze.2 = .error .noInput ↔
    session.project.analysis = none ∧ session.project.hasInput = false := by
  cases session.analyzes with
  | memoized a memo result => simp [result, memo]
  | withoutInput memo input result => simp [result, memo, input]
  | failed e cache memo input result other project =>
      simp [result, input, other]
  | succeeded a cache memo input result project => simp [result, input]

theorem step_query_of_none {o : Operation} {query : Query} (h : o.query? = some query)
    (hnone : session.project.analysis = none) :
    (session.step o).2 = .error (.prematureQuery query) := by
  cases o with
  | count kind =>
      rw [step, count, analyzed, hnone]
      cases kind <;>
      · obtain rfl := Option.some.inj h
        rfl
  | countPackages | package | packages =>
      obtain rfl := Option.some.inj h
      simp only [step, countPackages, package, analyzed, hnone]
      rfl
  | restart | write | makeDirectory | remove | addInput | addFilter | ignoreAnnotations | setSettings
  | shareCache | analyze | invalidate => cases h

-- What each query reads off a result.
structure AnswersFrom (session : Session) (a : Analysis) : Prop where
  count : ∀ kind, (session.step (.count kind)).2 = .ok (.number (a.registry.count kind))
  countPackages : (session.step .countPackages).2 = .ok (.number a.registry.size)
  package : ∀ name, (session.step (.package name)).2 =
    (a.registry.get? name).elim (.error (.unknownPackage name)) fun entry => .ok (.entry entry)
  packages : (session.step .packages).2 = .ok (.analysis a)

theorem answersFrom (h : session.project.analysis = some a) : session.AnswersFrom a where
  count kind := by
    rw [step, count, analyzed, h]
    rfl
  countPackages := by
    rw [step, countPackages, analyzed, h]
    rfl
  package name := by
    simp only [step, package, analyzed, h, bind, Except.bind]
    cases a.registry.get? name <;> rfl
  packages := by
    rw [step, analyzed, h]
    rfl

-- Queries are refused exactly as long as there is no result.
theorem step_query {o : Operation} {query : Query} (h : o.query? = some query) (other : Query) :
    (session.step o).2 = .error (.prematureQuery other) ↔
      session.project.analysis = none ∧ other = query := by
  cases hmemo : session.project.analysis with
  | none =>
      rw [step_query_of_none h hmemo]
      simp [eq_comm]
  | some a =>
      have hanswers := answersFrom hmemo
      cases o with
      | count kind => simp [hanswers.count]
      | countPackages => simp [hanswers.countPackages]
      | package name =>
          rw [hanswers.package]
          cases a.registry.get? name <;> simp
      | packages => simp [hanswers.packages]
      | restart | write | makeDirectory | remove | addInput | addFilter | ignoreAnnotations | setSettings
      | shareCache | analyze | invalidate => cases h

-- A project from its beginning on, whatever is done with it and whatever happens around it.
-- A result is there only if there is an input. Without one all queries are refused; with one
-- they answer from it, and it is what the last analysis answered that really ran. Once an
-- analysis has succeeded, every later one answers the same until the result is dropped. An
-- analysis is refused for want of an input only if there is no result either, and what fails
-- changes nothing but the cache.
theorem after_lifecycle (outset : Session) (settings : Settings) (events : List Event) :
    let start := outset.setProject (.ofSettings settings)
    let session := start.after events
    (session.project.analysis ≠ none →
      session.project.directories ≠ [] ∨ session.project.files ≠ []) ∧
    (∀ o query, o.query? = some query → ∀ other,
      (session.step o).2 = .error (.prematureQuery other) ↔
        session.project.analysis = none ∧ other = query) ∧
    (∀ a, session.project.analysis = some a →
      start.lastRun? none events = some (.ok a) ∧ session.AnswersFrom a) ∧
    (∀ a, (session.step .analyze).2 = .ok (.analysis a) →
      ∀ later : List Event, (∀ event ∈ later, event.keeps = true) →
        (((session.step .analyze).1.after later).step .analyze).2 = .ok (.analysis a)) ∧
    ((session.step .analyze).2 = .error .noInput ↔ session.project.analysis = none ∧
      session.project.directories = [] ∧ session.project.files = []) ∧
    ∀ o e, (session.step o).2 = .error e →
      (session.step o).1.project.stage = session.project.stage ∧
      ∃ cache, (session.step o).1.project = { session.project with cache := cache } := by
  intro start session
  have hsettled : session.Settled (start.lastRun? none events) :=
    Settled.after (.of_none rfl) events
  refine ⟨fun hmemo => hasInput_iff.1 (hsettled.input hmemo), fun o query => step_query,
    fun a ha => ⟨hsettled.last a ha, answersFrom ha⟩, fun a ha later hlater => ?_, ?_,
    fun o e he => ?_⟩
  · have hmemo : ((session.step .analyze).1.after later).project.analysis = some a :=
      analysis_after (analysis_analyze (step_analyze_eq_ok.1 ha)) hlater
    rw [step_analyze, analyze, hmemo]
    rfl
  · rw [step_analyze_eq_error, analyze_eq_noInput, ← Bool.not_eq_true, hasInput_iff]
    simp
  · obtain ⟨cache, hproject⟩ := project_of_step_error he
    refine ⟨?_, cache, hproject⟩
    rw [hproject]
    rfl

end Session

section Rewritten

attribute [local instance] ContentHash.lengths

-- A file that is analyzed, written anew and then left to a project that heeds no annotations
-- any more: the project still answers from what the file was.
theorem Session.after_lifecycle_rewritten :
    let start := untouched.setProject (.ofSettings (.standard "cache"))
    let session := start.after [.operation (.addInput .file (.ofText "/f")), .operation .analyze,
      .files (singleFile "<?php class A\x7b\x7d"), .operation .ignoreAnnotations]
    ∃ a, session.project.analysis = some a ∧ a.registry.count .classType = 0 ∧
      (session.step (.count .classType)).2 = .ok (.number 0) ∧
      start.lastRun? none [.operation (.addInput .file (.ofText "/f")), .operation .analyze,
        .files (singleFile "<?php class A\x7b\x7d"), .operation .ignoreAnnotations] = some (.ok a) := by
  intro start session
  have hfacts : session.project.analysis.map (·.registry.count .classType) = some 0 := by
    decide +kernel
  obtain ⟨a, ha, hcount⟩ := Option.map_eq_some_iff.1 hfacts
  obtain ⟨-, -, hanswers, -⟩ := after_lifecycle untouched (.standard "cache")
    [.operation (.addInput .file (.ofText "/f")), .operation .analyze,
      .files (singleFile "<?php class A\x7b\x7d"), .operation .ignoreAnnotations]
  obtain ⟨hlast, hfrom⟩ := hanswers a ha
  refine ⟨a, ha, hcount, ?_, hlast⟩
  rw [← hcount]
  exact hfrom.count .classType

end Rewritten

end Census

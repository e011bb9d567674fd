import Census.Proofs.Project.Serial

namespace Census

section Limit

variable [ContentHash] {texts : Set String} {session : Session} {most : Nat}

-- The sessions that come about where no analysis ever runs under a limit above `most`, neither
-- in the session itself nor in those whose caches it takes over.
inductive ReachableUpTo (texts : Set String) (most : Nat) : Session → Prop where
  | start {tree : FileTree} {disk : Disk} (settings shared : Settings) (proper : tree.Proper)
      (within : tree.Within texts) (blank : disk.Blank) :
      ReachableUpTo texts most
        { tree := tree, disk := disk, shared := .ofSettings shared, project := .ofSettings settings }
  | step {session : Session} (h : ReachableUpTo texts most session) (operation : Operation)
      (within : (session.step operation).1.tree.Within texts)
      (limited : operation = .analyze → session.project.analysis = none →
        session.project.settings.nesting ≤ most) :
      ReachableUpTo texts most (session.step operation).1
  | edit {session : Session} {tree : FileTree} (h : ReachableUpTo texts most session)
      (proper : tree.Proper) (within : tree.Within texts) :
      ReachableUpTo texts most (session.setTree tree)
  | workers {session : Session} (h : ReachableUpTo texts most session)
      (workers : Nat → Option String) : ReachableUpTo texts most { session with workers := workers }
  | adopt {session other : Session} (h : ReachableUpTo texts most session)
      (h' : ReachableUpTo texts most other) :
      ReachableUpTo texts most { session with shared := other.shared, usage := other.usage }
  | visit {session other : Session} (h : ReachableUpTo texts most session)
      (h' : ReachableUpTo texts most other) :
      ReachableUpTo texts most { session with disk := other.disk }

-- The texts among some that a limit lets be parsed.
def textsUpTo (texts : Set String) (most : Nat) : Set String :=
  {text ∈ texts | ∃ root, parse text most = .ok root}

namespace ReachableUpTo

theorem reachable (h : ReachableUpTo texts most session) : Reachable texts session := by
  induction h with
  | start settings shared proper within blank => exact .start settings shared proper within blank
  | step _ operation within _ ih => exact ih.step operation within
  | edit _ proper within ih => exact ih.edit proper within
  | workers _ workers ih => exact ih.workers workers
  | adopt _ _ ih ih' => exact ih.adopt ih'
  | visit _ _ ih ih' => exact ih.visit ih'

-- What the caches hold comes from texts that the highest limit so far lets be parsed.
theorem held (h : ReachableUpTo texts most session) : session.Held (textsUpTo texts most) := by
  induction h with
  | start settings shared proper within blank =>
      exact {
        disk := fun location => CacheDirectory.genuine_of_files_eq_nil (blank location)
        shared := Cache.genuine_ofSettings shared
        own := nofun }
  | step h operation _ limited ih =>
      refine ih.step operation fun hanalyze hnone location content root hload hparse => ?_
      exact ⟨h.reachable.sound.within location content hload, root,
        parse_ok_of_le (limited hanalyze hnone) hparse⟩
  | edit _ _ _ ih => exact { ih with }
  | workers _ _ ih => exact { ih with }
  | adopt _ _ ih ih' => exact { ih with shared := ih'.shared }
  | visit _ _ ih ih' => exact { ih with disk := ih'.disk }

end ReachableUpTo

-- A file that is answered has a text which the limit lets be parsed, or the cache knows it.
theorem Method.parses_or_known {method : Method} {tree : FileTree} {storage : Storage}
    {location : FileTree.Location} {fragment : Registry}
    (h : (method.ofFile tree location storage).1 = .ok fragment) :
    ∃ content, tree.load location = .ok content ∧
      ((∃ root, parse content method.nesting = .ok root) ∨
        storage.known (method.keyAt location content) = some fragment) := by
  cases hload : tree.load location with
  | error e =>
      rw [ofFile_of_load_error hload] at h
      cases h
  | ok content =>
      refine ⟨content, rfl, ?_⟩
      rcases ofFile_cases method storage hload with
        ⟨known, hknown, hfile⟩ | ⟨cause, -, -, hfile⟩ | ⟨root, -, hparse, -⟩
      · rw [hfile] at h
        exact .inr (hknown.trans (congrArg some (Except.ok.inj h)))
      · rw [hfile] at h
        cases h
      · exact .inl ⟨root, hparse⟩

-- What the caches know was made under limits up to `most`, and so a limit that is at least as
-- high is kept by every file: an analysis succeeds only if the present texts of all files are
-- parsed under it.
theorem analyze_within_limit (h : ReachableUpTo texts most session)
    (hdistinct : Set.InjOn Fingerprint.ofContent texts) (hnone : session.project.analysis = none)
    (hmost : most ≤ session.project.settings.nesting) {a : Analysis}
    (ha : session.analyze.2 = .ok a) :
    ∃ locations, session.project.discover session.tree = .ok locations ∧
      ∀ location ∈ locations, ∃ content root, session.tree.load location = .ok content ∧
        parse content session.project.settings.nesting = .ok root := by
  have hsound := h.reachable.sound
  have hinput : session.project.hasInput := by
    by_contra hempty
    rw [Session.analyze, hnone] at ha
    dsimp only at ha
    rw [if_neg hempty] at ha
    cases ha
  rw [Session.analyze_eq_run hinput hnone] at ha
  cases session.runs_of_run with
  | lost e discover result | unmanned locations cause discover workers result
  | failed locations e discover workers files result =>
      rw [result] at ha
      cases ha
  | succeeded locations analysis discover workers files result =>
      obtain ⟨hnodup, hproper⟩ := hsound.discover discover
      rw [Method.ofFiles_fst hnodup hproper] at files
      obtain ⟨fragments, hfragments, -⟩ := ok_of_combined files
      refine ⟨locations, discover, fun location hlocation => ?_⟩
      obtain ⟨fragment, -, hfragment⟩ := exists_of_forall₂ hfragments.flip location hlocation
      obtain ⟨content, hload, ⟨root, hparse⟩ | hknown⟩ := Method.parses_or_known hfragment
      · exact ⟨content, root, hload, hparse⟩
      · have hgenuine := h.held.storage.cache.of_known h.held.storage.disk hknown
        obtain ⟨text, ⟨htext, root, hparse⟩, hfingerprint, -⟩ := hgenuine
        have hcontent := hsound.within location content hload
        obtain rfl : text = content := hdistinct htext hcontent hfingerprint
        exact ⟨text, root, hload, parse_ok_of_le hmost hparse⟩

end Limit

section Relimited

attribute [local instance] ContentHash.lengths

-- A file that was analyzed into a shared cache under the usual limit, before the limit was set
-- to another one.
def Session.relimited (nesting : Nat) : Session :=
  let start : Session := { tree := singleFile "<?php f(1);", project := .ofSettings (.standard "cache") }
  let shared := ((start.step (.addInput .file (.ofText "/f"))).1.step .shareCache).1
  let analyzed := (shared.step .analyze).1
  ((analyzed.step (.setSettings { Settings.standard "cache" with nesting := nesting })).1.step
    .invalidate).1

theorem reachable_relimited (nesting : Nat) :
    ReachableUpTo {"<?php f(1);"} 256 (.relimited nesting) := by
  have hwithin : (singleFile "<?php f(1);").Within {"<?php f(1);"} :=
    singleFile_within rfl (by decide +kernel)
  have hstart : ReachableUpTo {"<?php f(1);"} 256
      { tree := singleFile "<?php f(1);", project := .ofSettings (.standard "cache") } :=
    .start (.standard "cache") { Settings.standard "cache" with driver := .memory }
      (singleFile_proper _) hwithin fun _ => rfl
  have hinput := hstart.step (.addInput .file (.ofText "/f"))
    (by rwa [Session.step, Session.tree_addInput]) nofun
  have hshared := hinput.step .shareCache hinput.reachable.sound.within nofun
  have hkept := hshared.reachable.sound.within
  rw [← Session.tree_analyze] at hkept
  have hran := hshared.step .analyze hkept fun _ _ => by decide +kernel
  have hset := hran.step (.setSettings { Settings.standard "cache" with nesting := nesting })
    hran.reachable.sound.within nofun
  exact hset.step .invalidate hset.reachable.sound.within nofun

-- A higher limit is kept by the file that the cache knows.
theorem analyze_within_raised_limit :
    Set.InjOn Fingerprint.ofContent {"<?php f(1);"} ∧
      (Session.relimited 300).project.analysis = none ∧
      256 ≤ (Session.relimited 300).project.settings.nesting ∧
      ∃ a root, (Session.relimited 300).analyze.2 = .ok a ∧
        parse "<?php f(1);" 300 = .ok root := by
  have hfacts : (Session.relimited 300).analyze.2.toOption.isSome = true ∧
      ((Session.relimited 300).project.discover (Session.relimited 300).tree).toOption =
        some [[Text.Utf8.encode "f"]] ∧
      ((Session.relimited 300).tree.load [Text.Utf8.encode "f"]).toOption = some "<?php f(1);" ∧
      (Session.relimited 300).project.settings.nesting = 300 := by
    decide +kernel
  obtain ⟨hsome, hfound, hloaded, hnesting⟩ := hfacts
  cases hanalyze : (Session.relimited 300).analyze.2 with
  | error e =>
      rw [hanalyze] at hsome
      cases hsome
  | ok a =>
      obtain ⟨locations, hdiscover, hall⟩ := analyze_within_limit (reachable_relimited 300)
        (Set.injOn_singleton _ _) rfl (by rw [hnesting]; decide) hanalyze
      rw [hdiscover] at hfound
      obtain rfl := Option.some.inj hfound
      obtain ⟨content, root, hload, hparse⟩ := hall [Text.Utf8.encode "f"] List.mem_cons_self
      rw [hload] at hloaded
      obtain rfl := Option.some.inj hloaded
      rw [hnesting] at hparse
      exact ⟨Set.injOn_singleton _ _, rfl, by rw [hnesting]; decide, a, root, rfl, hparse⟩

-- A lower limit is not: the analysis succeeds with a file that the limit in force refuses.
theorem analyze_beyond_lowered_limit :
    Reachable {"<?php f(1);"} (.relimited 1) ∧ (Session.relimited 1).project.analysis = none ∧
      (Session.relimited 1).project.settings.nesting = 1 ∧
      (Session.relimited 1).analyze.2.toOption.isSome = true ∧
      ((Session.relimited 1).project.discover (Session.relimited 1).tree).toOption =
        some [[Text.Utf8.encode "f"]] ∧
      ((Session.relimited 1).tree.load [Text.Utf8.encode "f"]).toOption = some "<?php f(1);" ∧
      parse "<?php f(1);" 1 = .error (.nestingLimit ⟨1, 7⟩ 1) := by
  refine ⟨(reachable_relimited 1).reachable, rfl, rfl, ?_⟩
  decide +kernel

end Relimited

end Census

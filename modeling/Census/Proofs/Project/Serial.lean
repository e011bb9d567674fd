import Census.Proofs.Project.Reachable
import Census.Proofs.Registry.Merge
import Mathlib.Data.List.Forall2

namespace Census

section Lists

variable {α β : Type}

-- Where a function succeeds on a whole list, it does so item by item.
theorem forall₂_of_mapM {ε : Type} {f : α → Except ε β} {xs : List α} {ys : List β}
    (h : xs.mapM f = .ok ys) : List.Forall₂ (fun x y => f x = .ok y) xs ys := by
  induction xs generalizing ys with
  | nil =>
      obtain rfl : [] = ys := Except.ok.inj h
      exact .nil
  | cons x xs ih =>
      rw [List.mapM_cons] at h
      cases hx : f x with
      | error e =>
          rw [hx] at h
          cases h
      | ok y =>
          rw [hx] at h
          cases hxs : xs.mapM f with
          | error e =>
              rw [hxs] at h
              cases h
          | ok zs =>
              rw [hxs] at h
              obtain rfl : y :: zs = ys := Except.ok.inj h
              exact .cons hx (ih hxs)

theorem exists_of_forall₂ {R : α → β → Prop} {xs : List α} {ys : List β} (h : List.Forall₂ R xs ys) :
    ∀ y ∈ ys, ∃ x ∈ xs, R x y := by
  induction h with
  | nil => exact nofun
  | @cons x y xs ys hxy _ ih =>
      refine List.forall_mem_cons.2 ⟨⟨x, List.mem_cons_self, hxy⟩, fun z hz => ?_⟩
      obtain ⟨other, hother, hrel⟩ := ih z hz
      exact ⟨other, List.mem_cons_of_mem _ hother, hrel⟩

end Lists

section Combined

variable {α : Type} {f : α → Except ProjectError Registry} {xs : List α}

theorem combined_map (f : α → Except ProjectError Registry) (xs : List α) :
    combined (xs.map f) = (xs.mapM f).map Registry.ofFragments := by
  rw [combined, List.mapM_map]
  rfl

theorem ok_of_combined {registry : Registry} (h : combined (xs.map f) = .ok registry) :
    ∃ fragments, List.Forall₂ (fun x fragment => f x = .ok fragment) xs fragments ∧
      registry = .ofFragments fragments := by
  rw [combined_map] at h
  cases hall : xs.mapM f with
  | error e =>
      rw [hall] at h
      cases h
  | ok fragments =>
      rw [hall] at h
      exact ⟨fragments, forall₂_of_mapM hall, (Except.ok.inj h).symm⟩

theorem mapM_id_eq_error {failure? : α → Option ProjectError} {e : ProjectError}
    (hfailure : ∀ x ∈ xs, ∀ e, f x = .error e ↔ failure? x = some e) :
    (xs.map f).mapM id = .error e ↔ xs.findSome? failure? = some e := by
  induction xs with
  | nil =>
      rw [List.findSome?_nil]
      exact ⟨nofun, nofun⟩
  | cons x rest ih =>
      have hx := hfailure x List.mem_cons_self
      have hrest := ih fun other hother => hfailure other (List.mem_cons_of_mem _ hother)
      rw [List.map_cons, List.mapM_cons, id, List.findSome?_cons]
      cases hfx : f x with
      | error cause =>
          rw [(hx cause).1 hfx]
          exact ⟨fun h => congrArg some (Except.error.inj h), fun h => congrArg _ (Option.some.inj h)⟩
      | ok fragment =>
          have hnone : failure? x = none := by
            rw [Option.eq_none_iff_forall_ne_some]
            intro cause hcause
            rw [(hx cause).2 hcause] at hfx
            cases hfx
          rw [hnone, ← hrest]
          cases hall : (rest.map f).mapM id with
          | error cause => exact Iff.rfl
          | ok fragments => exact ⟨nofun, nofun⟩

-- The first failure is the one that is reported.
theorem combined_map_eq_error {failure? : α → Option ProjectError} {e : ProjectError}
    (hfailure : ∀ x ∈ xs, ∀ e, f x = .error e ↔ failure? x = some e) :
    combined (xs.map f) = .error e ↔ xs.findSome? failure? = some e := by
  rw [← mapM_id_eq_error hfailure, combined]
  cases (xs.map f).mapM id with
  | error cause =>
      exact ⟨fun h => congrArg _ (Except.error.inj h), fun h => congrArg _ (Except.error.inj h)⟩
  | ok fragments => exact ⟨nofun, nofun⟩

end Combined

-- The registries of several trees together hold the declarations of all trees in their order.
theorem ofFragments_survey (mode : AnnotationMode) (roots : List Node) :
    Registry.ofFragments (roots.map (survey mode)) = .grouped (roots.flatMap (surveyed mode)) := by
  have hsurvey : roots.map (survey mode) = (roots.map (surveyed mode)).map Registry.ofDeclarations := by
    rw [List.map_map]
    rfl
  rw [hsurvey, Registry.ofFragments_ofDeclarations, Registry.ofDeclarations_eq, List.flatMap_def]

-- What the present text of a file is parsed to: by some limit, and by every other one that lets
-- it be parsed.
structure FileTree.Parses (tree : FileTree) (location : FileTree.Location) (root : Node) : Prop where
  reached : ∃ content limit, tree.load location = .ok content ∧ parse content limit = .ok root
  unique : ∀ content limit other, tree.load location = .ok content → parse content limit = .ok other →
    other = root

section Genuine

variable [ContentHash] {texts : Set String} {session : Session} {tree : FileTree}
  {location : FileTree.Location} {locations : List FileTree.Location} {mode : AnnotationMode}
  {fragment : Registry}

-- A genuine fragment of a text is what every limit that suffices makes of it.
theorem Genuine.parses (hdistinct : Set.InjOn Fingerprint.ofContent texts) {content : String}
    (hcontent : content ∈ texts) (hload : tree.load location = .ok content)
    (h : Genuine texts mode (.ofContent content) fragment) :
    ∃ root, tree.Parses location root ∧ fragment = survey mode root := by
  obtain ⟨text, htext, hfingerprint, limit, root, hparse, rfl⟩ := h
  obtain rfl : text = content := hdistinct htext hcontent hfingerprint
  refine ⟨root, ⟨⟨text, limit, hload, hparse⟩, fun other limit' root' hother hparse' => ?_⟩, rfl⟩
  obtain rfl : text = other := Except.ok.inj (hload.symm.trans hother)
  have hless := parse_ok_of_le (Nat.le_max_left limit limit') hparse
  have hmore := parse_ok_of_le (Nat.le_max_right limit limit') hparse'
  exact Except.ok.inj (hmore.symm.trans hless)

namespace Session

-- The discovered files are different locations.
theorem Sound.discover (h : session.Sound texts)
    (hdiscover : session.project.discover session.tree = .ok locations) :
    locations.Nodup ∧ ∀ location ∈ locations, FileTree.ProperLocation location := by
  rw [Project.discover] at hdiscover
  cases hwalks : session.project.directories.mapM session.tree.walk with
  | error e =>
      rw [hwalks] at hdiscover
      cases hdiscover
  | ok walked =>
      rw [hwalks] at hdiscover
      obtain rfl := Except.ok.inj hdiscover
      refine ⟨(nodup_eraseDups _).filter _, fun location hlocation => ?_⟩
      have hmem := List.mem_eraseDups.1 (List.mem_filter.1 hlocation).1
      rcases List.mem_append.1 hmem with hwalked | hfile
      · obtain ⟨found, hfound, hlocation⟩ := List.mem_flatten.1 hwalked
        obtain ⟨directory, hdirectory, hwalk⟩ := exists_of_forall₂ (forall₂_of_mapM hwalks) found hfound
        exact h.proper.mem_walk (h.directories directory hdirectory) hwalk location hlocation
      · exact h.files location hfile

-- A file that is answered is answered with what its present text is parsed to.
theorem Sound.parses (h : session.Sound texts) (hdistinct : Set.InjOn Fingerprint.ofContent texts)
    (hfragment : (session.method.ofFile session.tree location session.storage).1 = .ok fragment) :
    ∃ root, session.tree.Parses location root ∧ fragment = survey session.project.mode root := by
  obtain ⟨-, hgenuine⟩ := Method.genuine_ofFile h.storage (h.feeds location)
  obtain ⟨content, hload, hgenuine⟩ := hgenuine fragment hfragment
  exact hgenuine.parses hdistinct (h.within location content hload) hload

-- The files of a run that succeeds have trees, from which all fragments come.
theorem Sound.exists_roots (h : session.Sound texts)
    (hdistinct : Set.InjOn Fingerprint.ofContent texts) {fragments : List Registry}
    (hfragments : List.Forall₂ (fun location fragment =>
      (session.method.ofFile session.tree location session.storage).1 = .ok fragment)
        locations fragments) :
    ∃ roots, List.Forall₂ session.tree.Parses locations roots ∧
      fragments = roots.map (survey session.project.mode) := by
  induction hfragments with
  | nil => exact ⟨[], .nil, rfl⟩
  | cons hfragment _ ih =>
      obtain ⟨root, hroot, rfl⟩ := h.parses hdistinct hfragment
      obtain ⟨roots, hroots, rfl⟩ := ih
      exact ⟨root :: roots, .cons hroot hroots, rfl⟩

end Session

-- An analysis comes to the declarations of its files, file by file, whatever the caches hold and
-- under whatever limit lets the files be parsed. It fails where no workers can be had, and else
-- with the first file that cannot be loaded, or that neither the cache knows nor the limit lets
-- be parsed.
theorem analyze_serial (h : Reachable texts session)
    (hdistinct : Set.InjOn Fingerprint.ofContent texts) (hinput : session.project.hasInput)
    (hnone : session.project.analysis = none) :
    (∀ a, session.analyze.2 = .ok a →
      ∃ locations roots, session.project.discover session.tree = .ok locations ∧
        List.Forall₂ session.tree.Parses locations roots ∧
        a.registry = .grouped (roots.flatMap (surveyed session.project.mode))) ∧
    (∀ locations, session.project.discover session.tree = .ok locations → ∀ e,
      session.analyze.2 = .error e ↔
        ((session.workers session.method.stackSize).map .workersNotStarted).or
          (locations.findSome? (session.method.failure? session.tree session.storage)) = some e) ∧
    session.analyze.1.project.analysis = session.analyze.2.toOption := by
  have hsound := h.sound
  -- The files do not interfere, so each is answered by what was known before the analysis.
  have hfiles (locations : List FileTree.Location)
      (hdiscover : session.project.discover session.tree = .ok locations) :
      (session.method.ofFiles session.tree locations session.storage).1 =
        locations.map fun location =>
          (session.method.ofFile session.tree location session.storage).1 := by
    obtain ⟨hnodup, hproper⟩ := hsound.discover hdiscover
    exact Method.ofFiles_fst hnodup hproper
  have hkept (storage : Storage) : (session.keep storage).project.analysis = none := by
    obtain ⟨cache, hcache⟩ := session.project_keep storage
    rw [hcache]
    exact hnone
  rw [Session.analyze_eq_run hinput hnone]
  cases session.runs_of_run with
  | lost e discover result =>
      rw [result, discover]
      exact ⟨nofun, nofun, hnone⟩
  | unmanned locations cause discover workers result =>
      rw [result, discover, workers]
      refine ⟨nofun, fun _ _ e => ?_, hkept session.storage⟩
      rw [Option.map_some, Option.some_or, Except.error.injEq, Option.some.injEq]
  | failed locations e discover workers files result =>
      rw [result, discover, workers]
      refine ⟨nofun, fun others hothers other => ?_, hkept _⟩
      rw [hfiles locations discover] at files
      obtain rfl := Except.ok.inj hothers
      rw [Option.map_none, Option.none_or, (combined_map_eq_error fun _ _ _ => Method.ofFile_eq_error).1 files,
        Except.error.injEq, Option.some.injEq]
  | succeeded locations a discover workers files result =>
      rw [result, discover, workers]
      refine ⟨fun other hother => ?_, fun others hothers e => ?_, rfl⟩
      · obtain rfl := Except.ok.inj hother
        rw [hfiles locations discover] at files
        obtain ⟨fragments, hfragments, hregistry⟩ := ok_of_combined files
        obtain ⟨roots, hroots, rfl⟩ := hsound.exists_roots hdistinct hfragments
        exact ⟨locations, roots, rfl, hroots, hregistry.trans (ofFragments_survey _ roots)⟩
      · rw [hfiles locations discover] at files
        obtain rfl := Except.ok.inj hothers
        rw [Option.map_none, Option.none_or, ← combined_map_eq_error fun _ _ _ => Method.ofFile_eq_error, files]
        exact ⟨nofun, nofun⟩

end Genuine

section Rewritten

-- Contents may be numbered by their lengths, as far as these differ.
@[reducible] def ContentHash.lengths : ContentHash where
  number content := .ofNat content.length

attribute [local instance] ContentHash.lengths

variable {texts : Set String} {text : String}

def singleFile (text : String) : FileTree :=
  .directory [(Text.Utf8.encode "f", .file (Text.Utf8.encode text))]

theorem singleFile_proper (text : String) : (singleFile text).Proper := by
  have hname : ProperName (Text.Utf8.encode "f") :=
    ⟨by decide +kernel, by decide +kernel, by decide +kernel, by decide +kernel⟩
  refine .directory (fun entry hentry => ?_) fun entry hentry => ?_
  · rw [List.mem_singleton.1 hentry]
    exact hname
  · rw [List.mem_singleton.1 hentry]
    exact .file _

theorem singleFile_within (h : text ∈ texts)
    (hdecode : Text.Utf8.decodeLossy (Text.Utf8.encode text) = text) :
    (singleFile text).Within texts := by
  intro location content hload
  cases location with
  | nil => cases hload
  | cons name rest =>
      rw [FileTree.load, FileTree.get?_cons] at hload
      cases hbelow : (singleFile text).child? name with
      | none =>
          rw [hbelow] at hload
          cases hload
      | some below =>
          obtain hentry := List.mem_singleton.1 (Assoc.mem_of_find? hbelow)
          cases hentry
          rw [hbelow, Option.bind_some] at hload
          cases rest with
          | nil =>
              rw [← Except.ok.inj hload, hdecode]
              exact h
          | cons => cases hload

-- One file, and a cache in a directory.
def Session.untouched : Session :=
  { tree := singleFile "<?php ;", project := .ofSettings (.standard "cache") }

-- The file has been analyzed and then written anew.
def Session.rewritten : Session :=
  let analyzed := ((untouched.step (.addInput .file (.ofText "/f"))).1.step .analyze).1
  ((analyzed.setTree (singleFile "<?php class A\x7b\x7d")).step .invalidate).1

theorem reachable_rewritten : Reachable {"<?php ;", "<?php class A\x7b\x7d"} .rewritten := by
  have hold : (singleFile "<?php ;").Within {"<?php ;", "<?php class A\x7b\x7d"} :=
    singleFile_within (.inl rfl) (by decide +kernel)
  have hnew : (singleFile "<?php class A\x7b\x7d").Within {"<?php ;", "<?php class A\x7b\x7d"} :=
    singleFile_within (.inr rfl) (by decide +kernel)
  have hstart : Reachable {"<?php ;", "<?php class A\x7b\x7d"} .untouched :=
    .start (.standard "cache") { Settings.standard "cache" with driver := .memory }
      (singleFile_proper _) hold fun _ => rfl
  have hadded : (Session.untouched.step (.addInput .file (.ofText "/f"))).1.tree = singleFile "<?php ;" :=
    Session.tree_addInput .untouched .file (.ofText "/f")
  have hinput := hstart.step (.addInput .file (.ofText "/f")) (by rwa [hadded])
  have hran : ((Session.untouched.step (.addInput .file (.ofText "/f"))).1.step .analyze).1.tree =
      singleFile "<?php ;" := (Session.tree_analyze _).trans hadded
  have hanalyzed := hinput.step .analyze (by rwa [hran])
  exact (hanalyzed.edit (singleFile_proper _) hnew).step .invalidate hnew

theorem analyze_rewritten :
    Session.rewritten.project.hasInput = true ∧ Session.rewritten.project.analysis = none ∧
      Set.InjOn Fingerprint.ofContent {"<?php ;", "<?php class A\x7b\x7d"} ∧
      ∃ a root, Session.rewritten.analyze.2 = .ok a ∧
        Session.rewritten.tree.Parses [Text.Utf8.encode "f"] root ∧
        a.registry = .grouped (surveyed .heeded root) ∧ a.registry.count .classType = 1 := by
  have hdistinct : Set.InjOn Fingerprint.ofContent {"<?php ;", "<?php class A\x7b\x7d"} := by
    have hne : Fingerprint.ofContent "<?php ;" ≠ Fingerprint.ofContent "<?php class A\x7b\x7d" := by
      decide +kernel
    rintro a (rfl | rfl) b (rfl | rfl) h
    · rfl
    · exact absurd h hne
    · exact absurd h.symm hne
    · rfl
  have hfacts : Session.rewritten.project.hasInput = true ∧
      (Session.rewritten.analyze.2.toOption.map fun a => a.registry.count .classType) = some 1 ∧
      (Session.rewritten.project.discover Session.rewritten.tree).toOption =
        some [[Text.Utf8.encode "f"]] ∧
      Session.rewritten.project.mode = .heeded := by
    decide +kernel
  obtain ⟨hinput, hcount, hfound, hmode⟩ := hfacts
  have hserial := analyze_serial reachable_rewritten hdistinct hinput rfl
  cases hanalyze : Session.rewritten.analyze.2 with
  | error e =>
      rw [hanalyze] at hcount
      cases hcount
  | ok a =>
      obtain ⟨locations, roots, hdiscover, hroots, hregistry⟩ := hserial.1 a hanalyze
      rw [hdiscover] at hfound
      obtain rfl := Option.some.inj hfound
      cases hroots with
      | @cons _ root _ _ hroot hrest =>
          cases hrest
          rw [hmode, List.flatMap_singleton] at hregistry
          rw [hanalyze] at hcount
          exact ⟨hinput, rfl, hdistinct, a, root, rfl, hroot, hregistry, Option.some.inj hcount⟩

end Rewritten

end Census

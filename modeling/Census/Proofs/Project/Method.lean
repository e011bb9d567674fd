import Census.Project.Analysis
import Census.Proofs.Cache.Genuine
import Census.Proofs.Files.Names
import Census.Proofs.Script.Nesting
import Mathlib.Data.Set.Function

namespace Census

variable {texts : Set String} {key key' : CacheKey} {storage : Storage} {tree : FileTree}
  {location other : FileTree.Location} {content : String}

namespace Storage

-- What the cache in use answers.
def known (storage : Storage) (key : CacheKey) : Option Registry :=
  storage.cache.known storage.disk key

theorem lookup_fst (storage : Storage) (key : CacheKey) :
    (storage.lookup key).1 = storage.known key :=
  Cache.lookup_fst storage.disk key storage.cache

theorem known_lookup (h : key.slot ≠ key'.slot) :
    (storage.lookup key).2.known key' = storage.known key' :=
  Cache.known_lookup storage.disk storage.cache h

theorem known_store {fragment : Registry} (h : key.slot ≠ key'.slot) :
    (storage.store key fragment).known key' = storage.known key' :=
  Cache.known_store storage.disk storage.cache h

variable [ContentHash]

structure Genuine (texts : Set String) (storage : Storage) : Prop where
  cache : storage.cache.Genuine texts
  disk : storage.disk.Genuine texts

theorem Genuine.lookup (h : storage.Genuine texts) (key : CacheKey) :
    (storage.lookup key).2.Genuine texts :=
  ⟨h.cache.lookup h.disk, h.disk⟩

theorem Genuine.store (h : storage.Genuine texts) {fragment : Registry}
    (hf : Census.Genuine texts key.mode key.fingerprint fragment) :
    (storage.store key fragment).Genuine texts := by
  obtain ⟨hcache, hdisk⟩ := h.cache.store h.disk hf
  exact ⟨hcache, hdisk⟩

end Storage

namespace Method

variable [ContentHash] {method : Method}

-- The key under which the content of a file is kept.
def keyAt (method : Method) (location : FileTree.Location) (content : String) : CacheKey :=
  .ofContent (.ofNames location) content method.mode

-- What a file comes to when it is parsed anew.
def parsed (method : Method) (tree : FileTree) (location : FileTree.Location) :
    Except ProjectError Registry :=
  match tree.load location with
  | .error e => .error e
  | .ok content =>
      match parse content method.nesting with
      | .error cause => .error (.unparsable (.ofNames location) cause)
      | .ok root => .ok (survey method.mode root)

-- Why a file cannot be analyzed, if so: it cannot be loaded, or the cache does not know its
-- content and it does not parse.
def failure? (method : Method) (tree : FileTree) (storage : Storage)
    (location : FileTree.Location) : Option ProjectError :=
  match tree.load location with
  | .error e => some e
  | .ok content =>
      if (storage.known (method.keyAt location content)).isSome then none
      else
        match parse content method.nesting with
        | .error cause => some (.unparsable (.ofNames location) cause)
        | .ok _ => none

theorem ofFile_of_load_error {e : ProjectError} (h : tree.load location = .error e) :
    method.ofFile tree location storage = (.error e, storage) := by
  rw [ofFile, h]

-- What the analysis of a file answers and what it leaves in the cache.
theorem ofFile_cases (method : Method) (storage : Storage)
    (h : tree.load location = .ok content) :
    (∃ fragment, storage.known (method.keyAt location content) = some fragment ∧
      method.ofFile tree location storage =
        (.ok fragment, (storage.lookup (method.keyAt location content)).2)) ∨
    (∃ cause, storage.known (method.keyAt location content) = none ∧
      parse content method.nesting = .error cause ∧
      method.ofFile tree location storage = (.error (.unparsable (.ofNames location) cause),
        (storage.lookup (method.keyAt location content)).2)) ∨
    ∃ root, storage.known (method.keyAt location content) = none ∧
      parse content method.nesting = .ok root ∧
      method.ofFile tree location storage = (.ok (survey method.mode root),
        (storage.lookup (method.keyAt location content)).2.store (method.keyAt location content)
          (survey method.mode root)) := by
  rw [← storage.lookup_fst, ofFile, h]
  simp only [fragment, keyAt]
  rcases storage.lookup (CacheKey.ofContent (.ofNames location) content method.mode) with
    ⟨_ | fragment, after⟩
  · cases parse content method.nesting with
    | error cause => exact .inr (.inl ⟨cause, rfl, rfl, rfl⟩)
    | ok root => exact .inr (.inr ⟨root, rfl, rfl, rfl⟩)
  · exact .inl ⟨fragment, rfl, rfl⟩

-- A file fails for the reason that is given, and for no other one.
theorem ofFile_eq_error {e : ProjectError} :
    (method.ofFile tree location storage).1 = .error e ↔
      method.failure? tree storage location = some e := by
  cases hload : tree.load location with
  | error cause =>
      rw [ofFile_of_load_error hload, failure?, hload]
      simp
  | ok content =>
      rw [failure?, hload]
      rcases ofFile_cases method storage hload with
        ⟨fragment, hknown, hfile⟩ | ⟨cause, hknown, hparse, hfile⟩ | ⟨root, hknown, hparse, hfile⟩
      · simp [hfile, hknown]
      · simp [hfile, hknown, hparse]
      · simp [hfile, hknown, hparse]

-- A file is found with a genuine fragment of its content, and leaves only such fragments, if
-- its content is known wherever it has to be parsed.
theorem genuine_ofFile (h : storage.Genuine texts)
    (hknown : ∀ content root, tree.load location = .ok content →
      parse content method.nesting = .ok root → content ∈ texts) :
    (method.ofFile tree location storage).2.Genuine texts ∧
      ∀ fragment, (method.ofFile tree location storage).1 = .ok fragment →
        ∃ content, tree.load location = .ok content ∧
          Genuine texts method.mode (.ofContent content) fragment := by
  cases hload : tree.load location with
  | error cause =>
      rw [ofFile_of_load_error hload]
      exact ⟨h, nofun⟩
  | ok content =>
      have hlookup := h.lookup (method.keyAt location content)
      rcases ofFile_cases method storage hload with
        ⟨fragment, hfound, hfile⟩ | ⟨cause, -, -, hfile⟩ | ⟨root, -, hparse, hfile⟩
      · have hgenuine : Genuine texts method.mode (.ofContent content) fragment :=
          h.cache.of_known h.disk hfound
        rw [hfile]
        refine ⟨hlookup, fun other hother => ⟨content, rfl, ?_⟩⟩
        rw [← Except.ok.inj hother]
        exact hgenuine
      · rw [hfile]
        exact ⟨hlookup, nofun⟩
      · have hgenuine : Genuine texts method.mode (.ofContent content) (survey method.mode root) :=
          ⟨content, hknown content root hload hparse, rfl, method.nesting, root, hparse, rfl⟩
        rw [hfile]
        refine ⟨hlookup.store hgenuine, fun other hother => ⟨content, rfl, ?_⟩⟩
        rw [← Except.ok.inj hother]
        exact hgenuine

-- The key of a file tells its location.
theorem slot_keyAt_ne (h : FileTree.ProperLocation location) (h' : FileTree.ProperLocation other)
    (hne : location ≠ other) (content content' : String) :
    (method.keyAt location content).slot ≠ (method.keyAt other content').slot := by
  intro hslot
  have hcomponents : (Path.ofNames location).components.filter (· ≠ .root) =
      (Path.ofNames other).components.filter (· ≠ .root) :=
    congrArg CacheKey.Slot.components hslot
  rw [Path.components_ofNames h, Path.components_ofNames h'] at hcomponents
  have hnames (names : List FileName) :
      (Path.Component.root :: names.map .name).filter (· ≠ .root) = names.map .name := by
    simp
  rw [hnames, hnames] at hcomponents
  have hinjective (a b : FileName) (h : Path.Component.name a = .name b) : a = b :=
    Path.Component.name.inj h
  exact hne ((List.map_inj_right hinjective).1 hcomponents)

-- The analysis of a file changes nothing for the others.
theorem known_ofFile (hslot : ∀ content, tree.load location = .ok content →
    (method.keyAt location content).slot ≠ key'.slot) :
    (method.ofFile tree location storage).2.known key' = storage.known key' := by
  cases hload : tree.load location with
  | error cause => rw [ofFile_of_load_error hload]
  | ok content =>
      have hne := hslot content hload
      rcases ofFile_cases method storage hload with
        ⟨fragment, -, hfile⟩ | ⟨cause, -, -, hfile⟩ | ⟨root, -, -, hfile⟩
      · rw [hfile, Storage.known_lookup hne]
      · rw [hfile, Storage.known_lookup hne]
      · rw [hfile, Storage.known_store hne, Storage.known_lookup hne]

-- What is known of a file's content counts for its parse.
theorem ofFile_fst (h : tree.load location = .ok content) :
    (method.ofFile tree location storage).1 =
      (storage.known (method.keyAt location content)).elim (method.parsed tree location) .ok := by
  rcases ofFile_cases method storage h with
    ⟨fragment, hknown, hfile⟩ | ⟨cause, hknown, hparse, hfile⟩ | ⟨root, hknown, hparse, hfile⟩
  · rw [hfile, hknown]
    rfl
  · rw [hfile, hknown, Option.elim_none, parsed, h]
    simp only [hparse]
  · rw [hfile, hknown, Option.elim_none, parsed, h]
    simp only [hparse]

-- What a file is answered depends on what is known of its own content only.
theorem ofFile_fst_congr {storage' : Storage}
    (h : ∀ content, storage.known (method.keyAt location content) =
      storage'.known (method.keyAt location content)) :
    (method.ofFile tree location storage).1 = (method.ofFile tree location storage').1 := by
  cases hload : tree.load location with
  | error cause => rw [ofFile_of_load_error hload, ofFile_of_load_error hload]
  | ok content => rw [ofFile_fst hload, ofFile_fst hload, h content]

-- The files are answered as if each were the only one.
theorem ofFiles_fst {locations : List FileTree.Location} (hnodup : locations.Nodup)
    (hproper : ∀ location ∈ locations, FileTree.ProperLocation location) :
    (method.ofFiles tree locations storage).1 =
      locations.map fun location => (method.ofFile tree location storage).1 := by
  induction locations generalizing storage with
  | nil => rfl
  | cons location rest ih =>
      obtain ⟨hlocation, hrest⟩ := List.nodup_cons.1 hnodup
      have hfiles : (method.ofFiles tree rest (method.ofFile tree location storage).2).1 =
          rest.map fun other =>
            (method.ofFile tree other (method.ofFile tree location storage).2).1 :=
        ih hrest fun other hother => hproper other (List.mem_cons_of_mem _ hother)
      have hsame : ∀ other ∈ rest,
          (method.ofFile tree other (method.ofFile tree location storage).2).1 =
            (method.ofFile tree other storage).1 := by
        intro other hother
        have hne : location ≠ other := by
          rintro rfl
          exact hlocation hother
        refine ofFile_fst_congr fun content => known_ofFile fun content' _ => ?_
        exact slot_keyAt_ne (hproper location List.mem_cons_self)
          (hproper other (List.mem_cons_of_mem _ hother)) hne content' content
      rw [List.map_cons, ← List.map_congr_left hsame, ← hfiles]
      rfl

-- The order in which files are looked at changes nothing but the order of their answers.
theorem ofFiles_perm {locations others : List FileTree.Location} (h : locations.Perm others)
    (hnodup : locations.Nodup)
    (hproper : ∀ location ∈ locations, FileTree.ProperLocation location) :
    (method.ofFiles tree locations storage).1.Perm (method.ofFiles tree others storage).1 := by
  have hothers : ∀ location ∈ others, FileTree.ProperLocation location := by
    intro location hlocation
    exact hproper location (h.mem_iff.2 hlocation)
  rw [ofFiles_fst hnodup hproper, ofFiles_fst (h.nodup_iff.1 hnodup) hothers]
  exact h.map _

-- All fragments that are found or left by an analysis of known files are genuine.
theorem genuine_ofFiles {locations : List FileTree.Location} (h : storage.Genuine texts)
    (hknown : ∀ location content root, tree.load location = .ok content →
      parse content method.nesting = .ok root → content ∈ texts) :
    (method.ofFiles tree locations storage).2.Genuine texts := by
  induction locations generalizing storage with
  | nil => exact h
  | cons location rest ih => exact ih (genuine_ofFile h (hknown location)).1

end Method

end Census

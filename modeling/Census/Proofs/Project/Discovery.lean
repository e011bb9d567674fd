import Census.Project.Discovery
import Census.Proofs.Files.Walk
import Mathlib.Data.List.Basic
import Mathlib.Data.List.Induction

namespace Census

section Lists

variable {α β : Type} {xs : List α} {a b : α}

theorem mapM_eq_ok {ε : Type} {f : α → Except ε β} {g : α → β} (h : ∀ x ∈ xs, f x = .ok (g x)) :
    xs.mapM f = .ok (xs.map g) := by
  induction xs with
  | nil => rfl
  | cons x xs ih =>
      rw [List.mapM_cons, h x List.mem_cons_self, ih fun x hx => h x (List.mem_cons_of_mem _ hx)]
      rfl

variable [BEq α] [LawfulBEq α]

-- Without its repetitions, a list keeps the order in which its items come first.
theorem pairwise_eraseDups (xs : List α) :
    xs.eraseDups.Pairwise fun a b => xs.idxOf a < xs.idxOf b := by
  induction xs using List.reverseRecOn with
  | nil => exact .nil
  | append_singleton xs x ih =>
      have hkept : xs.eraseDups.Pairwise fun a b => (xs ++ [x]).idxOf a < (xs ++ [x]).idxOf b := by
        refine ih.imp_of_mem fun {a b} ha hb hab => ?_
        rwa [List.idxOf_append_of_mem (List.mem_eraseDups.1 ha),
          List.idxOf_append_of_mem (List.mem_eraseDups.1 hb)]
      rw [eraseDups_concat]
      split
      · exact hkept
      · rename_i hnew
        refine List.pairwise_append.2 ⟨hkept, List.pairwise_singleton _ _, fun a ha b hb => ?_⟩
        rw [List.mem_singleton.1 hb, List.idxOf_append_of_mem (List.mem_eraseDups.1 ha),
          List.idxOf_append_of_notMem (mt List.mem_eraseDups.2 hnew)]
        exact Nat.lt_add_right _ (List.idxOf_lt_length_of_mem (List.mem_eraseDups.1 ha))

-- Of two items in a sequence of blocks, the first one comes first in an earlier block, or both come
-- first in one block and stand there in its order.
theorem idxOf_flatten_lt {R : α → α → Prop} {blocks : List (List α)}
    (hblocks : ∀ block ∈ blocks, block.Pairwise R) (hb : b ∈ blocks.flatten)
    (hlt : blocks.flatten.idxOf a < blocks.flatten.idxOf b) :
    blocks.findIdx (a ∈ ·) < blocks.findIdx (b ∈ ·) ∨
      blocks.findIdx (a ∈ ·) = blocks.findIdx (b ∈ ·) ∧ R a b := by
  induction blocks with
  | nil => cases hb
  | cons block blocks ih =>
      obtain ⟨hblock, hrest⟩ := List.forall_mem_cons.1 hblocks
      simp only [List.findIdx_cons, Bool.cond_decide]
      rw [List.flatten_cons, List.idxOf_append, List.idxOf_append] at hlt
      by_cases ha : a ∈ block
      · rw [if_pos ha] at hlt ⊢
        by_cases hb' : b ∈ block
        · rw [if_pos hb'] at hlt ⊢
          refine .inr ⟨rfl, ?_⟩
          have hblock := List.pairwise_iff_getElem.1 hblock _ _ (List.idxOf_lt_length_of_mem ha)
            (List.idxOf_lt_length_of_mem hb') hlt
          rwa [List.getElem_idxOf, List.getElem_idxOf] at hblock
        · rw [if_neg hb']
          exact .inl (Nat.succ_pos _)
      · rw [if_neg ha] at hlt ⊢
        by_cases hb' : b ∈ block
        · rw [if_pos hb'] at hlt
          have := List.idxOf_lt_length_of_mem hb'
          omega
        · rw [if_neg hb'] at hlt ⊢
          rw [List.flatten_cons, List.mem_append] at hb
          rcases ih hrest (hb.resolve_left hb') (by omega) with hless | ⟨heq, hab⟩
          · exact .inl (Nat.succ_lt_succ hless)
          · exact .inr ⟨congrArg (· + 1) heq, hab⟩

end Lists

open FileTree

namespace Project

variable {project : Project} {tree tree' : FileTree} {found found' : List Location}
  {a b location : Location}

-- The number of the first input that has a location. The directories count first, and then the
-- single files, each of both in the order of their registration.
def rank (project : Project) (location : Location) : Nat :=
  (project.directories.map (·.isPrefixOf location) ++ project.files.map (· == location)).findIdx id

-- The order in which files are met first, where every directory is walked through.
def Before (project : Project) (a b : Location) : Prop :=
  project.rank a < project.rank b ∨ project.rank a = project.rank b ∧ Precedes a b

theorem Before.asymm (h : project.Before a b) : ¬project.Before b a := by
  rcases h with h | ⟨heq, h⟩ <;> rintro (h' | ⟨heq', h'⟩)
  · omega
  · omega
  · omega
  · exact h.asymm h'

-- What discovery finds in a tree: every file of an input that all filters accept, once, and in the
-- order of the inputs.
structure Discovers (project : Project) (tree : FileTree) (found : List Location) : Prop where
  complete : ∀ location, location ∈ found ↔ tree.HasFile location ∧
    ((∃ directory ∈ project.directories, directory <+: location) ∨ location ∈ project.files) ∧
    ∀ filter ∈ project.filters.all, filter.accepts (.ofNames location) = true
  once : found.Nodup
  ordered : found.Pairwise project.Before

-- This determines the list.
theorem Discovers.unique (h : project.Discovers tree found) (h' : project.Discovers tree found') :
    found = found' := by
  have hperm : found.Perm found' := (List.perm_ext_iff_of_nodup h.once h'.once).2 fun location =>
    (h.complete location).trans (h'.complete location).symm
  exact hperm.eq_of_pairwise (fun _ _ _ _ hab hba => absurd hba hab.asymm) h.ordered h'.ordered

-- Every input is there and is what it was registered as.
structure Present (project : Project) (tree : FileTree) : Prop where
  directories : ∀ directory ∈ project.directories, tree.isDirectoryAt directory = true
  files : ∀ file ∈ project.files, tree.HasFile file

-- What is registered has been found to be there.
theorem Present.addInput (h : project.Present tree) {kind : InputKind} {path : Path}
    (hinput : tree.input kind path = .ok location) : (project.addInput kind location).Present tree := by
  rw [input] at hinput
  split at hinput
  · cases hinput
  split at hinput
  · rename_i entries hget
    cases hinput
    refine ⟨fun directory hdirectory => ?_, h.files⟩
    rcases List.mem_append.1 hdirectory with hold | hnew
    · exact h.directories directory hold
    · rw [List.mem_singleton.1 hnew, isDirectoryAt, hget]
      rfl
  · rename_i content hget
    cases hinput
    refine ⟨h.directories, fun file hfile => ?_⟩
    rcases List.mem_append.1 hfile with hold | hnew
    · exact h.files file hold
    · rw [List.mem_singleton.1 hnew]
      exact ⟨content, hget⟩
  · cases hinput

section Discover

-- The files at or below a location.
def filesAt (tree : FileTree) (front : Location) : List Location :=
  ((tree.get? front).map fun below => below.files.map (front ++ ·)).getD []

theorem walk_eq_filesAt {front : Location} (h : tree.isDirectoryAt front = true) :
    tree.walk front = .ok (filesAt tree front) := by
  rw [isDirectoryAt] at h
  rw [walk, filesAt]
  cases hbelow : tree.get? front with
  | none =>
      rw [hbelow] at h
      cases h
  | some below => rfl

theorem mem_filesAt (h : tree.Distinct) {front : Location} :
    location ∈ filesAt tree front ↔ front <+: location ∧ tree.HasFile location := by
  rw [filesAt]
  cases hbelow : tree.get? front with
  | none =>
      refine iff_of_false List.not_mem_nil ?_
      rintro ⟨⟨rest, rfl⟩, content, hfile⟩
      rw [get?_append, hbelow] at hfile
      cases hfile
  | some below =>
      rw [Option.map_some, Option.getD_some, List.mem_map]
      constructor
      · rintro ⟨rest, hrest, rfl⟩
        obtain ⟨content, hfile⟩ := (h.of_get? hbelow).mem_files.1 hrest
        exact ⟨List.prefix_append _ _, content, by rw [get?_append, hbelow, Option.bind_some, hfile]⟩
      · rintro ⟨⟨rest, rfl⟩, content, hfile⟩
        rw [get?_append, hbelow, Option.bind_some] at hfile
        exact ⟨rest, (h.of_get? hbelow).mem_files.2 ⟨content, hfile⟩, rfl⟩

theorem pairwise_filesAt (h : tree.Distinct) (front : Location) :
    (filesAt tree front).Pairwise Precedes := by
  rw [filesAt]
  cases hbelow : tree.get? front with
  | none => exact .nil
  | some below => exact (h.of_get? hbelow).pairwise_files.map _ fun _ _ hab => hab.append front

-- The files of all inputs, in blocks of one input each.
def blocks (project : Project) (tree : FileTree) : List (List Location) :=
  project.directories.map (filesAt tree) ++ project.files.map ([·])

theorem flatten_blocks (project : Project) (tree : FileTree) :
    (project.blocks tree).flatten = (project.directories.map (filesAt tree)).flatten ++ project.files := by
  rw [blocks, List.flatten_append, ← List.flatMap_def (l := project.files),
    List.flatMap_singleton']

theorem discover_eq (h : project.Present tree) : project.discover tree = .ok
    ((project.blocks tree).flatten.eraseDups.filter fun location =>
      project.filters.accepts (.ofNames location)) := by
  rw [discover, mapM_eq_ok fun directory hdirectory => walk_eq_filesAt (h.directories directory hdirectory),
    flatten_blocks]
  rfl

theorem mem_blocks (hd : tree.Distinct) (h : project.Present tree) :
    location ∈ (project.blocks tree).flatten ↔ tree.HasFile location ∧
      ((∃ directory ∈ project.directories, directory <+: location) ∨ location ∈ project.files) := by
  rw [flatten_blocks, List.mem_append, ← List.flatMap_def, List.mem_flatMap]
  simp only [mem_filesAt hd]
  constructor
  · rintro (⟨directory, hdirectory, hfront, hfile⟩ | hfile)
    · exact ⟨hfile, .inl ⟨directory, hdirectory, hfront⟩⟩
    · exact ⟨h.files location hfile, .inr hfile⟩
  · rintro ⟨hfile, ⟨directory, hdirectory, hfront⟩ | hmem⟩
    · exact .inl ⟨directory, hdirectory, hfront, hfile⟩
    · exact .inr hmem

-- A file is in the block of every input that has it.
theorem findIdx_blocks (hd : tree.Distinct) (hfile : tree.HasFile location) :
    (project.blocks tree).findIdx (location ∈ ·) = project.rank location := by
  have hflags : ((project.blocks tree).map fun block => decide (location ∈ block)) =
      project.directories.map (·.isPrefixOf location) ++ project.files.map (· == location) := by
    rw [blocks, List.map_append, List.map_map, List.map_map]
    congr 1
    · refine List.map_congr_left fun directory _ => Bool.eq_iff_iff.2 ?_
      simp [mem_filesAt hd, hfile]
    · refine List.map_congr_left fun file _ => Bool.eq_iff_iff.2 ?_
      simp only [Function.comp, List.mem_singleton, decide_eq_true_eq, beq_iff_eq]
      exact eq_comm
  rw [rank, ← hflags, List.findIdx_map]
  rfl

theorem discover_discovers (hd : tree.Distinct) (h : project.Present tree) :
    ∃ found, project.discover tree = .ok found ∧ project.Discovers tree found := by
  refine ⟨_, discover_eq h, fun location => ?_, (nodup_eraseDups _).filter _, ?_⟩
  · rw [List.mem_filter, List.mem_eraseDups, mem_blocks hd h, Filters.accepts, List.all_eq_true, and_assoc]
  · refine List.Pairwise.filter _ ((pairwise_eraseDups _).imp_of_mem fun {a b} ha hb hab => ?_)
    rw [List.mem_eraseDups] at ha hb
    have hblocks : ∀ block ∈ project.blocks tree, block.Pairwise Precedes := by
      intro block hblock
      rcases List.mem_append.1 hblock with hblock | hblock
      · obtain ⟨directory, -, rfl⟩ := List.mem_map.1 hblock
        exact pairwise_filesAt hd directory
      · obtain ⟨file, -, rfl⟩ := List.mem_map.1 hblock
        exact List.pairwise_singleton _ _
    have hbefore := idxOf_flatten_lt hblocks hb hab
    rwa [findIdx_blocks hd ((mem_blocks hd h).1 ha).1, findIdx_blocks hd ((mem_blocks hd h).1 hb).1]
      at hbefore

end Discover

theorem Present.relisted (h : project.Present tree) (hd : tree.Distinct) (hlist : tree.Relisted tree') :
    project.Present tree' :=
  ⟨fun directory hdirectory => (hlist.isDirectoryAt_eq hd).trans (h.directories directory hdirectory),
    fun file hfile => (hlist.hasFile_iff hd).2 (h.files file hfile)⟩

-- Discovery finds the same where directories are listed in another order and filters stand in
-- another order.
theorem Discovers.relisted {filters : List Filter} (hd : tree.Distinct) (hlist : tree.Relisted tree')
    (hperm : filters.Perm project.filters.all)
    (h : { project with filters := ⟨filters⟩ : Project }.Discovers tree' found) :
    project.Discovers tree found where
  complete location := by
    rw [h.complete, hlist.hasFile_iff hd]
    simp only [hperm.mem_iff]
  once := h.once
  ordered := h.ordered

-- Discovery finds every file that is an input or below one and that all filters accept, once, in
-- the order in which the inputs lead to it first. How directories are listed does not matter, nor
-- does the order of the filters.
theorem discover_in_order (hd : tree.Distinct) (h : project.Present tree) :
    ∃ found, project.discover tree = .ok found ∧ project.Discovers tree found ∧
      ∀ tree' filters, tree.Relisted tree' → filters.Perm project.filters.all →
        { project with filters := ⟨filters⟩ : Project }.discover tree' = .ok found := by
  obtain ⟨found, hfound, hdiscovers⟩ := discover_discovers hd h
  refine ⟨found, hfound, hdiscovers, fun tree' filters hlist hperm => ?_⟩
  have hpresent : { project with filters := ⟨filters⟩ : Project }.Present tree' :=
    { h.relisted hd hlist with }
  obtain ⟨found', hfound', hdiscovers'⟩ := discover_discovers (hlist.distinct hd) hpresent
  rw [hfound', (hdiscovers'.relisted hd hlist hperm).unique hdiscovers]

-- Directories that are registered within each other and twice, and files within them. The entries
-- are listed in no special order, one is a pipe, and the name of one is no text.
def nestedTree : FileTree :=
  .directory [([0x7a], .file []), ([0x62], .directory [([0x79], .file []), ([0x78, 0x7e], .file []),
    ([0x70], .special), ([0x61], .directory [([0xff], .file []), ([0xc3, 0xa9], .file [])])]),
    ([0x61], .file [])]

def nestedProject : Project where
  directories := [[[0x62]], [], [[0x62]]]
  files := [[[0x7a]], [[0x62], [0x79]]]
  filters := ⟨[.ofFragments ["~"]]⟩
  settings := .standard ""

theorem distinct_nestedTree : nestedTree.Distinct := by
  have hfile : (FileTree.file []).Distinct := .file []
  refine .directory (by decide) ?_
  simp only [List.forall_mem_cons]
  refine ⟨hfile, .directory (by decide) ?_, hfile, nofun⟩
  simp only [List.forall_mem_cons]
  refine ⟨hfile, hfile, .special, .directory (by decide) ?_, nofun⟩
  simp only [List.forall_mem_cons]
  exact ⟨hfile, hfile, nofun⟩

theorem walk_nestedTree : nestedProject.directories.mapM nestedTree.walk = .ok [
    [[[0x62], [0x61], [0xc3, 0xa9]], [[0x62], [0x61], [0xff]], [[0x62], [0x78, 0x7e]], [[0x62], [0x79]]],
    [[[0x61]], [[0x62], [0x61], [0xc3, 0xa9]], [[0x62], [0x61], [0xff]], [[0x62], [0x78, 0x7e]],
      [[0x62], [0x79]], [[0x7a]]],
    [[[0x62], [0x61], [0xc3, 0xa9]], [[0x62], [0x61], [0xff]], [[0x62], [0x78, 0x7e]],
      [[0x62], [0x79]]]] := by
  simp +decide [nestedProject, nestedTree, FileTree.walk, FileTree.get?, FileTree.child?, Assoc.find?,
    FileTree.files, FileTree.Proper.filesOfEntries_eq, List.mergeSort, bind, Except.bind, pure, Except.pure]

theorem discover_in_order_nested : nestedTree.Distinct ∧ nestedProject.Present nestedTree ∧
    (∃ found, nestedProject.discover nestedTree = .ok found ∧ nestedProject.Discovers nestedTree found ∧
      ∀ tree' filters, nestedTree.Relisted tree' → filters.Perm nestedProject.filters.all →
        { nestedProject with filters := ⟨filters⟩ : Project }.discover tree' = .ok found) ∧
    nestedProject.discover nestedTree = .ok [[[0x62], [0x61], [0xc3, 0xa9]], [[0x62], [0x61], [0xff]],
      [[0x62], [0x79]], [[0x61]], [[0x7a]]] := by
  have hpresent : nestedProject.Present nestedTree := ⟨by decide, by decide⟩
  refine ⟨distinct_nestedTree, hpresent, discover_in_order distinct_nestedTree hpresent, ?_⟩
  rw [discover, walk_nestedTree]
  decide +kernel

end Project

end Census

import Census.Files.Tree
import Census.Proofs.Assoc
import Census.Proofs.Text.Utf8

namespace Census

-- What an entry of a directory can be called.
structure ProperName (name : FileName) : Prop where
  slash : Path.slash ∉ name
  empty : name ≠ []
  dot : name ≠ [Path.dot]
  dots : name ≠ [Path.dot, Path.dot]

namespace Path

variable {path : Path} {name segment : FileName}

theorem componentOf?_properName (h : ProperName name) : componentOf? name = some (.name name) := by
  simp [componentOf?, h.empty, h.dot, h.dots]

theorem slash_not_mem_segment (h : segment ∈ path.segments) : slash ∉ segment :=
  Text.not_mem_of_mem_splitAt h

theorem properName_of_segment (hslash : slash ∉ segment)
    (hplain : ¬ (segment = [] || segment = [dot]) = true) (hdots : segment ≠ [dot, dot]) :
    ProperName segment := by
  rw [Bool.or_eq_true, decide_eq_true_eq, decide_eq_true_eq, not_or] at hplain
  exact ⟨hslash, hplain.1, hplain.2, hdots⟩

-- A segment is the name that it stands for, unless it is a text of dots or nothing.
theorem componentOf?_cases (segment : FileName) :
    componentOf? segment = some (.name segment) ∧ ¬(segment = [] || segment = [dot]) = true ∧
        segment ≠ [dot, dot] ∨
      (∀ name, componentOf? segment ≠ some (.name name)) ∧
        (segment = [] ∨ segment = [dot] ∨ segment = [dot, dot]) := by
  rw [componentOf?]
  by_cases hplain : (segment = [] || segment = [dot]) = true
  · rw [if_pos hplain]
    rw [Bool.or_eq_true, decide_eq_true_eq, decide_eq_true_eq] at hplain
    exact .inr ⟨nofun, hplain.imp_right .inl⟩
  · rw [if_neg hplain]
    by_cases hdots : segment = [dot, dot]
    · rw [if_pos hdots]
      exact .inr ⟨nofun, .inr (.inr hdots)⟩
    · rw [if_neg hdots]
      exact .inl ⟨rfl, hplain, hdots⟩

theorem properName_of_componentOf? (h : segment ∈ path.segments)
    (hname : componentOf? segment = some (.name name)) : ProperName name := by
  rcases componentOf?_cases segment with ⟨hself, hplain, hdots⟩ | ⟨hnone, -⟩
  · rw [hself] at hname
    cases hname
    exact properName_of_segment (slash_not_mem_segment h) hplain hdots
  · exact absurd hname (hnone name)

theorem name_mem_components : .name name ∈ path.components ↔
    ∃ segment ∈ path.segments, componentOf? segment = some (.name name) := by
  rw [components, List.mem_append, List.mem_filterMap, or_iff_right]
  split
  · simp
  · split <;> simp

theorem properName_of_mem_components (h : .name name ∈ path.components) : ProperName name := by
  obtain ⟨segment, hsegment, hname⟩ := name_mem_components.1 h
  exact properName_of_componentOf? hsegment hname

theorem components_of_isAbsolute (h : path.isAbsolute) :
    path.components = .root :: path.segments.filterMap componentOf? := by
  rw [components, if_pos h, List.singleton_append]

theorem segments_eq_of_bytes {xs ys : List UInt8} (h : path.bytes = xs ++ slash :: ys)
    (hys : slash ∉ ys) : path.segments = Text.splitAt slash xs ++ [ys] := by
  rw [segments, h, Text.splitAt_append_cons, Text.splitAt_of_not_mem hys]

theorem text?_eq_some {s : String} : path.text? = some s ↔ path = ofText s := by
  rw [text?, Text.Utf8.decode?_eq_some, ofText, Path.mk.injEq]

@[simp] theorem text?_ofText (s : String) : (ofText s).text? = some s := Text.Utf8.decode?_encode s

-- Whether a path is a text depends on its names only, as only slashes and dots stand between them.
theorem isSome_text? : path.text?.isSome ↔ ∀ name, .name name ∈ path.components → Text.Utf8.IsText name := by
  have hsegments : path.text?.isSome ↔ ∀ segment ∈ path.segments, Text.Utf8.IsText segment := by
    rw [text?, Text.Utf8.isSome_decode?]
    exact Text.Utf8.isText_iff_splitAt (c := '/') (by decide)
  rw [hsegments]
  constructor
  · intro h name hname
    obtain ⟨segment, hsegment, hcomponent⟩ := name_mem_components.1 hname
    rcases componentOf?_cases segment with ⟨hself, -⟩ | ⟨hnone, -⟩
    · rw [hself] at hcomponent
      cases hcomponent
      exact h _ hsegment
    · exact absurd hcomponent (hnone name)
  · intro h segment hsegment
    rcases componentOf?_cases segment with ⟨hself, -⟩ | ⟨-, rfl | rfl | rfl⟩
    · exact h segment (name_mem_components.2 ⟨segment, hsegment, hself⟩)
    · exact ⟨[], rfl⟩
    · exact ⟨['.'], by decide⟩
    · exact ⟨['.', '.'], by decide⟩

theorem Same.isSome_text? {other : Path} (h : path.Same other) :
    path.text?.isSome ↔ other.text?.isSome := by
  rw [Path.isSome_text?, Path.isSome_text?, show path.components = other.components from h]

-- A name goes to the end of the components of an absolute path.
theorem components_join (h : path.isAbsolute) (hname : ProperName name) :
    (path.join name).components = path.components ++ [.name name] ∧
      (path.join name).isAbsolute := by
  obtain ⟨rest, hrest⟩ : ∃ rest, path.bytes = slash :: rest := by
    have hhead : path.bytes.head? = some slash := by simpa [isAbsolute] using h
    exact List.head?_eq_some_iff.1 hhead
  have hempty : path.bytes.isEmpty = false := by rw [hrest, List.isEmpty_cons]
  by_cases hlast : path.bytes.getLast? = some slash
  · obtain ⟨xs, hxs⟩ := List.getLast?_eq_some_iff.1 hlast
    have hjoin : path.join name = ⟨path.bytes ++ name⟩ := by simp [join, hlast]
    have hnew : (path.join name).bytes = xs ++ slash :: name := by
      rw [hjoin, hxs, List.append_assoc, List.singleton_append]
    have habsolute : (path.join name).isAbsolute := by
      simp [isAbsolute, hjoin, hrest]
    have hsegments := segments_eq_of_bytes hnew hname.slash
    have hold := segments_eq_of_bytes hxs List.not_mem_nil
    refine ⟨?_, habsolute⟩
    rw [components_of_isAbsolute habsolute, components_of_isAbsolute h, hsegments, hold]
    have hnone : componentOf? [] = none := rfl
    simp [componentOf?_properName hname, hnone]
  · have hjoin : path.join name = ⟨path.bytes ++ slash :: name⟩ := by simp [join, hempty, hlast]
    have habsolute : (path.join name).isAbsolute := by
      simp [isAbsolute, hjoin, hrest]
    have hsegments := segments_eq_of_bytes (congrArg bytes hjoin) hname.slash
    refine ⟨?_, habsolute⟩
    rw [components_of_isAbsolute habsolute, components_of_isAbsolute h, hsegments]
    simp [componentOf?_properName hname, segments]

theorem components_foldl_join {names : List FileName} (h : path.isAbsolute)
    (hnames : ∀ name ∈ names, ProperName name) :
    (names.foldl join path).components = path.components ++ names.map .name := by
  induction names generalizing path with
  | nil => simp
  | cons name names ih =>
      obtain ⟨hjoin, habsolute⟩ := components_join h (hnames name List.mem_cons_self)
      have hrest := ih habsolute fun name hn => hnames name (List.mem_cons_of_mem _ hn)
      rw [List.foldl_cons, hrest, hjoin, List.append_assoc, List.map_cons, List.singleton_append]

theorem components_ofNames {names : List FileName} (hnames : ∀ name ∈ names, ProperName name) :
    (ofNames names).components = .root :: names.map .name :=
  components_foldl_join (by decide) hnames

end Path

namespace FileTree

variable {tree new : FileTree} {location : Location}

theorem get?_append (tree : FileTree) (a b : Location) :
    tree.get? (a ++ b) = (tree.get? a).bind fun below => below.get? b := by
  rw [get?, List.foldlM_append]
  rfl

theorem get?_cons (tree : FileTree) (name : FileName) (location : Location) :
    tree.get? (name :: location) = (tree.child? name).bind fun below => below.get? location := rfl

-- All entries have proper names.
inductive Proper : FileTree → Prop where
  | file (content : List UInt8) : Proper (.file content)
  | special : Proper .special
  | directory {entries : List (FileName × FileTree)}
      (names : ∀ entry ∈ entries, ProperName entry.1)
      (below : ∀ entry ∈ entries, Proper entry.2) : Proper (.directory entries)

def ProperLocation (location : Location) : Prop := ∀ name ∈ location, ProperName name

theorem properLocation_nil : ProperLocation [] := nofun

theorem ProperLocation.append {other : Location} (h : ProperLocation location)
    (h' : ProperLocation other) : ProperLocation (location ++ other) := by
  intro name hname
  rcases List.mem_append.1 hname with hname | hname
  · exact h name hname
  · exact h' name hname

theorem ProperLocation.push (h : ProperLocation location) {name : FileName} (hname : ProperName name) :
    ProperLocation (location ++ [name]) := by
  apply h.append
  intro other hother
  rw [List.mem_singleton.1 hother]
  exact hname

theorem ProperLocation.dropLast (h : ProperLocation location) : ProperLocation location.dropLast :=
  fun name hname => h name (List.dropLast_subset _ hname)

namespace Proper

theorem empty : FileTree.empty.Proper := .directory nofun nofun

theorem of_child? {name : FileName} {below : FileTree} (h : tree.Proper)
    (hbelow : tree.child? name = some below) : below.Proper := by
  cases h with
  | file | special => cases hbelow
  | directory hnames hall => exact hall _ (Assoc.mem_of_find? hbelow)

theorem of_get? {below : FileTree} (h : tree.Proper) (hbelow : tree.get? location = some below) :
    below.Proper := by
  induction location generalizing tree with
  | nil =>
      obtain rfl := Option.some.inj hbelow
      exact h
  | cons name rest ih =>
      obtain ⟨next, hnext, hbelow⟩ := Option.bind_eq_some_iff.1 hbelow
      exact ih (h.of_child? hnext) hbelow

theorem filesOfEntries_eq (entries : List (FileName × FileTree)) :
    filesOfEntries entries = entries.map fun entry => (entry.1, entry.2.files) := by
  induction entries with
  | nil => rfl
  | cons entry rest ih => rw [filesOfEntries, ih, List.map_cons]

theorem mem_files (h : tree.Proper) : ∀ location ∈ tree.files, ProperLocation location := by
  induction h with
  | file content =>
      intro location hlocation
      rw [files] at hlocation
      rw [List.mem_singleton.1 hlocation]
      exact properLocation_nil
  | special => nofun
  | @directory entries hnames _ ih =>
      intro location hlocation
      rw [files, filesOfEntries_eq] at hlocation
      obtain ⟨listed, hlisted, hlocation⟩ := List.mem_flatMap.1 hlocation
      obtain ⟨entry, hentry, rfl⟩ := List.mem_map.1 (List.mem_mergeSort.1 hlisted)
      obtain ⟨below, hbelow, rfl⟩ := List.mem_map.1 hlocation
      have hrest := ih entry hentry below hbelow
      exact List.forall_mem_cons.2 ⟨hnames entry hentry, hrest⟩

theorem put (h : tree.Proper) (hnew : new.Proper) (hlocation : ProperLocation location) :
    (FileTree.put new location tree).Proper := by
  induction location generalizing tree with
  | nil => exact hnew
  | cons name rest ih =>
      obtain ⟨hname, hrest⟩ := List.forall_mem_cons.1 hlocation
      cases h with
      | file content => exact .file content
      | special => exact .special
      | @directory entries hnames hall =>
          rw [FileTree.put]
          refine .directory (fun entry hentry => ?_) fun entry hentry => ?_
          · rcases Assoc.mem_alter hentry with hold | rfl | ⟨_, -, rfl⟩
            · exact hnames entry hold
            · exact hname
            · exact hname
          · rcases Assoc.mem_alter hentry with hold | rfl | ⟨old, hold, rfl⟩
            · exact hall entry hold
            · exact ih empty hrest
            · exact ih (hall _ hold) hrest

theorem removeAt (h : tree.Proper) (location : Location) :
    (FileTree.removeAt location tree).Proper := by
  induction location generalizing tree with
  | nil => exact h
  | cons name rest ih =>
      cases h with
      | file content =>
          cases rest <;> exact .file content
      | special =>
          cases rest <;> exact .special
      | @directory entries hnames hall =>
          cases rest with
          | nil =>
              rw [FileTree.removeAt]
              exact .directory (fun entry hentry => hnames entry (List.mem_filter.1 hentry).1)
                fun entry hentry => hall entry (List.mem_filter.1 hentry).1
          | cons next rest =>
              rw [FileTree.removeAt]
              cases hfound : Assoc.find? name entries with
              | none => exact .directory hnames hall
              | some below =>
                  have hmem := Assoc.mem_of_find? hfound
                  have hname : ProperName name := hnames _ hmem
                  have hbelow := ih (hall _ hmem)
                  refine .directory (fun entry hentry => ?_) fun entry hentry => ?_
                  · rcases Assoc.mem_alter hentry with hold | rfl | ⟨_, -, rfl⟩
                    · exact hnames entry hold
                    · exact hname
                    · exact hname
                  · rcases Assoc.mem_alter hentry with hold | rfl | ⟨_, -, rfl⟩
                    · exact hall entry hold
                    · exact hbelow
                    · exact hbelow

-- A way that is being made: the tree so far and where the walk has come to.
def Way (way : FileTree × Option Location) : Prop :=
  way.1.Proper ∧ ∀ location ∈ way.2, ProperLocation location

theorem way_step (h : tree.Proper) (hlocation : ProperLocation location)
    {component : Path.Component} (hname : ∀ name, component = .name name → ProperName name) :
    Way (makeWay.step tree location component) := by
  have hhere (other : Location) (hother : ProperLocation other) (next : Location)
      (hnext : next ∈ some other) : ProperLocation next := by
    rw [← Option.some.inj hnext]
    exact hother
  cases component with
  | name s =>
      have hnext := hlocation.push (hname s rfl)
      rw [makeWay.step]
      split
      · exact ⟨h.put .empty hnext, hhere _ hnext⟩
      · exact ⟨h, hhere _ hnext⟩
      · exact ⟨h, nofun⟩
  | up => exact ⟨h, hhere _ hlocation.dropLast⟩
  | root => exact ⟨h, hhere _ hlocation⟩
  | here => exact ⟨h, hhere _ hlocation⟩

theorem way_makeWay (h : tree.Proper) {components : List Path.Component}
    (hnames : ∀ name, .name name ∈ components → ProperName name) :
    Way (tree.makeWay components) := by
  refine List.foldlRecOn components _ ⟨h, fun location hlocation => ?_⟩ fun way hway component hmem => ?_
  · rw [← Option.some.inj hlocation]
    exact properLocation_nil
  · obtain ⟨tree, location?⟩ := way
    cases location? with
    | none => exact hway
    | some location =>
        apply way_step hway.1 (hway.2 location rfl)
        intro name hname
        exact hnames name (hname ▸ hmem)

theorem makeDirectory (h : tree.Proper) (path : Path) : (tree.makeDirectory path).Proper :=
  (way_makeWay h fun _ => Path.properName_of_mem_components).1

theorem write (h : tree.Proper) (path : Path) (content : List UInt8) :
    (tree.write path content).Proper := by
  have hway : Way (tree.makeWay path.components.dropLast) := by
    apply way_makeWay h
    intro name hname
    exact Path.properName_of_mem_components (List.dropLast_subset _ hname)
  rw [FileTree.write]
  split
  · rename_i made location name hmade hlast
    rw [hmade] at hway
    obtain ⟨segment, hsegment, hcomponent⟩ := Option.bind_eq_some_iff.1 hlast
    have hname : ProperName name :=
      Path.properName_of_componentOf? (List.mem_of_getLast? hsegment) hcomponent
    have hlocation : ProperLocation location := hway.2 location rfl
    dsimp only
    split
    · exact hway.1.put (.file content) (hlocation.push hname)
    · exact hway.1
  · rename_i hmade _
    rw [hmade] at hway
    exact hway.1

end Proper

section Paths

variable {path : Path}

theorem properLocation_step {segment : FileName} {next : Location} (hsegment : Path.slash ∉ segment)
    (h : ProperLocation location) (hnext : resolve?.step tree location segment = some next) :
    ProperLocation next := by
  rw [resolve?.step] at hnext
  by_cases hdirectory : tree.isDirectoryAt location = true
  · rw [if_pos hdirectory] at hnext
    by_cases hplain : (segment = [] || segment = [Path.dot]) = true
    · rw [if_pos hplain] at hnext
      rw [← Option.some.inj hnext]
      exact h
    · rw [if_neg hplain] at hnext
      by_cases hdots : segment = [Path.dot, Path.dot]
      · rw [if_pos hdots] at hnext
        rw [← Option.some.inj hnext]
        exact h.dropLast
      · rw [if_neg hdots] at hnext
        rw [← Option.some.inj hnext]
        exact h.push (Path.properName_of_segment hsegment hplain hdots)
  · rw [if_neg hdirectory] at hnext
    cases hnext

theorem properLocation_of_steps {segments : List FileName} {start : Location}
    (hsegments : ∀ segment ∈ segments, Path.slash ∉ segment) (h : ProperLocation start)
    (hsteps : segments.foldlM (resolve?.step tree) start = some location) :
    ProperLocation location := by
  induction segments generalizing start with
  | nil =>
      rw [← Option.some.inj hsteps]
      exact h
  | cons segment segments ih =>
      obtain ⟨next, hnext, hsteps⟩ := Option.bind_eq_some_iff.1 hsteps
      have hstep := properLocation_step (hsegments segment List.mem_cons_self) h hnext
      exact ih (fun other hother => hsegments other (List.mem_cons_of_mem _ hother)) hstep hsteps

theorem properLocation_of_resolve? (h : tree.resolve? path = some location) :
    ProperLocation location := by
  obtain ⟨other, hsteps, h⟩ := Option.bind_eq_some_iff.1 h
  obtain ⟨-, -, rfl⟩ := Option.map_eq_some_iff.1 h
  exact properLocation_of_steps (fun _ => Path.slash_not_mem_segment) properLocation_nil hsteps

theorem Proper.remove (h : tree.Proper) (path : Path) : (tree.remove path).Proper := by
  rw [FileTree.remove]
  cases hlocation : tree.resolve? path with
  | none => exact h
  | some location =>
      dsimp only
      by_cases hname : path.endsInName = true
      · rw [if_pos hname]
        exact h.removeAt location
      · rw [if_neg hname]
        exact h.put .empty (properLocation_of_resolve? hlocation)

end Paths

end FileTree

end Census

import Census.Proofs.Files.Names

namespace Census

namespace Assoc

variable {κ υ : Type} [DecidableEq κ] {k : κ} {v : υ} {xs ys : List (κ × υ)}

-- Where no key stands twice, every value is found by its key.
theorem find?_of_mem (h : (xs.map (·.1)).Nodup) (hmem : (k, v) ∈ xs) : find? k xs = some v := by
  induction xs with
  | nil => cases hmem
  | cons x xs ih =>
      obtain ⟨k', v'⟩ := x
      rw [List.map_cons, List.nodup_cons] at h
      rw [find?_cons]
      rcases List.mem_cons.1 hmem with heq | hmem
      · cases heq
        rw [if_pos rfl]
      · rw [if_neg, ih h.2 hmem]
        rintro rfl
        exact h.1 (List.mem_map.2 ⟨_, hmem, rfl⟩)

theorem find?_eq_some (h : (xs.map (·.1)).Nodup) : find? k xs = some v ↔ (k, v) ∈ xs :=
  ⟨mem_of_find?, find?_of_mem h⟩

theorem find?_perm (h : (xs.map (·.1)).Nodup) (hperm : xs.Perm ys) : find? k xs = find? k ys := by
  have hys : (ys.map (·.1)).Nodup := (hperm.map _).nodup h
  refine Option.ext fun v => ?_
  rw [find?_eq_some h, find?_eq_some hys, hperm.mem_iff]

end Assoc

namespace FileTree

variable {tree tree' : FileTree} {a b front location : Location}

-- A regular file stands at a location.
def HasFile (tree : FileTree) (location : Location) : Prop :=
  ∃ content, tree.get? location = some (.file content)

theorem hasFile_iff_kind : tree.HasFile location ↔ (tree.get? location).map kind = some .file := by
  rw [HasFile]
  rcases tree.get? location with - | - | - | - <;> simp [kind]

instance : Decidable (tree.HasFile location) := decidable_of_iff _ hasFile_iff_kind.symm

-- No directory has two entries of one name.
inductive Distinct : FileTree → Prop where
  | file (content : List UInt8) : Distinct (.file content)
  | special : Distinct .special
  | directory {entries : List (FileName × FileTree)} (names : (entries.map (·.1)).Nodup)
      (below : ∀ entry ∈ entries, Distinct entry.2) : Distinct (.directory entries)

-- Where the ways to two locations part, the first one goes on with the name of the lesser bytes.
def Precedes (a b : Location) : Prop :=
  ∃ (front : Location) (x y : FileName) (as bs : Location), a = front ++ x :: as ∧ b = front ++ y :: bs ∧
    x < y

theorem hasFile_cons {entries : List (FileName × FileTree)} {name : FileName} :
    (FileTree.directory entries).HasFile (name :: location) ↔
      ∃ below, Assoc.find? name entries = some below ∧ below.HasFile location := by
  simp only [HasFile, get?_cons, child?, Option.bind_eq_some_iff]
  constructor
  · rintro ⟨content, below, hbelow, hfile⟩
    exact ⟨below, hbelow, content, hfile⟩
  · rintro ⟨below, hbelow, content, hfile⟩
    exact ⟨content, below, hbelow, hfile⟩

theorem Precedes.append (h : Precedes a b) (front : Location) : Precedes (front ++ a) (front ++ b) := by
  obtain ⟨way, x, y, as, bs, rfl, rfl, hxy⟩ := h
  exact ⟨front ++ way, x, y, as, bs, (List.append_assoc ..).symm, (List.append_assoc ..).symm, hxy⟩

theorem precedes_cons_self {name : FileName} : Precedes (name :: a) (name :: b) ↔ Precedes a b := by
  refine ⟨?_, fun h => h.append [name]⟩
  rintro ⟨way, x, y, as, bs, ha, hb, hxy⟩
  cases way with
  | nil =>
      obtain ⟨rfl, rfl⟩ := List.cons.inj ha
      obtain ⟨rfl, rfl⟩ := List.cons.inj hb
      exact absurd hxy (List.lt_irrefl _)
  | cons z way =>
      obtain ⟨rfl, rfl⟩ := List.cons.inj ha
      obtain ⟨-, rfl⟩ := List.cons.inj hb
      exact ⟨way, x, y, as, bs, rfl, rfl, hxy⟩

theorem precedes_cons_of_ne {x y : FileName} (hxy : x ≠ y) : Precedes (x :: a) (y :: b) ↔ x < y := by
  refine ⟨?_, fun h => ⟨[], x, y, a, b, rfl, rfl, h⟩⟩
  rintro ⟨way, z, w, as, bs, ha, hb, hzw⟩
  cases way with
  | nil =>
      obtain ⟨rfl, rfl⟩ := List.cons.inj ha
      obtain ⟨rfl, rfl⟩ := List.cons.inj hb
      exact hzw
  | cons v way =>
      obtain ⟨rfl, -⟩ := List.cons.inj ha
      obtain ⟨rfl, -⟩ := List.cons.inj hb
      exact absurd rfl hxy

-- Of two locations at most one precedes the other.
theorem Precedes.asymm (h : Precedes a b) : ¬Precedes b a := by
  obtain ⟨way, x, y, as, bs, rfl, rfl, hxy⟩ := h
  induction way with
  | nil =>
      have hne : y ≠ x := fun heq => List.lt_irrefl x (heq ▸ hxy)
      rw [List.nil_append, List.nil_append, precedes_cons_of_ne hne]
      exact List.lt_asymm hxy
  | cons name way ih => rwa [List.cons_append, List.cons_append, precedes_cons_self]

section Files

-- A tree lists its files.
theorem Distinct.mem_files (h : tree.Distinct) : location ∈ tree.files ↔ tree.HasFile location := by
  induction h generalizing location with
  | file content =>
      rw [files, List.mem_singleton]
      cases location with
      | nil => exact iff_of_true rfl ⟨content, rfl⟩
      | cons name rest =>
          refine iff_of_false (List.cons_ne_nil _ _) ?_
          rintro ⟨_, ⟨⟩⟩
  | special =>
      rw [files]
      refine iff_of_false List.not_mem_nil ?_
      rintro ⟨_, hget⟩
      cases location <;> cases hget
  | @directory entries hnames _ ih =>
      rw [files, Proper.filesOfEntries_eq]
      simp only [List.mem_flatMap, List.mem_mergeSort, List.mem_map]
      cases location with
      | nil =>
          refine iff_of_false ?_ ?_
          · rintro ⟨_, _, _, _, heq⟩
            cases heq
          · rintro ⟨_, ⟨⟩⟩
      | cons name rest =>
          rw [hasFile_cons]
          constructor
          · rintro ⟨_, ⟨⟨name', below⟩, hentry, rfl⟩, rest', hrest, heq⟩
            obtain ⟨rfl, rfl⟩ := List.cons.inj heq
            exact ⟨below, Assoc.find?_of_mem hnames hentry, (ih _ hentry).1 hrest⟩
          · rintro ⟨below, hfound, hrest⟩
            have hentry := Assoc.mem_of_find? hfound
            exact ⟨_, ⟨_, hentry, rfl⟩, rest, (ih _ hentry).2 hrest, rfl⟩

-- The files of a tree stand in the order of a walk through it.
theorem Distinct.pairwise_files (h : tree.Distinct) : tree.files.Pairwise Precedes := by
  induction h with
  | file content => exact List.pairwise_singleton _ _
  | special => exact .nil
  | @directory entries hnames _ ih =>
      rw [files, Proper.filesOfEntries_eq, List.pairwise_flatMap]
      generalize hlisted : (entries.map fun entry => (entry.1, entry.2.files)) = listed
      constructor
      · intro x hx
        rw [List.mem_mergeSort, ← hlisted] at hx
        obtain ⟨entry, hentry, rfl⟩ := List.mem_map.1 hx
        exact (ih entry hentry).map _ fun _ _ => precedes_cons_self.2
      · -- The names differ, so a sorted list of them is strictly sorted.
        have hdiffer : (listed.mergeSort fun x y => x.1 ≤ y.1).Pairwise fun x y => x.1 ≠ y.1 := by
          have hkeys : (listed.map (·.1)).Nodup := by
            rw [← hlisted, List.map_map]
            exact hnames
          exact List.pairwise_map.1 (((List.mergeSort_perm listed _).map _).symm.nodup hkeys)
        have hsorted : (listed.mergeSort fun x y => x.1 ≤ y.1).Pairwise fun x y => x.1 ≤ y.1 := by
          refine (List.pairwise_mergeSort (fun x y z hxy hyz => ?_) (fun x y => ?_) listed).imp
            of_decide_eq_true
          · exact decide_eq_true (List.le_trans (of_decide_eq_true hxy) (of_decide_eq_true hyz))
          · simpa using List.le_total x.1 y.1
        refine (hsorted.and hdiffer).imp fun {x y} hxy => ?_
        rintro _ hxs _ hys
        obtain ⟨as, -, rfl⟩ := List.mem_map.1 hxs
        obtain ⟨bs, -, rfl⟩ := List.mem_map.1 hys
        exact (precedes_cons_of_ne hxy.2).2 (Std.lt_of_le_of_ne hxy.1 hxy.2)

theorem Distinct.of_get? {below : FileTree} (h : tree.Distinct) (hbelow : tree.get? location = some below) :
    below.Distinct := by
  induction location generalizing tree with
  | nil =>
      obtain rfl := Option.some.inj hbelow
      exact h
  | cons name rest ih =>
      obtain ⟨next, hnext, hrest⟩ := Option.bind_eq_some_iff.1 hbelow
      cases h with
      | file | special => cases hnext
      | directory hnames hall => exact ih (hall _ (Assoc.mem_of_find? hnext)) hrest

end Files

-- The same files in the same directories, whose entries are listed in any other order.
inductive Relisted : FileTree → FileTree → Prop where
  | refl (tree : FileTree) : Relisted tree tree
  | order {entries entries' : List (FileName × FileTree)} (perm : entries.Perm entries') :
      Relisted (.directory entries) (.directory entries')
  | inside (front back : List (FileName × FileTree)) (name : FileName) {tree tree' : FileTree}
      (h : Relisted tree tree') :
      Relisted (.directory (front ++ (name, tree) :: back)) (.directory (front ++ (name, tree') :: back))
  | trans {tree middle tree' : FileTree} (h : Relisted tree middle) (h' : Relisted middle tree') :
      Relisted tree tree'

namespace Relisted

theorem distinct (h : Relisted tree tree') (hd : tree.Distinct) : tree'.Distinct := by
  induction h with
  | refl => exact hd
  | order perm =>
      cases hd with
      | directory hnames hall =>
          exact .directory ((perm.map _).nodup hnames) fun entry hentry => hall entry (perm.mem_iff.2 hentry)
  | inside front back name h ih =>
      cases hd with
      | directory hnames hall =>
          refine .directory (by simpa using hnames) fun entry hentry => ?_
          simp only [List.mem_append, List.mem_cons] at hall hentry
          rcases hentry with hentry | rfl | hentry
          · exact hall entry (.inl hentry)
          · exact ih (hall _ (.inr (.inl rfl)))
          · exact hall entry (.inr (.inr hentry))
  | trans h h' ih ih' => exact ih' (ih hd)

-- Files and directories stay where they are.
theorem kind_get? (h : Relisted tree tree') (hd : tree.Distinct) (location : Location) :
    (tree'.get? location).map kind = (tree.get? location).map kind := by
  induction h generalizing location with
  | refl => rfl
  | order perm =>
      cases location with
      | nil => rfl
      | cons name rest =>
          cases hd with
          | directory hnames hall => rw [get?_cons, get?_cons, child?, child?, Assoc.find?_perm hnames perm]
  | @inside front back name below below' h ih =>
      cases location with
      | nil => rfl
      | cons other rest =>
          cases hd with
          | directory hnames hall =>
              have hbelow := ih (hall (name, below) (by simp)) rest
              rw [get?_cons, get?_cons, child?, child?]
              clear hnames hall
              induction front with
              | nil =>
                  rw [List.nil_append, List.nil_append, Assoc.find?_cons, Assoc.find?_cons]
                  split
                  · exact hbelow
                  · rfl
              | cons entry front ih =>
                  rw [List.cons_append, List.cons_append, Assoc.find?_cons, Assoc.find?_cons]
                  split
                  · rfl
                  · exact ih
  | trans h h' ih ih' => rw [ih' (h.distinct hd), ih hd]

theorem hasFile_iff (h : Relisted tree tree') (hd : tree.Distinct) :
    tree'.HasFile location ↔ tree.HasFile location := by
  rw [hasFile_iff_kind, hasFile_iff_kind, h.kind_get? hd]

theorem isDirectoryAt_eq (h : Relisted tree tree') (hd : tree.Distinct) :
    tree'.isDirectoryAt location = tree.isDirectoryAt location := by
  rw [isDirectoryAt, isDirectoryAt, h.kind_get? hd]

end Relisted

end FileTree

end Census

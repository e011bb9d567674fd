import Census.Proofs.Registry.Grouped
import Mathlib.Data.List.Induction

namespace Census

-- A list without its repetitions can stand for the list.
theorem eraseDups_append_eraseDups {α : Type} [DecidableEq α] (xs ys : List α) :
    (xs ++ ys.eraseDups).eraseDups = (xs ++ ys).eraseDups := by
  induction ys using List.reverseRecOn with
  | nil => rfl
  | append_singleton ys y ih =>
      rw [eraseDups_concat, ← List.append_assoc, eraseDups_concat]
      by_cases hy : y ∈ ys.eraseDups
      · have hmem : y ∈ (xs ++ ys).eraseDups :=
          List.mem_eraseDups.2 (List.mem_append_right _ (List.mem_eraseDups.1 hy))
        rw [if_pos hy, if_pos hmem, ih]
      · rw [if_neg hy, ← List.append_assoc, eraseDups_concat, ih]

namespace Assoc

variable {κ υ : Type} [DecidableEq κ] {k : κ}

theorem find?_map_keys (keys : List κ) (g : κ → υ) :
    find? k (keys.map fun k' => (k', g k')) = if k ∈ keys then some (g k) else none := by
  induction keys with
  | nil => simp
  | cons x rest ih =>
      rw [List.map_cons, find?_cons, ih]
      by_cases hx : x = k
      · simp [hx]
      · simp [hx, Ne.symm hx]

-- If every change of a value adds as many items as a new value has, so does a change of the list.
theorem length_flatMap_alter {α : Type} {f : Option υ → υ} {g : υ → List α} {n : Nat}
    (hold : ∀ v, (g (f (some v))).length = (g v).length + n) (hnew : (g (f none)).length = n)
    (xs : List (κ × υ)) :
    ((alter k f xs).flatMap fun x => g x.2).length = (xs.flatMap fun x => g x.2).length + n := by
  induction xs with
  | nil => simp [alter, hnew]
  | cons x rest ih =>
      obtain ⟨k', v⟩ := x
      by_cases hk : k' = k
      · simp only [alter, hk, if_true, List.flatMap_cons, List.length_append, hold]
        omega
      · simp only [alter, hk, if_false, List.flatMap_cons, List.length_append, ih]
        omega

end Assoc

namespace Entry

variable {name : String} {ds es : List Declaration}

theorem absorb_gathered (name : String) (ds es : List Declaration) :
    (gathered name ds).absorb (gathered name es) = gathered name (ds ++ es) := by
  simp [absorb, gathered]

theorem gathered_append_of_not_mem (h : name ∉ es.map Declaration.scope) :
    gathered name (ds ++ es) = gathered name ds := by
  rw [← absorb_gathered, gathered_of_not_mem h]
  simp [absorb]

theorem size_gathered_pos (h : name ∈ ds.map Declaration.scope) : 0 < (gathered name ds).size := by
  obtain ⟨d, hd⟩ := exists_mem_gathered h
  exact List.length_pos_of_mem hd

end Entry

namespace Registry

-- The registry of several files.
def ofFragments (fragments : List Registry) : Registry := fragments.foldl merge empty

-- The declarations of one kind in a namespace, none if there is no such namespace.
def held (registry : Registry) (name : String) (kind : DeclarationKind) : List Declaration :=
  (registry.get? name).elim [] fun entry => entry.ofKind kind

-- A registry of exactly these declarations, each namespace and each kind in their order.
structure Holds (registry : Registry) (ds : List Declaration) : Prop where
  names : registry.names = (ds.map Declaration.scope).eraseDups
  entries : ∀ named ∈ registry.entries, named.2.name = named.1 ∧ 0 < named.2.size
  held : ∀ name kind, registry.held name kind = ds.filter fun d => d.scope = name ∧ d.kind = kind
  count : ∀ kind, registry.count kind = ds.countP fun d => d.kind = kind

-- Grouped declarations `ds` while those of `es` are taken over: the namespaces that are done have
-- their declarations from both lists, the others from the first.
def joining (ds es : List Declaration) (done : List String) : List (String × Entry) :=
  (ds.map Declaration.scope ++ done).eraseDups.map fun name =>
    (name, Entry.gathered name (if name ∈ done then ds ++ es else ds))

-- What a merge does with one namespace of `es`.
def takeOver (es : List Declaration) (entries : List (String × Entry)) (name : String) :
    List (String × Entry) :=
  Assoc.alter name (fun old =>
    old.elim (Entry.gathered name es) (·.absorb (Entry.gathered name es))) entries

theorem takeOver_joining (ds es : List Declaration) {done : List String} {name : String}
    (hname : name ∉ done) : takeOver es (joining ds es done) name = joining ds es (done ++ [name]) := by
  have hkeys : (ds.map Declaration.scope ++ (done ++ [name])).eraseDups =
      if name ∈ (ds.map Declaration.scope ++ done).eraseDups
        then (ds.map Declaration.scope ++ done).eraseDups
        else (ds.map Declaration.scope ++ done).eraseDups ++ [name] := by
    rw [← List.append_assoc, eraseDups_concat]
  rw [takeOver, joining, joining, hkeys]
  refine Assoc.alter_map_keys (nodup_eraseDups _) ?_ ?_ ?_
  · simp [hname, Entry.absorb_gathered]
  · intro hnew
    have hfirst : name ∉ ds.map Declaration.scope := fun hmem =>
      hnew (List.mem_eraseDups.2 (List.mem_append_left _ hmem))
    have hboth := Entry.absorb_gathered name ds es
    rw [Entry.gathered_of_not_mem hfirst] at hboth
    simp only [List.mem_append, List.mem_singleton, or_true, if_true, ← hboth]
    simp [Entry.absorb, Entry.gathered]
  · intro other hother
    simp [hother]

theorem foldl_takeOver (ds es : List Declaration) (names done : List String)
    (h : (done ++ names).Nodup) :
    names.foldl (takeOver es) (joining ds es done) = joining ds es (done ++ names) := by
  induction names generalizing done with
  | nil => rw [List.foldl_nil, List.append_nil]
  | cons name names ih =>
      have hname : name ∉ done := by
        intro hmem
        exact (List.nodup_append.1 h).2.2 name hmem name List.mem_cons_self rfl
      rw [List.foldl_cons, takeOver_joining ds es hname, ih _ (by simpa using h),
        List.append_assoc, List.singleton_append]

theorem merge_grouped (ds es : List Declaration) :
    (grouped ds).merge (grouped es) = grouped (ds ++ es) := by
  have hmerge : ((grouped ds).merge (grouped es)).entries =
      (es.map Declaration.scope).eraseDups.foldl (takeOver es) (grouped ds).entries := by
    simp only [merge, grouped, List.foldl_map]
    rfl
  have hnone : (grouped ds).entries = joining ds es [] := by simp [grouped, joining]
  have hall : joining ds es (es.map Declaration.scope).eraseDups = (grouped (ds ++ es)).entries := by
    rw [joining, grouped, eraseDups_append_eraseDups, List.map_append]
    refine List.map_congr_left fun name _ => ?_
    by_cases hname : name ∈ es.map Declaration.scope
    · rw [if_pos (List.mem_eraseDups.2 hname)]
    · rw [if_neg (mt List.mem_eraseDups.1 hname), Entry.gathered_append_of_not_mem hname]
  have hrun := foldl_takeOver ds es (es.map Declaration.scope).eraseDups [] (nodup_eraseDups _)
  rw [hnone, hrun, List.nil_append, hall] at hmerge
  exact congrArg Registry.mk hmerge

theorem ofFragments_ofDeclarations (parts : List (List Declaration)) :
    ofFragments (parts.map ofDeclarations) = ofDeclarations parts.flatten := by
  have hfold (done : List Declaration) :
      (parts.map ofDeclarations).foldl merge (grouped done) = grouped (done ++ parts.flatten) := by
    induction parts generalizing done with
    | nil => simp
    | cons ds parts ih =>
        rw [List.map_cons, List.foldl_cons, ofDeclarations_eq, merge_grouped, ih,
          List.flatten_cons, List.append_assoc]
  rw [ofDeclarations_eq]
  exact hfold []

theorem held_grouped (ds : List Declaration) (name : String) (kind : DeclarationKind) :
    (grouped ds).held name kind = ds.filter fun d => d.scope = name ∧ d.kind = kind := by
  rw [held, get?, grouped, Assoc.find?_map_keys, ← Entry.ofKind_gathered]
  by_cases hname : name ∈ ds.map Declaration.scope
  · rw [if_pos (List.mem_eraseDups.2 hname), Option.elim_some]
  · rw [if_neg (mt List.mem_eraseDups.1 hname), Entry.gathered_of_not_mem hname]
    cases kind <;> rfl

theorem count_push (registry : Registry) (d : Declaration) (kind : DeclarationKind) :
    (registry.push d).count kind = registry.count kind + if d.kind = kind then 1 else 0 := by
  have hpush (entry : Entry) : ((entry.push d).ofKind kind).length =
      (entry.ofKind kind).length + if d.kind = kind then 1 else 0 := by
    rw [Entry.ofKind_push]
    split <;> simp
  have hnew : (({ name := d.scope } : Entry).push d |>.ofKind kind).length =
      if d.kind = kind then 1 else 0 := by
    have hempty : ({ name := d.scope } : Entry).ofKind kind = [] := by cases kind <;> rfl
    rw [hpush, hempty, List.length_nil, Nat.zero_add]
  simp only [count, toList, List.flatMap_map, push]
  exact Assoc.length_flatMap_alter (f := fun old => (old.getD { name := d.scope }).push d)
    (g := fun entry => entry.ofKind kind) hpush hnew registry.entries

theorem count_ofDeclarations (ds : List Declaration) (kind : DeclarationKind) :
    (ofDeclarations ds).count kind = ds.countP fun d => d.kind = kind := by
  induction ds using List.reverseRecOn with
  | nil => rfl
  | append_singleton ds d ih =>
      rw [ofDeclarations, List.foldl_append, List.foldl_cons, List.foldl_nil, count_push, List.countP_append, ← ih]
      simp [ofDeclarations, List.countP_cons]

theorem holds_ofDeclarations (ds : List Declaration) : (ofDeclarations ds).Holds ds where
  names := by simp [ofDeclarations_eq, grouped, names, Function.comp_def]
  entries named hnamed := by
    rw [ofDeclarations_eq] at hnamed
    obtain ⟨name, hname, rfl⟩ := List.mem_map.1 hnamed
    exact ⟨rfl, Entry.size_gathered_pos (List.mem_eraseDups.1 hname)⟩
  held name kind := by rw [ofDeclarations_eq, held_grouped]
  count := count_ofDeclarations ds

-- A registry does not show how its declarations were spread over files: it holds them as one list.
-- Files in another order change the order of namespaces and declarations and nothing else.
theorem ofFragments_holds (parts : List (List Declaration)) :
    (ofFragments (parts.map ofDeclarations)).Holds parts.flatten ∧
      ∀ others : List (List Declaration),
        (others.flatten = parts.flatten →
          ofFragments (others.map ofDeclarations) = ofFragments (parts.map ofDeclarations)) ∧
        (others.Perm parts →
          (ofFragments (others.map ofDeclarations)).names.Perm
              (ofFragments (parts.map ofDeclarations)).names ∧
            ∀ name kind, ((ofFragments (others.map ofDeclarations)).held name kind).Perm
              ((ofFragments (parts.map ofDeclarations)).held name kind)) := by
  have hholds (parts : List (List Declaration)) :
      (ofFragments (parts.map ofDeclarations)).Holds parts.flatten := by
    rw [ofFragments_ofDeclarations]
    exact holds_ofDeclarations parts.flatten
  refine ⟨hholds parts, fun others => ⟨fun hflatten => ?_, fun hperm => ?_⟩⟩
  · rw [ofFragments_ofDeclarations, ofFragments_ofDeclarations, hflatten]
  · have hdeclarations : others.flatten.Perm parts.flatten := hperm.flatten
    refine ⟨?_, fun name kind => ?_⟩
    · rw [(hholds others).names, (hholds parts).names]
      exact (List.perm_ext_iff_of_nodup (nodup_eraseDups _) (nodup_eraseDups _)).2 fun name => by
        rw [List.mem_eraseDups, List.mem_eraseDups]
        exact (hdeclarations.map Declaration.scope).mem_iff
    · rw [(hholds others).held, (hholds parts).held]
      exact hdeclarations.filter _

-- Two files that share a namespace: in the other order, and with their declarations cut otherwise.
theorem ofFragments_shared :
    (ofFragments [ofDeclarations [⟨"B", .classType, "x", [], default⟩],
        ofDeclarations [⟨"A", .classType, "x", [], default⟩, ⟨"f", .function, "y", [], default⟩]]).names.Perm
      (ofFragments [ofDeclarations [⟨"A", .classType, "x", [], default⟩,
        ⟨"f", .function, "y", [], default⟩], ofDeclarations [⟨"B", .classType, "x", [], default⟩]]).names ∧
    ofFragments [ofDeclarations [⟨"A", .classType, "x", [], default⟩],
        ofDeclarations [⟨"f", .function, "y", [], default⟩, ⟨"B", .classType, "x", [], default⟩]] =
      ofFragments [ofDeclarations [⟨"A", .classType, "x", [], default⟩,
        ⟨"f", .function, "y", [], default⟩], ofDeclarations [⟨"B", .classType, "x", [], default⟩]] := by
  have hshared := (ofFragments_holds [[⟨"A", .classType, "x", [], default⟩,
    ⟨"f", .function, "y", [], default⟩], [⟨"B", .classType, "x", [], default⟩]]).2
  refine ⟨((hshared [[⟨"B", .classType, "x", [], default⟩], [⟨"A", .classType, "x", [], default⟩,
    ⟨"f", .function, "y", [], default⟩]]).2 (.swap _ _ _)).1, ?_⟩
  exact (hshared [[⟨"A", .classType, "x", [], default⟩], [⟨"f", .function, "y", [], default⟩,
    ⟨"B", .classType, "x", [], default⟩]]).1 rfl

end Registry

end Census

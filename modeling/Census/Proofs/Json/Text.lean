import Census.Json.Text
import Census.Proofs.Json.Word

namespace Census.Json

namespace Word

variable {cs ds rest : List Char} {ws vs : List Word}

-- Some characters are read as some words in front of what follows them.
def Spells (cs : List Char) (ws : List Word) (rest : List Char) : Prop :=
  all? 0 (cs ++ rest) = (all? 0 rest).map (ws ++ ·)

namespace Spells

theorem nil (rest : List Char) : Spells [] [] rest := by simp [Spells]

theorem append (h : Spells cs ws (ds ++ rest)) (h' : Spells ds vs rest) :
    Spells (cs ++ ds) (ws ++ vs) rest := by
  unfold Spells at *
  rw [List.append_assoc, h, h', Option.map_map]
  refine congrArg (fun f => (all? 0 rest).map f) (funext fun us => ?_)
  exact (List.append_assoc ws vs us).symm

theorem literal (w : Word) (h : w ∈ literals.map (·.2)) (rest : List Char) :
    Spells w.text [w] rest := all?_literal h rest

theorem comma (rest : List Char) : Spells [','] [.comma] rest := literal .comma (by decide) rest

theorem colon (rest : List Char) : Spells [':'] [.colon] rest := literal .colon (by decide) rest

theorem string (s : String) (rest : List Char) : Spells (Word.string s).text [.string s] rest :=
  all?_string s rest

theorem nat (n : Nat) (h : Ended rest) : Spells (Word.integer n).text [rereadInteger n] rest :=
  all?_nat n h

end Spells

end Word

namespace Value

mutual

-- What a value comes back as when it is read from its text.
def reread : Value → Value
  | .integer n => if Word.isShort n then .integer n else .decimal (toString n ++ ".0")
  | .array items => .array (rereadAll items)
  | .object fields => .object (rereadFields fields)
  | v => v

def rereadAll : List Value → List Value
  | [] => []
  | v :: rest => v.reread :: rereadAll rest

def rereadFields : List (String × Value) → List (String × Value)
  | [] => []
  | (name, v) :: rest => (name, v.reread) :: rereadFields rest

end

theorem rereadAll_eq (items : List Value) : rereadAll items = items.map reread := by
  induction items with
  | nil => rfl
  | cons v rest ih => rw [rereadAll, ih, List.map_cons]

theorem rereadFields_eq (fields : List (String × Value)) :
    rereadFields fields = fields.map fun field => (field.1, field.2.reread) := by
  induction fields with
  | nil => rfl
  | cons field rest ih => rw [rereadFields, ih, List.map_cons]

-- Values whose numbers are natural.
inductive Plain : Value → Prop where
  | null : Plain .null
  | bool (b : Bool) : Plain (.bool b)
  | nat (n : Nat) : Plain (.integer n)
  | string (s : String) : Plain (.string s)
  | array {items : List Value} (h : ∀ v ∈ items, Plain v) : Plain (.array items)
  | object {fields : List (String × Value)} (h : ∀ field ∈ fields, Plain field.2) :
      Plain (.object fields)

section Words

open Word

-- The text of a value is read as the words of what it comes back as.
def Legible (v : Value) : Prop :=
  ∀ rest, Ended rest → Spells (v.words.flatMap text) v.reread.words rest

theorem legible_nextItems {items : List Value} (h : ∀ v ∈ items, v.Legible) (rest : List Char) :
    Ended ((wordsOfNextItems items).flatMap text ++ ']' :: rest) ∧
      Spells ((wordsOfNextItems items).flatMap text) (wordsOfNextItems (rereadAll items))
        (']' :: rest) := by
  induction items with
  | nil => exact ⟨ended_bracket rest, .nil _⟩
  | cons v items ih =>
      obtain ⟨hended, hitems⟩ := ih fun v hv => h v (List.mem_cons_of_mem _ hv)
      have hv := h v List.mem_cons_self _ hended
      refine ⟨ended_comma _, ?_⟩
      simp only [wordsOfNextItems, rereadAll, List.flatMap_cons, List.flatMap_append,
        List.cons_append]
      exact (Spells.comma _).append (hv.append hitems)

theorem legible_nextFields {fields : List (String × Value)} (h : ∀ field ∈ fields, field.2.Legible)
    (rest : List Char) :
    Ended ((wordsOfNextFields fields).flatMap text ++ '\x7d' :: rest) ∧
      Spells ((wordsOfNextFields fields).flatMap text) (wordsOfNextFields (rereadFields fields))
        ('\x7d' :: rest) := by
  induction fields with
  | nil => exact ⟨ended_brace rest, .nil _⟩
  | cons field fields ih =>
      obtain ⟨hended, hfields⟩ := ih fun field hf => h field (List.mem_cons_of_mem _ hf)
      have hv := h field List.mem_cons_self _ hended
      refine ⟨ended_comma _, ?_⟩
      simp only [wordsOfNextFields, rereadFields, List.flatMap_cons, List.flatMap_append,
        List.cons_append]
      exact (Spells.comma _).append ((Spells.string field.1 _).append
        ((Spells.colon _).append (hv.append hfields)))

theorem legible_array {items : List Value} (h : ∀ v ∈ items, v.Legible) :
    (Value.array items).Legible := by
  intro rest hrest
  have hopen (rest : List Char) : Spells ['['] [.openArray] rest :=
    .literal .openArray (by decide) rest
  have hclose : Spells [']'] [.closeArray] rest :=
    .literal .closeArray (by decide) rest
  cases items with
  | nil => exact (hopen _).append hclose
  | cons v items =>
      obtain ⟨hended, hitems⟩ := legible_nextItems
        (fun v hv => h v (List.mem_cons_of_mem _ hv)) rest
      have hv := h v List.mem_cons_self _ hended
      simp only [words, wordsOfItems, reread, rereadAll, List.flatMap_cons, List.flatMap_append,
        List.cons_append]
      exact (hopen _).append ((hv.append hitems).append hclose)

theorem legible_object {fields : List (String × Value)} (h : ∀ field ∈ fields, field.2.Legible) :
    (Value.object fields).Legible := by
  intro rest hrest
  have hopen (rest : List Char) : Spells ['\x7b'] [.openObject] rest :=
    .literal .openObject (by decide) rest
  have hclose : Spells ['\x7d'] [.closeObject] rest :=
    .literal .closeObject (by decide) rest
  cases fields with
  | nil => exact (hopen _).append hclose
  | cons field fields =>
      obtain ⟨hended, hfields⟩ := legible_nextFields
        (fun field hf => h field (List.mem_cons_of_mem _ hf)) rest
      have hv := h field List.mem_cons_self _ hended
      simp only [words, wordsOfFields, reread, rereadFields, List.flatMap_cons,
        List.flatMap_append, List.cons_append]
      exact (hopen _).append ((Spells.string field.1 _).append
        ((Spells.colon _).append ((hv.append hfields).append hclose)))

theorem Plain.legible {v : Value} (h : v.Plain) : v.Legible := by
  induction h with
  | null => exact fun rest _ => .literal .null (by decide) rest
  | bool b =>
      cases b with
      | false => exact fun rest _ => .literal (.bool false) (by decide) rest
      | true => exact fun rest _ => .literal (.bool true) (by decide) rest
  | nat n =>
      intro rest hrest
      have hwords : (reread (.integer n)).words = [rereadInteger n] := by
        rw [reread, rereadInteger]
        split <;> rfl
      rw [hwords]
      simpa [words] using Spells.nat n hrest
  | string s =>
      intro rest hrest
      simpa [words, reread] using Spells.string s rest
  | array _ ih => exact legible_array ih
  | object _ ih => exact legible_object ih

end Words

section States

-- The words of a value put it, with all that it holds, where a value was expected.
def Builds (v : Value) : Prop :=
  ∀ stack, v.words.foldlM State.step (.value stack) = some (State.deliver v stack)

-- The first item of an array is read like any other one.
theorem foldlM_firstItem (v : Value) (stack : List Frame) (ws : List Word) :
    (v.words ++ ws).foldlM State.step (.firstItem stack) =
      (v.words ++ ws).foldlM State.step (.value (.array [] :: stack)) := by
  cases v <;> rfl

theorem builds_nextItems {items : List Value} (h : ∀ v ∈ items, v.Builds) (done : List Value)
    (stack : List Frame) :
    (wordsOfNextItems items ++ [Word.closeArray]).foldlM State.step (.nextItem done stack) =
      some (State.deliver (.array (done ++ items)) stack) := by
  induction items generalizing done with
  | nil =>
      rw [List.append_nil]
      rfl
  | cons v items ih =>
      have hv := h v List.mem_cons_self (.array done :: stack)
      have hitems := ih (fun v hv => h v (List.mem_cons_of_mem _ hv)) (done ++ [v])
      have hcomma (ws : List Word) : (Word.comma :: ws).foldlM State.step (.nextItem done stack) =
          ws.foldlM State.step (.value (.array done :: stack)) := rfl
      rw [wordsOfNextItems, List.cons_append, List.cons_append, hcomma, List.append_assoc,
        List.foldlM_append, hv]
      rw [List.append_assoc, List.singleton_append] at hitems
      exact hitems

theorem builds_array {items : List Value} (h : ∀ v ∈ items, v.Builds) :
    (Value.array items).Builds := by
  intro stack
  cases items with
  | nil => rfl
  | cons v items =>
      have hv := h v List.mem_cons_self (.array [] :: stack)
      have hitems := builds_nextItems (fun v hv => h v (List.mem_cons_of_mem _ hv)) [v] stack
      have hopen (ws : List Word) : (Word.openArray :: ws).foldlM State.step (.value stack) =
          ws.foldlM State.step (.firstItem stack) := rfl
      rw [words, wordsOfItems, List.cons_append, hopen, List.append_assoc, foldlM_firstItem,
        List.foldlM_append, hv]
      exact hitems

theorem builds_nextFields {fields : List (String × Value)} (h : ∀ field ∈ fields, field.2.Builds)
    (done : List (String × Value)) (stack : List Frame) :
    (wordsOfNextFields fields ++ [Word.closeObject]).foldlM State.step (.nextField done stack) =
      some (State.deliver (.object (done ++ fields)) stack) := by
  induction fields generalizing done with
  | nil =>
      rw [List.append_nil]
      rfl
  | cons field fields ih =>
      have hv := h field List.mem_cons_self (.object done field.1 :: stack)
      have hfields := ih (fun field hf => h field (List.mem_cons_of_mem _ hf)) (done ++ [field])
      have hkey (ws : List Word) :
          (Word.comma :: .string field.1 :: .colon :: ws).foldlM State.step (.nextField done stack) =
            ws.foldlM State.step (.value (.object done field.1 :: stack)) := rfl
      rw [wordsOfNextFields]
      simp only [List.cons_append]
      rw [hkey, List.append_assoc, List.foldlM_append, hv]
      rw [List.append_assoc, List.singleton_append] at hfields
      exact hfields

theorem builds_object {fields : List (String × Value)} (h : ∀ field ∈ fields, field.2.Builds) :
    (Value.object fields).Builds := by
  intro stack
  cases fields with
  | nil => rfl
  | cons field fields =>
      have hv := h field List.mem_cons_self (.object [] field.1 :: stack)
      have hfields := builds_nextFields (fun field hf => h field (List.mem_cons_of_mem _ hf))
        [field] stack
      have hkey (ws : List Word) :
          (Word.openObject :: .string field.1 :: .colon :: ws).foldlM State.step (.value stack) =
            ws.foldlM State.step (.value (.object [] field.1 :: stack)) := rfl
      rw [words, wordsOfFields]
      simp only [List.cons_append]
      rw [hkey, List.append_assoc, List.foldlM_append, hv]
      exact hfields

theorem Plain.builds_reread {v : Value} (h : v.Plain) : v.reread.Builds := by
  induction h with
  | nat n =>
      intro stack
      rw [reread]
      split <;> rfl
  | @array items _ ih =>
      rw [reread, rereadAll_eq]
      apply builds_array
      intro v hv
      obtain ⟨item, hitem, rfl⟩ := List.mem_map.1 hv
      exact ih item hitem
  | @object fields _ ih =>
      rw [reread, rereadFields_eq]
      apply builds_object
      intro field hfield
      obtain ⟨old, hold, rfl⟩ := List.mem_map.1 hfield
      exact ih old hold
  | _ => exact fun _ => rfl

end States

-- A printed value is read again, but for integers that are too long.
theorem Plain.read?_print {v : Value} (h : v.Plain) : Value.read? v.print = some v.reread := by
  have hwords : Word.all? 0 (v.words.flatMap Word.text) = some v.reread.words := by
    have hspells := h.legible [] Word.ended_nil
    rw [Word.Spells, List.append_nil] at hspells
    simpa [Word.all?] using hspells
  have hbuilds := h.builds_reread []
  rw [Value.read?, Value.print, String.toList_ofList, hwords]
  simp only [Option.bind_some, ofWords?, hbuilds]
  rfl

end Value

end Census.Json

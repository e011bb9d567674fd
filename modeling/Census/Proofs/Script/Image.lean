import Census.Proofs.Registry.Tidy
import Census.Proofs.Script.Schema

namespace Census

open Grammar Text

namespace Script

variable {source : String} {image : Image} {k : Nat}

theorem text_ne_nil (hk : k < (significantTokens source).length) :
    ((ofSource source).text k).toList ≠ [] := by
  obtain ⟨_, _, -, hstands⟩ :=
    (tokenize_tiles source).stands _ (List.mem_filter.1 (List.getElem_mem hk)).1
  rw [text_ofSource hk]
  exact hstands.nonempty

theorem isNamePart_of_nameAt (h : NameAt (ofSource source).terminals k) :
    ∀ c ∈ ((ofSource source).text k).toList, Scan.isNamePart c = true := by
  obtain ⟨kind, hk, hname⟩ := h
  have hspells := text_spells hk
  cases kind with
  | identifier => exact List.all_eq_true.1 hspells
  | keyword word => exact List.all_eq_true.1 hspells
  | _ => cases hname

theorem nameAt_ne_nil (h : NameAt (ofSource source).terminals k) :
    ((ofSource source).text k).toList ≠ [] := by
  obtain ⟨kind, hk, -⟩ := h
  obtain ⟨t, ht, -⟩ := token_of_kindAt hk
  exact text_ne_nil (List.getElem?_eq_some_iff.1 ht).1

-- The words of a name are names, and separators between them.
theorem solid_of_wordAt (h : WordAt (ofSource source).terminals k) :
    ∀ c ∈ ((ofSource source).text k).toList, isBlank c = false := by
  obtain ⟨kind, hk, hword⟩ := h
  by_cases hname : kind.isName = true
  · exact fun c hc => Scan.isBlank_of_isNamePart (isNamePart_of_nameAt ⟨kind, hk, hname⟩ c hc)
  · obtain rfl : kind = .symbol .backslash := by simpa [TokenKind.isWord, hname] using hword
    have hsymbol := text_symbol hk
    have hsolid : ∀ s ∈ Symbol.spellings, s.2 = .backslash →
        (s.1.toList.all fun c => !isBlank c) = true := by decide
    exact fun c hc => by simpa using List.all_eq_true.1 (hsolid _ hsymbol rfl) c hc

theorem solid_of_wordy {written : Bool} (h : image.Wordy (ofSource source).terminals written) :
    ∀ c ∈ ((ofSource source).image image).toList, isBlank c = false := by
  cases image with
  | none => exact nofun
  | pieces tokens =>
      intro c hc
      rw [toList_image_pieces, List.mem_flatMap] at hc
      obtain ⟨k, hk, hc⟩ := hc
      exact solid_of_wordAt (h.1 k hk) c hc
  | lowered token => exact absurd h id

-- Somewhere in an image that was written as a name there is more than separators.
theorem not_hollow_of_wordy (h : image.Wordy (ofSource source).terminals true) :
    ¬ ∀ c ∈ ((ofSource source).image image).toList, c = '\\' := by
  cases image with
  | none => cases h
  | pieces tokens =>
      obtain ⟨-, k, hk, hname, -⟩ := h
      obtain ⟨c, hc⟩ := List.exists_mem_of_ne_nil _ (nameAt_ne_nil hname)
      intro hall
      have hpart := isNamePart_of_nameAt hname c hc
      rw [hall c ?_] at hpart
      · exact absurd hpart (by decide)
      · rw [toList_image_pieces, List.mem_flatMap]
        exact ⟨k, hk, hc⟩
  | lowered token => exact absurd h id

-- An image that does without the separator in front begins with a name.
theorem front_of_wordy (h : image.Wordy (ofSource source).terminals false) :
    ((ofSource source).image image).toList.head? ≠ some '\\' := by
  cases image with
  | none => nofun
  | pieces tokens =>
      obtain ⟨-, k, -, hname, hk⟩ := h
      obtain ⟨behind, rfl⟩ := List.head?_eq_some_iff.1 (hk rfl)
      obtain ⟨c, cs, htext⟩ := List.exists_cons_of_ne_nil (nameAt_ne_nil hname)
      have hpart := isNamePart_of_nameAt hname c (htext ▸ List.mem_cons_self)
      rw [toList_image_pieces, List.flatMap_cons, htext]
      intro hfront
      obtain rfl : c = '\\' := Option.some.inj hfront
      exact absurd hpart (by decide)
  | lowered token => exact absurd h id

end Script

end Census

import Census.Proofs.Text.Split
import Census.Proofs.Registry.Relabel
import Census.Proofs.Text.LineEnd

namespace Census

namespace Text

-- Lines that all end with a carriage return, but for the last one.
def returned : List (List Char) → List (List Char)
  | [] => []
  | [line] => [line]
  | line :: next :: lines => (line ++ ['\r']) :: returned (next :: lines)

theorem returned_cons (line : List Char) {lines : List (List Char)} (h : lines ≠ []) :
    returned (line :: lines) = (line ++ ['\r']) :: returned lines := by
  obtain ⟨next, lines, rfl⟩ := List.exists_cons_of_ne_nil h
  rfl

-- With carriage returns, a text has the same lines but for what they end with.
theorem splitAt_crlf (cs : List Char) : splitAt '\n' (crlf cs) = returned (splitAt '\n' cs) := by
  induction cs with
  | nil => rfl
  | cons c cs ih =>
      rcases eq_or_ne c '\n' with rfl | hc
      · rw [crlf_break, splitAt, if_neg (by decide), splitAt, if_pos rfl, ih, splitAt, if_pos rfl,
          returned_cons _ (splitAt_ne_nil _ _)]
        rfl
      · obtain ⟨line, lines, hlines⟩ := List.exists_cons_of_ne_nil (splitAt_ne_nil '\n' cs)
        rw [crlf_cons hc, splitAt, if_neg hc, ih, splitAt, if_neg hc, hlines]
        cases lines <;> rfl

theorem filterMap_returned {α : Type} {f : List Char → Option α}
    (hf : ∀ line, f (line ++ ['\r']) = f line) (lines : List (List Char)) :
    (returned lines).filterMap f = lines.filterMap f := by
  induction lines with
  | nil => rfl
  | cons line lines ih =>
      cases lines with
      | nil => rfl
      | cons next lines =>
          rw [returned_cons line (List.cons_ne_nil next lines)]
          cases hline : f line with
          | none =>
              rw [List.filterMap_cons_none ((hf line).trans hline), List.filterMap_cons_none hline, ih]
          | some value =>
              rw [List.filterMap_cons_some ((hf line).trans hline), List.filterMap_cons_some hline, ih]

-- Two texts of which the second is empty, or has a carriage return behind the first.
def Trails (cs ds : List Char) : Prop := ds = cs ++ ['\r'] ∨ cs = [] ∧ ds = []

variable {cs ds : List Char}

theorem Trails.trimStart (h : Trails cs ds) : Trails (trimStart cs) (trimStart ds) := by
  rcases h with rfl | ⟨rfl, rfl⟩
  · rw [Text.trimStart, Text.trimStart, List.dropWhile_append]
    cases hcs : cs.dropWhile isBlank with
    | nil => exact .inr ⟨rfl, rfl⟩
    | cons c rest => exact .inl rfl
  · exact .inr ⟨rfl, rfl⟩

theorem Trails.dropWhile (h : Trails cs ds) {p : Char → Bool} (hp : p '\r' = false) :
    Trails (cs.dropWhile p) (ds.dropWhile p) := by
  rcases h with rfl | ⟨rfl, rfl⟩
  · rw [List.dropWhile_append]
    cases hcs : cs.dropWhile p with
    | nil => exact .inl (by simp [hp])
    | cons c rest => exact .inl rfl
  · exact .inr ⟨rfl, rfl⟩

-- A text without carriage returns begins another one whether or not one stands at the end.
theorem isPrefixOf_concat {part : List Char} (h : Inline part) (cs : List Char) :
    part.isPrefixOf (cs ++ ['\r']) = part.isPrefixOf cs := by
  induction part generalizing cs with
  | nil => simp
  | cons x part ih =>
      obtain ⟨hx, hpart⟩ := List.forall_mem_cons.1 h
      cases cs with
      | nil =>
          have hne : x ≠ '\r' := by
            rintro rfl
            cases hx
          simp [List.isPrefixOf, hne]
      | cons c cs => rw [List.cons_append, List.isPrefixOf, List.isPrefixOf, ih hpart]

theorem dropRepeated_concat {lead : List Char} (hlead : Inline lead) (cs : List Char) :
    dropRepeated lead (cs ++ ['\r']) = dropRepeated lead cs ++ ['\r'] := by
  induction cs using dropRepeated.induct lead with
  | case1 cs hbegins ih =>
      have hle := (List.isPrefixOf_iff_prefix.1 hbegins.1).length_le
      rw [dropRepeated, dif_pos (by rwa [isPrefixOf_concat hlead]), List.drop_append_of_le_length hle,
        ih, dropRepeated.eq_def lead cs, dif_pos hbegins]
  | case2 cs hnot =>
      rw [dropRepeated, dif_neg (by rwa [isPrefixOf_concat hlead]), dropRepeated, dif_neg hnot]

theorem dropRepeated_nil (lead : List Char) : dropRepeated lead [] = [] := by
  rw [dropRepeated, dif_neg]
  rintro ⟨hbegins, hne⟩
  exact hne (List.prefix_nil.1 (List.isPrefixOf_iff_prefix.1 hbegins))

theorem Trails.dropRepeated {lead : List Char} (hlead : Inline lead) (h : Trails cs ds) :
    Trails (dropRepeated lead cs) (dropRepeated lead ds) := by
  rcases h with rfl | ⟨rfl, rfl⟩
  · exact .inl (dropRepeated_concat hlead cs)
  · exact .inr ⟨dropRepeated_nil lead, dropRepeated_nil lead⟩

theorem Trails.firstWord (h : Trails cs ds) : firstWord ds = firstWord cs := by
  unfold Text.firstWord
  rcases h.trimStart with hreturn | ⟨hcs, hds⟩
  · rw [hreturn, List.takeWhile_append]
    split
    · rename_i hall
      rw [(List.takeWhile_prefix _).eq_of_length hall]
      exact List.append_nil _
    · rfl
  · rw [hcs, hds]

end Text

namespace DocComment

open Text

theorem content_return (line : List Char) : Trails (content line) (content (line ++ ['\r'])) :=
  (((Trails.trimStart (.inl rfl)).dropRepeated (by decide)).dropWhile (by decide)).trimStart

-- A carriage return at the end of a line gives no value and takes none away.
theorem value?_return {tag : List Char} (htag : Inline tag) (line : List Char) :
    value? tag (line ++ ['\r']) = value? tag line := by
  unfold value?
  rcases content_return line with hreturn | ⟨hcs, hds⟩
  · dsimp only
    rw [hreturn, isPrefixOf_concat htag]
    generalize content line = line
    cases hbegins : tag.isPrefixOf line with
    | false => rfl
    | true =>
        have hle := (List.isPrefixOf_iff_prefix.1 hbegins).length_le
        rw [List.drop_append_of_le_length hle]
        cases hrest : line.drop tag.length with
        | nil =>
            have hword : dropRepeatedEnd "*/".toList (firstWord ['\r']) = [] := by
              rw [dropRepeatedEnd, show firstWord ['\r'] = [] from rfl, List.reverse_nil,
                dropRepeated_nil, List.reverse_nil]
            simp only [List.nil_append, hword, List.isEmpty_nil, if_true, ite_self]
            rfl
        | cons c rest =>
            have hword : firstWord (c :: rest ++ ['\r']) = firstWord (c :: rest) :=
              Trails.firstWord (.inl rfl)
            rw [hword]
            rfl
  · rw [hcs, hds]

theorem values_crlf {tag : String} (htag : Inline tag.toList) (doc : String) :
    values tag (crlfText doc) = values tag doc := by
  rw [values, toList_crlfText, splitAt_crlf, filterMap_returned (value?_return htag), values]

theorem throws_crlf (doc : String) : throws (crlfText doc) = throws doc := by
  rw [throws, values_crlf (by decide), throws]

theorem package?_crlf (doc : String) : package? (crlfText doc) = package? doc := by
  rw [package?, values_crlf (by decide), package?]

end DocComment

-- What a node says when its source is written with carriage returns: its texts have them, too.

def Content.returned (content : Content) : Content :=
  { content with image := Text.crlfText content.image, doc := content.doc.map Text.crlfText }

def Label.returned (label : Label) : Label := { label with content := label.content.returned }

-- The same, but for names.
def Label.renamed (label : Label) : Label :=
  { label with
    content := { label.content.returned with
      image := if label.content.kind.isNamed then label.content.image
        else Text.crlfText label.content.image } }

theorem Label.quiet_renamed : Quiet renamed fun span => span where
  kind label := by rw [renamed, Content.returned]
  span label := by rw [renamed, Content.returned]
  name label h := if_pos h
  throws label := by
    cases h : label.content.doc with
    | none => simp [renamed, Content.returned, h]
    | some doc => simp [renamed, Content.returned, h, DocComment.throws_crlf]
  package label := by
    cases h : label.content.doc with
    | none => simp [renamed, Content.returned, h]
    | some doc => simp [renamed, Content.returned, h, DocComment.package?_crlf]

-- The survey of a tree whose names stand on one line each does not depend on how lines end.
theorem survey_returned {root : Node} (h : ∀ node ∈ root.subtrees,
    (Node.kind node).isNamed = true → Text.Inline (Node.image node).toList) (mode : AnnotationMode) :
    survey mode (root.map Label.returned) = survey mode root := by
  have hrenamed : root.map Label.returned = root.map Label.renamed := by
    refine Tree.map_congr root fun node hnode => ?_
    unfold Label.returned Label.renamed
    split
    · rename_i hnamed
      have himage : Text.crlfText node.label.content.image = node.label.content.image :=
        (h node hnode hnamed).crlfText_eq
      rw [Content.returned, himage]
    · rfl
  rw [hrenamed, survey_map Label.quiet_renamed, Registry.mapSpans_id]

end Census

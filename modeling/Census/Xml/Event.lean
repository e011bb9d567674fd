import Census.Xml.Markup
import Census.Xml.Reference

namespace Census.Xml

-- What a reader meets in a document. Elements are known by their names without namespace.
inductive Event where
  | opened (name : String)
  | closed
  | text (s : String)
deriving DecidableEq, Repr

-- What stands behind the first colon of a name, or the whole name.
def localName (name : List Char) : String :=
  if name.contains ':' then String.ofList (name.dropWhile (· ≠ ':')).tail
  else String.ofList name

-- One step of a reader: what it met, the elements that are open now, and the text that is left.
structure Step where
  events : List Event
  opened : List (List Char)
  rest : List Char

-- Handles markup, where `opened` has the names of the open elements, the innermost in front.
-- An end tag must have the name of the innermost one.
def close (opened : List (List Char)) (m : Markup) (rest : List Char) : Except Fault Step :=
  match m with
  | .startTag name => .ok ⟨[.opened (localName name)], name :: opened, rest⟩
  | .emptyTag => .ok ⟨[], opened, rest⟩
  | .endTag name =>
      if opened.head? = some name then .ok ⟨[.closed], opened.tail, rest⟩
      else .error .mismatchedTag
  | .cdata text => .ok ⟨[.text (String.ofList text)], opened, rest⟩
  | .other => .ok ⟨[], opened, rest⟩

-- Reads one piece of markup, or the text up to the next one without the space around it.
def step (opened : List (List Char)) (c : Char) (rest : List Char) : Except Fault Step :=
  if c = '<' then
    match markup rest with
    | .ok (m, n) => close opened m (rest.drop n)
    | .error e => .error e
  else
    let text := rest.takeWhile (· ≠ '<')
    match resolve? 0 (trimEnd (c :: text)) with
    | some s => .ok ⟨[.text (String.ofList s)], opened, rest.drop text.length⟩
    | none => .error .badReference

theorem close_rest {opened : List (List Char)} {m : Markup} {rest : List Char} {s : Step}
    (h : close opened m rest = .ok s) : s.rest = rest := by
  unfold close at h
  split at h <;> try split at h
  all_goals first | cases h; rfl | cases h

theorem step_rest_length {opened : List (List Char)} {c : Char} {rest : List Char} {s : Step}
    (h : step opened c rest = .ok s) : s.rest.length ≤ rest.length := by
  unfold step at h
  split at h
  · split at h
    · rw [close_rest h, List.length_drop]
      omega
    · cases h
  · dsimp only at h
    split at h
    · cases h
      rw [List.length_drop]
      omega
    · cases h

-- All events of a document up to its end or to the first fault, and that fault. Elements that
-- are still open at the end are none.
def eventsFrom (opened : List (List Char)) (cs : List Char) : List Event × Option Fault :=
  match _h : cs.dropWhile isSpace with
  | [] => ([], none)
  | c :: rest =>
      match _hs : step opened c rest with
      | .error e => ([], some e)
      | .ok s =>
          let (events, fault) := eventsFrom s.opened s.rest
          (s.events ++ events, fault)
termination_by cs.length
decreasing_by
  have dropped := (List.dropWhile_suffix isSpace (l := cs)).length_le
  have taken := step_rest_length _hs
  rw [_h, List.length_cons] at dropped
  omega

def events (text : String) : List Event × Option Fault := eventsFrom [] text.toList

end Census.Xml

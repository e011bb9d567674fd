import Census.Proofs.Registry.Relabel

namespace Census

-- What is left of a thing when nobody knows where in the text it stands: every span is the same.

def Content.unplaced (content : Content) : Content := { content with span := default }

def Label.unplaced (label : Label) : Label := { label with content := label.content.unplaced }

def Node.unplaced (node : Node) : Node := node.map Label.unplaced

def Declaration.unplaced (d : Declaration) : Declaration := { d with span := default }

def Entry.unplaced (entry : Entry) : Entry where
  name := entry.name
  classes := entry.classes.map Declaration.unplaced
  interfaces := entry.interfaces.map Declaration.unplaced
  functions := entry.functions.map Declaration.unplaced

def Registry.unplaced (registry : Registry) : Registry :=
  ⟨registry.entries.map fun named => (named.1, named.2.unplaced)⟩

theorem Label.quiet_unplaced : Quiet unplaced fun _ => default :=
  ⟨fun _ => rfl, fun _ => rfl, fun _ _ => rfl, fun _ => rfl, fun _ => rfl⟩

-- Positions pass through the survey of a tree: they decide nothing.
theorem survey_unplaced (mode : AnnotationMode) (root : Node) :
    survey mode root.unplaced = (survey mode root).unplaced :=
  survey_map Label.quiet_unplaced mode root

end Census

import Census.Proofs.Settings.Said

namespace Census

variable {α : Type}

namespace Override

-- The last value that some overrides have for a field, or the one that was there before.
def latest (field : Override → Option α) (overrides : List Override) (initial : α) : α :=
  (overrides.filterMap field).getLast?.getD initial

theorem latest_concat (field : Override → Option α) (overrides : List Override) (o : Override)
    (initial : α) : latest field (overrides ++ [o]) initial =
      (field o).getD (latest field overrides initial) := by
  rw [latest, List.filterMap_append, List.filterMap_cons, List.filterMap_nil]
  cases field o with
  | none => rw [List.append_nil, Option.getD_none, latest]
  | some a => rw [List.getLast?_concat, Option.getD_some, Option.getD_some]

theorem latest_congr {field field' : Override → Option α} (h : ∀ o, field o = field' o)
    (overrides : List Override) (initial : α) :
    latest field overrides initial = latest field' overrides initial := by
  rw [funext h]

-- A field that every override sets to one value, or that none sets.
theorem latest_some {field : Override → Option α} {a : α} (h : ∀ o, field o = some a)
    (overrides : List Override) (initial : α) :
    latest field overrides initial = if overrides.isEmpty then initial else a := by
  cases overrides using List.reverseRecOn with
  | nil => rfl
  | append_singleton overrides o => simp [latest_concat, h]

theorem latest_none {field : Override → Option α} (h : ∀ o, field o = none)
    (overrides : List Override) (initial : α) : latest field overrides initial = initial := by
  induction overrides using List.reverseRecOn with
  | nil => rfl
  | append_singleton overrides o ih => rw [latest_concat, h, Option.getD_none, ih]

end Override

open Override

-- Settings under several overrides have the last value of each field.
theorem Settings.foldl_overlay {get : Settings → α} {field : Override → Option α}
    {change : Override → Override} (h : ∀ s o, get (s.overlay o) = (field o).getD (get s))
    (s : Settings) (overrides : List Override) :
    get (overrides.foldl (fun s o => s.overlay (change o)) s) =
      latest (fun o => field (change o)) overrides (get s) := by
  induction overrides using List.reverseRecOn with
  | nil => rfl
  | append_singleton overrides o ih =>
      rw [List.foldl_append, List.foldl_cons, List.foldl_nil, h, ih, latest_concat]

-- A defect leaves most fields of an override as they are.
theorem Settings.foldl_overlay_guarded {get : Settings → α} {field : Override → Option α}
    (h : ∀ s o, get (s.overlay o) = (field o).getD (get s))
    (hfield : ∀ o defect, field (o.guarded defect) = field o) (s : Settings)
    (defect : Option String) (overrides : List Override) :
    get (overrides.foldl (fun s o => s.overlay (o.guarded defect)) s) = latest field overrides (get s) :=
  (foldl_overlay h s overrides).trans (latest_congr (hfield · defect) overrides (get s))

namespace DocumentSource

-- What a document says, if it can be read at all. The settings have no part in that.
def said? : DocumentSource → Option Override
  | .text document => Override.said? document
  | .file tree path => ((tree.content? path).bind Text.Utf8.decode?).bind Override.said?

end DocumentSource

namespace SettingsReader

variable {reader : SettingsReader} {source : DocumentSource}

-- What one document does: all that it says is laid over the settings, or nothing happens.
inductive Takes (reader : SettingsReader) (source : DocumentSource) : Prop
  | override (o : Override) (said : source.said? = some o)
      (answer : reader.read source = (.ok (reader.settings.overlay (o.guarded reader.defect)),
        { reader with settings := reader.settings.overlay (o.guarded reader.defect) }))
  | failure (e : DocumentError) (unsaid : source.said? = none)
      (answer : reader.read source = (.error e, reader))

theorem takes (reader : SettingsReader) (source : DocumentSource) : reader.Takes source := by
  have text (document : String) (h : source.said? = Override.said? document)
      (hread : reader.read source = reader.read (.text document)) : reader.Takes source := by
    rw [read, Settings.read] at hread
    rw [← toOption_ofDocument] at h
    cases hdocument : ofDocument document with
    | ok o =>
        rw [hdocument] at h hread
        exact .override o h hread
    | error e =>
        rw [hdocument] at h hread
        exact .failure e h hread
  cases source with
  | text document => exact text document rfl rfl
  | file tree path =>
      cases hcontent : (tree.content? path).bind Text.Utf8.decode? with
      | none =>
          refine .failure .unreadable ?_ ?_
          · rw [DocumentSource.said?, hcontent, Option.bind_none]
          · simp only [read, Settings.readAt, hcontent]
      | some document =>
          refine text document ?_ ?_
          · rw [DocumentSource.said?, hcontent, Option.bind_some]
          · simp only [read, Settings.readAt, hcontent]

theorem toOption_read (reader : SettingsReader) (source : DocumentSource) :
    (reader.read source).1.toOption = source.said?.map fun _ => (reader.read source).2.settings := by
  cases reader.takes source with
  | override o said answer => rw [answer, said]; rfl
  | failure e unsaid answer => rw [answer, unsaid]; rfl

theorem isOk_read (reader : SettingsReader) (source : DocumentSource) :
    (reader.read source).1.isOk = source.said?.isSome := by
  cases reader.takes source with
  | override o said answer => rw [answer, said]; rfl
  | failure e unsaid answer => rw [answer, unsaid]; rfl

theorem readAll_concat (reader : SettingsReader) (sources : List DocumentSource) (source : DocumentSource) :
    reader.readAll (sources ++ [source]) = ((reader.readAll sources).read source).2 := by
  rw [readAll, readAll, List.foldl_append]
  rfl

-- The settings that a sequence of documents leads to: those that could be read are laid over the
-- settings one after another.
theorem readAll_eq (reader : SettingsReader) (sources : List DocumentSource) :
    reader.readAll sources = { reader with
      settings := (sources.filterMap DocumentSource.said?).foldl
        (fun s o => s.overlay (o.guarded reader.defect)) reader.settings } := by
  induction sources using List.reverseRecOn with
  | nil => rfl
  | append_singleton sources source ih =>
      rw [readAll_concat, ih, List.filterMap_append, List.foldl_append]
      generalize (sources.filterMap DocumentSource.said?).foldl
        (fun s o => s.overlay (o.guarded reader.defect)) reader.settings = s
      cases takes { reader with settings := s } source with
      | override o said answer => rw [answer, List.filterMap_cons, said]; rfl
      | failure e unsaid answer => rw [answer, List.filterMap_cons, unsaid]; rfl

-- After a sequence of documents, every field has the value of the last document that could be read
-- and sets it, or the initial value. Where stored results cannot be trusted, the first document that
-- can be read fixes the driver, and the location stays. A document is read, with the settings after
-- it for an answer, exactly if it says something: there is no fault and no bad value in it. Others
-- change nothing: they could have been left out.
theorem readAll_latest (reader : SettingsReader) (sources : List DocumentSource) :
    let overrides := sources.filterMap DocumentSource.said?
    let initial := reader.settings
    let final := (reader.readAll sources).settings
    final.fontFamily = latest (·.fontFamily) overrides initial.fontFamily ∧
    final.fontSize = latest (·.fontSize) overrides initial.fontSize ∧
    final.nesting = latest (·.nesting) overrides initial.nesting ∧
    final.driver = (if reader.defect.isNone then latest (·.driver) overrides initial.driver
      else if overrides.isEmpty then initial.driver else .memory) ∧
    final.location = (if reader.defect.isNone then latest (·.location) overrides initial.location
      else initial.location) ∧
    (∀ earlier source later, sources = earlier ++ source :: later →
      ((reader.readAll earlier).read source).1.toOption =
        source.said?.map fun _ => (reader.readAll (earlier ++ [source])).settings) ∧
    reader.readAll sources = reader.readAll (sources.filter fun source => (reader.read source).1.isOk) := by
  have hkept : (sources.filter fun source => (reader.read source).1.isOk).filterMap
      DocumentSource.said? = sources.filterMap DocumentSource.said? := by
    rw [List.filterMap_filter]
    refine congrArg (sources.filterMap ·) (funext fun source => ?_)
    rw [isOk_read]
    cases source.said? <;> rfl
  have hanswers (earlier : List DocumentSource) (source : DocumentSource) :
      ((reader.readAll earlier).read source).1.toOption =
        source.said?.map fun _ => (reader.readAll (earlier ++ [source])).settings := by
    rw [readAll_concat, toOption_read]
  rw [readAll_eq reader sources, readAll_eq reader (sources.filter _), hkept]
  generalize sources.filterMap DocumentSource.said? = overrides
  refine ⟨?_, ?_, ?_, ?_, ?_, fun earlier source _ _ => hanswers earlier source, rfl⟩
  · exact Settings.foldl_overlay_guarded (fun _ _ => rfl) (fun _ defect => by cases defect <;> rfl) _ _ _
  · exact Settings.foldl_overlay_guarded (fun _ _ => rfl) (fun _ defect => by cases defect <;> rfl) _ _ _
  · exact Settings.foldl_overlay_guarded (fun _ _ => rfl) (fun _ defect => by cases defect <;> rfl) _ _ _
  · refine (Settings.foldl_overlay (fun _ _ => rfl) _ _).trans ?_
    cases reader.defect with
    | none => rfl
    | some reason => exact latest_some (fun _ => rfl) _ _
  · refine (Settings.foldl_overlay (fun _ _ => rfl) _ _).trans ?_
    cases reader.defect with
    | none => rfl
    | some reason => exact latest_none (fun _ => rfl) _ _

-- A document with a wrong end tag and one with a bad number stand between two others. Both begin
-- with good values, and none of them counts.
theorem readAll_latest_failures :
    let reader : SettingsReader := ⟨.standard "/cache", none⟩
    let sources : List DocumentSource := [
      .text "<a><cache><driver>memory</driver></cache><parser><nesting>8</nesting></parser></a>",
      .text "<a><cache><driver>file</driver></cache><parser><nesting>9</nesting></a>",
      .text "<a><parser><nesting>10</nesting><nesting>0</nesting></parser></a>",
      .text "<a><imageConvert><fontFamily> Courier </fontFamily></imageConvert></a>"]
    let final := (reader.readAll sources).settings
    sources.map DocumentSource.said? = [some { driver := some .memory, nesting := some 8 }, none, none,
        some { fontFamily := some "Courier" }] ∧
      final.driver = .memory ∧ final.nesting = 8 ∧ final.fontFamily = "Courier" := by
  intro reader sources final
  obtain ⟨hfamily, -, hnesting, hdriver, -⟩ := readAll_latest reader sources
  have hsaid : sources.map DocumentSource.said? = [some { driver := some .memory, nesting := some 8 },
      none, none, some { fontFamily := some "Courier" }] := by decide +kernel
  have hoverrides : sources.filterMap DocumentSource.said? =
      [{ driver := some .memory, nesting := some 8 }, { fontFamily := some "Courier" }] := by
    rw [← Function.id_comp DocumentSource.said?, ← List.filterMap_map, hsaid]
    rfl
  rw [hoverrides] at hfamily hnesting hdriver
  exact ⟨hsaid, hdriver, hnesting, hfamily⟩

end SettingsReader

end Census

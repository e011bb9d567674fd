import Census.Cache.Document
import Census.Proofs.Cache.Genuine
import Census.Proofs.Registry.RoundTrip

namespace Census

open Json (Value)
open Json.Value

namespace CacheDocument

theorem returns {document : CacheDocument} {path : String} (hpath : document.path = .ofText path)
    (h : document.fragment.Storable) : Returns (toJson path) ofJson? document where
  exact := by
    have hversion : document.version.toNat < wordBound :=
      Nat.lt_trans document.version.toNat_lt (by decide)
    refine .object ?_
    simp only [List.mem_cons, List.not_mem_nil, or_false, forall_eq_or_imp, forall_eq]
    exact ⟨.nat hversion, .string _, .nat document.fingerprint.value.toNat_lt, (Registry.returns h).exact⟩
  back := by
    have hrecord : (document.toJson path).record? ["version", "path", "fingerprint", "fragment"] =
        some [.nat document.version.toNat, .string path,
          .nat document.fingerprint.value.toNat, document.fragment.toJson] :=
      record?_fields rfl (by decide)
    have hversion : (Value.nat document.version.toNat).nat? 0x100000000 = some document.version.toNat :=
      nat?_nat document.version.toNat_lt
    have hfingerprint : (Value.nat document.fingerprint.value.toNat).nat? wordBound =
        some document.fingerprint.value.toNat := nat?_nat document.fingerprint.value.toNat_lt
    rw [ofJson?, hrecord]
    simp only [hversion, hfingerprint, (Registry.returns h).back, string?, Option.bind_eq_bind,
      Option.bind_some, UInt32.ofNat_toNat, UInt64.ofNat_toNat, ← hpath]
    rfl

theorem read?_print {document : CacheDocument} (h : document.fragment.Storable) {text : String}
    (hprint : document.print? = some text) : read? text = some document := by
  obtain ⟨path, hpath, rfl⟩ := print?_eq_some.1 hprint
  exact (returns hpath h).read?_print

theorem isSome_print? (document : CacheDocument) :
    document.print?.isSome ↔ document.path.text?.isSome := by
  rw [print?, Option.isSome_map]

end CacheDocument

-- What is stored comes back: the registry of a file from its own text, and from the text of a
-- document whatever else that says. A document has a text as long as its path is one.
theorem Registry.read?_stored {registry : Registry} (h : registry.Storable) :
    (Value.read? registry.toJson.print).bind Registry.ofJson? = some registry ∧
      ∀ (version : UInt32) (path : Path) (fingerprint : Fingerprint),
        ((CacheDocument.print? ⟨version, path, fingerprint, registry⟩).isSome ↔ path.text?.isSome) ∧
          ∀ text, CacheDocument.print? ⟨version, path, fingerprint, registry⟩ = some text →
            CacheDocument.read? text = some ⟨version, path, fingerprint, registry⟩ :=
  ⟨(Registry.returns h).read?_print, fun _ _ _ => ⟨CacheDocument.isSome_print? _, fun _ =>
    CacheDocument.read?_print h⟩⟩

-- Two namespaces with quotes, escapes, controls and characters beyond the basic plane in their
-- names, and with the greatest numbers there are.
theorem Registry.read?_stored_escapes :
    let registry : Registry := ⟨[
      ("a\"\\b", { name := "other", classes := [⟨"\x00\x1f\n", .classType, "\x7f", ["é", "😀", ""], default⟩] }),
      ("", { name := "", functions := [⟨"f", .function, "", [],
        ⟨⟨0, 1⟩, ⟨0xffffffffffffffff, 0xffffffffffffffff⟩⟩⟩] })]⟩
    let document : CacheDocument := ⟨1, .ofText "/a\t.php", ⟨0xffffffffffffffff⟩, registry⟩
    registry.Storable ∧ document.print?.bind CacheDocument.read? = some document := by
  intro registry document
  have hstorable : registry.Storable := by decide
  obtain ⟨hwritten, hread⟩ := (Registry.read?_stored hstorable).2 1 (.ofText "/a\t.php") ⟨0xffffffffffffffff⟩
  rw [Path.text?_ofText] at hwritten
  obtain ⟨text, htext⟩ := Option.isSome_iff_exists.1 (hwritten.2 rfl)
  refine ⟨hstorable, ?_⟩
  rw [htext, Option.bind_some, hread text htext]

end Census

import Census.Cache.Basic
import Census.Proofs.Files.Names
import Census.Proofs.Registry.Codec
import Census.Script
import Mathlib.Data.Set.Basic

namespace Census

open Json.Value

namespace CacheDocument

theorem print?_eq_some {document : CacheDocument} {text : String} :
    document.print? = some text ↔
      ∃ path, document.path = .ofText path ∧ (document.toJson path).print = text := by
  simp only [print?, Option.map_eq_some_iff, Path.text?_eq_some]

theorem faithful {document : CacheDocument} {path : String} (hpath : document.path = .ofText path)
    (h : document.fragment.Settled) : Faithful (toJson path) ofJson? document where
  plain := by
    refine .object ?_
    simp only [List.mem_cons, List.not_mem_nil, or_false, forall_eq_or_imp, forall_eq]
    exact ⟨.nat _, .string _, .nat _, (Registry.faithful h).plain⟩
  only other hread := by
    have hrecord : (reread (document.toJson path)).record? ["version", "path", "fingerprint", "fragment"] =
        some [reread (.nat document.version.toNat), .string path,
          reread (.nat document.fingerprint.value.toNat), document.fragment.toJson.reread] :=
      record?_reread rfl (by decide)
    rw [ofJson?, hrecord] at hread
    simp only [Option.bind_eq_bind, Option.bind_eq_some_iff] at hread
    obtain ⟨version, hversion, other, hother, fingerprint, hfingerprint, fragment, hfragment,
      hread⟩ := hread
    cases hread
    rw [nat?_reread hversion, (Faithful.ofString _).only _ hother, nat?_reread hfingerprint,
      (Registry.faithful h).only _ hfragment, UInt32.ofNat_toNat, UInt64.ofNat_toNat, ← hpath]

-- Nothing else is read from the text of a document.
theorem eq_of_read?_print {document other : CacheDocument} {text : String}
    (h : document.fragment.Settled) (hprint : document.print? = some text)
    (hread : read? text = some other) : other = document := by
  obtain ⟨path, hpath, rfl⟩ := print?_eq_some.1 hprint
  have hfaithful := faithful hpath h
  have hvalue : Json.Value.read? (document.toJson path).print = some (document.toJson path).reread :=
    hfaithful.plain.read?_print
  rw [read?, hvalue, Option.bind_some] at hread
  exact hfaithful.only other hread

end CacheDocument

variable {key key' : CacheKey} {fragment : Registry}

namespace CacheDirectory

-- A store changes the document in one place, if the new one can be written.
theorem find?_store (directory : CacheDirectory) (key : CacheKey) (fragment : Registry)
    (slot : CacheKey.Slot) : Assoc.find? slot (directory.store key fragment).files =
      if key.slot = slot ∧ directory.writable ∧ key.path.text?.isSome then
        (CacheDocument.ofFragment key fragment).print?
      else Assoc.find? slot directory.files := by
  have hpath : (CacheDocument.ofFragment key fragment).path = key.path := rfl
  rw [store, CacheDocument.print?, hpath]
  cases key.path.text? with
  | none => simp
  | some path =>
      cases directory.writable with
      | false => simp
      | true =>
          by_cases hslot : key.slot = slot
          · simp [hslot, Assoc.insert, Assoc.find?_alter_self]
          · simp [hslot, Assoc.insert, Assoc.find?_alter_of_ne (Ne.symm hslot)]

@[simp] theorem writable_store (directory : CacheDirectory) (key : CacheKey) (fragment : Registry) :
    (directory.store key fragment).writable = directory.writable := by
  rw [store]
  split
  · split <;> rfl
  · rfl

end CacheDirectory

namespace Disk

variable {disk : Disk} {location : String} {directory : CacheDirectory}

theorem directory_setDirectory_self (disk : Disk) (location : String) (directory : CacheDirectory) :
    (disk.setDirectory location directory).directory location = directory := by
  have hfind : Assoc.find? location (Assoc.insert location directory disk.directories) =
      some directory := Assoc.find?_alter_self ..
  rw [Disk.directory, setDirectory, hfind, Option.getD_some]

theorem directory_setDirectory_of_ne {other : String} (h : other ≠ location) :
    (disk.setDirectory location directory).directory other = disk.directory other := by
  have hfind : Assoc.find? other (Assoc.insert location directory disk.directories) =
      Assoc.find? other disk.directories := Assoc.find?_alter_of_ne h ..
  rw [Disk.directory, setDirectory, hfind, Disk.directory]

end Disk

namespace Cache

-- What a cache answers: what it remembers, else what is stored in its directory.
def known (disk : Disk) (key : CacheKey) : Cache → Option Registry
  | .memory entries => entries.lookup key
  | .file location front => (front.lookup key).or ((disk.directory location).lookup key)

theorem lookup_fst (disk : Disk) (key : CacheKey) (cache : Cache) :
    (cache.lookup disk key).1 = cache.known disk key := by
  cases cache with
  | memory entries => rfl
  | file location front =>
      simp only [lookup, known, FileCache.lookup]
      cases front.lookup key with
      | some fragment => rfl
      | none =>
          cases (disk.directory location).lookup key with
          | some fragment => rfl
          | none => rfl

-- A lookup at most remembers what it found.
theorem lookup_snd (disk : Disk) (key : CacheKey) (cache : Cache) :
    (cache.lookup disk key).2 = cache ∨
      ∃ location front fragment, cache = .file location front ∧
        cache.known disk key = some fragment ∧
        (cache.lookup disk key).2 = .file location (front.store key fragment) := by
  cases cache with
  | memory entries => exact .inl rfl
  | file location front =>
      simp only [lookup, known, FileCache.lookup]
      cases front.lookup key with
      | some fragment => exact .inl rfl
      | none =>
          cases (disk.directory location).lookup key with
          | some fragment => exact .inr ⟨location, front, fragment, rfl, rfl, rfl⟩
          | none => exact .inl rfl

-- Keys that take different places do not interfere.
theorem lookup_store_of_slot_ne {entries : MemoryCache} (h : key.slot ≠ key'.slot) :
    (entries.store key fragment).lookup key' = entries.lookup key' := by
  have hsame : ¬ key.Same key' := by
    intro hsame
    have hcomponents : key.path.components = key'.path.components :=
      congrArg CacheKey.Identity.components hsame
    have hmode : key.mode = key'.mode := congrArg CacheKey.Identity.mode hsame
    exact h (by rw [CacheKey.slot, CacheKey.slot, hcomponents, hmode])
  rw [MemoryCache.lookup_store, if_neg hsame]

theorem known_lookup (disk : Disk) (cache : Cache) (h : key.slot ≠ key'.slot) :
    (cache.lookup disk key).2.known disk key' = cache.known disk key' := by
  rcases lookup_snd disk key cache with heq | ⟨location, front, fragment, rfl, -, heq⟩
  · rw [heq]
  · rw [heq, known, known, lookup_store_of_slot_ne h]

theorem known_store (disk : Disk) (cache : Cache) (h : key.slot ≠ key'.slot) :
    (cache.store disk key fragment).1.known (cache.store disk key fragment).2 key' =
      cache.known disk key' := by
  cases cache with
  | memory entries => exact lookup_store_of_slot_ne h
  | file location front =>
      have hdirectory : ((disk.directory location).store key fragment).lookup key' =
          (disk.directory location).lookup key' := by
        rw [CacheDirectory.lookup, CacheDirectory.find?_store, if_neg fun hslot => h hslot.1,
          CacheDirectory.lookup]
      simp only [store, known, FileCache.store, Disk.directory_setDirectory_self,
        lookup_store_of_slot_ne h, hdirectory]

end Cache

section Genuine

variable [ContentHash] {texts : Set String}

-- A fragment is genuine if it is made from a known text with the fingerprint.
def Genuine (texts : Set String) (mode : AnnotationMode) (fingerprint : Fingerprint)
    (fragment : Registry) : Prop :=
  ∃ text ∈ texts, Fingerprint.ofContent text = fingerprint ∧
    ∃ limit root, parse text limit = .ok root ∧ fragment = survey mode root

theorem Genuine.settled {mode : AnnotationMode} {fingerprint : Fingerprint}
    (h : Genuine texts mode fingerprint fragment) : fragment.Settled := by
  obtain ⟨-, -, -, -, root, -, rfl⟩ := h
  exact survey_settled mode root

namespace MemoryCache

variable {cache : MemoryCache}

def Genuine (texts : Set String) (cache : MemoryCache) : Prop :=
  ∀ key fragment, cache.lookup key = some fragment →
    Census.Genuine texts key.mode key.fingerprint fragment

theorem genuine_empty : empty.Genuine texts := nofun

theorem Genuine.store (h : cache.Genuine texts)
    (hf : Census.Genuine texts key.mode key.fingerprint fragment) :
    (cache.store key fragment).Genuine texts := by
  intro key' fragment' hfound
  rw [lookup_store] at hfound
  by_cases hsame : key.Same key'
  · rw [if_pos hsame] at hfound
    have hmode : key.mode = key'.mode := congrArg CacheKey.Identity.mode hsame
    have hfingerprint : key.fingerprint = key'.fingerprint :=
      congrArg CacheKey.Identity.fingerprint hsame
    rw [← hmode, ← hfingerprint, ← Option.some.inj hfound]
    exact hf
  · rw [if_neg hsame] at hfound
    exact h key' fragment' hfound

end MemoryCache

namespace CacheDirectory

variable {directory : CacheDirectory}

-- Every document is that of a genuine fragment, in the place of its key.
def Genuine (texts : Set String) (directory : CacheDirectory) : Prop :=
  ∀ slot text, Assoc.find? slot directory.files = some text →
    ∃ key fragment, key.slot = slot ∧ Census.Genuine texts key.mode key.fingerprint fragment ∧
      (CacheDocument.ofFragment key fragment).print? = some text

theorem genuine_of_files_eq_nil (h : directory.files = []) : directory.Genuine texts := by
  intro slot text hfound
  rw [h] at hfound
  cases hfound

theorem Genuine.of_lookup (h : directory.Genuine texts)
    (hfound : directory.lookup key = some fragment) :
    Census.Genuine texts key.mode key.fingerprint fragment := by
  simp only [lookup, Option.bind_eq_bind, Option.bind_eq_some_iff] at hfound
  obtain ⟨text, htext, document, hdocument, hfound⟩ := hfound
  obtain ⟨key', fragment', hslot, hgenuine, hprint⟩ := h key.slot text htext
  have hsettled : (CacheDocument.ofFragment key' fragment').fragment.Settled := hgenuine.settled
  obtain rfl := CacheDocument.eq_of_read?_print hsettled hprint hdocument
  rw [CacheDocument.fragment?] at hfound
  by_cases hmatch : (CacheDocument.ofFragment key' fragment').version = CacheDocument.currentVersion ∧
      (CacheDocument.ofFragment key' fragment').fingerprint = key.fingerprint ∧
        (CacheDocument.ofFragment key' fragment').path.Same key.path
  · rw [if_pos hmatch] at hfound
    have hfingerprint : key'.fingerprint = key.fingerprint := hmatch.2.1
    have hmode : key'.mode = key.mode := congrArg CacheKey.Slot.mode hslot
    rw [← hmode, ← hfingerprint, ← Option.some.inj hfound]
    exact hgenuine
  · rw [if_neg hmatch] at hfound
    cases hfound

theorem Genuine.store (h : directory.Genuine texts)
    (hf : Census.Genuine texts key.mode key.fingerprint fragment) :
    (directory.store key fragment).Genuine texts := by
  intro slot text hfound
  rw [find?_store] at hfound
  split at hfound
  · rename_i hwritten
    exact ⟨key, fragment, hwritten.1, hf, hfound⟩
  · exact h slot text hfound

end CacheDirectory

namespace Disk

variable {disk : Disk} {location : String} {directory : CacheDirectory}

def Genuine (texts : Set String) (disk : Disk) : Prop :=
  ∀ location, (disk.directory location).Genuine texts

theorem Genuine.setDirectory (h : disk.Genuine texts) (hd : directory.Genuine texts) :
    (disk.setDirectory location directory).Genuine texts := by
  intro other
  by_cases hother : other = location
  · subst hother
    rw [directory_setDirectory_self]
    exact hd
  · rw [directory_setDirectory_of_ne hother]
    exact h other

end Disk

namespace Cache

variable {disk : Disk} {cache : Cache}

def Genuine (texts : Set String) : Cache → Prop
  | .memory entries => entries.Genuine texts
  | .file _ front => front.Genuine texts

theorem genuine_ofSettings (settings : Settings) : (ofSettings settings).Genuine texts := by
  rw [ofSettings]
  split <;> exact MemoryCache.genuine_empty

theorem Genuine.of_known (h : cache.Genuine texts) (hd : disk.Genuine texts)
    (hknown : cache.known disk key = some fragment) :
    Census.Genuine texts key.mode key.fingerprint fragment := by
  cases cache with
  | memory entries => exact h key fragment hknown
  | file location front =>
      rcases Option.or_eq_some_iff.1 hknown with hfront | ⟨-, hstored⟩
      · exact h key fragment hfront
      · exact (hd location).of_lookup hstored

theorem Genuine.lookup (h : cache.Genuine texts) (hd : disk.Genuine texts) :
    (cache.lookup disk key).2.Genuine texts := by
  rcases lookup_snd disk key cache with heq | ⟨location, front, fragment, rfl, hknown, heq⟩
  · rw [heq]
    exact h
  · have hgenuine := h.of_known hd hknown
    rw [heq]
    exact MemoryCache.Genuine.store h hgenuine

theorem Genuine.store (h : cache.Genuine texts) (hd : disk.Genuine texts)
    (hf : Census.Genuine texts key.mode key.fingerprint fragment) :
    (cache.store disk key fragment).1.Genuine texts ∧
      (cache.store disk key fragment).2.Genuine texts := by
  cases cache with
  | memory entries => exact ⟨MemoryCache.Genuine.store h hf, hd⟩
  | file location front =>
      have hdirectory := (hd location).store hf
      exact ⟨MemoryCache.Genuine.store h hf, hd.setDirectory hdirectory⟩

end Cache

end Genuine

end Census

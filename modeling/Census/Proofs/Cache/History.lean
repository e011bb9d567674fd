import Census.Cache.Directory
import Census.Proofs.Cache.Document

namespace Census

theorem MemoryCache.lookup_congr {cache : MemoryCache} {key key' : CacheKey} (h : key.Same key') :
    cache.lookup key = cache.lookup key' := by
  rw [lookup, lookup, show key.identity = key'.identity from h]

theorem CacheKey.slot_eq {key key' : CacheKey} (h : key.Same key') : key.slot = key'.slot := by
  obtain ⟨hcomponents, hmode⟩ : key.path.components = key'.path.components ∧ key.mode = key'.mode :=
    ⟨congrArg Identity.components h, congrArg Identity.mode h⟩
  rw [slot, slot, hcomponents, hmode]

-- The paths of one slot have the same names, so all of them are texts or none is.
theorem CacheKey.isSome_text? {key key' : CacheKey} (h : key.slot = key'.slot) :
    key.path.text?.isSome ↔ key'.path.text?.isSome := by
  have hnames (k : CacheKey) (name : FileName) :
      .name name ∈ k.path.components ↔ .name name ∈ k.slot.components := by
    simp [slot]
  rw [Path.isSome_text?, Path.isSome_text?]
  simp only [hnames, h]

-- Documents of one slot tell keys apart by contents and by paths.
theorem CacheDocument.fragment?_ofFragment {key key' : CacheKey} (h : key.slot = key'.slot)
    (fragment : Registry) :
    (ofFragment key fragment).fragment? key' = if key.Same key' then some fragment else none := by
  have hmode : key.mode = key'.mode := congrArg CacheKey.Slot.mode h
  have hsame : key.Same key' ↔ key.fingerprint = key'.fingerprint ∧ key.path.Same key'.path := by
    simp [CacheKey.Same, CacheKey.identity, Path.Same, hmode, and_comm]
  simp only [fragment?, ofFragment, true_and, hsame]

namespace FileCache

-- What is asked of a cache. A cache is reopened by a new one over its directory.
inductive Request where
  | store (key : CacheKey) (fragment : Registry)
  | lookup (key : CacheKey)
  | reopen
deriving DecidableEq, Repr

-- What was done, with what it brought about.
inductive Event where
  | stored (key : CacheKey) (fragment : Registry)
  | answered (key : CacheKey) (answer? : Option Registry)
  | reopened
deriving DecidableEq, Repr

-- A cache and its past, the newest event first.
structure Run where
  cache : FileCache
  past : List Event
deriving DecidableEq, Repr

namespace Run

def step (run : Run) : Request → Run
  | .store key fragment => ⟨run.cache.store key fragment, .stored key fragment :: run.past⟩
  | .lookup key => ⟨(run.cache.lookup key).2, .answered key (run.cache.lookup key).1 :: run.past⟩
  | .reopen => ⟨run.cache.reopen, .reopened :: run.past⟩

-- Over a directory without documents, which nobody else touches.
def start (writable : Bool) : Run := ⟨⟨.empty, ⟨writable, []⟩⟩, []⟩

def ofRequests (writable : Bool) (requests : List Request) : Run :=
  requests.foldl step (start writable)

end Run

-- What can be told from the past of a cache without a look into it.
section Past

variable (key : CacheKey)

-- The last store under a key that is one of some.
def lastStore (p : CacheKey → Prop) [DecidablePred p] : List Event → Option (CacheKey × Registry)
  | [] => none
  | .stored k fragment :: past => if p k then some (k, fragment) else lastStore p past
  | .answered .. :: past => lastStore p past
  | .reopened :: past => lastStore p past

def lastStored? (past : List Event) : Option Registry := (lastStore (·.Same key) past).map (·.2)

-- The key of the last store for a path and a mode, whatever the content was.
def latest? (past : List Event) : Option CacheKey :=
  (lastStore (fun k => k.path.Same key.path ∧ k.mode = key.mode) past).map (·.1)

-- Whether a key was stored or found after the cache was opened.
def Supplied : List Event → Prop
  | [] => False
  | .stored k _ :: past => k.Same key ∨ Supplied past
  | .answered k answer? :: past => (k.Same key ∧ answer?.isSome) ∨ Supplied past
  | .reopened :: _ => False

-- A memory that was given all that was stored after the cache was opened.
def replayed : List Event → MemoryCache
  | [] => .empty
  | .stored k fragment :: past => (replayed past).store k fragment
  | .answered .. :: past => replayed past
  | .reopened :: _ => .empty

end Past

section Last

variable {p q : CacheKey → Prop} [DecidablePred p] [DecidablePred q] {past : List Event}
  {key : CacheKey} {fragment : Registry}

theorem stored_of_lastStore (h : lastStore p past = some (key, fragment)) :
    .stored key fragment ∈ past ∧ p key := by
  induction past with
  | nil => cases h
  | cons event past ih =>
      cases event with
      | stored k f =>
          rw [lastStore] at h
          split at h
          · rename_i hk
            cases h
            exact ⟨List.mem_cons_self, hk⟩
          · exact ⟨List.mem_cons_of_mem _ (ih h).1, (ih h).2⟩
      | answered | reopened => exact ⟨List.mem_cons_of_mem _ (ih h).1, (ih h).2⟩

-- The last store of many is the last of those few it is one of.
theorem lastStore_of_imp (himp : ∀ k, q k → p k) (h : lastStore p past = some (key, fragment))
    (hq : q key) : lastStore q past = some (key, fragment) := by
  induction past with
  | nil => cases h
  | cons event past ih =>
      cases event with
      | stored k f =>
          rw [lastStore] at h ⊢
          split at h
          · cases h
            rw [if_pos hq]
          · rename_i hk
            rw [if_neg (mt (himp k) hk), ih h]
      | answered | reopened => exact ih h

theorem lastStore_congr (h : ∀ k f, Event.stored k f ∈ past → (p k ↔ q k)) :
    lastStore p past = lastStore q past := by
  induction past with
  | nil => rfl
  | cons event past ih =>
      have hpast := ih fun k f hmem => h k f (List.mem_cons_of_mem _ hmem)
      cases event with
      | stored k f =>
          rw [lastStore, lastStore, hpast]
          simp only [h k f List.mem_cons_self]
      | answered | reopened => exact hpast

end Last

variable {writable : Bool} {run : Run} {key : CacheKey} {fragment : Registry}

namespace Run

-- How a cache hangs together with its past. The memory has what was supplied; the directory
-- has the last store of each slot, as far as that can be written, or nothing at all.
structure Accounted (writable : Bool) (run : Run) : Prop where
  permission : run.cache.directory.writable = writable
  storable : ∀ key fragment, .stored key fragment ∈ run.past → fragment.Storable
  supplied : ∀ key, (run.cache.memory.lookup key).isSome ↔ Supplied key run.past
  recalled : ∀ key fragment, run.cache.memory.lookup key = some fragment →
    lastStored? key run.past = some fragment
  documents : ∀ slot, Assoc.find? slot run.cache.directory.files =
    if writable then (lastStore (·.slot = slot) run.past).bind fun last =>
      (CacheDocument.ofFragment last.1 last.2).print?
    else none
  replayed : writable = false → run.cache.memory = replayed run.past

theorem accounted_start (writable : Bool) : (start writable).Accounted writable where
  permission := rfl
  storable := nofun
  supplied key := by simp [start, Supplied]
  recalled key fragment h := by cases h
  documents slot := by simp [start, lastStore]
  replayed _ := rfl

end Run

namespace Run.Accounted

-- A document answers its own key only, although other contents of its file come to its place.
theorem directory_lookup (h : run.Accounted writable) :
    run.cache.directory.lookup key = some fragment ↔ (writable = true ∧ key.path.text?.isSome) ∧
      ∃ k, lastStore (·.slot = key.slot) run.past = some (k, fragment) ∧ k.Same key := by
  rw [CacheDirectory.lookup, h.documents]
  cases writable with
  | false => simp
  | true =>
      cases hlast : lastStore (·.slot = key.slot) run.past with
      | none => simp
      | some last =>
          obtain ⟨k, f⟩ := last
          obtain ⟨hstored, hslot⟩ := stored_of_lastStore hlast
          have hprinted : (CacheDocument.ofFragment k f).print?.isSome ↔ key.path.text?.isSome :=
            (CacheDocument.isSome_print? _).trans (CacheKey.isSome_text? hslot)
          rw [← hprinted, if_pos rfl, Option.bind_some]
          cases hprint : (CacheDocument.ofFragment k f).print? with
          | none => simp
          | some text =>
              have hread : CacheDocument.read? text = some (CacheDocument.ofFragment k f) :=
                CacheDocument.read?_print (h.storable k f hstored) hprint
              simp only [Option.bind_eq_bind, Option.bind_some, hread,
                CacheDocument.fragment?_ofFragment hslot]
              constructor
              · intro hfound
                obtain ⟨hsame, rfl⟩ : k.Same key ∧ f = fragment := by
                  split at hfound
                  · rename_i hsame
                    exact ⟨hsame, Option.some.inj hfound⟩
                  · cases hfound
                exact ⟨⟨trivial, rfl⟩, k, rfl, hsame⟩
              · rintro ⟨-, k', heq, hsame⟩
                cases heq
                exact if_pos hsame

theorem directory_lookup_eq_none (h : run.Accounted writable) (hno : writable = false) (key : CacheKey) :
    run.cache.directory.lookup key = none := by
  refine Option.eq_none_iff_forall_ne_some.2 fun fragment hfound => ?_
  obtain ⟨⟨hyes, -⟩, -⟩ := h.directory_lookup.1 hfound
  rw [hno] at hyes
  cases hyes

theorem directory_recalled (h : run.Accounted writable)
    (hfound : run.cache.directory.lookup key = some fragment) :
    lastStored? key run.past = some fragment := by
  obtain ⟨-, k, hlast, hsame⟩ := h.directory_lookup.1 hfound
  have hslot (k' : CacheKey) (hk' : k'.Same key) : k'.slot = key.slot := CacheKey.slot_eq hk'
  rw [lastStored?, lastStore_of_imp hslot hlast hsame, Option.map_some]

theorem store (h : run.Accounted writable) (key : CacheKey) (hstorable : fragment.Storable) :
    (run.step (.store key fragment)).Accounted writable where
  permission := by
    rw [← h.permission]
    exact CacheDirectory.writable_store ..
  storable key' fragment' hmem := by
    rcases List.mem_cons.1 hmem with heq | hmem
    · cases heq
      exact hstorable
    · exact h.storable key' fragment' hmem
  supplied key' := by
    rw [Run.step, FileCache.store, Supplied, MemoryCache.lookup_store, ← h.supplied]
    by_cases hsame : key.Same key' <;> simp [hsame]
  recalled key' fragment' hfound := by
    rw [Run.step, FileCache.store, MemoryCache.lookup_store] at hfound
    rw [Run.step, lastStored?, lastStore]
    by_cases hsame : key.Same key'
    · rw [if_pos hsame] at hfound ⊢
      exact hfound
    · rw [if_neg hsame] at hfound ⊢
      exact h.recalled key' fragment' hfound
  documents slot := by
    have hdocuments := h.documents slot
    rw [Run.step, FileCache.store, CacheDirectory.find?_store, h.permission, hdocuments, lastStore]
    cases writable with
    | false => simp
    | true =>
        by_cases hslot : key.slot = slot
        · rw [if_pos hslot, if_pos rfl, if_pos rfl, Option.bind_some]
          split
          · rfl
          · -- No path of the slot is a text, so there was no document before.
            rename_i hpath
            have hnone (k : CacheKey) (hk : k.slot = slot) (f : Registry) :
                (CacheDocument.ofFragment k f).print? = none := by
              rw [← Option.not_isSome_iff_eq_none, CacheDocument.isSome_print?]
              intro htext
              exact hpath ⟨hslot, rfl, (CacheKey.isSome_text? (hk.trans hslot.symm)).1 htext⟩
            rw [hnone key hslot]
            cases hlast : lastStore (·.slot = slot) run.past with
            | none => rfl
            | some last => exact hnone last.1 (stored_of_lastStore hlast).2 last.2
        · rw [if_neg fun hwritten => hslot hwritten.1, if_neg hslot]
  replayed hno := by
    rw [Run.step, FileCache.store, FileCache.replayed, h.replayed hno]

theorem reopen (h : run.Accounted writable) : (run.step .reopen).Accounted writable where
  permission := h.permission
  storable key fragment hmem := by
    rcases List.mem_cons.1 hmem with heq | hmem
    · cases heq
    · exact h.storable key fragment hmem
  supplied key := by simp [Run.step, FileCache.reopen, Supplied]
  recalled key fragment hfound := by cases hfound
  documents := h.documents
  replayed _ := rfl

-- An answer that changes nothing: what was supplied before, or nothing.
theorem answered (h : run.Accounted writable) {answer? : Option Registry}
    (hanswer : answer?.isSome → (run.cache.memory.lookup key).isSome) :
    Accounted writable ⟨run.cache, .answered key answer? :: run.past⟩ where
  permission := h.permission
  storable key' fragment' hmem := h.storable key' fragment' (by simpa using hmem)
  supplied key' := by
    rw [Supplied, ← h.supplied]
    refine ⟨.inr, ?_⟩
    rintro (⟨hsame, hsome⟩ | hfound)
    · rw [← MemoryCache.lookup_congr hsame]
      exact hanswer hsome
    · exact hfound
  recalled := h.recalled
  documents := h.documents
  replayed := h.replayed

-- An answer of the directory, which is remembered.
theorem remembered (h : run.Accounted writable)
    (hfound : run.cache.directory.lookup key = some fragment) :
    Accounted writable ⟨{ run.cache with memory := run.cache.memory.store key fragment },
      .answered key (some fragment) :: run.past⟩ where
  permission := h.permission
  storable key' fragment' hmem := h.storable key' fragment' (by simpa using hmem)
  supplied key' := by
    rw [MemoryCache.lookup_store, Supplied, ← h.supplied]
    by_cases hsame : key.Same key' <;> simp [hsame]
  recalled key' fragment' hfound' := by
    rw [MemoryCache.lookup_store] at hfound'
    by_cases hsame : key.Same key'
    · rw [if_pos hsame] at hfound'
      rw [← hfound', lastStored?, lastStore, ← h.directory_recalled hfound, lastStored?]
      refine congrArg _ (lastStore_congr fun k _ _ => ?_)
      rw [CacheKey.Same, CacheKey.Same, hsame]
    · rw [if_neg hsame] at hfound'
      exact h.recalled key' fragment' hfound'
  documents := h.documents
  replayed hno := by
    rw [h.directory_lookup_eq_none hno] at hfound
    cases hfound

theorem lookup (h : run.Accounted writable) (key : CacheKey) :
    (run.step (.lookup key)).Accounted writable := by
  rw [Run.step, FileCache.lookup]
  cases hmemory : run.cache.memory.lookup key with
  | some fragment => exact h.answered fun _ => by rw [hmemory, Option.isSome_some]
  | none =>
      cases hdirectory : run.cache.directory.lookup key with
      | some fragment => exact h.remembered hdirectory
      | none => exact h.answered fun hsome => absurd hsome Bool.false_ne_true

theorem step (h : run.Accounted writable) {request : Request}
    (hstorable : ∀ key fragment, request = .store key fragment → fragment.Storable) :
    (run.step request).Accounted writable := by
  cases request with
  | store key fragment => exact h.store key (hstorable key fragment rfl)
  | lookup key => exact h.lookup key
  | reopen => exact h.reopen

theorem foldl (h : run.Accounted writable) {requests : List Request}
    (hstorable : ∀ key fragment, .store key fragment ∈ requests → fragment.Storable) :
    (requests.foldl Run.step run).Accounted writable := by
  induction requests generalizing run with
  | nil => exact h
  | cons request requests ih =>
      refine ih (h.step fun key fragment heq => ?_) fun key fragment hmem => ?_
      · exact hstorable key fragment (heq ▸ List.mem_cons_self)
      · exact hstorable key fragment (List.mem_cons_of_mem _ hmem)

end Run.Accounted

theorem Run.accounted_ofRequests (writable : Bool) {requests : List Request}
    (hstorable : ∀ key fragment, .store key fragment ∈ requests → fragment.Storable) :
    (Run.ofRequests writable requests).Accounted writable :=
  (Run.accounted_start writable).foldl hstorable

theorem Run.store_of_step {request : Request} (h : .stored key fragment ∈ (run.step request).past) :
    .stored key fragment ∈ run.past ∨ request = .store key fragment := by
  cases request with
  | store k f =>
      rcases List.mem_cons.1 h with heq | hmem
      · cases heq
        exact .inr rfl
      · exact .inl hmem
  | lookup | reopen =>
      rcases List.mem_cons.1 h with heq | hmem
      · cases heq
      · exact .inl hmem

theorem Run.store_of_stored {requests : List Request}
    (h : .stored key fragment ∈ (requests.foldl Run.step run).past) :
    .stored key fragment ∈ run.past ∨ .store key fragment ∈ requests := by
  induction requests generalizing run with
  | nil => exact .inl h
  | cons request requests ih =>
      rcases ih h with hmem | hmem
      · rcases Run.store_of_step hmem with hmem | rfl
        · exact .inl hmem
        · exact .inr List.mem_cons_self
      · exact .inr (List.mem_cons_of_mem _ hmem)

-- The last store for a path and a mode is the last one of their slot, if no other path has the slot.
theorem Run.latest?_eq {requests : List Request}
    (hslots : ∀ k fragment, .store k fragment ∈ requests → k.slot = key.slot → k.path.Same key.path) :
    latest? key (Run.ofRequests writable requests).past =
      (lastStore (·.slot = key.slot) (Run.ofRequests writable requests).past).map (·.1) := by
  refine congrArg _ (lastStore_congr fun k fragment hstored => ?_)
  have hrequest := (Run.store_of_stored hstored).resolve_left (by simp [Run.start])
  constructor
  · rintro ⟨hpath, hmode⟩
    rw [CacheKey.slot, CacheKey.slot, show k.path.components = key.path.components from hpath, hmode]
  · intro hslot
    exact ⟨hslots k fragment hrequest hslot, congrArg CacheKey.Slot.mode hslot⟩

theorem lookup_eq (cache : FileCache) (key : CacheKey) :
    (cache.lookup key).1 = (cache.memory.lookup key).or (cache.directory.lookup key) := by
  rw [lookup]
  cases cache.memory.lookup key with
  | some fragment => rfl
  | none =>
      cases cache.directory.lookup key with
      | some fragment => rfl
      | none => rfl

-- Whatever is asked of a cache, it is a map of what was stored last, as far as that can still be
-- found: in its memory since it was opened, and in its directory, if the path of the key is a text,
-- until another content of the file is stored.
theorem lookup_ofRequests (writable : Bool) {requests : List Request} (key : CacheKey)
    (hstorable : ∀ k fragment, .store k fragment ∈ requests → fragment.Storable)
    (hslots : ∀ k fragment, .store k fragment ∈ requests → k.slot = key.slot → k.path.Same key.path) :
    let run := Run.ofRequests writable requests
    let answer? := (run.cache.lookup key).1
    (∀ fragment, answer? = some fragment → lastStored? key run.past = some fragment) ∧
      (Supplied key run.past → answer?.isSome) ∧
      (writable = true → ¬Supplied key run.past →
        (answer?.isSome ↔ key.path.text?.isSome ∧ ∃ k, latest? key run.past = some k ∧ k.Same key)) ∧
      (writable = false → answer? = (replayed run.past).lookup key) := by
  intro run answer?
  have haccounted : run.Accounted writable := Run.accounted_ofRequests writable hstorable
  have hanswer : answer? = (run.cache.memory.lookup key).or (run.cache.directory.lookup key) :=
    run.cache.lookup_eq key
  refine ⟨fun fragment hfound => ?_, fun hsupplied => ?_, fun hwritable hnot => ?_, fun hno => ?_⟩
  · rw [hanswer, Option.or_eq_some_iff] at hfound
    rcases hfound with hmemory | ⟨-, hdirectory⟩
    · exact haccounted.recalled key fragment hmemory
    · exact haccounted.directory_recalled hdirectory
  · rw [hanswer, Option.isSome_or, (haccounted.supplied key).2 hsupplied, Bool.true_or]
  · have hmemory : run.cache.memory.lookup key = none := by
      rw [← Option.not_isSome_iff_eq_none, haccounted.supplied]
      exact hnot
    rw [hanswer, hmemory, Option.none_or, Run.latest?_eq hslots, Option.isSome_iff_exists]
    constructor
    · rintro ⟨fragment, hfound⟩
      obtain ⟨⟨-, htext⟩, k, hlast, hsame⟩ := haccounted.directory_lookup.1 hfound
      exact ⟨htext, k, by rw [hlast, Option.map_some], hsame⟩
    · rintro ⟨htext, k, hkey, hsame⟩
      obtain ⟨⟨k', fragment⟩, hlast, rfl⟩ := Option.map_eq_some_iff.1 hkey
      exact ⟨fragment, haccounted.directory_lookup.2 ⟨⟨hwritable, htext⟩, k', hlast, hsame⟩⟩
  · rw [hanswer, haccounted.directory_lookup_eq_none hno, Option.or_none, haccounted.replayed hno]

-- What is stored for a path that is no text is lost when the cache is opened again, although it
-- was stored last.
theorem lookup_reopened_eq_none :
    let key : CacheKey := ⟨⟨[Path.slash, 0xff]⟩, ⟨1⟩, .heeded⟩
    let run := Run.ofRequests true [.store key .empty, .reopen]
    ¬Supplied key run.past ∧ latest? key run.past = some key ∧ (run.cache.lookup key).1 = none :=
  ⟨id, by decide, by decide⟩

-- Two contents of one file take turns in a directory. After the cache is opened again, only the
-- last one is found, under whatever spelling of the path.
theorem lookup_ofRequests_turns :
    let first : CacheKey := ⟨.ofText "/a.php", ⟨1⟩, .heeded⟩
    let second : CacheKey := ⟨.ofText "//a.php", ⟨2⟩, .heeded⟩
    let requests : List Request := [.store first ⟨[("a", { name := "a" })]⟩, .reopen, .lookup first,
      .store second .empty, .reopen]
    let run := Run.ofRequests true requests
    (run.cache.lookup first).1 = none ∧ (run.cache.lookup second).1 = some .empty := by
  intro first second requests run
  have hstores {k : CacheKey} {fragment : Registry} (hmem : .store k fragment ∈ requests) :
      (k = first ∧ fragment = ⟨[("a", { name := "a" })]⟩) ∨ (k = second ∧ fragment = .empty) := by
    simpa [requests] using hmem
  have hstorable : ∀ k fragment, .store k fragment ∈ requests → fragment.Storable := by
    intro k fragment hmem
    obtain ⟨-, rfl⟩ | ⟨-, rfl⟩ := hstores hmem
    all_goals decide
  have hslots : ∀ k fragment, .store k fragment ∈ requests → k.path.Same first.path := by
    intro k fragment hmem
    obtain ⟨rfl, -⟩ | ⟨rfl, -⟩ := hstores hmem
    all_goals decide +kernel
  have hpaths : first.path.Same second.path := by decide +kernel
  obtain ⟨-, -, hfirst, -⟩ := lookup_ofRequests true first hstorable fun k f hk _ => hslots k f hk
  obtain ⟨hlast, -, hsecond, -⟩ :=
    lookup_ofRequests true second hstorable fun k f hk _ => (hslots k f hk).trans hpaths
  have hlatest : latest? first run.past = some second ∧ latest? second run.past = some second := by
    decide +kernel
  refine ⟨?_, ?_⟩
  · rw [← Option.not_isSome_iff_eq_none]
    intro hfound
    obtain ⟨-, k, hk, hsame⟩ := (hfirst rfl id).1 hfound
    rw [hlatest.1] at hk
    cases hk
    exact absurd (congrArg CacheKey.Identity.fingerprint hsame) (by decide)
  · have htext : second.path.text?.isSome := by rw [Path.text?_ofText, Option.isSome_some]
    obtain ⟨fragment, hfound⟩ :=
      Option.isSome_iff_exists.1 ((hsecond rfl id).2 ⟨htext, second, hlatest.2, rfl⟩)
    rw [hfound, ← hlast fragment hfound]
    decide +kernel

end FileCache

end Census

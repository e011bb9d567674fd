import Census.Grammar.File
import Census.Proofs.Grammar.Builds
import Census.Proofs.Tree.Schema
import Census.Proofs.Tree.Turns

namespace Census

-- What names are made of.
def TokenKind.isWord (kind : TokenKind) : Bool := kind.isName || kind = .symbol .backslash

-- The nodes of which nothing more is asked than the right children.
def NodeKind.isPlain (kind : NodeKind) : Bool :=
  !kind.isNamed && !kind.isDocumented && !kind.isVerbatim && kind != .conditional &&
    kind != .tryStatement

-- The nodes that show a name and have more to them than this name, but no documentation.
def NodeKind.isLabel (kind : NodeKind) : Bool :=
  kind.isNamed && !kind.isDocumented && !kind.isVerbatim

-- The nodes that show a name as it was written, perhaps with a separator in front. The others do
-- without that separator.
def NodeKind.refers : NodeKind → Bool
  | .parentClass | .implementedInterface | .identifier => true
  | _ => false

namespace Grammar

variable {ts : List Terminal} {b b' i j k : Nat} {o : Outline} {d base : Draft}
  {takes : NodeKind → Bool} {ds es : List Draft} {slots : List Slot}

def WordAt (ts : List Terminal) (k : Nat) : Prop :=
  ∃ kind, kindAt ts k = some kind ∧ kind.isWord = true

def NameAt (ts : List Terminal) (k : Nat) : Prop :=
  ∃ kind, kindAt ts k = some kind ∧ kind.isName = true

theorem NameAt.word (h : NameAt ts k) : WordAt ts k := by
  obtain ⟨kind, hkind, hname⟩ := h
  exact ⟨kind, hkind, by rw [TokenKind.isWord, hname, Bool.true_or]⟩

-- Nothing but words stands from one terminal to another.
def WordsAt (ts : List Terminal) (first last : Nat) : Prop :=
  ∀ k, first ≤ k → k ≤ last → WordAt ts k

namespace WordsAt

theorem single (h : WordAt ts i) : WordsAt ts i i := fun _ hle hle' => Nat.le_antisymm hle' hle ▸ h

theorem succ (h : WordsAt ts i j) (hword : WordAt ts (j + 1)) : WordsAt ts i (j + 1) := by
  intro k hle hk
  rcases Nat.le_or_eq_of_le_succ hk with hk | rfl
  · exact h k hle hk
  · exact hword

theorem mono (h : WordsAt ts i k) (hij : i ≤ j) : WordsAt ts j k :=
  fun m hm => h m (Nat.le_trans hij hm)

end WordsAt

-- An image without any other tokens than the parts of names. It begins with a name, unless it
-- shows what was written; then there is a name in it.
def Image.Wordy (ts : List Terminal) (written : Bool) : Image → Prop
  | .none => written = false
  | .pieces tokens => (∀ k ∈ tokens, WordAt ts k) ∧
      ∃ k ∈ tokens, NameAt ts k ∧ (written = false → tokens.head? = some k)
  | .lowered _ => False

theorem WordsAt.wordy {written : Bool} {first last : Nat} (h : WordsAt ts first last)
    (hle : first ≤ k) (hle' : k ≤ last) (hname : NameAt ts k) (hfirst : written = false → first = k) :
    (Image.tokens first last).Wordy ts written := by
  refine ⟨fun m hm => ?_, k, List.mem_range'_1.2 (by omega), hname, fun hwritten => ?_⟩
  · rw [List.mem_range'_1] at hm
    exact h m hm.1 (by omega)
  · rw [← hfirst hwritten, show last + 1 - first = (last - first) + 1 by omega]
    rfl

theorem NameAt.wordy {written : Bool} (h : NameAt ts i) : Image.Wordy ts written (.tokens i i) :=
  WordsAt.wordy (.single h.word) (Nat.le_refl i) (Nat.le_refl i) h fun _ => rfl

-- The image of a conditional, which tells whether it has a first branch.
def Image.Chooses (ts : List Terminal) (image : Image) (children : Nat) : Prop :=
  ∃ q, kindAt ts q = some (.symbol .question) ∧
    (image = .tokens q q ∧ children = 3 ∨
      image = .tokens q (q + 1) ∧ kindAt ts (q + 1) = some (.symbol .colon) ∧ children = 2)

-- Where the documentation of a node comes from: from the token at which it begins, unless a
-- comma in front of it tells that it is not the first that is declared there.
inductive Documents (ts : List Terminal) (o : Outline) : Prop
  | never (kind : o.kind.isDocumented = false) (doc : o.doc = none)
  | always (kind : (o.kind.isDocumented && !o.kind.isListed) = true) (doc : o.doc = some o.first)
  | leading (kind : o.kind.isListed = true) (doc : o.doc = some o.first) (fresh : Fresh ts o.first)
  | following (kind : o.kind.isListed = true) (doc : o.doc = none)
      (comma : ∃ k, k + 1 = o.first ∧ kindAt ts k = some (.symbol .comma))

-- A node that shows all the tokens that it reaches over. A variable and a literal are one token,
-- and the kind of a literal is that of its token.
structure Outline.Verbatim (ts : List Terminal) (o : Outline) : Prop where
  image : o.image = .tokens o.first o.last
  variable_ : o.kind = .variableName → o.last = o.first ∧ kindAt ts o.first = some .variableName
  literal : ∀ sort, o.kind = .literal sort → o.last = o.first ∧
    ∃ kind, kindAt ts o.first = some kind ∧ Parser.literalKind? kind = some sort

-- What a node with this many children shows, besides their kinds.
structure Marks (ts : List Terminal) (o : Outline) (children : Nat) : Prop where
  name : o.kind.isNamed = true → o.image.Wordy ts o.kind.refers
  text : o.kind.isVerbatim = true → o.Verbatim ts
  choice : o.kind = .conditional → o.image.Chooses ts children
  guarded : o.kind = .tryStatement → 1 < children
  doc : Documents ts o

namespace Marks

variable {children : Nat}

theorem plain (h : (o.doc.isNone && o.kind.isPlain) = true) : Marks ts o children := by
  simp only [NodeKind.isPlain, Bool.and_eq_true, Bool.not_eq_true', bne_iff_ne,
    Option.isNone_iff_eq_none] at h
  obtain ⟨hdoc, ⟨⟨⟨hnamed, hdocumented⟩, hverbatim⟩, hchoice⟩, htry⟩ := h
  exact ⟨fun hn => by simp [hnamed] at hn, fun hv => by simp [hverbatim] at hv,
    fun hc => absurd hc hchoice, fun ht => absurd ht htry, .never hdocumented hdoc⟩

theorem named (hname : o.image.Wordy ts o.kind.refers) (h : (o.doc.isNone && o.kind.isLabel) = true) :
    Marks ts o children := by
  simp only [NodeKind.isLabel, Bool.and_eq_true, Bool.not_eq_true', Option.isNone_iff_eq_none] at h
  obtain ⟨hdoc, ⟨hnamed, hdocumented⟩, hverbatim⟩ := h
  exact ⟨fun _ => hname, fun hv => by simp [hverbatim] at hv,
    fun hc => by simp [hc, NodeKind.isNamed] at hnamed,
    fun ht => by simp [ht, NodeKind.isNamed] at hnamed, .never hdocumented hdoc⟩

theorem verbatim (htext : o.Verbatim ts) (hname : o.kind.isNamed = true → o.image.Wordy ts o.kind.refers)
    (h : (o.doc.isNone && o.kind.isVerbatim) = true) : Marks ts o children := by
  simp only [Bool.and_eq_true, Option.isNone_iff_eq_none] at h
  obtain ⟨hdoc, hverbatim⟩ := h
  have hdocumented : o.kind.isDocumented = false := by
    cases hdocumented : o.kind.isDocumented with
    | false => rfl
    | true => exact hverbatim.symm.trans (NodeKind.isVerbatim_of_isDocumented hdocumented)
  exact ⟨hname, fun _ => htext, fun hc => by simp [hc, NodeKind.isVerbatim] at hverbatim,
    fun ht => by simp [ht, NodeKind.isVerbatim] at hverbatim, .never hdocumented hdoc⟩

theorem variable_ (h : kindAt ts i = some .variableName) :
    Marks ts (Draft.leaf .variableName i).label children :=
  .verbatim ⟨rfl, fun _ => ⟨rfl, h⟩, nofun⟩ nofun rfl

theorem literal {kind : TokenKind} {sort : LiteralKind} (h : kindAt ts i = some kind)
    (hsort : Parser.literalKind? kind = some sort) :
    Marks ts (Draft.leaf (.literal sort) i).label children := by
  refine .verbatim ⟨rfl, nofun, fun sort' hkind => ⟨rfl, kind, h, ?_⟩⟩ nofun rfl
  obtain rfl := NodeKind.literal.inj hkind
  exact hsort

theorem word (h : NameAt ts i) : Marks ts (Draft.leaf .identifier i).label children :=
  .verbatim ⟨rfl, nofun, nofun⟩ (fun _ => h.wordy) rfl

theorem declares (hname : o.kind.isNamed = true → o.image.Wordy ts o.kind.refers) (hdoc : Documents ts o)
    (h : o.kind.isDocumented = true) : Marks ts o children :=
  ⟨hname, fun hv => by simp [NodeKind.isVerbatim_of_isDocumented h] at hv,
    fun hc => by simp [hc, NodeKind.isDocumented] at h,
    fun ht => by simp [ht, NodeKind.isDocumented] at h, hdoc⟩

theorem chooses (hchoice : o.image.Chooses ts children)
    (h : (o.doc.isNone && o.kind = .conditional) = true) : Marks ts o children := by
  simp only [Bool.and_eq_true, decide_eq_true_eq, Option.isNone_iff_eq_none] at h
  obtain ⟨hdoc, hkind⟩ := h
  exact ⟨fun hn => by simp [hkind, NodeKind.isNamed] at hn,
    fun hv => by simp [hkind, NodeKind.isVerbatim] at hv, fun _ => hchoice,
    fun ht => by simp [hkind] at ht, .never (by rw [hkind]; rfl) hdoc⟩

theorem guards (hmore : 1 < children) (h : (o.doc.isNone && o.kind = .tryStatement) = true) :
    Marks ts o children := by
  simp only [Bool.and_eq_true, decide_eq_true_eq, Option.isNone_iff_eq_none] at h
  obtain ⟨hdoc, hkind⟩ := h
  exact ⟨fun hn => by simp [hkind, NodeKind.isNamed] at hn,
    fun hv => by simp [hkind, NodeKind.isVerbatim] at hv, fun hc => by simp [hkind] at hc,
    fun _ => hmore, .never (by rw [hkind]; rfl) hdoc⟩

end Marks

def Draft.kinds (ds : List Draft) : List NodeKind := ds.map (·.label.kind)

-- Drafts that keep to the schema everywhere, and that take at most `b` turns.
inductive Formed (ts : List Terminal) : Nat → Draft → Prop
  | node {b : Nat} {o : Outline} {ds : List Draft} (marks : Marks ts o ds.length)
      (fit : Slot.Fit o.kind.slots (Draft.kinds ds)) (below : ∀ d ∈ ds, Formed ts b d) :
      Formed ts (b + 1) ⟨o, ds⟩
  | wrap {b : Nat} {o : Outline} {base : Draft} {ds : List Draft} (wraps : o.kind.wraps = true)
      (marks : Marks ts o (ds.length + 1))
      (fit : Slot.Fit o.kind.slots (base.label.kind :: Draft.kinds ds))
      (first : Formed ts (b + 1) base) (below : ∀ d ∈ ds, Formed ts b d) :
      Formed ts (b + 1) ⟨o, base :: ds⟩

namespace Formed

theorem mono (h : Formed ts b d) (hb : b ≤ b') : Formed ts b' d := by
  induction h generalizing b' with
  | node marks fit _ ih =>
      obtain ⟨b', rfl⟩ := Nat.exists_eq_add_of_lt hb
      exact .node marks fit fun d hd => ih d hd (by omega)
  | wrap wraps marks fit _ _ first ih =>
      obtain ⟨b', rfl⟩ := Nat.exists_eq_add_of_lt hb
      exact .wrap wraps marks fit (first (by omega)) fun d hd => ih d hd (by omega)

theorem turns_le (h : Formed ts b d) : d.turns (·.kind.wraps) ≤ b := by
  induction h with
  | node _ _ _ ih => exact Tree.turns_node_le ih
  | wrap wraps _ _ _ _ first ih => exact Tree.turns_wrap_le (by exact wraps) first ih

-- What is asked of a draft itself.
theorem own (h : Formed ts b d) : Marks ts d.label d.children.length ∧
    Slot.Fit d.label.kind.slots (Draft.kinds d.children) := by
  cases h with
  | node marks fit _ => exact ⟨marks, fit⟩
  | wrap _ marks fit _ _ => exact ⟨marks, fit⟩

theorem child (h : Formed ts b d) : ∀ c ∈ d.children, Formed ts b c := by
  cases h with
  | node _ _ below => exact fun c hc => (below c hc).mono (Nat.le_succ _)
  | wrap _ _ _ first below =>
      exact List.forall_mem_cons.2 ⟨first, fun c hc => (below c hc).mono (Nat.le_succ _)⟩

end Formed

-- A draft of one of the kinds that a place takes.
structure Sound (ts : List Terminal) (b : Nat) (takes : NodeKind → Bool) (d : Draft) : Prop where
  formed : Formed ts b d
  kind : takes d.label.kind = true

def SoundAll (ts : List Terminal) (b : Nat) (takes : NodeKind → Bool) (ds : List Draft) : Prop :=
  ∀ d ∈ ds, Sound ts b takes d

theorem Sound.mono (h : Sound ts b takes d) (hb : b ≤ b') : Sound ts b' takes d :=
  ⟨h.formed.mono hb, h.kind⟩

theorem Sound.of_only {kind : NodeKind} (h : Sound ts b (NodeKind.only kind) d)
    (hkind : takes kind = true) : Sound ts b takes d :=
  ⟨h.formed, of_decide_eq_true h.kind ▸ hkind⟩

namespace SoundAll

theorem nil : SoundAll ts b takes [] := nofun

theorem mono (h : SoundAll ts b takes ds) (hb : b ≤ b') : SoundAll ts b' takes ds :=
  fun d hd => (h d hd).mono hb

theorem append (h : SoundAll ts b takes ds) (h' : SoundAll ts b takes es) :
    SoundAll ts b takes (ds ++ es) := List.forall_mem_append.2 ⟨h, h'⟩

theorem single (h : Sound ts b takes d) : SoundAll ts b takes [d] := List.forall_mem_singleton.2 h

end SoundAll

-- Drafts that fill the slots of their parent.
structure Fills (ts : List Terminal) (b : Nat) (slots : List Slot) (ds : List Draft) : Prop where
  fit : Slot.Fit slots (Draft.kinds ds)
  formed : ∀ d ∈ ds, Formed ts b d

namespace Fills

theorem nil : Fills ts b [] [] := ⟨rfl, nofun⟩

theorem row {slot : Slot} (hcount : slot.count.Allows ds.length) (h : SoundAll ts b slot.takes ds)
    (rest : Fills ts b slots es) : Fills ts b (slot :: slots) (ds ++ es) := by
  refine ⟨?_, List.forall_mem_append.2 ⟨fun d hd => (h d hd).formed, rest.formed⟩⟩
  rw [Draft.kinds, List.map_append]
  refine .row (by rwa [List.length_map]) (fun kind hkind => ?_) rest.fit
  obtain ⟨d, hd, rfl⟩ := List.mem_map.1 hkind
  exact (h d hd).kind

theorem one (h : Sound ts b takes d) (rest : Fills ts b slots es) :
    Fills ts b (.one takes :: slots) (d :: es) :=
  show Fills ts b _ ([d] ++ es) from row rfl (.single h) rest

theorem optional {o : Option Draft} (h : SoundAll ts b takes o.toList)
    (rest : Fills ts b slots es) : Fills ts b (.optional takes :: slots) (o.toList ++ es) :=
  row (by cases o <;> simp [Slot.optional, Count.Allows]) h rest

theorem many (h : SoundAll ts b takes ds) (rest : Fills ts b slots es) :
    Fills ts b (.many takes :: slots) (ds ++ es) := row trivial h rest

theorem some (h : SoundAll ts b takes ds) (hne : ds ≠ []) (rest : Fills ts b slots es) :
    Fills ts b (.some takes :: slots) (ds ++ es) := row (List.length_pos_iff.2 hne) h rest

-- A child that may be left out stands there, or it is left out.
theorem given (h : Sound ts b takes d) (rest : Fills ts b slots es) :
    Fills ts b (.optional takes :: slots) (d :: es) :=
  show Fills ts b _ ([d] ++ es) from row (Nat.le_refl 1) (.single h) rest

theorem without (rest : Fills ts b slots es) : Fills ts b (.optional takes :: slots) es :=
  show Fills ts b (.optional takes :: slots) ([] ++ es) from row (Nat.zero_le 1) .nil rest

-- The last row ends the list.
theorem last (h : Fills ts b slots (ds ++ [])) : Fills ts b slots ds := by
  rwa [List.append_nil] at h

theorem mono (h : Fills ts b slots ds) (hb : b ≤ b') : Fills ts b' slots ds :=
  ⟨h.fit, fun d hd => (h.formed d hd).mono hb⟩

end Fills

namespace Sound

theorem node (marks : Marks ts o ds.length) (h : Fills ts b o.kind.slots ds)
    (hkind : takes o.kind = true) : Sound ts (b + 1) takes ⟨o, ds⟩ :=
  ⟨.node marks h.fit h.formed, hkind⟩

theorem plain (hplain : (o.doc.isNone && o.kind.isPlain) = true) (h : Fills ts b o.kind.slots ds)
    (hkind : takes o.kind = true) : Sound ts (b + 1) takes ⟨o, ds⟩ := node (.plain hplain) h hkind

theorem wrap {takesBase : NodeKind → Bool} (hplain : (o.doc.isNone && o.kind.isPlain) = true)
    (hwraps : o.kind.wraps = true) (hslots : o.kind.slots = .one takesBase :: slots)
    (hbase : Sound ts (b + 1) takesBase base) (h : Fills ts b slots ds) (hkind : takes o.kind = true) :
    Sound ts (b + 1) takes ⟨o, base :: ds⟩ := by
  have hfit : Slot.Fit o.kind.slots (base.label.kind :: Draft.kinds ds) := by
    rw [hslots]
    exact ⟨[base.label.kind], _, rfl, rfl, List.forall_mem_singleton.2 hbase.kind, h.fit⟩
  exact ⟨.wrap hwraps (.plain hplain) hfit hbase.formed h.formed, hkind⟩

-- A node without children.
theorem bare (marks : Marks ts o 0) (hslots : o.kind.slots = []) (hkind : takes o.kind = true) :
    Sound ts (b + 1) takes ⟨o, []⟩ := node marks (hslots ▸ .nil) hkind

end Sound

-- Nothing but opening parentheses stands from `i` on in front of `first`.
structure Opened (ts : List Terminal) (i first : Nat) : Prop where
  le : i ≤ first
  parens : ∀ k, i ≤ k → k < first → kindAt ts k = some (.symbol .leftParen)

-- Nothing but closing parentheses and braces stands behind `last` in front of `j`.
structure Closed (ts : List Terminal) (last j : Nat) : Prop where
  lt : last < j
  closers : ∀ k, last < k → k < j →
    kindAt ts k = some (.symbol .rightParen) ∨ kindAt ts k = some (.symbol .rightBrace)

theorem Opened.refl : Opened ts i i := ⟨Nat.le_refl i, fun k h h' => by omega⟩

theorem Opened.paren (h : Opened ts (i + 1) k) (hi : kindAt ts i = some (.symbol .leftParen)) :
    Opened ts i k := by
  refine ⟨Nat.le_of_succ_le h.le, fun m hm hlt => ?_⟩
  rcases Nat.eq_or_lt_of_le hm with rfl | hm
  · exact hi
  · exact h.parens m hm hlt

theorem Closed.succ : Closed ts i (i + 1) := ⟨Nat.lt_succ_self i, fun k h h' => by omega⟩

theorem Closed.closer (h : Closed ts k j)
    (hj : kindAt ts j = some (.symbol .rightParen) ∨ kindAt ts j = some (.symbol .rightBrace)) :
    Closed ts k (j + 1) := by
  refine ⟨Nat.lt_succ_of_lt h.lt, fun m hm hlt => ?_⟩
  rcases Nat.eq_or_lt_of_le (Nat.le_of_lt_succ hlt) with rfl | hlt
  · exact hj
  · exact h.closers m hm hlt

-- A draft that reaches from the first to the last of the tokens that were taken for it.
structure Whole (ts : List Terminal) (b : Nat) (takes : NodeKind → Bool) (i j : Nat) (d : Draft) : Prop
    extends Sound ts b takes d where
  first : d.first = i
  last : d.last + 1 = j

-- A draft that ends as a statement does, and begins with the first token that was taken for it.
structure Ended (ts : List Terminal) (b : Nat) (takes : NodeKind → Bool) (i j : Nat) (d : Draft) : Prop
    extends Sound ts b takes d where
  first : d.first = i
  stops : Stops ts d.last j

-- A draft that leaves out parentheses around its ends.
structure Within (ts : List Terminal) (b : Nat) (takes : NodeKind → Bool) (i j : Nat) (d : Draft) : Prop
    extends Sound ts b takes d where
  opened : Opened ts i d.first
  closed : Closed ts d.last j

theorem Whole.leaf {kind : NodeKind} (marks : Marks ts (Draft.leaf kind i).label 0)
    (hslots : kind.slots = []) (hkind : takes kind = true) :
    Whole ts (b + 1) takes i (i + 1) (Draft.leaf kind i) :=
  ⟨.bare marks hslots hkind, rfl, rfl⟩

theorem Whole.mono (h : Whole ts b takes i j d) (hb : b ≤ b') : Whole ts b' takes i j d :=
  ⟨h.toSound.mono hb, h.first, h.last⟩

theorem Whole.within (h : Whole ts b takes i j d) : Within ts b takes i j d :=
  ⟨h.toSound, h.first ▸ .refl, h.last ▸ .succ⟩

theorem Within.mono (h : Within ts b takes i j d) (hb : b ≤ b') : Within ts b' takes i j d :=
  ⟨h.toSound.mono hb, h.opened, h.closed⟩

end Grammar

end Census

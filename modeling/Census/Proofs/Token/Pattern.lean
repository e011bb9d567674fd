import Census.Proofs.Token.Quoted
import Census.Proofs.Token.Written
import Mathlib.Computability.Language
import Mathlib.Data.Nat.Find

namespace Census

open Text Scan Computability

-- What the lexer looks for where a token of code begins, each with the texts that it fits.
-- Quotes, comments and heredocs are looked for by what opens them.
inductive Opener where
  | slashes | hash | blockComment | docComment | singleQuote | doubleQuote | heredoc
deriving DecidableEq, Repr

namespace Opener

def text : Opener → String
  | .slashes => "//"
  | .hash => "#"
  | .blockComment => "/*"
  | .docComment => "/**"
  | .singleQuote => "'"
  | .doubleQuote => "\""
  | .heredoc => "<<<"

def kind : Opener → TokenKind
  | .slashes | .hash => .lineComment
  | .blockComment => .blockComment
  | .docComment => .docComment
  | .singleQuote | .doubleQuote | .heredoc => .string

-- What is found behind an opener, in the text that follows it. A doc comment that a slash closes
-- at once is complete.
def read (o : Opener) (more : List Char) : Found :=
  let comment : Found :=
    (seek (startsWith "*/") more).elim (.unterminated .commentEnd) fun n =>
      .token o.kind (o.text.length + n + 2)
  let quoted (quote : Char) (closer : Closer) : Found :=
    (quotedLength quote more).elim (.unterminated closer) fun n => .token o.kind (o.text.length + n)
  match o with
  | .slashes | .hash => .token o.kind (o.text.length + lineCommentLength more)
  | .blockComment => comment
  | .docComment => if startsWith "/" more then .token o.kind (o.text.length + 1) else comment
  | .singleQuote => quoted '\'' .singleQuote
  | .doubleQuote => quoted '"' .doubleQuote
  | .heredoc => Scan.heredoc (o.text.toList ++ more)

end Opener

inductive Pattern where
  | opener (o : Opener)
  | closeTag
  | symbol (text : String) (s : Symbol) (spelled : (text, s) ∈ Symbol.spellings)
  | keyword (k : Keyword)
  | variableName | identifier | hexadecimal | binary | decimal | pointed | scaled | fraction

namespace Pattern

def one (p : Char → Bool) : Language Char := {cs | ∃ c, p c = true ∧ cs = [c]}

def many (p : Char → Bool) : Language Char := (one p)∗

def several (p : Char → Bool) : Language Char := one p * many p

def exactly (text : String) : Language Char := {text.toList}

def name : Language Char := one isNameStart * many isNamePart

def digits : Language Char := several Char.isDigit

def exponent : Language Char :=
  one (fun c => c = 'e' || c = 'E') * ((1 + one fun c => c = '+' || c = '-') * digits)

-- A number in another base, marked by a letter in any casing.
def based (mark : Char) (isDigit : Char → Bool) : Language Char :=
  exactly "0" * (one (fun c => c = mark || c = mark.toUpper) * several isDigit)

-- The header of a heredoc, behind its opener.
def header : Language Char :=
  many isIndent * (name + exactly "'" * (name * exactly "'") + exactly "\"" * (name * exactly "\""))

-- The texts that a pattern fits.
def language : Pattern → Language Char
  | .opener o => exactly o.text
  | .closeTag => exactly "?>"
  | .symbol text _ _ => exactly text
  | .keyword k => {cs | cs.map Char.toLower = k.word.toList}
  | .variableName => exactly "$" * name
  | .identifier => name
  | .hexadecimal => based 'x' isHexDigit
  | .binary => based 'b' fun c => c = '0' || c = '1'
  | .decimal => digits
  | .pointed => digits * (exactly "." * (many Char.isDigit * (1 + exponent)))
  | .scaled => digits * exponent
  | .fraction => exactly "." * (digits * (1 + exponent))

-- Patterns for single texts, which go before the others when they fit a text of the same length.
def isLiteral : Pattern → Bool
  | .opener _ | .closeTag | .symbol .. | .keyword _ => true
  | _ => false

def kind : Pattern → TokenKind
  | .opener o => o.kind
  | .closeTag => .closeTag
  | .symbol _ s _ => .symbol s
  | .keyword k => .keyword k
  | .variableName => .variableName
  | .identifier => .identifier
  | .hexadecimal | .binary | .decimal => .integer
  | .pointed | .scaled | .fraction => .float

-- What is found by a pattern that fits `text`, in front of `more`. Only openers look at that.
def read (p : Pattern) (text more : List Char) : Found :=
  match p with
  | .opener o => o.read more
  | p => .token p.kind text.length

-- A pattern fits the beginning `text` of a text `cs`.
structure Fits (p : Pattern) (cs text : List Char) : Prop where
  mem : text ∈ p.language
  nonempty : text ≠ []
  front : text <+: cs

-- No other pattern fits more of the text, and a literal goes before another pattern that fits
-- as much.
structure Longest (p : Pattern) (cs text : List Char) : Prop where
  fits : p.Fits cs text
  longest : ∀ (q : Pattern) other, q.Fits cs other → other.length ≤ text.length
  literal : ∀ (q : Pattern) other, q.Fits cs other → other.length = text.length →
    q.isLiteral = true → p.isLiteral = true

section Language

variable {p : Char → Bool} {text more cs : List Char}

theorem mem_many : cs ∈ many p ↔ cs.all p = true := by
  rw [many, Language.mem_kstar]
  constructor
  · rintro ⟨texts, rfl, h⟩
    simp only [List.all_eq_true, List.mem_flatten]
    rintro c ⟨text, htext, hc⟩
    obtain ⟨d, hd, rfl⟩ := h text htext
    rwa [List.mem_singleton.1 hc]
  · intro h
    refine ⟨cs.map ([·]), ?_, fun text htext => ?_⟩
    · rw [← List.flatMap_def, List.flatMap_singleton']
    · obtain ⟨c, hc, rfl⟩ := List.mem_map.1 htext
      exact ⟨c, List.all_eq_true.1 h c hc, rfl⟩

theorem mem_one_mul {l : Language Char} : cs ∈ one p * l ↔ ∃ c ds, cs = c :: ds ∧ p c = true ∧ ds ∈ l := by
  rw [Language.mem_mul]
  constructor
  · rintro ⟨_, ⟨c, hc, rfl⟩, ds, hds, rfl⟩
    exact ⟨c, ds, rfl, hc, hds⟩
  · rintro ⟨c, ds, rfl, hc, hds⟩
    exact ⟨[c], ⟨c, hc, rfl⟩, ds, hds, rfl⟩

theorem mem_exactly_mul {s : String} {l : Language Char} :
    cs ∈ exactly s * l ↔ ∃ ds, cs = s.toList ++ ds ∧ ds ∈ l := by
  rw [Language.mem_mul]
  constructor
  · rintro ⟨_, rfl, ds, hds, rfl⟩
    exact ⟨ds, rfl, hds⟩
  · rintro ⟨ds, rfl, hds⟩
    exact ⟨_, rfl, ds, hds, rfl⟩

-- A text of at least one character that all satisfy `p`, but the first one satisfies `q`.
theorem mem_one_mul_many {q : Char → Bool} :
    cs ∈ one q * many p ↔ ∃ c ds, cs = c :: ds ∧ q c = true ∧ ds.all p = true := by
  simp only [mem_one_mul, mem_many]

theorem mem_several : cs ∈ several p ↔ cs ≠ [] ∧ cs.all p = true := by
  rw [several, mem_one_mul_many]
  cases cs <;> simp

theorem mem_name : cs ∈ name ↔ headIs isNameStart cs = true ∧ cs.all isNamePart = true := by
  have hpart (c : Char) (h : isNameStart c = true) : isNamePart c = true := by
    simp only [isNameStart, isNamePart, Char.isAlphanum, Bool.or_eq_true] at *
    exact h.imp_left Or.inl
  rw [name, mem_one_mul_many]
  cases cs with
  | nil => simp [headIs]
  | cons c cs =>
      simp only [List.cons.injEq, headIs, List.head?_cons, Option.any_some, List.all_cons,
        Bool.and_eq_true]
      constructor
      · rintro ⟨_, _, ⟨rfl, rfl⟩, hc, hcs⟩
        exact ⟨hc, hpart _ hc, hcs⟩
      · rintro ⟨hc, -, hcs⟩
        exact ⟨c, cs, ⟨rfl, rfl⟩, hc, hcs⟩

theorem mem_exponent : cs ∈ exponent ↔ ∃ c sign ds, cs = c :: (sign ++ ds) ∧ (c = 'e' ∨ c = 'E') ∧
    (sign = [] ∨ sign = ['+'] ∨ sign = ['-']) ∧ ds ≠ [] ∧ ds.all Char.isDigit = true := by
  rw [exponent, mem_one_mul]
  constructor
  · rintro ⟨c, _, rfl, hc, sign, hsign, ds, hds, rfl⟩
    obtain ⟨hne, hall⟩ := mem_several.1 hds
    refine ⟨c, sign, ds, rfl, by simpa using hc, ?_, hne, hall⟩
    rcases hsign with hsign | ⟨d, hd, hsign⟩
    · exact .inl hsign
    · simpa [hsign] using hd
  · rintro ⟨c, sign, ds, rfl, hc, hsign, hne, hall⟩
    refine ⟨c, _, rfl, by simpa using hc, sign, ?_, ds, mem_several.2 ⟨hne, hall⟩, rfl⟩
    rcases hsign with rfl | rfl | rfl
    · exact .inl rfl
    · exact .inr ⟨'+', rfl, rfl⟩
    · exact .inr ⟨'-', rfl, rfl⟩

theorem ne_nil_of_exponent (h : cs ∈ exponent) : cs ≠ [] := by
  obtain ⟨c, sign, ds, rfl, -⟩ := mem_exponent.1 h
  exact List.cons_ne_nil _ _

-- More of some kind of character may stand behind every text of a language.
def Takes (p : Char → Bool) (l : Language Char) : Prop := ∀ cs ∈ l, ∀ c, p c = true → cs ++ [c] ∈ l

theorem takes_many : Takes p (many p) := by
  intro cs hcs c hc
  rw [mem_many] at *
  simp [hcs, hc]

theorem takes_several : Takes p (several p) := by
  intro cs hcs c hc
  obtain ⟨-, hall⟩ := mem_several.1 hcs
  exact mem_several.2 ⟨by simp, by simp [hall, hc]⟩

theorem Takes.mul {l m : Language Char} (hm : Takes p m) : Takes p (l * m) := by
  rintro _ ⟨as, has, bs, hbs, rfl⟩ c hc
  exact ⟨as, has, bs ++ [c], hm bs hbs c hc, (List.append_assoc ..).symm⟩

-- Where the second part of a text is missing, the first part takes more.
theorem Takes.optional {l m : Language Char} (hl : Takes p l) (hm : Takes p m) :
    Takes p (l * (1 + m)) := by
  rintro _ ⟨as, has, bs, hbs, rfl⟩ c hc
  rcases hbs with rfl | hbs
  · exact ⟨as ++ [c], hl as has c hc, [], .inl rfl, by simp⟩
  · exact ⟨as, has, bs ++ [c], .inr (hm bs hbs c hc), (List.append_assoc ..).symm⟩

theorem takes_exponent : Takes Char.isDigit exponent := takes_several.mul.mul

theorem takes_name : Takes isNamePart name := takes_many.mul

end Language

section Longest

variable {p q : Pattern} {cs text more : List Char}

theorem Longest.mem (h : p.Longest cs text) : text ∈ p.language := h.fits.mem

-- No pattern fits the text together with more of what follows it.
theorem Longest.ends (h : p.Longest (text ++ more) text) {next rest : List Char}
    (hq : text ++ next ∈ q.language) (hmore : more = next ++ rest) : next = [] := by
  have hne : text ++ next ≠ [] := fun hnil => h.fits.nonempty (List.append_eq_nil_iff.1 hnil).1
  have hlength := h.longest q (text ++ next) ⟨hq, hne, ⟨rest, by simp [hmore]⟩⟩
  rw [List.length_append] at hlength
  exact List.length_eq_zero_iff.1 (by omega)

-- What fits is no longer than the longest text.
theorem Longest.front_of_fits (h : p.Longest cs text) {other : List Char} (hq : q.Fits cs other) :
    other <+: text :=
  List.prefix_of_prefix_length_le hq.front h.fits.front (h.longest q other hq)

-- Among finitely many beginnings of a text, there is a longest one that some pattern fits.
theorem exists_longest (h : ∃ (p : Pattern) (text : List Char), p.Fits cs text) :
    ∃ (p : Pattern) (text : List Char), p.Longest cs text := by
  classical
  let fitting (n : Nat) : Prop := ∃ (p : Pattern) (text : List Char), p.Fits cs text ∧ text.length = n
  obtain ⟨p, text, hp⟩ := h
  have hlast : fitting (Nat.findGreatest fitting cs.length) :=
    Nat.findGreatest_spec hp.front.length_le ⟨p, text, hp, rfl⟩
  have hmost (q : Pattern) (other : List Char) (hq : q.Fits cs other) :
      other.length ≤ Nat.findGreatest fitting cs.length :=
    Nat.le_findGreatest hq.front.length_le ⟨q, other, hq, rfl⟩
  by_cases hliteral : ∃ (p : Pattern) (text : List Char),
      p.Fits cs text ∧ text.length = Nat.findGreatest fitting cs.length ∧ p.isLiteral = true
  · obtain ⟨p, text, hp, hlength, hp'⟩ := hliteral
    exact ⟨p, text, hp, hlength ▸ hmost, fun _ _ _ _ _ => hp'⟩
  · obtain ⟨p, text, hp, hlength⟩ := hlast
    refine ⟨p, text, hp, hlength ▸ hmost, fun q other hq heq hq' => ?_⟩
    exact absurd ⟨q, other, hq, heq.trans hlength, hq'⟩ hliteral

end Longest

end Pattern

end Census

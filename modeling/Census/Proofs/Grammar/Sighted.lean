import Census.Proofs.Grammar.Naming
import Census.Proofs.Grammar.Parallel

namespace Census.Grammar.Parser

-- Two parsers that are put together in the same way, as `Parallel` has it, where `s` is what is
-- known of the next terminal. They look no further than that one, but for the decisions that are
-- listed at the end, so a relation has to say of these alone what comes of a longer look.
inductive Sighted (deeper deeper' : Deeper) :
    (s : Option (Option TokenKind)) → {α : Type} → Parser α → Parser α → Prop
  | pure {s : Option (Option TokenKind)} {α : Type} (a : α) :
      Sighted deeper deeper' s (Pure.pure a : Parser α) (Pure.pure a)
  | bind {s : Option (Option TokenKind)} {α β : Type} {p p' : Parser α} {f f' : α → Parser β} :
      Sighted deeper deeper' s p p' → (∀ a, Sighted deeper deeper' none (f a) (f' a)) →
      Sighted deeper deeper' s (p >>= f) (p' >>= f')
  | deeper {s : Option (Option TokenKind)} (goal : Goal) :
      Sighted deeper deeper' s (deeper goal) (deeper' goal)
  | next {s : Option (Option TokenKind)} : Sighted deeper deeper' s next next
  | here {s : Option (Option TokenKind)} : Sighted deeper deeper' s here here
  | look {s : Option (Option TokenKind)} {β : Type} {f f' : Option TokenKind → Parser β} :
      (∀ kind, Sighted deeper deeper' (some kind) (f kind) (f' kind)) →
      Sighted deeper deeper' s (ahead 0 >>= f) (ahead 0 >>= f')
  | unexpected {s : Option (Option TokenKind)} {α : Type} (expected : Expected) :
      Sighted deeper deeper' s (unexpected expected : Parser α) (unexpected expected)
  | atEnd {s : Option (Option TokenKind)} {α : Type} :
      Sighted deeper deeper' s (fail .atEnd : Parser α) (fail .atEnd)
  | iterate {s : Option (Option TokenKind)} {α β : Type} {step step' : α → Parser (Round α β)} :
      (∀ a, Sighted deeper deeper' none (step a) (step' a)) → ∀ a,
      Sighted deeper deeper' s (iterate step a) (iterate step' a)
  -- whether a word follows a separator in a name
  | qualifiedName {s : Option (Option TokenKind)} :
      Sighted deeper deeper' s qualifiedName qualifiedName
  -- a terminal that is taken unless it stands in front of something else
  | taken {s : Option (Option TokenKind)} {β : Type} {c : Option TokenKind → Prop}
      [DecidablePred c] {p p' : Parser β} {f f' : Nat → Parser β} (h : ¬c none) :
      Sighted deeper deeper' none p p' → (∀ n, Sighted deeper deeper' none (f n) (f' n)) →
      Sighted deeper deeper' s (ahead 1 >>= fun kind => if c kind then p else next >>= f)
        (ahead 1 >>= fun kind => if c kind then p' else next >>= f')
  -- the word that begins an array only in front of its parenthesis
  | atArray {β : Type} {p p' : Parser β} {expected : Expected} :
      Sighted deeper deeper' none p p' →
      Sighted deeper deeper' (some (some (.keyword .kwArray)))
        (ahead 1 >>= fun kind =>
          if kind = some (.symbol .leftParen) then p else unexpected expected)
        (ahead 1 >>= fun kind =>
          if kind = some (.symbol .leftParen) then p' else unexpected expected)
  -- a parenthesis in front of the name of a type
  | atCast : Sighted deeper deeper' none (cast deeper) (cast deeper') →
      Sighted deeper deeper' none (power deeper) (power deeper') →
      Sighted deeper deeper' (some (some (.symbol .leftParen)))
        (atCast >>= fun found => if found = true then cast deeper else power deeper)
        (atCast >>= fun found => if found = true then cast deeper' else power deeper')
  -- static variables, or an expression
  | atStatic : Sighted deeper deeper' none (staticVariables deeper) (staticVariables deeper') →
      Sighted deeper deeper' none (expressionStatement deeper) (expressionStatement deeper') →
      Sighted deeper deeper' (some (some (.keyword .kwStatic)))
        (ahead 1 >>= fun kind =>
          if kind = some .variableName then staticVariables deeper else expressionStatement deeper)
        (ahead 1 >>= fun kind =>
          if kind = some .variableName then staticVariables deeper' else expressionStatement deeper')
  -- a function with a name, or an expression
  | atFunction : Sighted deeper deeper' none (function deeper) (function deeper') →
      Sighted deeper deeper' none (expressionStatement deeper) (expressionStatement deeper') →
      Sighted deeper deeper' (some (some (.keyword .kwFunction)))
        (atFunction >>= fun found =>
          if found = true then function deeper else expressionStatement deeper)
        (atFunction >>= fun found =>
          if found = true then function deeper' else expressionStatement deeper')
  -- the declaration of a namespace, or a name that begins with its word
  | atNamespace {β : Type} {kind : TokenKind} {f f' : Draft → Parser β} {p p' : Parser β} :
      Sighted deeper deeper' none (namespaceDeclaration deeper >>= f)
        (namespaceDeclaration deeper' >>= f') →
      Sighted deeper deeper' none p p' →
      Sighted deeper deeper' (some (some kind))
        (ahead 1 >>= fun behind =>
          if (decide (kind = .keyword .kwNamespace) && behind != some (.symbol .backslash)) = true
          then namespaceDeclaration deeper >>= f else p)
        (ahead 1 >>= fun behind =>
          if (decide (kind = .keyword .kwNamespace) && behind != some (.symbol .backslash)) = true
          then namespaceDeclaration deeper' >>= f' else p')

namespace Parallel

variable {d d' : Deeper}

theorem anyName : Parallel d d' anyName anyName := by
  refine (ahead 0).bind fun kind => ?_
  cases kind with
  | some kind => exact .ite next (unexpected _)
  | none => exact unexpected _

theorem nameRound (first : Nat) (lead : Option Nat) (bare last : Nat) :
    Parallel d d' (nameRound first lead bare last) (nameRound first lead bare last) :=
  (ahead 0).bind fun _ => (ahead 1).bind fun _ =>
    .ite (next.bind fun _ => next.bind fun _ => .pure _) (.pure _)

theorem qualifiedName : Parallel d d' qualifiedName qualifiedName := by
  rw [qualifiedName_eq]
  exact here.bind fun first => (accept _).bind fun lead => anyName.bind fun bare =>
    iterate (nameRound first lead bare) bare

theorem atCast : Parallel d d' atCast atCast :=
  (castAhead 1).bind fun _ => (ahead 2).bind fun _ => .pure _

theorem atFunction : Parallel d d' atFunction atFunction :=
  (ahead 1).bind fun _ => .ite (.pure _) ((ahead 1).bind fun _ => (ahead 2).bind fun _ => .pure _)

end Parallel

namespace Sighted

variable {d d' : Deeper} {s : Option (Option TokenKind)} {α β : Type}

theorem parallel {p p' : Parser α} (h : Sighted d d' s p p') : Parallel d d' p p' := by
  induction h with
  | pure a => exact .pure a
  | bind _ _ hp hf => exact hp.bind hf
  | deeper goal => exact .deeper goal
  | next => exact .next
  | here => exact .here
  | look _ hf => exact (Parallel.ahead 0).bind hf
  | unexpected expected => exact .unexpected expected
  | atEnd => exact .atEnd
  | iterate _ a hs => exact .iterate hs a
  | qualifiedName => exact .qualifiedName
  | taken _ _ _ hp hf => exact (Parallel.ahead 1).bind fun _ => .ite hp (Parallel.next.bind hf)
  | atArray _ hp => exact (Parallel.ahead 1).bind fun _ => .ite hp (.unexpected _)
  | atCast _ _ hcast hpower => exact Parallel.atCast.bind fun _ => .ite hcast hpower
  | atStatic _ _ hstatic hvalue => exact (Parallel.ahead 1).bind fun _ => .ite hstatic hvalue
  | atFunction _ _ hfunction hvalue => exact Parallel.atFunction.bind fun _ => .ite hfunction hvalue
  | atNamespace _ _ hspace hp => exact (Parallel.ahead 1).bind fun _ => .ite hspace hp

-- What holds whatever comes next.
theorem of_none {p p' : Parser α} (h : Sighted d d' none p p') : Sighted d d' s p p' := by
  generalize hnone : (none : Option (Option TokenKind)) = t at h
  induction h with
  | pure a => exact .pure a
  | bind _ hf hp _ => exact (hp hnone).bind hf
  | deeper goal => exact .deeper goal
  | next => exact .next
  | here => exact .here
  | look hf _ => exact .look hf
  | unexpected expected => exact .unexpected expected
  | atEnd => exact .atEnd
  | iterate hs a _ => exact .iterate hs a
  | qualifiedName => exact .qualifiedName
  | taken h hp hf _ _ => exact .taken h hp hf
  | atArray | atCast | atStatic | atFunction | atNamespace => cases hnone

theorem map {p p' : Parser α} (f : α → β) (hp : Sighted d d' s p p') :
    Sighted d d' s (f <$> p) (f <$> p') := hp.bind fun a => .pure (f a)

theorem ite {c : Prop} [Decidable c] {p p' q q' : Parser α} (hp : Sighted d d' s p p')
    (hq : Sighted d d' s q q') : Sighted d d' s (if c then p else q) (if c then p' else q') := by
  split
  · exact hp
  · exact hq

theorem accept (kind : TokenKind) : Sighted d d' s (accept kind) (accept kind) :=
  look fun _ => .ite (next.bind fun _ => .pure _) (.pure _)

theorem expect (kind : TokenKind) (expected : Expected) :
    Sighted d d' s (expect kind expected) (expect kind expected) :=
  look fun _ => .ite next (unexpected _)

theorem terminator : Sighted d d' s terminator terminator := by
  refine look fun kind => ?_
  split
  · exact next
  · exact next
  · exact unexpected _

theorem through {item item' : Parser (List α)} (close : Symbol)
    (hi : Sighted d d' none item item') :
    Sighted d d' s (through close item) (through close item') := by
  refine iterate (fun items => (accept _).bind fun last => ?_) _
  cases last with
  | some last => exact .pure _
  | none => exact here.bind fun _ => hi.bind fun _ => .pure _

theorem commaList {item item' : Parser α} (hi : Sighted d d' none item item') :
    Sighted d d' s (commaList item) (commaList item') := by
  refine iterate (fun items => hi.bind fun _ => (accept _).bind fun comma => ?_) _
  cases comma with
  | some _ => exact .pure _
  | none => exact .pure _

theorem closedList {item item' : Parser α} (close : Symbol)
    (hi : Sighted d d' none item item') :
    Sighted d d' s (closedList close item) (closedList close item') := by
  refine bind (iterate (fun items => look fun _ => .ite (.pure _) ?_) _) fun _ =>
    (expect _ _).bind fun _ => .pure _
  refine hi.of_none.bind fun _ => (accept _).bind fun comma => ?_
  cases comma with
  | some _ => exact .pure _
  | none => exact .pure _

end Sighted

end Census.Grammar.Parser

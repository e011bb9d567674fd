import Census.Proofs.Grammar.Truncation
import Census.Proofs.Script.Refusal
import Census.Proofs.Token.Truncation

namespace Census

open Grammar

variable {source : String} {passed later : List Token} {t : Token} {read after : List Char}

-- A source that ends behind one of its significant tokens has the significant tokens up to it.
theorem significantTokens_until (h : significantTokens source = passed ++ t :: later)
    (hsplit : source.toList = read ++ (t.text.toList ++ after))
    (hstands : t.StandsBehind source.toList read) :
    significantTokens (String.ofList (read ++ t.text.toList)) = passed ++ [t] ∧
      (Script.ofSource (String.ofList (read ++ t.text.toList))).ending = none := by
  obtain ⟨front, back, htokens, hfront, hback⟩ := List.filter_eq_append_iff.1 h
  obtain ⟨skipped, rest, rfl, hskipped, hsignificant, -⟩ := List.filter_eq_cons_iff.1 hback
  have hkind : t.kind ≠ .markup := by
    intro hmarkup
    rw [hmarkup] at hsignificant
    cases hsignificant
  rw [← List.append_assoc] at htokens
  have hcut := tokenize_until htokens hkind hsplit hstands
  rw [significantTokens, Script.ofSource, hcut]
  refine ⟨?_, rfl⟩
  rw [List.filter_append, List.filter_append, hfront, List.filter_eq_nil_iff.2 hskipped]
  simp [hsignificant]

namespace Script

theorem kind_of_namesCast {token : Token} (h : namesCast token = true) :
    token.kind = .identifier ∨ token.kind = .keyword .kwArray := by
  simpa using (Bool.and_eq_true_iff.1 h).1

theorem terminals_casts (script : Script) : ∀ m ∈ script.terminals, m.namesCast = true →
    m.kind = .identifier ∨ m.kind = .keyword .kwArray := by
  intro m hm
  obtain ⟨lexeme, -, rfl⟩ := List.mem_map.1 hm
  exact kind_of_namesCast

theorem parse_error {script : Script} {limit : Nat} {error : ParseError}
    (hending : script.ending = none) (h : script.parse limit = .error error) :
    ∃ failure, parseFile limit script.terminals = .error failure ∧
      error = script.error limit failure := by
  unfold parse at h
  cases hf : parseFile limit script.terminals with
  | error failure =>
      rw [hf] at h
      exact ⟨failure, rfl, (Except.error.inj h).symm⟩
  | ok drafts => simp [hf, hending] at h

theorem terminals_until {cut : String} (h : significantTokens source = passed ++ t :: later)
    (hcut : significantTokens cut = passed ++ [t]) :
    (ofSource cut).terminals = (ofSource source).terminals.take (passed.length + 1) := by
  have htake : significantTokens cut = (significantTokens source).take (passed.length + 1) := by
    rw [h, hcut, List.take_length_add_append, List.take_succ_cons, List.take_zero]
  rw [terminals_ofSource, terminals_ofSource, htake, List.map_take]

section Last

variable (htokens : significantTokens source = passed ++ [t])
include htokens

theorem length_of_last : (significantTokens source).length = passed.length + 1 := by
  simp [htokens]

theorem spanOf_last : (ofSource source).spanOf passed.length = t.span := by
  rw [spanOf_eq (Nat.lt_of_lt_of_eq (Nat.lt_succ_self _) (length_of_last htokens).symm)]
  simp [htokens]

theorem text_last : (ofSource source).text passed.length = t.text := by
  rw [text_ofSource (Nat.lt_of_lt_of_eq (Nat.lt_succ_self _) (length_of_last htokens).symm)]
  simp [htokens]

-- From the last two tokens on, all others are over.
theorem stop_lt_late {i : Nat} (hlate : passed.length ≤ i + 1) (hi : i ≤ passed.length + 1) :
    ∀ u ∈ passed.dropLast, u.span.stop < ((ofSource source).spanOf i).start := by
  intro u hu
  obtain ⟨k, hk, rfl⟩ := List.getElem_of_mem hu
  have hcount := length_of_last htokens
  have hshort : k + 1 < passed.length := by
    rw [List.length_dropLast] at hk
    omega
  have hspan : (passed.dropLast[k]).span = (ofSource source).spanOf k := by
    rw [spanOf_eq (by omega), List.getElem_dropLast]
    simp only [htokens]
    rw [List.getElem_append_left]
  rw [hspan]
  rcases Nat.lt_or_eq_of_le hi with hi | rfl
  · exact stop_lt_start (by omega) (by omega)
  · rw [← hcount, spanOf_end (by rw [htokens, List.getLast?_concat]), ← spanOf_last htokens]
    have hbefore : ((ofSource source).spanOf k).stop <
        ((ofSource source).spanOf passed.length).start := stop_lt_start (by omega) (by omega)
    exact Position.lt_of_lt_of_le hbefore (start_le_stop_self (by omega))

end Last

end Script

-- A source that parses, cut off behind one of its significant tokens, parses as well or lacks what
-- follows that token. Only where the end tears something is the token itself refused, and without
-- levels to spare, what is missing may be sought too deep.
theorem parse_truncated {limit : Nat} {root : Node} (h : parse source limit = .ok root)
    (ht : significantTokens source = passed ++ t :: later) :
    ∃ read after, source.toList = read ++ (t.text.toList ++ after) ∧
      t.StandsBehind source.toList read ∧ ∀ spare error,
        parse (String.ofList (read ++ t.text.toList)) (limit + spare) = .error error →
          error = .endOfTokens t.span.stop ∨
          (∃ p, error = .nestingLimit p (limit + spare) ∧
            (∀ u ∈ passed.dropLast, u.span.stop < p) ∧ (spare = 0 ∨
              spare = 1 ∧ Torn (Script.ofSource source).terminals (passed.length + 1))) ∨
          Torn (Script.ofSource source).terminals (passed.length + 1) ∧
            ∃ expected, error = .unexpectedToken t.span.start t.text expected := by
  have hmem : t ∈ significantTokens source := ht ▸ List.mem_append_right _ List.mem_cons_self
  obtain ⟨read, after, hsplit, hstands⟩ :=
    (tokenize_tiles source).stands t (List.mem_filter.1 hmem).1
  refine ⟨read, after, hsplit, hstands, fun spare error hcut => ?_⟩
  obtain ⟨htokens, hending⟩ := significantTokens_until ht hsplit hstands
  obtain ⟨drafts, hdrafts, -⟩ := Script.parse_ok h
  obtain ⟨failure, hfailure, rfl⟩ := Script.parse_error hending hcut
  have hbelow := parseFile_below hfailure
  rw [Script.terminals_length, Script.length_of_last htokens] at hbelow
  rw [Script.terminals_until ht htokens] at hfailure
  obtain rfl | ⟨i, rfl, hlate, htight⟩ | ⟨torn, i, expected, rfl, hi⟩ :=
    parseFile_take (Script.terminals_casts _) hdrafts hfailure
  · refine .inl ?_
    rw [Script.error, Script.endError, hending,
      Script.lastPosition_ofSource (by rw [htokens, List.getLast?_concat])]
  · exact .inr (.inl ⟨_, rfl, Script.stop_lt_late htokens (by omega) hbelow, htight⟩)
  · obtain rfl : i = passed.length := by omega
    refine .inr (.inr ⟨torn, expected, ?_⟩)
    rw [Script.error, Script.spanOf_last htokens, Script.text_last htokens]

-- A call that is cut off in front of its only argument.
theorem parse_truncated_call : ∃ root read after, parse "<?php f(1);" 3 = .ok root ∧
    "<?php f(1);".toList = read ++ ("(".toList ++ after) ∧
    ∀ error, parse (String.ofList (read ++ "(".toList)) 256 = .error error →
      error = .endOfTokens ⟨1, 8⟩ := by
  have hparses : (parse "<?php f(1);" 3).toOption.isSome = true := by decide +kernel
  have htokens : significantTokens "<?php f(1);" =
      [⟨.identifier, "f", 6, 7, ⟨⟨1, 7⟩, ⟨1, 7⟩⟩⟩] ++
        ⟨.symbol .leftParen, "(", 7, 8, ⟨⟨1, 8⟩, ⟨1, 8⟩⟩⟩ ::
          (significantTokens "<?php f(1);").drop 2 := by decide +kernel
  have hparen : kindAt (Script.ofSource "<?php f(1);").terminals 1 = some (.symbol .leftParen) := by
    decide +kernel
  have hwhole : ¬Torn (Script.ofSource "<?php f(1);").terminals 2 := by
    intro torn
    cases torn with
    | array word => cases hparen.symm.trans word
    | cast _ word => cases hparen.symm.trans word
    | separator _ separator => cases hparen.symm.trans separator
  cases h : parse "<?php f(1);" 3 with
  | error e => simp [h, Except.toOption] at hparses
  | ok root =>
      obtain ⟨read, after, hsplit, -, hcut⟩ := parse_truncated h htokens
      refine ⟨root, read, after, rfl, hsplit, fun error herror => ?_⟩
      obtain hend | ⟨p, -, -, htight⟩ | ⟨torn, -⟩ := hcut 253 error herror
      · exact hend
      · exact absurd htight (by omega)
      · exact absurd torn hwhole

-- The word of an array is refused where the parenthesis behind it is cut off.
theorem array_refused_at_end : ∃ t ∈ significantTokens "<?php $a = array();",
    t.StandsBehind "<?php $a = array();".toList "<?php $a = ".toList ∧ t.text = "array" ∧
    (parse "<?php $a = array();" defaultNesting).toOption.isSome = true ∧
    parse "<?php $a = array" defaultNesting =
      .error (.unexpectedToken ⟨1, 12⟩ "array" .expression) := by
  have hstands : (⟨.keyword .kwArray, "array", 11, 16, ⟨⟨1, 12⟩, ⟨1, 16⟩⟩⟩ : Token).StandsBehind
      "<?php $a = array();".toList "<?php $a = ".toList :=
    ⟨by decide, by decide +kernel, by decide +kernel, by decide +kernel⟩
  refine ⟨_, by decide +kernel, hstands, rfl, by decide +kernel, ?_⟩
  have herror : (match parse "<?php $a = array" defaultNesting with
      | .error e => some e
      | .ok _ => none) = some (.unexpectedToken ⟨1, 12⟩ "array" .expression) := by decide +kernel
  cases h : parse "<?php $a = array" defaultNesting with
  | error e =>
      rw [h] at herror
      rw [Option.some.inj herror]
  | ok root =>
      rw [h] at herror
      cases herror

end Census

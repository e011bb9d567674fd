import Census.Settings.Document
import Mathlib.Data.List.Basic
import Mathlib.Data.List.Induction

namespace Census

open Xml (Event)

namespace Xml

-- The names of the elements that are open behind some events, the innermost in front. The newest
-- event is in front, and behind it as many more elements are closed as `closed` says.
def enclosing : Nat → List Event → List String
  | _, [] => []
  | closed, .text _ :: earlier => enclosing closed earlier
  | closed, .closed :: earlier => enclosing (closed + 1) earlier
  | 0, .opened name :: earlier => name :: enclosing 0 earlier
  | closed + 1, .opened _ :: earlier => enclosing closed earlier

theorem enclosing_eq_drop (closed : Nat) (events : List Event) :
    enclosing closed events = (enclosing 0 events).drop closed := by
  induction events generalizing closed with
  | nil => rw [enclosing, enclosing, List.drop_nil]
  | cons event earlier ih =>
      cases event with
      | text s => exact ih closed
      | closed => rw [enclosing, enclosing, ih, ih 1, List.drop_drop, Nat.add_comm]
      | opened name =>
          cases closed with
          | zero => rfl
          | succ closed => rw [enclosing, enclosing, ih, List.drop_succ_cons]

section Texts

variable (outer inner : String) (events : List Event)

-- The event at some place, if it is a text right inside an element `inner`, and that right inside
-- an element `outer`. The space around the text does not count.
def textAt? (i : Nat) : Option String :=
  match events[i]? with
  | some (.text s) =>
      if (enclosing 0 (events.take i).reverse).take 2 = [inner, outer] then some (Text.trim s) else none
  | _ => none

-- All such texts, in the order of the document.
def textsIn : List String := (List.range events.length).filterMap (textAt? outer inner events)

theorem textsIn_concat (event : Event) : textsIn outer inner (events ++ [event]) =
    textsIn outer inner events ++ (textAt? outer inner (events ++ [event]) events.length).toList := by
  have hearlier : ∀ i ∈ List.range events.length,
      textAt? outer inner (events ++ [event]) i = textAt? outer inner events i := by
    intro i hi
    have hlt : i < events.length := List.mem_range.1 hi
    rw [textAt?, textAt?, List.getElem?_append_left hlt, List.take_append_of_le_length (Nat.le_of_lt hlt)]
  rw [textsIn, List.length_append, List.length_singleton, List.range_succ, List.filterMap_append,
    List.filterMap_congr hearlier, textsIn]
  cases h : textAt? outer inner (events ++ [event]) events.length <;> simp [h]

theorem textsIn_opened (name : String) :
    textsIn outer inner (events ++ [.opened name]) = textsIn outer inner events := by
  simp [textsIn_concat, textAt?]

theorem textsIn_closed : textsIn outer inner (events ++ [.closed]) = textsIn outer inner events := by
  simp [textsIn_concat, textAt?]

theorem textsIn_text (s : String) : textsIn outer inner (events ++ [.text s]) =
    textsIn outer inner events ++
      if (enclosing 0 events.reverse).take 2 = [inner, outer] then [Text.trim s] else [] := by
  rw [textsIn_concat, textAt?, List.getElem?_concat_length, List.take_left]
  split
  · rename_i s' heq
    cases heq
    split <;> rfl
  · rename_i hno
    exact absurd rfl (hno s)

end Texts

end Xml

open Xml (enclosing textsIn)

namespace Override

variable {α : Type}

-- The last of some values, each written as a text. If any text is bad, there is no answer.
def last? (read : String → Option α) (texts : List String) : Option (Option α) :=
  (texts.mapM read).map List.getLast?

theorem last?_concat (read : String → Option α) (texts : List String) (s : String) :
    last? read (texts ++ [s]) = (last? read texts).bind fun _ => (read s).map some := by
  rw [last?, last?, List.mapM_append]
  cases texts.mapM read with
  | none => rfl
  | some values => cases hs : read s <;> simp [hs]

theorem last?_append_of_none {read : String → Option α} {texts : List String} (h : last? read texts = none)
    (later : List String) : last? read (texts ++ later) = none := by
  rw [last?, Option.map_eq_none_iff] at h ⊢
  rw [List.mapM_append, h]
  rfl

-- What the events of a document say. Every value has to be good; the last one of a field counts.
def saidBy? (events : List Event) : Option Override := do
  let driver ← last? CacheDriver.ofName? (textsIn "cache" "driver" events)
  let fontSize ← last? Binary32.read? (textsIn "imageConvert" "fontSize" events)
  let nesting ← last? nesting? (textsIn "parser" "nesting" events)
  return {
    driver := driver
    location := (textsIn "cache" "location" events).getLast?
    fontFamily := (textsIn "imageConvert" "fontFamily" events).getLast?
    fontSize := fontSize
    nesting := nesting }

-- What a document says. Nothing, if there is a fault or a bad value anywhere in it.
def said? (document : String) : Option Override :=
  if (Xml.events document).2 = none then saidBy? (Xml.events document).1 else none

theorem saidBy?_concat_of_eq {events : List Event} {event : Event}
    (h : ∀ outer inner, textsIn outer inner (events ++ [event]) = textsIn outer inner events) :
    saidBy? (events ++ [event]) = saidBy? events := by
  simp only [saidBy?, h]

-- A text sets a field, as far as it has a place where one is read.
theorem saidBy?_text (events : List Event) (s : String) {inner outer : String} {above : List String}
    (h : enclosing 0 events.reverse = inner :: outer :: above) :
    saidBy? (events ++ [.text s]) = (saidBy? events).bind fun o =>
      (o.setField outer inner (Text.trim s)).toOption := by
  have htexts (outer' inner' : String) : textsIn outer' inner' (events ++ [.text s]) =
      textsIn outer' inner' events ++ if outer = outer' ∧ inner = inner' then [Text.trim s] else [] := by
    rw [Xml.textsIn_text, h]
    simp [and_comm]
  cases hdriver : last? CacheDriver.ofName? (textsIn "cache" "driver" events) with
  | none => simp [saidBy?, htexts, hdriver, last?_append_of_none hdriver]
  | some driver =>
      cases hsize : last? Binary32.read? (textsIn "imageConvert" "fontSize" events) with
      | none => simp [saidBy?, htexts, hdriver, hsize, last?_append_of_none hsize]
      | some size =>
          cases hnesting : last? nesting? (textsIn "parser" "nesting" events) with
          | none => simp [saidBy?, htexts, hdriver, hsize, hnesting, last?_append_of_none hnesting]
          | some nesting =>
              simp only [saidBy?, htexts, hdriver, hsize, hnesting, Option.bind_eq_bind, Option.bind_some,
                Option.pure_def]
              fun_cases setField _ outer inner (Text.trim s) with
              | case1 required =>
                  cases hread : CacheDriver.ofName? (Text.trim s) <;>
                    simp [last?_concat, hdriver, hsize, hnesting, required, hread, Except.toOption]
              | case2 | case3 => simp [hdriver, hsize, hnesting, Except.toOption]
              | case4 required =>
                  cases hread : Binary32.read? (Text.trim s) <;>
                    simp [last?_concat, hdriver, hsize, hnesting, required, hread, Except.toOption]
              | case5 required =>
                  cases hread : nesting? (Text.trim s) <;>
                    simp [last?_concat, hdriver, hsize, hnesting, required, hread, Except.toOption]
              | case6 =>
                  -- A text anywhere else is not among those that are read.
                  simp_all [← not_and, Except.toOption]

-- What a reader has after some events: the elements that are open, and what was said so far.
theorem toOption_foldlM_step (events : List Event) : (events.foldlM Reading.step ⟨[], empty⟩).toOption =
    (saidBy? events).map fun o => ⟨enclosing 0 events.reverse, o⟩ := by
  induction events using List.reverseRecOn with
  | nil => rfl
  | append_singleton events event ih =>
      have hstep : ((events ++ [event]).foldlM Reading.step ⟨[], empty⟩).toOption =
          (events.foldlM Reading.step ⟨[], empty⟩).toOption.bind fun r => (r.step event).toOption := by
        rw [List.foldlM_append]
        cases events.foldlM Reading.step ⟨[], empty⟩ with
        | error e => rfl
        | ok r => exact congrArg Except.toOption (bind_pure (r.step event))
      rw [hstep, ih, List.reverse_concat]
      cases event with
      | opened name =>
          rw [saidBy?_concat_of_eq fun outer inner => Xml.textsIn_opened outer inner events name]
          cases saidBy? events <;> rfl
      | closed =>
          rw [saidBy?_concat_of_eq fun outer inner => Xml.textsIn_closed outer inner events, enclosing,
            Xml.enclosing_eq_drop 1, List.drop_one]
          cases saidBy? events <;> rfl
      | text s =>
          rw [enclosing]
          rcases hplace : enclosing 0 events.reverse with _ | ⟨inner, _ | ⟨outer, above⟩⟩
          case cons.cons =>
            rw [saidBy?_text events s hplace]
            cases saidBy? events with
            | none => rfl
            | some o =>
                simp only [Reading.step, Option.map_some, Option.bind_some]
                cases o.setField outer inner (Text.trim s) <;> rfl
          all_goals
            rw [saidBy?_concat_of_eq fun outer inner => by simp [Xml.textsIn_text, hplace]]
            cases saidBy? events <;> rfl

theorem toOption_ofDocument (document : String) : (ofDocument document).toOption = said? document := by
  rcases hdocument : Xml.events document with ⟨events, fault⟩
  have hevents := toOption_foldlM_step events
  rw [ofDocument, said?, hdocument]
  cases hreading : events.foldlM Reading.step ⟨[], empty⟩ with
  | error e =>
      rw [hreading] at hevents
      have hsaid : saidBy? events = none := Option.map_eq_none_iff.1 hevents.symm
      simp only [hreading, hsaid]
      split <;> rfl
  | ok r =>
      rw [hreading] at hevents
      obtain ⟨o, hsaid, rfl⟩ := Option.map_eq_some_iff.1 hevents.symm
      simp only [hreading, hsaid]
      cases fault <;> rfl

end Override

end Census

import Census.Proofs.Token.Boundary
import Census.Text.Blank
import Mathlib.Data.List.TakeWhile

namespace Census.Text

-- A text with a carriage return in front of every line feed.
def crlf (cs : List Char) : List Char := cs.flatMap fun c => if c = '\n' then ['\r', '\n'] else [c]

def crlfText (s : String) : String := .ofList (crlf s.toList)

-- The number of characters that the first `n` of a text become.
def stretch (n : Nat) (cs : List Char) : Nat := (crlf (cs.take n)).length

variable {cs : List Char} {c : Char} {m n : Nat} {p : Char → Bool}

@[simp] theorem crlf_nil : crlf [] = [] := rfl

@[simp] theorem crlf_break (cs : List Char) : crlf ('\n' :: cs) = '\r' :: '\n' :: crlf cs := rfl

theorem crlf_cons (h : c ≠ '\n') (cs : List Char) : crlf (c :: cs) = c :: crlf cs := by
  simp [crlf, h]

theorem crlf_append (cs ds : List Char) : crlf (cs ++ ds) = crlf cs ++ crlf ds :=
  List.flatMap_append

theorem Inline.crlf_eq (h : Inline cs) : crlf cs = cs := by
  induction cs with
  | nil => rfl
  | cons c cs ih =>
      obtain ⟨hc, hcs⟩ := List.forall_mem_cons.1 h
      have hne : c ≠ '\n' := by
        rintro rfl
        cases hc
      rw [crlf_cons hne, ih hcs]

theorem crlf_eq_nil : crlf cs = [] ↔ cs = [] := by
  cases cs with
  | nil => simp
  | cons c cs =>
      rcases eq_or_ne c '\n' with rfl | hc
      · simp
      · simp [crlf_cons hc]

theorem crlf_eq_iff {ds : List Char} (h : Inline ds) : crlf cs = ds ↔ cs = ds := by
  refine ⟨?_, fun heq => heq ▸ (heq ▸ h : Inline cs).crlf_eq⟩
  rintro rfl
  refine (Inline.crlf_eq fun c hc => ?_).symm
  refine h c (List.mem_flatMap.2 ⟨c, hc, ?_⟩)
  split <;> simp_all

theorem toLower_ne_break (h : c ≠ '\n') : c.toLower ≠ '\n' := by
  unfold Char.toLower
  split
  · rename_i hupper
    intro heq
    have hval := congrArg (fun d : Char => d.val.toNat) heq
    have hlow : 65 ≤ c.val.toNat := UInt32.le_iff_toNat_le.1 hupper.1
    have hhigh : c.val.toNat ≤ 90 := UInt32.le_iff_toNat_le.1 hupper.2
    simp only [UInt32.toNat_add] at hval
    change (c.val.toNat + 32) % 4294967296 = 10 at hval
    omega
  · exact h

theorem map_toLower_crlf (cs : List Char) :
    (crlf cs).map Char.toLower = crlf (cs.map Char.toLower) := by
  induction cs with
  | nil => rfl
  | cons c cs ih =>
      rcases eq_or_ne c '\n' with rfl | hc
      · rw [crlf_break, List.map_cons, List.map_cons, ih]
        rfl
      · rw [crlf_cons hc, List.map_cons, ih, List.map_cons, crlf_cons (toLower_ne_break hc)]

section Strings

@[simp] theorem toList_crlfText (s : String) : (crlfText s).toList = crlf s.toList :=
  String.toList_ofList

theorem crlfText_append (s t : String) : crlfText (s ++ t) = crlfText s ++ crlfText t := by
  simp [crlfText, crlf_append, String.ofList_append]

theorem crlfText_join (texts : List String) :
    crlfText (String.join texts) = String.join (texts.map crlfText) := by
  induction texts with
  | nil => rfl
  | cons text texts ih => rw [String.join_cons, crlfText_append, ih, List.map_cons, String.join_cons]

theorem lowerCase_crlfText (s : String) : lowerCase (crlfText s) = crlfText (lowerCase s) := by
  rw [lowerCase, toList_crlfText, map_toLower_crlf, crlfText, lowerCase, String.toList_ofList]

theorem crlfText_eq_iff {s t : String} (h : Inline t.toList) : crlfText s = t ↔ s = t := by
  rw [← String.toList_inj, toList_crlfText, crlf_eq_iff h, String.toList_inj]

theorem Inline.crlfText_eq {s : String} (h : Inline s.toList) : crlfText s = s :=
  (crlfText_eq_iff h).2 rfl

end Strings

section Stretch

@[simp] theorem stretch_zero (cs : List Char) : stretch 0 cs = 0 := rfl

@[simp] theorem stretch_nil (n : Nat) : stretch n [] = 0 := by simp [stretch]

@[simp] theorem stretch_break (n : Nat) (cs : List Char) :
    stretch (n + 1) ('\n' :: cs) = stretch n cs + 2 := rfl

theorem stretch_cons (h : c ≠ '\n') (n : Nat) (cs : List Char) :
    stretch (n + 1) (c :: cs) = stretch n cs + 1 := by
  rw [stretch, List.take_succ_cons, crlf_cons h, List.length_cons, stretch]

theorem stretch_length (cs : List Char) : stretch cs.length cs = (crlf cs).length := by
  rw [stretch, List.take_length]

theorem stretch_add (m n : Nat) (cs : List Char) :
    stretch (m + n) cs = stretch m cs + stretch n (cs.drop m) := by
  rw [stretch, List.take_add, crlf_append, List.length_append, stretch, stretch]

-- The part that is passed over and the part behind it become what they do on their own.
theorem crlf_split (n : Nat) (cs : List Char) : crlf cs = crlf (cs.take n) ++ crlf (cs.drop n) := by
  rw [← crlf_append, List.take_append_drop]

theorem take_stretch (n : Nat) (cs : List Char) :
    (crlf cs).take (stretch n cs) = crlf (cs.take n) := by
  rw [crlf_split n cs, stretch, List.take_left]

theorem drop_stretch (n : Nat) (cs : List Char) :
    (crlf cs).drop (stretch n cs) = crlf (cs.drop n) := by
  rw [crlf_split n cs, stretch, List.drop_left]

theorem stretch_pos (hn : 0 < n) (hcs : cs ≠ []) : 0 < stretch n cs := by
  rw [stretch, List.length_pos_iff, ne_eq, crlf_eq_nil, List.take_eq_nil_iff]
  rintro (rfl | h)
  · exact absurd hn (Nat.lt_irrefl 0)
  · exact hcs h

end Stretch

theorem Clear.stretch_eq (h : Clear n cs) : stretch n cs = n := by
  rw [stretch, h.inline.crlf_eq, List.length_take, Nat.min_eq_left h.le]

theorem Clear.drop_crlf (h : Clear n cs) : (crlf cs).drop n = crlf (cs.drop n) := by
  have hdrop := drop_stretch n cs
  rwa [h.stretch_eq] at hdrop

theorem Clear.tail_crlf (h : Clear 1 cs) : (crlf cs).tail = crlf cs.tail := by
  rw [← List.drop_one, ← List.drop_one, h.drop_crlf]

section Look

theorem takeWhile_crlf (hp : p '\r' = p '\n') (cs : List Char) :
    (crlf cs).takeWhile p = crlf (cs.takeWhile p) := by
  induction cs with
  | nil => rfl
  | cons c cs ih =>
      rcases eq_or_ne c '\n' with rfl | hc
      · cases h : p '\n' <;> simp [hp, h, ih]
      · cases h : p c <;> simp [crlf_cons hc, h, ih]

theorem run_crlf (hp : p '\r' = p '\n') (cs : List Char) : run p (crlf cs) = stretch (run p cs) cs := by
  rw [run, takeWhile_crlf hp, stretch, take_run]

theorem Unbroken.run_crlf (hp : Unbroken p) (cs : List Char) : run p (crlf cs) = run p cs := by
  rw [Text.run_crlf (hp.1.trans hp.2.symm), (clear_run hp cs).stretch_eq]

theorem Unbroken.takeWhile_crlf (hp : Unbroken p) (cs : List Char) :
    (crlf cs).takeWhile p = cs.takeWhile p := by
  rw [Text.takeWhile_crlf (hp.1.trans hp.2.symm), (hp.inline List.all_takeWhile).crlf_eq]

theorem Inline.isPrefixOf_crlf {part : List Char} (h : Inline part) (cs : List Char) :
    part.isPrefixOf (crlf cs) = part.isPrefixOf cs := by
  induction part generalizing cs with
  | nil => simp
  | cons x part ih =>
      obtain ⟨hx, hpart⟩ := List.forall_mem_cons.1 h
      cases cs with
      | nil => rfl
      | cons c cs =>
          rcases eq_or_ne c '\n' with rfl | hc
          · have hne : x ≠ '\r' ∧ x ≠ '\n' := by simpa [isBreak] using hx
            rw [crlf_break, List.isPrefixOf, List.isPrefixOf, beq_eq_false_iff_ne.2 hne.1,
              beq_eq_false_iff_ne.2 hne.2, Bool.false_and, Bool.false_and]
          · rw [crlf_cons hc, List.isPrefixOf, List.isPrefixOf, ih hpart]

end Look

-- A place that is looked for is found again, if it looks the same there and if none lies within
-- a line break.
theorem seek_crlf {q : List Char → Bool} (hq : ∀ cs, q (crlf cs) = q cs)
    (hbreak : ∀ cs, q ('\n' :: crlf cs) = true → q ('\n' :: cs) = true) (cs : List Char) :
    seek q (crlf cs) = (seek q cs).map (stretch · cs) := by
  induction cs with
  | nil => rfl
  | cons c cs ih =>
      rcases eq_or_ne c '\n' with rfl | hc
      · have hhere := hq ('\n' :: cs)
        rw [crlf_break] at hhere ⊢
        simp only [seek, hhere]
        cases h : q ('\n' :: cs) with
        | true => simp
        | false =>
            have hwithin : q ('\n' :: crlf cs) = false :=
              Bool.eq_false_iff.2 fun hq' => absurd (hbreak cs hq') (Bool.eq_false_iff.1 h)
            simp [hwithin, ih, Function.comp_def]
      · have hhere := hq (c :: cs)
        rw [crlf_cons hc] at hhere ⊢
        simp only [seek, hhere]
        cases h : q (c :: cs) with
        | true => simp
        | false => simp [ih, Function.comp_def, stretch_cons hc]

theorem seek_getD_crlf {q : List Char → Bool} (hq : ∀ cs, q (crlf cs) = q cs)
    (hbreak : ∀ cs, q ('\n' :: crlf cs) = true → q ('\n' :: cs) = true) (cs : List Char) :
    (seek q (crlf cs)).getD (crlf cs).length = stretch ((seek q cs).getD cs.length) cs := by
  rw [seek_crlf hq hbreak]
  cases seek q cs with
  | none => exact (stretch_length cs).symm
  | some n => rfl

end Census.Text

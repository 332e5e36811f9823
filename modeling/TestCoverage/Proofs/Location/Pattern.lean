import Mathlib
import TestCoverage.Location.Pattern

/-!
# What patterns match

Each part of a pattern is a regular expression over the characters of a location
(`Part.language`), and a pattern is its parts in sequence (`Pattern.language`). A list of
answers, one for every suffix of the location, is right for a language if each answer says
whether the suffix is in it (`Answers`).

* `Part.answers_extend`: from right answers for what follows a part come right answers for the
  part and what follows.
* `Pattern.accepts_iff_mem_language`: a pattern accepts the locations in its language.
-/

namespace TestCoverage

open scoped Computability

/-- The texts of one character with a property. -/
def letters (p : Char → Bool) : Language Char := {text | ∃ c, p c = true ∧ text = [c]}

namespace Part

open Pattern (endsSegment spans)

/-- The texts that a part stands for. -/
def language : Part → Language Char
  | segments => 1 + (letters spans)∗ * letters endsSegment
  | anything => (letters spans)∗
  | within => (letters fun c => !endsSegment c)∗
  | one => letters fun c => !endsSegment c
  | literal l => letters fun c => c == l

end Part

/-- The texts that a sequence of parts stands for. -/
def Pattern.language (parts : List Part) : Language Char := (parts.map Part.language).prod

theorem Pattern.language_cons (part : Part) (parts : List Part) :
    Pattern.language (part :: parts) = part.language * Pattern.language parts := by
  rw [Pattern.language, List.map_cons, List.prod_cons, Pattern.language]

/-! ## Languages of letters -/

theorem nil_not_mem_letters_mul (p : Char → Bool) (rest : Language Char) :
    [] ∉ letters p * rest := by
  rintro ⟨_, ⟨c, -, rfl⟩, _, -, h⟩
  cases h

theorem cons_mem_letters_mul_iff {p : Char → Bool} {rest : Language Char} {c : Char}
    {text : List Char} : c :: text ∈ letters p * rest ↔ p c = true ∧ text ∈ rest := by
  constructor
  · rintro ⟨_, ⟨d, hd, rfl⟩, left, hleft, h⟩
    obtain ⟨rfl, rfl⟩ := List.cons.inj h
    exact ⟨hd, hleft⟩
  · rintro ⟨hc, htext⟩
    exact ⟨[c], ⟨c, hc, rfl⟩, text, htext, rfl⟩

/-- Either nothing is passed over, or one letter and then more. -/
theorem kstar_letters_mul (p : Char → Bool) (rest : Language Char) :
    (letters p)∗ * rest = rest + letters p * ((letters p)∗ * rest) := by
  nth_rewrite 1 [← Language.one_add_self_mul_kstar_eq_kstar]
  rw [add_mul, one_mul, mul_assoc]

theorem nil_mem_kstar_letters_mul_iff {p : Char → Bool} {rest : Language Char} :
    [] ∈ (letters p)∗ * rest ↔ [] ∈ rest := by
  rw [kstar_letters_mul, Language.mem_add]
  exact or_iff_left (nil_not_mem_letters_mul p _)

theorem cons_mem_kstar_letters_mul_iff {p : Char → Bool} {rest : Language Char} {c : Char}
    {text : List Char} :
    c :: text ∈ (letters p)∗ * rest ↔
      c :: text ∈ rest ∨ p c = true ∧ text ∈ (letters p)∗ * rest := by
  rw [kstar_letters_mul, Language.mem_add, cons_mem_letters_mul_iff, ← kstar_letters_mul]

theorem mem_kstar_letters_iff {p : Char → Bool} {text : List Char} :
    text ∈ (letters p)∗ ↔ ∀ c ∈ text, p c = true := by
  rw [← mul_one (letters p)∗]
  induction text with
  | nil => exact iff_of_true (nil_mem_kstar_letters_mul_iff.mpr rfl) (by simp)
  | cons c rest ih =>
    rw [cons_mem_kstar_letters_mul_iff, ih, List.forall_mem_cons]
    exact or_iff_right (by rintro ⟨⟩)

theorem singleton_mem_letters_iff {p : Char → Bool} {c : Char} :
    [c] ∈ letters p ↔ p c = true := by
  constructor
  · rintro ⟨_, hd, ⟨⟩⟩
    exact hd
  · intro hc
    exact ⟨c, hc, rfl⟩

/-! ## Answers -/

/-- One answer for every suffix of a text, the empty one last: whether it is in the language. -/
inductive Answers (language : Language Char) : List Char → List Bool → Prop where
  | nil {answer : Bool} (h : answer = true ↔ [] ∈ language) : Answers language [] [answer]
  | cons {c : Char} {text : List Char} {answer : Bool} {others : List Bool}
      (h : answer = true ↔ c :: text ∈ language) (hothers : Answers language text others) :
      Answers language (c :: text) (answer :: others)

namespace Answers

variable {language other : Language Char} {text : List Char} {next : List Bool}

/-- The first answer is for the whole text. -/
theorem headD_iff (h : Answers language text next) :
    next.headD false = true ↔ text ∈ language := by
  cases h with
  | nil h => exact h
  | cons h _ => exact h

theorem add (h : Answers language text next) {more : List Bool} (hmore : Answers other text more) :
    Answers (language + other) text (List.zipWith (· || ·) next more) := by
  induction h generalizing more with
  | nil h =>
    cases hmore with
    | nil hmore => exact .nil (by rw [Bool.or_eq_true, h, hmore, Language.mem_add])
  | cons h _ ih =>
    cases hmore with
    | cons hmore hothers =>
      exact .cons (by rw [Bool.or_eq_true, h, hmore, Language.mem_add]) (ih hothers)

theorem extendOne (takes : Char → Bool) (h : Answers language text next) :
    Answers (letters takes * language) text (Part.extendOne takes text next) := by
  induction h with
  | nil h => exact .nil (by simp [nil_not_mem_letters_mul])
  | cons h hothers ih =>
    refine .cons ?_ ih
    rw [Bool.and_eq_true, hothers.headD_iff, cons_mem_letters_mul_iff]

theorem extendWhile (passes : Char → Bool) (h : Answers language text next) :
    Answers ((letters passes)∗ * language) text (Part.extendWhile passes text next) := by
  induction h with
  | nil h =>
    refine .nil ?_
    rw [h, nil_mem_kstar_letters_mul_iff]
  | cons h hothers ih =>
    refine .cons ?_ ih
    rw [Bool.or_eq_true, Bool.and_eq_true, h, ih.headD_iff, cons_mem_kstar_letters_mul_iff]

theorem extendSegments (h : Answers language text next) :
    Answers ((letters Pattern.spans)∗ * (letters Pattern.endsSegment * language)) text
      (Part.extendSegments text next) := by
  induction h with
  | nil h =>
    refine .nil ?_
    rw [nil_mem_kstar_letters_mul_iff]
    simp [nil_not_mem_letters_mul]
  | cons h hothers ih =>
    refine .cons ?_ ih
    rw [Bool.or_eq_true, Bool.and_eq_true, Bool.and_eq_true, hothers.headD_iff, ih.headD_iff,
      cons_mem_kstar_letters_mul_iff, cons_mem_letters_mul_iff]

end Answers

/-- A part takes off the front what it stands for. -/
theorem Part.answers_extend {language : Language Char} {text : List Char} {next : List Bool}
    (part : Part) (h : Answers language text next) :
    Answers (part.language * language) text (part.extend text next) := by
  cases part with
  | segments =>
    rw [Part.language, add_mul, one_mul, mul_assoc]
    exact h.add h.extendSegments
  | anything => exact h.extendWhile Pattern.spans
  | within => exact h.extendWhile _
  | one => exact h.extendOne _
  | literal l => exact h.extendOne _

namespace Pattern

theorem answers_atEnd (text : List Char) : Answers 1 text (atEnd text) := by
  induction text with
  | nil => exact .nil (by simp)
  | cons c rest ih => exact .cons (by simp) ih

theorem answers_foldr (parts : List Part) (text : List Char) :
    Answers (language parts) text (parts.foldr (Part.extend text) (atEnd text)) := by
  induction parts with
  | nil => exact answers_atEnd text
  | cons part rest ih =>
    rw [language_cons]
    exact part.answers_extend ih

/-- A pattern accepts the locations that its parts in sequence stand for. -/
theorem accepts_iff_mem_language (pattern : Pattern) (text : List Char) :
    pattern.accepts text = true ↔ text ∈ language pattern.parts :=
  (answers_foldr pattern.parts text).headD_iff

end Pattern

end TestCoverage

import Mathlib
import TestCoverage.Location.Rules
import TestCoverage.Proofs.Location.Pattern

/-!
# Locations that written patterns match

`Glob` reads the characters of a pattern from left to right and says which locations they
match, with no parts in between. It depends on the characters that `**` and `**/` pass over.

* `Glob.mem_language_readParts_iff`: the parts of a pattern stand for the locations it matches,
  if everything but a line feed is passed over.
* `Rules.wants_ofTexts_iff_wanted`: rules want the locations that are wanted by their patterns,
  wherever passing over a line feed makes no difference.
* `Rules.wants_anything_lineFeed`: it does make a difference, `**` misses such a location.
-/

namespace TestCoverage

open Pattern (endsSegment readParts language)

/-- The characters of a pattern match a location. `spans` are the characters that `**` and
`**/` pass over. -/
inductive Glob (spans : Char → Prop) : List Char → List Char → Prop where
  | nil : Glob spans [] []
  /-- `**/` for nothing. -/
  | noSegments {rest text : List Char} (h : Glob spans rest text) :
      Glob spans ('*' :: '*' :: '/' :: rest) text
  /-- `**/` for characters up to a `/` or `@`. -/
  | segments {rest text : List Char} (taken : List Char) (e : Char)
      (hspans : ∀ c ∈ taken, spans c) (hend : e = '/' ∨ e = '@') (h : Glob spans rest text) :
      Glob spans ('*' :: '*' :: '/' :: rest) (taken ++ e :: text)
  /-- Any other `**`. -/
  | anything {rest text : List Char} (taken : List Char) (hnext : rest.head? ≠ some '/')
      (hspans : ∀ c ∈ taken, spans c) (h : Glob spans rest text) :
      Glob spans ('*' :: '*' :: rest) (taken ++ text)
  /-- Any other `*`. -/
  | within {rest text : List Char} (taken : List Char) (hnext : rest.head? ≠ some '*')
      (hwithin : ∀ c ∈ taken, ¬(c = '/' ∨ c = '@')) (h : Glob spans rest text) :
      Glob spans ('*' :: rest) (taken ++ text)
  | one {rest text : List Char} {c : Char} (hwithin : ¬(c = '/' ∨ c = '@'))
      (h : Glob spans rest text) : Glob spans ('?' :: rest) (c :: text)
  | literal {rest text : List Char} {c : Char} (hstar : c ≠ '*') (hone : c ≠ '?')
      (h : Glob spans rest text) : Glob spans (c :: rest) (c :: text)

/-- A location is matched as a whole by a pattern, which is trimmed and has `/` for `\`. -/
def Matches (spans : Char → Prop) (pattern location : String) : Prop :=
  Glob spans ((Text.trim pattern.toList).map fun c => if c = '\\' then '/' else c)
    location.toList

/-- Some pattern to include matches the location, or there is none, and no pattern to exclude
does. -/
def Wanted (spans : Char → Prop) (includes excludes : List String) (location : String) : Prop :=
  (includes = [] ∨ ∃ pattern ∈ includes, Matches spans pattern location) ∧
    ¬∃ pattern ∈ excludes, Matches spans pattern location

/-! ## What a part stands for -/

namespace Part

variable {text : List Char}

theorem endsSegment_iff {c : Char} : endsSegment c = true ↔ c = '/' ∨ c = '@' := by
  rw [endsSegment, Bool.or_eq_true, beq_iff_eq, beq_iff_eq]

theorem spans_iff {c : Char} : Pattern.spans c = true ↔ c ≠ '\n' := by
  rw [Pattern.spans, bne_iff_ne]

theorem not_endsSegment_iff {c : Char} : (!endsSegment c) = true ↔ ¬(c = '/' ∨ c = '@') := by
  rw [Bool.not_eq_true', ← Bool.not_eq_true, endsSegment_iff]

theorem mem_language_segments_iff :
    text ∈ language segments ↔
      text = [] ∨ ∃ taken e, (∀ c ∈ taken, c ≠ '\n') ∧ (e = '/' ∨ e = '@') ∧
        taken ++ [e] = text := by
  rw [language, Language.mem_add, Language.mem_one, Language.mem_mul]
  refine or_congr_right ?_
  constructor
  · rintro ⟨taken, htaken, _, ⟨e, he, rfl⟩, rfl⟩
    refine ⟨taken, e, ?_, endsSegment_iff.mp he, rfl⟩
    intro c hc
    exact spans_iff.mp (mem_kstar_letters_iff.mp htaken c hc)
  · rintro ⟨taken, e, htaken, he, rfl⟩
    refine ⟨taken, ?_, [e], singleton_mem_letters_iff.mpr (endsSegment_iff.mpr he), rfl⟩
    exact mem_kstar_letters_iff.mpr fun c hc => spans_iff.mpr (htaken c hc)

theorem mem_language_anything_iff :
    text ∈ language anything ↔ ∀ c ∈ text, c ≠ '\n' := by
  simp only [language, mem_kstar_letters_iff, spans_iff]

theorem mem_language_within_iff :
    text ∈ language within ↔ ∀ c ∈ text, ¬(c = '/' ∨ c = '@') := by
  simp only [language, mem_kstar_letters_iff, not_endsSegment_iff]

end Part

/-! ## Written patterns -/

namespace Pattern

variable {rest : List Char}

theorem readParts_anything (h : rest.head? ≠ some '/') :
    readParts ('*' :: '*' :: rest) = .anything :: readParts rest := by
  rw [readParts]
  rintro _ rfl
  exact h rfl

theorem readParts_within (h : rest.head? ≠ some '*') :
    readParts ('*' :: rest) = .within :: readParts rest := by
  rw [readParts]
  all_goals
    rintro _ rfl
    exact h rfl

theorem readParts_literal {c : Char} (hstar : c ≠ '*') (hone : c ≠ '?') :
    readParts (c :: rest) = .literal c :: readParts rest := by
  rw [readParts]
  · exact fun _ h => absurd h hstar
  · exact fun _ h => absurd h hstar
  · exact hstar
  · exact hone

end Pattern

namespace Glob

variable {spans others : Char → Prop} {pattern text : List Char}

theorem mono (h : Glob spans pattern text) (hothers : ∀ c ∈ text, spans c → others c) :
    Glob others pattern text := by
  induction h with
  | nil => exact .nil
  | noSegments _ ih => exact .noSegments (ih hothers)
  | segments taken e hspans hend _ ih =>
    rw [List.forall_mem_append, List.forall_mem_cons] at hothers
    exact .segments taken e (fun c hc => hothers.1 c hc (hspans c hc)) hend (ih hothers.2.2)
  | anything taken hnext hspans _ ih =>
    rw [List.forall_mem_append] at hothers
    exact .anything taken hnext (fun c hc => hothers.1 c hc (hspans c hc)) (ih hothers.2)
  | within taken hnext hwithin _ ih =>
    rw [List.forall_mem_append] at hothers
    exact .within taken hnext hwithin (ih hothers.2)
  | one hwithin _ ih => exact .one hwithin (ih (List.forall_mem_cons.mp hothers).2)
  | literal hstar hone _ ih => exact .literal hstar hone (ih (List.forall_mem_cons.mp hothers).2)

/-- It only matters which characters of the location are passed over. -/
theorem congr (hspans : ∀ c ∈ text, spans c ↔ others c) :
    Glob spans pattern text ↔ Glob others pattern text := by
  constructor
  · intro h
    exact h.mono fun c hc => (hspans c hc).mp
  · intro h
    exact h.mono fun c hc => (hspans c hc).mpr

theorem head?_ne_some {c : Char} (h : ∀ others, pattern = c :: others → False) :
    pattern.head? ≠ some c := by
  intro hhead
  obtain ⟨others, rfl⟩ := List.head?_eq_some_iff.mp hhead
  exact h others rfl

/-- A location that the parts stand for is matched; the cases are those of reading the parts. -/
theorem of_mem_language (h : text ∈ language (readParts pattern)) :
    Glob (· ≠ '\n') pattern text := by
  induction pattern using Pattern.readParts.induct generalizing text with
  | case1 =>
    obtain rfl := Language.mem_one text |>.mp h
    exact .nil
  | case2 rest ih =>
    rw [readParts, Pattern.language_cons] at h
    obtain ⟨taken, htaken, after, hafter, rfl⟩ := h
    rcases Part.mem_language_segments_iff.mp htaken with rfl | ⟨taken, e, hspans, he, rfl⟩
    · exact .noSegments (ih hafter)
    · show Glob _ _ ((taken ++ [e]) ++ after)
      rw [List.append_assoc]
      exact .segments taken e hspans he (ih hafter)
  | case3 rest hnext ih =>
    have hhead := head?_ne_some hnext
    rw [Pattern.readParts_anything hhead, Pattern.language_cons] at h
    obtain ⟨taken, htaken, after, hafter, rfl⟩ := h
    exact .anything taken hhead (Part.mem_language_anything_iff.mp htaken) (ih hafter)
  | case4 rest _ hnext ih =>
    have hhead := head?_ne_some hnext
    rw [Pattern.readParts_within hhead, Pattern.language_cons] at h
    obtain ⟨taken, htaken, after, hafter, rfl⟩ := h
    exact .within taken hhead (Part.mem_language_within_iff.mp htaken) (ih hafter)
  | case5 rest ih =>
    rw [readParts, Pattern.language_cons] at h
    obtain ⟨_, ⟨c, hc, rfl⟩, after, hafter, rfl⟩ := h
    exact .one (Part.not_endsSegment_iff.mp hc) (ih hafter)
  | case6 c rest _ _ hstar hone ih =>
    rw [Pattern.readParts_literal hstar hone, Pattern.language_cons] at h
    obtain ⟨_, ⟨d, hd, rfl⟩, after, hafter, rfl⟩ := h
    obtain rfl := eq_of_beq hd
    exact .literal hstar hone (ih hafter)

theorem mem_language (h : Glob (· ≠ '\n') pattern text) :
    text ∈ language (readParts pattern) := by
  induction h with
  | nil => exact Language.nil_mem_one
  | noSegments _ ih =>
    rw [readParts, Pattern.language_cons]
    exact ⟨[], Part.mem_language_segments_iff.mpr (.inl rfl), _, ih, rfl⟩
  | segments taken e hspans he _ ih =>
    rw [readParts, Pattern.language_cons]
    refine ⟨taken ++ [e], ?_, _, ih, List.append_assoc taken [e] _⟩
    exact Part.mem_language_segments_iff.mpr (.inr ⟨taken, e, hspans, he, rfl⟩)
  | anything taken hnext hspans _ ih =>
    rw [Pattern.readParts_anything hnext, Pattern.language_cons]
    exact ⟨taken, Part.mem_language_anything_iff.mpr hspans, _, ih, rfl⟩
  | within taken hnext hwithin _ ih =>
    rw [Pattern.readParts_within hnext, Pattern.language_cons]
    exact ⟨taken, Part.mem_language_within_iff.mpr hwithin, _, ih, rfl⟩
  | one hwithin _ ih =>
    rw [readParts, Pattern.language_cons]
    exact cons_mem_letters_mul_iff.mpr ⟨Part.not_endsSegment_iff.mpr hwithin, ih⟩
  | @literal _ _ c hstar hone _ ih =>
    rw [Pattern.readParts_literal hstar hone, Pattern.language_cons]
    exact cons_mem_letters_mul_iff.mpr ⟨beq_self_eq_true c, ih⟩

/-- The parts of a pattern stand for what its characters match. -/
theorem mem_language_readParts_iff :
    text ∈ language (readParts pattern) ↔ Glob (· ≠ '\n') pattern text :=
  ⟨of_mem_language, mem_language⟩

end Glob

/-! ## Rules -/

/-- A pattern accepts the locations that it matches as written. -/
theorem Pattern.accepts_ofText_iff {spans : Char → Prop} {location : String}
    (hspans : ∀ c ∈ location.toList, spans c ↔ c ≠ '\n') (pattern : String) :
    (Pattern.ofText pattern.toList).accepts location.toList = true ↔
      Matches spans pattern location := by
  rw [Pattern.accepts_iff_mem_language]
  exact Glob.mem_language_readParts_iff.trans (Glob.congr hspans).symm

/-- Rules want the locations that their patterns want, if these pass over every character of the
location but line feeds. So they do whatever is passed over, where there is no line feed. -/
theorem Rules.wants_ofTexts_iff_wanted {spans : Char → Prop} {location : String}
    (hspans : ∀ c ∈ location.toList, spans c ↔ c ≠ '\n') (includes excludes : List String) :
    (Rules.ofTexts includes excludes).wants location = true ↔
      Wanted spans includes excludes location := by
  have hany : ∀ patterns : List String,
      (patterns.map fun text => Pattern.ofText text.toList).any (·.accepts location.toList) =
        true ↔ ∃ pattern ∈ patterns, Matches spans pattern location := by
    intro patterns
    rw [List.any_map, List.any_eq_true]
    simp only [Function.comp_apply, Pattern.accepts_ofText_iff hspans]
  rw [Rules.wants, Bool.and_eq_true, Bool.or_eq_true, Bool.not_eq_true', ← Bool.not_eq_true,
    Rules.ofTexts, hany, hany, List.isEmpty_iff, List.map_eq_nil_iff, Wanted]

/-- Where a location has no line feed it is all the same if one is passed over. -/
theorem Rules.wants_ofTexts_iff_wanted_archive :
    (∀ c ∈ "app.war@lib/a b.class".toList, True ↔ c ≠ '\n') ∧
      ((Rules.ofTexts ["**/a*"] ["lib\\**"]).wants "app.war@lib/a b.class" = true ↔
        Wanted (fun _ => True) ["**/a*"] ["lib\\**"] "app.war@lib/a b.class") :=
  ⟨by simp, Rules.wants_ofTexts_iff_wanted (by simp) ["**/a*"] ["lib\\**"]⟩

/-- `**` does not pass over a line feed. -/
theorem Rules.wants_anything_lineFeed :
    ¬∀ (includes excludes : List String) (location : String),
      (Rules.ofTexts includes excludes).wants location = true ↔
        Wanted (fun _ => True) includes excludes location := by
  intro h
  have hwants : (Rules.ofTexts ["**"] []).wants "a\nb" = false := by decide
  have hwanted : Wanted (fun _ => True) ["**"] [] "a\nb" := by
    refine ⟨.inr ⟨"**", by simp, ?_⟩, by simp⟩
    exact .anything "a\nb".toList (by decide) (fun _ _ => trivial) .nil
  rw [← h, hwants] at hwanted
  cases hwanted

end TestCoverage

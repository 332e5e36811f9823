import Mathlib
import TestCoverage.Proofs.Location.Remarks
import TestCoverage.Proofs.Text.ModifiedUtf8
import TestCoverage.Settings

/-!
# Combining rules

When rules are combined, their patterns to include and their patterns to exclude are united. The
empty set of patterns to include is not like others: as long as it is empty everything is included,
and the first pattern shuts out what it does not match (`Rules.wants_extend_iff`).

Blanks at the ends of a line do not count. So a line break between two texts keeps the lines of
both, whether it is a line feed or has a carriage return in front (`Rules.read_append`).

* `Rules.combination`: reading, extending and settings with a rules file combine rules in the same
  way.
-/

namespace TestCoverage

namespace Text

/-! ## Lines -/

/-- A text is cut in front of its last line, which may be empty. -/
theorem exists_lastLine (text : List Char) :
    ∃ before line, text = before ++ line ∧ EndsLine before ∧ '\n' ∉ line := by
  induction text using List.reverseRecOn with
  | nil => exact ⟨[], [], rfl, .inl rfl, List.not_mem_nil⟩
  | append_singleton text c ih =>
    by_cases hc : c = '\n'
    · subst hc
      exact ⟨text ++ ['\n'], [], (List.append_nil _).symm, .inr (by simp), List.not_mem_nil⟩
    · obtain ⟨before, line, rfl, hends, hline⟩ := ih
      refine ⟨before, line ++ [c], List.append_assoc before line [c], hends, ?_⟩
      simpa [hline] using Ne.symm hc

theorem trim_append_blanks (text : List Char) {blanks : List Char}
    (h : ∀ c ∈ blanks, isBlank c = true) : trim (text ++ blanks) = trim text := by
  have hblanks : blanks.dropWhile isBlank = [] := List.dropWhile_eq_nil_iff.mpr h
  unfold trim
  rw [List.dropWhile_append]
  split
  · next hnil =>
    rw [hblanks, List.isEmpty_iff.mp hnil]
  · exact trimRight_append_blanks _ h

theorem trim_blanks {blanks : List Char} (h : ∀ c ∈ blanks, isBlank c = true) :
    trim blanks = [] := trim_append_blanks [] h

end Text

namespace RuleLine

theorem read_congr {line other : List Char} (h : Text.trim line = Text.trim other) :
    read line = read other := by
  unfold read
  rw [h]

theorem read_blanks {blanks : List Char} (h : ∀ c ∈ blanks, Text.isBlank c = true) :
    read blanks = .blank := by
  unfold read
  rw [Text.trim_blanks h]

end RuleLine

namespace Rules

/-! ## Reading lines -/

theorem extend_assoc (a b c : Rules) : (a.extend b).extend c = a.extend (b.extend c) := by
  simp [extend]

/-- A line break ends the last line of the first text. Blanks in front of it do not count. -/
theorem read_append (first second : String) {ending : String} {blanks : List Char}
    (hending : ending.toList = blanks ++ ['\n']) (hblanks : ∀ c ∈ blanks, Text.isBlank c = true)
    (hfeed : '\n' ∉ blanks) :
    read (first ++ ending ++ second) = (read first).extend (read second) := by
  obtain ⟨before, line, hfirst, hends, hline⟩ := Text.exists_lastLine first.toList
  have hbroken : Text.lines (first ++ ending ++ second).toList =
      Text.lines before ++ (line ++ blanks) :: Text.lines second.toList := by
    have htext : (first ++ ending ++ second).toList =
        before ++ ((line ++ blanks) ++ '\n' :: second.toList) := by
      simp [hfirst, hending]
    rw [htext, Text.lines_append hends, Text.lines_append_lineFeed (by simp [hline, hfeed])]
  rw [read_eq, read_eq first, read_eq second, hbroken, hfirst, Text.lines_append hends]
  simp only [List.map_append, List.map_cons, ofLines_append]
  rw [extend_assoc]
  congr 1
  -- if nothing stands in front of the line break, only a blank line is added
  rw [← ofLines_append]
  by_cases hnil : line = []
  · subst hnil
    rw [List.nil_append, RuleLine.read_blanks hblanks]
    rfl
  · rw [RuleLine.read_congr (Text.trim_append_blanks line hblanks), Text.lines_of_ne_nil hline hnil]
    rfl

/-! ## Wanting together -/

theorem extend_comm (a b : Rules) : (a.extend b).Alike (b.extend a) := by
  apply alike_of_mem_iff
  · intro pattern
    simp [extend, or_comm]
  · intro pattern
    simp [extend, or_comm]

theorem extend_self (rules : Rules) : (rules.extend rules).Alike rules := by
  apply alike_of_mem_iff
  · intro pattern
    simp [extend]
  · intro pattern
    simp [extend]

theorem includes_extend_iff (a b : Rules) (location : String) :
    (a.extend b).Includes location ↔ a.Includes location ∨ b.Includes location := by
  simp [Includes, extend, or_and_right, exists_or]

theorem excludes_extend_iff (a b : Rules) (location : String) :
    (a.extend b).Excludes location ↔ a.Excludes location ∨ b.Excludes location := by
  simp [Excludes, extend, or_and_right, exists_or]

/-- Two parts together want a location: neither excludes it, and one of them includes it unless
neither has a pattern to include. -/
def WantedTogether (a b : Rules) (location : String) : Prop :=
  ((a.includes = [] ∧ b.includes = []) ∨ a.Includes location ∨ b.Includes location) ∧
    ¬(a.Excludes location ∨ b.Excludes location)

theorem wants_extend_iff (a b : Rules) (location : String) :
    (a.extend b).wants location = true ↔ WantedTogether a b location := by
  rw [wants_iff, includes_extend_iff, excludes_extend_iff, WantedTogether]
  simp [extend]

/-- Lines that differ in the blanks at their ends say the same. -/
theorem map_read_subset {lines others : List (List Char)}
    (h : lines.map Text.trim ⊆ others.map Text.trim) :
    lines.map RuleLine.read ⊆ others.map RuleLine.read := by
  intro rule hrule
  obtain ⟨line, hline, rfl⟩ := List.mem_map.mp hrule
  obtain ⟨other, hother, htrim⟩ := List.mem_map.mp (h (List.mem_map_of_mem hline))
  exact List.mem_map.mpr ⟨other, hother, RuleLine.read_congr htrim⟩

/-- Lines may come in any order and more than once. -/
theorem read_alike {first second : String}
    (h : ∀ line, line ∈ (Text.lines first.toList).map Text.trim ↔
      line ∈ (Text.lines second.toList).map Text.trim) : (read first).Alike (read second) := by
  have hfirst := map_read_subset fun line => (h line).mp
  have hsecond := map_read_subset fun line => (h line).mpr
  rw [read_eq, read_eq]
  apply alike_of_mem_iff
  · intro pattern
    exact ⟨fun hmem => List.filterMap_subset _ hfirst hmem,
      fun hmem => List.filterMap_subset _ hsecond hmem⟩
  · intro pattern
    exact ⟨fun hmem => List.filterMap_subset _ hfirst hmem,
      fun hmem => List.filterMap_subset _ hsecond hmem⟩

end Rules

/-- Settings with a rules file have their own patterns and the rules of the file. -/
theorem Settings.rules_of_rulesFile {settings : Settings} {tree : FileTree} {path text : String}
    (hfile : settings.rulesFile = some path) (htext : tree.readText path = some text) :
    settings.rules tree =
      .ok ((Rules.ofTexts settings.includes settings.excludes).extend (Rules.read text)) := by
  unfold rules
  rw [hfile]
  dsimp only
  rw [htext]

namespace Rules

/-- Rules combine as sets of patterns. Two texts with a line break between them want what the rules
of the first want with those of the second; it does not matter how rules are grouped, in which order
they come and how often; and the rules of settings and of their rules file, like any others, want
what they want together. -/
theorem combination :
    (∀ first second : String, ∀ ending ∈ ["\n", "\r\n"],
        (read (first ++ ending ++ second)).Alike ((read first).extend (read second))) ∧
      (∀ a b c : Rules, ((a.extend b).extend c).Alike (a.extend (b.extend c))) ∧
      (∀ a b : Rules, (a.extend b).Alike (b.extend a)) ∧
      (∀ rules : Rules, (rules.extend rules).Alike rules) ∧
      (∀ first second : String,
        (∀ line, line ∈ (Text.lines first.toList).map Text.trim ↔
          line ∈ (Text.lines second.toList).map Text.trim) →
        (read first).Alike (read second)) ∧
      (∀ (a b : Rules) (location : String),
        (a.extend b).wants location = true ↔ WantedTogether a b location) ∧
      ∀ (settings : Settings) (tree : FileTree) (path text : String),
        settings.rulesFile = some path → tree.readText path = some text →
        ∃ rules, settings.rules tree = .ok rules ∧ ∀ location, rules.wants location = true ↔
          WantedTogether (ofTexts settings.includes settings.excludes) (read text) location := by
  refine ⟨?_, ?_, extend_comm, extend_self, ?_, wants_extend_iff, ?_⟩
  · intro first second ending hending location
    have hblank : Text.isBlank '\r' = true := by decide
    rcases List.mem_pair.mp hending with rfl | rfl
    · rw [@read_append first second "\n" [] (by simp) (by simp) (by simp)]
    · rw [@read_append first second "\r\n" ['\r'] (by simp) (by simp [hblank]) (by simp)]
  · intro a b c location
    rw [extend_assoc]
  · intro first second h
    exact read_alike h
  · intro settings tree path text hfile htext
    exact ⟨_, Settings.rules_of_rulesFile hfile htext, wants_extend_iff _ _⟩

/-- Settings have a pattern to include, their rules file has one to exclude. -/
theorem combination_rules_file :
    let text := "! **/b*\r\n# more\r\nlib/**"
    let tree := FileTree.directory [("r", .file (Bytes.ofString text))]
    let settings : Settings := ⟨["classes"], ["**/a*"], [], some "r", false, none⟩
    (settings.rulesFile = some "r" ∧ tree.readText "r" = some text) ∧
      ∃ rules, settings.rules tree = .ok rules ∧ ∀ location, rules.wants location = true ↔
        WantedTogether (ofTexts ["**/a*"] []) (read text) location := by
  intro text tree settings
  have htext : tree.readText "r" = some text := by
    have hnames : FileTree.names "r" = [("r" : Bytes)] := by decide
    have hgood : FileTree.isGoodName "r" = true := by decide
    have hfound : tree.find? [("r" : Bytes)] = some (.file (Bytes.ofString text)) := by
      simp [tree, FileTree.find?, FileTree.entries]
    have hlocate : tree.locate "r" = .ok ([("r" : Bytes)], FileTree.linkAllowance) := by
      rw [FileTree.locate, if_neg (by decide), if_neg (by decide), hnames, FileTree.follow,
        if_neg (by decide), if_neg (by decide), hgood, List.nil_append, hfound]
      rfl
    have hread : tree.read "r" = .ok (Bytes.ofString text) := by
      simp [FileTree.read, FileTree.resolve, hlocate, hfound, bind, Except.bind]
    rw [FileTree.readText, hread, Bytes.ofString]
    dsimp only
    rw [Text.Utf8.decode_encode, Option.map_some, String.ofList_toList]
  obtain ⟨-, -, -, -, -, -, hsettings⟩ := combination
  exact ⟨⟨rfl, htext⟩, hsettings settings tree "r" text rfl htext⟩

end Rules

end TestCoverage

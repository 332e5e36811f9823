/-!
# Orders for keys

A type of keys has a strict order in which of two different keys one comes before the other,
so that every finite set of keys can be listed in exactly one ascending way.
-/

namespace TestCoverage

universe u

/-- A strict order in which of two different keys one comes before the other. -/
class KeyOrder (κ : Type u) [LT κ] : Prop where
  irrefl (a : κ) : ¬a < a
  trans {a b c : κ} : a < b → b < c → a < c
  eq_of_not_lt {a b : κ} : ¬a < b → ¬b < a → a = b

/-- Texts are ordered by the code points of their characters. -/
instance : KeyOrder String where
  irrefl := String.lt_irrefl
  trans := String.lt_trans
  eq_of_not_lt hab hba := String.le_antisymm (String.not_lt.mp hba) (String.not_lt.mp hab)

end TestCoverage

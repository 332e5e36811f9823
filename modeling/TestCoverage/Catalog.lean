import TestCoverage.ClassFile.Definition
import TestCoverage.OrderedMap

/-!
# Catalogs of classes

A catalog holds class definitions by their identifiers. A definition that is added takes the
place of one with the same identifier.
-/

namespace TestCoverage

/-- Class definitions by identifier. -/
structure Catalog where
  byId : OrderedMap ClassId ClassDefinition

namespace Catalog

def empty : Catalog := ⟨.empty⟩

instance : Inhabited Catalog := ⟨empty⟩

def insert (catalog : Catalog) (definition : ClassDefinition) : Catalog :=
  ⟨catalog.byId.set definition.id definition⟩

def ofList (definitions : List ClassDefinition) : Catalog := definitions.foldl insert empty

def find? (catalog : Catalog) (id : ClassId) : Option ClassDefinition := catalog.byId.find? id

def definitions (catalog : Catalog) : List ClassDefinition :=
  catalog.byId.entries.map (·.2)

def size (catalog : Catalog) : Nat := catalog.byId.size

def isEmpty (catalog : Catalog) : Bool := catalog.byId.isEmpty

end Catalog

end TestCoverage

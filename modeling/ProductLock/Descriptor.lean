import ProductLock.Dependency.Reading
import ProductLock.DependencySet
import ProductLock.Json.Reading

/-!
# Descriptors and manifests

An artifact carries a descriptor, a JSON record that lists the dependencies it recommends. The
resolved dependencies of a product leave as a manifest, a JSON list of entries of the same form.

Whether an entry is optional is written in a manifest but not taken from a descriptor: for
discovered dependencies that is decided by the policy of the build.
-/

namespace ProductLock

/-- One dependency as JSON has it. -/
structure DescriptorEntry where
  group : String
  name : String
  minimum : String
  maximum : String
  recommended : Option String
  isOptional : Bool
deriving DecidableEq

namespace DescriptorEntry

def ofDependency (d : Dependency) : DescriptorEntry :=
  { group := d.id.group, name := d.id.name, minimum := d.minimum.text, maximum := d.maximum.text,
    recommended := d.recommended.map Version.text, isOptional := d.isOptional }

def dependency (e : DescriptorEntry) : Except Invalid Dependency :=
  Dependency.Source.dependency
    { group := e.group, name := e.name, minimum := e.minimum, maximum := some e.maximum,
      recommended := e.recommended }

def fieldNames : List String :=
  ["product-group", "product-name", "minimum-version", "maximum-version", "recommended-version",
    "optional"]

def ofDocument? (d : Document) : Option DescriptorEntry := do
  match ← d.fields? false fieldNames with
  | [some group, some name, some minimum, some maximum, recommended, isOptional] =>
      return ⟨← group.text?, ← name.text?, ← minimum.text?, ← maximum.text?,
        ← Document.optionalText? recommended, ← Document.orElse? false Document.flag? isOptional⟩
  | _ => none

/-- The members of an entry in a manifest, each with the text of its value. What is missing or
false is left out. -/
def members (e : DescriptorEntry) : List (String × String) :=
  [("product-group", Json.quote e.group), ("product-name", Json.quote e.name),
    ("minimum-version", Json.quote e.minimum), ("maximum-version", Json.quote e.maximum)]
    ++ (match e.recommended with
      | some r => [("recommended-version", Json.quote r)]
      | none => [])
    ++ (if e.isOptional then [("optional", "true")] else [])

def memberText (m : String × String) : String := "    " ++ Json.quote m.1 ++ ": " ++ m.2

def text (e : DescriptorEntry) : String :=
  "  \x7b\n" ++ ",\n".intercalate (e.members.map memberText) ++ "\n  \x7d"

end DescriptorEntry

/-- The recommendations that one artifact carries. -/
structure Descriptor where
  entries : List DescriptorEntry
deriving DecidableEq

namespace Descriptor

def ofDocument? (d : Document) : Option Descriptor := do
  match ← d.fields? false ["recommended-product-dependencies"] with
  | [entries] =>
      let read (d : Document) : Option (List DescriptorEntry) := do
        (← d.list?).mapM DescriptorEntry.ofDocument?
      return ⟨← Document.orElse? [] read entries⟩
  | _ => none

def read? (s : String) : Option Descriptor := do ofDocument? (← Json.read? s)

def dependencies (d : Descriptor) : Except Invalid (List Dependency) :=
  d.entries.mapM DescriptorEntry.dependency

end Descriptor

/-- The manifest of a set, in order of product id. -/
def DependencySet.manifest (s : DependencySet) : String :=
  match s.toList with
  | [] => "[]"
  | ds =>
      "[\n" ++ ",\n".intercalate (ds.map fun d => (DescriptorEntry.ofDependency d).text) ++ "\n]"

end ProductLock

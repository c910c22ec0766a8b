import ProductLock.Dependency.Reading
import ProductLock.DependencySet
import ProductLock.Document
import ProductLock.Files.Path
import ProductLock.Toml.Reading

/-!
# Project configurations

A project is configured by a `product.toml`: what product it is, what it depends on, which
recommendations it ignores or takes as optional, which products come from the same build, and where
the descriptors of the artifacts it consumes lie. Only the product itself has to be there.

Reading the file settles its form. Whether the texts in it are versions, bounds or ids is settled
when they are asked for.
-/

namespace ProductLock

/-- A dependency as it is declared in a configuration. -/
structure Declaration where
  group : String
  name : String
  minimum : String
  maximum : Option String
  recommended : Option String
  isOptional : Bool
deriving DecidableEq

structure ProjectConfig where
  group : String
  name : String
  version : String
  declarations : List Declaration := []
  ignored : List String := []
  optional : List String := []
  workspace : List String := []
  descriptors : List String := []
deriving DecidableEq

namespace Declaration

def fieldNames : List String :=
  ["group", "name", "minimum-version", "maximum-version", "recommended-version", "optional"]

def ofDocument? (d : Document) : Option Declaration := do
  match ← d.fields? true fieldNames with
  | [some group, some name, some minimum, maximum, recommended, isOptional] =>
      return ⟨← group.text?, ← name.text?, ← minimum.text?, ← Document.optionalText? maximum,
        ← Document.optionalText? recommended,
        ← Document.orElse? false Document.flag? isOptional⟩
  | _ => none

def dependency (d : Declaration) : Except Invalid Dependency := do
  let source : Dependency.Source :=
    { group := d.group, name := d.name, minimum := d.minimum, maximum := d.maximum,
      recommended := d.recommended }
  return (← source.dependency).withOptional d.isOptional

end Declaration

namespace ProjectConfig

def fileName : String := "product.toml"

/-- A section of lists of texts, each of which may be missing, as may the section. -/
def textLists? (names : List String) (section? : Option Document) : Option (List (List String)) :=
  match section? with
  | none => some (names.map fun _ => [])
  | some d => do (← d.fields? true names).mapM (Document.orElse? [] Document.texts?)

def ofDocument? (d : Document) : Option ProjectConfig := do
  match ← d.fields? true ["product", "product-dependencies", "policy", "workspace", "discovery"]
    with
  | [some product, declarations, policy, workspace, discovery] =>
      match ← product.fields? true ["group", "name", "version"],
          ← textLists? ["ignored", "optional"] policy, ← textLists? ["products"] workspace,
          ← textLists? ["descriptors"] discovery with
      | [some group, some name, some version], [ignored, optional], [workspace], [descriptors] =>
          let read (d : Document) : Option (List Declaration) := do
            (← d.list?).mapM Declaration.ofDocument?
          return ⟨← group.text?, ← name.text?, ← version.text?,
            ← Document.orElse? [] read declarations, ignored, optional, workspace, descriptors⟩
      | _, _, _, _ => none
  | _ => none

def read? (s : String) : Option ProjectConfig := do ofDocument? (← Toml.read? s)

def product (c : ProjectConfig) : ProductId := ⟨c.group, c.name⟩

def projectVersion (c : ProjectConfig) : Except Invalid Version := Version.read c.version

def declared (c : ProjectConfig) : Except Invalid (List Dependency) :=
  c.declarations.mapM Declaration.dependency

def ids (texts : List String) : Except Invalid IdSet := do
  return .ofList (← texts.mapM ProductId.read)

def ignoredIds (c : ProjectConfig) : Except Invalid IdSet := ids c.ignored

def optionalIds (c : ProjectConfig) : Except Invalid IdSet := ids c.optional

def workspaceIds (c : ProjectConfig) : Except Invalid IdSet := ids c.workspace

/-- Where the descriptors lie, seen from the directory of the configuration. -/
def descriptorPaths (c : ProjectConfig) (root : String) : List String :=
  c.descriptors.map (Path.join root)

end ProjectConfig

end ProductLock

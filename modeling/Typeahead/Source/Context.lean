import Typeahead.Source.Directive
import Typeahead.Source.Member
import Typeahead.Source.Region
import Typeahead.Text.Dotted
import Typeahead.TypeName

namespace Typeahead.Source

open Text

/-- The namespaces tried in turn to qualify a name: none, the enclosing ones from the inside out, then
the imported ones. -/
def qualifiers (current : Option String) (usings : List Using) : List String :=
  let enclosing := (current.map fun name => (dottedPrefixes name.toList).reverse.map String.ofList).getD []
  let imported := usings.filterMap fun
    | .wholeNamespace target => some target
    | _ => none
  keepFirst ("" :: enclosing ++ imported)

/-- The last part of a base as written, without arguments and with aliases replaced. -/
def simpleBaseName (base : String) : String :=
  String.ofList (lastField (· == '.') (TypeName.canonicalBase ⟨base⟩).toList)

/-- The declarations in the text that bear the names of base types, at most `budget` of them. The names
still to be followed are a stack; one that was seen before is passed over. -/
def baseRegions (text : List Char) : (budget : Nat) → (seen pending : List String) → List TypeRegion
  | 0, _, _ => []
  | _, _, [] => []
  | budget + 1, seen, base :: pending =>
    let name := simpleBaseName base
    if seen.contains name then baseRegions text (budget + 1) seen pending
    else
      match typeNamed text name with
      | none => baseRegions text (budget + 1) (name :: seen) pending
      | some region => region :: baseRegions text budget (name :: seen) (region.bases.reverse ++ pending)
termination_by budget _ pending => (budget, pending.length)

/-- How many base types of the same text are followed. -/
def maxBases : Nat := 8

def inheritedRegions (text : List Char) (region : TypeRegion) : List TypeRegion :=
  baseRegions text maxBases [region.name] region.bases.reverse

/-- What a type inherits from the bases declared in the same text. Inherited variables hold in the whole
body of the type. -/
def inheritedDeclarations (text : List Char) (region : TypeRegion) : Declarations :=
  ((inheritedRegions text region).map fun base =>
    ((Declarations.ofType text base).inheritable).withSpan (Span.of region.bodyStart region.stop)).foldr
      (· ++ ·) {}

/-- Everything a lookup needs to know about the code around the caret. -/
structure Context where
  source : List Char
  /-- The source with comments and literals blanked. -/
  text : List Char
  /-- A boundary between characters of the source. -/
  caret : Nat
  beforeFirstType : Bool
  usings : List Using
  currentNamespace : Option String
  qualifiers : List String
  region : Option TypeRegion
  declarations : Declarations
  inherited : Declarations
  declContext : DeclContext

/-- The context at a caret; one inside a character or past the end moves back to a boundary. -/
def Context.of (source : List Char) (caret : Nat) : Context :=
  let caret := floorBoundary caret source
  let text := blank source
  let usings := Source.usings text
  let currentNamespace := namespaceAt? text caret
  let region := enclosingType text caret
  let declarations := (region.map (Declarations.ofType text)).getD {}
  { source, text, caret
    beforeFirstType := isBeforeFirstType text caret
    usings, currentNamespace
    qualifiers := Source.qualifiers currentNamespace usings
    region, declarations
    inherited := (region.map (inheritedDeclarations text)).getD {}
    declContext :=
      match region with
      | some region => declarations.contextAt region.isStatic caret
      | none => .outside }

namespace Context

def typeName? (ctx : Context) : Option String := ctx.region.map (·.name)

def baseTypes (ctx : Context) : List String := (ctx.region.map (·.bases)).getD []

/-- The enclosing and the imported namespaces. -/
def importedNamespaces (ctx : Context) : List String := ctx.qualifiers.filter (· ≠ "")

def staticImports (ctx : Context) : List String :=
  ctx.usings.filterMap fun
    | .staticsOf target => some target
    | _ => none

/-- The name with an alias at its head replaced by the alias's target. -/
def expandAlias (ctx : Context) (name : String) : String :=
  let head := name.toList.takeWhile isIdentifierChar
  let target := ctx.usings.findSome? fun
    | .aliasOf short target => if short.toList = head then some target else none
    | _ => none
  match target with
  | some target => target ++ String.ofList (name.toList.drop head.length)
  | none => name

end Context

end Typeahead.Source

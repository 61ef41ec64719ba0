import Typeahead.Text.Place
import Typeahead.Text.Blank
import Typeahead.Text.Dotted

namespace Typeahead.Markup

open Text

inductive Dialect where
  | html5
  | xhtml
  deriving DecidableEq, Repr

/-- How many characters of a document are searched for its dialect. -/
def sniffLength : Nat := 512

/-- XHTML when the document starts with an XML declaration or its document type mentions it. -/
def Dialect.of (source : List Char) : Dialect :=
  let head := ((trimStart source).take sniffLength).map Char.toLower
  if "<?xml".toList.isPrefixOf head then .xhtml
  else
    match splitFirst "<!doctype".toList head with
    | some (_, declaration) =>
      if contains "xhtml".toList (declaration.takeWhile (· ≠ '>')) then .xhtml else .html5
    | none => .html5

/-- A tag that the dictionary knows. -/
structure TagSpec where
  name : String
  attributes : List String
  /-- An element without content and closing tag. -/
  isVoid : Bool
  /-- The one dialect that has the tag; none for a tag of both. -/
  only : Option Dialect
  deriving DecidableEq, Repr

def TagSpec.tag (name : String) (attributes : List String) (only : Option Dialect := none) : TagSpec :=
  ⟨name, attributes, false, only⟩

def TagSpec.void (name : String) (attributes : List String) (only : Option Dialect := none) : TagSpec :=
  ⟨name, attributes, true, only⟩

/-- The tags of both dialects in the order of their names. -/
def allTags : List TagSpec := [
  .tag "a" ["href", "target", "rel", "type", "hreflang", "name"],
  .tag "abbr" [],
  .tag "acronym" [] (some .xhtml),
  .void "area" ["href", "shape", "coords", "alt", "nohref"] (some .xhtml),
  .tag "article" [] (some .html5),
  .tag "aside" [] (some .html5),
  .tag "audio" ["src", "controls", "autoplay", "loop", "muted", "preload"] (some .html5),
  .tag "b" [],
  .void "base" ["href"] (some .xhtml),
  .tag "big" [] (some .xhtml),
  .tag "blockquote" ["cite"],
  .tag "body" ["onload", "onunload"],
  .void "br" [],
  .tag "button" ["type", "name", "value", "disabled"],
  .tag "canvas" ["width", "height"] (some .html5),
  .tag "caption" [],
  .tag "cite" [] (some .xhtml),
  .tag "code" [],
  .void "col" ["span"],
  .tag "colgroup" ["span"] (some .xhtml),
  .tag "datalist" [] (some .html5),
  .tag "dd" [],
  .tag "del" ["cite", "datetime"] (some .xhtml),
  .tag "details" ["open"] (some .html5),
  .tag "dfn" [] (some .xhtml),
  .tag "dialog" ["open"] (some .html5),
  .tag "div" [],
  .tag "dl" [],
  .tag "dt" [],
  .tag "em" [],
  .void "embed" ["src", "type", "width", "height"] (some .html5),
  .tag "fieldset" ["disabled", "name"],
  .tag "figcaption" [] (some .html5),
  .tag "figure" [] (some .html5),
  .tag "footer" [] (some .html5),
  .tag "form" ["action", "method", "enctype", "target", "name", "accept-charset"],
  .tag "h1" [],
  .tag "h2" [],
  .tag "h3" [],
  .tag "h4" [],
  .tag "h5" [],
  .tag "h6" [],
  .tag "head" [],
  .tag "header" [] (some .html5),
  .void "hr" [],
  .tag "html" ["xmlns", "lang"],
  .tag "i" [],
  .tag "iframe" ["src", "name", "width", "height"],
  .void "img" ["src", "alt", "width", "height", "usemap"],
  .void "input" ["type", "name", "value", "checked", "disabled", "readonly", "maxlength", "size", "src",
    "alt"],
  .tag "ins" ["cite", "datetime"] (some .xhtml),
  .tag "kbd" [] (some .xhtml),
  .tag "label" ["for"],
  .tag "legend" [],
  .tag "li" ["value"],
  .void "link" ["href", "rel", "type", "media", "hreflang"],
  .tag "main" [] (some .html5),
  .tag "map" ["name"],
  .tag "mark" [] (some .html5),
  .void "meta" ["name", "content", "http-equiv", "charset"],
  .tag "nav" [] (some .html5),
  .tag "noscript" [],
  .tag "object" ["data", "type", "name", "width", "height"],
  .tag "ol" ["start", "type", "reversed"],
  .tag "optgroup" ["label", "disabled"],
  .tag "option" ["value", "selected", "disabled", "label"],
  .tag "output" ["for", "name"] (some .html5),
  .tag "p" [],
  .void "param" ["name", "value"],
  .tag "pre" [],
  .tag "progress" ["value", "max"] (some .html5),
  .tag "q" ["cite"],
  .tag "samp" [] (some .xhtml),
  .tag "script" ["src", "type", "charset", "defer", "async"],
  .tag "section" [] (some .html5),
  .tag "select" ["name", "multiple", "size", "disabled"],
  .tag "small" [],
  .void "source" ["src", "type", "media"] (some .html5),
  .tag "span" [],
  .tag "strong" [],
  .tag "style" ["type", "media"],
  .tag "sub" [],
  .tag "summary" [] (some .html5),
  .tag "sup" [],
  .tag "table" ["border", "cellpadding", "cellspacing", "summary", "width"],
  .tag "tbody" [],
  .tag "td" ["colspan", "rowspan", "headers"],
  .tag "template" [] (some .html5),
  .tag "textarea" ["name", "rows", "cols", "disabled", "readonly"],
  .tag "tfoot" [],
  .tag "th" ["colspan", "rowspan", "scope", "headers"],
  .tag "thead" [],
  .tag "time" ["datetime"] (some .html5),
  .tag "title" [],
  .tag "tr" [],
  .void "track" ["src", "kind", "srclang", "label", "default"] (some .html5),
  .tag "tt" [] (some .xhtml),
  .tag "ul" [],
  .tag "var" [] (some .xhtml),
  .tag "video" ["src", "controls", "autoplay", "loop", "muted", "poster", "width", "height"] (some .html5),
  .void "wbr" [] (some .html5)]

/-- The tags and attributes of a dialect. -/
structure Dictionary where
  dialect : Dialect
  tags : List TagSpec
  globalAttributes : List String
  /-- Values under `tag.attribute`, or under the attribute alone for every tag. -/
  attributeValues : List (String × List String)
  deriving DecidableEq, Repr

/-- Values that both dialects share. -/
def commonValues : List (String × List String) := [
  ("target", ["_blank", "_self", "_parent", "_top"]),
  ("form.method", ["get", "post"]),
  ("form.enctype", ["application/x-www-form-urlencoded", "multipart/form-data", "text/plain"]),
  ("button.type", ["submit", "reset", "button"]),
  ("dir", ["ltr", "rtl"]),
  ("rel", ["stylesheet", "alternate", "icon", "nofollow", "next", "prev", "help"]),
  ("script.type", ["text/javascript"]),
  ("style.type", ["text/css"]),
  ("link.type", ["text/css"]),
  ("th.scope", ["row", "col", "rowgroup", "colgroup"]),
  ("ol.type", ["1", "a", "A", "i", "I"]),
  ("checked", ["checked"]),
  ("selected", ["selected"]),
  ("disabled", ["disabled"]),
  ("readonly", ["readonly"]),
  ("multiple", ["multiple"])]

def inputTypes : List String :=
  ["text", "password", "checkbox", "radio", "submit", "reset", "button", "hidden", "file", "image"]

def dialectValues : Dialect → List (String × List String)
  | .html5 => [
    ("input.type", inputTypes ++ ["email", "url", "tel", "number", "range", "date", "time",
      "datetime-local", "month", "week", "color", "search"]),
    ("preload", ["none", "metadata", "auto"]),
    ("track.kind", ["subtitles", "captions", "descriptions", "chapters", "metadata"]),
    ("contenteditable", ["true", "false"]),
    ("draggable", ["true", "false"]),
    ("spellcheck", ["true", "false"])]
  | .xhtml => [
    ("input.type", inputTypes),
    ("area.shape", ["rect", "circle", "poly", "default"])]

def globalAttributes : Dialect → List String
  | .html5 =>
    ["id", "class", "style", "title", "lang", "dir", "hidden", "tabindex", "accesskey",
      "contenteditable", "draggable", "spellcheck", "translate", "onclick", "onkeydown", "onkeyup",
      "onmouseover", "onmouseout", "onfocus", "onblur"]
  | .xhtml =>
    ["id", "class", "style", "title", "lang", "xml:lang", "dir", "onclick", "ondblclick", "onkeydown",
      "onkeyup", "onmouseover", "onmouseout"]

def lowerCase (text : String) : String := text.map Char.toLower

namespace Dictionary

def of (dialect : Dialect) : Dictionary where
  dialect := dialect
  tags := allTags.filter fun t => t.only.all (· == dialect)
  globalAttributes := Markup.globalAttributes dialect
  attributeValues := commonValues ++ dialectValues dialect

/-- The tag of a name in any case. -/
def tag? (d : Dictionary) (name : String) : Option TagSpec := d.tags.find? (·.name == lowerCase name)

def isVoid (d : Dictionary) (name : String) : Bool := (d.tag? name).any (·.isVoid)

/-- The tag's own attributes and the global ones, without repetitions. -/
def attributesFor (d : Dictionary) (tag : String) : List String :=
  keepFirst (((d.tag? tag).map (·.attributes)).getD [] ++ d.globalAttributes)

/-- The known values of an attribute; those of the tag come before those of every tag. -/
def valuesFor (d : Dictionary) (tag attr : String) : List String :=
  let name := lowerCase attr
  ((d.attributeValues.lookup (lowerCase tag ++ "." ++ name)).or (d.attributeValues.lookup name)).getD []

end Dictionary

end Typeahead.Markup

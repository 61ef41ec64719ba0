namespace Typeahead.Markup

def colors : List String :=
  ["transparent", "black", "white", "red", "green", "blue", "yellow", "gray", "silver", "maroon",
    "navy", "olive", "purple", "teal", "orange", "inherit"]

def lengths : List String := ["auto", "inherit", "0"]

def borderStyles : List String :=
  ["none", "hidden", "dotted", "dashed", "solid", "double", "groove", "ridge", "inset", "outset",
    "inherit"]

/-- The properties in the order in which they are offered. -/
def styleProperties : List (String × List String) := [
  ("background", ["none", "transparent", "inherit"]),
  ("background-color", colors),
  ("background-image", ["none", "url()", "inherit"]),
  ("background-repeat", ["repeat", "repeat-x", "repeat-y", "no-repeat", "inherit"]),
  ("background-position", ["top", "bottom", "left", "right", "center", "inherit"]),
  ("border", borderStyles),
  ("border-color", colors),
  ("border-style", borderStyles),
  ("border-width", ["thin", "medium", "thick", "inherit"]),
  ("border-collapse", ["collapse", "separate", "inherit"]),
  ("bottom", lengths),
  ("clear", ["none", "left", "right", "both", "inherit"]),
  ("color", colors),
  ("cursor", ["auto", "default", "pointer", "text", "move", "wait", "help", "crosshair", "inherit"]),
  ("display", ["none", "block", "inline", "inline-block", "flex", "grid", "table", "list-item",
    "inherit"]),
  ("float", ["none", "left", "right", "inherit"]),
  ("font-family", ["serif", "sans-serif", "monospace", "cursive", "fantasy", "inherit"]),
  ("font-size", ["xx-small", "x-small", "small", "medium", "large", "x-large", "xx-large", "smaller",
    "larger", "inherit"]),
  ("font-style", ["normal", "italic", "oblique", "inherit"]),
  ("font-weight", ["normal", "bold", "bolder", "lighter", "100", "400", "700", "inherit"]),
  ("height", lengths),
  ("left", lengths),
  ("line-height", ["normal", "inherit"]),
  ("list-style-type", ["none", "disc", "circle", "square", "decimal", "lower-alpha", "upper-alpha",
    "inherit"]),
  ("margin", lengths),
  ("max-width", ["none", "inherit"]),
  ("min-width", ["0", "inherit"]),
  ("opacity", ["0", "1", "inherit"]),
  ("overflow", ["visible", "hidden", "scroll", "auto", "inherit"]),
  ("padding", ["0", "inherit"]),
  ("position", ["static", "relative", "absolute", "fixed", "sticky", "inherit"]),
  ("right", lengths),
  ("text-align", ["left", "right", "center", "justify", "inherit"]),
  ("text-decoration", ["none", "underline", "overline", "line-through", "inherit"]),
  ("text-transform", ["none", "capitalize", "uppercase", "lowercase", "inherit"]),
  ("top", lengths),
  ("vertical-align", ["baseline", "top", "middle", "bottom", "sub", "super", "text-top", "text-bottom",
    "inherit"]),
  ("visibility", ["visible", "hidden", "collapse", "inherit"]),
  ("white-space", ["normal", "nowrap", "pre", "pre-wrap", "pre-line", "inherit"]),
  ("width", lengths),
  ("z-index", ["auto", "inherit"])]

end Typeahead.Markup

import MarkupQuery.Markup.Token

/-!
# Vocabularies

An element belongs to the vocabulary of its document or, inside `svg` and `math`, to one of their
own. Names are read without regard to case, and the other vocabularies spell some of theirs in mixed
case. Their attribute names have prefixes, written in front of a colon; the prefix of `xmlns` is
empty.

* `Vocabulary`, `Vocabulary.ofTag`, `Vocabulary.around`: the vocabulary of an element and the one it
  puts around its children;
* `Vocabulary.tag`, `Vocabulary.attributes`: names as the vocabulary spells them.
-/

namespace MarkupQuery

/-- A set of elements with their names. -/
inductive Vocabulary where
  | html
  | svg
  | math
deriving DecidableEq

namespace Vocabulary

/-! ## Names in mixed case -/

/-- The tags of `svg` that are not in lower case. -/
def svgTags : List String :=
  ["altGlyph", "altGlyphDef", "altGlyphItem", "animateColor", "animateMotion", "animateTransform",
    "clipPath", "feBlend", "feColorMatrix", "feComponentTransfer", "feComposite",
    "feConvolveMatrix", "feDiffuseLighting", "feDisplacementMap", "feDistantLight", "feDropShadow",
    "feFlood", "feFuncA", "feFuncB", "feFuncG", "feFuncR", "feGaussianBlur", "feImage", "feMerge",
    "feMergeNode", "feMorphology", "feOffset", "fePointLight", "feSpecularLighting", "feSpotLight",
    "feTile", "feTurbulence", "foreignObject", "glyphRef", "linearGradient", "radialGradient",
    "textPath"]

/-- The attribute names of `svg` that are not in lower case. -/
def svgAttributes : List String :=
  ["attributeName", "attributeType", "baseFrequency", "baseProfile", "calcMode", "clipPathUnits",
    "diffuseConstant", "edgeMode", "filterUnits", "glyphRef", "gradientTransform", "gradientUnits",
    "kernelMatrix", "kernelUnitLength", "keyPoints", "keySplines", "keyTimes", "lengthAdjust",
    "limitingConeAngle", "markerHeight", "markerUnits", "markerWidth", "maskContentUnits",
    "maskUnits", "numOctaves", "pathLength", "patternContentUnits", "patternTransform",
    "patternUnits", "pointsAtX", "pointsAtY", "pointsAtZ", "preserveAlpha", "preserveAspectRatio",
    "primitiveUnits", "refX", "refY", "repeatCount", "repeatDur", "requiredExtensions",
    "requiredFeatures", "specularConstant", "specularExponent", "spreadMethod", "startOffset",
    "stdDeviation", "stitchTiles", "surfaceScale", "systemLanguage", "tableValues", "targetX",
    "targetY", "textLength", "viewBox", "viewTarget", "xChannelSelector", "yChannelSelector",
    "zoomAndPan"]

/-- The attribute names of `math` that are not in lower case. -/
def mathAttributes : List String := ["definitionURL"]

/-- The spelling that a table has for a name in lower case, or the name itself. -/
def spelled (table : List String) (name : String) : String :=
  (table.find? (lowerName · = name)).getD name

/-! ## Elements -/

/-- The tags of elements whose contents belong to the document again. -/
def integrationTags : Vocabulary → List String
  | html => []
  | svg => ["foreignobject", "desc", "title"]
  | math => ["mi", "mo", "mn", "ms", "mtext"]

/-- The encodings of an annotation that is written in the vocabulary of the document. -/
def documentEncodings : List String := ["text/html", "application/xhtml+xml"]

/-- The contents of an element belong to the document again. The tag and the attribute names are in
lower case. -/
def integrates (v : Vocabulary) (tag : String) (attributes : List Attribute) : Bool :=
  v.integrationTags.contains tag ||
    v = math && tag = "annotation-xml" && attributes.any fun a =>
      a.name = "encoding" && documentEncodings.contains (lowerName a.value)

/-- An element keeps its child in its own vocabulary, even if its other contents belong to the
document. -/
def keepsChild (v : Vocabulary) (tag child : String) : Bool :=
  v = math && v.integrationTags.contains tag && ["mglyph", "malignmark"].contains child

/-- An annotation takes `svg` as a child from the document, whatever its encoding. -/
def takesSvg (v : Vocabulary) (tag child : String) : Bool :=
  v = math && tag = "annotation-xml" && child = "svg"

/-- The vocabulary that an element with the given tag and attributes puts around a child. -/
def around (v : Vocabulary) (tag : String) (attributes : List Attribute) (child : String) :
    Vocabulary :=
  if v.keepsChild tag child then v
  else if v.takesSvg tag child || v.integrates tag attributes then html
  else v

/-- The vocabulary of an element, given the vocabulary around it and its tag in lower case. Only in
the document do `svg` and `math` begin their own. -/
def ofTag : Vocabulary → String → Vocabulary
  | html, "svg" => svg
  | html, "math" => math
  | v, _ => v

/-- A tag as the vocabulary spells it. -/
def tag : Vocabulary → String → String
  | html, "image" => "img"
  | svg, name => spelled svgTags name
  | _, name => name

/-- An attribute name as the vocabulary spells it. -/
def attributeName : Vocabulary → String → String
  | html, name => name
  | _, "xmlns" => ":xmlns"
  | svg, name => spelled svgAttributes name
  | math, name => spelled mathAttributes name

/-- Attributes with their names as the vocabulary spells them. -/
def attributes (v : Vocabulary) (as : List Attribute) : List Attribute :=
  as.map fun a => { a with name := v.attributeName a.name }

end Vocabulary

end MarkupQuery

import LuaGraph.Signature

/-!
# Inline texts

A value is written on one line as a sketch. It is refused where a table is met again, where tables
are nested too deeply, and where the text gets too long. Where the sort of some entries panics on
the way, there is neither a text nor a refusal. `dump` shows values to readers: tables inline,
everything else as it is displayed.

`inline?` is `to_string_inline_with_options`, `dump` is one of the texts of `dump_strings`, and
`dumpLine` the line of `dump_to`.
-/

namespace LuaGraph

/-- The manner of inline texts. -/
def Sketch.refusing (o : Options) : Sketch.Manner where
  limit := o.inlineLimit
  maxDepth := o.limits.maxDepth

namespace Heap

/-- The value on one line, or why it is refused: it is no tree, nested too deeply or too long. -/
def inline (H : Heap) (o : Options) (v : Value) : Option (Except Error String) := do
  let (done, k) ← Sketch.draw (Sketch.refusing o) H.listing? v
  return done.map fun _ => k.text

/-- **The value on one line**, unless it is refused. -/
def inline? (H : Heap) (o : Options) (v : Value) : Option (Option String) :=
  (·.toOption) <$> H.inline o v

/-- What is shown for a table that has no inline text. -/
def dumpFailed : String := "(serialization failed)"

/-- A value as it is shown to readers. -/
def dump (H : Heap) (v : Value) : Option String :=
  if v.isTable then (·.getD dumpFailed) <$> H.inline? .compact v else v.display

/-- The line that shows some values. -/
def dumpLine (H : Heap) (vs : List Value) : Option String := do
  let shown ← vs.mapM H.dump
  return "\t".intercalate shown ++ "\n"

end Heap

end LuaGraph

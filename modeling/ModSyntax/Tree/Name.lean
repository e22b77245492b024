/-!
# Qualified names

A qualified name is a list of segments, written with dots between them.
-/

namespace ModSyntax

/-- A name such as `x` or `InOut.WriteInt`. -/
structure QualifiedName where
  segments : List String
deriving DecidableEq

namespace QualifiedName

/-- The name of one segment, whatever characters it holds. -/
def simple (name : String) : QualifiedName := ⟨[name]⟩

/-- The name written as a path: every dot ends a segment. -/
def ofPath (path : String) : QualifiedName :=
  ⟨(path.toList.splitOn '.').map String.ofList⟩

def isQualified (q : QualifiedName) : Bool := q.segments.length > 1

instance : ToString QualifiedName := ⟨fun q => ".".intercalate q.segments⟩

end QualifiedName

end ModSyntax

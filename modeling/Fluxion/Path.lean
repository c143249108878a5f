/-!
# Fluxion.Path

Paths of files: names separated by slashes.
-/

namespace Fluxion.Path

/-- A name below a directory; a name that starts with a slash stands on its own. -/
def join (dir name : String) : String :=
  if name.toList.head? = some '/' then name
  else if dir.isEmpty || dir.toList.getLast? = some '/' then dir ++ name
  else dir ++ "/" ++ name

end Fluxion.Path

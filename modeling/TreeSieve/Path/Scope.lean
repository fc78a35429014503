import TreeSieve.Path.Basic

/-!
# Scopes

A rule holds for a directory, its scope, and for everything below it. Both are canonical path texts,
and a scope ends where a component ends: `/a/bc` does not lie in `/a/b`.

The host is taken to be a POSIX one: a slash parts the components of a path and nothing else does,
and paths that differ in letter case lead to different places, so that texts are compared as they
are. Nothing is said about hosts that compare paths case-insensitively.

* `inScope` tells whether a path is a scope or lies below it.
* `relativePath?` is the rest of such a path.
-/

namespace TreeSieve

/-- A scope without slashes at its end, so that the root has the empty text. -/
def scopeStem (scope : Text) : Text := Text.dropEndWhile (· == '/') scope

/-- Whether a path is the scope or lies below it. -/
def inScope (path scope : Text) : Bool :=
  path == scopeStem scope || (scopeStem scope ++ ['/']).isPrefixOf path

/-- The part of a path below a scope, empty for the scope itself, if the path lies within it. -/
def relativePath? (path scope : Text) : Option Text :=
  if inScope path scope then some (path.drop ((scopeStem scope).length + 1)) else none

end TreeSieve

/-
  MixinCss.Library.Index

  The names of all mixins that come with the library.
-/

import MixinCss.Library.Appearance
import MixinCss.Library.Box
import MixinCss.Library.Columns
import MixinCss.Library.Position
import MixinCss.Library.Typography

namespace MixinCss.Library

/-- Every mixin of the library with its name. -/
def all : List (Text × Mixin) :=
  (position ++ box ++ columns ++ appearance ++ typography).map fun entry =>
    (utf8 entry.1, entry.2)

end MixinCss.Library

/-! # Options

Both features are off unless they are asked for.
-/

namespace ClassHoist

/-- What to do besides moving the classes of components into style rules: support classes for one
direction of text only, marked `rtl:` or `ltr:`, and make classes marked `gl:` global. -/
structure Options where
  rtl : Bool
  globalPrefix : Bool
  deriving DecidableEq, Repr, Inhabited

/-- The whole text has to be searched for marked classes. -/
def Options.scansTokens (options : Options) : Bool :=
  options.rtl || options.globalPrefix

end ClassHoist

import MarkdownLinks.Text.CaseFold
import MarkdownLinks.Text.Whitespace

/-!
# Labels

Labels of definitions and references match when their identifiers are equal: the normal form, case folded.
-/

namespace MarkdownLinks

def identifierOf (label : Text) : Text := caseFold label.normalize

end MarkdownLinks

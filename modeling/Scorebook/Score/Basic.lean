import Scorebook.Score.Metadata
import Scorebook.Score.Order
import Scorebook.Score.Part

/-!
# Scores

What a document says, as far as it is engraved: the order, the parts in their groups, and the
metadata.
-/

namespace Scorebook

structure Score where
  order : Order
  groups : List Group
  metadata : Metadata

end Scorebook

import TaggedMarkup.Proofs.Keyed
import TaggedMarkup.Schema.Analytics
/-!
# The schemas of analytics definitions

Facts about the one built-in registry that proofs about it rest on.
-/
namespace TaggedMarkup.Analytics

theorem registry_wellKeyed : registry.WellKeyed :=
  Registry.wellKeyed_of_isWellKeyed (by decide +kernel)

end TaggedMarkup.Analytics

import TaggedMarkup.Proofs.Deployment
import TaggedMarkup.Samples
import TaggedMarkup.Schema.Check
import TaggedMarkup.Settings.Toml
import TaggedMarkup.Proofs.Markup.Alike
import TaggedMarkup.Proofs.Stability.Legible
import TaggedMarkup.Proofs.Stability.Scalars
import TaggedMarkup.Proofs.Stability.Bodies
import TaggedMarkup.Proofs.Stability.Rewriting
import TaggedMarkup.Proofs.Stability.Definitions
import TaggedMarkup.Proofs.Numeral
import TaggedMarkup.Proofs.Restoring.Faithful
import TaggedMarkup.Proofs.Restoring.Values
import TaggedMarkup.Proofs.Restoring.Objects
import TaggedMarkup.Proofs.Restoring.Definitions
import TaggedMarkup.Proofs.Cases
import TaggedMarkup.Proofs.Decoding.Candidates
import TaggedMarkup.Proofs.Markup.Names
import TaggedMarkup.Proofs.Order.Decoding
import TaggedMarkup.Proofs.Stores.Encoding
import TaggedMarkup.Proofs.Decoding.Report
import TaggedMarkup.Proofs.Decoding.Pruned
import TaggedMarkup.Proofs.Unpacking
import TaggedMarkup.Proofs.Filling.SpelledOut
import TaggedMarkup.Proofs.Registry.WellFormed
import TaggedMarkup.Proofs.Filling.Synthesis
import TaggedMarkup.Proofs.Filling.Bounded
import TaggedMarkup.Proofs.Restoring.Strings
import TaggedMarkup.Proofs.Decoding.Depth
import TaggedMarkup.Proofs.Markup.Asides
import TaggedMarkup.Proofs.Filling.LeftOut
import TaggedMarkup.Proofs.Encoding.Mismatches
import TaggedMarkup.Proofs.Reference.Batches
import TaggedMarkup.Proofs.Packing
import TaggedMarkup.Proofs.JsonForm
import TaggedMarkup.Proofs.Canonical
import TaggedMarkup.Proofs.Segments
import TaggedMarkup.Proofs.Summaries
import TaggedMarkup.Proofs.Markup.Grouping
import TaggedMarkup.Proofs.Session

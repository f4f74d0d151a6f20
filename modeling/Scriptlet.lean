import Scriptlet.Main
import Scriptlet.Proofs.Congruence
import Scriptlet.Proofs.Conduct
import Scriptlet.Proofs.Frames
import Scriptlet.Proofs.Moves
import Scriptlet.Proofs.Shape
import Scriptlet.Proofs.Guards
import Scriptlet.Proofs.Grammar
import Scriptlet.Proofs.Scanning
import Scriptlet.Proofs.Reading
import Scriptlet.Proofs.Sentences
import Scriptlet.Proofs.Cutting
import Scriptlet.Proofs.Accepted
import Scriptlet.Proofs.Correspondence
import Scriptlet.Proofs.Parallel
import Scriptlet.Proofs.Comparison
import Scriptlet.Proofs.Scoping
import Scriptlet.Proofs.Returns
import Scriptlet.Proofs.Relocation
import Scriptlet.Proofs.Stacking
import Scriptlet.Proofs.Joining
import Scriptlet.Proofs.Rejection
import Scriptlet.Proofs.Laws
import Scriptlet.Proofs.Identity
import Scriptlet.Proofs.Naming
import Scriptlet.Proofs.Renaming
import Scriptlet.Proofs.Repetition
import Scriptlet.Proofs.Locals
import Scriptlet.Proofs.Ancestry
import Scriptlet.Proofs.Requests
import Scriptlet.Proofs.Memory
import Scriptlet.Proofs.Blame
import Scriptlet.Proofs.Nesting
import Scriptlet.Proofs.Layout
import Scriptlet.Proofs.Likeness
import Scriptlet.Proofs.Bracketing
import Scriptlet.Proofs.Storing
import Scriptlet.Proofs.Rounding
import Scriptlet.Proofs.Numerals
import Scriptlet.Proofs.Grids
import Scriptlet.Proofs.ReadBack
import Scriptlet.Proofs.Literals
import Scriptlet.Proofs.Keeping
import Scriptlet.Proofs.Placement
import Scriptlet.Proofs.Exhaustion
import Scriptlet.Proofs.Transcripts
import Scriptlet.Proofs.Sessions
import Scriptlet.Proofs.Listing
import Scriptlet.Proofs.Batches
import Scriptlet.Proofs.Containment
import Scriptlet.Proofs.Endings
import Scriptlet.Proofs.Pieces
import Scriptlet.Proofs.Callees
import Scriptlet.Proofs.Typed
import Scriptlet.Proofs.Parameters
import Scriptlet.Proofs.Semicolons
import Scriptlet.Proofs.Unrolling
import Scriptlet.Proofs.Halving
import Scriptlet.Proofs.Outlines
import Scriptlet.Proofs.Shortness

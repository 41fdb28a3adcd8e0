import StyleFeed.Main
import StyleFeed.Proofs.Conservation
import StyleFeed.Proofs.Faults
import StyleFeed.Proofs.Identity
import StyleFeed.Proofs.LifeCycle
import StyleFeed.Proofs.Links
import StyleFeed.Proofs.Origins
import StyleFeed.Proofs.Overtaken
import StyleFeed.Proofs.Renames
import StyleFeed.Proofs.Rescan
import StyleFeed.Proofs.Splitting
import StyleFeed.Proofs.Transmission
import StyleFeed.Proofs.Turns
import StyleFeed.Proofs.Undelivered
import StyleFeed.Proofs.Pruning
import StyleFeed.Proofs.Places
import StyleFeed.Proofs.Answers
import StyleFeed.Proofs.Repetition
import StyleFeed.Proofs.Locality
import StyleFeed.Proofs.Relocation
import StyleFeed.Proofs.Decoding
import StyleFeed.Proofs.Recognition
import StyleFeed.Proofs.Homes
import StyleFeed.Proofs.Deadlines
import StyleFeed.Proofs.Payloads
import StyleFeed.Proofs.Writing
import StyleFeed.Proofs.Settings
import StyleFeed.Proofs.Arguments
import StyleFeed.Proofs.Recollection
import StyleFeed.Proofs.Overlong
import StyleFeed.Proofs.Manifests
import StyleFeed.Proofs.Descendants
import StyleFeed.Proofs.Operations

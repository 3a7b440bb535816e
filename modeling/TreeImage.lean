import TreeImage.Main
import TreeImage.Proofs.Verification
import TreeImage.Proofs.RoundTrip
import TreeImage.Proofs.Exactness
import TreeImage.Proofs.Rebuilding
import TreeImage.Proofs.Subtree
import TreeImage.Proofs.Reordering
import TreeImage.Proofs.Checks
import TreeImage.Proofs.Tiling
import TreeImage.Proofs.Slack
import TreeImage.Proofs.DirectChildren
import TreeImage.Proofs.Blocks
import TreeImage.Proofs.CsvText
import TreeImage.Proofs.Exports
import TreeImage.Proofs.Outputs

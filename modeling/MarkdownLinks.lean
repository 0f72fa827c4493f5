import MarkdownLinks.Logging
import MarkdownLinks.Main
import MarkdownLinks.Workbench
import MarkdownLinks.Proofs.CommandLine
import MarkdownLinks.Proofs.Link.Report
import MarkdownLinks.Proofs.Link.Fixpoint
import MarkdownLinks.Proofs.Link.Placed
import MarkdownLinks.Proofs.Link.Twin
import MarkdownLinks.Proofs.CommandLine.Ending
import MarkdownLinks.Proofs.Link.Estimate
import MarkdownLinks.Proofs.Block.FrontMatter
import MarkdownLinks.Proofs.Link.FrontMatter
import MarkdownLinks.Proofs.Destination
import MarkdownLinks.Proofs.Node.Continued
import MarkdownLinks.Proofs.Link.Detached
import MarkdownLinks.Proofs.LineEndings
import MarkdownLinks.Proofs.Logging
import MarkdownLinks.Proofs.Options
import MarkdownLinks.Proofs.Position
import MarkdownLinks.Proofs.Title
import MarkdownLinks.Proofs.Link.Identity
